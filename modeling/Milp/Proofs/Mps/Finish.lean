import Milp.Proofs.Mps.Draft
import Milp.Proofs.Terms

/-!
# Drafts turned into problems

Results:
1. `objective_eq`, `body_eq`: the terms of the objective and of a row, column by column.
2. `finish_eq`: what comes of a sound draft. Nothing is refused but bounds and limits that are out of
   order: those of the first column, or else of the first row.
-/

namespace Milp.Mps

open Expression (total?)

variable {K L : Type}

/-- The set a column's variable ranges over. -/
def Column.domain (c : Column K L) : Domain :=
  if c.binary then .binary else if c.integer then .integer else .continuous

/-- The coefficients of a column in a row, in the order of the file. -/
def Column.coefficients (c : Column K L) (row : Nat) : List K :=
  (c.entries.filter fun t => t.1 = row).map (·.2)

/-- The variable of a column. -/
def Column.entry (c : Column K L) : Entry K L :=
  ⟨c.name, ⟨some c.name, c.domain, c.lower, c.upper⟩, none⟩

/-- Whether the bounds of a column are the ends of an interval. -/
def Column.isOrdered [Limits L K] (c : Column K L) : Bool := Limits.isOrdered c.lower c.upper

theorem Column.definition_eq [Scalar K] [Limits L K] (c : Column K L) :
    c.definition = ⟨some c.name, c.domain, c.lower, c.upper⟩ := by
  unfold Column.definition Column.domain
  split
  · rfl
  · split <;> rfl

namespace Draft

variable {d : Draft K L}

theorem objective_eq [Scalar K] (d : Draft K L) : d.objective =
    ⟨d.columns.toList.zipIdx.map fun c => (⟨c.2⟩, 0 + c.1.objective), 0 + d.objectiveConstant⟩ := by
  have terms := Expression.foldl_groups [] (fun c : Column K L => [c.objective]) d.columns.toList 0
    (by simp) 0
  simp only [List.foldl_cons, List.foldl_nil, total?, Option.map_some, List.nil_append,
    List.filterMap_eq_map'] at terms
  unfold objective
  rw [show (Expression.zero : Expression K) = ⟨[], 0⟩ from rfl, terms]
  rfl

theorem body_eq [Scalar K] (d : Draft K L) (row : Nat) : d.body row =
    ⟨d.columns.toList.zipIdx.filterMap fun c =>
      (total? (c.1.coefficients row)).map (Prod.mk ⟨c.2⟩), 0⟩ := by
  have terms := Expression.foldl_groups [] (fun c : Column K L => c.coefficients row)
    d.columns.toList 0 (by simp) 0
  simp only [Column.coefficients, List.foldl_map, List.nil_append] at terms
  exact terms

/-- The constraints of the rows, in order. -/
def constraints [Scalar K] [Limits L K] (d : Draft K L) : List (Constraint K L) :=
  d.rows.toList.zipIdx.map fun r => d.constraint r.1 r.2

end Draft

/-! ## Adding what is new -/

section Adding

variable {m : Model K L}

theorem addVariable_column [Scalar K] [Limits L K] {c : Column K L}
    (fresh : m.variableNamed? c.name = none) :
    m.addVariable c.definition =
      if c.isOrdered then .ok (m.withVariable c.name c.entry.definition, ⟨m.definitions.size⟩)
      else .error (.invalidVariableBounds c.name c.lower c.upper) := by
  have name : m.nextName c.definition = c.name := by
    rw [Column.definition_eq]
    rfl
  have bounds : Limits.isOrdered c.definition.lower c.definition.upper = c.isOrdered := by
    rw [Column.definition_eq]
    rfl
  rw [Model.addVariable, Change.result, Change.addVariable_eq, name, fresh, bounds,
    Column.definition_eq]
  cases c.isOrdered <;> rfl

theorem variableNamed?_withVariable {name other : String} (differ : name ≠ other)
    (d : Definition L) : (m.withVariable name d).variableNamed? other = m.variableNamed? other := by
  simp [Model.variableNamed?, Model.withVariable, List.lookup_append, List.lookup_cons,
    beq_false_of_ne (Ne.symm differ)]

/-- Variables of new names are added up to the first whose bounds are out of order. -/
theorem foldlM_addVariable [Scalar K] [Limits L K] (ks : Array (Constraint K L))
    (objective : Expression K) (cs : List (Column K L)) (es : Array (Entry K L)) (distinct : (cs.map (·.name)).Nodup)
    (fresh : ∀ c ∈ cs, (Model.ofParts es ks objective).variableNamed? c.name = none) :
    cs.foldlM (fun m c => do return (← (m.addVariable c.definition).mapError Error.model).1)
        (Model.ofParts es ks objective) =
      match cs.find? (!·.isOrdered) with
      | some c => .error (.model (.invalidVariableBounds c.name c.lower c.upper))
      | none => .ok (.ofParts (es ++ (cs.map Column.entry).toArray) ks objective) := by
  induction cs generalizing es with
  | nil => simp [pure, Except.pure]
  | cons c cs ih =>
    rw [List.map_cons, List.nodup_cons] at distinct
    rw [List.foldlM_cons, addVariable_column (fresh c (List.mem_cons_self ..)), List.find?_cons]
    cases ordered : c.isOrdered with
    | false => rfl
    | true =>
      have pushed : (Model.ofParts es ks objective).withVariable c.name c.entry.definition =
          .ofParts (es.push c.entry) ks objective :=
        Model.withVariable_ofParts c.name c.entry.definition
      have later : ∀ b ∈ cs,
          (Model.ofParts (es.push c.entry) ks objective).variableNamed? b.name = none := by
        intro b hb
        refine (congrArg (Model.variableNamed? · b.name) pushed).symm.trans ?_
        rw [variableNamed?_withVariable]
        · exact fresh b (List.mem_cons_of_mem _ hb)
        · intro same
          exact distinct.1 (List.mem_map.mpr ⟨b, hb, same.symm⟩)
      rw [pushed]
      refine (ih (es.push c.entry) distinct.2 later).trans ?_
      simp

theorem addConstraint_new [Limits L K] {k : Constraint K L} {name : String} (named : k.name = some name)
    (fresh : m.constraintNamed? name = none)
    (covers : ∀ t ∈ k.body.terms, t.1.index < m.definitions.size) :
    m.addConstraint k =
      if Limits.isOrdered k.lower k.upper then .ok (m.withConstraint k, m.constraints.size)
      else .error (.invalidConstraintLimits k.lower k.upper) := by
  rw [Model.addConstraint, Change.result, Change.addConstraint_eq,
    Model.checkExpression_eq_ok_iff.mpr covers, named]
  cases Limits.isOrdered k.lower k.upper with
  | false => rfl
  | true => simp [Option.filter_some, fresh]

theorem constraintNamed?_withConstraint {name : String} {k : Constraint K L}
    (other : k.name ≠ some name) :
    (m.withConstraint k).constraintNamed? name = m.constraintNamed? name := by
  cases given : k.name with
  | none => simp [Model.constraintNamed?, Model.withConstraint, given]
  | some own =>
    have differ : name ≠ own := by
      rintro rfl
      exact other given
    simp [Model.constraintNamed?, Model.withConstraint, given, List.lookup_append, List.lookup_cons,
      beq_false_of_ne differ]

/-- Constraints of new names are added up to the first whose limits are out of order. -/
theorem foldlM_addConstraint [Limits L K] (es : Array (Entry K L)) (objective : Expression K)
    (ks : List (Constraint K L)) (before : Array (Constraint K L)) (names : List String)
    (named : ks.map (·.name) = names.map some) (distinct : names.Nodup)
    (fresh : ∀ name ∈ names, (Model.ofParts es before objective).constraintNamed? name = none)
    (covers : ∀ k ∈ ks, ∀ t ∈ k.body.terms, t.1.index < es.size) :
    ks.foldlM (fun m k => do return (← (m.addConstraint k).mapError Error.model).1)
        (Model.ofParts es before objective) =
      match ks.find? fun k => !Limits.isOrdered k.lower k.upper with
      | some k => .error (.model (.invalidConstraintLimits k.lower k.upper))
      | none => .ok (.ofParts es (before ++ ks.toArray) objective) := by
  induction ks generalizing before names with
  | nil => simp [pure, Except.pure]
  | cons k ks ih =>
    obtain ⟨name, names, rfl⟩ : ∃ name rest, names = name :: rest := by
      cases names with
      | nil => cases named
      | cons name rest => exact ⟨name, rest, rfl⟩
    rw [List.map_cons, List.map_cons, List.cons.injEq] at named
    obtain ⟨first, named⟩ := named
    rw [List.nodup_cons] at distinct
    have covered : ∀ t ∈ k.body.terms,
        t.1.index < (Model.ofParts es before objective).definitions.size := by
      simpa [Model.ofParts] using covers k (List.mem_cons_self ..)
    rw [List.foldlM_cons, addConstraint_new first (fresh name (List.mem_cons_self ..)) covered,
      List.find?_cons]
    cases ordered : Limits.isOrdered k.lower k.upper with
    | false => rfl
    | true =>
      have pushed : (Model.ofParts es before objective).withConstraint k =
          .ofParts es (before.push k) objective :=
        Model.withConstraint_ofParts k
      have later : ∀ other ∈ names,
          (Model.ofParts es (before.push k) objective).constraintNamed? other = none := by
        intro other ho
        rw [← pushed, constraintNamed?_withConstraint]
        · exact fresh other (List.mem_cons_of_mem _ ho)
        · rw [first]
          rintro ⟨⟩
          exact distinct.1 ho
      rw [pushed]
      refine (ih (before.push k) names named distinct.2 later
        fun k hk => covers k (List.mem_cons_of_mem _ hk)).trans ?_
      simp

end Adding

/-- Names are distinct where each has one place. -/
theorem nodup_of_places {names : Array String}
    (place : ∀ (name : String) (i j : Nat),
      names[i]? = some name → names[j]? = some name → i = j) :
    names.toList.Nodup := by
  rw [List.nodup_iff_pairwise_ne, List.pairwise_iff_getElem]
  intro i j hi hj less same
  refine less.ne (place _ i j (Array.getElem?_eq_getElem hi) ?_)
  exact (Array.getElem?_eq_getElem hj).trans (congrArg some same.symm)

namespace Draft

variable {d : Draft K L}

theorem Sound.nodup_columns (h : d.Sound) : (d.columns.toList.map (·.name)).Nodup := by
  rw [← Array.toList_map]
  refine nodup_of_places fun name i j hi hj => ?_
  rw [← h.columns] at hi hj
  exact Option.some.inj (hi.symm.trans hj)

theorem Sound.nodup_rows (h : d.Sound) : (d.rows.toList.map (·.name)).Nodup := by
  rw [← Array.toList_map]
  refine nodup_of_places fun name i j hi hj => ?_
  rw [← h.rows] at hi hj
  cases hi.symm.trans hj
  rfl

variable [Scalar K] [Limits L K]

theorem names_constraints (d : Draft K L) :
    d.constraints.map (·.name) = (d.rows.toList.map (·.name)).map some := by
  have rows : d.rows.toList.zipIdx.map (·.1) = d.rows.toList := List.zipIdx_map_fst ..
  calc d.constraints.map (·.name)
      = d.rows.toList.zipIdx.map fun r => some r.1.name := List.map_map ..
    _ = (d.rows.toList.zipIdx.map (·.1)).map fun r => some r.name := by rw [List.map_map]; rfl
    _ = (d.rows.toList.map (·.name)).map some := by rw [rows, List.map_map]; rfl

/-- A row's terms are about the columns. -/
theorem covers_constraints {k : Constraint K L} (hk : k ∈ d.constraints) :
    ∀ t ∈ k.body.terms, t.1.index < d.columns.size := by
  obtain ⟨r, -, rfl⟩ := List.mem_map.mp hk
  intro t ht
  have ht : t ∈ (d.body r.2).terms := ht
  rw [body_eq] at ht
  obtain ⟨c, hc, made⟩ := List.mem_filterMap.mp ht
  obtain ⟨x, -, rfl⟩ := Option.map_eq_some_iff.mp made
  simpa using List.snd_lt_of_mem_zipIdx hc

omit [Limits L K] in
/-- The objective as the model keeps it: each of its numbers is added to nothing once more. -/
theorem copy_objective (d : Draft K L) : (Operand.expression d.objective).copy =
    ⟨d.columns.toList.zipIdx.map fun c => (⟨c.2⟩, 0 + (0 + c.1.objective)),
      0 + (0 + d.objectiveConstant)⟩ := by
  have order : Expression.Ascending d.objective.terms := by
    have places : (d.columns.toList.zipIdx.map (·.2)).Pairwise (· < ·) := by
      rw [List.zipIdx_map_snd]
      exact List.pairwise_lt_range'
    rw [objective_eq, Expression.Ascending, List.pairwise_map]
    exact List.pairwise_map.mp places
  rw [Expression.copy_of_ascending order, objective_eq, List.map_map]
  rfl

omit [Limits L K] in
theorem covers_objective (d : Draft K L) :
    ∀ t ∈ (Operand.expression d.objective).copy.terms, t.1.index < d.columns.size := by
  rw [copy_objective]
  intro t ht
  obtain ⟨c, hc, rfl⟩ := List.mem_map.mp ht
  simpa using List.snd_lt_of_mem_zipIdx hc

/-- What comes of a sound draft. -/
theorem finish_eq (h : d.Sound) : d.finish =
    match d.objectiveName with
    | none => .error (.format 0 .noObjective)
    | some objectiveName =>
      match d.columns.toList.find? (!·.isOrdered) with
      | some c => .error (.model (.invalidVariableBounds c.name c.lower c.upper))
      | none =>
        match d.constraints.find? fun k => !Limits.isOrdered k.lower k.upper with
        | some k => .error (.model (.invalidConstraintLimits k.lower k.upper))
        | none => .ok
          { model := .ofParts (d.columns.map Column.entry) d.constraints.toArray
              (Operand.expression d.objective).copy
            name := d.name
            objectiveName
            direction := d.direction } := by
  let entries : Array (Entry K L) := d.columns.map Column.entry
  let objective := (Operand.expression d.objective).copy
  have empty : (Model.empty : Model K L) = .ofParts #[] #[] .zero := by simp [Model.empty, Model.ofParts]
  have added := foldlM_addVariable #[] .zero d.columns.toList #[] h.nodup_columns
    (by simp [Model.variableNamed?, Model.ofParts])
  have made : #[] ++ (d.columns.toList.map Column.entry).toArray = entries := by
    simp [entries, ← Array.toList_map]
  rw [made] at added
  have set : (Model.ofParts entries #[] Expression.zero).setObjective (.expression d.objective) =
      .ok (.ofParts entries #[] objective) :=
    Model.setObjective_eq_ok.mpr ⟨by simpa [Model.ofParts, entries] using d.covers_objective, rfl⟩
  have constraints := foldlM_addConstraint entries objective d.constraints #[]
    _ d.names_constraints h.nodup_rows (by simp [Model.constraintNamed?, Model.ofParts])
    fun k hk t ht => by simpa [entries] using covers_constraints hk t ht
  rw [Draft.constraints, List.foldlM_map, ← Draft.constraints] at constraints
  unfold finish
  cases d.objectiveName with
  | none => rfl
  | some objectiveName =>
    dsimp only
    rw [empty, added]
    cases d.columns.toList.find? (!·.isOrdered) with
    | some c => rfl
    | none =>
      dsimp only
      rw [ok_bind, set, Except.mapError, ok_bind, constraints]
      cases d.constraints.find? fun k => !Limits.isOrdered k.lower k.upper with
      | some k => rfl
      | none => simp [entries, objective, pure, Except.pure, bind, Except.bind]

end Draft

end Milp.Mps
