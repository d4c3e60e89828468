import Milp.Model.Basic
import Milp.Proofs.Expression

/-!
# Models that can be built

A model starts empty and is changed by its operations only. `Model.Coherent` says that the lists about
its variables and the indexes by name belong together, which each change keeps up although it writes them
one after the other, and `Model.Invariant` and `Model.WellFormed` what else the operations keep.

Results:
1. `Constraint.proper_range`, `Comparison.proper_constraint`: the ways to state a constraint yield a
   body in canonical form, without constant.
2. `Change.addVariable_eq`, `Change.addConstraint_eq`, `Change.setObjective_eq`: what a change leaves
   behind, whether it is refused or not.
3. `Model.Built.wellFormed`: a model that was built is well-formed.
4. `Model.built_ofParts`: the variables and constraints of which a model can be built.
-/

namespace Milp

open Expression (Ascending)

variable {K L : Type} [Scalar K] [Limits L K]

theorem Domain.isInteger_iff {d : Domain} : d.isInteger = true ↔ d ≠ .continuous := by
  cases d <;> simp [Domain.isInteger]

/-! ## Constraints -/

/-- The body is in canonical form, and all that is constant has been moved to the limits. -/
structure Constraint.Proper (c : Constraint K L) : Prop where
  order : Ascending c.body.terms
  constant : c.body.constant = 0

theorem Constraint.proper_ofLimits {e : Expression K} (order : Ascending e.terms) (lower upper : L) :
    (Constraint.ofLimits e lower upper).Proper :=
  ⟨order, rfl⟩

theorem Constraint.proper_range {a : Operand K} (order : Ascending a.terms) (lower upper : L) :
    (Constraint.range a lower upper).Proper :=
  proper_ofLimits (Operand.ascending_toExpression order) lower upper

theorem Comparison.proper_constraint {a : Operand K} (order : Ascending a.terms)
    (relation : Relation) (b : Operand K) :
    (Operand.compare relation a b).constraint (L := L) |>.Proper := by
  cases relation <;> exact Constraint.proper_ofLimits (Operand.ascending_sub b order) _ _

omit [Limits L K] in
theorem Constraint.Proper.named {c : Constraint K L} (h : c.Proper) (name : String) :
    (c.named name).Proper :=
  ⟨h.order, h.constant⟩

/-! ## Indexes -/

section Indexes

variable {α : Type} {index : List (String × α)} {name : String}

omit [Scalar K] [Limits L K]

/-- A new name has what is declared of it, and all others have theirs. -/
theorem lookup_declared (fresh : index.lookup name = none) (a : α) (other : String) (found : α) :
    (index ++ [(name, a)]).lookup other = some found ↔
      other = name ∧ a = found ∨ index.lookup other = some found := by
  rw [List.lookup_append]
  by_cases same : other = name
  · simp [same, fresh]
  · simp [List.lookup_cons, beq_false_of_ne same, same]

theorem nodup_declared (nodup : (index.map (·.1)).Nodup) (fresh : index.lookup name = none) (a : α) :
    ((index ++ [(name, a)]).map (·.1)).Nodup := by
  rw [List.map_append, List.map_singleton, List.nodup_append]
  refine ⟨nodup, List.nodup_singleton _, fun key hkey other hother => ?_⟩
  obtain ⟨p, hp, rfl⟩ := List.mem_map.mp hkey
  have differ := List.lookup_eq_none_iff.mp fresh p hp
  rw [List.mem_singleton.mp hother]
  exact Ne.symm (by simpa using differ)

end Indexes

/-! ## Changes -/

namespace Model

variable {m m' : Model K L}

/-- The model with one more variable. -/
def withVariable (m : Model K L) (name : String) (d : Definition L) : Model K L :=
  { m with
    definitions := m.definitions.push d
    labels := m.labels.push name
    variableIndex := m.variableIndex ++ [(name, ⟨m.definitions.size⟩)]
    assigned := m.assigned.push none }

/-- The model with one more constraint. -/
def withConstraint (m : Model K L) (c : Constraint K L) : Model K L :=
  { m with
    constraints := m.constraints.push c
    constraintIndex := m.constraintIndex ++ (c.name.map (·, m.constraints.size)).toList }

end Model

namespace Change

section Steps

variable {α β : Type}

omit [Scalar K] [Limits L K]

@[simp] theorem pure_apply (a : α) (m : Model K L) : (pure a : Change K L α) m = .ok a m := rfl

@[simp] theorem bind_apply (change : Change K L α) (next : α → Change K L β) (m : Model K L) :
    (change >>= next) m = match change m with
      | .ok a m' => next a m'
      | .error e m' => .error e m' := by
  show EStateM.bind change next m = _
  unfold EStateM.bind
  cases change m <;> rfl

@[simp] theorem map_apply (f : α → β) (change : Change K L α) (m : Model K L) :
    (f <$> change) m = match change m with
      | .ok a m' => .ok (f a) m'
      | .error e m' => .error e m' := by
  show EStateM.map f change m = _
  unfold EStateM.map
  cases change m <;> rfl

@[simp] theorem get_apply (m : Model K L) : (get : Change K L (Model K L)) m = .ok m m := rfl

@[simp] theorem modify_apply (f : Model K L → Model K L) (m : Model K L) :
    (modify f : Change K L PUnit) m = .ok () (f m) :=
  rfl

@[simp] theorem throw_apply (e : ModelError L) (m : Model K L) :
    (throw e : Change K L α) m = .error e m :=
  rfl

end Steps

omit [Scalar K] in
/-- A variable is refused before anything is written. -/
theorem addVariable_eq (d : Definition L) (m : Model K L) : addVariable d m =
    if (m.variableNamed? (m.nextName d)).isSome then .error (.duplicateName (m.nextName d)) m
    else if Limits.isOrdered d.lower d.upper then
      .ok ⟨m.definitions.size⟩ (m.withVariable (m.nextName d) d)
    else .error (.invalidVariableBounds (m.nextName d) d.lower d.upper) m := by
  cases taken : (m.variableNamed? (m.nextName d)).isSome with
  | true => simp [addVariable, taken]
  | false =>
    cases ordered : Limits.isOrdered d.lower d.upper with
    | true => simp [addVariable, taken, ordered, Model.withVariable]
    | false => simp [addVariable, taken, ordered]

omit [Scalar K] [Limits L K] in
theorem checkExpression_eq (e : Expression K) (m : Model K L) : checkExpression e m =
    match m.checkExpression e with
    | .ok () => .ok () m
    | .error e => .error e m := by
  cases known : m.checkExpression e with
  | ok => simp [checkExpression, known]
  | error e => simp [checkExpression, known]

omit [Scalar K] in
/-- A constraint is refused before anything is written. -/
theorem addConstraint_eq (c : Constraint K L) (m : Model K L) : addConstraint c m =
    if Limits.isOrdered c.lower c.upper then
      match m.checkExpression c.body with
      | .error e => .error e m
      | .ok () =>
        match c.name.filter fun name => (m.constraintNamed? name).isSome with
        | some name => .error (.duplicateName name) m
        | none => .ok m.constraints.size (m.withConstraint c)
    else .error (.invalidConstraintLimits c.lower c.upper) m := by
  cases ordered : Limits.isOrdered c.lower c.upper with
  | false => simp [addConstraint, ordered]
  | true =>
    cases known : m.checkExpression c.body with
    | error e => simp [addConstraint, ordered, checkExpression_eq, known]
    | ok =>
      cases given : c.name with
      | none =>
        simp [addConstraint, ordered, checkExpression_eq, known, given, Model.withConstraint]
      | some name =>
        cases taken : (m.constraintNamed? name).isSome with
        | true => simp [addConstraint, ordered, checkExpression_eq, known, given, taken, Option.filter_some]
        | false =>
          simp [addConstraint, ordered, checkExpression_eq, known, given, taken, Option.filter_some,
            Model.withConstraint]

omit [Limits L K] in
/-- An objective is refused before anything is written. -/
theorem setObjective_eq (a : Operand K) (m : Model K L) : setObjective a m =
    match m.checkExpression a.copy with
    | .error e => .error e m
    | .ok () => .ok () { m with objective := a.copy } := by
  cases known : m.checkExpression a.copy with
  | ok => simp [setObjective, checkExpression_eq, known]
  | error e => simp [setObjective, checkExpression_eq, known]

end Change

/-! ## Entries -/

namespace Model

section Entries

omit [Scalar K] [Limits L K]

variable {m m' : Model K L}

/-- An entry is what the lists have at a place. -/
theorem getElem?_entries {i : Nat} {e : Entry K L} : m.entries[i]? = some e ↔
    m.definitions[i]? = some e.definition ∧ m.labels[i]? = some e.name ∧
      m.assigned[i]? = some e.value := by
  obtain ⟨name, definition, value⟩ := e
  rw [entries, Array.getElem?_zipWith_eq_some]
  simp only [Array.getElem?_zip_eq_some, Entry.mk.injEq]
  constructor
  · rintro ⟨d, ⟨n, v⟩, here, ⟨there, beside⟩, rfl, rfl, rfl⟩
    exact ⟨here, there, beside⟩
  · rintro ⟨here, there, beside⟩
    exact ⟨definition, (name, value), here, ⟨there, beside⟩, rfl, rfl, rfl⟩

/-- The model of some variables and constraints, in order. -/
def ofParts (entries : Array (Entry K L)) (constraints : Array (Constraint K L))
    (objective : Expression K) : Model K L where
  definitions := entries.map (·.definition)
  labels := entries.map (·.name)
  variableIndex := entries.toList.zipIdx.map fun e => (e.1.name, ⟨e.2⟩)
  constraints
  constraintIndex := constraints.toList.zipIdx.filterMap fun c => c.1.name.map (·, c.2)
  objective
  assigned := entries.map (·.value)

variable {es : Array (Entry K L)} {cs : Array (Constraint K L)} {objective : Expression K}

@[simp] theorem entries_ofParts : (ofParts es cs objective).entries = es := by
  refine Array.ext_getElem? fun i => Option.ext fun e => ?_
  rw [getElem?_entries]
  cases here : es[i]? with
  | none => simp [ofParts, here]
  | some e' =>
    obtain ⟨name, definition, value⟩ := e
    obtain ⟨name', definition', value'⟩ := e'
    simp [ofParts, here]
    tauto

theorem withVariable_ofParts (name : String) (d : Definition L) :
    (ofParts es cs objective).withVariable name d =
      ofParts (es.push ⟨name, d, none⟩) cs objective := by
  simp [ofParts, withVariable, List.zipIdx_append]

theorem withConstraint_ofParts (c : Constraint K L) :
    (ofParts es cs objective).withConstraint c = ofParts es (cs.push c) objective := by
  cases given : c.name <;>
    simp [ofParts, withConstraint, List.zipIdx_append, given]

end Entries

/-! ## Coherence -/

/-- The lists about the variables are equally long, and an index has the names that are there, each with
the one place that has it. -/
structure Coherent (m : Model K L) : Prop where
  labels : m.labels.size = m.definitions.size
  assigned : m.assigned.size = m.definitions.size
  named : ∀ name v, m.variableNamed? name = some v ↔ m.labels[v.index]? = some name
  constraintNamed : ∀ name i, m.constraintNamed? name = some i ↔
    ∃ c, m.constraints[i]? = some c ∧ c.name = some name

/-- One model is another with other values. -/
structure Revalued (m m' : Model K L) : Prop where
  same : m' = { m with assigned := m'.assigned }
  size : m'.assigned.size = m.assigned.size

section Coherence

omit [Scalar K] [Limits L K]

variable {m m' : Model K L}

/-- Every variable has an entry. -/
theorem Coherent.size_entries (h : m.Coherent) : m.entries.size = m.definitions.size := by
  simp [entries, h.labels, h.assigned]

/-- The names that are free are those of no variable. -/
theorem Coherent.variableNamed?_eq_none_iff (h : m.Coherent) {name : String} :
    m.variableNamed? name = none ↔ name ∉ m.labels := by
  constructor
  · intro fresh taken
    obtain ⟨i, here⟩ := Array.getElem?_of_mem taken
    have found := (h.named name ⟨i⟩).mpr here
    rw [fresh] at found
    cases found
  · intro free
    refine Option.eq_none_iff_forall_ne_some.mpr fun v found => free ?_
    exact Array.mem_of_getElem? ((h.named name v).mp found)

/-- The names that are free are those of no constraint. -/
theorem Coherent.constraintNamed?_eq_none_iff (h : m.Coherent) {name : String} :
    m.constraintNamed? name = none ↔ ∀ c ∈ m.constraints, c.name ≠ some name := by
  constructor
  · intro fresh c hc same
    obtain ⟨i, here⟩ := Array.getElem?_of_mem hc
    have found := (h.constraintNamed name i).mpr ⟨c, here, same⟩
    rw [fresh] at found
    cases found
  · intro free
    refine Option.eq_none_iff_forall_ne_some.mpr fun i found => ?_
    obtain ⟨c, here, same⟩ := (h.constraintNamed name i).mp found
    exact free c (Array.mem_of_getElem? here) same

/-- One more variable with a new name. -/
theorem Coherent.withVariable (h : m.Coherent) {name : String}
    (fresh : m.variableNamed? name = none) (d : Definition L) :
    (m.withVariable name d).Coherent where
  labels := by simp [Model.withVariable, h.labels]
  assigned := by simp [Model.withVariable, h.assigned]
  named other v := by
    refine (lookup_declared fresh _ other v).trans ?_
    show _ ∨ m.variableNamed? other = some v ↔ (m.labels.push name)[v.index]? = some other
    rw [h.named, Array.getElem?_push, h.labels]
    obtain ⟨i⟩ := v
    by_cases last : i = m.definitions.size
    · simp [last, ← h.labels, eq_comm]
    · simp [last, Ne.symm last]
  constraintNamed := h.constraintNamed

/-- One more constraint, without a name or with a new one. -/
theorem Coherent.withConstraint (h : m.Coherent) {c : Constraint K L}
    (fresh : ∀ name, c.name = some name → m.constraintNamed? name = none) :
    (m.withConstraint c).Coherent where
  labels := h.labels
  assigned := h.assigned
  named := h.named
  constraintNamed name i := by
    have place : (∃ b, (m.constraints.push c)[i]? = some b ∧ b.name = some name) ↔
        (c.name = some name ∧ m.constraints.size = i) ∨
          ∃ b, m.constraints[i]? = some b ∧ b.name = some name := by
      rw [Array.getElem?_push]
      by_cases last : i = m.constraints.size
      · simp [last]
      · simp [last, Ne.symm last]
    refine Iff.trans ?_ place.symm
    rw [← h.constraintNamed]
    cases given : c.name with
    | none => simp [constraintNamed?, Model.withConstraint, given]
    | some own =>
      have declared := lookup_declared (fresh own given) m.constraints.size name i
      simpa [constraintNamed?, Model.withConstraint, given, eq_comm] using declared

/-- Values come and go without a trace. -/
theorem Coherent.of_revalued (h : m.Coherent) (same : m.Revalued m') : m'.Coherent := by
  rw [same.same]
  exact ⟨h.labels, same.size.trans h.assigned, h.named, h.constraintNamed⟩

theorem revalued_assign {v : Variable} {x : K} (assigned : m.assign? v x = some m') :
    m.Revalued m' := by
  unfold assign? at assigned
  split at assigned
  · cases assigned
    exact ⟨rfl, Array.size_setIfInBounds⟩
  · cases assigned

theorem revalued_clearValues (m : Model K L) : m.Revalued m.clearValues :=
  ⟨rfl, Array.size_map ..⟩

theorem revalued_assignAll (m : Model K L) (values : List K) :
    m.Revalued (m.assignAll values) :=
  ⟨rfl, Array.size_mapIdx ..⟩

end Coherence

/-! ## Models -/

/-- Lists and indexes belong together, limits are in order, what is constant in a constraint is in its
limits, and expressions are about variables that the model has. -/
structure Invariant (m : Model K L) : Prop where
  coherent : m.Coherent
  bounds : ∀ d ∈ m.definitions, Limits.isOrdered d.lower d.upper = true
  limits : ∀ c ∈ m.constraints, Limits.isOrdered c.lower c.upper = true
  constant : ∀ c ∈ m.constraints, c.body.constant = 0
  covered : ∀ c ∈ m.constraints, ∀ t ∈ c.body.terms, t.1.index < m.definitions.size
  objective : ∀ t ∈ m.objective.terms, t.1.index < m.definitions.size

/-- Moreover, expressions are in canonical form. -/
structure WellFormed (m : Model K L) : Prop extends m.Invariant where
  ascending : ∀ c ∈ m.constraints, Ascending c.body.terms
  order : Ascending m.objective.terms

/-- A model that the operations make of the empty one. -/
inductive Built : Model K L → Prop
  | empty : Built .empty
  | addVariable {m m' : Model K L} {d : Definition L} {v : Variable} (before : Built m)
    (added : m.addVariable d = .ok (m', v)) : Built m'
  | addConstraint {m m' : Model K L} {c : Constraint K L} {i : Nat} (before : Built m)
    (proper : c.Proper) (added : m.addConstraint c = .ok (m', i)) : Built m'
  | setObjective {m m' : Model K L} {a : Operand K} (before : Built m)
    (set : m.setObjective a = .ok m') : Built m'
  | assign {m m' : Model K L} {v : Variable} {x : K} (before : Built m)
    (assigned : m.assign? v x = some m') : Built m'
  | clearValues {m : Model K L} (before : Built m) : Built m.clearValues
  | assignAll {m : Model K L} (before : Built m) (values : List K) : Built (m.assignAll values)

variable {m m' : Model K L}

omit [Limits L K] in
theorem coherent_empty : (empty : Model K L).Coherent where
  labels := rfl
  assigned := rfl
  named := by simp [variableNamed?, empty]
  constraintNamed := by simp [constraintNamed?, empty]

omit [Scalar K] [Limits L K] in
theorem checkExpression_eq_ok_iff {e : Expression K} : m.checkExpression e = .ok () ↔
    ∀ t ∈ e.terms, t.1.index < m.definitions.size := by
  unfold checkExpression
  split
  · rename_i t found
    refine iff_of_false nofun fun known => ?_
    have outside := List.find?_some found
    have inside := known t (List.mem_of_find?_eq_some found)
    simp only [decide_eq_true_eq] at outside
    omega
  · rename_i none
    refine iff_of_true rfl fun t ht => ?_
    simpa using List.find?_eq_none.mp none t ht

omit [Scalar K] in
/-- What an accepted variable passes, and what it does. -/
theorem addVariable_eq_ok {d : Definition L} {v : Variable} : m.addVariable d = .ok (m', v) ↔
    m.variableNamed? (m.nextName d) = none ∧ Limits.isOrdered d.lower d.upper = true ∧
      m' = m.withVariable (m.nextName d) d ∧ v = ⟨m.definitions.size⟩ := by
  rw [Model.addVariable, Change.result, Change.addVariable_eq]
  cases m.variableNamed? (m.nextName d) with
  | some v => simp
  | none => cases Limits.isOrdered d.lower d.upper <;> simp [eq_comm]

omit [Scalar K] in
/-- What an accepted constraint passes, and what it does. -/
theorem addConstraint_eq_ok {c : Constraint K L} {i : Nat} : m.addConstraint c = .ok (m', i) ↔
    Limits.isOrdered c.lower c.upper = true ∧
      (∀ t ∈ c.body.terms, t.1.index < m.definitions.size) ∧
      (∀ name, c.name = some name → m.constraintNamed? name = none) ∧
      m' = m.withConstraint c ∧ i = m.constraints.size := by
  rw [Model.addConstraint, Change.result, Change.addConstraint_eq, ← checkExpression_eq_ok_iff]
  cases Limits.isOrdered c.lower c.upper with
  | false => simp
  | true =>
    cases m.checkExpression c.body with
    | error e => simp
    | ok =>
      cases c.name with
      | none => simp [eq_comm]
      | some name =>
        cases found : m.constraintNamed? name with
        | none => simp [Option.filter_some, found, eq_comm]
        | some place => simp [Option.filter_some, found]

omit [Limits L K] in
/-- What an accepted objective passes, and what it does. -/
theorem setObjective_eq_ok {a : Operand K} : m.setObjective a = .ok m' ↔
    (∀ t ∈ a.copy.terms, t.1.index < m.definitions.size) ∧ m' = { m with objective := a.copy } := by
  rw [Model.setObjective, Change.result, Change.setObjective_eq, ← checkExpression_eq_ok_iff]
  cases m.checkExpression a.copy with
  | error e => simp [Except.map]
  | ok => simp [Except.map, eq_comm]

/-! ## What the operations keep -/

namespace Invariant

theorem empty : (Model.empty : Model K L).Invariant where
  coherent := coherent_empty
  bounds := by simp [Model.empty]
  limits := by simp [Model.empty]
  constant := by simp [Model.empty]
  covered := by simp [Model.empty]
  objective := by simp [Model.empty, Expression.zero, Expression.ofScalar]

theorem addVariable {d : Definition L} {v : Variable} (h : m.Invariant)
    (added : m.addVariable d = .ok (m', v)) : m'.Invariant := by
  obtain ⟨fresh, ordered, rfl, -⟩ := addVariable_eq_ok.mp added
  have more {i : Nat} (inside : i < m.definitions.size) : i < (m.definitions.push d).size := by
    rw [Array.size_push]
    omega
  refine ⟨h.coherent.withVariable fresh d, ?_, h.limits, h.constant,
    fun c hc t ht => more (h.covered c hc t ht), fun t ht => more (h.objective t ht)⟩
  intro b hb
  rcases Array.mem_push.mp hb with hb | rfl
  · exact h.bounds b hb
  · exact ordered

theorem addConstraint {c : Constraint K L} {i : Nat} (h : m.Invariant)
    (constant : c.body.constant = 0) (added : m.addConstraint c = .ok (m', i)) : m'.Invariant := by
  obtain ⟨ordered, covers, fresh, rfl, -⟩ := addConstraint_eq_ok.mp added
  refine ⟨h.coherent.withConstraint fresh, h.bounds, ?_, ?_, ?_, h.objective⟩ <;>
    intro d hd <;> rcases Array.mem_push.mp hd with hd | rfl
  · exact h.limits d hd
  · exact ordered
  · exact h.constant d hd
  · exact constant
  · exact h.covered d hd
  · exact covers

theorem setObjective {a : Operand K} (h : m.Invariant) (set : m.setObjective a = .ok m') :
    m'.Invariant := by
  obtain ⟨covers, rfl⟩ := setObjective_eq_ok.mp set
  exact ⟨⟨h.coherent.labels, h.coherent.assigned, h.coherent.named, h.coherent.constraintNamed⟩,
    h.bounds, h.limits, h.constant, h.covered, covers⟩

/-- Values come and go without a trace. -/
theorem of_revalued (h : m.Invariant) (same : m.Revalued m') : m'.Invariant := by
  have coherent := h.coherent.of_revalued same
  rw [same.same] at coherent ⊢
  exact ⟨coherent, h.bounds, h.limits, h.constant, h.covered, h.objective⟩

end Invariant

namespace WellFormed

theorem proper (h : m.WellFormed) : ∀ c ∈ m.constraints, c.Proper :=
  fun c hc => ⟨h.ascending c hc, h.constant c hc⟩

theorem of_revalued (h : m.WellFormed) (same : m.Revalued m') : m'.WellFormed := by
  have kept := h.toInvariant.of_revalued same
  rw [same.same] at kept ⊢
  exact ⟨kept, h.ascending, h.order⟩

end WellFormed

/-- A model that was built is well-formed. -/
theorem Built.wellFormed (built : m.Built) : m.WellFormed := by
  induction built with
  | empty => exact ⟨.empty, by simp [Model.empty], .nil⟩
  | addVariable _ added ih =>
    refine ⟨ih.toInvariant.addVariable added, ?_, ?_⟩ <;>
      obtain ⟨-, -, rfl, -⟩ := addVariable_eq_ok.mp added
    · exact ih.ascending
    · exact ih.order
  | addConstraint _ proper added ih =>
    refine ⟨ih.toInvariant.addConstraint proper.constant added, ?_, ?_⟩ <;>
      obtain ⟨-, -, -, rfl, -⟩ := addConstraint_eq_ok.mp added
    · intro d hd
      rcases Array.mem_push.mp hd with hd | rfl
      · exact ih.ascending d hd
      · exact proper.order
    · exact ih.order
  | @setObjective _ _ a _ set ih =>
    refine ⟨ih.toInvariant.setObjective set, ?_, ?_⟩ <;>
      obtain ⟨-, rfl⟩ := setObjective_eq_ok.mp set
    · exact ih.ascending
    · exact Operand.ascending_copy a
  | assign _ assigned ih => exact ih.of_revalued (revalued_assign assigned)
  | clearValues _ ih => exact ih.of_revalued (revalued_clearValues _)
  | assignAll _ values ih => exact ih.of_revalued (revalued_assignAll _ values)

/-! ## Models given by their parts -/

section Parts

variable {es : List (Entry K L)} {cs : List (Constraint K L)} {objective : Expression K}

/-- Variables without values can be added if their names are distinct and their bounds in order. -/
theorem built_variables (distinct : (es.map (·.name)).Nodup)
    (fits : ∀ e ∈ es, e.definition.name = some e.name ∧ e.value = none ∧
      Limits.isOrdered e.definition.lower e.definition.upper = true) :
    (ofParts es.toArray #[] .zero : Model K L).Built := by
  induction es using List.reverseRecOn with
  | nil =>
    have empty : (Model.empty : Model K L) = ofParts #[] #[] .zero := by simp [Model.empty, ofParts]
    exact empty ▸ .empty
  | append_singleton es e ih =>
    rw [List.map_append, List.map_singleton, ← List.concat_eq_append, List.nodup_concat] at distinct
    have before := ih distinct.2 fun d hd => fits d (List.mem_append_left _ hd)
    obtain ⟨own, unassigned, ordered⟩ := fits e (List.mem_append_right _ (List.mem_singleton_self e))
    obtain ⟨name, definition, value⟩ := e
    cases unassigned
    have given : (ofParts es.toArray #[] .zero : Model K L).nextName definition = name := by
      rw [nextName, own, Option.getD_some]
    have added : (ofParts es.toArray #[] .zero : Model K L).addVariable definition = _ :=
      addVariable_eq_ok.mpr ⟨?_, ordered, rfl, rfl⟩
    · have after := before.addVariable added
      rwa [given, withVariable_ofParts, List.push_toArray] at after
    · rw [given, before.wellFormed.coherent.variableNamed?_eq_none_iff]
      simpa [ofParts] using distinct.1

/-- A model can be built of variables and constraints that are taken one after the other. -/
theorem built_ofParts (distinct : (es.map (·.name)).Nodup)
    (fits : ∀ e ∈ es, e.definition.name = some e.name ∧ e.value = none ∧
      Limits.isOrdered e.definition.lower e.definition.upper = true)
    (named : (cs.filterMap (·.name)).Nodup)
    (proper : ∀ c ∈ cs, c.Proper ∧ Limits.isOrdered c.lower c.upper = true ∧
      ∀ t ∈ c.body.terms, t.1.index < es.length)
    (covered : ∀ t ∈ objective.terms, t.1.index < es.length)
    (copied : (Operand.expression objective).copy = objective) :
    (ofParts es.toArray cs.toArray objective).Built := by
  have constraints : (ofParts es.toArray cs.toArray .zero : Model K L).Built := by
    induction cs using List.reverseRecOn with
    | nil => exact built_variables distinct fits
    | append_singleton cs c ih =>
      rw [List.filterMap_append, List.nodup_append] at named
      have before := ih named.1 fun d hd => proper d (List.mem_append_left _ hd)
      obtain ⟨own, ordered, covers⟩ :=
        proper c (List.mem_append_right _ (List.mem_singleton_self c))
      have fresh : ∀ name, c.name = some name →
          (ofParts es.toArray cs.toArray .zero : Model K L).constraintNamed? name = none := by
        intro name given
        rw [before.wellFormed.coherent.constraintNamed?_eq_none_iff]
        intro d hd same
        exact named.2.2 name (List.mem_filterMap.mpr ⟨d, by simpa [ofParts] using hd, same⟩) name
          (by simp [given]) rfl
      have added : (ofParts es.toArray cs.toArray .zero : Model K L).addConstraint c = _ :=
        addConstraint_eq_ok.mpr ⟨ordered, by simpa [ofParts] using covers, fresh, rfl, rfl⟩
      have after := before.addConstraint own added
      rwa [withConstraint_ofParts, List.push_toArray] at after
  have set : (ofParts es.toArray cs.toArray .zero : Model K L).setObjective
      (.expression objective) = .ok _ :=
    setObjective_eq_ok.mpr ⟨by simpa [copied, ofParts] using covered, rfl⟩
  have after := constraints.setObjective set
  rwa [copied] at after

end Parts

end Model

end Milp
