import Milp.Proofs.Model
import Milp.Solve

/-!
# Operations on a model

Whatever is done to a model that starts empty, its parts fit together, and what is refused leaves no
trace. An operation on a list of changes is refused at the first of them that is refused, and the
changes before it stay.

Results:
1. `Change.forEach_spec`: a list of changes gets to its end, or to the first that is refused.
2. `Invariant.after`: every operation keeps what holds of the parts of a model.
3. `Invariant.consistent`: then names and places determine each other.
4. `refused_of_after`: what is left of an operation that is refused.
5. `consistent_of_operations`: all of this after any number of operations.
-/

namespace Milp

variable {K L : Type}

deriving instance DecidableEq for ModelError

/-! ## Lists of changes -/

namespace Change

section Lists

variable {m m' : Model K L} {α β : Type} {change : α → Change K L β} {as : List α}

/-- A change that is refused leaves the model as it was. -/
def Atomic (change : Change K L β) : Prop :=
  ∀ (m m' : Model K L) (e : ModelError L), change m = .error e m' → m' = m

/-- A model takes the changes of a list one after the other, and another one comes of it. -/
inductive Accepts (change : α → Change K L β) : Model K L → List α → Model K L → Prop
  | nil (m : Model K L) : Accepts change m [] m
  | cons {m m' m'' : Model K L} {a : α} {b : β} {as : List α} (first : change a m = .ok b m')
    (others : Accepts change m' as m'') : Accepts change m (a :: as) m''

/-- A model takes the changes of a list up to one that is refused. -/
inductive Refuses (change : α → Change K L β) (e : ModelError L) (m m' : Model K L) : List α → Prop
  | stopped {before : List α} (taken : Accepts change m before m') {a : α}
    (refused : change a m' = .error e m') (after : List α) :
    Refuses change e m m' (before ++ a :: after)

/-- A list of changes gets to its end, or to the first change that is refused. -/
theorem forEach_spec (atomic : ∀ a, (change a).Atomic) (m : Model K L) (as : List α) :
    (∃ bs m', forEach change as m = .ok bs m' ∧ Accepts change m as m') ∨
      ∃ e m', forEach change as m = .error e m' ∧ Refuses change e m m' as := by
  induction as generalizing m with
  | nil => exact .inl ⟨[], m, rfl, .nil m⟩
  | cons a as ih =>
    rw [forEach, bind_apply]
    cases first : change a m with
    | error e m' =>
      obtain rfl := atomic a m m' e first
      exact .inr ⟨e, m', rfl, .stopped (.nil m') first as⟩
    | ok b m' =>
      dsimp only
      rw [bind_apply]
      rcases ih m' with ⟨bs, m'', all, others⟩ | ⟨e, m'', stops, ⟨taken, refused, after⟩⟩
      · rw [all]
        exact .inl ⟨b :: bs, m'', rfl, .cons first others⟩
      · rw [stops]
        exact .inr ⟨e, m'', rfl, .stopped (.cons first taken) refused after⟩

/-- What every change keeps, the model keeps that takes a list of them. -/
theorem Accepts.invariant {motive : Model K L → Prop} (accepts : Accepts change m as m')
    (kept : ∀ m m' a b, a ∈ as → motive m → change a m = .ok b m' → motive m') (h : motive m) :
    motive m' := by
  induction accepts with
  | nil => exact h
  | cons first others ih =>
    refine ih (fun m m' a b ha => kept m m' a b (List.mem_cons_of_mem _ ha)) ?_
    exact kept _ _ _ _ (List.mem_cons_self ..) h first

/-- A list of changes keeps what every change keeps, wherever it ends. -/
theorem forEach_invariant {motive : Model K L → Prop} (atomic : ∀ a, (change a).Atomic)
    (kept : ∀ m m' a b, a ∈ as → motive m → change a m = .ok b m' → motive m') (h : motive m) :
    motive ((forEach change as).outcome m).1 := by
  rcases forEach_spec atomic m as with ⟨bs, m', all, accepts⟩ | ⟨e, m', stops, refuses⟩
  · rw [outcome, all]
    exact accepts.invariant kept h
  · rw [outcome, stops]
    cases refuses with
    | stopped taken refused after =>
      exact taken.invariant (fun m m' a b ha => kept m m' a b (List.mem_append_left _ ha)) h

/-- A list of changes that is refused is refused at one of them. -/
theorem refuses_of_outcome {e : ModelError L} (atomic : ∀ a, (change a).Atomic)
    (h : ((forEach change as).outcome m).2 = .error e) :
    Refuses change e m ((forEach change as).outcome m).1 as := by
  rcases forEach_spec atomic m as with ⟨bs, m', all, -⟩ | ⟨e', m', stops, refuses⟩
  · simp [outcome, all] at h
  · have same : e' = e := by simpa [outcome, stops] using h
    subst same
    rwa [outcome, stops]

end Lists

section Kinds

variable {m m' : Model K L}

theorem result_eq_ok {β : Type} {change : Change K L β} {b : β} (h : change m = .ok b m') :
    change.result m = .ok (m', b) := by
  rw [result, h]

theorem result_eq_error {β : Type} {change : Change K L β} {e : ModelError L}
    (h : change m = .error e m') : change.result m = .error e := by
  rw [result, h]

theorem atomic_setObjective [Scalar K] (a : Operand K) : (setObjective a : Change K L Unit).Atomic := by
  intro m m' e refused
  rw [setObjective_eq] at refused
  split at refused <;> simp_all

variable [Limits L K]

theorem atomic_addVariable (d : Definition L) : (addVariable d : Change K L _).Atomic := by
  intro m m' e refused
  rw [addVariable_eq] at refused
  split at refused
  · simp_all
  · split at refused <;> simp_all

theorem atomic_addConstraint (c : Constraint K L) : (addConstraint c).Atomic := by
  intro m m' e refused
  rw [addConstraint_eq] at refused
  split at refused
  · split at refused
    · simp_all
    · split at refused <;> simp_all
  · simp_all

/-- One more variable of a vector. -/
def addAt (start : String) (d : Definition L) (i : Nat) : Change K L Variable :=
  addVariable (d.named s!"{start}{i}")

theorem atomic_addAt (start : String) (d : Definition L) (i : Nat) :
    (addAt start d i : Change K L _).Atomic :=
  atomic_addVariable _

theorem addNumbered_eq_forEach (start : String) (d : Definition L) (first count : Nat) :
    (addNumbered start d first count : Change K L _) =
      forEach (addAt start d) (List.range' first count) := by
  induction count generalizing first with
  | zero => rfl
  | succ count ih =>
    rw [addNumbered, ih, List.range'_succ, forEach]
    rfl

theorem Accepts.eq_withVariable {start : String} {d : Definition L} {is : List Nat}
    (accepts : Accepts (addAt start d) m is m') :
    m' = is.foldl (fun m i => m.withVariable s!"{start}{i}" (d.named s!"{start}{i}")) m := by
  induction accepts with
  | nil => rfl
  | cons first others ih =>
    obtain ⟨-, -, rfl, -⟩ := Model.addVariable_eq_ok.mp (result_eq_ok first)
    exact ih

theorem Accepts.eq_withConstraint {cs : List (Constraint K L)}
    (accepts : Accepts addConstraint m cs m') : m' = cs.foldl Model.withConstraint m := by
  induction accepts with
  | nil => rfl
  | cons first others ih =>
    obtain ⟨-, -, -, rfl, -⟩ := Model.addConstraint_eq_ok.mp (result_eq_ok first)
    exact ih

end Kinds

end Change

/-! ## Operations -/

section Operations

variable [Scalar K] [Limits L K]

/-- A constraint as one can be stated: an expression between two limits, with or without a name. -/
inductive Constraint.Stated : Constraint K L → Prop
  | ofLimits (e : Expression K) (lower upper : L) : Stated (.ofLimits e lower upper)
  | named {c : Constraint K L} (before : Stated c) (name : String) : Stated (c.named name)

theorem Constraint.stated_range (a : Operand K) (lower upper : L) :
    (Constraint.range a lower upper).Stated :=
  .ofLimits _ _ _

theorem Comparison.stated_constraint (c : Comparison K) : (c.constraint (L := L)).Stated := by
  unfold constraint
  split <;> exact .ofLimits _ _ _

/-- What is constant in a stated constraint is in its limits. -/
theorem Constraint.Stated.constant {c : Constraint K L} (stated : c.Stated) :
    c.body.constant = 0 := by
  induction stated with
  | ofLimits e lower upper => rfl
  | named _ name ih => exact ih

/-- An operation on a model. -/
inductive Operation (K L : Type) [Scalar K] [Limits L K]
  | addVariable (d : Definition L)
  | addVector (start : String) (d : Definition L) (count : Nat)
  | addConstraint (c : Constraint K L) (stated : c.Stated)
  | addConstraints (cs : List (Constraint K L)) (stated : ∀ c ∈ cs, c.Stated)
  | setObjective (a : Operand K)
  | setValue (name : String) (x : K)
  | assign (v : Variable) (x : K)
  | clearValues
  | optimise (direction : Direction) (c : Config K)
  | commit (r : Result K L)

namespace Model

/-- The model that a change leaves behind, and the reason why it is refused, if it is. -/
def ended {β : Type} (m : Model K L) (change : Change K L β) : Model K L × Option (ModelError L) :=
  ((change.outcome m).1, match (change.outcome m).2 with
    | .ok _ => none
    | .error e => some e)

/-- The model after an operation, and the reason why it is refused, if it is. An assignment to a
variable that the model does not have, and a run that is not possible, change nothing. -/
def after (m : Model K L) : Operation K L → Model K L × Option (ModelError L)
  | .addVariable d => m.ended (Change.addVariable d)
  | .addVector start d count => m.ended (Change.addVector start d count)
  | .addConstraint c _ => m.ended (Change.addConstraint c)
  | .addConstraints cs _ => m.ended (Change.addConstraints cs)
  | .setObjective a => m.ended (Change.setObjective a)
  | .setValue name x => ((m.setValue? name x).getD m, none)
  | .assign v x => ((m.assign? v x).getD m, none)
  | .clearValues => (m.clearValues, none)
  | .optimise direction c => ((m.optimise? direction c).elim m (·.1), none)
  | .commit r => (m.commit r, none)

/-- The model after some operations. -/
def afterAll (m : Model K L) (os : List (Operation K L)) : Model K L :=
  os.foldl (fun m o => (m.after o).1) m

variable {m m' : Model K L} {β : Type}

omit [Scalar K] [Limits L K] in
theorem ended_snd_eq_some {change : Change K L β} {e : ModelError L} :
    (m.ended change).2 = some e ↔ (change.outcome m).2 = .error e := by
  unfold ended
  cases (change.outcome m).2 <;> simp

omit [Scalar K] [Limits L K] in
/-- What is left of a change that is refused as a whole. -/
theorem refused_of_atomic {change : Change K L β} (atomic : change.Atomic) {e : ModelError L}
    (h : (m.ended change).2 = some e) :
    change.result m = .error e ∧ (m.ended change).1 = m := by
  rw [ended_snd_eq_some] at h
  unfold Change.outcome at h
  cases made : change m with
  | ok b m' => simp [made] at h
  | error e' m' =>
    obtain rfl := atomic m m' e' made
    have same : e' = e := by simpa [made] using h
    subst same
    exact ⟨Change.result_eq_error made, by rw [ended, Change.outcome, made]⟩

/-! ## Operations one after the other -/

section Runs

omit [Scalar K] [Limits L K] in
theorem Invariant.ended [Scalar K] [Limits L K] {change : Change K L β} (h : m.Invariant)
    (atomic : change.Atomic) (kept : ∀ m' b, change.result m = .ok (m', b) → m'.Invariant) :
    (m.ended change).1.Invariant := by
  unfold Model.ended Change.outcome
  cases made : change m with
  | ok b m' => exact kept m' b (Change.result_eq_ok made)
  | error e m' =>
    obtain rfl := atomic m m' e made
    exact h

theorem Invariant.assigned (h : m.Invariant) (v : Variable) (x : K) :
    ((m.assign? v x).getD m).Invariant := by
  cases assigned : m.assign? v x with
  | none => exact h
  | some m' => exact h.of_revalued (revalued_assign assigned)

theorem Invariant.commit (h : m.Invariant) (r : Result K L) : (m.commit r).Invariant :=
  h.of_revalued (revalued_assignAll m r.values)

/-- Every operation keeps what holds of the parts of a model. -/
theorem Invariant.after (h : m.Invariant) (o : Operation K L) : (m.after o).1.Invariant := by
  cases o with
  | addVariable d => exact h.ended (Change.atomic_addVariable d) fun m' v added => h.addVariable added
  | addVector start d count =>
    show ((Change.addNumbered start d 0 count).outcome m).1.Invariant
    rw [Change.addNumbered_eq_forEach]
    refine Change.forEach_invariant (Change.atomic_addAt start d) ?_ h
    exact fun m m' i v _ h added => h.addVariable (Change.result_eq_ok added)
  | addConstraint c stated =>
    exact h.ended (Change.atomic_addConstraint c) fun m' i added =>
      h.addConstraint stated.constant added
  | addConstraints cs stated =>
    refine Change.forEach_invariant Change.atomic_addConstraint ?_ h
    exact fun m m' c i hc h added =>
      h.addConstraint (stated c hc).constant (Change.result_eq_ok added)
  | setObjective a =>
    refine h.ended (Change.atomic_setObjective a) fun m' _ set => h.setObjective (a := a) ?_
    rw [Model.setObjective, set]
    rfl
  | setValue name x =>
    show ((m.setValue? name x).getD m).Invariant
    unfold setValue?
    cases m.variableNamed? name with
    | none => exact h
    | some v => exact h.assigned v x
  | assign v x => exact h.assigned v x
  | clearValues => exact h.of_revalued (revalued_clearValues m)
  | optimise direction c =>
    show ((m.optimise? direction c).elim m (·.1)).Invariant
    unfold optimise? optimise
    split
    · dsimp only [Option.elim]
      split
      · exact h.commit _
      · exact h
    · exact h
  | commit r => exact h.commit r

theorem Invariant.afterAll (h : m.Invariant) (os : List (Operation K L)) :
    (m.afterAll os).Invariant := by
  induction os generalizing m with
  | nil => exact h
  | cons o os ih => exact ih (h.after o)

/-! ## Consistency -/

/-- The parts of a model fit together: the lists about variables are equally long, the indexes have the
names that are there at their places, every expression is about variables of the model, and limits are
in order. -/
structure Consistent (m : Model K L) : Prop where
  lengths : m.labels.size = m.definitions.size ∧ m.assigned.size = m.definitions.size
  variableNamed : ∀ name v, m.variableNamed? name = some v ↔ m.names[v.index]? = some name
  distinct : m.names.Nodup
  constraintNamed : ∀ name i, m.constraintNamed? name = some i ↔
    ∃ c, m.constraints[i]? = some c ∧ c.name = some name
  objective : ∀ t ∈ m.objective.terms, t.1.index < m.definitions.size
  bodies : ∀ c ∈ m.constraints, c.body.constant = 0 ∧
    ∀ t ∈ c.body.terms, t.1.index < m.definitions.size
  bounds : ∀ d ∈ m.definitions, Limits.isUndefined d.lower = false ∧
    Limits.isUndefined d.upper = false ∧ d.lower ≤ d.upper
  limits : ∀ c ∈ m.constraints, Limits.isUndefined c.lower = false ∧
    Limits.isUndefined c.upper = false ∧ c.lower ≤ c.upper

omit [Scalar K] in
theorem ordered_iff {lower upper : L} : Limits.isOrdered lower upper = true ↔
    Limits.isUndefined lower = false ∧ Limits.isUndefined upper = false ∧ lower ≤ upper := by
  simp [Limits.isOrdered, and_assoc]

/-- Names are distinct, since the index has one place for each. -/
theorem Invariant.consistent (h : m.Invariant) : m.Consistent := by
  have named (name : String) (v : Variable) :
      m.variableNamed? name = some v ↔ m.names[v.index]? = some name := by
    rw [h.coherent.named, Model.names, Array.getElem?_toList]
  refine ⟨⟨h.coherent.labels, h.coherent.assigned⟩, named, ?_, h.coherent.constraintNamed,
    h.objective, fun c hc => ⟨h.constant c hc, h.covered c hc⟩,
    fun d hd => ordered_iff.mp (h.bounds d hd), fun c hc => ordered_iff.mp (h.limits c hc)⟩
  rw [List.nodup_iff_getElem?_ne_getElem?]
  intro i j before inside same
  obtain ⟨name, here⟩ : ∃ name, m.names[j]? = some name := ⟨_, List.getElem?_eq_getElem inside⟩
  have first := (named name ⟨i⟩).mpr (same.trans here)
  rw [(named name ⟨j⟩).mpr here] at first
  cases first
  exact before.false

/-! ## Refusals -/

/-- What is left of an operation that is refused: nothing, or the elements of a list before the one that
is refused. -/
inductive Refused (m : Model K L) (e : ModelError L) : Operation K L → Model K L → Prop
  | addVariable {d : Definition L} (refused : m.addVariable d = .error e) :
    Refused m e (.addVariable d) m
  | addVector {m' : Model K L} {start : String} {d : Definition L} {count i : Nat}
    (inside : i < count)
    (before : m' = (List.range i).foldl
      (fun m i => m.withVariable s!"{start}{i}" (d.named s!"{start}{i}")) m)
    (refused : m'.addVariable (d.named s!"{start}{i}") = .error e) :
    Refused m e (.addVector start d count) m'
  | addConstraint {c : Constraint K L} {stated : c.Stated} (refused : m.addConstraint c = .error e) :
    Refused m e (.addConstraint c stated) m
  | addConstraints {m' : Model K L} {first others : List (Constraint K L)} {c : Constraint K L}
    {stated : ∀ d ∈ first ++ c :: others, d.Stated}
    (before : m' = first.foldl withConstraint m)
    (refused : m'.addConstraint c = .error e) :
    Refused m e (.addConstraints (first ++ c :: others) stated) m'
  | setObjective {a : Operand K} (refused : m.setObjective a = .error e) :
    Refused m e (.setObjective a) m

omit [Scalar K] in
theorem refused_addVector {start : String} {d : Definition L} {count : Nat} {e : ModelError L}
    (h : (m.addVector start d count).2 = .error e) :
    ∃ i < count, (m.addVector start d count).1 = (List.range i).foldl
        (fun m i => m.withVariable s!"{start}{i}" (d.named s!"{start}{i}")) m ∧
      (m.addVector start d count).1.addVariable (d.named s!"{start}{i}") = .error e := by
  rw [addVector, Change.addVector, Change.addNumbered_eq_forEach] at h ⊢
  have refuses := Change.refuses_of_outcome (Change.atomic_addAt start d) h
  generalize ((Change.forEach (Change.addAt start d) (List.range' 0 count)).outcome m).1 = m'
    at refuses ⊢
  generalize numbers : List.range' 0 count = is at refuses
  cases refuses with
  | @stopped before taken i refused others =>
    obtain ⟨k, inside, rfl, rest⟩ := List.range'_eq_append_iff.mp numbers
    obtain ⟨place, more, -⟩ := List.range'_eq_cons_iff.mp rest.symm
    have place : k = i := by omega
    subst place
    refine ⟨k, by omega, ?_, Change.result_eq_error refused⟩
    rw [taken.eq_withVariable, List.range_eq_range']

/-- An operation that is refused leaves the model as it was, or with the elements before the one that
is refused. -/
theorem refused_of_after {o : Operation K L} {e : ModelError L} (h : (m.after o).2 = some e) :
    m.Refused e o (m.after o).1 := by
  cases o with
  | addVariable d =>
    obtain ⟨refused, left⟩ := refused_of_atomic (Change.atomic_addVariable d) h
    exact (congrArg (m.Refused e (.addVariable d)) left).mpr (.addVariable refused)
  | addVector start d count =>
    obtain ⟨i, inside, before, refused⟩ := refused_addVector (ended_snd_eq_some.mp h)
    exact .addVector inside before refused
  | addConstraint c stated =>
    obtain ⟨refused, left⟩ := refused_of_atomic (Change.atomic_addConstraint c) h
    exact (congrArg (m.Refused e (.addConstraint c stated)) left).mpr (.addConstraint refused)
  | addConstraints cs stated =>
    have refuses := Change.refuses_of_outcome Change.atomic_addConstraint (ended_snd_eq_some.mp h)
    show m.Refused e (.addConstraints cs stated) ((Change.addConstraints cs).outcome m).1
    unfold Change.addConstraints
    generalize ((Change.forEach Change.addConstraint cs).outcome m).1 = m' at refuses ⊢
    cases refuses with
    | stopped taken refused after =>
      exact .addConstraints taken.eq_withConstraint (Change.result_eq_error refused)
  | setObjective a =>
    obtain ⟨refused, left⟩ := refused_of_atomic (Change.atomic_setObjective a) h
    refine (congrArg (m.Refused e (.setObjective a)) left).mpr (.setObjective ?_)
    rw [Model.setObjective, refused]
    rfl
  | setValue | assign | clearValues | optimise | commit => cases h

/-- Whatever is done to a model that starts empty, its parts fit together, and an operation that is
refused then leaves no trace but the elements of a list before the one that is refused. -/
theorem consistent_of_operations (os : List (Operation K L)) :
    let m := (empty : Model K L).afterAll os
    m.Consistent ∧ ∀ o e, (m.after o).2 = some e → m.Refused e o (m.after o).1 :=
  ⟨(Invariant.empty.afterAll os).consistent, fun _ _ => refused_of_after⟩

/-- A variable that is named `x1` stands in the way of a vector `x` when that comes to its second
variable; the first one stays. -/
theorem consistent_of_operations_vector :
    ∃ m : Model Rat ExtendedRat,
      (empty : Model Rat ExtendedRat).afterAll [.addVariable (.named .free "x1")] = m ∧
      m.Consistent ∧
      (m.after (.addVector "x" .free 3)).2 = some (.duplicateName "x1") ∧
      m.Refused (.duplicateName "x1") (.addVector "x" .free 3) (m.after (.addVector "x" .free 3)).1 ∧
      (m.after (.addVector "x" .free 3)).1.names = ["x1", "x0"] := by
  obtain ⟨consistent, refused⟩ :=
    consistent_of_operations (K := Rat) (L := ExtendedRat) [.addVariable (.named .free "x1")]
  have stops : (((empty : Model Rat ExtendedRat).afterAll [.addVariable (.named .free "x1")]).after
      (.addVector "x" .free 3)).2 = some (.duplicateName "x1") := by
    decide +kernel
  exact ⟨_, rfl, consistent, stops, refused _ _ stops, by decide +kernel⟩

end Runs

end Model

end Operations

end Milp
