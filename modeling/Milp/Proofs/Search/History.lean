import Mathlib.Data.List.Chain
import Milp.Proofs.Search.Incumbent
import Milp.Proofs.Search.Moment

/-!
# The history of a search

A search records its solutions: the incumbent, the objectives of the incumbents so far, and how many
nodes were explored and closed by a solution. Whatever else processing a node does, it leaves the
record alone, or adds to it a node closed by a solution, which may be a better one.

Results:
1. `record_process`, `record_next`: what a step does to the record.
2. `length_history_le`: no objective is entered without a node that is closed by a solution.
3. `sound_of_reached`: every objective is better than the one before it, and the last one is that of
   the incumbent.
-/

namespace Milp

variable {K L : Type} {n m : Nat}

/-- What a search records of its solutions. -/
structure Record (K : Type) (n : Nat) where
  explored : Nat
  integral : Nat
  history : List K
  incumbent : Option (Incumbent K n)

/-- The record of a search. -/
def Search.record (s : Search K L n) : Record K n :=
  ⟨s.statistics.nodesExplored, s.statistics.integral, s.statistics.incumbentHistory, s.incumbent⟩

namespace Record

/-- The record with one more node explored. -/
def explore (r : Record K n) : Record K n :=
  { r with explored := r.explored + 1 }

/-- What processing a node may do to a record: nothing; the node is closed by a solution that is no
better; or by one that is. -/
inductive Step [Scalar K] (k : SearchTask K L n m) (r : Record K n) : Record K n → Prop
  | same : Step k r r
  | settled : Step k r { r with integral := r.integral + 1 }
  | improved {values : Vector K n}
    (better : k.improves r.incumbent (k.relaxation.costOf values.toList) = true) :
    Step k r ⟨r.explored, r.integral + 1, r.history ++ [k.relaxation.objectiveOf values.toList],
      some ⟨k.relaxation.costOf values.toList, values⟩⟩

theorem Step.explored [Scalar K] {k : SearchTask K L n m} {r r' : Record K n} (step : r.Step k r') :
    r'.explored = r.explored := by
  cases step <;> rfl

end Record

/-! ## Steps -/

section Steps

variable [Scalar K] [Limits L K] {k : SearchTask K L n m} {s : Search K L n} {r r' : Record K n}
  {f f' : Moment K L n}

omit [Scalar K] in
theorem record_addChild (s : Search K L n) (id : Nat) (c : BoundChange L n) :
    (s.addChild id c).record = s.record := by
  unfold Search.addChild Search.enqueue
  dsimp only
  split <;> rfl

theorem record_branch (s : Search K L n) (id : Nat) (j : Fin n) (v : K) :
    (s.branch id j v).record = s.record := by
  unfold Search.branch
  dsimp only
  rw [record_addChild, record_addChild]
  rfl

theorem record_relaxed (k : SearchTask K L n m) (s : Search K L n) (id : Nat) (isRoot : Bool)
    (objective : K) : (k.relaxed s id isRoot objective).record = s.record := by
  cases isRoot <;> rfl

namespace SearchTask

omit [Limits L K] in
theorem record_settle (k : SearchTask K L n m) (s : Search K L n) (id : Nat) (values : Vector K n) :
    s.record.Step k (k.settle s id values).record := by
  unfold settle offer
  dsimp only
  split
  · rename_i better
    exact .improved better
  · exact .settled

theorem record_accept (k : SearchTask K L n m) (s : Search K L n) (id : Nat) (values : Vector K n) :
    s.record.Step k (k.accept s id values).record := by
  unfold accept
  split
  · exact record_settle k s id values
  · rename_i j away
    dsimp only
    split
    · rename_i objective values' again
      exact record_settle k (s.countIterations _) id values'
    · rw [record_branch]
      exact .same

/-- Processing a node leaves the record alone, or adds one node closed by a solution. -/
theorem record_process (k : SearchTask K L n m) (s : Search K L n) (id : Nat)
    (outcome : Outcome K n) : s.record.Step k (k.process s id outcome).record := by
  unfold process
  dsimp only
  split
  · exact .same
  · split <;> exact .same
  · exact .same
  · rename_i objective values verdict
    rw [processRelaxed_eq]
    dsimp only
    have before := record_relaxed k (s.countIterations outcome) id
      ((s.countIterations outcome).tree.nodes[id]?.bind (·.parent)).isNone objective
    change _ = s.record at before
    split
    · split
      · rw [← before]
        exact record_accept ..
      · rw [record_branch, before]
        exact .same
    · rw [← before]
      exact .same

/-- So does every step but one that explores a node. -/
theorem record_next (step : k.Next f f') :
    f.search.record.Step k f'.search.record ∨ f'.search.record = f.search.record.explore := by
  cases step with
  | look | dominate => exact .inl .same
  | explore => exact .inr rfl
  | process s id batch => exact .inl (record_process ..)

theorem foldl_process_explored (k : SearchTask K L n m) (outcomes : List (Nat × Outcome K n))
    (s : Search K L n) :
    (outcomes.foldl (fun s o => k.process s o.1 o.2) s).record.explored = s.record.explored := by
  induction outcomes generalizing s with
  | nil => rfl
  | cons o outcomes ih => exact (ih _).trans (record_process k s o.1 o.2).explored

end SearchTask

omit [Limits L K] in
/-- No objective is entered without a node that is closed by a solution. -/
theorem Record.Step.length_le (step : r.Step k r') (h : r.history.length ≤ r.integral) :
    r'.history.length ≤ r'.integral := by
  cases step with
  | same => exact h
  | settled => exact h.trans (Nat.le_succ _)
  | improved =>
    rw [List.length_append]
    exact Nat.succ_le_succ h

theorem length_history_le (reached : k.Reached f) :
    f.search.record.history.length ≤ f.search.record.integral := by
  induction reached with
  | refl => exact Nat.zero_le _
  | tail before step ih =>
    rcases SearchTask.record_next step with step | explored
    · exact step.length_le ih
    · rw [explored]
      exact ih

/-- Without an incumbent no objective is entered. -/
theorem history_of_none (reached : k.Reached f) (none : f.search.incumbent = none) :
    f.search.record.history = [] := by
  induction reached with
  | refl => rfl
  | @tail f f' before step ih =>
    have none' : f'.search.record.incumbent = .none := none
    rcases SearchTask.record_next step with step | explored
    · generalize f'.search.record = r at step none' ⊢
      cases step with
      | same | settled => exact ih none'
      | improved => cases none'
    · rw [explored] at none' ⊢
      exact ih none'

end Steps

/-! ## Improvement -/

/-- An objective is better than another by more than a margin. -/
def Direction.Better (direction : Direction) (margin old new : Rat) : Prop :=
  match direction with
  | .minimise => new < old - margin
  | .maximise => old + margin < new

/-- An objective is at least as good as another. -/
def Direction.AsGood (direction : Direction) (new old : Rat) : Prop :=
  match direction with
  | .minimise => new ≤ old
  | .maximise => old ≤ new

section Improvement

variable {k : SearchTask Rat ExtendedRat n m} {r r' : Record Rat n} {f f' : Moment Rat ExtendedRat n}

/-- One objective is better than another as far as costs are, with a tolerance. -/
theorem Relaxation.better_toObjective {p : Relaxation Rat ExtendedRat n m} {margin old new : Rat}
    (h : new < old - margin) :
    p.direction.Better margin (p.toObjective old) (p.toObjective new) := by
  unfold Direction.Better toObjective Direction.sense
  cases p.direction with
  | minimise =>
    dsimp only
    linarith
  | maximise =>
    dsimp only
    linarith

/-- One objective is as good as another exactly when its cost is no higher. -/
theorem Relaxation.asGood_toObjective {p : Relaxation Rat ExtendedRat n m} {old new : Rat} :
    p.direction.AsGood (p.toObjective new) (p.toObjective old) ↔ new ≤ old := by
  unfold Direction.AsGood toObjective Direction.sense
  cases p.direction with
  | minimise =>
    dsimp only
    constructor <;> intro h <;> linarith
  | maximise =>
    dsimp only
    constructor <;> intro h <;> linarith

/-- One objective may follow another in a history: it is better by more than the tolerance of the
cost of the other. -/
def SearchTask.Follows (k : SearchTask Rat ExtendedRat n m) (old new : Rat) : Prop :=
  k.relaxation.direction.Better (k.config.feasibility.epsilon (k.relaxation.toCost old)) old new

/-- The last entry of a history is that of the incumbent, and every other one is followed by one that
is better. -/
structure Record.Sound (k : SearchTask Rat ExtendedRat n m) (r : Record Rat n) : Prop where
  last : r.history.getLast? =
    r.incumbent.map fun i => k.relaxation.objectiveOf i.values.toList
  cost : ∀ i, r.incumbent = some i → i.cost = k.relaxation.costOf i.values.toList
  improving : r.history.IsChain k.Follows

theorem Record.Step.sound (step : r.Step k r') (h : r.Sound k) : r'.Sound k := by
  cases step with
  | same => exact h
  | settled => exact ⟨h.last, h.cost, h.improving⟩
  | @improved values better =>
    refine ⟨by simp, fun i hi => ?_, ?_⟩
    · cases hi
      rfl
    · refine List.isChain_append.mpr ⟨h.improving, List.isChain_singleton _, ?_⟩
      intro old entered new entered'
      -- the last entry before is the objective of the incumbent before
      cases entered'
      obtain ⟨i, incumbent, rfl⟩ := Option.map_eq_some_iff.mp (h.last.symm.trans entered)
      rw [incumbent] at better
      unfold SearchTask.Follows Relaxation.objectiveOf
      rw [Relaxation.toCost_toObjective, ← h.cost i incumbent]
      exact Relaxation.better_toObjective (by simpa [SearchTask.improves] using better)

/-- At every moment the history of the incumbents goes from one to a better one. -/
theorem sound_of_reached (reached : k.Reached f) : f.search.record.Sound k := by
  induction reached with
  | refl => exact ⟨rfl, nofun, .nil⟩
  | tail before step ih =>
    rcases SearchTask.record_next step with step | explored
    · exact step.sound ih
    · rw [explored]
      exact ⟨ih.last, ih.cost, ih.improving⟩

end Improvement

end Milp
