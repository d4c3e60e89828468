import Milp.Proofs.Search.Incumbent
import Milp.Proofs.Search.Moment

/-!
# Where incumbents come from

Result: `answered_of_reached`, the values of an incumbent are an answer of the solver, unchanged.
-/

namespace Milp.SearchTask

variable {n m : Nat} {k : SearchTask Rat ExtendedRat n m} {f f' : Moment Rat ExtendedRat n}
  {s : Search Rat ExtendedRat n}

/-- With integer columns fixed at integers, the solver answers those. -/
def KeepsFixed (k : SearchTask Rat ExtendedRat n m) : Prop :=
  ∀ box values objective values',
    (k.solver (k.fixAt box values)).verdict = .optimal objective values' → k.snap values' = values'

/-- The values of an incumbent are an answer of the solver. -/
def Answered (k : SearchTask Rat ExtendedRat n m) (incumbent : Option (Incumbent Rat n)) : Prop :=
  ∀ i, incumbent = some i → ∃ box objective, (k.solver box).verdict = .optimal objective i.values

theorem Answered.offered {incumbent : Option (Incumbent Rat n)} (h : k.Answered incumbent)
    {box : Box ExtendedRat n} {objective : Rat} {values : Vector Rat n}
    (optimal : (k.solver box).verdict = .optimal objective values)
    (unchanged : k.snap values = values) : k.Answered (k.offered incumbent values) := by
  intro i hi
  rcases k.offered_cases incumbent values with ⟨-, new⟩ | ⟨old, here, kept, -⟩
  · obtain rfl := Option.some.inj (new.symm.trans hi)
    exact ⟨box, objective, by rw [unchanged]; exact optimal⟩
  · obtain rfl := Option.some.inj (kept.symm.trans hi)
    exact h old here

/-- What a node is closed with is an answer, and it is not moved by rounding. -/
theorem Answered.closing (h : k.Answered s.incumbent) (keeps : k.KeepsFixed)
    {bounds : Box ExtendedRat n} {x : Node ExtendedRat n} {bound : ExtendedRat} {state : NodeState}
    {incumbent : Option (Incumbent Rat n)}
    (why : Closing k s.incumbent bounds x (k.solver bounds).verdict bound state incumbent) :
    k.Answered incumbent := by
  generalize verdict : (k.solver bounds).verdict = v at why
  cases why with
  | infeasible | rootUnbounded | unbounded | failed | dominated => exact h
  | settled integral => exact h.offered verdict (snap_of_furthestColumn_eq_none (stands_exact.mpr rfl) integral)
  | rounded tolerated away again => exact h.offered again (keeps _ _ _ _ again)

theorem Answered.next (h : k.Answered f.search.incumbent) (keeps : k.KeepsFixed)
    (change : k.Change f f') : k.Answered f'.search.incumbent := by
  cases change with
  | kept tree incumbent => rwa [incumbent]
  | closed here pending why after =>
    rw [after.incumbent]
    cases why with
    | stale => exact h
    | processed why => exact h.closing keeps why
  | split here pending optimal fractional after => rwa [after.incumbent]

/-- At every moment the values of the incumbent are an answer of the solver, unchanged. -/
theorem answered_of_reached (keeps : k.KeepsFixed) (reached : k.Reached f) :
    k.Answered f.search.incumbent := by
  induction reached with
  | refl => exact fun _ none => nomatch none
  | tail before step ih => exact ih.next keeps (change_of_next (Reached.frontier before) step)

end Milp.SearchTask
