import Milp.Proofs.Feasible
import Milp.Proofs.Simplex.Run

/-!
# Points and states

A point of the box gives every column a value: its rows have their activities, and the artificial
columns are zero.

Results:
1. `system_mul_point`: a point is in balance.
2. `admits_point`: every column admits the value that a feasible point gives it.
3. `feasible_of_admits`: values that all columns admit, in balance, are those of a feasible point.
-/

namespace Milp

variable {n m : Nat} {p : Relaxation Rat ExtendedRat n m} {box : Box ExtendedRat n}
  {z : Vector Rat n}

namespace Relaxation

/-- A point of a box that keeps every row. -/
def Feasible (p : Relaxation Rat ExtendedRat n m) (box : Box ExtendedRat n) (z : Vector Rat n) :
    Prop :=
  box.Holds z ∧ p.Satisfies z

instance (p : Relaxation Rat ExtendedRat n m) (box : Box ExtendedRat n) (z : Vector Rat n) :
    Decidable (p.Feasible box z) :=
  inferInstanceAs (Decidable (_ ∧ _))

/-- The value that a point gives a column. -/
def point (p : Relaxation Rat ExtendedRat n m) (z : Vector Rat n) : Column n m → Rat
  | .structural j => z[j]
  | .logical i => (SimplexState.activities p z)[i]
  | .artificial _ => 0

end Relaxation

namespace SimplexState

variable {s : SimplexState Rat ExtendedRat n m}

/-- A point is in balance. -/
theorem system_mul_point (s : SimplexState Rat ExtendedRat n m) (z : Vector Rat n) (i : Fin m) :
    ∑ c, s.system p i c * p.point z c = 0 := by
  have same : (.ofFn fun j => p.point z (.structural j) : Vector Rat n) = z := by
    ext j hj
    simp [Relaxation.point]
  rw [system_mul_eq, same]
  simp [Relaxation.point]

/-- Every column admits the value that a feasible point gives it. -/
theorem admits_point (limited : s.Limited p box) (feasible : p.Feasible box z) (c : Column n m) :
    (s.cell c).Admits (p.point z c) := by
  unfold Cell.Admits
  cases c with
  | structural j =>
    rw [(limited.structural j).1, (limited.structural j).2]
    exact feasible.1 j
  | logical i =>
    rw [(limited.logical i).1, (limited.logical i).2]
    exact feasible.2 i
  | artificial i => exact limited.admits_zero i

/-- Values that all columns admit, in balance and without artificial columns, are those of a feasible
point. -/
theorem feasible_of_admits (limited : s.Limited p box) (fixed : ∀ i, (s.cell (.artificial i)).upper =
    .finite 0) {v : Column n m → Rat} (admits : ∀ c, (s.cell c).Admits (v c))
    (balanced : ∀ i, ∑ c, s.system p i c * v c = 0) :
    p.Feasible box (.ofFn fun j => v (.structural j)) := by
  have none (i : Fin m) : v (.artificial i) = 0 := by
    obtain ⟨lower, upper⟩ := admits (.artificial i)
    rw [(limited.artificial i).1, ExtendedRat.finite_le_finite] at lower
    rw [fixed i, ExtendedRat.finite_le_finite] at upper
    exact le_antisymm upper lower
  refine ⟨?_, ?_⟩
  · intro j
    obtain ⟨lower, upper⟩ := admits (.structural j)
    rw [(limited.structural j).1] at lower
    rw [(limited.structural j).2] at upper
    simpa [Box.Admits] using And.intro lower upper
  · intro i
    have row := balanced i
    rw [system_mul_eq, none i, mul_zero, add_zero, sub_eq_zero] at row
    obtain ⟨lower, upper⟩ := admits (.logical i)
    rw [(limited.logical i).1, ← row] at lower
    rw [(limited.logical i).2, ← row] at upper
    exact ⟨lower, upper⟩

/-! ## Costs -/

/-- In the first phase a point costs nothing. -/
theorem FirstPhase.cost_point (costs : s.FirstPhase) (z : Vector Rat n) :
    ∑ c, s.cost c * p.point z c = 0 := by
  rw [Column.sum_kinds]
  simp [costs.structural, costs.logical, Relaxation.point]

/-- In the first phase the cost is the sum of the artificial columns. -/
theorem FirstPhase.infeasibility_eq (costs : s.FirstPhase) :
    s.infeasibility = ∑ c, s.cost c * s.value c := by
  have values : s.cells.artificial.toList.map (·.value) =
      (List.finRange m).map fun i => s.value (.artificial i) := by
    refine List.ext_getElem (by simp) ?_
    intro i h h'
    simp [value, cell, Table.get]
  rw [infeasibility, Exact.sum_eq, values, Column.sum_kinds, Fin.sum_univ_def]
  simp [costs.structural, costs.logical, costs.artificial, Fin.sum_univ_def]

/-- In the second phase the cost is that of the structural columns. -/
theorem SecondPhase.cost_eq (costs : s.SecondPhase p) (v : Column n m → Rat) :
    ∑ c, s.cost c * v c = p.costOf (Vector.ofFn fun j => v (.structural j)).toList := by
  rw [Relaxation.costOf_eq_sum, Column.sum_kinds]
  simp [costs.structural, costs.logical, costs.artificial]

/-- In the second phase a point costs what it costs as values of the structural columns. -/
theorem SecondPhase.cost_point (costs : s.SecondPhase p) (z : Vector Rat n) :
    ∑ c, s.cost c * p.point z c = p.costOf z.toList := by
  have same : (.ofFn fun j => p.point z (.structural j) : Vector Rat n) = z := by
    ext j hj
    simp [Relaxation.point]
  rw [costs.cost_eq, same]

end SimplexState

end Milp
