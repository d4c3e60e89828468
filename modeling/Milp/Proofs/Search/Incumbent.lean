import Mathlib.Tactic.GCongr
import Milp.Proofs.Feasible
import Milp.Proofs.Search.Process

/-!
# Incumbents

How the incumbent of a search changes when values are offered, and what that means for the bounds
that it dominates.

Results:
1. `offered_cases`: the incumbent after an offer is the old one, or it is better beyond the tolerance.
2. `canImprove_offered`: what cannot improve on an incumbent cannot improve on a later one.
3. `snap_of_furthestColumn_eq_none`, `snap_of_holds_fixAt`: what a node settles is not moved by
   rounding.
-/

namespace Milp

variable {n m : Nat}

/-! ## Costs and objectives -/

namespace Relaxation

variable {p : Relaxation Rat ExtendedRat n m}

theorem sense_mul_sense (d : Direction) : (d.sense : Rat) * d.sense = 1 := by
  cases d
  · exact one_mul 1
  · show (-1 : Rat) * -1 = 1
    norm_num

theorem abs_sense_mul (d : Direction) (q : Rat) : |(d.sense : Rat) * q| = |q| := by
  cases d
  · exact congrArg _ (one_mul q)
  · show |(-1 : Rat) * q| = |q|
    rw [neg_one_mul, abs_neg]

/-- A cost is recovered from its objective. -/
theorem toCost_toObjective (cost : Rat) : p.toCost (p.toObjective cost) = cost := by
  unfold toCost toObjective
  calc (p.direction.sense * cost + p.constant - p.constant) * p.direction.sense
    _ = cost * (p.direction.sense * p.direction.sense) := by ring
    _ = cost := by rw [sense_mul_sense, mul_one]

/-- Objectives are as far apart as their costs. -/
theorem abs_toObjective_le (a b : Rat) :
    |p.toObjective a| ≤ |p.toObjective b| + |a - b| := by
  have apart : p.toObjective a = p.toObjective b + p.direction.sense * (a - b) := by
    unfold toObjective
    ring
  calc |p.toObjective a|
    _ = |p.toObjective b + p.direction.sense * (a - b)| := by rw [apart]
    _ ≤ |p.toObjective b| + |p.direction.sense * (a - b)| := abs_add_le _ _
    _ = |p.toObjective b| + |a - b| := by rw [abs_sense_mul]

end Relaxation

namespace SearchTask

variable {k : SearchTask Rat ExtendedRat n m} {incumbent : Option (Incumbent Rat n)}
  {bound : ExtendedRat} {z : Vector Rat n}

/-! ## Incumbents -/

/-- The gap is at most one, where there is one. -/
def ModestGap (k : SearchTask Rat ExtendedRat n m) : Prop :=
  ∀ gap, k.config.gap = some gap → gap ≤ 1

theorem epsilon_le_margin (k : SearchTask Rat ExtendedRat n m) (cost : Rat) :
    k.config.feasibility.epsilon cost ≤ k.margin cost :=
  le_max_right _ _

theorem margin_pos (k : SearchTask Rat ExtendedRat n m) (cost : Rat) : 0 < k.margin cost :=
  (Tolerance.epsilon_pos _ _).trans_le (k.epsilon_le_margin cost)

/-- A share of an objective is at most that share of a better one and the improvement. -/
theorem share_le {gap : Rat} (modest : gap ≤ 1) {cost better : Rat} (less : better < cost) :
    gap * |k.relaxation.toObjective cost| ≤
      max (gap * |k.relaxation.toObjective better|) 0 + (cost - better) := by
  rcases le_total gap 0 with negative | positive
  · -- a gap below zero is no allowance
    have left : gap * |k.relaxation.toObjective cost| ≤ 0 :=
      mul_nonpos_of_nonpos_of_nonneg negative (abs_nonneg _)
    have right := le_max_right (gap * |k.relaxation.toObjective better|) 0
    linarith
  · have apart := k.relaxation.abs_toObjective_le cost better
    rw [abs_of_pos (sub_pos.mpr less)] at apart
    calc gap * |k.relaxation.toObjective cost|
      _ ≤ gap * (|k.relaxation.toObjective better| + (cost - better)) := by gcongr
      _ = gap * |k.relaxation.toObjective better| + gap * (cost - better) := mul_add ..
      _ ≤ max (gap * |k.relaxation.toObjective better|) 0 + 1 * (cost - better) := by
        gcongr
        exact le_max_left _ _
      _ = max (gap * |k.relaxation.toObjective better|) 0 + (cost - better) := by rw [one_mul]

/-- With a better incumbent a bound has to be lower to improve on it. -/
theorem threshold_mono (modest : k.ModestGap) {cost better : Rat}
    (improves : better < cost - k.config.feasibility.epsilon cost) :
    better - k.margin better ≤ cost - k.margin cost := by
  have room := Tolerance.epsilon_pos k.config.feasibility cost
  have positive := k.margin_pos better
  have gain : k.margin cost ≤ k.margin better + (cost - better) := by
    refine max_le ?_ (by linarith)
    cases hg : k.config.gap with
    | none =>
      show (0 : Rat) ≤ _
      linarith
    | some gap =>
      have share := share_le (k := k) (modest gap hg) (show better < cost by linarith)
      have part : max (gap * |k.relaxation.toObjective better|) 0 ≤ k.margin better := by
        refine max_le ?_ positive.le
        rw [← Exact.abs_eq]
        unfold margin
        rw [hg]
        exact le_max_left _ _
      show gap * Scalar.abs (k.relaxation.toObjective cost) ≤ _
      rw [Exact.abs_eq]
      linarith
  linarith

theorem canImprove_some {i : Incumbent Rat n} :
    k.canImprove (some i) bound = false ↔ .finite (i.cost - k.margin i.cost) ≤ bound := by
  simp [canImprove]

/-- The incumbent after an offer is the old one or one that is better beyond the tolerance. -/
theorem offered_cases (k : SearchTask Rat ExtendedRat n m) (incumbent : Option (Incumbent Rat n))
    (values : Vector Rat n) :
    let cost := k.relaxation.costOf (k.snap values).toList
    (k.improves incumbent cost = true ∧
      k.offered incumbent values = some ⟨cost, k.snap values⟩) ∨
    (∃ i, incumbent = some i ∧ k.offered incumbent values = some i ∧
      i.cost - k.config.feasibility.epsilon i.cost ≤ cost) := by
  intro cost
  cases improves : k.improves incumbent cost with
  | true =>
    refine .inl ⟨rfl, ?_⟩
    unfold offered
    exact if_pos improves
  | false =>
    cases incumbent with
    | none => simp [SearchTask.improves] at improves
    | some i =>
      refine .inr ⟨i, rfl, ?_, by simpa [SearchTask.improves] using improves⟩
      unfold offered
      exact if_neg (by simpa using improves)

/-- What cannot improve on an incumbent cannot improve on a later one. -/
theorem canImprove_offered (modest : k.ModestGap) {values : Vector Rat n}
    (worse : k.canImprove incumbent bound = false) :
    k.canImprove (k.offered incumbent values) bound = false := by
  rcases k.offered_cases incumbent values with ⟨improves, new⟩ | ⟨i, old, kept, -⟩
  · cases incumbent with
    | none => simp [canImprove] at worse
    | some i =>
      rw [canImprove_some] at worse
      rw [new, canImprove_some]
      refine le_trans ?_ worse
      rw [ExtendedRat.finite_le_finite]
      exact threshold_mono modest (by simpa [SearchTask.improves] using improves)
  · rw [kept, ← old]
    exact worse

/-- No cost above that of values on offer improves on the incumbent after the offer. -/
theorem canImprove_of_offered {values : Vector Rat n} {cost : Rat}
    (above : k.relaxation.costOf (k.snap values).toList ≤ cost) :
    k.canImprove (k.offered incumbent values) (.finite cost) = false := by
  rcases k.offered_cases incumbent values with ⟨-, new⟩ | ⟨i, -, kept, near⟩
  · rw [new, canImprove_some, ExtendedRat.finite_le_finite]
    have positive := k.margin_pos (k.relaxation.costOf (k.snap values).toList)
    show k.relaxation.costOf (k.snap values).toList - _ ≤ cost
    linarith
  · rw [kept, canImprove_some, ExtendedRat.finite_le_finite]
    have wider := k.epsilon_le_margin i.cost
    linarith

end SearchTask

/-! ## Snapping -/

namespace SearchTask

variable {K L : Type} [Scalar K] [Limits L K] [Readable L K] {k : SearchTask K L n m}
  {values values' : Vector K n} {y z : Vector Rat n} {box : Box L n} {j : Fin n}

/-- Rounding leaves integers alone. -/
theorem snap_of_integral (stands : Stands L values z)
    (integral : ∀ j, k.isInteger j = true → ∃ i : Int, z[j] = i) : k.snap values = values := by
  ext j hj
  simp only [snap, Vector.getElem_ofFn]
  split
  · obtain ⟨i, hi⟩ := integral ⟨j, hj⟩ ‹_›
    exact Readable.round_of_whole (L := L) ((stands ⟨j, hj⟩).trans (by rw [hi]))
  · rfl

/-- Values without a furthest column have integers in the integer columns. -/
theorem integral_of_furthestColumn_eq_none (stands : Stands L values z)
    (none : k.furthestColumn values = none) (hj : k.isInteger j = true) : ∃ i : Int, z[j] = i := by
  have here := furthestColumn_eq_none none hj
  have distance := Readable.read_deviation (L := L) values[j]
  rw [stands j] at distance
  rw [Readable.lt_iff_ofScalar (L := L), Readable.lt_iff] at here
  have least : ¬ (0 : Rat) < Scalar.deviation z[j] := fun less =>
    here ⟨_, _, Readable.read_zero, distance, ExtendedRat.finite_lt_finite.mpr less⟩
  rw [Scalar.deviation, Exact.abs_eq, not_lt] at least
  obtain ⟨i, rounds⟩ := Exact.exists_int_round z[j]
  exact ⟨i, (sub_eq_zero.mp (abs_nonpos_iff.mp least)).trans rounds⟩

/-- Values without a furthest column are settled as they are. -/
theorem snap_of_furthestColumn_eq_none (stands : Stands L values z)
    (none : k.furthestColumn values = none) : k.snap values = values :=
  snap_of_integral stands fun _ hj => integral_of_furthestColumn_eq_none stands none hj

section Fixing

variable (stands : Stands L values y)
include stands

/-- Integer columns are fixed where the values are, up to rounding. -/
theorem reading_fixAt (k : SearchTask K L n m) (box : Box L n) (j : Fin n) :
    (k.fixAt box values).reading.lower[j] =
        (if k.isInteger j then .finite (Scalar.round y[j]) else box.reading.lower[j]) ∧
      (k.fixAt box values).reading.upper[j] =
        if k.isInteger j then .finite (Scalar.round y[j]) else box.reading.upper[j] := by
  have fixed := Readable.read_round (L := L) values[j]
  rw [stands j] at fixed
  rw [(Box.getElem_reading _ j).1, (Box.getElem_reading _ j).2, (Box.getElem_reading box j).1,
    (Box.getElem_reading box j).2]
  simp only [fixAt, Vector.getElem_coordinate, Vector.getElem_ofFn, Fin.eta]
  split
  · exact ⟨congrArg (Option.getD · _) fixed, congrArg (Option.getD · _) fixed⟩
  · exact ⟨rfl, rfl⟩

/-- The box at rounded values has the points of the box with those integers. -/
theorem holds_fixAt (inside : box.reading.Holds z)
    (same : ∀ j, k.isInteger j = true → z[j] = Scalar.round y[j]) :
    (k.fixAt box values).reading.Holds z := by
  intro j
  rw [Box.Admits, (reading_fixAt stands k box j).1, (reading_fixAt stands k box j).2]
  split
  · rw [same j ‹_›]
    exact ⟨le_rfl, le_rfl⟩
  · exact inside j

theorem round_of_holds_fixAt (inside : (k.fixAt box values).reading.Holds z)
    (hj : k.isInteger j = true) : z[j] = Scalar.round y[j] := by
  have here := inside j
  rw [Box.Admits, (reading_fixAt stands k box j).1, (reading_fixAt stands k box j).2, if_pos hj,
    if_pos hj, ExtendedRat.finite_le_finite, ExtendedRat.finite_le_finite] at here
  exact le_antisymm here.2 here.1

theorem integral_of_holds_fixAt (inside : (k.fixAt box values).reading.Holds z)
    (hj : k.isInteger j = true) : ∃ i : Int, z[j] = i := by
  obtain ⟨i, rounds⟩ := Exact.exists_int_round y[j]
  exact ⟨i, (round_of_holds_fixAt stands inside hj).trans rounds⟩

/-- Values of a box in which the integer columns are fixed at integers are settled as they are. -/
theorem snap_of_holds_fixAt (stands' : Stands L values' z)
    (inside : (k.fixAt box values).reading.Holds z) : k.snap values' = values' :=
  snap_of_integral stands' fun _ hj => integral_of_holds_fixAt stands inside hj

end Fixing

end SearchTask

end Milp
