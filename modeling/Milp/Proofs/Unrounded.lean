import Milp.Number.Unrounded
import Milp.Proofs.Exact

/-!
# Doubles without rounding, and their order

Results:
1. `finite_le_finite`, `finite_lt_finite`: finite doubles are ordered as rationals are.
2. `le_trans`: order is transitive, as nothing is in order with an undefined double.
-/

namespace Milp.Unrounded

@[simp]
theorem finite_le_finite {a b : Rat} : finite a ≤ finite b ↔ a ≤ b := by
  simp [LE.le, le]

theorem finite_lt_finite {a b : Rat} : finite a < finite b ↔ a < b := by
  have bool : finite a < finite b ↔ (decide (a ≤ b) && !decide (b ≤ a)) = true := Iff.rfl
  simp only [bool, Bool.and_eq_true, decide_eq_true_eq, Bool.not_eq_true', decide_eq_false_iff_not,
    not_le]
  exact ⟨And.right, fun less => ⟨less.le, less⟩⟩

theorem le_trans {a b c : Unrounded} (hab : a ≤ b) (hbc : b ≤ c) : a ≤ c := by
  cases a <;> cases b <;> cases c <;> simp_all [LE.le, le]
  exact Rat.le_trans hab hbc

theorem max_finite (a b : Rat) : Max.max (finite a) (finite b) = finite (Max.max a b) := by
  show (if finite a < finite b then finite b else finite a) = _
  rcases lt_or_ge a b with less | most
  · rw [if_pos (finite_lt_finite.mpr less), max_eq_right less.le]
  · rw [if_neg (fun less => not_lt.mpr most (finite_lt_finite.mp less)), max_eq_left most]

end Milp.Unrounded
