import Mathlib.Algebra.Order.Field.Power
import Milp.Proofs.Unrounded

/-!
# Digits of a tolerance

More digits ask for closer agreement, as long as the powers of ten that the digits stand for do not
wrap around: a precision above `2 ^ 31` becomes a positive power, and the scale `-2 ^ 31` is its own
negative.

Results:
1. `powTen_eq`: the powers of ten are what their name says.
2. `looser_iff`: when fewer digits leave at least as much room.
3. `Looser.slack_le`, `exists_slack_lt`: more room at every reference, or less at some.
4. `Looser.isBetween`, `Looser.isIntegral`: what a tolerance accepts, a looser one accepts.
5. `isBetween_add`: a tolerance accepts what is past a limit by its room, and no more than that.
-/

namespace Milp

/-! ## Powers of ten -/

namespace Scalar

theorem powAux_eq (acc base : Rat) (n : Nat) : powAux acc base n = acc * base ^ n := by
  have odd (n : Nat) : (if n % 2 = 1 then acc * base else acc) = acc * base ^ (n % 2) := by
    rcases Nat.mod_two_eq_zero_or_one n with even | odd
    · simp [even]
    · simp [odd]
  fun_induction powAux acc base n with
  | case1 acc base n acc' half =>
    have small : n = n % 2 := by omega
    rw [show acc' = _ from odd n, ← small]
  | case2 acc base n acc' half ih =>
    rw [ih fun k => ?_, show acc' = _ from odd n, mul_assoc, ← pow_two, ← pow_mul, ← pow_add]
    · congr 2
      omega
    · rcases Nat.mod_two_eq_zero_or_one k with even | odd
      · simp [even]
      · simp [odd]

theorem powTen_eq (n : Int) : (powTen n : Rat) = 10 ^ n := by
  have power : powAux 1 (((10 : Int) : Rat)) n.natAbs = 10 ^ n.natAbs := by
    rw [powAux_eq, one_mul]
    norm_num
  unfold powTen
  dsimp only
  rw [power]
  split
  · rename_i negative
    have size : n = -(n.natAbs : Int) := by omega
    conv_rhs => rw [size, zpow_neg, zpow_natCast]
    rw [one_div]
  · have size : n = (n.natAbs : Int) := by omega
    conv_rhs => rw [size, zpow_natCast]

end Scalar

/-! ## Room -/

namespace Tolerance

variable {s t : Tolerance}

/-- The power of ten of the relative tolerance changes its sign above `2 ^ 31` digits. -/
theorem relativeExponent_toInt (t : Tolerance) : t.relativeExponent.toInt =
    if t.precision.toNat ≤ 2 ^ 31 then -(t.precision.toNat : Int)
    else 2 ^ 32 - (t.precision.toNat : Int) := by
  have inside := t.precision.toNat_lt
  have word : t.precision.toInt32.toInt = if 2 * t.precision.toNat < 2 ^ 32 then
      (t.precision.toNat : Int) else t.precision.toNat - 2 ^ 32 := by
    show t.precision.toBitVec.toInt = _
    rw [BitVec.toInt_eq_toNat_cond, UInt32.toNat_toBitVec]
    norm_cast
  rw [relativeExponent, Int32.toInt_neg, Int.bmod_def, word]
  omega

/-- The power of ten of the absolute tolerance has the other sign than the scale, but for the least
scale. -/
theorem absoluteExponent_toInt (t : Tolerance) : t.absoluteExponent.toInt =
    if t.scale = Int32.minValue then -2 ^ 31 else -t.scale.toInt := by
  have low := t.scale.le_toInt
  have high := t.scale.toInt_lt
  have least : t.scale = Int32.minValue ↔ t.scale.toInt = -2 ^ 31 := by
    rw [← Int32.toInt_inj, Int32.toInt_minValue]
  rw [absoluteExponent, Int32.toInt_neg, Int.bmod_def]
  simp only [least]
  omega

/-- One tolerance leaves at least as much room as another: both of its powers of ten are at least as
large. -/
structure Looser (s t : Tolerance) : Prop where
  absolute : t.absoluteExponent.toInt ≤ s.absoluteExponent.toInt
  relative : t.relativeExponent.toInt ≤ s.relativeExponent.toInt

/-- Fewer digits leave at least as much room, unless one of the powers of ten wraps around for one of
the two tolerances only. -/
theorem looser_iff (precision : s.precision ≤ t.precision) (scale : s.scale ≤ t.scale) :
    Looser s t ↔ (2 ^ 31 < t.precision.toNat → 2 ^ 31 < s.precision.toNat) ∧
      (s.scale = Int32.minValue → t.scale = Int32.minValue) := by
  have fewer := UInt32.le_iff_toNat_le.mp precision
  have lower := Int32.le_iff_toInt_le.mp scale
  have inside := t.precision.toNat_lt
  have least (t : Tolerance) : t.scale = Int32.minValue ↔ t.scale.toInt = -2 ^ 31 := by
    rw [← Int32.toInt_inj, Int32.toInt_minValue]
  have low := s.scale.le_toInt
  have high := t.scale.toInt_lt
  constructor
  · rintro ⟨absolute, relative⟩
    rw [absoluteExponent_toInt, absoluteExponent_toInt] at absolute
    rw [relativeExponent_toInt, relativeExponent_toInt] at relative
    simp only [least] at absolute ⊢
    omega
  · rintro ⟨relative, absolute⟩
    constructor
    · rw [absoluteExponent_toInt, absoluteExponent_toInt]
      simp only [least] at absolute ⊢
      omega
    · rw [relativeExponent_toInt, relativeExponent_toInt]
      omega

theorem slack_eq (t : Tolerance) (finite : Bool) (q : Rat) : t.slack finite q =
    max (10 ^ t.absoluteExponent.toInt)
      (if finite then |q| * 10 ^ t.relativeExponent.toInt else 0) := by
  unfold slack absolute relative
  rw [Scalar.powTen_eq, Scalar.powTen_eq, Exact.abs_eq]

theorem Looser.slack_le (looser : Looser s t) (finite : Bool) (q : Rat) :
    t.slack finite q ≤ s.slack finite q := by
  rw [slack_eq, slack_eq]
  have absolute : (10 : Rat) ^ t.absoluteExponent.toInt ≤ 10 ^ s.absoluteExponent.toInt :=
    zpow_le_zpow_right₀ (by norm_num) looser.absolute
  have relative : (10 : Rat) ^ t.relativeExponent.toInt ≤ 10 ^ s.relativeExponent.toInt :=
    zpow_le_zpow_right₀ (by norm_num) looser.relative
  refine max_le_max absolute ?_
  split
  · exact mul_le_mul_of_nonneg_left relative (abs_nonneg q)
  · exact le_rfl

/-- A tolerance that is not looser leaves less room at some reference: at zero, or far from it. -/
theorem exists_slack_lt (tighter : ¬ Looser s t) :
    ∃ q : Rat, 0 ≤ q ∧ s.slack true q < t.slack true q := by
  by_cases absolute : t.absoluteExponent.toInt ≤ s.absoluteExponent.toInt
  · have relative : s.relativeExponent.toInt < t.relativeExponent.toInt := by
      by_contra h
      exact tighter ⟨absolute, not_lt.mp h⟩
    refine ⟨10 ^ (s.absoluteExponent.toInt - t.relativeExponent.toInt + 1), by positivity, ?_⟩
    rw [slack_eq, slack_eq, abs_of_pos (by positivity), if_pos rfl, if_pos rfl,
      ← zpow_add₀ (by norm_num), ← zpow_add₀ (by norm_num)]
    refine lt_max_of_lt_right (max_lt ?_ ?_)
    · exact zpow_lt_zpow_right₀ (by norm_num) (by omega)
    · exact zpow_lt_zpow_right₀ (by norm_num) (by omega)
  · refine ⟨0, le_rfl, ?_⟩
    rw [slack_eq, slack_eq]
    have less : (10 : Rat) ^ s.absoluteExponent.toInt < 10 ^ t.absoluteExponent.toInt :=
      zpow_lt_zpow_right₀ (by norm_num) (not_le.mp absolute)
    have positive (n : Int) : max ((10 : Rat) ^ n) 0 = 10 ^ n := max_eq_left (by positivity)
    simpa [positive] using less

end Tolerance

/-! ## Doubles without rounding -/

namespace Unrounded

theorem powAux_finite (acc base : Rat) (n : Nat) :
    Scalar.powAux (finite acc) (finite base) n = finite (Scalar.powAux acc base n) := by
  have step (acc base : Rat) (n : Nat) :
      (if n % 2 = 1 then finite acc * finite base else finite acc) =
        finite (if n % 2 = 1 then acc * base else acc) := by
    split <;> rfl
  fun_induction Scalar.powAux acc base n with
  | case1 acc base n acc' half =>
    rw [Scalar.powAux, if_pos half]
    exact step acc base n
  | case2 acc base n acc' half ih =>
    rw [Scalar.powAux, if_neg half, step, ← ih]
    rfl

theorem powTen_finite (n : Int) : (Scalar.powTen n : Unrounded) = finite (Scalar.powTen n) := by
  have power : Scalar.powAux (1 : Unrounded) ((10 : Int) : Unrounded) n.natAbs =
      finite (Scalar.powAux 1 ((10 : Int) : Rat) n.natAbs) := powAux_finite 1 _ _
  have positive : Scalar.powAux 1 ((10 : Int) : Rat) n.natAbs ≠ 0 :=
    (Scalar.powAux_pos _ one_pos (by norm_num)).ne'
  unfold Scalar.powTen
  dsimp only
  rw [power]
  split
  · exact if_neg positive
  · rfl

end Unrounded

namespace Tolerance

variable {s t : Tolerance}

theorem absolute_unrounded (t : Tolerance) : (t.absolute : Unrounded) = .finite t.absolute :=
  Unrounded.powTen_finite _

theorem relative_unrounded (t : Tolerance) : (t.relative : Unrounded) = .finite t.relative :=
  Unrounded.powTen_finite _

theorem epsilonOf_finite (t : Tolerance) (q : Rat) :
    (t.epsilonOf (Unrounded.finite q) : Unrounded) = .finite (t.slack true q) := by
  show max (t.absolute : Unrounded) (.finite q.abs * t.relative) = _
  rw [absolute_unrounded, relative_unrounded]
  exact Unrounded.max_finite _ _

/-- The room at a limit is a rational, and depends only on whether the limit is finite and on its
distance from zero. -/
theorem exists_epsilonOf (l : Unrounded) :
    ∃ finite q, ∀ t : Tolerance, (t.epsilonOf l : Unrounded) = .finite (t.slack finite q) := by
  cases l with
  | finite q => exact ⟨true, q, fun t => t.epsilonOf_finite q⟩
  | undefined | below | above =>
    refine ⟨false, 0, fun t => ?_⟩
    show max (t.absolute : Unrounded) (.finite 0) = _
    rw [absolute_unrounded]
    exact Unrounded.max_finite _ _

theorem Looser.epsilonOf_le (looser : Looser s t) (l : Unrounded) :
    (t.epsilonOf l : Unrounded) ≤ s.epsilonOf l := by
  obtain ⟨finite, q, room⟩ := exists_epsilonOf l
  rw [room, room]
  exact Unrounded.finite_le_finite.mpr (looser.slack_le finite q)

theorem Looser.meets (looser : Looser s t) {l v : Unrounded} (h : t.meets l v = true) :
    s.meets l v = true := by
  unfold Tolerance.meets at h ⊢
  rw [Bool.or_eq_true, decide_eq_true_iff] at h ⊢
  exact h.imp id fun near => Unrounded.le_trans near (looser.epsilonOf_le l)

/-- What a tolerance accepts between two limits, a looser one accepts. -/
theorem Looser.isBetween (looser : Looser s t) {l v u : Unrounded}
    (h : t.isBetween l v u = true) : s.isBetween l v u = true := by
  unfold Tolerance.isBetween isAtLeast isAtMost at h ⊢
  simp only [Bool.and_eq_true, Bool.or_eq_true] at h ⊢
  obtain ⟨⟨defined, lower⟩, upper⟩ := h
  exact ⟨⟨defined, lower.imp id looser.meets⟩, upper.imp id looser.meets⟩

/-- What a tolerance accepts as an integer, a looser one accepts. -/
theorem Looser.isIntegral (looser : Looser s t) {v : Unrounded} (h : t.isIntegral v = true) :
    s.isIntegral v = true := by
  unfold Tolerance.isIntegral at h ⊢
  rw [Bool.and_eq_true] at h ⊢
  exact ⟨h.1, looser.meets (l := Scalar.round v) h.2⟩

theorem meets_finite {q v : Rat} :
    t.meets (Unrounded.finite q) (Unrounded.finite v) = true ↔ |q - v| ≤ t.slack true q := by
  have same : ((Unrounded.finite q == .finite v) : Bool) = (decide (q ≤ v) && decide (v ≤ q)) := rfl
  have apart : (Limits.abs (Limits.sub (Unrounded.finite q) (Unrounded.finite v)) : Unrounded) =
      .finite |q - v| := by
    rw [← Exact.abs_eq, sub_eq_add_neg]
    rfl
  unfold meets
  rw [apart, epsilonOf_finite, Bool.or_eq_true, decide_eq_true_iff]
  refine (or_iff_right_of_imp fun equal => ?_).trans Unrounded.finite_le_finite
  simp only [Limits.ofScalar, id, same, Bool.and_eq_true, decide_eq_true_iff] at equal
  rw [le_antisymm equal.1 equal.2, sub_self, abs_zero]
  exact Unrounded.finite_le_finite.mpr (t.slack_pos true v).le

/-- A tolerance accepts a value above the only one that is allowed as far as its room goes. -/
theorem isBetween_add {q e : Rat} (positive : 0 < e) :
    t.isBetween (Unrounded.finite q) (Unrounded.finite (q + e)) (Unrounded.finite q) = true ↔
      e ≤ t.slack true q := by
  have atLeast : (Unrounded.finite q) ≤ .finite (q + e) :=
    Unrounded.finite_le_finite.mpr (by linarith)
  have notAtMost : ¬ (Unrounded.finite (q + e)) ≤ .finite q := by
    rw [Unrounded.finite_le_finite]
    linarith
  have near := t.meets_finite (q := q) (v := q + e)
  rw [sub_add_cancel_left, abs_neg, abs_of_pos positive] at near
  rw [← near]
  unfold isBetween isAtLeast isAtMost
  simp [Limits.ofScalar, atLeast, notAtMost, Scalar.isUndefined, Unrounded.isUndefined]

end Tolerance

end Milp
