import Mathlib.Algebra.Order.Ring.Nat
import Mathlib.Tactic.Ring
import Milp.Number.Double

/-!
# How doubles are rounded

A finite double is a whole multiple of the least positive one. Counted in that unit, a sum of doubles
is a sum of integers, and it is rounded to one of the doubles next to it.

Results:
1. `Normal.compare_isLE`: the order of mantissas and exponents is that of sizes.
2. `round_adjacent`: no double lies between what is rounded and what comes of it.
-/

namespace Milp.Binary64

open Float.Model (Format totalExponent)
open Float.Model.UnpackedFloat

/-! ## Sizes -/

/-- How many times the least positive double a mantissa with an exponent is. -/
def size (m : Nat) (e : Int) : Nat := m * 2 ^ (e + 1074).toNat

/-- A mantissa and an exponent as those of a double, which may be too large. -/
structure Normal (m : Nat) (e : Int) : Prop where
  pos : 0 < m
  lt : m < 2 ^ 53
  least : -1074 ≤ e
  full : 2 ^ 52 ≤ m ∨ e = -1074

section Order

variable {m n : Nat} {e f : Int}

theorem size_le_size : size m e ≤ size n e ↔ m ≤ n :=
  Nat.mul_le_mul_right_iff (Nat.two_pow_pos _)

theorem size_lt_size : size m e < size n e ↔ m < n :=
  Nat.mul_lt_mul_right (Nat.two_pow_pos _)

/-- A size at a smaller exponent. -/
theorem size_shift (least : -1074 ≤ e) (k : Nat) : size m (e + k) = size (m * 2 ^ k) e := by
  rw [size, size, Nat.mul_assoc, ← Nat.pow_add]
  congr 2
  omega

theorem Normal.size_lt (hm : Normal m e) (hn : Normal n f) (less : e < f) : size m e < size n f := by
  have full : 2 ^ 52 ≤ n := hn.full.resolve_right (by have := hm.least; omega)
  obtain ⟨d, exponents⟩ : ∃ d, (f + 1074).toNat = (e + 1074).toNat + 1 + d :=
    Nat.exists_eq_add_of_le (by have := hm.least; omega)
  have power : 0 < 2 ^ (e + 1074).toNat := Nat.two_pow_pos _
  calc size m e
      < 2 ^ 53 * 2 ^ (e + 1074).toNat := Nat.mul_lt_mul_of_pos_right hm.lt power
    _ = 2 ^ 52 * 2 ^ ((e + 1074).toNat + 1) := by ring
    _ ≤ n * 2 ^ (f + 1074).toNat :=
        Nat.mul_le_mul full (Nat.pow_le_pow_right (by decide) (by omega))

/-- The order of mantissas and exponents is that of sizes. -/
theorem Normal.compare_isLE (hm : Normal m e) (hn : Normal n f) :
    ((compare e f).then (compare m n)).isLE = true ↔ size m e ≤ size n f := by
  rcases lt_trichotomy e f with less | rfl | more
  · simp [Int.compare_eq_lt.mpr less, (hm.size_lt hn less).le]
  · simp [Nat.isLE_compare, size_le_size]
  · simp [Int.compare_eq_gt.mpr more, hn.size_lt hm more]

end Order

/-! ## Shifts -/

/-- A mantissa shifted to the right is divided, and its two bits tell whether something is left. -/
theorem shiftRight_spec (n k : Nat) :
    ((⟨n, false, false⟩ : ExtendedMantissa) >>> k).mantissa = n / 2 ^ k ∧
      ((((⟨n, false, false⟩ : ExtendedMantissa) >>> k).roundBit ||
        ((⟨n, false, false⟩ : ExtendedMantissa) >>> k).stickyBit) = false ↔ n % 2 ^ k = 0) := by
  induction k with
  | zero => simp [HShiftRight.hShiftRight, Nat.repeat, Nat.mod_one]
  | succ k ih =>
    have next : (⟨n, false, false⟩ : ExtendedMantissa) >>> (k + 1) =
        ((⟨n, false, false⟩ : ExtendedMantissa) >>> k).shiftRightOne := rfl
    rw [next]
    generalize (⟨n, false, false⟩ : ExtendedMantissa) >>> k = shifted at ih
    obtain ⟨divided, left⟩ := ih
    have parts : n % 2 ^ (k + 1) = 0 ↔ n % 2 ^ k = 0 ∧ n / 2 ^ k % 2 = 0 := by
      rw [Nat.mod_pow_succ, Nat.add_eq_zero_iff, Nat.mul_eq_zero]
      simp
    constructor
    · rw [ExtendedMantissa.shiftRightOne, divided, Nat.div_div_eq_div_mul, pow_succ]
    · rw [parts, ← left, ExtendedMantissa.shiftRightOne, divided]
      simp [and_comm]

/-- Rounding goes up by one at most, and only where something is left. -/
theorem roundedMantissa_cases (s : ExtendedMantissa) :
    s.roundedMantissa = s.mantissa ∨
      s.roundedMantissa = s.mantissa + 1 ∧ (s.roundBit || s.stickyBit) = true := by
  obtain ⟨m, round, sticky⟩ := s
  cases round <;> cases sticky <;>
    simp [ExtendedMantissa.roundedMantissa, ExtendedMantissa.accuracy, Accuracy.roundToNearestEven]
  omega

/-! ## Rounding -/

theorem targetExponent_eq (m : Nat) (e : Int) :
    Format.binary64.targetExponent (totalExponent m e) = max (m.log2 + e - 52) (-1074) := by
  have least : Format.binary64.minExponent = -1074 := by decide
  have bits : Format.binary64.mantissaBits = 53 := by decide
  rw [Format.targetExponent, totalExponent, least, bits]
  omega

/-- A size cut off at an exponent, and rounded there. -/
structure Cut (x q r : Nat) (t : Int) : Prop where
  least : -1074 ≤ t
  lt : q < 2 ^ 53
  full : 2 ^ 52 ≤ q ∨ t = -1074
  le : size q t ≤ x
  lt_succ : x < size (q + 1) t
  rounded : r = q ∨ r = q + 1 ∧ size q t < x

section Rounding

variable {m : Nat} {e : Int}

theorem shiftToTargetExponent_spec (pos : 0 < m) (least : -1074 ≤ e)
    (below : e ≤ Format.binary64.targetExponent (totalExponent m e)) :
    ∃ q, Cut (size m e) q (shiftToTargetExponent Format.binary64 m e .exact).1.roundedMantissa
      (shiftToTargetExponent Format.binary64 m e .exact).2 := by
  obtain ⟨k, shift⟩ := Int.eq_ofNat_of_zero_le (Int.sub_nonneg.mpr below)
  have target := targetExponent_eq m e
  have shifted : shiftToTargetExponent Format.binary64 m e .exact =
      ((⟨m, false, false⟩ : ExtendedMantissa) >>> k, e + k) := by
    rw [shiftToTargetExponent, shiftToExponent, shift]
    rfl
  have parts : 2 ^ k * (m / 2 ^ k) + m % 2 ^ k = m := Nat.div_add_mod m (2 ^ k)
  have rest : m % 2 ^ k < 2 ^ k := Nat.mod_lt _ (Nat.two_pow_pos k)
  obtain ⟨divided, left⟩ := shiftRight_spec m k
  rw [shifted]
  refine ⟨m / 2 ^ k, by omega, ?_, ?_, ?_, ?_, ?_⟩
  · refine Nat.div_lt_of_lt_mul (Nat.lt_log2_self.trans_le ?_)
    rw [← Nat.pow_add]
    exact Nat.pow_le_pow_right (by decide) (by omega)
  · rcases Int.le_total (m.log2 + e - 52) (-1074) with low | high
    · exact .inr (by omega)
    · refine .inl ((Nat.le_div_iff_mul_le (Nat.two_pow_pos k)).mpr ?_)
      rw [← Nat.pow_add, show 52 + k = m.log2 by omega]
      exact Nat.log2_self_le pos.ne'
  · rw [size_shift least, size_le_size]
    exact Nat.div_mul_le_self m (2 ^ k)
  · rw [size_shift least, size_lt_size, Nat.add_mul, Nat.mul_comm (m / 2 ^ k)]
    omega
  · rw [← divided]
    rcases roundedMantissa_cases ((⟨m, false, false⟩ : ExtendedMantissa) >>> k) with same | ⟨up, bits⟩
    · exact .inl same
    · refine .inr ⟨up, ?_⟩
      rw [divided, size_shift least, size_lt_size, Nat.mul_comm]
      have remains : m % 2 ^ k ≠ 0 := fun none => Bool.false_ne_true ((left.mpr none).symm.trans bits)
      omega

/-- No double is on one side of the first size and on the other side of the second. -/
def Adjacent (x y : Nat) : Prop :=
  ∀ k g, Normal k g → (size k g ≤ x → size k g ≤ y) ∧ (x ≤ size k g → y ≤ size k g)

namespace Cut

variable {x q r : Nat} {t : Int}

theorem le_rounded (h : Cut x q r t) : q ≤ r := by
  rcases h.rounded with rfl | ⟨rfl, -⟩
  · exact le_rfl
  · exact Nat.le_succ q

theorem rounded_pos (h : Cut x q r t) (pos : 0 < x) : 0 < r := by
  by_contra none
  have zero : q = 0 := by have := h.le_rounded; omega
  have least : t = -1074 := h.full.resolve_left (by omega)
  have small := h.lt_succ
  rw [zero, least] at small
  exact absurd (Nat.lt_one_iff.mp small) pos.ne'

theorem adjacent (h : Cut x q r t) : Adjacent x (size r t) := by
  intro k g normal
  rcases Int.lt_or_le g t with below | above
  · -- a smaller exponent is the exponent of a smaller double
    have full : 2 ^ 52 ≤ q := h.full.resolve_right (by have := normal.least; omega)
    have less := normal.size_lt ⟨by omega, h.lt, h.least, .inl full⟩ below
    exact ⟨fun _ => less.le.trans (size_le_size.mpr h.le_rounded),
      fun more => absurd (h.le.trans more) less.not_ge⟩
  · obtain ⟨d, rfl⟩ : ∃ d : Nat, g = t + d := ⟨(g - t).toNat, by omega⟩
    rw [size_shift h.least]
    refine ⟨fun less => ?_, fun more => ?_⟩
    · have small := size_lt_size.mp (less.trans_lt h.lt_succ)
      exact size_le_size.mpr ((Nat.lt_succ_iff.mp small).trans h.le_rounded)
    · rcases h.rounded with rfl | ⟨rfl, inexact⟩
      · exact h.le.trans more
      · exact size_le_size.mpr (size_lt_size.mp (inexact.trans_le more))

/-- A mantissa that was rounded up to a power of two is shifted once more. -/
theorem carry (h : Cut x q r t) (pos : 0 < x) :
    Normal (shiftToTargetExponent Format.binary64 r t .exact).1.mantissa
        (shiftToTargetExponent Format.binary64 r t .exact).2 ∧
      size (shiftToTargetExponent Format.binary64 r t .exact).1.mantissa
        (shiftToTargetExponent Format.binary64 r t .exact).2 = size r t := by
  have positive := h.rounded_pos pos
  have target := targetExponent_eq r t
  have least := h.least
  rcases Nat.lt_or_ge r (2 ^ 53) with small | large
  · have digits : r.log2 < 53 := (Nat.log2_lt positive.ne').mpr small
    have none : (Format.binary64.targetExponent (totalExponent r t) - t).toNat = 0 := by omega
    have kept : shiftToTargetExponent Format.binary64 r t .exact = (⟨r, false, false⟩, t) := by
      rw [shiftToTargetExponent, shiftToExponent, none]
      simp [HShiftRight.hShiftRight, Nat.repeat, ExtendedMantissa.ofMantissaAndAccuracy]
    rw [kept]
    refine ⟨⟨positive, small, least, h.full.imp_left fun full => full.trans h.le_rounded⟩, rfl⟩
  · have all : r = 2 ^ 53 := by
      have := h.lt
      rcases h.rounded with rfl | ⟨rfl, -⟩ <;> omega
    have digits : r.log2 = 53 := by rw [all, Nat.log2_two_pow]
    have once : (Format.binary64.targetExponent (totalExponent r t) - t).toNat = 1 := by omega
    have carried : shiftToTargetExponent Format.binary64 r t .exact =
        (⟨2 ^ 52, false, false⟩, t + (1 : Nat)) := by
      rw [shiftToTargetExponent, shiftToExponent, once, all]
      rfl
    rw [carried]
    dsimp only
    refine ⟨⟨by decide, by decide, by omega, .inl le_rfl⟩, ?_⟩
    rw [size_shift least, all]
    rfl

end Cut

theorem log2_mul_two_pow (nonzero : m ≠ 0) (k : Nat) : (m * 2 ^ k).log2 = m.log2 + k := by
  have product : m * 2 ^ k ≠ 0 := Nat.mul_ne_zero nonzero (Nat.two_pow_pos k).ne'
  apply Nat.le_antisymm
  · rw [← Nat.lt_succ_iff, Nat.log2_lt product, Nat.succ_eq_add_one, Nat.add_right_comm, Nat.pow_add]
    exact Nat.mul_lt_mul_of_pos_right Nat.lt_log2_self (Nat.two_pow_pos k)
  · rw [Nat.le_log2 product, Nat.pow_add]
    exact Nat.mul_le_mul_right _ (Nat.log2_self_le nonzero)

/-- No double lies between what is rounded and what comes of it. -/
theorem round_adjacent (s : Sign) (pos : 0 < m) (least : -1074 ≤ e) :
    ∃ n f nonzero, round Format.binary64 s m e = finite s n f nonzero ∧ Normal n f ∧
      Adjacent (size m e) (size n f) := by
  let t := Format.binary64.targetExponent (totalExponent m e)
  let k := (e - t).toNat
  have target : t = max (m.log2 + e - 52) (-1074) := targetExponent_eq m e
  have decreased : decreaseExponent m e t = (m * 2 ^ k, e - k) := by
    rw [decreaseExponent, Nat.shiftLeft_eq]
  have product : 0 < m * 2 ^ k := Nat.mul_pos pos (Nat.two_pow_pos k)
  have low : -1074 ≤ e - k := by omega
  have same : size (m * 2 ^ k) (e - k) = size m e := by
    rw [← size_shift low, Int.sub_add_cancel]
  have below : e - k ≤ Format.binary64.targetExponent (totalExponent (m * 2 ^ k) (e - k)) := by
    rw [targetExponent_eq, log2_mul_two_pow pos.ne']
    omega
  obtain ⟨q, cut⟩ := shiftToTargetExponent_spec product low below
  have large : 0 < size (m * 2 ^ k) (e - k) := Nat.mul_pos product (Nat.two_pow_pos _)
  obtain ⟨normal, carried⟩ := cut.carry large
  refine ⟨_, _, normal.pos, ?_, normal, ?_⟩
  · show roundWithAccuracy Format.binary64 s (decreaseExponent m e t).1 (decreaseExponent m e t).2
      .exact = _
    rw [decreased, roundWithAccuracy]
    exact dif_neg normal.pos.ne'
  · rw [carried, ← same]
    exact cut.adjacent

end Rounding

end Milp.Binary64
