import Milp.Proofs.Binary64.Doubles

/-!
# Sums that are exact

A sum of doubles is rounded to a double next to it, so it is exact where the sum is a double itself.
That is so where few digits are left: of small integers, and of a double and an integer near it.

Results:
1. `place_add`, `place_sub`: a sum and a difference are exact, if they are doubles.
2. `exists_canonical`: a multiple of a power of two with few digits is a double.
3. `exists_canonical_integer`, `exists_canonical_rest`: small integers are doubles, and so is what is
   left when an integer near a double is taken away from it.
-/

namespace Milp.Binary64

open Float.Model (Format UnpackedFloat)
open Float.Model.UnpackedFloat

variable {x y : Float}

/-! ## One -/

/-- How many times the least positive double one is. -/
@[irreducible] def one : Nat := size 1 0

theorem size_one : size 1 0 = one := by
  unfold one
  rfl

theorem one_pos : 0 < one :=
  size_one ▸ Nat.mul_pos Nat.one_pos (Nat.two_pow_pos _)

theorem size_integer (m : Nat) : size m 0 = m * one := by
  rw [← size_one, size, size, Nat.one_mul]

/-- One at a smaller exponent. -/
theorem size_two_pow {k : Nat} {e : Int} (least : -1074 ≤ e) (zero : e + k = 0) :
    size (2 ^ k) e = one := by
  rw [← size_one, ← zero, size_shift least, Nat.one_mul]

theorem exists_one_eq : ∃ k, k = 1074 ∧ one = 2 ^ k :=
  ⟨(0 + 1074 : Int).toNat, rfl, by rw [← size_one, size, Nat.one_mul]⟩

/-- Infinity stands at an integer that is not small. -/
theorem exists_top_eq : ∃ m, 2 ^ 53 ≤ m ∧ top = m * one := by
  obtain ⟨k, exponent, more⟩ : ∃ k : Nat, (972 : Int) = 0 + k ∧ 1 ≤ k := ⟨972, rfl, by decide⟩
  refine ⟨2 ^ 52 * 2 ^ k, ?_, ?_⟩
  · exact Nat.mul_le_mul_left (2 ^ 52) (Nat.pow_le_pow_right Nat.two_pos more)
  · rw [← size_top, exponent, size_shift (by decide), size_integer]

theorem place_one : place 1 = one := by
  have parts : parts 1 = .finite .positive (2 ^ 52) (-52) (by decide) := rfl
  rw [place, parts, ← size_two_pow (k := 52) (e := -52) (by decide) (by decide)]
  rfl

theorem place_half : 2 * place 0.5 = one := by
  have parts : parts 0.5 = .finite .positive (2 ^ 52) (-53) (by decide) := rfl
  have double : size (2 ^ 53) (-53) = 2 * size (2 ^ 52) (-53) := by
    rw [size, size, ← Nat.mul_assoc, ← Nat.pow_succ']
  rw [place, parts, ← size_two_pow (k := 53) (e := -53) (by decide) (by decide), double]
  exact (Nat.cast_mul 2 _).symm

/-! ## Finite doubles -/

theorem natAbs_apply (s : Sign) (n : Nat) : (s.apply n).natAbs = n := by
  cases s <;> simp [Sign.apply]

/-- Finite numbers are between the infinities. -/
theorem Canonical.isFinite_iff {u : UnpackedFloat} (canonical : Canonical u) :
    u.isFinite = true ↔ (units u).natAbs < top := by
  cases canonical with
  | infinity s => exact iff_of_false (nomatch ·) (by simp [units, natAbs_apply])
  | zero s => exact iff_of_true rfl top_pos
  | finite s pos normal small =>
    exact iff_of_true rfl (by simp [units, natAbs_apply, normal.size_lt_top small])

theorem isFinite_iff_place (defined : x.isNaN = false) :
    x.isFinite = true ↔ (place x).natAbs < top :=
  (canonical_parts defined).isFinite_iff

theorem place_neg (hx : x.isFinite = true) : place (-x) = -place x := by
  rw [place, parts_neg hx, units_neg]
  rfl

theorem place_neg_one : place (-1) = -one :=
  (place_neg rfl).trans (congrArg Neg.neg place_one)

theorem place_abs (finite : x.isFinite = true) : place x.abs = (place x).natAbs := by
  have sizes (u : UnpackedFloat) : units u.abs = (units u).natAbs := by
    cases u with
    | infinity s | finite s => rw [units, natAbs_apply]; rfl
    | notANumber | zero => rfl
  rw [place, parts_abs finite, sizes]
  rfl

/-- A finite double has few digits. -/
theorem exists_digits (finite : x.isFinite = true) :
    ∃ m k : Nat, m < 2 ^ 53 ∧ (place x).natAbs = m * 2 ^ k := by
  have finite : (parts x).isFinite = true := finite
  have canonical := canonical_of_isFinite finite
  rw [place]
  generalize parts x = u at canonical finite
  cases canonical with
  | infinity s => cases finite
  | zero s => exact ⟨0, 0, by decide, rfl⟩
  | finite s pos normal small => exact ⟨_, _, normal.lt, natAbs_apply s _⟩

/-! ## Sums and differences -/

/-- A sum that is a double is exact. -/
theorem place_add (hx : x.isFinite = true) (hy : y.isFinite = true)
    (exact : ∃ u, Canonical u ∧ u.isFinite = true ∧ units u = place x + place y) :
    (x + y).isFinite = true ∧ place (x + y) = place x + place y := by
  obtain ⟨u, canonical, finite, sum⟩ := exact
  obtain ⟨canonical', passes⟩ := add_passesNone hx hy
  have between := passes u canonical
  have same : place (x + y) = place x + place y := by
    rw [← sum] at between ⊢
    exact Int.le_antisymm (between.2 le_rfl) (between.1 le_rfl)
  refine ⟨canonical'.isFinite_iff.mpr ?_, same⟩
  rw [canonical.isFinite_iff, sum] at finite
  rwa [← place, same]

/-- A difference that is a double is exact. -/
theorem place_sub (hx : x.isFinite = true) (hy : y.isFinite = true)
    (exact : ∃ u, Canonical u ∧ u.isFinite = true ∧ units u = place x - place y) :
    (x - y).isFinite = true ∧ place (x - y) = place x - place y := by
  rw [sub_eq hy, Int.sub_eq_add_neg, ← place_neg hy]
  refine place_add hx (isFinite_neg hy) ?_
  rwa [place_neg hy, ← Int.sub_eq_add_neg]

/-! ## What is a double -/

/-- A multiple of a power of two is a double, if it has few digits. -/
theorem exists_canonical {p : Int} {k : Nat} (range : k ≤ 2044) (whole : (2 ^ k : Nat) ∣ p.natAbs)
    (few : p.natAbs < 2 ^ 53 * 2 ^ k) : ∃ u, Canonical u ∧ u.isFinite = true ∧ units u = p := by
  obtain ⟨m, size⟩ := whole
  rw [size, Nat.mul_comm] at few
  have few : m < 2 ^ 53 := Nat.lt_of_mul_lt_mul_right few
  rcases Nat.eq_zero_or_pos m with rfl | pos
  · exact ⟨.zero .positive, .zero _, rfl, (Int.natAbs_eq_zero.mp size).symm⟩
  -- the mantissa is made as long as the exponent allows
  have digits : m.log2 < 53 := (Nat.log2_lt pos.ne').mpr few
  obtain ⟨d, shift⟩ : ∃ d, min (52 - m.log2) k = d := ⟨_, rfl⟩
  have normal : Normal (m * 2 ^ d) (k - d - 1074) := by
    have length := log2_mul_two_pow pos.ne' d
    have pos : 0 < m * 2 ^ d := Nat.mul_pos pos (Nat.two_pow_pos d)
    refine ⟨pos, (Nat.log2_lt pos.ne').mp (by omega), by omega, ?_⟩
    rcases Nat.le_total (52 - m.log2) k with long | short
    · exact .inl ((Nat.le_log2 pos.ne').mp (by omega))
    · exact .inr (by omega)
  have same : Binary64.size (m * 2 ^ d) (k - d - 1074) = p.natAbs := by
    rw [size, Binary64.size, Nat.mul_assoc, ← Nat.pow_add, Nat.mul_comm]
    congr 2
    omega
  rcases Int.natAbs_eq p with positive | negative
  · exact ⟨_, .finite .positive normal.pos normal (by omega), rfl, by
      rw [positive, ← same]; rfl⟩
  · exact ⟨_, .finite .negative normal.pos normal (by omega), rfl, by
      rw [negative, ← same]; rfl⟩

/-- Small integers are doubles. -/
theorem exists_canonical_integer {p : Int} (whole : (one : Int) ∣ p) (few : p.natAbs < 2 ^ 53 * one) :
    ∃ u, Canonical u ∧ u.isFinite = true ∧ units u = p := by
  obtain ⟨k, range, power⟩ := exists_one_eq
  rw [power] at whole few
  exact exists_canonical (by omega) (Int.natCast_dvd.mp whole) few

/-- What is left of a double when an integer near it is taken away is a double. -/
theorem exists_canonical_rest {d : Int} (finite : x.isFinite = true)
    (rest : (one : Int) ∣ place x - d) (small : d.natAbs < one)
    (few : d.natAbs ≤ (place x).natAbs) : ∃ u, Canonical u ∧ u.isFinite = true ∧ units u = d := by
  obtain ⟨m, k, digits, size⟩ := exists_digits finite
  have whole : ((2 ^ k : Nat) : Int) ∣ place x := Int.natCast_dvd.mpr (size ▸ Nat.dvd_mul_left _ _)
  obtain ⟨l, range, power⟩ := exists_one_eq
  rw [power] at rest small
  rcases Nat.le_total k l with le | more
  · refine exists_canonical (k := k) (by omega) ?_ ?_
    · have rest := (Int.natCast_dvd_natCast.mpr (Nat.pow_dvd_pow 2 le)).trans rest
      exact Int.natCast_dvd.mp ((dvd_sub_right whole).mp rest)
    · exact (few.trans_eq size).trans_lt (Nat.mul_lt_mul_of_pos_right digits (Nat.two_pow_pos k))
  · -- of an integer nothing is left
    have whole := (Int.natCast_dvd_natCast.mpr (Nat.pow_dvd_pow 2 more)).trans whole
    have none : d = 0 := Int.eq_zero_of_dvd_of_natAbs_lt_natAbs ((dvd_sub_right whole).mp rest) small
    exact ⟨.zero .positive, .zero _, rfl, none.symm⟩

/-- A sum of small integers is exact. -/
theorem add_integer (hx : x.isFinite = true) (hy : y.isFinite = true)
    (wx : (one : Int) ∣ place x) (wy : (one : Int) ∣ place y)
    (few : (place x + place y).natAbs < 2 ^ 53 * one) :
    (x + y).isNaN = false ∧ (one : Int) ∣ place (x + y) ∧ place (x + y) = place x + place y := by
  have whole := Int.dvd_add wx wy
  obtain ⟨finite, sum⟩ := place_add hx hy (exists_canonical_integer whole few)
  exact ⟨isNaN_of_isFinite finite, sum ▸ whole, sum⟩

end Milp.Binary64
