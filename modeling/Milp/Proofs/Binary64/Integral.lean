import Milp.Proofs.Binary64.ExactSums
import Milp.Proofs.Binary64.TotalOrder

/-!
# Integers among doubles

The integers next to a double are found on its bits, and by sums of small integers that are exact. So
they are the integers that their names promise, and the distance of a double from the nearest one is
exact as well.

Results:
1. `place_trunc`: clearing the bits of a fraction rounds towards zero.
2. `floor_spec`, `ceil_spec`, `round_spec`: the integers around a double and the nearest one.
3. `round_of_dvd`: an integer is its own nearest integer, down to the sign of zero.
4. `place_sub_round`: the distance from the nearest integer is exact.
-/

namespace Milp.Binary64

open Float.Model (Format UnpackedFloat)
open Float.Model.UnpackedFloat

/-! ## Bits -/

/-- The bits of a double that stand for a fraction, from its bits without the sign. -/
def fractionBits (c : Nat) : Nat :=
  if c / 2 ^ 52 < 1023 then 63 else 1075 - c / 2 ^ 52

/-- Clearing the bits of a fraction leaves the integer below. -/
theorem span_cleared {c : Nat} (bound : c < 2 ^ 63) :
    span (c - c % 2 ^ fractionBits c) = span c / one * one := by
  rcases Nat.lt_or_ge (c / 2 ^ 52) 1023 with small | large
  · -- less than one
    have first : span (1023 * 2 ^ 52) = one := by
      rw [span_large (by decide)]
      exact size_two_pow (by decide) (by decide)
    have less : span c < one := by
      rw [← first]
      exact span_lt_span (by omega)
    rw [fractionBits, if_pos small, Nat.mod_eq_of_lt bound, Nat.sub_self, span_zero,
      Nat.div_eq_of_lt less, Nat.zero_mul]
  rw [fractionBits, if_neg (by omega)]
  have positive : 2 ^ 52 ≤ c := by omega
  rw [span_large positive]
  rcases Nat.le_total (c / 2 ^ 52) 1075 with some | none
  · obtain ⟨k, exponent⟩ : ∃ k, 1075 - c / 2 ^ 52 = k := ⟨_, rfl⟩
    have divides : 2 ^ k ∣ 2 ^ 52 := Nat.pow_dvd_pow 2 (by omega)
    have low : c % 2 ^ 52 % 2 ^ k = c % 2 ^ k := Nat.mod_mod_of_dvd c divides
    have few : c % 2 ^ k ≤ c % 2 ^ 52 := low ▸ Nat.mod_le _ _
    have among : (2 ^ 52 + c % 2 ^ 52) % 2 ^ k = c % 2 ^ k := by
      rw [Nat.add_mod, Nat.mod_eq_zero_of_dvd divides, Nat.zero_add, Nat.mod_mod, low]
    have mantissa : (c - c % 2 ^ k) % 2 ^ 52 = c % 2 ^ 52 - c % 2 ^ k := by omega
    have same : (c - c % 2 ^ k) / 2 ^ 52 = c / 2 ^ 52 := by omega
    rw [exponent, span_large (by omega), mantissa, same,
      ← size_two_pow (k := k) (e := (c / 2 ^ 52 : Nat) - 1075) (by omega) (by omega), size, size, size,
      Nat.mul_div_mul_right _ _ (Nat.two_pow_pos _), ← Nat.mul_assoc]
    congr 1
    have := Nat.div_add_mod' (2 ^ 52 + c % 2 ^ 52) (2 ^ k)
    omega
  · -- no bit stands for a fraction
    obtain ⟨d, exponent⟩ : ∃ d : Nat, ((c / 2 ^ 52 : Nat) - 1075 : Int) = 0 + d :=
      ⟨c / 2 ^ 52 - 1075, by omega⟩
    rw [Nat.sub_eq_zero_of_le none, Nat.pow_zero, Nat.mod_one, Nat.sub_zero, span_large positive,
      exponent, size_shift (by decide), size_integer, Nat.mul_div_cancel _ one_pos]

theorem isNaN_ofFields (s : Sign) (exponent : BitVec 11) (mantissa : BitVec 52) :
    (ofFields s exponent mantissa).isNaN = false ↔
      exponent.toNat * 2 ^ 52 + mantissa.toNat ≤ 2047 * 2 ^ 52 := by
  have digits : mantissa.toNat < 2 ^ 52 := mantissa.isLt
  have range : exponent.toNat < 2 ^ 11 := exponent.isLt
  unfold ofFields
  split
  · rename_i all
    split
    · rename_i none
      exact iff_of_true rfl (by omega)
    · rename_i some
      exact iff_of_false (nomatch ·) (by omega)
  · refine iff_of_true ?_ (by omega)
    split
    · split <;> rfl
    · rfl

/-- Bits stand for a number, or for infinity, unless those of the mantissa are added to those of
infinity. -/
theorem isNaN_unpack (b : BitVec 64) :
    (unpack Format.binary64 b).isNaN = false ↔ b.toNat % 2 ^ 63 ≤ 2047 * 2 ^ 52 := by
  rw [unpack_eq, isNaN_ofFields, toNat_unpackExponent, toNat_unpackMantissa]
  omega

variable {x : Float}

/-- Where the double with given bits stands. -/
theorem place_ofBits {b : UInt64} (defined : b.toNat % 2 ^ 63 ≤ 2047 * 2 ^ 52) :
    (Float.ofBits b).isNaN = false ∧ place (Float.ofBits b) =
      if 2 ^ 63 ≤ b.toNat then -(span (b.toNat - 2 ^ 63) : Int) else span b.toNat := by
  have number : (unpack Format.binary64 b.toBitVec).isNaN = false := (isNaN_unpack _).mpr defined
  have canonical : Canonical (unpack Format.binary64 b.toBitVec) := by
    refine (canonical_unpack _).resolve_left fun undefined => ?_
    rw [undefined] at number
    cases number
  have parts : parts (Float.ofBits b) = unpack Format.binary64 b.toBitVec := canonical.stored_eq
  refine ⟨?_, ?_⟩
  · show (Binary64.parts (Float.ofBits b)).isNaN = false
    rw [parts, number]
  · rw [place, parts, units_unpack _ number]
    rfl

/-! ## Towards zero -/

/-- The bits of the integer next to a double on the side of zero. -/
theorem trunc_eq (x : Float) :
    Double.trunc x = .ofBits (.ofNat (x.toBits.toNat -
      x.toBits.toNat % 2 ^ 63 % 2 ^ fractionBits (x.toBits.toNat % 2 ^ 63))) := by
  have bound := x.toBits.toNat_lt
  have exponent : x.toBits.toNat / 2 ^ 52 % 2 ^ 11 = x.toBits.toNat % 2 ^ 63 / 2 ^ 52 := by omega
  have divides : 2 ^ fractionBits (x.toBits.toNat % 2 ^ 63) ∣ 2 ^ 63 := by
    refine Nat.pow_dvd_pow 2 ?_
    unfold fractionBits
    split <;> omega
  rw [Nat.mod_mod_of_dvd _ divides]
  unfold Double.trunc
  simp only [Nat.pow_eq, exponent]
  rfl

/-- The part of a double that is an integer, rounded towards zero. -/
theorem place_trunc (defined : x.isNaN = false) :
    (Double.trunc x).isNaN = false ∧ place (Double.trunc x) = (place x).tdiv one * one := by
  have bound := x.toBits.toNat_lt
  have number : x.toBits.toNat % 2 ^ 63 ≤ 2047 * 2 ^ 52 := (isNaN_unpack _).mp defined
  have cleared := span_cleared (c := x.toBits.toNat % 2 ^ 63) (Nat.mod_lt _ (by decide))
  generalize fraction : x.toBits.toNat % 2 ^ 63 % 2 ^ fractionBits (x.toBits.toNat % 2 ^ 63) = f
    at cleared
  have few : f ≤ x.toBits.toNat % 2 ^ 63 := fraction ▸ Nat.mod_le _ _
  have bits : (UInt64.ofNat (x.toBits.toNat - f)).toNat = x.toBits.toNat - f :=
    UInt64.toNat_ofNat_of_lt' ((Nat.sub_le _ _).trans_lt bound)
  rw [trunc_eq, fraction]
  obtain ⟨number', place'⟩ := place_ofBits (b := UInt64.ofNat (x.toBits.toNat - f))
    (by rw [bits]; omega)
  refine ⟨number', ?_⟩
  rw [place', bits, place_eq defined]
  by_cases negative : 2 ^ 63 ≤ x.toBits.toNat
  · rw [if_pos negative, if_pos (by omega), Int.neg_tdiv]
    rw [show x.toBits.toNat % 2 ^ 63 = x.toBits.toNat - 2 ^ 63 by omega] at cleared
    rw [show x.toBits.toNat - f - 2 ^ 63 = x.toBits.toNat - 2 ^ 63 - f by omega, cleared]
    push_cast
    rw [Int.neg_mul]
    rfl
  · rw [if_neg negative, if_neg (by omega)]
    rw [Nat.mod_eq_of_lt (by omega)] at cleared
    rw [cleared]
    push_cast
    rfl

theorem natAbs_place (defined : x.isNaN = false) :
    (place x).natAbs = span (x.toBits.toNat % 2 ^ 63) := by
  have bound := x.toBits.toNat_lt
  rw [place_eq defined]
  split
  · rw [show x.toBits.toNat % 2 ^ 63 = x.toBits.toNat - 2 ^ 63 by omega, Int.natAbs_neg,
      Int.natAbs_natCast]
  · rw [Nat.mod_eq_of_lt (by omega), Int.natAbs_natCast]

/-- Nothing is cleared of an integer. -/
theorem trunc_of_dvd (defined : x.isNaN = false) (whole : (one : Int) ∣ place x) :
    Double.trunc x = x := by
  have whole : one ∣ span (x.toBits.toNat % 2 ^ 63) :=
    natAbs_place defined ▸ Int.natCast_dvd.mp whole
  have cleared := span_cleared (c := x.toBits.toNat % 2 ^ 63) (Nat.mod_lt _ (by decide))
  rw [Nat.div_mul_cancel whole, span_strictMono.injective.eq_iff] at cleared
  have few := Nat.mod_le (x.toBits.toNat % 2 ^ 63) (2 ^ fractionBits (x.toBits.toNat % 2 ^ 63))
  rw [trunc_eq, show x.toBits.toNat % 2 ^ 63 % 2 ^ fractionBits (x.toBits.toNat % 2 ^ 63) = 0 by omega,
    Nat.sub_zero, UInt64.ofNat_toNat, Float.ofBits_toBits]

/-- A double with a fraction is small. -/
theorem small_of_not_dvd (defined : x.isNaN = false) (fraction : ¬ (one : Int) ∣ place x) :
    x.isFinite = true ∧ (place x).natAbs < 2 ^ 52 * one := by
  have canonical := canonical_parts defined
  have finite : x.isFinite = true := by
    refine (isFinite_iff_place defined).mpr ?_
    by_contra large
    obtain ⟨above, below⟩ := canonical.bounds
    obtain ⟨m, -, whole⟩ := exists_top_eq
    have infinite : (place x).natAbs = top := by
      have above : -(top : Int) ≤ place x := above
      have below : place x ≤ top := below
      omega
    exact fraction (Int.natCast_dvd.mpr (infinite ▸ whole ▸ Nat.dvd_mul_left _ _))
  obtain ⟨m, k, digits, size⟩ := exists_digits finite
  obtain ⟨l, range, power⟩ := exists_one_eq
  have few : k + 1 ≤ l := by
    by_contra many
    refine fraction (Int.natCast_dvd.mpr ?_)
    rw [size, power]
    exact (Nat.pow_dvd_pow 2 (by omega)).trans (Nat.dvd_mul_left _ _)
  refine ⟨finite, ?_⟩
  calc (place x).natAbs
    _ = m * 2 ^ k := size
    _ < 2 ^ 53 * 2 ^ k := Nat.mul_lt_mul_of_pos_right digits (Nat.two_pow_pos k)
    _ = 2 ^ 52 * 2 ^ (k + 1) := by ring
    _ ≤ 2 ^ 52 * one := Nat.mul_le_mul_left _ (power ▸ Nat.pow_le_pow_right (by decide) few)

/-- An integer next to a finite double is finite. -/
theorem isFinite_of_near {y : Float} (finite : x.isFinite = true) (defined : y.isNaN = false)
    (whole : (one : Int) ∣ place y) (near : (place y - place x).natAbs < one) : y.isFinite = true := by
  rw [isFinite_iff_place defined]
  have number := isNaN_of_isFinite finite
  by_cases integer : (one : Int) ∣ place x
  · have same := Int.eq_zero_of_dvd_of_natAbs_lt_natAbs (Int.dvd_sub whole integer)
      (by rwa [Int.natAbs_natCast])
    rw [Int.sub_eq_zero.mp same]
    exact (isFinite_iff_place number).mp finite
  · obtain ⟨-, small⟩ := small_of_not_dvd number integer
    obtain ⟨m, large, top⟩ := exists_top_eq
    have := top ▸ Nat.mul_le_mul_right one large
    omega

/-- The integer next to a double with a fraction, on the side of zero. -/
theorem trunc_spec (defined : x.isNaN = false) (fraction : ¬ (one : Int) ∣ place x) :
    (Double.trunc x).isFinite = true ∧ (one : Int) ∣ place (Double.trunc x) ∧
      (0 ≤ place x → 0 ≤ place (Double.trunc x) ∧ place (Double.trunc x) < place x ∧
        place x < place (Double.trunc x) + one) ∧
      (place x < 0 → place (Double.trunc x) ≤ 0 ∧ place (Double.trunc x) - one < place x ∧
        place x < place (Double.trunc x)) := by
  obtain ⟨finite, -⟩ := small_of_not_dvd defined fraction
  obtain ⟨defined', whole⟩ := place_trunc defined
  have parts := Int.tdiv_mul_add_tmod (place x) one
  have left : (place x).tmod one ≠ 0 := mt Int.dvd_of_tmod_eq_zero fraction
  have above := Int.tmod_lt_of_pos (place x) (Int.natCast_pos.mpr one_pos)
  have below := Int.lt_tmod_of_pos (place x) (Int.natCast_pos.mpr one_pos)
  -- what is cut off has the sign of the double, and so has what is left
  have up (positive : 0 ≤ place x) : 0 ≤ (place x).tmod one ∧ 0 ≤ (place x).tdiv one * one :=
    ⟨Int.tmod_nonneg _ positive, Int.mul_nonneg (Int.tdiv_nonneg positive (Int.natCast_nonneg _))
      (Int.natCast_nonneg _)⟩
  have down (negative : place x < 0) :
      0 ≤ -(place x).tmod one ∧ 0 ≤ -((place x).tdiv one * one) := by
    have positive : 0 ≤ -place x := by omega
    rw [← Int.neg_mul, ← Int.neg_tmod, ← Int.neg_tdiv]
    exact ⟨Int.tmod_nonneg _ positive, Int.mul_nonneg
      (Int.tdiv_nonneg positive (Int.natCast_nonneg _)) (Int.natCast_nonneg _)⟩
  rw [← whole] at parts up down
  refine ⟨?_, whole ▸ Int.dvd_mul_left _ _, by omega, by omega⟩
  rw [isFinite_iff_place defined] at finite
  refine (isFinite_iff_place defined').mpr (lt_of_le_of_lt ?_ finite)
  rw [whole, Int.natAbs_mul, Int.natAbs_tdiv, Int.natAbs_natCast]
  exact Nat.div_mul_le_self _ _

/-! ## Down and up -/

/-- The greatest integer that is not above a double. -/
theorem floor_spec (defined : x.isNaN = false) :
    (Double.floor x).isNaN = false ∧ (one : Int) ∣ place (Double.floor x) ∧
      place (Double.floor x) ≤ place x ∧ place x < place (Double.floor x) + one := by
  have pos := one_pos
  unfold Double.floor
  by_cases whole : (one : Int) ∣ place x
  · rw [trunc_of_dvd defined whole]
    dsimp only
    rw [if_neg (mt (lt_iff_place defined defined).mp (lt_irrefl _))]
    exact ⟨defined, whole, le_rfl, by omega⟩
  · obtain ⟨finite, integer, up, down⟩ := trunc_spec defined whole
    obtain ⟨-, small⟩ := small_of_not_dvd defined whole
    have defined' := isNaN_of_isFinite finite
    have less := lt_iff_place defined defined'
    dsimp only
    split
    · rename_i below
      have below := less.mp below
      have minus := place_neg_one
      rw [sub_eq rfl]
      obtain ⟨defined', integer', place'⟩ := add_integer finite rfl integer
        (minus ▸ (Int.dvd_refl _).neg_right) (by omega)
      exact ⟨defined', integer', by omega⟩
    · rename_i most
      have most := mt less.mpr most
      exact ⟨defined', integer, by omega⟩

/-- The least integer that is not below a double. -/
theorem ceil_spec (defined : x.isNaN = false) :
    (Double.ceil x).isNaN = false ∧ (one : Int) ∣ place (Double.ceil x) ∧
      place (Double.ceil x) - one < place x ∧ place x ≤ place (Double.ceil x) := by
  have pos := one_pos
  unfold Double.ceil
  by_cases whole : (one : Int) ∣ place x
  · rw [trunc_of_dvd defined whole]
    dsimp only
    rw [if_neg (mt (lt_iff_place defined defined).mp (lt_irrefl _))]
    exact ⟨defined, whole, by omega, le_rfl⟩
  · obtain ⟨finite, integer, up, down⟩ := trunc_spec defined whole
    obtain ⟨-, small⟩ := small_of_not_dvd defined whole
    have defined' := isNaN_of_isFinite finite
    have less := lt_iff_place defined' defined
    dsimp only
    split
    · rename_i above
      have above := less.mp above
      have plus := place_one
      obtain ⟨defined', integer', place'⟩ := add_integer finite (y := 1) rfl integer
        (plus ▸ Int.dvd_refl _) (by omega)
      exact ⟨defined', integer', by omega⟩
    · rename_i most
      have most := mt less.mpr most
      exact ⟨defined', integer, by omega⟩

/-! ## To the nearest integer -/

/-- One, with the sign of a double that is not zero. -/
theorem sign_spec (defined : x.isNaN = false) :
    (0 < place x → Double.sign x = 1) ∧ (place x < 0 → Double.sign x = -1) := by
  have place := place_eq defined
  have bits : x.toBits < 0x8000000000000000 ↔ ¬ 2 ^ 63 ≤ x.toBits.toNat :=
    UInt64.lt_iff_toNat_lt.trans Nat.not_le.symm
  unfold Double.sign
  rw [defined, if_neg Bool.false_ne_true]
  simp only [bits]
  split at place
  · rename_i negative
    exact ⟨by omega, fun _ => if_neg (not_not.mpr negative)⟩
  · rename_i positive
    exact ⟨fun _ => if_pos positive, by omega⟩

/-- What is left of a double when the integer next to it on the side of zero is taken away. -/
theorem place_sub_trunc (defined : x.isNaN = false) (fraction : ¬ (one : Int) ∣ place x) :
    (x - Double.trunc x).isFinite = true ∧
      place (x - Double.trunc x) = place x - place (Double.trunc x) := by
  obtain ⟨finite', integer, up, down⟩ := trunc_spec defined fraction
  obtain ⟨finite, -⟩ := small_of_not_dvd defined fraction
  refine place_sub finite finite' (exists_canonical_rest finite ?_ (by omega) (by omega))
  rwa [Int.sub_sub_self]

/-- Nothing is left of a double when it is taken away from itself. -/
theorem not_half_le (x : Float) : ¬ 0.5 ≤ (x - x).abs := by
  intro half
  obtain ⟨-, defined⟩ := isNaN_of_le half
  have defined : (stored (stored (UnpackedFloat.sub Format.binary64 (parts x) (parts x))).abs).isNaN =
      false := defined
  have finite : x.isFinite = true := by
    show (parts x).isFinite = true
    generalize parts x = u at defined
    cases u with
    | infinity s => cases s <;> cases defined
    | notANumber => cases defined
    | zero | finite => rfl
  obtain ⟨finite', none⟩ := place_sub finite finite ⟨.zero .positive, .zero _, rfl, by simp [units]⟩
  rw [le_iff_place (canonical_of_isFinite rfl) (canonical_of_isFinite (isFinite_abs finite')),
    place_abs finite', none, Int.sub_self] at half
  have := place_half
  have := one_pos
  omega

/-- The integer nearest to a double. -/
theorem round_spec (defined : x.isNaN = false) :
    (Double.round x).isNaN = false ∧ (one : Int) ∣ place (Double.round x) ∧
      (0 ≤ place x → 2 * place (Double.round x) ≤ 2 * place x + one ∧
        2 * place x < 2 * place (Double.round x) + one) ∧
      (place x < 0 → 2 * place (Double.round x) - one < 2 * place x ∧
        2 * place x - one ≤ 2 * place (Double.round x)) := by
  have pos := one_pos
  unfold Double.round
  by_cases whole : (one : Int) ∣ place x
  · rw [trunc_of_dvd defined whole]
    dsimp only
    rw [if_neg (not_half_le x)]
    exact ⟨defined, whole, by omega, by omega⟩
  · obtain ⟨finite, integer, up, down⟩ := trunc_spec defined whole
    obtain ⟨-, small⟩ := small_of_not_dvd defined whole
    obtain ⟨finite', rest⟩ := place_sub_trunc defined whole
    have half := place_half
    have far : 0.5 ≤ (x - Double.trunc x).abs ↔ place 0.5 ≤ (place (x - Double.trunc x)).natAbs := by
      rw [le_iff_place (canonical_of_isFinite rfl) (canonical_of_isFinite (isFinite_abs finite')),
        place_abs finite']
    have nonzero : place x ≠ 0 := fun zero => whole (zero ▸ Int.dvd_zero _)
    dsimp only
    split
    · rename_i away
      have away := far.mp away
      rcases Int.lt_or_gt_of_ne nonzero with negative | positive
      · have minus := place_neg_one
        rw [(sign_spec defined).2 negative]
        obtain ⟨defined', integer', place'⟩ := add_integer finite (y := -1) rfl integer
          (minus ▸ (Int.dvd_refl _).neg_right) (by omega)
        exact ⟨defined', integer', by omega, by omega⟩
      · have plus := place_one
        rw [(sign_spec defined).1 positive]
        obtain ⟨defined', integer', place'⟩ := add_integer finite (y := 1) rfl integer
          (plus ▸ Int.dvd_refl _) (by omega)
        exact ⟨defined', integer', by omega, by omega⟩
    · rename_i near
      have near := mt far.mpr near
      exact ⟨isNaN_of_isFinite finite, integer, by omega, by omega⟩

/-- An integer is its own nearest integer. -/
theorem round_of_dvd (defined : x.isNaN = false) (whole : (one : Int) ∣ place x) :
    Double.round x = x := by
  unfold Double.round
  rw [trunc_of_dvd defined whole]
  exact if_neg (not_half_le x)

theorem round_isFinite (finite : x.isFinite = true) : (Double.round x).isFinite = true := by
  obtain ⟨defined, whole, up, down⟩ := round_spec (isNaN_of_isFinite finite)
  have pos := one_pos
  exact isFinite_of_near finite defined whole (by omega)

/-- The distance of a double from the nearest integer is exact. -/
theorem place_sub_round (finite : x.isFinite = true) :
    (x - Double.round x).isFinite = true ∧
      place (x - Double.round x) = place x - place (Double.round x) := by
  obtain ⟨defined, integer, up, down⟩ := round_spec (isNaN_of_isFinite finite)
  have pos := one_pos
  -- the nearest integer of what is less than a half is zero
  have none (small : 2 * (place x).natAbs < one) : place (Double.round x) = 0 :=
    Int.eq_zero_of_dvd_of_natAbs_lt_natAbs integer (by rw [Int.natAbs_natCast]; omega)
  refine place_sub finite (round_isFinite finite) (exists_canonical_rest finite ?_ (by omega) ?_)
  · rwa [Int.sub_sub_self]
  · rcases Nat.lt_or_ge (2 * (place x).natAbs) one with small | large
    · rw [none small, Int.sub_zero]
    · omega

end Milp.Binary64
