import Milp.Proofs.Binary64.Doubles

/-!
# The total order of doubles

Doubles are put in a total order by their bits: those of positive numbers count up from zero, those
of negative ones down from minus one. Among the numbers this is the order of numbers, with the one
addition that negative zero comes before positive zero. The undefined double comes after infinity.

Results:
1. `place_eq`: the place of a double, from its bits.
2. `rank_lt_rank`: the order of ranks is that of places, except for zeros.
3. `compare_eq_lt_iff`, `compare_eq_eq_iff`: what the total order says of two doubles.
-/

namespace Milp.Binary64

open Double (rank)
open Float.Model (Format UnpackedFloat)
open Float.Model.UnpackedFloat

/-! ## Less -/

section Less

variable {u v : UnpackedFloat} {x y : Float}

theorem compare_swap (u v : UnpackedFloat) : v.compare u = (u.compare v).map Ordering.swap := by
  cases u with
  | notANumber => cases v <;> rfl
  | infinity s =>
    cases v with
    | notANumber => rfl
    | infinity t => cases s <;> cases t <;> rfl
    | zero t => cases s <;> rfl
    | finite t => cases s <;> cases t <;> rfl
  | zero s =>
    cases v with
    | notANumber | zero => rfl
    | infinity t | finite t => cases t <;> rfl
  | finite s m e =>
    cases v with
    | notANumber => rfl
    | infinity t => cases s <;> cases t <;> rfl
    | zero t => cases s <;> rfl
    | finite t n f =>
      cases s <;> cases t
      · simp only [UnpackedFloat.compare, Option.map_some, Ordering.swap_then,
          Int.compare_swap, Nat.compare_swap]
      · rfl
      · rfl
      · simp only [UnpackedFloat.compare, Option.map_some, Ordering.swap_then, Int.compare_swap,
          Nat.compare_swap]

theorem compare_isSome (hu : u.isNaN = false) (hv : v.isNaN = false) :
    ∃ o, u.compare v = some o := by
  fun_cases UnpackedFloat.compare u v with
  | case1 => cases hu
  | case2 => cases hv
  | _ => exact ⟨_, rfl⟩

theorem lt_iff_parts : x < y ↔ (parts x).lt (parts y) = true := by
  show Float.lt x y = true ↔ _
  unfold Float.lt
  exact decide_eq_true_iff

/-- Of two defined doubles one is less exactly when the other is not at most that one. -/
theorem lt_iff_not_le (hx : x.isNaN = false) (hy : y.isNaN = false) : x < y ↔ ¬ y ≤ x := by
  obtain ⟨o, compared⟩ : ∃ o, (parts x).compare (parts y) = some o := compare_isSome hx hy
  rw [lt_iff_parts, le_iff_parts, UnpackedFloat.lt, UnpackedFloat.le, compare_swap (parts x),
    compared]
  cases o <;> decide

theorem lt_iff_place (hx : x.isNaN = false) (hy : y.isNaN = false) :
    x < y ↔ place x < place y := by
  rw [lt_iff_not_le hx hy, le_iff_place (canonical_parts hy) (canonical_parts hx), Int.not_le]

/-- Doubles of which one is less are defined. -/
theorem isNaN_of_lt (less : x < y) : x.isNaN = false ∧ y.isNaN = false := by
  have less : ((parts x).compare (parts y) == some .lt) = true := lt_iff_parts.mp less
  show (parts x).isNaN = false ∧ (parts y).isNaN = false
  generalize parts x = u, parts y = v at less
  cases u <;> cases v <;> first | exact ⟨rfl, rfl⟩ | cases less

end Less

/-! ## Places from bits -/

/-- The place of the positive double with the given bits. -/
def span (c : Nat) : Nat :=
  if c < 2 ^ 52 then size c (-1074) else size (2 ^ 52 + c % 2 ^ 52) ((c / 2 ^ 52 : Nat) - 1075)

section Span

variable {c d : Nat}

theorem span_small (small : c < 2 ^ 52) : span c = size c (-1074) :=
  if_pos small

theorem span_large (large : 2 ^ 52 ≤ c) :
    span c = size (2 ^ 52 + c % 2 ^ 52) ((c / 2 ^ 52 : Nat) - 1075) :=
  if_neg large.not_gt

theorem normal_large (large : 2 ^ 52 ≤ c) :
    Normal (2 ^ 52 + c % 2 ^ 52) ((c / 2 ^ 52 : Nat) - 1075) :=
  ⟨by omega, by omega, by omega, .inl (by omega)⟩

/-- More bits make a larger double. -/
theorem span_lt_span (less : c < d) : span c < span d := by
  rcases Nat.lt_or_ge d (2 ^ 52) with small | large
  · rw [span_small (less.trans small), span_small small, size_lt_size]
    exact less
  rw [span_large large]
  rcases Nat.lt_or_ge c (2 ^ 52) with small | large'
  · rw [span_small small]
    -- the least exponent belongs to the smallest numbers and to those that come next
    rcases Nat.lt_or_ge 1 (d / 2 ^ 52) with more | one
    · rcases Nat.eq_zero_or_pos c with rfl | pos
      · exact (Nat.zero_mul _).trans_lt (normal_large large).size_pos
      · have normal : Normal c (-1074) := ⟨pos, by omega, le_rfl, .inr rfl⟩
        exact normal.size_lt (normal_large large) (by omega)
    · have exponent : ((d / 2 ^ 52 : Nat) - 1075 : Int) = -1074 := by omega
      rw [exponent, size_lt_size]
      omega
  · rw [span_large large']
    rcases Nat.lt_or_ge (c / 2 ^ 52) (d / 2 ^ 52) with more | same
    · exact (normal_large large').size_lt (normal_large large) (by omega)
    · have exponents : c / 2 ^ 52 = d / 2 ^ 52 := by omega
      rw [exponents, size_lt_size]
      omega

theorem span_strictMono : StrictMono span :=
  fun _ _ => span_lt_span

theorem span_zero : span 0 = 0 :=
  (span_small (by decide)).trans (Nat.zero_mul _)

end Span

/-- The place of a double, from its sign and its other bits. -/
theorem units_ofFields (s : Sign) (exponent : BitVec 11) (mantissa : BitVec 52)
    (defined : (ofFields s exponent mantissa).isNaN = false) :
    units (ofFields s exponent mantissa) =
      s.apply (span (exponent.toNat * 2 ^ 52 + mantissa.toNat)) := by
  have digits : mantissa.toNat < 2 ^ 52 := mantissa.isLt
  have span_normal (pos : 0 < exponent.toNat) :
      span (exponent.toNat * 2 ^ 52 + mantissa.toNat) =
        size (2 ^ 52 + mantissa.toNat) (exponent.toNat - 1075) := by
    rw [span_large (by omega)]
    congr <;> omega
  unfold ofFields at defined ⊢
  split at defined
  · rename_i all
    rw [if_pos all]
    split at defined
    · rename_i none
      have least : ((2047 : Nat) - 1075 : Int) = 972 := rfl
      rw [if_pos none, span_normal (by omega), none, all, Nat.add_zero, least, size_top]
      rfl
    · cases defined
  · rename_i some
    rw [if_neg some]
    split
    · rename_i zero
      rw [zero, Nat.zero_mul, Nat.zero_add, span_small digits]
      split
      · rename_i none
        rw [none, size, Nat.zero_mul]
        cases s <;> rfl
      · rfl
    · rename_i nonzero
      rw [span_normal (Nat.pos_of_ne_zero nonzero)]
      rfl

section Bits

variable (b : BitVec 64)

/-- The sign of a double, from its bits. -/
theorem sign_unpack :
    Sign.ofBitVec (@unpackSign Format.binary64 b) =
      if 2 ^ 63 ≤ b.toNat then .negative else .positive := by
  have bound := b.isLt
  have bit : (@unpackSign Format.binary64 b).toNat = b.toNat / 2 ^ 63 % 2 := by
    simp [unpackSign, Nat.shiftRight_eq_div_pow]
  have clear : @unpackSign Format.binary64 b = 0#1 ↔ ¬ 2 ^ 63 ≤ b.toNat := by
    rw [← BitVec.toNat_inj, bit]
    show b.toNat / 2 ^ 63 % 2 = 0 ↔ _
    omega
  simp only [Sign.ofBitVec, clear]
  exact ite_not _ _ _

theorem toNat_unpackExponent :
    (@unpackExponent Format.binary64 b).toNat = b.toNat / 2 ^ 52 % 2 ^ 11 := by
  simp [unpackExponent, Nat.shiftRight_eq_div_pow]

theorem toNat_unpackMantissa : (@unpackMantissa Format.binary64 b).toNat = b.toNat % 2 ^ 52 := by
  simp [unpackMantissa]

/-- The place of what bits stand for. -/
theorem units_unpack (defined : (unpack Format.binary64 b).isNaN = false) :
    units (unpack Format.binary64 b) =
      if 2 ^ 63 ≤ b.toNat then -(span (b.toNat - 2 ^ 63) : Int) else span b.toNat := by
  have bound := b.isLt
  have rest : b.toNat / 2 ^ 52 % 2 ^ 11 * 2 ^ 52 + b.toNat % 2 ^ 52 = b.toNat % 2 ^ 63 := by omega
  rw [unpack_eq] at defined
  rw [unpack_eq, units_ofFields _ _ _ defined, toNat_unpackExponent, toNat_unpackMantissa, rest,
    sign_unpack]
  split
  · rw [show b.toNat % 2 ^ 63 = b.toNat - 2 ^ 63 by omega]
    rfl
  · rw [Nat.mod_eq_of_lt (by omega)]
    rfl

end Bits

variable {x y : Float}

/-- The place of a double, from its bits. -/
theorem place_eq (defined : x.isNaN = false) :
    place x = if 2 ^ 63 ≤ x.toBits.toNat then -(span (x.toBits.toNat - 2 ^ 63) : Int)
      else span x.toBits.toNat :=
  units_unpack x.toBits.toBitVec defined

/-! ## Ranks -/

/-- The rank of a double, from its bits. -/
theorem toInt_rank (x : Float) :
    (rank x).toInt = if 2 ^ 63 ≤ x.toBits.toNat then (2 ^ 63 - 1 - x.toBits.toNat : Int)
      else x.toBits.toNat := by
  have bound := x.toBits.toNat_lt
  have toInt (c : UInt64) (small : c.toNat < 2 ^ 63) : c.toInt64.toInt = c.toNat := by
    show c.toBitVec.toInt = c.toBitVec.toNat
    exact BitVec.toInt_eq_toNat_of_lt (by have : c.toBitVec.toNat < 2 ^ 63 := small; omega)
  rw [rank]
  by_cases negative : 2 ^ 63 ≤ x.toBits.toNat
  · have above : (0x8000000000000000 : UInt64) ≤ x.toBits := UInt64.le_iff_toNat_le.mpr negative
    have rest : (x.toBits - 0x8000000000000000).toNat = x.toBits.toNat - 2 ^ 63 :=
      UInt64.toNat_sub_of_le _ _ above
    rw [if_neg (UInt64.not_lt.mpr above), if_pos negative, Int64.toInt_sub, Int64.toInt_neg,
      toInt _ (by omega), rest]
    have one : (1 : Int64).toInt = 1 := rfl
    have inner : Int.bmod (-(x.toBits.toNat - 2 ^ 63 : Nat)) (2 ^ 64) =
        -(x.toBits.toNat - 2 ^ 63 : Nat) := Int.bmod_eq_of_le (by omega) (by omega)
    rw [one, inner, Int.bmod_eq_of_le (by omega) (by omega)]
    omega
  · have below : x.toBits < 0x8000000000000000 := UInt64.lt_iff_toNat_lt.mpr (Nat.not_le.mp negative)
    rw [if_neg negative, if_pos below, toInt _ (Nat.not_le.mp negative)]

/-- The order of ranks is that of numbers, but negative zero comes before positive zero. -/
theorem rank_lt_rank (hx : x.isNaN = false) (hy : y.isNaN = false) :
    rank x < rank y ↔ x < y ∨ x = -0 ∧ y = 0 := by
  have boundx := x.toBits.toNat_lt
  have boundy := y.toBits.toNat_lt
  have zeros : x = -0 ∧ y = 0 ↔ x.toBits.toNat = 2 ^ 63 ∧ y.toBits.toNat = 0 := by
    constructor
    · rintro ⟨rfl, rfl⟩
      exact ⟨rfl, rfl⟩
    · rintro ⟨negative, positive⟩
      exact ⟨Float.toBits_inj.mp (UInt64.toNat_inj.mp negative),
        Float.toBits_inj.mp (UInt64.toNat_inj.mp positive)⟩
  rw [zeros, lt_iff_place hx hy, Int64.lt_iff_toInt_lt, toInt_rank, toInt_rank, place_eq hx,
    place_eq hy]
  have mono (c d : Nat) : span c < span d ↔ c < d := span_strictMono.lt_iff_lt
  split <;> split
  · have := mono (y.toBits.toNat - 2 ^ 63) (x.toBits.toNat - 2 ^ 63)
    omega
  · -- a negative double and a positive one are in one place only where both are zero
    have left := mono 0 (x.toBits.toNat - 2 ^ 63)
    have right := mono 0 y.toBits.toNat
    rw [span_zero] at left right
    omega
  · omega
  · have := mono x.toBits.toNat y.toBits.toNat
    omega

/-- A double is undefined, or is not. -/
theorem nan_or_defined (x : Float) : x = .nan ∨ x.isNaN = false := by
  simpa using em (x = .nan)

/-- No double has more bits than infinity with its sign, unless it is undefined. -/
theorem bits_le (defined : x.isNaN = false) (positive : x.toBits.toNat < 2 ^ 63) :
    x.toBits.toNat ≤ 0x7ff0000000000000 := by
  have place := place_eq defined
  have least := (canonical_parts defined).bounds.2
  have large : units (.infinity .positive) = span 0x7ff0000000000000 :=
    place_eq (x := Limits.above) rfl
  rw [if_neg positive.not_ge] at place
  rw [← span_strictMono.le_iff_le, ← Int.ofNat_le]
  exact place.symm.trans_le (least.trans_eq large)

/-- The undefined double is after every other. -/
theorem rank_lt_nan (defined : x.isNaN = false) : rank x < rank .nan := by
  have bits : Float.nan.toBits.toNat = 0x7ff8000000000000 := rfl
  rw [Int64.lt_iff_toInt_lt, toInt_rank, toInt_rank, bits]
  split
  · omega
  · rename_i positive
    have := bits_le defined (Nat.not_le.mp positive)
    omega

/-- Doubles of one rank are equal. -/
theorem rank_injective : Function.Injective rank := by
  intro x y same
  have bits := congrArg Int64.toInt same
  rw [toInt_rank, toInt_rank] at bits
  refine Float.toBits_inj.mp (UInt64.toNat_inj.mp ?_)
  split at bits <;> split at bits <;> omega

/-! ## The order -/

/-- One double comes before another in the total order: a lesser number before a greater one, negative
zero before positive zero, and every number before the undefined double, whose sign is positive. -/
def Precedes (x y : Float) : Prop :=
  x ≠ .nan ∧ y = .nan ∨ x < y ∨ x = -0 ∧ y = 0

/-- What comes before what in the total order. -/
theorem compare_eq_lt_iff : Double.compare x y = .lt ↔ Precedes x y := by
  have defined (h : x < y ∨ x = -0 ∧ y = 0) : x.isNaN = false ∧ y.isNaN = false := by
    rcases h with less | ⟨rfl, rfl⟩
    · exact isNaN_of_lt less
    · exact ⟨rfl, rfl⟩
  have ne_nan {z : Float} (h : z.isNaN = false) : z ≠ .nan := by simpa using h
  rw [Double.compare, Std.compare_eq_lt, Precedes]
  rcases nan_or_defined y with rfl | hy
  · rw [or_iff_left fun h => ne_nan (defined h).2 rfl, and_iff_left rfl]
    rcases nan_or_defined x with rfl | hx
    · simp
    · simp [rank_lt_nan hx, ne_nan hx]
  · rw [or_iff_right fun h => ne_nan hy h.2]
    rcases nan_or_defined x with rfl | hx
    · refine iff_of_false (fun less => ?_) fun h => ne_nan (defined h).1 rfl
      exact Int64.lt_irrefl (Int64.lt_trans less (rank_lt_nan hy))
    · exact rank_lt_rank hx hy

/-- Only equal doubles are on a par in the total order. -/
theorem compare_eq_eq_iff : Double.compare x y = .eq ↔ x = y :=
  Std.LawfulEqOrd.compare_eq_iff_eq.trans rank_injective.eq_iff

instance : Std.TransCmp (Limits.compare : Float → Float → Ordering) :=
  inferInstanceAs (Std.TransCmp (compareOn rank))

end Milp.Binary64
