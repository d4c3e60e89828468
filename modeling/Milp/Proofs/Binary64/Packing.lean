import Mathlib
import Milp.Proofs.Binary64.Rounding

/-!
# The doubles there are

A double has bits for a sign, an exponent and a mantissa. The canonical numbers are those that come
back when they are packed into bits; a finite number that is too large comes back as infinity.

Results:
1. `canonical_unpack`: what bits stand for is canonical, unless it is undefined.
2. `Canonical.stored_eq`: a canonical number comes back.
3. `stored_large`: a number that is too large comes back as infinity.
-/

namespace Milp.Binary64

open Float.Model (Format UnpackedFloat)
open Float.Model.UnpackedFloat

/-- The infinities, the zeros and the finite numbers of double precision. -/
inductive Canonical : UnpackedFloat → Prop
  | infinity (s : Sign) : Canonical (.infinity s)
  | zero (s : Sign) : Canonical (.zero s)
  | finite (s : Sign) {m : Nat} {e : Int} (pos : 0 < m) (normal : Normal m e) (small : e ≤ 971) :
      Canonical (.finite s m e pos)

/-! ## The three fields of a double -/

/-- What a sign, an exponent and a mantissa stand for. -/
def ofFields (s : Sign) (exponent : BitVec 11) (mantissa : BitVec 52) : UnpackedFloat :=
  if exponent.toNat = 2047 then
    if mantissa.toNat = 0 then .infinity s else .notANumber
  else if exponent.toNat = 0 then
    if nonzero : mantissa.toNat = 0 then .zero s
    else .finite s mantissa.toNat (-1074) (Nat.pos_of_ne_zero nonzero)
  else .finite s (2 ^ 52 + mantissa.toNat) (exponent.toNat - 1075) (Nat.add_pos_left (by decide) _)

theorem unpack_eq (b : BitVec 64) :
    unpack Format.binary64 b = ofFields (Sign.ofBitVec (@unpackSign Format.binary64 b))
      (@unpackExponent Format.binary64 b) (@unpackMantissa Format.binary64 b) := by
  have bias : Format.binary64.exponentBias = 1023 := by decide
  have all : (-1#11).toNat = 2047 := by decide
  have implicit (mantissa : BitVec 52) : (1#1 ++ mantissa).toNat = 2 ^ 52 + mantissa.toNat := by
    rw [BitVec.toNat_append, ← Nat.shiftLeft_add_eq_or_of_lt mantissa.isLt]
    rfl
  unfold unpack ofFields
  simp only [bias, all, implicit, ← BitVec.toNat_inj]
  split
  · rfl
  · split
    · rename_i none
      have none : (@unpackExponent Format.binary64 b).toNat = 0 := none
      simp only [none]
      rfl
    · rename_i nonzero
      exact (if_neg nonzero).symm

theorem unpack_packComponents (s : Sign) (exponent : BitVec 11) (mantissa : BitVec 52) :
    unpack Format.binary64 (packComponents Format.binary64 s exponent mantissa) =
      ofFields s exponent mantissa := by
  rw [unpack_eq, unpackSign_packComponents, Sign.ofBitVec_toBitVec, unpackExponent_packComponents,
    unpackMantissa_packComponents]

/-! ## Into bits and back -/

theorem canonical_ofFields (s : Sign) (exponent : BitVec 11) (mantissa : BitVec 52) :
    ofFields s exponent mantissa = .notANumber ∨ Canonical (ofFields s exponent mantissa) := by
  have digits : mantissa.toNat < 2 ^ 52 := mantissa.isLt
  have range : exponent.toNat < 2 ^ 11 := exponent.isLt
  unfold ofFields
  split
  · split
    · exact .inr (.infinity s)
    · exact .inl rfl
  · split
    · split
      · exact .inr (.zero s)
      · rename_i nonzero
        exact .inr (.finite s _ ⟨Nat.pos_of_ne_zero nonzero, by omega, le_rfl, .inr rfl⟩ (by decide))
    · exact .inr (.finite s _ ⟨by omega, by omega, by omega, .inl (by omega)⟩ (by omega))

/-- What bits stand for is canonical, unless it is undefined. -/
theorem canonical_unpack (b : BitVec 64) :
    unpack Format.binary64 b = .notANumber ∨ Canonical (unpack Format.binary64 b) := by
  rw [unpack_eq]
  exact canonical_ofFields _ _ _

/-- What comes back of a number that is packed into bits. -/
def stored (u : UnpackedFloat) : UnpackedFloat := unpack Format.binary64 (pack Format.binary64 u)

section Finite

variable {m : Nat} {e : Int}

theorem pack_finite (s : Sign) (pos : 0 < m) :
    pack Format.binary64 (.finite s m e pos) =
      if 2 ^ 11 ≤ (e + (1023 : Nat) + (52 : Nat)).toNat + 1 then packComponents Format.binary64 s (-1) 0
      else if m.log2 + 1 = 53 then
        packComponents Format.binary64 s (.ofNat 11 (e + (1023 : Nat) + (52 : Nat)).toNat) (.ofNat 52 m)
      else packComponents Format.binary64 s 0 (.ofNat 52 m) :=
  rfl

/-- A number that is too large comes back as infinity. -/
theorem stored_large (s : Sign) (pos : 0 < m) (large : 971 < e) :
    stored (.finite s m e pos) = .infinity s := by
  rw [stored, pack_finite, if_pos (by omega), unpack_packComponents]
  rfl

theorem stored_finite (s : Sign) (pos : 0 < m) (normal : Normal m e) (small : e ≤ 971) :
    stored (.finite s m e pos) = .finite s m e pos := by
  have least := normal.least
  rw [stored, pack_finite, if_neg (by omega)]
  rcases Nat.lt_or_ge m (2 ^ 52) with less | full
  · obtain rfl : e = -1074 := normal.full.resolve_left less.not_ge
    have short : m.log2 < 52 := (Nat.log2_lt pos.ne').mpr less
    have mantissa : (BitVec.ofNat 52 m).toNat = m := by rw [BitVec.toNat_ofNat, Nat.mod_eq_of_lt less]
    rw [if_neg (by omega), unpack_packComponents]
    simp only [ofFields, mantissa]
    exact (if_neg (by decide)).trans ((if_pos rfl).trans (dif_neg pos.ne'))
  · have short : m.log2 < 53 := (Nat.log2_lt pos.ne').mpr normal.lt
    have long : 52 ≤ m.log2 := (Nat.le_log2 pos.ne').mpr full
    have exponent :
        (BitVec.ofNat 11 (e + (1023 : Nat) + (52 : Nat)).toNat).toNat = (e + 1075).toNat := by
      rw [BitVec.toNat_ofNat]
      omega
    have mantissa : 2 ^ 52 + (BitVec.ofNat 52 m).toNat = m := by
      have := normal.lt
      rw [BitVec.toNat_ofNat]
      omega
    rw [if_pos (by omega), unpack_packComponents]
    simp only [ofFields, exponent, mantissa]
    rw [if_neg (by omega), if_neg (by omega)]
    congr
    omega

end Finite

/-- A canonical number comes back from its bits. -/
theorem Canonical.stored_eq {u : UnpackedFloat} (h : Canonical u) : stored u = u := by
  cases h with
  | infinity s => exact unpack_packComponents s _ _
  | zero s => exact unpack_packComponents s _ _
  | finite s pos normal small => exact stored_finite s pos normal small

end Milp.Binary64
