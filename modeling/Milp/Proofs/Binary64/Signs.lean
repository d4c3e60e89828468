import Milp.Proofs.Binary64.TotalOrder
import Milp.Tolerance

/-!
# Doubles without sign

Products and quotients of doubles that have no negative sign have none, however they are rounded. A
tolerance is made of such products, so it moves limits to one side only, unless it is undefined.

Results:
1. `unsigned_epsilonOf`: a tolerance has no negative sign.
2. `sub_unsigned`, `add_unsigned`: what is left of a double when something without sign is taken away,
   and what becomes of it when something without sign is added.
-/

namespace Milp.Binary64

open Float.Model (Format UnpackedFloat)
open Float.Model.UnpackedFloat

/-! ## Signs -/

/-- A number has a given sign, if it has one. -/
def Signed (s : Sign) : UnpackedFloat → Prop
  | .notANumber => True
  | .infinity t | .zero t | .finite t _ _ _ => t = s

/-- A number has no negative sign. -/
abbrev Unsigned : UnpackedFloat → Prop :=
  Signed .positive

section Operations

variable {u v : UnpackedFloat}

theorem Unsigned.units_nonneg (h : Unsigned u) : 0 ≤ units u := by
  cases u with
  | notANumber | zero => exact le_rfl
  | infinity s | finite s =>
    obtain rfl : s = .positive := h
    exact Int.natCast_nonneg _

theorem unsigned_ofFields (exponent : BitVec 11) (mantissa : BitVec 52) :
    Unsigned (ofFields .positive exponent mantissa) := by
  unfold ofFields
  split
  · split
    · rfl
    · trivial
  · split
    · split <;> rfl
    · rfl

theorem stored_notANumber : stored .notANumber = .notANumber :=
  rfl

/-- A sign comes back from the bits. -/
theorem Unsigned.stored (h : Unsigned u) : Unsigned (stored u) := by
  cases u with
  | notANumber => trivial
  | infinity s =>
    rw [(Canonical.infinity s).stored_eq]
    exact h
  | zero s =>
    rw [(Canonical.zero s).stored_eq]
    exact h
  | finite s m e pos =>
    obtain rfl : s = .positive := h
    rw [Binary64.stored, pack_finite]
    split
    · rw [unpack_packComponents]
      exact unsigned_ofFields _ _
    · split
      all_goals
        rw [unpack_packComponents]
        exact unsigned_ofFields _ _

theorem unsigned_abs (u : UnpackedFloat) : Unsigned u.abs := by
  cases u <;> trivial

theorem unsigned_roundWithAccuracy (m : Nat) (e : Int) (accuracy : Accuracy) :
    Unsigned (roundWithAccuracy Format.binary64 .positive m e accuracy) := by
  unfold roundWithAccuracy
  dsimp only
  split <;> rfl

theorem Unsigned.mul (hu : Unsigned u) (hv : Unsigned v) :
    Unsigned (UnpackedFloat.mul Format.binary64 u v) := by
  cases u <;> cases v <;> first
    | trivial
    | (cases hu; cases hv; first | rfl | exact unsigned_roundWithAccuracy _ _ _)

theorem Unsigned.div (hu : Unsigned u) (hv : Unsigned v) :
    Unsigned (UnpackedFloat.div Format.binary64 u v) := by
  cases u <;> cases v <;> first
    | trivial
    | (cases hu; cases hv; first | rfl | exact unsigned_roundWithAccuracy _ _ _)

end Operations

/-! ## Tolerances -/

theorem unsigned_max {x y : Float} (hx : Unsigned (parts x)) (hy : Unsigned (parts y)) :
    Unsigned (parts (Double.max x y)) := by
  unfold Double.max
  split_ifs <;> assumption

theorem unsigned_powAux {acc base : Float} (n : Nat) (hacc : Unsigned (parts acc))
    (hbase : Unsigned (parts base)) : Unsigned (parts (Scalar.powAux acc base n)) := by
  induction n using Nat.strongRecOn generalizing acc base with
  | ind n ih =>
    have next : Unsigned (parts (if n % 2 = 1 then acc * base else acc)) := by
      split
      · exact (hacc.mul hbase).stored
      · exact hacc
    rw [Scalar.powAux]
    split
    · exact next
    · exact ih (n / 2) (by omega) next (hbase.mul hbase).stored

theorem unsigned_powTen (n : Int) : Unsigned (parts (Scalar.powTen n)) := by
  have one : Unsigned (parts 1) := rfl
  have ten : Unsigned (parts ((10 : Int) : Float)) := rfl
  have power := unsigned_powAux n.natAbs one ten
  unfold Scalar.powTen
  dsimp only
  split
  · exact (one.div power).stored
  · exact power

/-- A tolerance has no negative sign. -/
theorem unsigned_epsilonOf (t : Tolerance) (x : Float) : Unsigned (parts (t.epsilonOf x)) := by
  unfold Tolerance.epsilonOf Tolerance.slack
  refine unsigned_max (unsigned_powTen _) ?_
  split
  · exact ((unsigned_abs _).stored.mul (unsigned_powTen _)).stored
  · exact parts_zero ▸ rfl

/-! ## Sums and differences -/

/-- Two finite numbers are added, unless the sum is undefined, or one of the two is infinite. -/
theorem add_signed {s : Sign} {u v : UnpackedFloat} (signed : Signed s v) :
    stored (UnpackedFloat.add Format.binary64 u v) = .notANumber ∨
      stored (UnpackedFloat.add Format.binary64 u v) = .infinity s ∨
      u = .infinity (-s) ∨ u.isFinite = true ∧ v.isFinite = true := by
  have infinite : stored (.infinity s) = .infinity s := (Canonical.infinity s).stored_eq
  have twice : UnpackedFloat.add Format.binary64 (.infinity s) (.infinity s) = .infinity s := by
    cases s <;> rfl
  cases u with
  | notANumber => exact .inl stored_notANumber
  | infinity t =>
    obtain rfl | rfl : t = s ∨ t = -s := by cases s <;> cases t <;> simp <;> rfl
    · cases v with
      | notANumber => exact .inl stored_notANumber
      | infinity =>
        obtain rfl := signed
        exact .inr (.inl ((congrArg stored twice).trans infinite))
      | zero | finite => exact .inr (.inl infinite)
    · exact .inr (.inr (.inl rfl))
  | zero | finite =>
    cases v with
    | notANumber => exact .inl stored_notANumber
    | infinity =>
      obtain rfl := signed
      exact .inr (.inl infinite)
    | zero | finite => exact .inr (.inr (.inr ⟨rfl, rfl⟩))

section Sums

variable {x y : Float} (unsigned : Unsigned (parts y))
include unsigned

theorem zero_le_of_unsigned (finite : y.isFinite = true) : 0 ≤ y :=
  (zero_le_iff finite).mpr unsigned.units_nonneg

/-- Something without sign is added to a finite double, unless all or nothing comes of it. -/
theorem add_unsigned : parts (x + y) = .notANumber ∨ parts (x + y) = .infinity .positive ∨
    parts x = .infinity .negative ∨ x.isFinite = true ∧ y.isFinite = true :=
  add_signed unsigned

/-- Something without sign is taken away from a finite double, unless all or nothing is left. -/
theorem sub_unsigned : parts (x - y) = .notANumber ∨ parts (x - y) = .infinity .negative ∨
    parts x = .infinity .positive ∨ x.isFinite = true ∧ y.isFinite = true := by
  have parts : parts (x - y) =
      stored (UnpackedFloat.add Format.binary64 (parts x) (parts y).neg) :=
    congrArg stored (sub_eq_add_neg _ _ _)
  have signed : Signed .negative (Binary64.parts y).neg := by
    generalize Binary64.parts y = v at unsigned
    cases v <;> first | trivial | (cases unsigned; rfl)
  have finite : (Binary64.parts y).neg.isFinite = y.isFinite := by
    show _ = (Binary64.parts y).isFinite
    cases Binary64.parts y <;> rfl
  rw [parts, ← finite]
  exact add_signed signed

end Sums

end Milp.Binary64
