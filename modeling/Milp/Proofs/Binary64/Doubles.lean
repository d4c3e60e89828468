import Milp.Proofs.Binary64.Sums

/-!
# Doubles in order

What holds of sums of doubles although they are rounded: a number that is not negative makes a sum
no smaller, one that is not positive makes it no larger, and every finite double is between the two
infinities.

Results:
1. `le_iff_place`: the order of doubles.
2. `le_add`, `add_le`, `sub_le`: to which side a sum and a difference move.
3. `isOrdered_of_le`, `sub_zero_le_sub_zero`: doubles in order are limits in order.
-/

namespace Milp.Binary64

open Float.Model (Format UnpackedFloat)
open Float.Model.UnpackedFloat

/-! ## Order -/

/-- What a double stands for. -/
def parts (x : Float) : UnpackedFloat := x.toModel.unpack

/-- The place of a double in the order. -/
def place (x : Float) : Int := units (parts x)

variable {x y : Float}

theorem parts_zero : parts 0 = .zero .positive :=
  (Canonical.zero .positive).stored_eq

/-- A double is canonical, unless it is undefined. -/
theorem canonical_parts (defined : x.isNaN = false) : Canonical (parts x) := by
  refine (canonical_unpack x.toModel.toBits.toBitVec).resolve_left fun undefined => ?_
  have defined : (parts x).isNaN = false := defined
  rw [show parts x = .notANumber from undefined] at defined
  cases defined

theorem isNaN_of_isFinite (finite : x.isFinite = true) : x.isNaN = false := by
  have finite : (parts x).isFinite = true := finite
  show (parts x).isNaN = false
  cases kind : parts x <;> rw [kind] at finite <;> first | rfl | cases finite

theorem canonical_of_isFinite (finite : x.isFinite = true) : Canonical (parts x) :=
  canonical_parts (isNaN_of_isFinite finite)

theorem le_iff_parts : x ≤ y ↔ (parts x).le (parts y) = true := by
  show Float.le x y = true ↔ _
  unfold Float.le
  exact decide_eq_true_iff

/-- Doubles in order are defined. -/
theorem isNaN_of_le (le : x ≤ y) : x.isNaN = false ∧ y.isNaN = false := by
  have le : ((parts x).compare (parts y)).any (·.isLE) = true := le_iff_parts.mp le
  show (parts x).isNaN = false ∧ (parts y).isNaN = false
  generalize parts x = u, parts y = v at le
  cases u <;> cases v <;> first | exact ⟨rfl, rfl⟩ | cases le

theorem le_iff_place (hx : Canonical (parts x)) (hy : Canonical (parts y)) :
    x ≤ y ↔ place x ≤ place y :=
  le_iff_parts.trans (hx.le_iff hy)

theorem le_refl (finite : x.isFinite = true) : x ≤ x :=
  (le_iff_place (canonical_of_isFinite finite) (canonical_of_isFinite finite)).mpr le_rfl

theorem zero_le_iff (finite : x.isFinite = true) : 0 ≤ x ↔ 0 ≤ place x := by
  rw [le_iff_place (parts_zero ▸ .zero _) (canonical_of_isFinite finite), place, parts_zero]
  rfl

theorem below_le (finite : x.isFinite = true) : Limits.below ≤ x := by
  have infinite : parts Limits.below = .infinity .negative := rfl
  have canonical := canonical_of_isFinite finite
  rw [le_iff_place (infinite ▸ .infinity _) canonical, place, infinite]
  exact canonical.bounds.1

theorem le_above (finite : x.isFinite = true) : x ≤ Limits.above := by
  have infinite : parts Limits.above = .infinity .positive := rfl
  have canonical := canonical_of_isFinite finite
  rw [le_iff_place canonical (infinite ▸ .infinity _), place, place, infinite]
  exact canonical.bounds.2

/-! ## Signs -/

theorem parts_abs (finite : x.isFinite = true) : parts x.abs = (parts x).abs :=
  (canonical_of_isFinite finite).abs.stored_eq

theorem parts_neg (finite : x.isFinite = true) : parts (-x) = (parts x).neg :=
  (canonical_of_isFinite finite).neg.stored_eq

theorem isFinite_abs (finite : x.isFinite = true) : x.abs.isFinite = true := by
  have kept (u : UnpackedFloat) : u.abs.isFinite = u.isFinite := by cases u <;> rfl
  show (parts x.abs).isFinite = true
  rw [parts_abs finite, kept]
  exact finite

theorem isFinite_neg (finite : x.isFinite = true) : (-x).isFinite = true := by
  have kept (u : UnpackedFloat) : u.neg.isFinite = u.isFinite := by cases u <;> rfl
  show (parts (-x)).isFinite = true
  rw [parts_neg finite, kept]
  exact finite

theorem zero_le_abs (finite : x.isFinite = true) : 0 ≤ x.abs := by
  rw [zero_le_iff (isFinite_abs finite), place, parts_abs finite]
  exact units_abs_nonneg _

/-! ## Sums and differences -/

theorem add_passesNone (hx : x.isFinite = true) (hy : y.isFinite = true) :
    Canonical (parts (x + y)) ∧ PassesNone (place x + place y) (place (x + y)) :=
  (canonical_of_isFinite hx).add (canonical_of_isFinite hy) hx hy

theorem le_add (hx : x.isFinite = true) (hy : y.isFinite = true) (up : 0 ≤ y) : x ≤ x + y := by
  obtain ⟨canonical, passes⟩ := add_passesNone hx hy
  have up : 0 ≤ place y := (zero_le_iff hy).mp up
  rw [le_iff_place (canonical_of_isFinite hx) canonical]
  exact (passes _ (canonical_of_isFinite hx)).1 (Int.le_add_of_nonneg_right up)

theorem add_le_of_place (hx : x.isFinite = true) (hy : y.isFinite = true) (down : place y ≤ 0) :
    x + y ≤ x := by
  obtain ⟨canonical, passes⟩ := add_passesNone hx hy
  rw [le_iff_place canonical (canonical_of_isFinite hx)]
  exact (passes _ (canonical_of_isFinite hx)).2 (add_le_of_nonpos_right down)

theorem add_le (hx : x.isFinite = true) (hy : y.isFinite = true) (down : ¬ 0 ≤ y) : x + y ≤ x :=
  add_le_of_place hx hy (Int.not_le.mp (mt (zero_le_iff hy).mpr down)).le

theorem sub_eq (finite : y.isFinite = true) : x - y = x + -y := by
  have models : Float.Model.pack (sub Format.binary64 (parts x) (parts y)) =
      Float.Model.pack (add Format.binary64 (parts x) (parts (-y))) := by
    rw [parts_neg finite, sub_eq_add_neg]
  exact congrArg Float.ofModel models

theorem sub_le (hx : x.isFinite = true) (hy : y.isFinite = true) (up : 0 ≤ y) : x - y ≤ x := by
  rw [sub_eq hy]
  refine add_le_of_place hx (isFinite_neg hy) ?_
  rw [place, parts_neg hy, units_neg]
  exact Int.neg_nonpos_of_nonneg ((zero_le_iff hy).mp up)

/-! ## Limits -/

theorem parts_sub_zero (canonical : Canonical (parts x)) : parts (x - 0) = parts x := by
  have difference : parts (x - 0) = stored (sub Format.binary64 (parts x) (parts 0)) := rfl
  rw [difference, parts_zero, sub_zero, canonical.stored_eq]

theorem sub_zero_le_sub_zero (le : x ≤ y) : x - 0 ≤ y - 0 := by
  obtain ⟨hx, hy⟩ := isNaN_of_le le
  rw [le_iff_parts, parts_sub_zero (canonical_parts hx), parts_sub_zero (canonical_parts hy)]
  exact le_iff_parts.mp le

theorem isOrdered_of_le (le : x ≤ y) : Limits.isOrdered x y = true := by
  obtain ⟨hx, hy⟩ := isNaN_of_le le
  have hx : Limits.isUndefined x = false := hx
  have hy : Limits.isUndefined y = false := hy
  simp only [Limits.isOrdered, hx, hy]
  exact decide_eq_true le

end Milp.Binary64
