import Mathlib.Order.WithBot
import Milp.Proofs.Binary64.TotalOrder

/-!
# The larger and the smaller of two doubles

The larger of two doubles is the one in the higher place. An undefined double is no limit: as a lower
limit it stands below all places, as an upper limit above them. Positive and negative zero stand in
one place, and which of them is left of the two depends on the order of the operands.

Results:
1. `place_max`, `place_min`: where the larger and the smaller of two numbers stand.
2. `lowerPlace_max`, `upperPlace_min`: the same of doubles that limit something.
3. `beq_iff_le`: doubles are equal when neither is below the other.
-/

namespace Milp.Binary64

open Float.Model (UnpackedFloat)

variable {x y : Float}

/-- Where a double stands as a lower limit; an undefined one limits nothing. -/
def lowerPlace (x : Float) : WithBot Int :=
  if x.isNaN then ⊥ else place x

/-- Where a double stands as an upper limit; an undefined one limits nothing. -/
def upperPlace (x : Float) : WithTop Int :=
  if x.isNaN then ⊤ else place x

@[simp]
theorem lowerPlace_nan : lowerPlace .nan = ⊥ :=
  rfl

@[simp]
theorem upperPlace_nan : upperPlace .nan = ⊤ :=
  rfl

theorem lowerPlace_of_defined (defined : x.isNaN = false) : lowerPlace x = place x := by
  rw [lowerPlace, defined, if_neg Bool.false_ne_true]

theorem upperPlace_of_defined (defined : x.isNaN = false) : upperPlace x = place x := by
  rw [upperPlace, defined, if_neg Bool.false_ne_true]

/-! ## Order -/

theorem lowerPlace_le (hx : x.isNaN = false) (hy : y.isNaN = false) :
    lowerPlace x ≤ lowerPlace y ↔ x ≤ y := by
  rw [lowerPlace_of_defined hx, lowerPlace_of_defined hy, WithBot.coe_le_coe,
    le_iff_place (canonical_parts hx) (canonical_parts hy)]

theorem upperPlace_le (hx : x.isNaN = false) (hy : y.isNaN = false) :
    upperPlace x ≤ upperPlace y ↔ x ≤ y := by
  rw [upperPlace_of_defined hx, upperPlace_of_defined hy, WithTop.coe_le_coe,
    le_iff_place (canonical_parts hx) (canonical_parts hy)]

/-- Doubles are equal when neither is below the other. -/
theorem beq_iff_le : (x == y) = true ↔ x ≤ y ∧ y ≤ x := by
  have equal : (x == y) = ((parts x).compare (parts y) == some .eq) := rfl
  rw [equal, le_iff_parts, le_iff_parts, UnpackedFloat.le, UnpackedFloat.le,
    compare_swap (parts x) (parts y)]
  cases (parts x).compare (parts y) with
  | none => decide
  | some o => cases o <;> decide

/-! ## Extremes -/

/-- The larger of two numbers is the one in the higher place. -/
theorem place_max (hx : x.isNaN = false) (hy : y.isNaN = false) :
    (Double.max x y).isNaN = false ∧ place (Double.max x y) = max (place x) (place y) := by
  rw [Double.max, hx, hy, if_neg Bool.false_ne_true, if_neg Bool.false_ne_true]
  split
  · rename_i less
    exact ⟨hy, (max_eq_right ((lt_iff_place hx hy).mp less).le).symm⟩
  · rename_i most
    exact ⟨hx, (max_eq_left (Int.not_lt.mp (mt (lt_iff_place hx hy).mpr most))).symm⟩

/-- The smaller of two numbers is the one in the lower place. -/
theorem place_min (hx : x.isNaN = false) (hy : y.isNaN = false) :
    (Double.min x y).isNaN = false ∧ place (Double.min x y) = min (place x) (place y) := by
  rw [Double.min, hx, hy, if_neg Bool.false_ne_true, if_neg Bool.false_ne_true]
  split
  · rename_i less
    exact ⟨hy, (min_eq_right ((lt_iff_place hy hx).mp less).le).symm⟩
  · rename_i most
    exact ⟨hx, (min_eq_left (Int.not_lt.mp (mt (lt_iff_place hy hx).mpr most))).symm⟩

theorem max_nan (x : Float) : Double.max x .nan = x := by
  have nan : Float.nan.isNaN = true := rfl
  rcases nan_or_defined x with rfl | hx
  · rfl
  · rw [Double.max, hx, if_neg Bool.false_ne_true, if_pos nan]

theorem min_nan (x : Float) : Double.min x .nan = x := by
  have nan : Float.nan.isNaN = true := rfl
  rcases nan_or_defined x with rfl | hx
  · rfl
  · rw [Double.min, hx, if_neg Bool.false_ne_true, if_pos nan]

theorem lowerPlace_max (x y : Float) :
    lowerPlace (Double.max x y) = max (lowerPlace x) (lowerPlace y) := by
  rcases nan_or_defined x with rfl | hx
  · exact (max_bot_left _).symm
  rcases nan_or_defined y with rfl | hy
  · rw [max_nan, lowerPlace_nan, max_bot_right]
  obtain ⟨defined, place⟩ := place_max hx hy
  rw [lowerPlace_of_defined defined, place, lowerPlace_of_defined hx, lowerPlace_of_defined hy,
    WithBot.coe_max]

theorem upperPlace_min (x y : Float) :
    upperPlace (Double.min x y) = min (upperPlace x) (upperPlace y) := by
  rcases nan_or_defined x with rfl | hx
  · exact (min_top_left _).symm
  rcases nan_or_defined y with rfl | hy
  · rw [min_nan, upperPlace_nan, min_top_right]
  obtain ⟨defined, place⟩ := place_min hx hy
  rw [upperPlace_of_defined defined, place, upperPlace_of_defined hx, upperPlace_of_defined hy,
    WithTop.coe_min]

end Milp.Binary64
