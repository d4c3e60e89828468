import Milp.Proofs.Binary64.Packing

/-!
# Sums of doubles

The order of doubles is that of whole numbers, with each infinity standing where the first double
would that is too large. A sum of finite doubles is the sum of these numbers, moved past no double.

Results:
1. `Canonical.le_iff`: the order of doubles is that of their units.
2. `round_passesNone`: rounding passes no double, infinities included.
3. `Canonical.add`: a sum of finite doubles is on no other side of a double than the exact one.
-/

namespace Milp.Binary64

open Float.Model (Format UnpackedFloat)
open Float.Model.UnpackedFloat (Sign decreaseExponent)

/-! ## Units -/

/-- The size of infinity: the first one that is too large. -/
@[irreducible] def top : Nat := size (2 ^ 52) 972

theorem size_top : size (2 ^ 52) 972 = top := by
  unfold top
  rfl

theorem normal_top : Normal (2 ^ 52) 972 :=
  ⟨by decide, by decide, by decide, .inl le_rfl⟩

/-- How many times the least positive double a double is. -/
def units : UnpackedFloat → Int
  | .infinity s => s.apply top
  | .notANumber => 0
  | .zero _ => 0
  | .finite s m e _ => s.apply (size m e)

section Sizes

variable {m : Nat} {e : Int}

theorem Normal.size_pos (h : Normal m e) : 0 < size m e :=
  Nat.mul_pos h.pos (Nat.two_pow_pos _)

theorem top_pos : 0 < top :=
  size_top ▸ normal_top.size_pos

theorem Normal.size_lt_top (h : Normal m e) (small : e ≤ 971) : size m e < top :=
  size_top ▸ h.size_lt normal_top (by omega)

theorem Normal.top_le_size (h : Normal m e) (large : 971 < e) : top ≤ size m e := by
  rw [← size_top]
  rcases Int.lt_or_le 972 e with more | same
  · exact (normal_top.size_lt h more).le
  · obtain rfl : e = 972 := by omega
    exact size_le_size.mpr (h.full.resolve_right (by decide))

end Sizes

theorem apply_neg (s : Sign) (n : Int) : (-s).apply n = -s.apply n := by
  cases s
  · exact (Int.neg_neg n).symm
  · rfl

variable {u v : UnpackedFloat}

theorem Canonical.neg (h : Canonical u) : Canonical u.neg := by
  cases h with
  | infinity s => exact .infinity (-s)
  | zero s => exact .zero (-s)
  | finite s pos normal small => exact .finite (-s) pos normal small

theorem units_neg (u : UnpackedFloat) : units u.neg = -units u := by
  cases u with
  | infinity s => exact apply_neg s _
  | notANumber => rfl
  | zero s => rfl
  | finite s m e pos => exact apply_neg s _

theorem Canonical.abs (h : Canonical u) : Canonical u.abs := by
  cases h with
  | infinity s => exact .infinity .positive
  | zero s => exact .zero .positive
  | finite s pos normal small => exact .finite .positive pos normal small

theorem units_abs_nonneg (u : UnpackedFloat) : 0 ≤ units u.abs := by
  cases u with
  | infinity s => exact Int.natCast_nonneg top
  | notANumber => exact le_rfl
  | zero s => exact le_rfl
  | finite s m e pos => exact Int.natCast_nonneg (size m e)

/-- The order of doubles is that of their units. -/
theorem Canonical.le_iff (hu : Canonical u) (hv : Canonical v) :
    u.le v = true ↔ units u ≤ units v := by
  have large := top_pos
  unfold UnpackedFloat.le
  cases hu with
  | infinity s =>
    cases hv with
    | infinity t =>
      cases s <;> cases t <;> simp [UnpackedFloat.compare, units, Sign.apply, large.ne'] <;> rfl
    | zero t => cases s <;> simp [UnpackedFloat.compare, units, Sign.apply, large.ne']
    | finite t _ normal small =>
      have below := normal.size_lt_top small
      cases s <;> cases t <;> simp [UnpackedFloat.compare, units, Sign.apply] <;> omega
  | zero s =>
    cases hv with
    | infinity t => cases t <;> simp [UnpackedFloat.compare, units, Sign.apply, large.ne']
    | zero t => simp [UnpackedFloat.compare, units]
    | finite t _ normal small =>
      cases t <;> simp [UnpackedFloat.compare, units, Sign.apply, normal.size_pos.ne']
  | finite s _ normal small =>
    have pos := normal.size_pos
    have below := normal.size_lt_top small
    cases hv with
    | infinity t =>
      cases s <;> cases t <;> simp [UnpackedFloat.compare, units, Sign.apply] <;> omega
    | zero t => cases s <;> simp [UnpackedFloat.compare, units, Sign.apply, pos.ne']
    | finite t _ normal' small' =>
      cases s <;> cases t
      · rw [UnpackedFloat.compare, Ordering.swap_then, Int.compare_swap, Nat.compare_swap]
        simp [units, Sign.apply, normal'.compare_isLE normal]
      · simp [UnpackedFloat.compare, units, Sign.apply]
      · simp [UnpackedFloat.compare, units, Sign.apply]
        omega
      · simp [UnpackedFloat.compare, units, Sign.apply, normal.compare_isLE normal']

/-! ## Rounding -/

theorem Canonical.units_cases (h : Canonical u) :
    units u = 0 ∨ ∃ (s : Sign) (k : Nat) (g : Int),
      Normal k g ∧ size k g ≤ top ∧ units u = s.apply (size k g) := by
  cases h with
  | infinity s => exact .inr ⟨s, _, _, normal_top, size_top.le, by rw [size_top]; rfl⟩
  | zero s => exact .inl rfl
  | finite s _ normal small => exact .inr ⟨s, _, _, normal, (normal.size_lt_top small).le, rfl⟩

/-- A double is between the infinities. -/
theorem Canonical.bounds (h : Canonical u) :
    units (.infinity .negative) ≤ units u ∧ units u ≤ units (.infinity .positive) := by
  show -(top : Int) ≤ units u ∧ units u ≤ top
  rcases h.units_cases with none | ⟨s, k, g, -, le, eq⟩
  · omega
  · cases s <;> simp only [eq, Sign.apply] <;> omega

/-- Going from one number of units to another passes no double. -/
def PassesNone (x y : Int) : Prop :=
  ∀ w, Canonical w → (units w ≤ x → units w ≤ y) ∧ (x ≤ units w → y ≤ units w)

namespace PassesNone

theorem refl (x : Int) : PassesNone x x :=
  fun _ _ => ⟨id, id⟩

theorem neg {x y : Int} (h : PassesNone x y) : PassesNone (-x) (-y) := by
  intro w canonical
  obtain ⟨above, below⟩ := h w.neg canonical.neg
  rw [units_neg] at above below
  exact ⟨fun le => by have := below (by omega); omega, fun le => by have := above (by omega); omega⟩

theorem apply {x y : Int} (h : PassesNone x y) (s : Sign) : PassesNone (s.apply x) (s.apply y) := by
  cases s with
  | negative => exact h.neg
  | positive => exact h

/-- Where no double is passed among finite numbers, none is passed when what is too large becomes
infinite. -/
theorem of_adjacent {x n : Nat} {f : Int} (pos : 0 < x) (adjacent : Adjacent x (size n f)) :
    PassesNone x (min (size n f) top : Nat) := by
  intro w canonical
  rcases canonical.units_cases with none | ⟨s, k, g, normal, le, eq⟩
  · omega
  · obtain ⟨above, below⟩ := adjacent k g normal
    rw [eq]
    cases s with
    | negative =>
      show (-(size k g : Int) ≤ x → -(size k g : Int) ≤ _) ∧ ((x : Int) ≤ -(size k g) → _)
      omega
    | positive =>
      show ((size k g : Int) ≤ x → (size k g : Int) ≤ _) ∧
        ((x : Int) ≤ size k g → _ ≤ (size k g : Int))
      omega

end PassesNone

variable {m : Nat} {e : Int}

/-- Rounding passes no double. -/
theorem round_passesNone (s : Sign) (pos : 0 < m) (least : -1074 ≤ e) :
    Canonical (stored (UnpackedFloat.round Format.binary64 s m e)) ∧
      PassesNone (s.apply (size m e)) (units (stored (UnpackedFloat.round Format.binary64 s m e))) := by
  obtain ⟨n, f, nonzero, rounded, normal, adjacent⟩ := round_adjacent s pos least
  have large : 0 < size m e := Nat.mul_pos pos (Nat.two_pow_pos _)
  have passes := (PassesNone.of_adjacent large adjacent).apply s
  rw [rounded]
  rcases Int.lt_or_le 971 f with beyond | within
  · rw [Nat.min_eq_right (normal.top_le_size beyond)] at passes
    rw [stored_large s nonzero beyond]
    exact ⟨.infinity s, passes⟩
  · rw [Nat.min_eq_left (normal.size_lt_top within).le] at passes
    rw [stored_finite s nonzero normal within]
    exact ⟨.finite s nonzero normal within, passes⟩

theorem apply_size (s : Sign) : s.apply (size m e) = s.apply m * (2 ^ (e + 1074).toNat : Nat) := by
  cases s
  · exact (congrArg Neg.neg (Nat.cast_mul m _)).trans (Int.neg_mul _ _).symm
  · exact Nat.cast_mul m _

theorem normalize_apply (format : Format) (s z : Sign) (pos : 0 < m) :
    UnpackedFloat.normalize format (s.apply m) e z = UnpackedFloat.round format s m e := by
  cases s with
  | negative =>
    have less : compare (-(m : Int)) 0 = .lt := Int.compare_eq_lt.mpr (by omega)
    simp [UnpackedFloat.normalize, Sign.apply, less]
  | positive =>
    have more : compare (m : Int) 0 = .gt := Int.compare_eq_gt.mpr (by omega)
    simp [UnpackedFloat.normalize, Sign.apply, more]

/-- Normalizing passes no double. -/
theorem normalize_passesNone (x : Int) (least : -1074 ≤ e) (z : Sign) :
    Canonical (stored (UnpackedFloat.normalize Format.binary64 x e z)) ∧
      PassesNone (x * (2 ^ (e + 1074).toNat : Nat))
        (units (stored (UnpackedFloat.normalize Format.binary64 x e z))) := by
  obtain rfl | ⟨s, m, pos, rfl⟩ : x = 0 ∨ ∃ (s : Sign) (m : Nat), 0 < m ∧ x = s.apply m := by
    rcases Int.lt_trichotomy x 0 with less | zero | more
    · exact .inr ⟨.negative, x.natAbs, by omega, show x = -(x.natAbs : Int) by omega⟩
    · exact .inl zero
    · exact .inr ⟨.positive, x.natAbs, by omega, show x = (x.natAbs : Int) by omega⟩
  · have zero : stored (UnpackedFloat.normalize Format.binary64 0 e z) = .zero z :=
      (Canonical.zero z).stored_eq
    rw [Int.zero_mul, zero]
    exact ⟨.zero z, .refl 0⟩
  · rw [normalize_apply _ s z pos, ← apply_size]
    exact round_passesNone s pos least

/-! ## Sums -/

/-- A finite double brought to a smaller exponent. -/
theorem units_decrease (s : Sign) {t : Int} (pos : 0 < m) (least : -1074 ≤ t) (le : t ≤ e) :
    units (.finite s m e pos) = s.apply (decreaseExponent m e t).1 * (2 ^ (t + 1074).toNat : Nat) := by
  have exponent : e = t + (e - t).toNat := by omega
  rw [← apply_size, decreaseExponent, Nat.shiftLeft_eq, ← size_shift least, ← exponent]
  rfl

/-- A sum of finite doubles passes no double on its way from the exact one. -/
theorem Canonical.add (hu : Canonical u) (hv : Canonical v) (uFinite : u.isFinite = true)
    (vFinite : v.isFinite = true) :
    Canonical (stored (UnpackedFloat.add Format.binary64 u v)) ∧
      PassesNone (units u + units v) (units (stored (UnpackedFloat.add Format.binary64 u v))) := by
  have unrounded {w : UnpackedFloat} (canonical : Canonical w) :
      Canonical (stored w) ∧ PassesNone (units w) (units (stored w)) := by
    rw [canonical.stored_eq]
    exact ⟨canonical, .refl _⟩
  cases hu with
  | infinity s => cases uFinite
  | zero s =>
    rw [show units (.zero s) = 0 from rfl, Int.zero_add]
    cases hv with
    | infinity t => cases vFinite
    | zero t =>
      have sum : UnpackedFloat.add Format.binary64 (.zero s) (.zero t) =
          .zero (if s == t then s else .positive) := by
        cases s <;> cases t <;> rfl
      rw [sum]
      exact unrounded (.zero _)
    | finite t pos normal small => exact unrounded (.finite t pos normal small)
  | finite s pos normal small =>
    cases hv with
    | infinity t => cases vFinite
    | zero t =>
      rw [show units (.zero t) = 0 from rfl, Int.add_zero]
      exact unrounded (.finite s pos normal small)
    | finite t pos' normal' small' =>
      have below : -1074 ≤ min _ _ := Int.le_min.mpr ⟨normal.least, normal'.least⟩
      rw [units_decrease s pos below (Int.min_le_left _ _),
        units_decrease t pos' below (Int.min_le_right _ _), ← Int.add_mul]
      exact normalize_passesNone _ below .positive

/-- Taking away is adding the opposite. -/
theorem sub_eq_add_neg (format : Format) (u v : UnpackedFloat) :
    UnpackedFloat.sub format u v = UnpackedFloat.add format u v.neg := by
  cases u with
  | notANumber => rfl
  | infinity s => cases v <;> rfl
  | zero s => cases v <;> rfl
  | finite s m e pos =>
    cases v with
    | finite t n f pos' =>
      simp only [UnpackedFloat.sub, UnpackedFloat.add, UnpackedFloat.neg, apply_neg, Int.sub_eq_add_neg]
    | _ => rfl

/-- Nothing is lost where nothing is taken away. -/
theorem sub_zero (format : Format) (u : UnpackedFloat) :
    UnpackedFloat.sub format u (.zero .positive) = u := by
  cases u with
  | zero s => cases s <;> rfl
  | _ => rfl

end Milp.Binary64
