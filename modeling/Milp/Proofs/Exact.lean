import Mathlib.Data.Rat.Floor
import Mathlib.Tactic.FieldSimp
import Mathlib.Tactic.Linarith
import Mathlib.Tactic.NormNum
import Mathlib.Tactic.Ring
import Milp.Number.Exact
import Milp.Tolerance

/-!
# Exact arithmetic

What the operations of `Scalar Rat` and `Limits ExtendedRat Rat` mean in terms of the rationals.

Results:
1. `ExtendedRat` is a linear order in which the rationals lie between the infinities.
2. `clamp_of_fixed`, `clamp_mem`: a scalar moved between two limits lies between them, and is the
   limit where they are equal.
3. `not_le_floor_and_ceil_le`: the two sides of a split at a number that is no integer have no number
   in common.
4. `floor_le_round`, `round_le_ceil`, `sub_le_ceil`, `floor_le_add`: how far rounding goes.
5. `epsilon_pos`: every tolerance leaves some room.
-/

namespace Milp

/-! ## Limits -/

namespace ExtendedRat

theorem le_refl (a : ExtendedRat) : a ≤ a := by
  cases a with
  | finite q => exact decide_eq_true (Rat.le_refl (a := q))
  | _ => rfl

theorem le_trans {a b c : ExtendedRat} (hab : a ≤ b) (hbc : b ≤ c) : a ≤ c := by
  cases a <;> cases b <;> cases c <;> simp_all [LE.le, le]
  exact Rat.le_trans hab hbc

theorem le_antisymm {a b : ExtendedRat} (hab : a ≤ b) (hba : b ≤ a) : a = b := by
  cases a <;> cases b <;> simp_all [LE.le, le]
  exact Rat.le_antisymm hab hba

theorem le_total (a b : ExtendedRat) : a ≤ b ∨ b ≤ a := by
  cases a <;> cases b <;> simp [LE.le, le]
  exact Rat.le_total

theorem lt_iff (a b : ExtendedRat) : a < b ↔ a ≤ b ∧ ¬ b ≤ a := by
  constructor
  · intro h
    have hn : ¬ b ≤ a := by simpa [LT.lt, LE.le] using h
    exact ⟨(le_total a b).resolve_right hn, hn⟩
  · rintro ⟨-, hn⟩
    simpa [LT.lt, LE.le] using hn

instance : LinearOrder ExtendedRat where
  le_refl := le_refl
  le_trans _ _ _ := le_trans
  le_antisymm _ _ := le_antisymm
  le_total := le_total
  lt_iff_le_not_ge := lt_iff
  toDecidableLE := fun _ _ => inferInstance
  toDecidableLT := fun _ _ => inferInstance
  max := ExtendedRat.max
  min := ExtendedRat.min

@[simp]
theorem finite_le_finite {a b : Rat} : finite a ≤ finite b ↔ a ≤ b := by
  simp [LE.le, le]

@[simp]
theorem finite_lt_finite {a b : Rat} : finite a < finite b ↔ a < b := by
  rw [← not_le, finite_le_finite, not_le]

@[simp]
theorem below_le (a : ExtendedRat) : below ≤ a := by
  cases a <;> rfl

@[simp]
theorem le_above (a : ExtendedRat) : a ≤ above := by
  cases a <;> rfl

@[simp]
theorem not_above_le_finite (a : Rat) : ¬ above ≤ finite a := by
  simp [LE.le, le]

@[simp]
theorem not_finite_le_below (a : Rat) : ¬ finite a ≤ below := by
  simp [LE.le, le]

end ExtendedRat

namespace Exact

@[simp]
theorem ofScalar_eq (q : Rat) : (Limits.ofScalar q : ExtendedRat) = .finite q := rfl

@[simp]
theorem below_eq : (Limits.below : ExtendedRat) = .below := rfl

@[simp]
theorem above_eq : (Limits.above : ExtendedRat) = .above := rfl

theorem isFinite_iff {x : ExtendedRat} : Limits.isFinite x = true ↔ ∃ q, x = .finite q := by
  cases x <;> simp [Limits.isFinite]

theorem finite_toScalar {x : ExtendedRat} (h : Limits.isFinite x = true) :
    .finite (Limits.toScalar x : Rat) = x := by
  obtain ⟨q, rfl⟩ := isFinite_iff.mp h
  rfl

/-- A limit that a scalar respects on one side is finite or the infinity of that side. -/
theorem isFinite_of_le_of_ne {x : ExtendedRat} {q : Rat} (h : x ≤ .finite q) (hx : x ≠ .below) :
    Limits.isFinite x = true := by
  cases x with
  | below => exact absurd rfl hx
  | finite _ => rfl
  | above => simp at h

/-- A scalar moved between two equal limits is that limit. -/
theorem clamp_of_fixed (q v : Rat) :
    Limits.lowerTo (Limits.raiseTo v (ExtendedRat.finite q)) (ExtendedRat.finite q) = q := by
  show min (max v q) q = q
  exact min_eq_right (le_max_right v q)

/-- A scalar that lies between two limits is not moved by them. -/
theorem clamp_of_mem {l u : ExtendedRat} {v : Rat} (hl : l ≤ .finite v) (hu : .finite v ≤ u) :
    Limits.lowerTo (Limits.raiseTo v l) u = v := by
  have raised : (Limits.raiseTo v l : Rat) = v := by
    cases l with
    | below => rfl
    | finite a => exact max_eq_left (ExtendedRat.finite_le_finite.mp hl)
    | above => rfl
  rw [raised]
  cases u with
  | below => rfl
  | finite b => exact min_eq_left (ExtendedRat.finite_le_finite.mp hu)
  | above => rfl

theorem finite_max (a b : Rat) :
    ExtendedRat.finite (max a b) = max (.finite a) (.finite b) := by
  rcases le_total a b with h | h
  · rw [max_eq_right h, max_eq_right (ExtendedRat.finite_le_finite.mpr h)]
  · rw [max_eq_left h, max_eq_left (ExtendedRat.finite_le_finite.mpr h)]

theorem finite_min (a b : Rat) :
    ExtendedRat.finite (min a b) = min (.finite a) (.finite b) := by
  rcases le_total a b with h | h
  · rw [min_eq_left h, min_eq_left (ExtendedRat.finite_le_finite.mpr h)]
  · rw [min_eq_right h, min_eq_right (ExtendedRat.finite_le_finite.mpr h)]

/-- Raising a scalar to a lower limit is taking the larger of the two. -/
theorem finite_raiseTo (v : Rat) {l : ExtendedRat} (room : l ≠ .above) :
    .finite (Limits.raiseTo v l) = max (.finite v) l := by
  cases l with
  | below => exact (max_eq_left (ExtendedRat.below_le _)).symm
  | finite a => exact finite_max v a
  | above => exact absurd rfl room

theorem finite_lowerTo (v : Rat) {u : ExtendedRat} (room : u ≠ .below) :
    .finite (Limits.lowerTo v u) = min (.finite v) u := by
  cases u with
  | below => exact absurd rfl room
  | finite b => exact finite_min v b
  | above => exact (min_eq_left (ExtendedRat.le_above _)).symm

/-- A scalar moved between two limits that are not crossed lies between them. -/
theorem clamp_mem {l u : ExtendedRat} (v : Rat) (h : l ≤ u) (hl : l ≠ .above) (hu : u ≠ .below) :
    l ≤ .finite (Limits.lowerTo (Limits.raiseTo v l) u) ∧
      .finite (Limits.lowerTo (Limits.raiseTo v l) u) ≤ u := by
  rw [finite_lowerTo _ hu, finite_raiseTo _ hl]
  exact ⟨le_min (le_max_right _ _) h, min_le_right _ _⟩

/-! ## Scalars -/

theorem abs_eq (q : Rat) : Scalar.abs q = |q| := by
  show Rat.abs q = |q|
  rcases le_total 0 q with h | h
  · rw [abs_of_nonneg h, Rat.abs_of_nonneg h]
  · rw [abs_of_nonpos h, Rat.abs_of_nonpos h]

theorem sign_mul_abs (q : Rat) : Scalar.sign q * |q| = q := by
  show (if 0 ≤ q then 1 else -1) * |q| = q
  split
  · rename_i h
    rw [one_mul, abs_of_nonneg h]
  · rename_i h
    rw [neg_one_mul, abs_of_neg (not_le.mp h), neg_neg]

theorem sign_ne_zero (q : Rat) : Scalar.sign q ≠ (0 : Rat) := by
  show (if 0 ≤ q then 1 else -1 : Rat) ≠ 0
  split <;> simp

theorem floor_eq (q : Rat) : Scalar.floor q = ((⌊q⌋ : Int) : Rat) := rfl

theorem ceil_eq (q : Rat) : Scalar.ceil q = ((⌈q⌉ : Int) : Rat) := by
  show ((q.ceil : Int) : Rat) = ((⌈q⌉ : Int) : Rat)
  rw [Rat.ceil_eq_neg_floor_neg]
  rfl

theorem floor_finite (q : Rat) : Limits.floor (ExtendedRat.finite q) = .finite ⌊q⌋ := rfl

theorem ceil_finite (q : Rat) : Limits.ceil (ExtendedRat.finite q) = .finite ⌈q⌉ :=
  congrArg ExtendedRat.finite (ceil_eq q)

theorem sum_eq (xs : List Rat) : Scalar.sum xs = xs.sum := by
  rw [Scalar.sum, List.sum_eq_foldl]
  rfl

/-- Rounding yields an integer. -/
theorem exists_int_round (q : Rat) : ∃ i : Int, Scalar.round q = i := by
  show ∃ i : Int, Exact.round q = i
  unfold Exact.round
  split
  · exact ⟨_, rfl⟩
  · exact ⟨_, rfl⟩

/-- The nearest integer of a number, and the outer one of two that are as near. -/
theorem round_eq {q : Rat} {i : Int} (up : 0 ≤ q → (i : Rat) ≤ q + 1 / 2 ∧ q + 1 / 2 < i + 1)
    (down : q < 0 → (i : Rat) - 1 < q - 1 / 2 ∧ q - 1 / 2 ≤ i) : Scalar.round q = i := by
  show Exact.round q = i
  unfold Exact.round
  split
  · rename_i nonneg
    exact congrArg Int.cast (Int.floor_eq_iff.mpr (up nonneg))
  · rename_i negative
    exact (ceil_eq _).trans (congrArg Int.cast (Int.ceil_eq_iff.mpr (down (not_le.mp negative))))

theorem round_intCast (i : Int) : Scalar.round (i : Rat) = i :=
  round_eq (fun _ => by constructor <;> linarith) fun _ => by constructor <;> linarith

/-- The nearest integer is one of the two around a number. -/
theorem floor_le_round (q : Rat) : (Scalar.floor q : Rat) ≤ Scalar.round q := by
  rw [floor_eq]
  show _ ≤ Exact.round q
  unfold Exact.round
  split
  · exact Int.cast_le.mpr (Int.floor_le_floor (by linarith))
  · rw [show ((q - 1 / 2).ceil : Rat) = _ from ceil_eq (q - 1 / 2), Int.cast_le]
    refine Int.sub_one_lt_iff.mp (Int.lt_ceil.mpr ?_)
    push_cast
    linarith [Int.floor_le q]

theorem round_le_ceil (q : Rat) : (Scalar.round q : Rat) ≤ Scalar.ceil q := by
  rw [ceil_eq]
  show Exact.round q ≤ _
  unfold Exact.round
  split
  · have below : ⌊q + 1 / 2⌋ < ⌈q⌉ + 1 := by
      rw [Int.floor_lt]
      push_cast
      linarith [Int.le_ceil q]
    exact Int.cast_le.mpr (Int.lt_add_one_iff.mp below)
  · rw [show ((q - 1 / 2).ceil : Rat) = _ from ceil_eq (q - 1 / 2), Int.cast_le]
    exact Int.ceil_le_ceil (by linarith)

/-- A limit below an integer is below it when it is moved up to an integer. -/
theorem ceil_le {l : ExtendedRat} {i : Int} (h : l ≤ .finite (i : Rat)) :
    Limits.ceil l ≤ .finite (i : Rat) := by
  cases l with
  | below => exact ExtendedRat.below_le _
  | finite a =>
    show ExtendedRat.finite (Scalar.ceil a) ≤ _
    rw [ExtendedRat.finite_le_finite] at h ⊢
    rw [ceil_eq]
    exact_mod_cast Int.ceil_le.mpr h
  | above => simp at h

theorem le_floor {u : ExtendedRat} {i : Int} (h : .finite (i : Rat) ≤ u) :
    .finite (i : Rat) ≤ Limits.floor u := by
  cases u with
  | below => simp at h
  | finite a =>
    show _ ≤ ExtendedRat.finite (Scalar.floor a)
    rw [ExtendedRat.finite_le_finite] at h ⊢
    rw [floor_eq]
    exact_mod_cast Int.le_floor.mpr h
  | above => exact ExtendedRat.le_above _

theorem sub_le {l : ExtendedRat} {e : Rat} (he : 0 ≤ e) : Limits.sub l e ≤ l := by
  cases l with
  | finite a => exact ExtendedRat.finite_le_finite.mpr (sub_le_self a he)
  | below | above => exact le_rfl

theorem le_add {u : ExtendedRat} {e : Rat} (he : 0 ≤ e) : u ≤ Limits.add u e := by
  cases u with
  | finite a => exact ExtendedRat.finite_le_finite.mpr (le_add_of_nonneg_right he)
  | below | above => exact le_rfl

/-- A limit that is moved down stays below the integer that it is then moved up to. -/
theorem sub_le_ceil (l : ExtendedRat) (e : Rat) :
    Limits.sub l e ≤ (Limits.ceil (Limits.sub l e) : ExtendedRat) := by
  cases l with
  | finite a =>
    show ExtendedRat.finite (a - e) ≤ .finite (Scalar.ceil (a - e))
    rw [ExtendedRat.finite_le_finite, ceil_eq]
    exact Int.le_ceil _
  | below | above => exact le_rfl

theorem floor_le_add (u : ExtendedRat) (e : Rat) :
    (Limits.floor (Limits.add u e) : ExtendedRat) ≤ Limits.add u e := by
  cases u with
  | finite a =>
    show ExtendedRat.finite (Scalar.floor (a + e)) ≤ .finite (a + e)
    rw [ExtendedRat.finite_le_finite, floor_eq]
    exact Int.floor_le _
  | below | above => exact le_rfl

/-- No number is on both sides of a split at a number that is no integer. -/
theorem not_le_floor_and_ceil_le {v q : Rat} (hv : ∀ i : Int, v ≠ i) :
    ¬ (q ≤ Scalar.floor v ∧ Scalar.ceil v ≤ q) := by
  rw [floor_eq, ceil_eq]
  rintro ⟨hf, hc⟩
  have below : v ≤ (⌊v⌋ : Int) := (Int.le_ceil v).trans (hc.trans hf)
  exact hv ⌊v⌋ (le_antisymm below (Int.floor_le v))

end Exact

/-! ## Tolerances -/

theorem Scalar.powAux_pos {acc base : Rat} (n : Nat) (ha : 0 < acc) (hb : 0 < base) :
    0 < Scalar.powAux acc base n := by
  have step {acc base : Rat} (n : Nat) (ha : 0 < acc) (hb : 0 < base) :
      0 < if n % 2 = 1 then acc * base else acc := by
    split
    · exact mul_pos ha hb
    · exact ha
  fun_induction Scalar.powAux acc base n with
  | case1 acc base n acc' h => exact step n ha hb
  | case2 acc base n acc' h ih => exact ih (step n ha hb) (mul_pos hb hb)

theorem Scalar.powTen_pos (n : Int) : 0 < (Scalar.powTen n : Rat) := by
  have h : 0 < (Scalar.powAux 1 ((10 : Int) : Rat) n.natAbs) :=
    powAux_pos n.natAbs one_pos (by norm_num)
  unfold Scalar.powTen
  split
  · exact one_div_pos.mpr h
  · exact h

namespace Tolerance

theorem absolute_pos (t : Tolerance) : 0 < (t.absolute : Rat) :=
  Scalar.powTen_pos _

theorem slack_pos (t : Tolerance) (finite : Bool) (q : Rat) : 0 < t.slack finite q :=
  lt_of_lt_of_le t.absolute_pos (le_max_left _ _)

theorem epsilon_pos (t : Tolerance) (q : Rat) : 0 < t.epsilon q :=
  t.slack_pos _ q

theorem epsilonOf_pos (t : Tolerance) (l : ExtendedRat) : 0 < (t.epsilonOf l : Rat) :=
  t.slack_pos _ _

end Tolerance

end Milp
