import Milp.Proofs.Exact
import Milp.Search.Branching

/-!
# What numbers stand for

A limit stands for a rational or for an infinity, unless it is undefined. Exact numbers stand for
themselves. What is asked of other numbers here is no more than that comparing, rounding to integers
and moving between limits do to them what they do to the numbers they stand for; sums, products and
quotients may be rounded. So the shape of a search tree is that of the exact numbers.

Results:
1. `Readable`: limits and scalars that stand for exact numbers.
2. `lower_max`, `upper_min`: limits that are tightened.
3. `le_floor_or_ceil_le`, `not_le_floor_and_ceil_le`: an integer is on one side of a split.
4. `clamp_mem`: what is moved between two limits lies between them.
-/

namespace Milp

/-! ## Undefined operands -/

section Merging

variable {p q r : Option ExtendedRat}

theorem getD_merge_max : (p.merge max q).getD .below = max (p.getD .below) (q.getD .below) := by
  cases p <;> cases q <;> simp

theorem getD_merge_min : (p.merge min q).getD .above = min (p.getD .above) (q.getD .above) := by
  cases p <;> cases q <;> simp

/-- What is moved between limits that are not crossed lies between them. -/
theorem merge_mem {s : ExtendedRat} (order : q.getD .below ≤ r.getD .above)
    (moved : (p.merge max q).merge min r = some s) :
    q.getD .below ≤ s ∧ s ≤ r.getD .above := by
  cases p <;> cases q <;> cases r <;> cases moved <;> simp_all

end Merging

/-! ## Readings -/

/-- What limits stand for. -/
class Reading (L : Type) where
  /-- The number that a limit stands for; an undefined one stands for none. -/
  read? : L → Option ExtendedRat

namespace Reading

variable {L : Type} [Reading L]

/-- What a limit stands for as a lower limit; an undefined one limits nothing. -/
def lower (x : L) : ExtendedRat :=
  (read? x).getD .below

/-- What a limit stands for as an upper limit; an undefined one limits nothing. -/
def upper (x : L) : ExtendedRat :=
  (read? x).getD .above

end Reading

open Reading (read? lower upper)

/-- Limits and scalars that stand for exact numbers, unless they are undefined. -/
class Readable (L : Type) (K : outParam Type) [Scalar K] [Limits L K] extends Reading L where
  read_below : read? (Limits.below : L) = some .below
  read_above : read? (Limits.above : L) = some .above
  read_zero : read? (Limits.ofScalar (0 : K) : L) = some (.finite 0)
  lt_iff {a b : L} : a < b ↔ ∃ p q, read? a = some p ∧ read? b = some q ∧ p < q
  /-- An undefined operand is ignored. -/
  read_max (a b : L) : read? (max a b) = (read? a).merge max (read? b)
  read_min (a b : L) : read? (min a b) = (read? a).merge min (read? b)
  read_floor (a : L) : read? (Limits.floor a) = (read? a).map Limits.floor
  read_ceil (a : L) : read? (Limits.ceil a) = (read? a).map Limits.ceil
  isFinite_iff {a : L} : Limits.isFinite a = true ↔ ∃ q, read? a = some (.finite q)
  /-- A tolerance moves a lower limit down. -/
  lower_sub (t : Tolerance) (a : L) : lower (Limits.sub a (t.epsilonOf a)) ≤ lower a
  /-- A tolerance moves an upper limit up. -/
  upper_add (t : Tolerance) (a : L) : upper a ≤ upper (Limits.add a (t.epsilonOf a))
  lt_iff_ofScalar {x y : K} : x < y ↔ (Limits.ofScalar x : L) < Limits.ofScalar y
  le_iff_read {x y : K} : x ≤ y ↔
    ∃ p q, read? (Limits.ofScalar x : L) = some p ∧ read? (Limits.ofScalar y : L) = some q ∧ p ≤ q
  isFinite_ofScalar (x : K) : Limits.isFinite (Limits.ofScalar x : L) = Scalar.isFinite x
  beq_self {x : K} (finite : Scalar.isFinite x = true) : (x == x) = true
  read_floor_scalar (x : K) : read? (Limits.ofScalar (Scalar.floor x) : L) =
    (read? (Limits.ofScalar x : L)).map Limits.floor
  read_ceil_scalar (x : K) : read? (Limits.ofScalar (Scalar.ceil x) : L) =
    (read? (Limits.ofScalar x : L)).map Limits.ceil
  read_round (x : K) : read? (Limits.ofScalar (Scalar.round x) : L) =
    (read? (Limits.ofScalar x : L)).map (.map Scalar.round)
  /-- An integer is its own nearest integer, down to the sign of zero. -/
  round_of_whole {x : K} {i : Int} (whole : read? (Limits.ofScalar x : L) = some (.finite i)) :
    Scalar.round x = x
  /-- Infinity has no distance from an integer. -/
  read_deviation (x : K) : read? (Limits.ofScalar (Scalar.deviation x) : L) =
    (read? (Limits.ofScalar x : L)).bind fun
      | .finite q => some (.finite (Scalar.deviation q))
      | _ => none
  /-- Limits that are the infinity of the other side need not move a scalar. -/
  read_raiseTo (v : K) {l : L} (room : lower l ≠ .above) :
    read? (Limits.ofScalar (Limits.raiseTo v l) : L) =
      (read? (Limits.ofScalar v : L)).merge max (read? l)
  read_lowerTo (v : K) {u : L} (room : upper u ≠ .below) :
    read? (Limits.ofScalar (Limits.lowerTo v u) : L) =
      (read? (Limits.ofScalar v : L)).merge min (read? u)

/-- Exact numbers stand for themselves. -/
instance : Readable ExtendedRat Rat where
  read? := some
  read_below := rfl
  read_above := rfl
  read_zero := rfl
  lt_iff := by simp
  read_max _ _ := rfl
  read_min _ _ := rfl
  read_floor _ := rfl
  read_ceil _ := rfl
  isFinite_iff := by simp [Exact.isFinite_iff]
  lower_sub t a := Exact.sub_le (t.epsilonOf_pos a).le
  upper_add t a := Exact.le_add (t.epsilonOf_pos a).le
  lt_iff_ofScalar := by simp
  le_iff_read := by simp
  isFinite_ofScalar _ := rfl
  beq_self _ := by simp
  read_floor_scalar _ := rfl
  read_ceil_scalar _ := rfl
  read_round _ := rfl
  round_of_whole whole := by
    cases whole
    exact Exact.round_intCast _
  read_deviation _ := rfl
  read_raiseTo v l room := by
    exact congrArg some (Exact.finite_raiseTo v room)
  read_lowerTo v u room := by
    exact congrArg some (Exact.finite_lowerTo v room)

/-! ## Limits -/

namespace Readable

variable {K L : Type} [Scalar K] [Limits L K] [Readable L K]

@[simp]
theorem lower_below : lower (Limits.below : L) = .below := by
  rw [lower, read_below, Option.getD_some]

@[simp]
theorem upper_above : upper (Limits.above : L) = .above := by
  rw [upper, read_above, Option.getD_some]

/-- A lower limit that is tightened. -/
theorem lower_max (a b : L) : lower (max a b) = max (lower a) (lower b) := by
  rw [lower, read_max, getD_merge_max]
  rfl

/-- An upper limit that is tightened. -/
theorem upper_min (a b : L) : upper (min a b) = min (upper a) (upper b) := by
  rw [upper, read_min, getD_merge_min]
  rfl

theorem lower_ceil (a : L) : lower (Limits.ceil a) = Limits.ceil (lower a) := by
  rw [lower, lower, read_ceil]
  cases read? a <;> rfl

theorem upper_floor (a : L) : upper (Limits.floor a) = Limits.floor (upper a) := by
  rw [upper, upper, read_floor]
  cases read? a <;> rfl

/-- An undefined limit is less than none. -/
theorem min_lt {a b c : L} : min a b < c ↔ a < c ∨ b < c := by
  rw [lt_iff, lt_iff (a := a), lt_iff (a := b), read_min]
  cases read? a <;> cases read? b <;> simp [and_or_left, exists_or]

/-- Limits of which neither is said to be crossed are in order. -/
theorem lower_le_upper {l u : L} (order : ¬ u < l) : lower l ≤ upper u := by
  rw [lt_iff] at order
  unfold lower upper
  cases hl : read? l with
  | none => exact ExtendedRat.below_le _
  | some p =>
    cases hu : read? u with
    | none => exact ExtendedRat.le_above _
    | some q => exact not_lt.mp fun less => order ⟨q, p, hu, hl, less⟩

/-! ## Sides of a split -/

section Sides

variable (x : K)

theorem upper_floor_scalar :
    upper (Limits.ofScalar (Scalar.floor x) : L) = Limits.floor (upper (Limits.ofScalar x : L)) := by
  rw [upper, upper, read_floor_scalar]
  cases read? (Limits.ofScalar x : L) <;> rfl

theorem lower_ceil_scalar :
    lower (Limits.ofScalar (Scalar.ceil x) : L) = Limits.ceil (lower (Limits.ofScalar x : L)) := by
  rw [lower, lower, read_ceil_scalar]
  cases read? (Limits.ofScalar x : L) <;> rfl

/-- An integer is on one side of a split. -/
theorem le_floor_or_ceil_le (i : Int) :
    .finite i ≤ upper (Limits.ofScalar (Scalar.floor x) : L) ∨
      lower (Limits.ofScalar (Scalar.ceil x) : L) ≤ .finite i := by
  rw [upper_floor_scalar, lower_ceil_scalar]
  unfold lower upper
  cases read? (Limits.ofScalar x : L) with
  | none => exact .inl (ExtendedRat.le_above _)
  | some p =>
    rcases le_total (.finite i) p with below | above
    · exact .inl (Exact.le_floor below)
    · exact .inr (Exact.ceil_le above)

variable {x}

/-- No number is on both sides of a split at a number that is no integer. -/
theorem not_le_floor_and_ceil_le (defined : read? (Limits.ofScalar x : L) ≠ none)
    (fraction : ∀ i : Int, read? (Limits.ofScalar x : L) ≠ some (.finite i)) {q : Rat} :
    ¬ (.finite q ≤ upper (Limits.ofScalar (Scalar.floor x) : L) ∧
      lower (Limits.ofScalar (Scalar.ceil x) : L) ≤ .finite q) := by
  rw [upper_floor_scalar, lower_ceil_scalar]
  unfold lower upper
  cases read : read? (Limits.ofScalar x : L) with
  | none => exact absurd read defined
  | some p =>
    rintro ⟨below, above⟩
    cases p with
    | below => exact absurd below (ExtendedRat.not_finite_le_below q)
    | above => exact absurd above (ExtendedRat.not_above_le_finite q)
    | finite r =>
      refine Exact.not_le_floor_and_ceil_le (v := r) (q := q) (fun i h => fraction i (h ▸ read)) ?_
      exact ⟨ExtendedRat.finite_le_finite.mp below, ExtendedRat.finite_le_finite.mp above⟩

end Sides

/-! ## Between limits -/

section Between

variable {v : K} {l u : L} (lowerRoom : lower l ≠ .above) (upperRoom : upper u ≠ .below)
include lowerRoom upperRoom

theorem read_clamp : read? (Limits.ofScalar (Limits.lowerTo (Limits.raiseTo v l) u) : L) =
    ((read? (Limits.ofScalar v : L)).merge max (read? l)).merge min (read? u) := by
  rw [read_lowerTo _ upperRoom, read_raiseTo _ lowerRoom]

/-- What is moved between two limits that are not crossed lies between them, unless it is
undefined. -/
theorem clamp_mem (order : ¬ u < l) {p : ExtendedRat}
    (read : read? (Limits.ofScalar (Limits.lowerTo (Limits.raiseTo v l) u) : L) = some p) :
    lower l ≤ p ∧ p ≤ upper u := by
  have order := lower_le_upper order
  rw [read_clamp lowerRoom upperRoom] at read
  exact merge_mem order read

/-- What is moved to a limit is defined if the limit is. -/
theorem clamp_defined (limit : read? l ≠ none) :
    read? (Limits.ofScalar (Limits.lowerTo (Limits.raiseTo v l) u) : L) ≠ none := by
  rw [read_clamp lowerRoom upperRoom]
  obtain ⟨p, hp⟩ := Option.ne_none_iff_exists'.mp limit
  rw [hp]
  cases read? (Limits.ofScalar v : L) <;> cases read? u <;> simp

end Between

end Readable

end Milp
