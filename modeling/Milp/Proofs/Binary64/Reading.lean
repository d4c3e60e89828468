import Milp.Proofs.Binary64.Extremes
import Milp.Proofs.Binary64.Integral
import Milp.Proofs.Binary64.Signs
import Milp.Proofs.Reading

/-!
# What doubles stand for

A double stands for the rational that its place is in units of one, or for an infinity, unless it is
undefined. Comparing, the larger and the smaller of two, the integers around and the distance from the
nearest one are those of the rationals. Sums are rounded, and all that is known of them here is the
side to which a tolerance moves a limit.

Results:
1. `read_of_near`: integers next to a double stand for integers next to its rational.
2. `lower_sub`, `upper_add`: to which side a tolerance moves a limit.
3. `Readable Float Float`: doubles are limits and scalars that stand for exact numbers.
-/

namespace Milp.Binary64

open Float.Model (UnpackedFloat)
open Reading (read? lower upper)

/-! ## Places -/

/-- What a place stands for. The outermost places are those of the infinities. -/
def ofPlace (p : Int) : ExtendedRat :=
  if p ≤ -(top : Int) then .below else if (top : Int) ≤ p then .above else .finite (p / one)

theorem one_pos_rat : (0 : Rat) < one :=
  Nat.cast_pos.mpr one_pos

theorem one_dvd_top : (one : Int) ∣ top := by
  obtain ⟨m, -, top⟩ := exists_top_eq
  exact ⟨m, by rw [top]; push_cast; ring⟩

theorem ofPlace_top : ofPlace top = .above := by
  have := top_pos
  rw [ofPlace, if_neg (by omega), if_pos le_rfl]

theorem ofPlace_neg_top : ofPlace (-top) = .below :=
  if_pos le_rfl

theorem ofPlace_finite {p : Int} (small : p.natAbs < top) : ofPlace p = .finite (p / one) := by
  rw [ofPlace, if_neg (by omega), if_neg (by omega)]

theorem ofPlace_strictMonoOn : StrictMonoOn ofPlace (Set.Icc (-top) top) := by
  intro p hp q hq less
  have hp : -(top : Int) ≤ p ∧ p ≤ top := hp
  have hq : -(top : Int) ≤ q ∧ q ≤ top := hq
  by_cases low : p ≤ -(top : Int)
  · rw [ofPlace, if_pos low, ofPlace, if_neg (by omega)]
    split <;> rfl
  · rw [ofPlace, if_neg low, if_neg (by omega), ofPlace, if_neg (by omega)]
    split
    · rfl
    · exact ExtendedRat.finite_lt_finite.mpr
        (div_lt_div_of_pos_right (Int.cast_lt.mpr less) one_pos_rat)

/-! ## Readings -/

instance : Reading Float where
  read? x := if x.isNaN then none else some (ofPlace (place x))

variable {x y : Float}

theorem read_nan : read? Float.nan = none :=
  rfl

theorem read_of_defined (defined : x.isNaN = false) : read? x = some (ofPlace (place x)) := by
  show (if x.isNaN then _ else _) = _
  rw [defined, if_neg Bool.false_ne_true]

theorem read_eq_none (undefined : parts x = .notANumber) : read? x = none := by
  have undefined : x.isNaN = true := by
    show (parts x).isNaN = true
    rw [undefined]
    rfl
  exact if_pos undefined

theorem read_above (infinite : parts x = .infinity .positive) : read? x = some .above := by
  have defined : x.isNaN = false := by
    show (parts x).isNaN = false
    rw [infinite]
    rfl
  rw [read_of_defined defined, place, infinite]
  exact congrArg some ofPlace_top

theorem read_below (infinite : parts x = .infinity .negative) : read? x = some .below := by
  have defined : x.isNaN = false := by
    show (parts x).isNaN = false
    rw [infinite]
    rfl
  rw [read_of_defined defined, place, infinite]
  exact congrArg some ofPlace_neg_top

theorem read_finite (finite : x.isFinite = true) : read? x = some (.finite (place x / one)) := by
  have defined := isNaN_of_isFinite finite
  rw [read_of_defined defined, ofPlace_finite ((isFinite_iff_place defined).mp finite)]

theorem place_mem (defined : x.isNaN = false) : place x ∈ Set.Icc (-top : Int) top :=
  (canonical_parts defined).bounds

/-- A double is undefined, infinite, or stands for a rational. -/
theorem read_cases (x : Float) : x = .nan ∨ parts x = .infinity .positive ∨
    parts x = .infinity .negative ∨ x.isFinite = true := by
  rcases nan_or_defined x with undefined | defined
  · exact .inl undefined
  · show _ ∨ _ ∨ _ ∨ (parts x).isFinite = true
    have canonical := canonical_parts defined
    generalize parts x = u at canonical
    cases canonical with
    | infinity s =>
      cases s with
      | negative => exact .inr (.inr (.inl rfl))
      | positive => exact .inr (.inl rfl)
    | zero | finite => exact .inr (.inr (.inr rfl))

theorem exists_read_iff : x.isFinite = true ↔ ∃ q, read? x = some (.finite q) := by
  refine ⟨fun finite => ⟨_, read_finite finite⟩, fun ⟨q, read⟩ => ?_⟩
  rcases read_cases x with rfl | infinite | infinite | finite
  · cases read_nan.symm.trans read
  · cases (read_above infinite).symm.trans read
  · cases (read_below infinite).symm.trans read
  · exact finite

/-! ## Order -/

theorem ofPlace_lt (hx : x.isNaN = false) (hy : y.isNaN = false) :
    ofPlace (place x) < ofPlace (place y) ↔ x < y :=
  (ofPlace_strictMonoOn.lt_iff_lt (place_mem hx) (place_mem hy)).trans (lt_iff_place hx hy).symm

theorem ofPlace_le (hx : x.isNaN = false) (hy : y.isNaN = false) :
    ofPlace (place x) ≤ ofPlace (place y) ↔ x ≤ y :=
  (ofPlace_strictMonoOn.le_iff_le (place_mem hx) (place_mem hy)).trans
    (le_iff_place (canonical_parts hx) (canonical_parts hy)).symm

/-- A relation of doubles that are defined is one of what they stand for, if it is one of what their
places stand for. -/
theorem iff_read {p : Prop} {r : ExtendedRat → ExtendedRat → Prop}
    (defined : p → x.isNaN = false ∧ y.isNaN = false)
    (places : x.isNaN = false → y.isNaN = false → (r (ofPlace (place x)) (ofPlace (place y)) ↔ p)) :
    p ↔ ∃ a b, read? x = some a ∧ read? y = some b ∧ r a b := by
  constructor
  · intro holds
    obtain ⟨hx, hy⟩ := defined holds
    exact ⟨_, _, read_of_defined hx, read_of_defined hy, (places hx hy).mpr holds⟩
  · rintro ⟨a, b, ha, hb, related⟩
    rcases nan_or_defined x with rfl | hx
    · cases ha
    rcases nan_or_defined y with rfl | hy
    · cases hb
    cases (read_of_defined hx).symm.trans ha
    cases (read_of_defined hy).symm.trans hb
    exact (places hx hy).mp related

theorem lt_iff_read : x < y ↔ ∃ p q, read? x = some p ∧ read? y = some q ∧ p < q :=
  iff_read isNaN_of_lt ofPlace_lt

theorem le_iff_read : x ≤ y ↔ ∃ p q, read? x = some p ∧ read? y = some q ∧ p ≤ q :=
  iff_read isNaN_of_le ofPlace_le

theorem read_max (x y : Float) : read? (Double.max x y) = (read? x).merge max (read? y) := by
  rcases nan_or_defined x with rfl | hx
  · exact (Option.merge_none_left).symm
  rcases nan_or_defined y with rfl | hy
  · rw [max_nan, read_nan, Option.merge_none_right]
  obtain ⟨defined, place⟩ := place_max hx hy
  rw [read_of_defined defined, place, read_of_defined hx, read_of_defined hy, Option.merge_some_some,
    ofPlace_strictMonoOn.monotoneOn.map_max (place_mem hx) (place_mem hy)]

theorem read_min (x y : Float) : read? (Double.min x y) = (read? x).merge min (read? y) := by
  rcases nan_or_defined x with rfl | hx
  · exact (Option.merge_none_left).symm
  rcases nan_or_defined y with rfl | hy
  · rw [min_nan, read_nan, Option.merge_none_right]
  obtain ⟨defined, place⟩ := place_min hx hy
  rw [read_of_defined defined, place, read_of_defined hx, read_of_defined hy, Option.merge_some_some,
    ofPlace_strictMonoOn.monotoneOn.map_min (place_mem hx) (place_mem hy)]

/-! ## Integers -/

/-- An integer next to a double stands for the integer next to what the double stands for. -/
theorem read_of_near {g : Rat → Int} (hx : x.isNaN = false) (hy : y.isNaN = false)
    (whole : (one : Int) ∣ place y) (near : (place y - place x).natAbs < one)
    (same : place y = g (place x / one) * one) :
    read? y = (read? x).map (ExtendedRat.map fun q => g q) := by
  have apart (integer : (one : Int) ∣ place x) : place y = place x :=
    Int.sub_eq_zero.mp (Int.eq_zero_of_dvd_of_natAbs_lt_natAbs (Int.dvd_sub whole integer)
      (by rwa [Int.natAbs_natCast]))
  rcases read_cases x with rfl | infinite | infinite | finite
  · cases hx
  · have place : place x = top := by rw [place, infinite]; rfl
    rw [read_of_defined hy, apart (place ▸ one_dvd_top), place, read_above infinite, ofPlace_top]
    rfl
  · have place : place x = -top := by rw [place, infinite]; rfl
    rw [read_of_defined hy, apart (place ▸ one_dvd_top.neg_right), place, read_below infinite,
      ofPlace_neg_top]
    rfl
  · rw [read_finite (isFinite_of_near finite hy whole near), read_finite finite, same]
    push_cast
    rw [mul_div_cancel_right₀ _ one_pos_rat.ne']
    rfl

theorem read_floor (x : Float) : read? (Double.floor x) = (read? x).map Limits.floor := by
  rcases nan_or_defined x with rfl | defined
  · rfl
  obtain ⟨defined', ⟨i, whole⟩, below, above⟩ := floor_spec defined
  refine read_of_near (g := Int.floor) defined defined' ⟨i, whole⟩ (by omega) ?_
  have floor : ⌊(place x : Rat) / one⌋ = i := by
    rw [Int.floor_eq_iff, le_div_iff₀ one_pos_rat, div_lt_iff₀ one_pos_rat]
    rw [whole, Int.mul_comm] at below above
    exact ⟨by exact_mod_cast below, by rw [add_one_mul]; exact_mod_cast above⟩
  rw [floor, whole, Int.mul_comm]

theorem read_ceil (x : Float) : read? (Double.ceil x) = (read? x).map Limits.ceil := by
  rcases nan_or_defined x with rfl | defined
  · rfl
  obtain ⟨defined', ⟨i, whole⟩, below, above⟩ := ceil_spec defined
  refine (read_of_near (g := Int.ceil) defined defined' ⟨i, whole⟩ (by omega) ?_).trans ?_
  · have ceil : ⌈(place x : Rat) / one⌉ = i := by
      rw [Int.ceil_eq_iff, lt_div_iff₀ one_pos_rat, div_le_iff₀ one_pos_rat]
      rw [whole, Int.mul_comm] at below above
      exact ⟨by rw [sub_one_mul]; exact_mod_cast below, by exact_mod_cast above⟩
    rw [ceil, whole, Int.mul_comm]
  · cases read? x with
    | none => rfl
    | some p => cases p with
      | below | above => rfl
      | finite q => exact congrArg some (Exact.ceil_finite q).symm

/-- The integer nearest to a finite double, in units of one. -/
theorem place_round (defined : x.isNaN = false) :
    ∃ i : Int, place (Double.round x) = i * one ∧ Scalar.round (place x / one : Rat) = i := by
  obtain ⟨-, ⟨i, whole⟩, up, down⟩ := round_spec defined
  rw [Int.mul_comm] at whole
  have pos := one_pos_rat
  refine ⟨i, whole, Exact.round_eq (fun nonneg => ?_) fun negative => ?_⟩
  · rw [whole] at up
    obtain ⟨above, below⟩ := up (by
      have := (le_div_iff₀ pos).mp nonneg
      rw [zero_mul] at this
      exact_mod_cast this)
    have above : 2 * ((i : Rat) * one) ≤ 2 * place x + one := by exact_mod_cast above
    have below : 2 * (place x : Rat) < 2 * (i * one) + one := by exact_mod_cast below
    rw [← sub_le_iff_le_add, ← lt_sub_iff_add_lt, le_div_iff₀ pos, div_lt_iff₀ pos]
    constructor <;> linarith
  · rw [whole] at down
    obtain ⟨above, below⟩ := down (by
      have := (div_lt_iff₀ pos).mp negative
      rw [zero_mul] at this
      exact_mod_cast this)
    have above : 2 * ((i : Rat) * one) - one < 2 * place x := by exact_mod_cast above
    have below : 2 * (place x : Rat) - one ≤ 2 * (i * one) := by exact_mod_cast below
    rw [lt_sub_iff_add_lt, sub_le_iff_le_add, lt_div_iff₀ pos, div_le_iff₀ pos]
    constructor <;> linarith

theorem read_round (x : Float) :
    read? (Double.round x) = (read? x).map (ExtendedRat.map Scalar.round) := by
  rcases nan_or_defined x with rfl | defined
  · rfl
  obtain ⟨defined', whole, up, down⟩ := round_spec defined
  obtain ⟨i, place', rounds⟩ := place_round defined
  have pos := one_pos
  have near : read? (Double.round x) = (read? x).map (ExtendedRat.map fun _ => i) :=
    read_of_near (g := fun _ => i) defined defined' whole (by omega) place'
  rw [near]
  rcases read_cases x with rfl | infinite | infinite | finite
  · rfl
  · rw [read_above infinite]
    rfl
  · rw [read_below infinite]
    rfl
  · rw [read_finite finite]
    exact congrArg (some ∘ ExtendedRat.finite) rounds.symm

/-- An integer is its own nearest integer. -/
theorem round_of_read {i : Int} (whole : read? x = some (.finite i)) : Double.round x = x := by
  have finite : x.isFinite = true := exists_read_iff.mpr ⟨i, whole⟩
  have quotient : (place x : Rat) / one = i := by
    rw [read_finite finite] at whole
    exact ExtendedRat.finite.inj (Option.some.inj whole)
  rw [div_eq_iff one_pos_rat.ne'] at quotient
  exact round_of_dvd (isNaN_of_isFinite finite) ⟨i, by rw [Int.mul_comm]; exact_mod_cast quotient⟩

/-- Infinity has no distance from an integer. -/
theorem read_deviation (x : Float) :
    read? (x - Double.round x).abs = (read? x).bind fun
      | .finite q => some (.finite (Scalar.deviation q))
      | _ => none := by
  have undefined (s : UnpackedFloat.Sign) (infinite : parts x = .infinity s) :
      read? (x - Double.round x).abs = none := by
    obtain ⟨whole, defined⟩ : (one : Int) ∣ place x ∧ x.isNaN = false := by
      refine ⟨?_, ?_⟩
      · rw [place, infinite]
        cases s
        · exact one_dvd_top.neg_right
        · exact one_dvd_top
      · show (parts x).isNaN = false
        rw [infinite]
        rfl
    rw [round_of_dvd defined whole]
    refine read_eq_none ?_
    show stored (stored (UnpackedFloat.sub _ (parts x) (parts x))).abs = _
    rw [infinite]
    cases s <;> exact stored_notANumber
  rcases read_cases x with rfl | infinite | infinite | finite
  · exact read_eq_none stored_notANumber
  · rw [undefined _ infinite, read_above infinite]
    rfl
  · rw [undefined _ infinite, read_below infinite]
    rfl
  · obtain ⟨finite', distance⟩ := place_sub_round finite
    obtain ⟨i, place', rounds⟩ := place_round (isNaN_of_isFinite finite)
    rw [read_finite finite, read_finite (isFinite_abs finite'), place_abs finite', distance, place',
      Option.bind_some]
    congr 2
    rw [Scalar.deviation, rounds, Exact.abs_eq, Int.cast_natCast, Nat.cast_natAbs, Int.cast_abs]
    push_cast
    rw [← abs_of_pos one_pos_rat, ← abs_div, abs_of_pos one_pos_rat, sub_div,
      mul_div_cancel_right₀ _ one_pos_rat.ne']

/-! ## Tolerances -/

theorem lower_sub (t : Tolerance) (x : Float) : lower (x - t.epsilonOf x) ≤ lower x := by
  have unsigned := unsigned_epsilonOf t x
  rcases sub_unsigned (x := x) unsigned with none | all | most | ⟨finite, finite'⟩
  · rw [lower, read_eq_none none]
    exact ExtendedRat.below_le _
  · rw [lower, read_below all]
    exact ExtendedRat.below_le _
  · rw [lower, lower, read_above most]
    exact ExtendedRat.le_above _
  · have less := sub_le finite finite' (zero_le_of_unsigned unsigned finite')
    obtain ⟨p, q, hp, hq, le⟩ := le_iff_read.mp less
    rwa [lower, lower, hp, hq]

theorem upper_add (t : Tolerance) (x : Float) : upper x ≤ upper (x + t.epsilonOf x) := by
  have unsigned := unsigned_epsilonOf t x
  rcases add_unsigned (x := x) unsigned with none | all | least | ⟨finite, finite'⟩
  · rw [upper, upper, read_eq_none none]
    exact ExtendedRat.le_above _
  · rw [upper, upper, read_above all]
    exact ExtendedRat.le_above _
  · rw [upper, upper, read_below least]
    exact ExtendedRat.below_le _
  · have more := le_add finite finite' (zero_le_of_unsigned unsigned finite')
    obtain ⟨p, q, hp, hq, le⟩ := le_iff_read.mp more
    rwa [upper, upper, hp, hq]

/-- Doubles stand for exact numbers, unless they are undefined. -/
instance : Readable Float Float where
  read_below := read_below rfl
  read_above := read_above rfl
  read_zero := by
    show read? (0 : Float) = _
    rw [read_finite (x := 0) rfl, place, parts_zero]
    exact congrArg (some ∘ ExtendedRat.finite) (zero_div _)
  lt_iff := lt_iff_read
  read_max := read_max
  read_min := read_min
  read_floor := read_floor
  read_ceil := read_ceil
  isFinite_iff := exists_read_iff
  lower_sub := lower_sub
  upper_add := upper_add
  lt_iff_ofScalar := Iff.rfl
  le_iff_read := le_iff_read
  isFinite_ofScalar _ := rfl
  beq_self finite := beq_iff_le.mpr ⟨le_refl finite, le_refl finite⟩
  read_floor_scalar := read_floor
  read_ceil_scalar := read_ceil
  read_round := read_round
  round_of_whole := round_of_read
  read_deviation := read_deviation
  read_raiseTo v _ _ := read_max v _
  read_lowerTo v _ _ := read_min v _

end Milp.Binary64
