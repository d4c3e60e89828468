import Milp.Proofs.Simplex.Coherent
import Milp.Proofs.Simplex.RatioTest

/-!
# Steps keep states coherent

Results:
1. `cell_move`: a move goes along a ray, so it changes no row.
2. `step_eq_inr`: a column enters and is stopped, or there is no step.
3. `Coherent.flip`, `Coherent.leave`, `Coherent.step`: a step keeps a state coherent.
4. `stop_of_step`: what is known where a phase ends.
-/

namespace Milp.SimplexState

open BasisInverse (entryAt)

variable {n m : Nat} {p : Relaxation Rat ExtendedRat n m} {box : Box ExtendedRat n} {t : Tolerance}
  {s s' : SimplexState Rat ExtendedRat n m} {entering : Column n m} {direction length : Rat}
  {alpha : Vector Rat m}

/-! ## Moves -/

/-- The basis times the coefficients of a column by it is that column. -/
theorem basis_mul_ftran (inverse : s.inverse.matrix * s.basis p = 1) (c : Column n m) (i : Fin m) :
    ∑ k : Fin m, s.basis p i k * (s.inverse.ftran (s.entries p c))[k] = s.system p i c := by
  simp only [BasisInverse.ftran_eq_sum]
  exact basis_mul_inverse inverse (fun l => s.system p l c) i

theorem move_frame (s : SimplexState Rat ExtendedRat n m) (entering : Column n m) (direction : Rat)
    (alpha : Vector Rat m) (length : Rat) :
    (s.move entering direction alpha length).signs = s.signs ∧
      (s.move entering direction alpha length).basic = s.basic ∧
      (s.move entering direction alpha length).inverse = s.inverse := by
  unfold move
  split
  · exact modifyBasics_frame _ _
  · exact ⟨rfl, rfl, rfl⟩

/-- A column that has moved along a ray. -/
def along (s : SimplexState Rat ExtendedRat n m) (entering : Column n m) (direction : Rat)
    (alpha : Vector Rat m) (length : Rat) (c : Column n m) : Cell Rat ExtendedRat :=
  { s.cell c with value := s.value c + length * s.ray entering direction alpha c }

/-- A move goes along a ray. -/
theorem cell_move (distinct : ∀ i k : Fin m, s.basic[i] = s.basic[k] → i = k)
    (nonbasic : ∀ k : Fin m, s.basic[k] ≠ entering) (nonneg : 0 ≤ length) (direction : Rat)
    (alpha : Vector Rat m) (c : Column n m) :
    (s.move entering direction alpha length).cell c = s.along entering direction alpha length c := by
  unfold move along
  split
  · let f (i : Fin m) (c : Cell Rat ExtendedRat) : Cell Rat ExtendedRat :=
      { c with value := c.value - direction * alpha[i] * length }
    let first := s.modify entering fun c => { c with value := c.value + direction * length }
    obtain ⟨changed, kept⟩ :=
      cell_modifyBasics (s := first) distinct f (List.nodup_finRange m)
    show (first.modifyBasics f (List.finRange m)).cell c = _
    by_cases basic : ∃ k : Fin m, s.basic[k] = c
    · obtain ⟨k, rfl⟩ := basic
      have apart : entering ≠ s.basic[k] := (nonbasic k).symm
      have now : (first.modifyBasics f (List.finRange m)).cell s.basic[k] =
          f k (first.cell s.basic[k]) := changed k (List.mem_finRange k)
      rw [now, cell_modify, if_neg apart, ray_basic distinct nonbasic]
      simp only [f, value]
      congr 1
      ring
    · have other (k : Fin m) : s.basic[k] ≠ c := fun h => basic ⟨k, h⟩
      rw [kept c fun k _ => other k, cell_modify]
      by_cases same : entering = c
      · subst same
        rw [if_pos rfl, ray_entering nonbasic]
        simp only [value]
        congr 1
        ring
      · rw [if_neg same, ray_other (Ne.symm same) other, mul_zero, add_zero]
        rfl
  · rename_i short
    rw [le_antisymm (not_lt.mp short) nonneg, zero_mul, add_zero]
    rfl

/-- A move along a ray changes no row. -/
theorem imbalance_of_ray (signs : s'.signs = s.signs)
    (product : ∀ i : Fin m, ∑ k : Fin m, s.basis p i k * alpha[k] = s.system p i entering)
    (values : ∀ c, s'.value c = s.value c + length * s.ray entering direction alpha c)
    (i : Fin m) : s'.imbalance p i = s.imbalance p i := by
  have still : ∑ c, s.system p i c * s.ray entering direction alpha c = 0 := system_mul_ray product i
  calc s'.imbalance p i
    _ = ∑ c, (s.system p i c * s.value c
          + length * (s.system p i c * s.ray entering direction alpha c)) := by
      unfold imbalance
      rw [system_congr signs]
      exact Finset.sum_congr rfl fun c _ => by rw [values c]; ring
    _ = s.imbalance p i := by
      rw [Finset.sum_add_distrib, ← Finset.mul_sum, still, mul_zero, add_zero]
      rfl

/-! ## Flips -/

/-- A column may enter: it is not basic, and it is free or at the limit that it can leave in the
direction. -/
structure MayEnter (s : SimplexState Rat ExtendedRat n m) (c : Column n m) (direction : Rat) :
    Prop where
  nonbasic : (s.cell c).place ≠ .basic
  wide : (s.cell c).lower < (s.cell c).upper
  way : (direction = 1 ∧ ((s.cell c).place = .atLower ∨ (s.cell c).place = .free)) ∨
    (direction = -1 ∧ ((s.cell c).place = .atUpper ∨ (s.cell c).place = .free))

theorem MayEnter.not_mem (h : s.MayEnter entering direction) (coherent : s.Coherent p box)
    (k : Fin m) : s.basic[k] ≠ entering :=
  fun same => h.nonbasic ((coherent.placed entering).mpr ⟨k, same⟩)

theorem mayEnter_of_price {y : Vector Rat m} {first : Bool} {e : Entrant Rat n m}
    (ordered : ∀ c, (s.cell c).lower ≤ (s.cell c).upper) (h : s.price p t y first = some e) :
    s.MayEnter e.column e.direction := by
  obtain ⟨-, nonbasic, wide, way⟩ := entrant?_spec (entrant?_of_price h)
  refine ⟨nonbasic, lt_of_le_of_ne (ordered _) wide, ?_⟩
  rcases way with ⟨up, -, place⟩ | ⟨down, -, place⟩
  · exact .inl ⟨up, place⟩
  · exact .inr ⟨down, place⟩

/-- A column between two finite limits that may enter is at the one that it leaves, and comes to rest
at the other. -/
theorem MayEnter.flip {l u : Rat} (h : s.MayEnter entering direction)
    (rests : (s.cell entering).Rests) (lower : (s.cell entering).lower = .finite l)
    (upper : (s.cell entering).upper = .finite u) (v : Rat) :
    let c := Cell.restAt (decide (0 < direction)) { s.cell entering with value := v }
    c.value = s.value entering + (u - l) * direction ∧ c.Rests := by
  unfold Cell.Rests at rests
  rcases h.way with ⟨up, place | place⟩ | ⟨down, place | place⟩
  · have rises : decide (0 < direction) = true := by rw [up]; rfl
    rw [place] at rests
    have here : l = s.value entering := ExtendedRat.finite.inj (lower.symm.trans rests)
    rw [rises, up, mul_one, ← here, add_sub_cancel]
    simp [Cell.restAt, Cell.Rests, upper, Limits.toScalar, ExtendedRat.toRat]
  · simp [place, lower] at rests
  · have falls : decide (0 < direction) = false := by rw [down]; rfl
    rw [place] at rests
    have here : u = s.value entering := ExtendedRat.finite.inj (upper.symm.trans rests)
    rw [falls, down, mul_neg_one, neg_sub, ← here, add_sub_cancel]
    simp [Cell.restAt, Cell.Rests, lower, Limits.toScalar, ExtendedRat.toRat]
  · simp [place, lower] at rests

/-- The columns that a ray moves are basic, so the others still rest. -/
theorem Coherent.rests_along (h : s.Coherent p box) {c : Column n m} (other : c ≠ entering)
    (admits : ∃ q, (s.cell c).Admits q) : (s.along entering direction alpha length c).Rests := by
  unfold along
  by_cases basic : (s.cell c).place = .basic
  · simp [Cell.Rests, basic]
  · have still : s.ray entering direction alpha c = 0 :=
      ray_other other fun k same => basic ((h.placed c).mpr ⟨k, same⟩)
    rw [still, mul_zero, add_zero]
    exact h.rests c admits

theorem restAt_nonbasic (toUpper : Bool) (c : Cell Rat ExtendedRat) :
    (c.restAt toUpper).place ≠ .basic := by
  cases toUpper <;> simp [Cell.restAt]

theorem apply_flip_frame (s : SimplexState Rat ExtendedRat n m) (entering : Column n m)
    (direction : Rat) (alpha : Vector Rat m) (length : Rat) :
    (s.apply entering direction alpha .flip length).signs = s.signs ∧
      (s.apply entering direction alpha .flip length).basic = s.basic ∧
      (s.apply entering direction alpha .flip length).inverse = s.inverse :=
  move_frame s entering direction alpha length

theorem cell_apply_flip (h : s.Coherent p box) (may : s.MayEnter entering direction)
    (nonneg : 0 ≤ length) (alpha : Vector Rat m) (c : Column n m) :
    (s.apply entering direction alpha .flip length).cell c =
      if entering = c then
        Cell.restAt (decide (0 < direction)) (s.along entering direction alpha length entering)
      else s.along entering direction alpha length c := by
  rw [apply, cell_modify, cell_move h.distinct (may.not_mem h) nonneg,
    cell_move h.distinct (may.not_mem h) nonneg]

/-- A column that goes from one of its limits to the other. -/
theorem Coherent.flip (h : s.Coherent p box) (may : s.MayEnter entering direction) {lowest : Bool}
    (product : ∀ i : Fin m, ∑ k : Fin m, s.basis p i k * alpha[k] = s.system p i entering)
    (stop : s.ratioTest entering direction alpha lowest = some (.flip, length)) :
    (s.apply entering direction alpha .flip length).Coherent p box := by
  obtain ⟨l, u, lower, upper, rfl⟩ := ratioTest_flip may.wide stop
  have nonneg : 0 ≤ u - l := by
    have wide := may.wide
    rw [lower, upper, ExtendedRat.finite_lt_finite] at wide
    linarith
  obtain ⟨arrives, still⟩ := may.flip (h.rests entering (Cell.admits_of_wide may.wide)) lower upper
    (s.value entering + (u - l) * s.ray entering direction alpha entering)
  have cells := cell_apply_flip h may nonneg alpha
  obtain ⟨signs, basic, inverse⟩ := apply_flip_frame s entering direction alpha (u - l)
  have keeps := keeps_apply (s := s) entering direction alpha .flip (u - l)
  generalize s.apply entering direction alpha .flip (u - l) = s' at cells signs basic inverse keeps ⊢
  refine ⟨h.limited.of_keeps keeps, ?_, ?_, ?_, ?_, ?_⟩
  · rw [basic]
    exact h.distinct
  · intro c
    rw [basic, cells c]
    split
    · rename_i same
      exact iff_of_false (restAt_nonbasic _ _) fun ⟨k, hk⟩ => may.not_mem h k (hk.trans same.symm)
    · exact h.placed c
  · intro c admits
    rw [cells c] at admits ⊢
    split at admits
    · rename_i same
      rw [if_pos same]
      exact still
    · rename_i other
      rw [if_neg other]
      exact h.rests_along (Ne.symm other) admits
  · rw [inverse, basis_congr signs basic, h.inverse]
  · intro fresh i
    have values (c : Column n m) :
        s'.value c = s.value c + (u - l) * s.ray entering direction alpha c := by
      unfold value
      rw [cells c]
      split
      · rename_i same
        subst same
        rw [ray_entering (may.not_mem h)]
        exact arrives
      · rfl
    rw [imbalance_of_ray signs product values]
    exact h.balanced (inverse ▸ fresh) i

/-! ## Exchanges -/

theorem apply_leave_frame (s : SimplexState Rat ExtendedRat n m) (entering : Column n m)
    (direction : Rat) (alpha : Vector Rat m) (position : Fin m) (toUpper : Bool) (length : Rat) :
    (s.apply entering direction alpha (.leave position toUpper) length).signs = s.signs ∧
      (s.apply entering direction alpha (.leave position toUpper) length).basic =
        s.basic.put position entering ∧
      (s.apply entering direction alpha (.leave position toUpper) length).inverse =
        s.inverse.pivot position alpha := by
  obtain ⟨signs, basic, inverse⟩ := move_frame s entering direction alpha length
  refine ⟨signs, ?_, ?_⟩
  · exact congrArg (·.put position entering) basic
  · exact congrArg (·.pivot position alpha) inverse

theorem cell_apply_leave (h : s.Coherent p box) (may : s.MayEnter entering direction)
    (nonneg : 0 ≤ length) (alpha : Vector Rat m) (position : Fin m) (toUpper : Bool)
    (c : Column n m) :
    (s.apply entering direction alpha (.leave position toUpper) length).cell c =
      if entering = c then { s.along entering direction alpha length c with place := .basic }
      else if s.basic[position] = c then
        Cell.restAt toUpper (s.along entering direction alpha length c)
      else s.along entering direction alpha length c := by
  have moved := cell_move h.distinct (may.not_mem h) nonneg direction alpha
  have basic : (s.move entering direction alpha length).basic = s.basic := (move_frame ..).2.1
  have apart := may.not_mem h position
  show ((((s.move entering direction alpha length).modify
    (s.move entering direction alpha length).basic[position] (Cell.restAt toUpper)).modify entering
      fun c => { c with place := .basic }).cell c) = _
  rw [cell_modify, cell_modify, cell_modify, basic, if_neg apart, moved, moved, moved]
  split
  · rename_i same
    rw [same]
  · split
    · rename_i same
      rw [same]
    · rfl

/-- A column that comes to rest at a finite limit. -/
theorem rests_restAt {toUpper : Bool} {c : Cell Rat ExtendedRat}
    (finite : Limits.isFinite (if toUpper then c.upper else c.lower) = true) :
    (c.restAt toUpper).Rests := by
  cases toUpper with
  | false => exact (Exact.finite_toScalar finite).symm
  | true => exact (Exact.finite_toScalar finite).symm

theorem getElem_set_basic (position k : Fin m) :
    (s.basic.put position entering)[k] = if k = position then entering else s.basic[k] := by
  split
  · rename_i same
    simp [same]
  · rename_i other
    simp [Ne.symm (Fin.val_ne_of_ne other)]

/-- The columns of the basis are still distinct after one that was not among them has entered. -/
theorem put_basic_injective (distinct : ∀ i k : Fin m, s.basic[i] = s.basic[k] → i = k)
    (nonbasic : ∀ k : Fin m, s.basic[k] ≠ entering) {position i k : Fin m}
    (same : (s.basic.put position entering)[i] = (s.basic.put position entering)[k]) : i = k := by
  rw [getElem_set_basic, getElem_set_basic] at same
  split_ifs at same with hi hk hk
  · rw [hi, hk]
  · exact absurd same.symm (nonbasic k)
  · exact absurd same (nonbasic i)
  · exact distinct i k same

/-- After an exchange the column that enters is in the basis, and all others but the one that leaves. -/
theorem mem_put_basic (distinct : ∀ i k : Fin m, s.basic[i] = s.basic[k] → i = k)
    {position : Fin m} {c : Column n m} :
    (∃ k : Fin m, (s.basic.put position entering)[k] = c) ↔
      entering = c ∨ s.basic[position] ≠ c ∧ ∃ k : Fin m, s.basic[k] = c := by
  constructor
  · rintro ⟨k, rfl⟩
    rw [getElem_set_basic]
    split
    · exact .inl rfl
    · rename_i other
      exact .inr ⟨fun same => other (distinct position k same).symm, k, rfl⟩
  · rintro (rfl | ⟨kept, k, rfl⟩)
    · exact ⟨position, by rw [getElem_set_basic, if_pos rfl]⟩
    · have other : k ≠ position := fun same => kept (same ▸ rfl)
      exact ⟨k, by rw [getElem_set_basic, if_neg other]⟩

theorem basis_leave {position : Fin m} (signs : s'.signs = s.signs)
    (basic : s'.basic = s.basic.put position entering) :
    s'.basis p = (s.basis p).updateCol position fun i => s.system p i entering := by
  ext i k
  rw [Matrix.updateCol_apply]
  unfold basis
  rw [system_congr signs, basic, getElem_set_basic]
  split <;> rfl

/-- A column that enters in the place of another. -/
theorem Coherent.leave (h : s.Coherent p box) (may : s.MayEnter entering direction) {lowest : Bool}
    {position : Fin m} {toUpper : Bool}
    (product : ∀ i : Fin m, alpha[i] = ∑ k, s.inverse.matrix i k * s.system p k entering)
    (stop : s.ratioTest entering direction alpha lowest =
      some (.leave position toUpper, length)) :
    (s.apply entering direction alpha (.leave position toUpper) length).Coherent p box := by
  obtain ⟨-, -, nonneg, towards⟩ := blocking?_spec (ratioTest_leave stop)
  have nonzero := coefficient_ne_zero (ratioTest_leave stop)
  have finite : Limits.isFinite (if toUpper then (s.cell s.basic[position]).upper
      else (s.cell s.basic[position]).lower) = true := by
    cases toUpper with
    | false => exact towards.2
    | true => exact towards.2
  have cells := cell_apply_leave h may nonneg alpha position toUpper
  obtain ⟨signs, basic, inverse⟩ :=
    apply_leave_frame s entering direction alpha position toUpper length
  have keeps := keeps_apply (s := s) entering direction alpha (.leave position toUpper) length
  generalize s.apply entering direction alpha (.leave position toUpper) length = s'
    at cells signs basic inverse keeps ⊢
  refine ⟨h.limited.of_keeps keeps, ?_, ?_, ?_, ?_, ?_⟩
  · rw [basic]
    exact fun _ _ => put_basic_injective h.distinct (may.not_mem h)
  · intro c
    rw [basic, cells c, mem_put_basic h.distinct]
    split
    · rename_i new
      exact iff_of_true rfl (.inl new)
    · rename_i new
      rw [or_iff_right new]
      split
      · rename_i old
        exact iff_of_false (restAt_nonbasic _ _) fun kept => kept.1 old
      · rename_i kept
        exact (h.placed c).trans (and_iff_right kept).symm
  · intro c admits
    rw [cells c] at admits ⊢
    split at admits
    · rename_i same
      rw [if_pos same]
      trivial
    · rename_i new
      rw [if_neg new]
      split at admits
      · rename_i old
        rw [if_pos old]
        subst old
        exact rests_restAt finite
      · rename_i kept
        rw [if_neg kept]
        exact h.rests_along (Ne.symm new) admits
  · rw [inverse, basis_leave signs basic]
    exact BasisInverse.pivot_mul h.inverse product nonzero
  · intro fresh
    rw [inverse] at fresh
    exact absurd fresh (Nat.succ_ne_zero _)

/-! ## Steps -/

/-- The coefficients of a column by the basis. -/
def coefficients (p : Relaxation Rat ExtendedRat n m) (s : SimplexState Rat ExtendedRat n m)
    (c : Column n m) : Vector Rat m :=
  s.inverse.ftran (s.entries p c)

/-- A column enters and is stopped after a length. -/
structure Takes (p : Relaxation Rat ExtendedRat n m) (t : Tolerance)
    (s : SimplexState Rat ExtendedRat n m) (e : Entrant Rat n m) (stopped : Step m) (length : Rat) :
    Prop where
  enters : s.price p t s.multipliers s.entersFirst = some e
  stops : s.ratioTest e.column e.direction (s.coefficients p e.column) s.entersFirst =
    some (stopped, length)

/-- The state after a column has entered and been stopped after a length. -/
def taken (p : Relaxation Rat ExtendedRat n m) (s : SimplexState Rat ExtendedRat n m)
    (e : Entrant Rat n m) (stopped : Step m) (length : Rat) : SimplexState Rat ExtendedRat n m :=
  (s.apply e.column e.direction (s.coefficients p e.column) stopped length).count length

theorem step_eq_inr : s.step p t = .inr s' ↔
    ∃ e stopped length, s.Takes p t e stopped length ∧ s' = s.taken p e stopped length := by
  constructor
  · intro h
    unfold step at h
    split at h
    · cases h
    · rename_i e enters
      dsimp only at h
      split at h
      · cases h
      · rename_i stopped length stops
        cases h
        exact ⟨e, stopped, length, ⟨enters, stops⟩, rfl⟩
  · rintro ⟨e, stopped, length, ⟨enters, stops⟩, rfl⟩
    unfold coefficients at stops
    unfold step
    rw [enters]
    dsimp only
    rw [stops]
    rfl

theorem Coherent.taken {e : Entrant Rat n m} {stopped : Step m} (h : s.Coherent p box)
    (rows : p.rows.Ordered) (columns : box.Ordered) (takes : s.Takes p t e stopped length) :
    (s.taken p e stopped length).Coherent p box := by
  have may := mayEnter_of_price (h.limited.ordered rows columns) takes.enters
  have applied : (s.apply e.column e.direction (s.coefficients p e.column) stopped
      length).Coherent p box := by
    cases stopped with
    | flip => exact h.flip may (basis_mul_ftran h.inverse e.column) takes.stops
    | leave position toUpper => exact h.leave may (BasisInverse.ftran_eq_sum _ _) takes.stops
  exact applied.of_same_cells rfl rfl rfl fun c => ⟨_, rfl⟩

/-- A step keeps a state coherent. -/
theorem Coherent.step (h : s.Coherent p box) (rows : p.rows.Ordered) (columns : box.Ordered)
    (step : s.step p t = .inr s') : s'.Coherent p box := by
  obtain ⟨e, stopped, length, takes, rfl⟩ := step_eq_inr.mp step
  exact h.taken rows columns takes

/-- Where a phase ends: no column enters, or nothing stops the one that does. A phase that fails may
end anywhere. -/
inductive Stop (p : Relaxation Rat ExtendedRat n m) (t : Tolerance)
    (s : SimplexState Rat ExtendedRat n m) : Ending → Prop
  | level (none : s.price p t s.multipliers s.entersFirst = none) : Stop p t s .optimal
  | free {e : Entrant Rat n m} (enters : s.price p t s.multipliers s.entersFirst = some e)
    (endless : s.ratioTest e.column e.direction (s.coefficients p e.column) s.entersFirst = none) :
    Stop p t s .unbounded
  | failed : Stop p t s .failed

theorem stop_of_step {ending : Ending} (h : s.step p t = .inl ending) : s.Stop p t ending := by
  unfold SimplexState.step at h
  split at h
  · rename_i level
    cases h
    exact .level level
  · rename_i e enters
    dsimp only at h
    split at h
    · rename_i endless
      cases h
      exact .free enters endless
    · cases h

end Milp.SimplexState
