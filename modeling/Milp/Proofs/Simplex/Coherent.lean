import Milp.Proofs.Simplex.Frame

/-!
# Coherent states

`SimplexState.Coherent` is what holds in every state of the simplex method: every column has the
limits that it should have, the basic columns are distinct and are the ones placed as basic, the
others rest where their place says, the inverse is one, and the rows are in balance while the inverse
is fresh.

Results:
1. `coherent_start`: the starting point is coherent.
2. `Coherent.of_same_values`: costs may change, and so may limits that nothing rests at.
3. `Coherent.closeArtificial`: so is the state between the phases.
-/

namespace Milp

variable {n m : Nat}

/-! ## Cells -/

namespace Cell

/-- A scalar is between the limits of a cell. -/
def Admits (c : Cell Rat ExtendedRat) (q : Rat) : Prop :=
  c.lower ≤ .finite q ∧ .finite q ≤ c.upper

/-- A cell that is not basic has the value that its place says. -/
def Rests (c : Cell Rat ExtendedRat) : Prop :=
  match c.place with
  | .basic => True
  | .atLower => c.lower = .finite c.value
  | .atUpper => c.upper = .finite c.value
  | .free => c.lower = .below ∧ c.upper = .above ∧ c.value = 0

/-- Between different limits there is a scalar. -/
theorem admits_of_wide {c : Cell Rat ExtendedRat} (wide : c.lower < c.upper) : ∃ q, c.Admits q := by
  unfold Admits
  cases hl : c.lower with
  | below =>
    cases hu : c.upper with
    | below => simp [hl, hu] at wide
    | finite u => exact ⟨u, by simp⟩
    | above => exact ⟨0, by simp⟩
  | finite l => exact ⟨l, le_rfl, (hl ▸ wide).le⟩
  | above => exact absurd (hl ▸ wide) (not_lt.mpr (ExtendedRat.le_above _))

end Cell

namespace SimplexState

variable {p : Relaxation Rat ExtendedRat n m} {box : Box ExtendedRat n} {t : Tolerance}
  {s s' : SimplexState Rat ExtendedRat n m}

/-- The columns have the limits of the box and of the rows, and artificial columns are not
negative. -/
structure Limited (p : Relaxation Rat ExtendedRat n m) (box : Box ExtendedRat n)
    (s : SimplexState Rat ExtendedRat n m) : Prop where
  structural : ∀ j : Fin n, (s.cell (.structural j)).lower = box.lower[j] ∧
    (s.cell (.structural j)).upper = box.upper[j]
  logical : ∀ i : Fin m, (s.cell (.logical i)).lower = p.rows.lower[i] ∧
    (s.cell (.logical i)).upper = p.rows.upper[i]
  artificial : ∀ i : Fin m, (s.cell (.artificial i)).lower = .finite 0 ∧
    ((s.cell (.artificial i)).upper = .above ∨ (s.cell (.artificial i)).upper = .finite 0)

/-- What holds in every state of the simplex method. -/
structure Coherent (p : Relaxation Rat ExtendedRat n m) (box : Box ExtendedRat n)
    (s : SimplexState Rat ExtendedRat n m) : Prop where
  limited : s.Limited p box
  distinct : ∀ i k : Fin m, s.basic[i] = s.basic[k] → i = k
  placed : ∀ c, (s.cell c).place = .basic ↔ ∃ k : Fin m, s.basic[k] = c
  rests : ∀ c, (∃ q, (s.cell c).Admits q) → (s.cell c).Rests
  inverse : s.inverse.matrix * s.basis p = 1
  balanced : s.inverse.updates = 0 → s.Balanced p

theorem Limited.ordered (h : s.Limited p box) (rows : p.rows.Ordered) (columns : box.Ordered)
    (c : Column n m) : (s.cell c).lower ≤ (s.cell c).upper := by
  cases c with
  | structural j =>
    rw [(h.structural j).1, (h.structural j).2]
    exact columns j
  | logical i =>
    rw [(h.logical i).1, (h.logical i).2]
    exact rows i
  | artificial i =>
    obtain ⟨lower, upper⟩ := h.artificial i
    rcases upper with upper | upper <;> simp [lower, upper]

theorem Limited.of_keeps (h : s.Limited p box) (keeps : s.Keeps s') : s'.Limited p box where
  structural j := by
    rw [(keeps.terms _).1, (keeps.terms _).2.1]
    exact h.structural j
  logical i := by
    rw [(keeps.terms _).1, (keeps.terms _).2.1]
    exact h.logical i
  artificial i := by
    rw [(keeps.terms _).1, (keeps.terms _).2.1]
    exact h.artificial i

/-! ## The start -/

theorem restingCell_rests {l u : ExtendedRat} (admits : ∃ q, l ≤ .finite q ∧ .finite q ≤ u) :
    (restingCell l u).Rests := by
  obtain ⟨q, hl, hu⟩ := admits
  cases l with
  | finite a => rfl
  | above => simp at hl
  | below =>
    cases u with
    | finite b => rfl
    | below => simp at hu
    | above => exact ⟨rfl, rfl, rfl⟩

/-- A row that the starting point keeps has its logical column in the basis, without an artificial
column. A row that it breaks has the logical column at the limit that is broken and the artificial
column in the basis. -/
inductive RowStart.Spec (l : ExtendedRat) (a : Rat) (u : ExtendedRat) : RowStart Rat ExtendedRat → Prop
  | kept : Spec l a u ⟨⟨l, u, a, 0, .basic⟩, ⟨.finite 0, .finite 0, 0, 0, .atLower⟩, none⟩
  | broken {target : Rat} {place : Place} (nonbasic : place ≠ .basic)
    (rests : (∃ q, l ≤ .finite q ∧ .finite q ≤ u) → Cell.Rests ⟨l, u, target, 0, place⟩) :
    Spec l a u ⟨⟨l, u, target, 0, place⟩, ⟨.finite 0, .above, |target - a|, 0, .basic⟩,
      some (Scalar.sign (target - a))⟩

/-- A scalar outside two limits is moved to one of them. -/
theorem limit_eq_moved {t : Tolerance} {l : ExtendedRat} {a : Rat} {u : ExtendedRat}
    (outside : t.isBetween l a u = false) (admits : ∃ q, l ≤ .finite q ∧ .finite q ≤ u) :
    l = .finite (Limits.lowerTo (Limits.raiseTo a l) u) ∨
      u = .finite (Limits.lowerTo (Limits.raiseTo a l) u) := by
  obtain ⟨q, hl, hu⟩ := admits
  have side : ¬ l ≤ .finite a ∨ ¬ ExtendedRat.finite a ≤ u := by
    by_contra both
    rw [not_or, not_not, not_not] at both
    simp [Tolerance.isBetween, Tolerance.isAtLeast, Tolerance.isAtMost, Scalar.isUndefined,
      both] at outside
  rcases side with below | above
  · refine .inl ?_
    cases l with
    | below => exact absurd (ExtendedRat.below_le _) below
    | above => simp at hl
    | finite b =>
      have less : a ≤ b := (not_le.mp fun h => below (ExtendedRat.finite_le_finite.mpr h)).le
      have raised : (Limits.raiseTo a (ExtendedRat.finite b) : Rat) = b := max_eq_right less
      rw [raised]
      cases u with
      | below => simp at hu
      | above => rfl
      | finite c =>
        have room : b ≤ c := by simpa using hl.trans hu
        exact congrArg _ (min_eq_left room).symm
  · refine .inr ?_
    cases u with
    | above => exact absurd (ExtendedRat.le_above _) above
    | below => simp at hu
    | finite b =>
      have less : b ≤ a := (not_le.mp fun h => above (ExtendedRat.finite_le_finite.mpr h)).le
      have raised : (Limits.raiseTo a l : Rat) = a := by
        cases l with
        | below => rfl
        | above => rfl
        | finite c =>
          have room : c ≤ b := by simpa using hl.trans hu
          exact max_eq_left (room.trans less)
      rw [raised]
      exact congrArg _ (min_eq_right less).symm

theorem RowStart.of_spec (t : Tolerance) (l : ExtendedRat) (a : Rat) (u : ExtendedRat) :
    RowStart.Spec l a u (.of t l a u) := by
  unfold RowStart.of
  dsimp only
  split
  · exact .kept
  · rename_i outside
    rw [Exact.abs_eq]
    refine .broken (by split <;> simp) ?_
    intro admits
    have limit := limit_eq_moved (Bool.eq_false_iff.mpr outside) admits
    unfold Cell.Rests
    dsimp only
    split <;> rename_i place
    · split at place <;> cases place
    · split at place
      · rename_i same
        exact (beq_iff_eq.mp same).symm
      · cases place
    · split at place
      · cases place
      · rename_i other
        exact limit.resolve_left fun h => other (beq_iff_eq.mpr h.symm)
    · split at place <;> cases place

theorem cell_start_structural (j : Fin n) :
    (start p box t).cell (.structural j) = restingCell box.lower[j] box.upper[j] := by
  simp [start, cell, Table.get]

/-- What the starting point has for a row. -/
theorem start_row (p : Relaxation Rat ExtendedRat n m) (box : Box ExtendedRat n) (t : Tolerance)
    (i : Fin m) :
    ∃ r, RowStart.Spec p.rows.lower[i] (activities p (start p box t).structuralValues)[i]
        p.rows.upper[i] r ∧
      (start p box t).cell (.logical i) = r.logical ∧
      (start p box t).cell (.artificial i) = r.artificial ∧
      (start p box t).signs[i] = r.sign ∧
      (start p box t).basic[i] = if r.sign.isSome then .artificial i else .logical i := by
  refine ⟨_, RowStart.of_spec t _ _ _, ?_, ?_, ?_, ?_⟩ <;>
    simp [start, cell, Table.get, structuralValues]

theorem limited_start : (start p box t).Limited p box where
  structural j := by
    rw [cell_start_structural]
    unfold restingCell
    split
    · exact ⟨rfl, rfl⟩
    · split <;> exact ⟨rfl, rfl⟩
  logical i := by
    obtain ⟨r, spec, logical, -⟩ := start_row p box t i
    rw [logical]
    cases spec <;> exact ⟨rfl, rfl⟩
  artificial i := by
    obtain ⟨r, spec, -, artificial, -⟩ := start_row p box t i
    rw [artificial]
    cases spec with
    | kept => exact ⟨rfl, .inr rfl⟩
    | broken => exact ⟨rfl, .inl rfl⟩

theorem balanced_start : (start p box t).Balanced p := by
  intro i
  obtain ⟨r, spec, logical, artificial, sign, -⟩ := start_row p box t i
  rw [imbalance_eq, value, value, logical, artificial, sign]
  cases spec with
  | kept => simp
  | @broken target =>
    have gap : Scalar.sign (target - (activities p (start p box t).structuralValues)[i]) *
        |target - (activities p (start p box t).structuralValues)[i]| =
          target - (activities p (start p box t).structuralValues)[i] := Exact.sign_mul_abs _
    simp only [Option.getD_some, gap]
    ring

/-- The place of a structural column at the start is not in the basis. -/
theorem restingCell_nonbasic (l u : ExtendedRat) :
    (restingCell l u : Cell Rat ExtendedRat).place ≠ .basic := by
  unfold restingCell
  split
  · simp
  · split <;> simp

theorem placed_start (c : Column n m) :
    ((start p box t).cell c).place = .basic ↔ ∃ k : Fin m, (start p box t).basic[k] = c := by
  cases c with
  | structural j =>
    rw [cell_start_structural]
    refine iff_of_false (restingCell_nonbasic _ _) ?_
    rintro ⟨k, hk⟩
    obtain ⟨r, spec, -, -, -, basic⟩ := start_row p box t k
    rw [basic] at hk
    split at hk <;> cases hk
  | logical i =>
    obtain ⟨r, spec, logical, -, -, basic⟩ := start_row p box t i
    rw [logical]
    cases spec with
    | kept => exact iff_of_true rfl ⟨i, basic⟩
    | broken nonbasic rests =>
      refine iff_of_false nonbasic ?_
      rintro ⟨k, hk⟩
      obtain ⟨r', -, -, -, -, basic'⟩ := start_row p box t k
      rw [basic'] at hk
      split at hk <;> cases hk
      rw [basic] at basic'
      simp_all
  | artificial i =>
    obtain ⟨r, spec, -, artificial, -, basic⟩ := start_row p box t i
    rw [artificial]
    cases spec with
    | kept =>
      refine iff_of_false (by simp) ?_
      rintro ⟨k, hk⟩
      obtain ⟨r', -, -, -, -, basic'⟩ := start_row p box t k
      rw [basic'] at hk
      split at hk <;> cases hk
      rw [basic] at basic'
      simp_all
    | broken => exact iff_of_true rfl ⟨i, basic⟩

theorem rests_start (c : Column n m) (admits : ∃ q, ((start p box t).cell c).Admits q) :
    ((start p box t).cell c).Rests := by
  cases c with
  | structural j =>
    obtain ⟨q, lower, upper⟩ := admits
    rw [(limited_start.structural j).1] at lower
    rw [(limited_start.structural j).2] at upper
    rw [cell_start_structural]
    exact restingCell_rests ⟨q, lower, upper⟩
  | logical i =>
    obtain ⟨r, spec, logical, -⟩ := start_row p box t i
    rw [logical] at admits ⊢
    cases spec with
    | kept => trivial
    | broken nonbasic rests => exact rests admits
  | artificial i =>
    obtain ⟨r, spec, -, artificial, -⟩ := start_row p box t i
    rw [artificial]
    cases spec with
    | kept => exact rfl
    | broken => trivial

/-- The diagonal of the basis of the starting point. -/
def startDiagonal (s : SimplexState Rat ExtendedRat n m) : Vector Rat m :=
  s.signs.map (·.getD (-1))

theorem startDiagonal_ne_zero (i : Fin m) : (start p box t).startDiagonal[i] ≠ 0 := by
  obtain ⟨r, spec, -, -, sign, -⟩ := start_row p box t i
  simp only [startDiagonal, Vector.getElem_coordinate, Vector.getElem_map] at sign ⊢
  rw [sign]
  cases spec with
  | kept => simp
  | broken => exact Exact.sign_ne_zero _

theorem basis_start : (start p box t).basis p =
    Matrix.diagonal fun i : Fin m => (start p box t).startDiagonal[i] := by
  ext i k
  obtain ⟨r, spec, -, -, sign, basic⟩ := start_row p box t k
  unfold basis
  rw [basic, Matrix.diagonal_apply]
  simp only [startDiagonal, Vector.getElem_coordinate, Vector.getElem_map] at sign ⊢
  by_cases same : i = k
  · subst same
    rw [if_pos rfl, sign]
    cases spec with
    | kept => simp [system_logical]
    | broken => simp [system_artificial, sign]
  · rw [if_neg same]
    cases spec with
    | kept => simp [system_logical, Ne.symm same]
    | broken => simp [system_artificial, Ne.symm same]

theorem inverse_start :
    (start p box t).inverse.matrix * (start p box t).basis p = 1 := by
  have diagonal : (start p box t).inverse = .diagonal (start p box t).startDiagonal := by
    simp [start, startDiagonal, Function.comp_def]
  rw [diagonal, basis_start]
  exact BasisInverse.diagonal_mul startDiagonal_ne_zero

/-- The starting point is coherent. -/
theorem coherent_start (p : Relaxation Rat ExtendedRat n m) (box : Box ExtendedRat n)
    (t : Tolerance) : (start p box t).Coherent p box where
  limited := limited_start
  distinct i k h := by
    obtain ⟨r, -, -, -, -, basic⟩ := start_row p box t i
    obtain ⟨r', -, -, -, -, basic'⟩ := start_row p box t k
    rw [basic, basic'] at h
    split at h <;> split at h <;> cases h <;> rfl
  placed := placed_start
  rests := rests_start
  inverse := inverse_start
  balanced _ := balanced_start

/-! ## Between the phases -/

theorem basis_congr (signs : s'.signs = s.signs) (basic : s'.basic = s.basic) :
    s'.basis p = s.basis p := by
  unfold basis
  rw [system_congr signs, basic]

/-- Coherence depends on costs in no way, and on limits only where a column rests. -/
theorem Coherent.of_same_values (h : s.Coherent p box) (signs : s'.signs = s.signs)
    (basic : s'.basic = s.basic) (inverse : s'.inverse = s.inverse)
    (values : ∀ c, s'.value c = s.value c)
    (places : ∀ c, (s'.cell c).place = .basic ↔ (s.cell c).place = .basic)
    (limited : s'.Limited p box)
    (rests : ∀ c, (∃ q, (s'.cell c).Admits q) → (s'.cell c).Rests) : s'.Coherent p box where
  limited := limited
  distinct := by simpa only [basic] using h.distinct
  placed c := by simpa only [basic, places c] using h.placed c
  rests := rests
  inverse := by rw [inverse, basis_congr signs basic, h.inverse]
  balanced fresh i := by
    rw [inverse] at fresh
    rw [imbalance_congr signs values]
    exact h.balanced fresh i

theorem Coherent.of_same_cells (h : s.Coherent p box) (signs : s'.signs = s.signs)
    (basic : s'.basic = s.basic) (inverse : s'.inverse = s.inverse)
    (cells : ∀ c, ∃ cost, s'.cell c = { s.cell c with cost }) : s'.Coherent p box := by
  refine h.of_same_values signs basic inverse (fun c => ?_) (fun c => ?_)
    ⟨fun j => ?_, fun i => ?_, fun i => ?_⟩ fun c admits => ?_
  · obtain ⟨cost, hc⟩ := cells c
    rw [value, hc, value]
  · obtain ⟨cost, hc⟩ := cells c
    rw [hc]
  · obtain ⟨cost, hc⟩ := cells (.structural j)
    rw [hc]
    exact h.limited.structural j
  · obtain ⟨cost, hc⟩ := cells (.logical i)
    rw [hc]
    exact h.limited.logical i
  · obtain ⟨cost, hc⟩ := cells (.artificial i)
    rw [hc]
    exact h.limited.artificial i
  · obtain ⟨cost, hc⟩ := cells c
    rw [hc] at admits ⊢
    exact h.rests c admits

theorem Coherent.forFeasibility (h : s.Coherent p box) : s.forFeasibility.Coherent p box := by
  refine h.of_same_cells rfl rfl rfl ?_
  intro c
  cases c with
  | structural j => exact ⟨_, rfl⟩
  | logical i => exact ⟨_, rfl⟩
  | artificial i => exact ⟨1, by simp [SimplexState.forFeasibility, cell, Table.get]⟩

theorem Coherent.forCost (h : s.Coherent p box) : (s.forCost p).Coherent p box := by
  refine h.of_same_cells rfl rfl rfl ?_
  intro c
  cases c with
  | structural j => exact ⟨p.cost[j], by simp [SimplexState.forCost, cell, Table.get]⟩
  | logical i => exact ⟨_, rfl⟩
  | artificial i => exact ⟨_, rfl⟩

theorem Limited.admits_zero (h : s.Limited p box) (i : Fin m) :
    (s.cell (.artificial i)).Admits 0 := by
  obtain ⟨lower, upper⟩ := h.artificial i
  unfold Cell.Admits
  rcases upper with upper | upper <;> simp [lower, upper]

/-- An artificial column that is not basic is zero. -/
theorem Coherent.value_artificial (h : s.Coherent p box) {i : Fin m}
    (nonbasic : (s.cell (.artificial i)).place ≠ .basic) : s.value (.artificial i) = 0 := by
  have rests := h.rests _ ⟨0, h.limited.admits_zero i⟩
  obtain ⟨lower, upper⟩ := h.limited.artificial i
  unfold Cell.Rests at rests
  unfold value
  split at rests
  · exact absurd ‹_› nonbasic
  · exact (ExtendedRat.finite.inj (lower.symm.trans rests)).symm
  · rcases upper with upper | upper
    · rw [upper] at rests
      cases rests
    · exact (ExtendedRat.finite.inj (upper.symm.trans rests)).symm
  · rw [lower] at rests
    exact nomatch rests.1

theorem cell_closeArtificial (i : Fin m) :
    s.closeArtificial.cell (.artificial i) = (s.cell (.artificial i)).close := by
  simp [closeArtificial, cell, Table.get]

/-- Between the phases the artificial columns get the upper limit zero, which those that are not
basic keep already. -/
theorem Coherent.closeArtificial (h : s.Coherent p box) : s.closeArtificial.Coherent p box := by
  have closed (i : Fin m) : (s.closeArtificial.cell (.artificial i)).lower = .finite 0 ∧
      (s.closeArtificial.cell (.artificial i)).upper = .finite 0 := by
    rw [cell_closeArtificial]
    unfold Cell.close
    dsimp only
    split <;> exact ⟨(h.limited.artificial i).1, rfl⟩
  refine h.of_same_values rfl rfl rfl (fun c => ?_) (fun c => ?_)
    ⟨h.limited.structural, h.limited.logical, fun i => ⟨(closed i).1, .inr (closed i).2⟩⟩
    fun c admits => ?_
  · cases c with
    | structural | logical => rfl
    | artificial i =>
      rw [value, cell_closeArtificial]
      unfold Cell.close
      dsimp only
      split
      · rfl
      · exact (h.value_artificial ‹_›).symm
  · cases c with
    | structural | logical => rfl
    | artificial i =>
      rw [cell_closeArtificial]
      unfold Cell.close
      dsimp only
      split
      · rfl
      · exact iff_of_false (by simp) ‹_›
  · cases c with
    | structural j => exact h.rests (.structural j) admits
    | logical i => exact h.rests (.logical i) admits
    | artificial i =>
      have lower := (closed i).1
      rw [cell_closeArtificial] at lower ⊢
      unfold Cell.close at lower ⊢
      dsimp only at lower ⊢
      split at lower
      · rename_i basic
        simp [Cell.Rests, basic]
      · rename_i nonbasic
        simpa [Cell.Rests, nonbasic] using lower

end SimplexState

end Milp
