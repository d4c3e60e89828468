import Milp.Proofs.Simplex.Run
import Milp.Proofs.Simplex.Verdict

/-!
# Linear programs without rows

Without rows the simplex method has nothing to pivot on. It starts with every column at its lower
limit, and a step flips one column to its upper limit: the steepest of those whose cost falls by more
than the tolerance. So it ends at a corner of the box that is known beforehand.

Results:
1. `costOf_corner_zero_le`, `costOf_corner_le`: the corner at a cutoff of zero costs least, and that at
   a cutoff below zero costs little more.
2. `Flipping.flip`, `Flipping.corner_of_level`: a step flips one column that waits for it, or no column
   enters and the values are those of the corner.
3. `Flipping.runPhase`: with more steps than columns that wait, a phase ends optimal at the corner.
4. `solveWithin_corner`: the verdict about a box is its corner.
-/

namespace Milp

variable {n m : Nat}

/-! ## Corners -/

namespace Box

variable {box : Box ExtendedRat n}

theorem Finite.admits_iff (h : box.Finite) {j : Fin n} {q : Rat} :
    box.Admits j q ↔ box.lower[j].toRat ≤ q ∧ q ≤ box.upper[j].toRat := by
  rw [Admits, h.lower j, h.upper j, ExtendedRat.finite_le_finite, ExtendedRat.finite_le_finite]
  rfl

theorem Finite.ordered_iff (h : box.Finite) :
    box.Ordered ↔ ∀ j : Fin n, box.lower[j].toRat ≤ box.upper[j].toRat := by
  refine forall_congr' fun j => ?_
  rw [h.lower j, h.upper j, ExtendedRat.finite_le_finite]
  rfl

/-- The sum of the distances between the limits of the columns. -/
def extent (box : Box ExtendedRat n) : Rat :=
  ∑ j : Fin n, (box.upper[j].toRat - box.lower[j].toRat)

end Box

namespace Relaxation

variable {p : Relaxation Rat ExtendedRat n m} {box : Box ExtendedRat n} {z : Vector Rat n}

/-- The corner of a box that has the upper limits of the columns whose cost is below a cutoff, and the
lower limits of the others. -/
def corner (p : Relaxation Rat ExtendedRat n m) (box : Box ExtendedRat n) (cutoff : Rat) :
    Vector Rat n :=
  .ofFn fun j => if p.cost[j] < cutoff then box.upper[j].toRat else box.lower[j].toRat

@[simp]
theorem getElem_corner (p : Relaxation Rat ExtendedRat n m) (box : Box ExtendedRat n) (cutoff : Rat)
    (j : Fin n) : (p.corner box cutoff)[j] =
      if p.cost[j] < cutoff then box.upper[j].toRat else box.lower[j].toRat := by
  simp [corner]

theorem holds_corner (p : Relaxation Rat ExtendedRat n m) (finite : box.Finite)
    (ordered : box.Ordered) (cutoff : Rat) : box.Holds (p.corner box cutoff) := by
  intro j
  have order := finite.ordered_iff.mp ordered j
  rw [finite.admits_iff, getElem_corner]
  split
  · exact ⟨order, le_rfl⟩
  · exact ⟨le_rfl, order⟩

/-- The corner at a cutoff of zero costs least. -/
theorem costOf_corner_zero_le (finite : box.Finite) (inside : box.Holds z) :
    p.costOf (p.corner box 0).toList ≤ p.costOf z.toList := by
  rw [costOf_eq_sum, costOf_eq_sum]
  refine Finset.sum_le_sum fun j _ => ?_
  obtain ⟨lower, upper⟩ := finite.admits_iff.mp (inside j)
  rw [getElem_corner]
  split
  · rename_i falls
    exact mul_le_mul_of_nonpos_left upper falls.le
  · rename_i rises
    exact mul_le_mul_of_nonneg_left lower (not_lt.mp rises)

/-- A cutoff a little below zero costs no more than that for every unit of length of the box. -/
theorem costOf_corner_le (finite : box.Finite) (ordered : box.Ordered) {e : Rat} (nonneg : 0 ≤ e) :
    p.costOf (p.corner box (-e)).toList ≤
      p.costOf (p.corner box 0).toList + e * box.extent := by
  rw [costOf_eq_sum, costOf_eq_sum, Box.extent, Finset.mul_sum, ← Finset.sum_add_distrib]
  refine Finset.sum_le_sum fun j _ => ?_
  have length := sub_nonneg.mpr (finite.ordered_iff.mp ordered j)
  rw [getElem_corner, getElem_corner]
  by_cases steep : p.cost[j] < -e
  · -- both corners have the upper limit
    rw [if_pos steep, if_pos (steep.trans_le (neg_nonpos.mpr nonneg))]
    exact le_add_of_nonneg_right (mul_nonneg nonneg length)
  · rw [if_neg steep]
    by_cases falls : p.cost[j] < 0
    · rw [if_pos falls]
      have shallow := mul_le_mul_of_nonneg_right (neg_le.mp (not_lt.mp steep)) length
      linarith
    · rw [if_neg falls]
      exact le_add_of_nonneg_right (mul_nonneg nonneg length)

end Relaxation

/-! ## Flips -/

namespace SimplexState

variable {p : Relaxation Rat ExtendedRat n m} {box : Box ExtendedRat n} {t : Tolerance}
  {s s' : SimplexState Rat ExtendedRat n m} {e : Entrant Rat n m} {i j : Fin n} {left limit : Nat}

/-- A state on the way to the corner: a column has left its lower limit only if its cost falls by more
than the tolerance. -/
structure Flipping (p : Relaxation Rat ExtendedRat n m) (box : Box ExtendedRat n) (t : Tolerance)
    (s : SimplexState Rat ExtendedRat n m) : Prop where
  coherent : s.Coherent p box
  costs : s.SecondPhase p
  fresh : s.inverse.updates = 0
  raised : ∀ j : Fin n, (s.cell (.structural j)).place = .atUpper → p.cost[j] < -t.absolute

/-- The columns that wait for their flip. -/
def waiting (p : Relaxation Rat ExtendedRat n m) (t : Tolerance)
    (s : SimplexState Rat ExtendedRat n m) : Finset (Fin n) :=
  {j | p.cost[j] < -t.absolute ∧ (s.cell (.structural j)).place = .atLower}

theorem mem_waiting : j ∈ s.waiting p t ↔
    p.cost[j] < -t.absolute ∧ (s.cell (.structural j)).place = .atLower := by
  simp [waiting]

/-- A column that is flipped does not wait any more, and the others do as before. -/
theorem waiting_of_places (places : ∀ i : Fin n, (s'.cell (.structural i)).place =
    if i = j then .atUpper else (s.cell (.structural i)).place) :
    s'.waiting p t = (s.waiting p t).erase j := by
  ext i
  rw [Finset.mem_erase, mem_waiting, mem_waiting, places]
  by_cases same : i = j <;> simp [same]

theorem Coherent.finite_limits (h : s.Coherent p box) (finite : box.Finite) (j : Fin n) :
    (s.cell (.structural j)).lower = .finite box.lower[j].toRat ∧
      (s.cell (.structural j)).upper = .finite box.upper[j].toRat := by
  obtain ⟨lower, upper⟩ := h.limited.structural j
  exact ⟨lower.trans (finite.lower j), upper.trans (finite.upper j)⟩

/-- The place of the flipped column changes, and no other. -/
theorem place_flip (coherent : s.Coherent p box) {direction : Rat} {alpha : Vector Rat m}
    {length : Rat} (may : s.MayEnter (.structural j) direction) (up : direction = 1)
    (nonneg : 0 ≤ length) (i : Fin n) :
    ((s.apply (.structural j) direction alpha .flip length).cell (.structural i)).place =
      if i = j then .atUpper else (s.cell (.structural i)).place := by
  rw [cell_apply_flip coherent may nonneg, up]
  by_cases same : i = j
  · rw [same, if_pos rfl, if_pos rfl]
    rfl
  · rw [if_neg fun eq => same (Column.structural.inj eq).symm, if_neg same]
    rfl

/-! ## States without rows -/

section NoRows

variable [IsEmpty (Fin m)]

theorem finRange_eq_nil : List.finRange m = [] :=
  List.eq_nil_iff_forall_not_mem.mpr fun i => isEmptyElim i

theorem reducedCost_eq_cost (y : Vector Rat m) (c : Column n m) :
    s.reducedCost p y c = s.cost c := by
  rw [reducedCost_eq, Finset.univ_eq_empty, Finset.sum_empty, sub_zero]

theorem artificialCount_eq_zero : s.artificialCount = 0 := by
  refine List.countP_eq_zero.mpr fun a mem => ?_
  obtain ⟨i, hi, -⟩ := List.mem_iff_getElem.mp mem
  exact isEmptyElim (⟨i, by simpa using hi⟩ : Fin m)

theorem Coherent.nonbasic (h : s.Coherent p box) (c : Column n m) : (s.cell c).place ≠ .basic :=
  fun basic => isEmptyElim ((h.placed c).mp basic).choose

/-- Nothing stops a column before its other limit. -/
theorem ratioTest_eq_flip {c : Column n m} {l u : Rat} (lower : (s.cell c).lower = .finite l)
    (upper : (s.cell c).upper = .finite u) (direction : Rat) (alpha : Vector Rat m) (lowest : Bool) :
    s.ratioTest c direction alpha lowest = some (.flip, u - l) := by
  have free : s.firstBlocking direction alpha lowest = none := by
    rw [firstBlocking_eq, finRange_eq_nil]
    rfl
  unfold ratioTest
  rw [free, lower, upper]
  rfl

variable (finite : box.Finite) (ordered : box.Ordered)

include finite ordered

/-- A column rests at one of its limits. -/
theorem Coherent.rests_at_limit (h : s.Coherent p box) (j : Fin n) :
    (s.cell (.structural j)).place = .atLower ∧ s.value (.structural j) = box.lower[j].toRat ∨
      (s.cell (.structural j)).place = .atUpper ∧
        s.value (.structural j) = box.upper[j].toRat := by
  obtain ⟨lower, upper⟩ := h.finite_limits finite j
  have rests : (s.cell (.structural j)).Rests := by
    refine h.rests _ ⟨box.lower[j].toRat, ?_⟩
    rw [Cell.Admits, lower, upper, ExtendedRat.finite_le_finite, ExtendedRat.finite_le_finite]
    exact ⟨le_rfl, finite.ordered_iff.mp ordered j⟩
  unfold Cell.Rests at rests
  cases place : (s.cell (.structural j)).place with
  | basic => exact absurd place (h.nonbasic _)
  | atLower =>
    rw [place] at rests
    exact .inl ⟨rfl, (ExtendedRat.finite.inj (lower.symm.trans rests)).symm⟩
  | atUpper =>
    rw [place] at rests
    exact .inr ⟨rfl, (ExtendedRat.finite.inj (upper.symm.trans rests)).symm⟩
  | free =>
    rw [place] at rests
    exact nomatch lower.symm.trans rests.1

/-- Where no column enters, the values are those of the corner. -/
theorem Flipping.corner_of_level (h : s.Flipping p box t)
    (level : s.price p t s.multipliers s.entersFirst = none) (j : Fin n) :
    s.value (.structural j) = (p.corner box (-t.absolute))[j] := by
  obtain ⟨lower, upper⟩ := h.coherent.finite_limits finite j
  rw [Relaxation.getElem_corner]
  rcases h.coherent.rests_at_limit finite ordered j with ⟨place, value⟩ | ⟨place, value⟩
  · split
    · rename_i falls
      -- the cost falls and yet the column does not enter, so its limits are the same
      have fixed : (s.cell (.structural j)).lower = (s.cell (.structural j)).upper := by
        by_contra wide
        have rises := (entrant?_eq_none (entrant?_of_price_eq_none level _)
          (h.coherent.nonbasic _) wide).1 (.inl place)
        rw [reducedCost_eq_cost, h.costs.structural] at rises
        exact absurd falls (not_lt.mpr rises)
      rw [lower, upper] at fixed
      exact value.trans (ExtendedRat.finite.inj fixed)
    · exact value
  · rw [if_pos (h.raised j place)]
    exact value

/-- The column that enters is one that waits, and it rises. -/
theorem Flipping.waits_of_price (h : s.Flipping p box t)
    (enters : s.price p t s.multipliers s.entersFirst = some e) :
    ∃ j, e.column = .structural j ∧ e.direction = 1 ∧ j ∈ s.waiting p t := by
  obtain ⟨-, -, -, way⟩ := entrant?_spec (entrant?_of_price enters)
  cases column : e.column with
  | logical i | artificial i => exact isEmptyElim i
  | structural j =>
    rw [column, reducedCost_eq_cost, h.costs.structural] at way
    have positive := t.absolute_pos
    rcases h.coherent.rests_at_limit finite ordered j with ⟨place, -⟩ | ⟨place, -⟩
    · rcases way with ⟨up, falls, -⟩ | ⟨-, -, away | away⟩
      · exact ⟨j, rfl, up, mem_waiting.mpr ⟨falls, place⟩⟩
      · exact nomatch place.symm.trans away
      · exact nomatch place.symm.trans away
    · -- a column that has been raised has a cost below zero, so it does not come back
      have falls := h.raised j place
      rcases way with ⟨-, -, away | away⟩ | ⟨-, rises, -⟩
      · exact nomatch place.symm.trans away
      · exact nomatch place.symm.trans away
      · linarith

/-- Where a column enters, a step flips one that waits. -/
theorem Flipping.flip (h : s.Flipping p box t)
    (enters : s.price p t s.multipliers s.entersFirst = some e) :
    ∃ s', s.step p t = .inr s' ∧ s'.Flipping p box t ∧
      (s'.waiting p t).card < (s.waiting p t).card := by
  have rows : p.rows.Ordered := fun i => isEmptyElim i
  obtain ⟨j, column, up, waits⟩ := h.waits_of_price finite ordered enters
  obtain ⟨lower, upper⟩ := h.coherent.finite_limits finite j
  have takes : s.Takes p t e .flip (box.upper[j].toRat - box.lower[j].toRat) :=
    ⟨enters, column ▸ ratioTest_eq_flip lower upper ..⟩
  have steps := step_eq_inr.mpr ⟨e, _, _, takes, rfl⟩
  have may := mayEnter_of_price (h.coherent.limited.ordered rows ordered) enters
  have nonneg := sub_nonneg.mpr (finite.ordered_iff.mp ordered j)
  have places (i : Fin n) : ((s.taken p e .flip (box.upper[j].toRat -
      box.lower[j].toRat)).cell (.structural i)).place =
        if i = j then .atUpper else (s.cell (.structural i)).place := by
    rw [column] at may
    unfold taken
    rw [column]
    exact place_flip h.coherent may up nonneg i
  have fewer := waiting_of_places (p := p) (t := t) places
  have coherent := h.coherent.taken rows ordered takes
  have costs := h.costs.of_keeps (keeps_step steps)
  refine ⟨_, steps, ⟨coherent, costs, ?_, ?_⟩, ?_⟩
  · exact (congrArg BasisInverse.updates (apply_flip_frame ..).2.2).trans h.fresh
  · intro i place
    rw [places] at place
    split at place
    · rename_i same
      exact same ▸ (mem_waiting.mp waits).1
    · exact h.raised i place
  · rw [fewer]
    exact Finset.card_erase_lt_of_mem waits

/-! ## Phases -/

/-- With more steps than columns that wait, a phase ends optimal at the corner. -/
theorem Flipping.runPhase (h : s.Flipping p box t) (enough : (s.waiting p t).card < left) :
    ∃ s', s.runPhase p t left = (.optimal, s') ∧ s'.inverse.updates = 0 ∧
      ∀ j : Fin n, s'.value (.structural j) = (p.corner box (-t.absolute))[j] := by
  induction left generalizing s with
  | zero => exact absurd enough (Nat.not_lt_zero _)
  | succ left ih =>
    have fresh : s.refresh? p = some s := by
      unfold refresh?
      rw [h.fresh]
      rfl
    unfold SimplexState.runPhase
    rw [fresh]
    dsimp only
    -- a step that is left is used for a column that waits, and there are more steps than those
    cases enters : s.price p t s.multipliers s.entersFirst with
    | none =>
      have ends : s.step p t = .inl .optimal := by
        unfold SimplexState.step
        rw [enters]
      rw [ends]
      exact ⟨s, rfl, h.fresh, h.corner_of_level finite ordered enters⟩
    | some e =>
      obtain ⟨s', steps, flipping, fewer⟩ := h.flip finite ordered enters
      rw [steps]
      exact ih flipping (by omega)

omit ordered in
/-- The second phase starts with every column at its lower limit. -/
theorem flipping_start : ((start p box t).forCost p).Flipping p box t where
  coherent := (coherent_start p box t).forCost
  costs :=
    secondPhase_forCost (fun i => isEmptyElim i) (fun i => isEmptyElim i) fun i => isEmptyElim i
  fresh := rfl
  raised j place := by
    have cell : ((start p box t).forCost p).cell (.structural j) =
        { (start p box t).cell (.structural j) with cost := p.cost[j] } := by
      simp [forCost, SimplexState.cell, Table.get]
    rw [cell, cell_start_structural] at place
    unfold restingCell at place
    rw [if_pos (finite j).1] at place
    cases place

/-- With more iterations than columns whose cost falls by more than the tolerance, the method ends
optimal at the corner. -/
theorem run_start (enough : Finset.card {j : Fin n | p.cost[j] < -t.absolute} < limit) :
    ∃ s', (start p box t).run p t limit = (.optimal, s') ∧
      ∀ j : Fin n, s'.value (.structural j) = (p.corner box (-t.absolute))[j] := by
  have fewer : (((start p box t).forCost p).waiting p t).card <
      limit - (start p box t).iterations :=
    (Finset.card_le_card (Finset.monotone_filter_right _ fun j _ h => h.1)).trans_lt enough
  obtain ⟨s', phase, fresh, values⟩ :=
    (flipping_start (p := p) (t := t) finite).runPhase finite ordered fewer
  refine ⟨s', ?_, values⟩
  unfold SimplexState.run reachFeasibility
  -- the first phase is left out, and the inverse is that of the start, so it is not computed anew
  rw [if_pos artificialCount_eq_zero]
  dsimp only
  unfold minimise
  rw [phase]
  dsimp only
  rw [if_neg (by omega)]

end NoRows

end SimplexState

/-! ## Verdicts -/

/-- Without rows, and with more iterations than columns whose cost falls by more than the tolerance,
the optimum of a box is its corner. -/
theorem Relaxation.solveWithin_corner [IsEmpty (Fin m)] {p : Relaxation Rat ExtendedRat n m}
    {box : Box ExtendedRat n} (finite : box.Finite) (ordered : box.Ordered) {t : Tolerance}
    {limit : Nat} (enough : Finset.card {j : Fin n | p.cost[j] < -t.absolute} < limit) :
    (p.solveWithin t limit box).verdict =
      .optimal (p.objectiveOf (p.corner box (-t.absolute)).toList)
        (p.corner box (-t.absolute)) := by
  obtain ⟨s, run, values⟩ := SimplexState.run_start (p := p) finite ordered enough
  have inside := p.holds_corner finite ordered (-t.absolute)
  have corner : s.valuesWithin box = p.corner box (-t.absolute) := by
    ext j hj
    have value := values ⟨j, hj⟩
    obtain ⟨lower, upper⟩ := inside ⟨j, hj⟩
    rw [← value] at lower upper
    refine Eq.trans ?_ value
    simp only [SimplexState.valuesWithin, Vector.getElem_ofFn]
    exact Exact.clamp_of_mem lower upper
  have verdict := (p.solveWithin_verdict t limit box).resolve_left fun h => h.1 ordered
  rw [verdict.2, run, Relaxation.verdict, corner]

end Milp
