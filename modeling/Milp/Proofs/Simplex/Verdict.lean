import Milp.Proofs.Simplex.Point

/-!
# Verdicts of the simplex method

An answer that there is no solution comes with multipliers of the rows, an answer that the cost has no
limit with a ray. Both are proofs as far as the cut-offs of the method let nothing pass.

Results:
1. `outOfReach_of_feasible`: where the first phase gives up, every feasible point is out of reach.
2. `cost_unlimited`: a ray for which no position is overlooked leads from any feasible point to
   feasible points of any cost.
3. `verdict_up_to_cutoffs`: the verdicts of a run.
-/

namespace Milp

variable {n m : Nat} {p : Relaxation Rat ExtendedRat n m} {box : Box ExtendedRat n} {t : Tolerance}
  {s : SimplexState Rat ExtendedRat n m} {z : Vector Rat n} {limit : Nat} {c : Column n m} {q : Rat}

namespace SimplexState

/-! ## Multipliers -/

/-- How far the reduced cost of a column goes against its place. Pricing puts up with as much as the
absolute tolerance. -/
def excess (p : Relaxation Rat ExtendedRat n m) (s : SimplexState Rat ExtendedRat n m)
    (c : Column n m) : Rat :=
  let d := s.reducedCost p s.multipliers c
  if (s.cell c).lower = (s.cell c).upper then 0
  else match (s.cell c).place with
    | .basic => 0
    | .atLower => max (-d) 0
    | .atUpper => max d 0
    | .free => |d|

theorem excess_nonneg (c : Column n m) : 0 ≤ s.excess p c := by
  unfold excess
  dsimp only
  split
  · exact le_rfl
  · split
    · exact le_rfl
    · exact le_max_right _ _
    · exact le_max_right _ _
    · exact abs_nonneg _

theorem excess_le (stop : s.Stop p t .optimal) (c : Column n m) : s.excess p c ≤ t.absolute := by
  have nonneg : (0 : Rat) ≤ t.absolute := t.absolute_pos.le
  cases stop with
  | level none =>
    unfold excess
    dsimp only
    split
    · exact nonneg
    · rename_i wide
      split
      · exact nonneg
      all_goals
        rename_i place
        obtain ⟨rises, falls⟩ := entrant?_eq_none (entrant?_of_price_eq_none none c)
          (by simp [place]) wide
        simp only [place, reduceCtorEq, or_false, or_true, forall_const] at rises falls
      · exact max_le (neg_le.mp rises) nonneg
      · exact max_le falls nonneg
      · exact abs_le.mpr ⟨rises, falls⟩

theorem mul_sub_le_of_le (d : Rat) {x : Rat} (h : x ≤ q) : d * (x - q) ≤ max (-d) 0 * |q - x| := by
  rw [abs_of_nonneg (sub_nonneg.mpr h)]
  calc d * (x - q)
    _ = -d * (q - x) := by ring
    _ ≤ max (-d) 0 * (q - x) := mul_le_mul_of_nonneg_right (le_max_left _ _) (sub_nonneg.mpr h)

theorem mul_sub_le_of_ge (d : Rat) {x : Rat} (h : q ≤ x) : d * (x - q) ≤ max d 0 * |q - x| := by
  rw [abs_sub_comm, abs_of_nonneg (sub_nonneg.mpr h)]
  exact mul_le_mul_of_nonneg_right (le_max_left _ _) (sub_nonneg.mpr h)

/-- A value that a column admits is better than the one it has by no more than the excess allows. -/
theorem reducedCost_mul_le (h : s.Coherent p box) (admits : (s.cell c).Admits q) :
    s.reducedCost p s.multipliers c * (s.value c - q) ≤ s.excess p c * |q - s.value c| := by
  have rests := h.rests c ⟨q, admits⟩
  obtain ⟨lower, upper⟩ := admits
  unfold Cell.Rests at rests
  cases place : (s.cell c).place with
  | basic =>
    obtain ⟨k, rfl⟩ := (h.placed c).mp place
    rw [reducedCost_basic h.inverse, zero_mul]
    exact mul_nonneg (excess_nonneg _) (abs_nonneg _)
  | atLower =>
    simp only [place] at rests
    rw [rests, ExtendedRat.finite_le_finite] at lower
    by_cases fixed : (s.cell c).lower = (s.cell c).upper
    · rw [← fixed, rests, ExtendedRat.finite_le_finite] at upper
      rw [le_antisymm upper lower, value, sub_self, abs_zero, mul_zero, mul_zero]
    · simp only [excess, if_neg fixed, place]
      exact mul_sub_le_of_le _ lower
  | atUpper =>
    simp only [place] at rests
    rw [rests, ExtendedRat.finite_le_finite] at upper
    by_cases fixed : (s.cell c).lower = (s.cell c).upper
    · rw [fixed, rests, ExtendedRat.finite_le_finite] at lower
      rw [le_antisymm upper lower, value, sub_self, abs_zero, mul_zero, mul_zero]
    · simp only [excess, if_neg fixed, place]
      exact mul_sub_le_of_ge _ upper
  | free =>
    simp only [place] at rests
    have wide : (s.cell c).lower ≠ (s.cell c).upper := by
      rw [rests.1, rests.2.1]
      rintro ⟨⟩
    simp only [excess, if_neg wide, place]
    calc s.reducedCost p s.multipliers c * (s.value c - q)
      _ ≤ |s.reducedCost p s.multipliers c * (s.value c - q)| := le_abs_self _
      _ = |s.reducedCost p s.multipliers c| * |q - s.value c| := by rw [abs_mul, abs_sub_comm q]

/-- A point is so far from a state that what pricing puts up with on the way, and what the rows are
off balance, may make up for the artificial columns. -/
def OutOfReach (p : Relaxation Rat ExtendedRat n m) (t : Tolerance)
    (s : SimplexState Rat ExtendedRat n m) (z : Vector Rat n) : Prop :=
  s.infeasibilityAllowed p t <
    ∑ c, s.excess p c * |p.point z c - s.value c| + ∑ i : Fin m, s.multipliers[i] * s.imbalance p i

/-- Where the first phase gives up, every feasible point is out of reach. -/
theorem outOfReach_of_feasible (h : s.Coherent p box) (costs : s.FirstPhase)
    (above : s.infeasibilityAllowed p t < s.infeasibility) (feasible : p.Feasible box z) :
    s.OutOfReach p t z := by
  have here := sum_cost_eq (p := p) (s := s) s.multipliers s.value
  have there := sum_cost_eq (p := p) (s := s) s.multipliers (p.point z)
  simp only [system_mul_point, mul_zero, Finset.sum_const_zero, add_zero, costs.cost_point] at there
  refine lt_of_lt_of_le above ?_
  calc s.infeasibility
    _ = ∑ c, s.reducedCost p s.multipliers c * s.value c +
          ∑ i : Fin m, s.multipliers[i] * s.imbalance p i := by rw [costs.infeasibility_eq, here]; rfl
    _ = ∑ c, s.reducedCost p s.multipliers c * (s.value c - p.point z c) +
          ∑ i : Fin m, s.multipliers[i] * s.imbalance p i := by
      simp only [mul_sub, Finset.sum_sub_distrib]
      rw [← there, sub_zero]
    _ ≤ _ := by
      refine add_le_add_left (Finset.sum_le_sum ?_) _
      intro c _
      exact reducedCost_mul_le h (admits_point h.limited feasible c)

/-- The allowance is not negative. -/
theorem infeasibilityAllowed_nonneg : 0 ≤ s.infeasibilityAllowed p t :=
  mul_nonneg (t.epsilon_pos _).le (by exact_mod_cast Nat.zero_le _)

/-- Nothing is out of reach of a state in balance whose reduced costs are all of the right sign. -/
theorem not_outOfReach (balanced : s.Balanced p) (level : ∀ c, s.excess p c = 0) :
    ¬ s.OutOfReach p t z := by
  simp only [OutOfReach, level, zero_mul, Finset.sum_const_zero, zero_add, balanced _, mul_zero]
  exact not_lt.mpr infeasibilityAllowed_nonneg

/-! ## Rays -/

/-- A move takes a basic position towards a finite limit. -/
def Approaches (s : SimplexState Rat ExtendedRat n m) (direction : Rat) (alpha : Vector Rat m)
    (k : Fin m) : Prop :=
  (-direction * alpha[k] < 0 ∧ Limits.isFinite (s.cell s.basic[k]).lower = true) ∨
    (0 < -direction * alpha[k] ∧ Limits.isFinite (s.cell s.basic[k]).upper = true)

/-- The column that enters takes a basic position towards a finite limit, but the coefficient of the
position is too small to count. -/
def Overlooks (p : Relaxation Rat ExtendedRat n m) (t : Tolerance)
    (s : SimplexState Rat ExtendedRat n m) : Prop :=
  ∃ e k, s.price p t s.multipliers s.entersFirst = some e ∧
    |(s.coefficients p e.column)[k]| ≤ pivotTolerance (s.coefficients p e.column) ∧
    s.Approaches e.direction (s.coefficients p e.column) k

/-- How the columns move while a column enters. -/
def entrantRay (p : Relaxation Rat ExtendedRat n m) (s : SimplexState Rat ExtendedRat n m)
    (e : Entrant Rat n m) : Column n m → Rat :=
  s.ray e.column e.direction (s.coefficients p e.column)

variable {e : Entrant Rat n m}

/-- The cost falls along the ray of a column that enters. -/
theorem cost_entrantRay (h : s.Coherent p box) (rows : p.rows.Ordered) (columns : box.Ordered)
    (enters : s.price p t s.multipliers s.entersFirst = some e) :
    ∑ c, s.cost c * s.entrantRay p e c < 0 := by
  have may := mayEnter_of_price (h.limited.ordered rows columns) enters
  have still (i : Fin m) : ∑ c, s.system p i c * s.entrantRay p e c = 0 :=
    system_mul_ray (basis_mul_ftran h.inverse e.column) i
  have only : ∑ c, s.reducedCost p s.multipliers c * s.entrantRay p e c =
      s.reducedCost p s.multipliers e.column * e.direction := by
    rw [Finset.sum_eq_single e.column]
    · rw [entrantRay, ray_entering (may.not_mem h)]
    · intro c _ other
      by_cases basic : ∃ k : Fin m, s.basic[k] = c
      · obtain ⟨k, rfl⟩ := basic
        rw [reducedCost_basic h.inverse, zero_mul]
      · rw [entrantRay, ray_other other fun k hk => basic ⟨k, hk⟩, mul_zero]
    · exact fun none => absurd (Finset.mem_univ _) none
  rw [sum_cost_eq (p := p) s.multipliers, only]
  simp only [still, mul_zero, Finset.sum_const_zero, add_zero]
  have positive : (0 : Rat) < t.absolute := t.absolute_pos
  obtain ⟨-, -, -, ⟨up, falls, -⟩ | ⟨down, rises, -⟩⟩ := entrant?_spec (entrant?_of_price enters)
  · rw [up, mul_one]
    linarith
  · rw [down, mul_neg_one]
    linarith

/-- A limit that is not finite and that a value respects is no limit. -/
theorem eq_below_of_infinite {x : ExtendedRat} (h : x ≤ .finite q)
    (infinite : ¬ Limits.isFinite x = true) : x = .below := by
  by_contra other
  exact infinite (Exact.isFinite_of_le_of_ne h other)

theorem eq_above_of_infinite {x : ExtendedRat} (h : .finite q ≤ x)
    (infinite : ¬ Limits.isFinite x = true) : x = .above := by
  cases x with
  | below => simp at h
  | finite u => exact absurd rfl infinite
  | above => rfl

/-- A column that moves away from its limits, or has none on the way, still admits its value. -/
theorem admits_add {c : Cell Rat ExtendedRat} {step : Rat} (admits : c.Admits q)
    (down : step < 0 → c.lower = .below) (up : 0 < step → c.upper = .above) :
    c.Admits (q + step) := by
  obtain ⟨lower, upper⟩ := admits
  refine ⟨?_, ?_⟩
  · rcases lt_or_ge step 0 with falls | rises
    · rw [down falls]
      exact ExtendedRat.below_le _
    · exact lower.trans (ExtendedRat.finite_le_finite.mpr (by linarith))
  · rcases lt_or_ge 0 step with rises | falls
    · rw [up rises]
      exact ExtendedRat.le_above _
    · exact (ExtendedRat.finite_le_finite.mpr (by linarith)).trans upper

/-- The column that enters has no limit in its way where nothing stops it. -/
theorem limits_of_endless (h : s.Coherent p box) (may : s.MayEnter e.column e.direction)
    (endless : s.ratioTest e.column e.direction (s.coefficients p e.column) s.entersFirst = none) :
    (e.direction = 1 ∧ (s.cell e.column).upper = .above) ∨
      (e.direction = -1 ∧ (s.cell e.column).lower = .below) := by
  obtain ⟨-, infinite⟩ := ratioTest_eq_none may.wide endless
  have rests := h.rests e.column (Cell.admits_of_wide may.wide)
  unfold Cell.Rests at rests
  rcases may.way with ⟨up, place | place⟩ | ⟨down, place | place⟩ <;> rw [place] at rests
  · exact .inl ⟨up, infinite.resolve_left (by rw [rests]; exact nofun)⟩
  · exact .inl ⟨up, rests.2.1⟩
  · exact .inr ⟨down, infinite.resolve_right (by rw [rests]; exact nofun)⟩
  · exact .inr ⟨down, rests.1⟩

/-- Along a ray that overlooks no position, columns keep their limits. -/
theorem admits_add_ray (h : s.Coherent p box) (may : s.MayEnter e.column e.direction)
    (endless : s.ratioTest e.column e.direction (s.coefficients p e.column) s.entersFirst = none)
    (noticed : ∀ k : Fin m,
      |(s.coefficients p e.column)[k]| ≤ pivotTolerance (s.coefficients p e.column) →
        ¬ s.Approaches e.direction (s.coefficients p e.column) k)
    {length : Rat} (nonneg : 0 ≤ length) {c : Column n m} (admits : (s.cell c).Admits q) :
    (s.cell c).Admits (q + length * s.entrantRay p e c) := by
  obtain ⟨stops, -⟩ := ratioTest_eq_none may.wide endless
  by_cases entering : c = e.column
  · subst entering
    rw [entrantRay, ray_entering (may.not_mem h)]
    rcases limits_of_endless h may endless with ⟨up, above⟩ | ⟨down, below⟩
    · exact admits_add admits (fun falls => absurd falls (by rw [up]; linarith)) fun _ => above
    · exact admits_add admits (fun _ => below) fun rises => absurd rises (by rw [down]; linarith)
  · by_cases basic : ∃ k : Fin m, s.basic[k] = c
    · obtain ⟨k, rfl⟩ := basic
      have free : ¬ s.Approaches e.direction (s.coefficients p e.column) k := by
        rcases blocking?_eq_none (stops k) with tiny | ⟨down, up⟩
        · exact noticed k tiny
        · rintro (⟨falls, finite⟩ | ⟨rises, finite⟩)
          · rw [down falls] at finite
            cases finite
          · rw [up rises] at finite
            cases finite
      unfold Approaches at free
      rw [not_or, not_and, not_and] at free
      rw [entrantRay, ray_basic h.distinct (may.not_mem h), ← neg_mul]
      refine admits_add admits ?_ ?_
      · intro falls
        exact eq_below_of_infinite admits.1 (free.1 (by nlinarith))
      · intro rises
        exact eq_above_of_infinite admits.2 (free.2 (by nlinarith))
    · rw [entrantRay, ray_other entering fun k hk => basic ⟨k, hk⟩, mul_zero, add_zero]
      exact admits

/-- From a feasible point, a ray that overlooks no position leads to feasible points of any cost. -/
theorem cost_unlimited (h : s.Coherent p box) (costs : s.SecondPhase p) (rows : p.rows.Ordered)
    (columns : box.Ordered) (stop : s.Stop p t .unbounded) (noticed : ¬ s.Overlooks p t)
    (feasible : p.Feasible box z) (bound : Rat) :
    ∃ z', p.Feasible box z' ∧ p.costOf z'.toList < bound := by
  cases stop with
  | @free e enters endless =>
    have may := mayEnter_of_price (h.limited.ordered rows columns) enters
    have falls := cost_entrantRay h rows columns enters
    let slope := ∑ c, s.cost c * s.entrantRay p e c
    let cost := ∑ c, s.cost c * p.point z c
    let length := |cost - bound| / -slope + 1
    have nonneg : 0 ≤ length := by
      have := div_nonneg (abs_nonneg (cost - bound)) (neg_pos.mpr falls).le
      exact add_nonneg this zero_le_one
    let v (c : Column n m) : Rat := p.point z c + length * s.entrantRay p e c
    refine ⟨.ofFn fun j => v (.structural j), feasible_of_admits h.limited costs.fixed ?_
      ?_, ?_⟩
    · intro c
      exact admits_add_ray h may endless
        (fun k tiny approaches => noticed ⟨e, k, enters, tiny, approaches⟩) nonneg
        (admits_point h.limited feasible c)
    · intro i
      have still : ∑ c, s.system p i c * s.entrantRay p e c = 0 :=
        system_mul_ray (basis_mul_ftran h.inverse e.column) i
      simp only [v, mul_add, mul_left_comm _ length, Finset.sum_add_distrib, ← Finset.mul_sum,
        system_mul_point, still, mul_zero, add_zero]
    · have total : ∑ c, s.cost c * v c = cost + length * slope := by
        simp only [v, mul_add, mul_left_comm _ length, Finset.sum_add_distrib, ← Finset.mul_sum, cost,
          slope]
      have drop : length * slope = -|cost - bound| + slope := by
        show (|cost - bound| / -slope + 1) * slope = _
        rw [add_mul, one_mul, div_neg, neg_mul, div_mul_cancel₀ _ falls.ne]
      rw [← costs.cost_eq, total, drop]
      linarith [le_abs_self (cost - bound)]

/-- Every column has a value that it admits. -/
def Within (s : SimplexState Rat ExtendedRat n m) : Prop :=
  ∀ c, (s.cell c).Admits (s.value c)

end SimplexState

/-! ## Verdicts -/

deriving instance DecidableEq for Verdict

namespace Relaxation

open SimplexState

/-- The state in which the simplex method ends. -/
def lastState {K L : Type} [Scalar K] [Limits L K] (p : Relaxation K L n m) (t : Tolerance)
    (limit : Nat) (box : Box L n) : SimplexState K L n m :=
  ((start p box t).run p t limit).2

theorem run_eq (ending : Ending) (h : ((start p box t).run p t limit).1 = ending) :
    (start p box t).run p t limit = (ending, p.lastState t limit box) := by
  rw [← h]
  rfl

section Answers

variable {K L : Type} [Scalar K] [Limits L K] (p : Relaxation K L n m) (t : Tolerance) (limit : Nat)
  (box : Box L n)

/-- A box with crossed limits is answered at once; for any other the verdict is how the run ends. -/
theorem solveWithin_cases :
    ((∃ j : Fin n, box.upper[j] < box.lower[j]) ∧ (p.solveWithin t limit box).verdict = .infeasible) ∨
      ((∀ j : Fin n, ¬ box.upper[j] < box.lower[j]) ∧
        (p.solveWithin t limit box).verdict = p.verdict box ((start p box t).run p t limit)) := by
  unfold solveWithin
  split
  · rename_i crossed
    simp only [List.any_eq_true, List.mem_finRange, true_and, decide_eq_true_eq] at crossed
    exact .inl ⟨crossed, rfl⟩
  · rename_i crossed
    simp only [List.any_eq_true, List.mem_finRange, true_and, decide_eq_true_eq,
      not_exists] at crossed
    exact .inr ⟨crossed, rfl⟩

variable {p t limit box} {objective : K} {values : Vector K n}

/-- An optimum is the end of a run, moved into the box, and its objective is that of its values. -/
theorem solveWithin_optimal (h : (p.solveWithin t limit box).verdict = .optimal objective values) :
    (∀ j : Fin n, ¬ box.upper[j] < box.lower[j]) ∧ ((start p box t).run p t limit).1 = .optimal ∧
      values = (p.lastState t limit box).valuesWithin box ∧
      objective = p.objectiveOf values.toList := by
  rcases p.solveWithin_cases t limit box with ⟨-, verdict⟩ | ⟨columns, verdict⟩
  · rw [verdict] at h
    cases h
  · rw [verdict] at h
    unfold Relaxation.verdict at h
    split at h
    · rename_i last run
      cases h
      have state : p.lastState t limit box = last := congrArg Prod.snd run
      exact ⟨columns, congrArg Prod.fst run, by rw [state], rfl⟩
    all_goals cases h

/-- The simplex method moves its values into the box, and has none for crossed limits. -/
theorem clamps_solveWithin (p : Relaxation K L n m) (t : Tolerance) (limit : Nat) :
    Solver.Clamps (p.solveWithin t limit) := by
  intro box objective values optimal
  obtain ⟨columns, -, rfl, -⟩ := solveWithin_optimal optimal
  refine ⟨columns, fun j => ⟨((p.lastState t limit box).cells.structural[j]).value, ?_⟩⟩
  simp [valuesWithin]

end Answers

/-- Over exact numbers, limits are crossed or in order. -/
theorem solveWithin_verdict (p : Relaxation Rat ExtendedRat n m) (t : Tolerance) (limit : Nat)
    (box : Box ExtendedRat n) :
    (¬ box.Ordered ∧ (p.solveWithin t limit box).verdict = .infeasible) ∨
      (box.Ordered ∧ (p.solveWithin t limit box).verdict =
        p.verdict box ((start p box t).run p t limit)) := by
  rcases p.solveWithin_cases t limit box with ⟨⟨j, crossed⟩, verdict⟩ | ⟨columns, verdict⟩
  · exact .inl ⟨fun ordered => absurd (ordered j) (not_le.mpr crossed), verdict⟩
  · exact .inr ⟨fun j => not_lt.mp (columns j), verdict⟩

theorem verdict_eq_infeasible {last : Ending × SimplexState Rat ExtendedRat n m}
    (h : p.verdict box last = .infeasible) : last.1 = .infeasible := by
  unfold verdict at h
  split at h <;> cases h
  rfl

theorem verdict_eq_unbounded {last : Ending × SimplexState Rat ExtendedRat n m}
    (h : p.verdict box last = .unbounded) : last.1 = .unbounded := by
  unfold verdict at h
  split at h <;> cases h
  rfl

theorem not_feasible_of_crossed (crossed : ¬ box.Ordered) : ¬ p.Feasible box z := fun feasible =>
  crossed fun j => (feasible.1 j).1.trans (feasible.1 j).2

/-- What the verdicts of the simplex method are worth. Infeasible is wrong of points out of reach only:
of none at all where the last state is in balance and pricing has put up with nothing. Unbounded is
right, wherever there is a feasible point, unless the ratio test has overlooked a position. -/
theorem verdict_up_to_cutoffs (p : Relaxation Rat ExtendedRat n m) (rows : p.rows.Ordered)
    (t : Tolerance) (limit : Nat) (box : Box ExtendedRat n) :
    ((p.solveWithin t limit box).verdict = .infeasible →
      (∀ z, p.Feasible box z → (p.lastState t limit box).OutOfReach p t z ∧
        ∀ c, (p.lastState t limit box).excess p c ≤ t.absolute) ∧
      ((p.lastState t limit box).Balanced p → (∀ c, (p.lastState t limit box).excess p c = 0) →
        ∀ z, ¬ p.Feasible box z)) ∧
    ((p.solveWithin t limit box).verdict = .unbounded →
      ¬ (p.lastState t limit box).Overlooks p t →
      ((∀ bound, ∃ z, p.Feasible box z ∧ p.costOf z.toList < bound) ↔ ∃ z, p.Feasible box z) ∧
      ((p.lastState t limit box).Balanced p → (p.lastState t limit box).Within →
        ∀ bound, ∃ z, p.Feasible box z ∧ p.costOf z.toList < bound)) := by
  refine ⟨?_, ?_⟩
  · intro infeasible
    have reach (z : Vector Rat n) (feasible : p.Feasible box z) :
        (p.lastState t limit box).OutOfReach p t z ∧
          ∀ c, (p.lastState t limit box).excess p c ≤ t.absolute := by
      rcases p.solveWithin_verdict t limit box with ⟨crossed, -⟩ | ⟨columns, verdict⟩
      · exact absurd feasible (not_feasible_of_crossed crossed)
      · obtain ⟨coherent, costs, stop, above⟩ := run_infeasible rows columns
          (run_eq _ (verdict_eq_infeasible (verdict.symm.trans infeasible)))
        exact ⟨outOfReach_of_feasible coherent costs above feasible, excess_le stop⟩
    exact ⟨reach, fun balanced level z feasible =>
      not_outOfReach balanced level (reach z feasible).1⟩
  · intro unbounded noticed
    rcases p.solveWithin_verdict t limit box with ⟨-, verdict⟩ | ⟨columns, verdict⟩
    · rw [verdict] at unbounded
      cases unbounded
    · obtain ⟨coherent, costs, ends⟩ := run_second rows columns
        (run_eq _ (verdict_eq_unbounded (verdict.symm.trans unbounded))) (.inr rfl)
      have stop := (ends.resolve_left fun h => nomatch h.1).2
      have unlimited {z : Vector Rat n} (feasible : p.Feasible box z) (bound : Rat) :=
        cost_unlimited coherent costs rows columns stop noticed feasible bound
      refine ⟨⟨fun any => (any 0).imp fun z h => h.1, fun ⟨z, feasible⟩ => unlimited feasible⟩,
        fun balanced within =>
          unlimited (feasible_of_admits coherent.limited costs.fixed within balanced)⟩

/-- `10⁻¹⁰ x ≥ 1` for `x ≥ 0`. The row needs `x = 10¹⁰`, but brings too little for pricing. -/
def tinyRow : Relaxation Rat ExtendedRat 1 1 where
  columns := #v[[(0, 1e-10)]]
  rows := ⟨#v[.finite 1], #v[.above]⟩
  cost := #v[1]
  box := ⟨#v[.finite 0], #v[.above]⟩
  integer := #v[false]
  direction := .minimise
  constant := 0

/-- `10⁻¹² x ≤ 1` for `x ≥ 0`, with `-x` as the cost. The row stops `x` at `10¹²`, but its coefficient
is too small for the ratio test. -/
def flatRow : Relaxation Rat ExtendedRat 1 1 where
  columns := #v[[(0, 1e-12)]]
  rows := ⟨#v[.below], #v[.finite 1]⟩
  cost := #v[-1]
  box := ⟨#v[.finite 0], #v[.above]⟩
  integer := #v[false]
  direction := .maximise
  constant := 0

theorem flatRow_cost {z : Vector Rat 1} (feasible : flatRow.Feasible flatRow.box z) :
    -1000000000000 ≤ flatRow.costOf z.toList := by
  have row := (feasible.2 0).2
  rw [activities_eq_sum, Fin.sum_univ_one] at row
  have upper : (1e-12 : Rat) * z[0] ≤ 1 := by simpa [flatRow] using row
  rw [costOf_eq_sum, Fin.sum_univ_one]
  show -1000000000000 ≤ (-1 : Rat) * z[0]
  norm_num at upper ⊢
  linarith

/-- Both verdicts can be wrong: `x = 10¹⁰` is feasible but out of reach, and the cost that is called
unlimited is at least `-10¹²`, because a position is overlooked. -/
theorem verdict_up_to_cutoffs_tinyRow_flatRow :
    (tinyRow.rows.Ordered ∧
      (tinyRow.solveWithin .standard 1000 tinyRow.box).verdict = .infeasible ∧
      tinyRow.Feasible tinyRow.box #v[10000000000] ∧
      (tinyRow.lastState .standard 1000 tinyRow.box).OutOfReach tinyRow .standard
        #v[10000000000]) ∧
    (flatRow.rows.Ordered ∧
      (flatRow.solveWithin .standard 1000 flatRow.box).verdict = .unbounded ∧
      flatRow.Feasible flatRow.box #v[0] ∧
      (∀ z, flatRow.Feasible flatRow.box z → -1000000000000 ≤ flatRow.costOf z.toList) ∧
      (flatRow.lastState .standard 1000 flatRow.box).Overlooks flatRow .standard) := by
  have tiny : tinyRow.rows.Ordered := by decide +kernel
  have flat : flatRow.rows.Ordered := by decide +kernel
  have infeasible : (tinyRow.solveWithin .standard 1000 tinyRow.box).verdict = .infeasible := by
    decide +kernel
  have unbounded : (flatRow.solveWithin .standard 1000 flatRow.box).verdict = .unbounded := by
    decide +kernel
  have far : tinyRow.Feasible tinyRow.box #v[10000000000] := by decide +kernel
  have zero : flatRow.Feasible flatRow.box #v[0] := by decide +kernel
  have reach := ((verdict_up_to_cutoffs tinyRow tiny .standard 1000 tinyRow.box).1 infeasible).1
  have truth := (verdict_up_to_cutoffs flatRow flat .standard 1000 flatRow.box).2 unbounded
  refine ⟨⟨tiny, infeasible, far, (reach _ far).1⟩, flat, unbounded, zero, fun z => flatRow_cost, ?_⟩
  by_contra noticed
  obtain ⟨z, feasible, below⟩ := (truth noticed).1.mpr ⟨_, zero⟩ (-1000000000000)
  exact absurd below (not_lt.mpr (flatRow_cost feasible))

end Relaxation

end Milp
