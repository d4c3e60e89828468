import Milp.Proofs.Simplex.Reached
import Milp.Proofs.Simplex.Verdict

/-!
# What an optimal end certifies

The reduced costs in the state that the simplex method ends in are a certificate: no point of the box
that keeps the rows costs less, up to what pricing puts up with.

Results:
1. `level_of_run`: a run that ends optimal ends where no column may enter, although the inverse is
   computed anew after pricing.
2. `cost_le_of_level`: weak duality in such a state.
3. `Model.optimal_certificate`: both for the linear program of a model.
-/

namespace Milp

variable {n m : Nat} {p : Relaxation Rat ExtendedRat n m} {box : Box ExtendedRat n} {t : Tolerance}

namespace SimplexState

variable {s s' : SimplexState Rat ExtendedRat n m} {z : Vector Rat n} {w : Vector Rat m} {limit : Nat}

/-! ## The last state -/

/-- No reduced cost goes against the place of its column by more than the tolerance. -/
def Level (p : Relaxation Rat ExtendedRat n m) (t : Tolerance)
    (s : SimplexState Rat ExtendedRat n m) : Prop :=
  ∀ c, s.excess p c ≤ t.absolute

/-- Pricing would put up with the same after the inverse is computed anew. -/
theorem Coherent.excess_refactorize? (h : s.Coherent p box) (new : s.refactorize? p = some s')
    (c : Column n m) : s'.excess p c = s.excess p c := by
  obtain ⟨lower, upper, -⟩ := (keeps_refactorize? new).terms c
  unfold excess
  rw [h.reducedCost_refactorize? new, lower, upper, (refactorize?_frame new).2 c]

/-- The second phase ends optimal where its steps do, or with the inverse of that state computed
anew. -/
theorem minimise_eq_optimal (run : s.minimise p t limit = (.optimal, s')) :
    ∃ last, (s.forCost p).runPhase p t (limit - s.iterations) = (.optimal, last) ∧
      (last = s' ∨ last.refactorize? p = some s') := by
  unfold minimise at run
  split at run
  · rename_i last phase
    refine ⟨last, phase, ?_⟩
    split at run
    · split at run
      · rename_i fresh refactored
        cases run
        exact .inr refactored
      · cases run
    · cases run
      exact .inl rfl
  · rename_i last other phase
    cases run
    exact (other rfl).elim

/-- A run that ends optimal ends in a state whose reduced costs pricing puts up with. -/
theorem level_of_run (rows : p.rows.Ordered) (columns : box.Ordered)
    (run : (start p box t).run p t limit = (.optimal, s)) : s.Level p t := by
  unfold SimplexState.run at run
  split at run
  · rename_i middle phase
    have coherent := (reachFeasibility_spec rows columns phase).1
    obtain ⟨last, steps, ends⟩ := minimise_eq_optimal run
    obtain ⟨kept, stop⟩ := coherent.forCost.runPhase rows columns steps
    rcases ends with rfl | refactored
    · exact excess_le stop
    · intro c
      rw [kept.excess_refactorize? refactored]
      exact excess_le stop c
  · rename_i middle other phase
    cases run
    exact (other rfl).elim

/-! ## Weak duality -/

/-- How far the columns that are not basic are from values of the columns and of the rows. -/
def distance (s : SimplexState Rat ExtendedRat n m) (z : Vector Rat n) (w : Vector Rat m) : Rat :=
  (∑ j : Fin n with (s.cell (.structural j)).place ≠ .basic, |z[j] - s.value (.structural j)|) +
    ∑ i : Fin m with (s.cell (.logical i)).place ≠ .basic, |w[i] - s.value (.logical i)|

theorem excess_basic {c : Column n m} (basic : (s.cell c).place = .basic) : s.excess p c = 0 := by
  simp [excess, basic]

/-- After the first phase an artificial column has nothing to exceed, as it is fixed. -/
theorem excess_artificial (limited : s.Limited p box) (costs : s.SecondPhase p) (i : Fin m) :
    s.excess p (.artificial i) = 0 := by
  rw [excess, if_pos]
  rw [(limited.artificial i).1, costs.fixed i]

/-- A column costs no more than the tolerance for each unit that it is away. -/
theorem excess_mul_le (level : s.Level p t) (c : Column n m) (q : Rat) :
    s.excess p c * |q - s.value c| ≤
      if (s.cell c).place ≠ .basic then t.absolute * |q - s.value c| else 0 := by
  split
  · exact mul_le_mul_of_nonneg_right (level c) (abs_nonneg _)
  · rename_i basic
    rw [excess_basic (not_not.mp basic), zero_mul]

/-- What the excess of all columns makes of a point. -/
theorem sum_excess_le (limited : s.Limited p box) (costs : s.SecondPhase p) (level : s.Level p t)
    (z : Vector Rat n) :
    ∑ c, s.excess p c * |p.point z c - s.value c| ≤
      t.absolute * s.distance z (activities p z) := by
  rw [Column.sum_kinds, distance, mul_add, Finset.mul_sum, Finset.mul_sum, Finset.sum_filter,
    Finset.sum_filter]
  have none : ∑ i, s.excess p (.artificial i) *
      |p.point z (.artificial i) - s.value (.artificial i)| = 0 :=
    Finset.sum_eq_zero fun i _ => by rw [excess_artificial limited costs, zero_mul]
  rw [none, add_zero]
  exact add_le_add (Finset.sum_le_sum fun j _ => excess_mul_le level (.structural j) _)
    (Finset.sum_le_sum fun i _ => excess_mul_le level (.logical i) _)

/-- A state in balance costs no more than a feasible point, but for what pricing puts up with on the
way there. -/
theorem cost_le_of_level (h : s.Coherent p box) (costs : s.SecondPhase p) (balanced : s.Balanced p)
    (level : s.Level p t) (feasible : p.Feasible box z) :
    p.costOf s.structuralValues.toList ≤
      p.costOf z.toList + t.absolute * s.distance z (activities p z) := by
  -- in balance, a cost is what the reduced costs make of the values
  have here := sum_cost_eq (p := p) (s := s) s.multipliers s.value
  have there := sum_cost_eq (p := p) (s := s) s.multipliers (p.point z)
  have still : ∑ i : Fin m, s.multipliers[i] * ∑ c, s.system p i c * s.value c = 0 :=
    Finset.sum_eq_zero fun i _ => by rw [← imbalance, balanced i, mul_zero]
  simp only [system_mul_point, mul_zero, Finset.sum_const_zero, add_zero] at there
  rw [still, add_zero] at here
  rw [structuralValues_eq, ← costs.cost_eq, ← costs.cost_point, ← sub_le_iff_le_add']
  calc ∑ c, s.cost c * s.value c - ∑ c, s.cost c * p.point z c
    _ = ∑ c, s.reducedCost p s.multipliers c * (s.value c - p.point z c) := by
      rw [here, there, ← Finset.sum_sub_distrib]
      exact Finset.sum_congr rfl fun c _ => (mul_sub ..).symm
    _ ≤ ∑ c, s.excess p c * |p.point z c - s.value c| := by
      refine Finset.sum_le_sum ?_
      intro c _
      exact reducedCost_mul_le h (admits_point h.limited feasible c)
    _ ≤ t.absolute * s.distance z (activities p z) := sum_excess_le h.limited costs level z

end SimplexState

namespace Model

open SimplexState (activities)

/-- Where the simplex method ends optimal for a model, the rows are in balance, artificial columns
included, and no point that keeps the bounds and the rows costs less by more than the tolerance allows
for its distance in the columns that are not basic. -/
theorem optimal_certificate {m : Model Rat ExtendedRat} (built : m.Built) (direction : Direction)
    {box : Box ExtendedRat m.definitions.size} (columns : box.Ordered) (t : Tolerance) (limit : Nat)
    {s : SimplexState Rat ExtendedRat m.definitions.size m.constraints.size}
    (ends : (SimplexState.start (m.relaxation direction) box t).run (m.relaxation direction) t limit =
      (.optimal, s)) :
    (∀ i : Fin m.constraints.size,
      (activities (m.relaxation direction) s.structuralValues)[i] - s.value (.logical i) +
        (s.signs[i]).getD 0 * s.value (.artificial i) = 0) ∧
    ∀ (z : Vector Rat m.definitions.size) (w : Vector Rat m.constraints.size),
      (∀ i : Fin m.constraints.size, (activities (m.relaxation direction) z)[i] - w[i] = 0) →
      box.Holds z → (m.relaxation direction).rows.Holds w →
      (m.relaxation direction).costOf s.structuralValues.toList ≤
        (m.relaxation direction).costOf z.toList + t.absolute * s.distance z w := by
  have rows : (m.relaxation direction).rows.Ordered := rows_ordered built.wellFormed
  obtain ⟨coherent, costs, optimal⟩ := SimplexState.run_second rows columns ends (.inl rfl)
  have balanced := (optimal.resolve_right fun h => nomatch h.1).2
  refine ⟨?_, ?_⟩
  · intro i
    rw [← SimplexState.imbalance_eq]
    exact balanced i
  · intro z w equations inBox inRows
    have same : w = activities (m.relaxation direction) z := by
      ext i hi
      exact (sub_eq_zero.mp (equations ⟨i, hi⟩)).symm
    subst same
    exact SimplexState.cost_le_of_level coherent costs balanced
      (SimplexState.level_of_run rows columns ends) ⟨inBox, inRows⟩

/-- The method ends at `x = 3 / 2` with the row at its limit; `x = 2` is feasible. -/
theorem optimal_certificate_twice :
    twice.Built ∧ (twice.relaxation .minimise).box.Ordered ∧
    ∃ s, (SimplexState.start (twice.relaxation .minimise) (twice.relaxation .minimise).box
        .standard).run (twice.relaxation .minimise) .standard 1000 = (.optimal, s) ∧
      s.structuralValues.toList = [3 / 2] ∧
      (∀ i : Fin twice.constraints.size,
        (activities (twice.relaxation .minimise) s.structuralValues)[i] - s.value (.logical i) +
          (s.signs[i]).getD 0 * s.value (.artificial i) = 0) ∧
      (∀ i : Fin twice.constraints.size, (activities (twice.relaxation .minimise)
        (.replicate _ 2))[i] - (Vector.replicate twice.constraints.size (4 : Rat))[i] = 0) ∧
      (twice.relaxation .minimise).box.Holds (.replicate _ 2) ∧
      (twice.relaxation .minimise).rows.Holds (.replicate _ 4) ∧
      s.distance (.replicate _ 2) (.replicate _ 4) = 1 ∧
      (twice.relaxation .minimise).costOf s.structuralValues.toList ≤
        (twice.relaxation .minimise).costOf (Vector.replicate twice.definitions.size 2).toList +
          Tolerance.standard.absolute * s.distance (.replicate _ 2) (.replicate _ 4) := by
  have ordered : (twice.relaxation .minimise).box.Ordered := by decide +kernel
  have ends : (SimplexState.start (twice.relaxation .minimise) (twice.relaxation .minimise).box
      .standard).run (twice.relaxation .minimise) .standard 1000 =
        (.optimal, (twice.relaxation .minimise).lastState .standard 1000
          (twice.relaxation .minimise).box) :=
    Relaxation.run_eq .optimal (by decide +kernel)
  have equations : ∀ i : Fin twice.constraints.size, (activities (twice.relaxation .minimise)
      (.replicate _ 2))[i] - (Vector.replicate twice.constraints.size (4 : Rat))[i] = 0 := by
    decide +kernel
  have inBox : (twice.relaxation .minimise).box.Holds (.replicate _ 2) := by decide +kernel
  have inRows : (twice.relaxation .minimise).rows.Holds (.replicate _ 4) := by decide +kernel
  obtain ⟨balanced, least⟩ := optimal_certificate built_twice .minimise ordered .standard 1000 ends
  exact ⟨built_twice, ordered, _, ends, by decide +kernel, balanced, equations, inBox, inRows,
    by decide +kernel, least _ _ equations inBox inRows⟩

end Model

end Milp
