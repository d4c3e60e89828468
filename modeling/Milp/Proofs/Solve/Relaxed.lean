import Milp.Proofs.Solve.History
import Milp.Proofs.Solve.Within

/-!
# Relaxed searches

A relaxed search has no integer columns, so it asks for one optimum, within the declared bounds. The
root of another search has bounds of its own for the integer columns: the declared ones, moved outwards
by the tolerance before they are moved inwards to integers. Where the tolerance is one or more, integers
outside the declared bounds are let in.

Results:
1. `least_of_relaxed`: the incumbent of a relaxed search is an optimum within the declared bounds.
2. `relaxed_as_good`: the solution of a relaxed search is as good as that of another one, unless the
   other one strays from the declared bounds.
-/

namespace Milp

variable {n m : Nat}

/-- The task with its integrality ignored, or not, and with another clock. -/
def SearchTask.relaxing (k : SearchTask Rat ExtendedRat n m) (relax : Bool)
    (clock : Nat → Duration) : SearchTask Rat ExtendedRat n m :=
  { k with config := k.config.withRelaxation relax, clock }

namespace SearchTask

variable {k : SearchTask Rat ExtendedRat n m} {f : Moment Rat ExtendedRat n}
  {i : Incumbent Rat n}

/-! ## Relaxed searches -/

section Relaxed

variable (relaxed : k.config.relax = true)

include relaxed

theorem isInteger_of_relaxed (j : Fin n) : k.isInteger j = false := by
  simp [isInteger, relaxed]

theorem box_of_relaxed : k.box = k.relaxation.box := by
  simp only [box, isInteger_of_relaxed relaxed, Bool.false_eq_true, if_false]
  congr <;> ext j hj <;> simp

theorem fixAt_of_relaxed (box : Box ExtendedRat n) (values : Vector Rat n) :
    k.fixAt box values = box := by
  simp only [fixAt, isInteger_of_relaxed relaxed, Bool.false_eq_true, if_false]
  congr <;> ext j hj <;> simp

/-- Without integer columns no node is split. -/
theorem bounds_of_relaxed (reached : k.Reached f) {id : Nat} {x : Node ExtendedRat n}
    (here : f.node? id = some x) : f.search.tree.bounds id k.box = k.relaxation.box := by
  have same : (f.search.tree.bounds id k.box).reading = k.relaxation.box := by
    refine bounds_induction (motive := (· = k.relaxation.box))
      (by rw [Box.reading_exact, box_of_relaxed relaxed]) ?_ reached here
    intro p y c _ _ splits
    obtain ⟨_, _, j, -, integer, -⟩ := splits.spec
    simp [isInteger_of_relaxed relaxed j] at integer
  rwa [Box.reading_exact] at same

end Relaxed

/-! ## Incumbents -/

section Minimises

variable (minimises : k.solver.Minimises k.relaxation)

include minimises

theorem answersWithin_of_minimises (bounds : Box ExtendedRat n) : k.AnswersWithin bounds :=
  fun box objective values _ optimal =>
    ⟨values, stands_exact.mpr rfl, by simpa using minimises.holds box objective values optimal⟩

/-- The incumbent of a relaxed search is an optimum within the declared bounds. -/
theorem least_of_relaxed (relaxed : k.config.relax = true) (reached : k.Reached f)
    (found : f.search.incumbent = some i) (z : Vector Rat n) (inside : k.relaxation.box.Holds z)
    (rows : k.relaxation.Satisfies z) : i.cost ≤ k.relaxation.costOf z.toList := by
  obtain ⟨f', id, x, reached', here, answers, cost⟩ := answers_of_reached
    (fun _ _ _ _ _ => answersWithin_of_minimises minimises _) reached found
  obtain ⟨box', objective, source, optimal⟩ := answers.optimal
  have declared : box' = k.relaxation.box := by
    rw [← bounds_of_relaxed relaxed reached' here]
    cases source with
    | relaxed => rfl
    | fixed => rw [fixAt_of_relaxed relaxed]
  rw [declared] at optimal
  rw [cost]
  exact minimises.least _ objective i.values optimal z inside rows

/-- The incumbent of any search keeps the rows and lies within the bounds of the root, and its cost is
that of its values. -/
theorem point_of_reached (reached : k.Reached f) (found : f.search.incumbent = some i) :
    k.relaxation.Satisfies i.values ∧ k.box.Holds i.values ∧
      i.cost = k.relaxation.costOf i.values.toList := by
  obtain ⟨f', id, x, reached', here, answers, cost⟩ := answers_of_reached
    (fun _ _ _ _ _ => answersWithin_of_minimises minimises _) reached found
  obtain ⟨box', objective, -, optimal⟩ := answers.optimal
  obtain ⟨z, proper⟩ := answers.proper_root reached' here
  obtain rfl := stands_exact.mp proper.stands
  exact ⟨minimises.satisfies box' objective i.values optimal, by simpa using proper.inside, cost⟩

end Minimises

/-! ## Declared bounds -/

/-- An integer column has a value outside its declared bounds, though within the tolerance of them. -/
structure Strays (k : SearchTask Rat ExtendedRat n m) (z : Vector Rat n) (j : Fin n) : Prop where
  integer : k.isInteger j = true
  outside : ¬ k.relaxation.box.Admits j z[j]
  lower : Limits.sub k.relaxation.box.lower[j]
    (k.config.integrality.epsilonOf k.relaxation.box.lower[j]) ≤ .finite z[j]
  upper : .finite z[j] ≤ Limits.add k.relaxation.box.upper[j]
    (k.config.integrality.epsilonOf k.relaxation.box.upper[j])

/-- What lies within the bounds of the root lies within the declared ones, or strays from them. -/
theorem holds_or_strays {z : Vector Rat n} (inside : k.box.Holds z) :
    k.relaxation.box.Holds z ∨ ∃ j, k.Strays z j := by
  by_contra neither
  obtain ⟨outside, never⟩ := not_or.mp neither
  refine outside fun j => ?_
  obtain ⟨continuous, near⟩ := admits_of_box (inside j)
  cases integer : k.isInteger j with
  | false => exact continuous integer
  | true =>
    by_contra apart
    exact never ⟨j, integer, apart, (near integer).1, (near integer).2⟩

/-! ## Solutions -/

/-- Suppose that the optima of the solver are optima. Whenever a relaxed search and one that is not
relaxed have a solution, be it proven optimal or not, the relaxed one is as good as the other, or the
other one has a value for an integer column that strays from its declared bounds. It is as good where
the root's bounds lie within the declared ones. -/
theorem relaxed_as_good (k : SearchTask Rat ExtendedRat n m)
    (minimises : k.solver.Minimises k.relaxation) (clock clock' : Nat → Duration)
    (names : List String)
    (solved : ((k.relaxing true clock).result names).status.hasSolution = true)
    (solved' : ((k.relaxing false clock').result names).status.hasSolution = true) :
    ∃ s s', ((k.relaxing true clock).result names).solution = some s ∧
      ((k.relaxing false clock').result names).solution = some s' ∧
      (k.relaxation.direction.AsGood s.objective s'.objective ∨
        ∃ z j, s'.values = z.toList ∧ (k.relaxing false clock').Strays z j) ∧
      ((k.relaxing false clock').box.Inside k.relaxation.box →
        k.relaxation.direction.AsGood s.objective s'.objective) := by
  rw [hasSolution_result] at solved solved'
  obtain ⟨s, hs⟩ := Option.isSome_iff_exists.mp solved
  obtain ⟨s', hs'⟩ := Option.isSome_iff_exists.mp solved'
  obtain ⟨i, found, rfl⟩ := incumbent_of_solution hs
  obtain ⟨i', found', rfl⟩ := incumbent_of_solution hs'
  have reached := (k.relaxing true clock).rounds_reached roundLimit
  have reached' := (k.relaxing false clock').rounds_reached roundLimit
  obtain ⟨rows, holds, cost⟩ := point_of_reached (k := k.relaxing false clock') minimises reached' found'
  replace cost : i'.cost = k.relaxation.costOf i'.values.toList := cost
  have better (inside : k.relaxation.box.Holds i'.values) :
      k.relaxation.direction.AsGood (k.relaxation.toObjective i.cost)
        (k.relaxation.toObjective i'.cost) := by
    rw [Relaxation.asGood_toObjective, cost]
    exact least_of_relaxed (k := k.relaxing true clock) minimises rfl reached found i'.values inside rows
  refine ⟨_, _, hs, hs', ?_, fun within => better fun j => within.admits (holds j)⟩
  rcases holds_or_strays holds with inside | ⟨j, strays⟩
  · exact .inl (better inside)
  · exact .inr ⟨i'.values, j, rfl, strays⟩

/-- An integer from 10¹³ to twice that, as the cost. The optimum of a box is its lower bound. -/
def farAway : SearchTask Rat ExtendedRat 1 0 where
  relaxation :=
    { columns := .replicate 1 []
      rows := ⟨#v[], #v[]⟩
      cost := .replicate 1 1
      box := ⟨.replicate 1 (.finite 10000000000000), .replicate 1 (.finite 20000000000000)⟩
      integer := .replicate 1 true
      direction := .minimise
      constant := 0 }
  config := .standard
  solver box :=
    let l : Rat := Limits.toScalar box.lower[0]
    if ¬ box.lower[0] ≤ box.upper[0] then ⟨.infeasible, 0⟩
    else if Limits.isFinite box.lower[0] then ⟨.optimal l #v[l], 0⟩
    else ⟨.unbounded, 0⟩
  clock _ := ⟨0⟩

theorem farAway_answers {box : Box ExtendedRat 1} {objective : Rat} {values : Vector Rat 1}
    (optimal : (farAway.solver box).verdict = .optimal objective values) :
    values = #v[objective] ∧ box.lower[0] = .finite objective ∧ .finite objective ≤ box.upper[0] := by
  simp only [farAway] at optimal
  split_ifs at optimal with ordered finite
  cases optimal
  have lower := Exact.finite_toScalar finite
  exact ⟨rfl, lower.symm, lower.trans_le ordered⟩

theorem farAway_cost (z : Vector Rat 1) : farAway.relaxation.costOf z.toList = z[0] := by
  rw [Relaxation.costOf_eq_sum, Fin.sum_univ_one]
  simp [farAway]

theorem farAway_minimises : farAway.solver.Minimises farAway.relaxation where
  objective box objective values optimal := by
    obtain ⟨rfl, -, -⟩ := farAway_answers optimal
    rw [Relaxation.objectiveOf, farAway_cost]
    simp [Relaxation.toObjective, farAway, Direction.sense]
  holds box objective values optimal j := by
    obtain ⟨rfl, lower, upper⟩ := farAway_answers optimal
    obtain rfl : j = 0 := Subsingleton.elim _ _
    exact ⟨lower.le, upper⟩
  satisfies box objective values optimal i := i.elim0
  least box objective values optimal z inside rows := by
    obtain ⟨rfl, lower, -⟩ := farAway_answers optimal
    rw [farAway_cost, farAway_cost]
    exact ExtendedRat.finite_le_finite.mp (lower.ge.trans (inside 0).1)

/-- The tolerance of 10¹³ is ten. The search that is not relaxed finds an integer below the declared
bounds, and so an objective that is better than that of the relaxed one. -/
theorem relaxed_as_good_farAway :
    farAway.solver.Minimises farAway.relaxation ∧
    ((farAway.relaxing true farAway.clock).result ["x"]).status = .optimal ∧
    ((farAway.relaxing false farAway.clock).result ["x"]).status = .optimal ∧
    ∃ s s', ((farAway.relaxing true farAway.clock).result ["x"]).solution = some s ∧
      ((farAway.relaxing false farAway.clock).result ["x"]).solution = some s' ∧
      s.objective = 10000000000000 ∧ s'.objective = 9999999999990 ∧
      ∃ z j, s'.values = z.toList ∧ (farAway.relaxing false farAway.clock).Strays z j := by
  have optimal : ((farAway.relaxing true farAway.clock).result ["x"]).status = .optimal := by
    decide +kernel
  have optimal' : ((farAway.relaxing false farAway.clock).result ["x"]).status = .optimal := by
    decide +kernel
  obtain ⟨s, s', solution, solution', either, -⟩ := relaxed_as_good farAway farAway_minimises
    farAway.clock farAway.clock ["x"] (by rw [optimal]; rfl) (by rw [optimal']; rfl)
  have objective : ((farAway.relaxing true farAway.clock).result ["x"]).solution.map (·.objective) =
      some 10000000000000 := by decide +kernel
  have objective' : ((farAway.relaxing false farAway.clock).result ["x"]).solution.map (·.objective) =
      some 9999999999990 := by decide +kernel
  rw [solution] at objective
  rw [solution'] at objective'
  obtain value : s.objective = 10000000000000 := Option.some.inj objective
  obtain value' : s'.objective = 9999999999990 := Option.some.inj objective'
  refine ⟨farAway_minimises, optimal, optimal', s, s', solution, solution', value, value', ?_⟩
  refine either.resolve_left fun good => ?_
  rw [value, value'] at good
  have worse : (10000000000000 : Rat) ≤ 9999999999990 := good
  norm_num at worse

end SearchTask

end Milp
