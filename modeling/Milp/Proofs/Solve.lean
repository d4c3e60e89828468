import Milp.Proofs.Relaxation
import Milp.Proofs.Search.Answer
import Milp.Proofs.Simplex.Verdict
import Milp.Solve
import Milp.Validation

/-!
# Solutions of models

A solution is what the simplex method answered about some box, moved into that box. Its rows are in
balance before it is moved; what the move and the artificial columns leave of that is the drift of a
row.

Results:
1. `solution_answered`: the values of a solution are an answer of the solver.
2. `activity_valuesWithin`: the activity of a row is the value of its logical column and the drift.
3. `rowsValid_iff_drift`: a solution keeps the constraints, as validation sees them, exactly when no
   row drifts out of its limits.
-/

namespace Milp

variable {n m : Nat}

/-! ## Answers -/

theorem Result.values_of_solution {r : Result Rat ExtendedRat} {solution : Solution Rat}
    (h : r.solution = some solution) : r.values = solution.values := by
  obtain ⟨objective, -, rfl⟩ := Option.map_eq_some_iff.mp h
  rfl

namespace Relaxation

open SimplexState

theorem clamps_solver {K L : Type} [Scalar K] [Limits L K] (p : Relaxation K L n m) (c : Config K) :
    (p.solver c).Clamps :=
  p.clamps_solveWithin c.feasibility c.iterationLimit

/-- The simplex method keeps what is fixed. -/
theorem keepsFixed_task (p : Relaxation Rat ExtendedRat n m) (c : Config Rat)
    (clock : Nat → Duration) : (p.task c clock).KeepsFixed := by
  intro box values objective values' optimal
  obtain ⟨-, -, rfl, -⟩ := solveWithin_optimal optimal
  refine SearchTask.snap_of_integral (stands_exact.mpr rfl) ?_
  intro j hj
  obtain ⟨i, hi⟩ := Exact.exists_int_round values[j]
  refine ⟨i, ?_⟩
  simp only [valuesWithin, SearchTask.fixAt, Vector.getElem_coordinate, Vector.getElem_ofFn, hj, if_true]
  rw [show Scalar.round values[(j : Nat)] = (i : Rat) from hi]
  exact Exact.clamp_of_fixed _ _

end Relaxation

/-- A solution is the last incumbent. -/
theorem SearchTask.incumbent_of_solution {k : SearchTask Rat ExtendedRat n m} {names : List String}
    {solution : Solution Rat} (h : (k.result names).solution = some solution) :
    ∃ i, (k.rounds roundLimit .start).1.incumbent = some i ∧
      solution = ⟨k.relaxation.toObjective i.cost, i.values.toList⟩ := by
  unfold result at h
  dsimp only at h
  split at h
  · rename_i i incumbent
    split at h
    · cases h
      exact ⟨i, incumbent, rfl⟩
    · cases h
  · cases h

/-- The values of a solution are an answer of the solver. -/
theorem SearchTask.solution_answered {k : SearchTask Rat ExtendedRat n m} (keeps : k.KeepsFixed)
    {names : List String} {solution : Solution Rat}
    (h : (k.result names).solution = some solution) :
    ∃ box objective values, (k.solver box).verdict = .optimal objective values ∧
      solution.values = values.toList := by
  obtain ⟨i, incumbent, rfl⟩ := incumbent_of_solution h
  obtain ⟨box, objective, optimal⟩ :=
    answered_of_reached keeps (k.rounds_reached roundLimit) i incumbent
  exact ⟨box, objective, i.values, optimal, rfl⟩

/-! ## Rows -/

namespace SimplexState

open BasisInverse (entryAt)

variable {p : Relaxation Rat ExtendedRat n m} {box : Box ExtendedRat n}
  {s : SimplexState Rat ExtendedRat n m}

/-- How far the activity of a row is from the value of its logical column, once the values are moved
into a box: by what that changes, and by what the artificial column makes up for. -/
def drift (p : Relaxation Rat ExtendedRat n m) (s : SimplexState Rat ExtendedRat n m)
    (box : Box ExtendedRat n) (i : Fin m) : Rat :=
  ∑ j : Fin n, entryAt p.columns[j] i * ((s.valuesWithin box)[j] - s.value (.structural j))
    - (s.signs[i]).getD 0 * s.value (.artificial i)

/-- The activity of a row is the value of its logical column and the drift. -/
theorem activity_valuesWithin (balanced : s.Balanced p) (box : Box ExtendedRat n) (i : Fin m) :
    (activities p (s.valuesWithin box))[i] = s.value (.logical i) + s.drift p box i := by
  have row := balanced i
  rw [imbalance_eq, activities_eq_sum, structuralValues_eq] at row
  simp only [Vector.getElem_coordinate, Vector.getElem_ofFn, Fin.eta] at row
  rw [activities_eq_sum]
  simp only [drift, mul_sub, Finset.sum_sub_distrib, Vector.getElem_coordinate]
  linarith

/-- Nothing drifts where every column has a value that it admits. -/
theorem drift_eq_zero (limited : s.Limited p box) (costs : s.SecondPhase p) (within : s.Within)
    (i : Fin m) : s.drift p box i = 0 := by
  have still (j : Fin n) : (s.valuesWithin box)[j] = s.value (.structural j) := by
    obtain ⟨lower, upper⟩ := within (.structural j)
    rw [(limited.structural j).1] at lower
    rw [(limited.structural j).2] at upper
    simp only [valuesWithin, Vector.getElem_coordinate, Vector.getElem_ofFn]
    exact Exact.clamp_of_mem lower upper
  have none : s.value (.artificial i) = 0 := by
    obtain ⟨lower, upper⟩ := within (.artificial i)
    rw [(limited.artificial i).1, ExtendedRat.finite_le_finite] at lower
    rw [costs.fixed i, ExtendedRat.finite_le_finite] at upper
    exact le_antisymm upper lower
  simp [drift, still, none]

end SimplexState

/-! ## Validation -/

theorem Tolerance.isBetween_of_mem (t : Tolerance) {l u : ExtendedRat} {q : Rat}
    (lower : l ≤ .finite q) (upper : .finite q ≤ u) : t.isBetween l q u = true := by
  simp [Tolerance.isBetween, Tolerance.isAtLeast, Tolerance.isAtMost, Scalar.isUndefined, lower,
    upper]

namespace Model

/-- Validation finds no constraint that an assignment breaks. -/
def RowsValid (m : Model Rat ExtendedRat) (t : Tolerance) (checkIntegrality : Bool)
    (value : Variable → Option Rat) : Prop :=
  ∀ index name activity lower upper,
    .constraint index name activity lower upper ∉ m.violations t checkIntegrality value

variable {t : Tolerance} {checkIntegrality : Bool} {value : Variable → Option Rat}

theorem constraint_mem_constraintViolations {c : Constraint Rat ExtendedRat} {place index : Nat}
    {name : Option String} {activity : Option Rat} {lower upper : ExtendedRat}
    (h : .constraint index name activity lower upper ∈ constraintViolations t value c place) :
    isBetween t c.lower (c.body.eval? value) c.upper = false := by
  unfold constraintViolations at h
  dsimp only at h
  split at h
  · cases h
  · exact Bool.eq_false_iff.mpr ‹_›

/-- A violation of a constraint comes from a constraint. -/
theorem constraint_mem_violations {m : Model Rat ExtendedRat} {index : Nat} {name : Option String}
    {activity : Option Rat} {lower upper : ExtendedRat}
    (h : .constraint index name activity lower upper ∈ m.violations t checkIntegrality value) :
    ∃ c ∈ m.constraints, isBetween t c.lower (c.body.eval? value) c.upper = false := by
  rcases List.mem_append.mp h with h | h
  · obtain ⟨⟨c, place⟩, mem, h⟩ := List.mem_flatMap.mp h
    exact ⟨c, Array.mem_toList_iff.mp (List.fst_mem_of_mem_zipIdx mem),
      constraint_mem_constraintViolations h⟩
  · obtain ⟨e, -, h⟩ := List.mem_flatMap.mp h
    simp only [boundViolations, integralityViolations] at h
    split_ifs at h <;> simp at h

/-- Validation finds no broken constraint exactly when the value of every body is between the limits,
up to the tolerance. -/
theorem rowsValid_iff {m : Model Rat ExtendedRat} :
    m.RowsValid t checkIntegrality value ↔
      ∀ c ∈ m.constraints, isBetween t c.lower (c.body.eval? value) c.upper = true := by
  refine ⟨?_, ?_⟩
  · intro valid c mem
    by_contra broken
    obtain ⟨i, inside, rfl⟩ := Array.getElem_of_mem mem
    let c := m.constraints[i]
    refine valid i c.name (c.body.eval? value) c.lower c.upper (List.mem_append_left _ ?_)
    refine List.mem_flatMap.mpr ⟨(c, i), List.mem_zipIdx_iff_getElem?.mpr (by simp [c]), ?_⟩
    unfold constraintViolations
    dsimp only
    rw [if_neg broken]
    exact List.mem_singleton_self _
  · intro between index name activity lower upper h
    obtain ⟨c, mem, broken⟩ := constraint_mem_violations h
    rw [between c mem] at broken
    cases broken

/-- The values of a result keep the constraints exactly when the activities of the linear program are
between the limits of the rows, up to the tolerance. -/
theorem rowsValid_iff_activities {m : Model Rat ExtendedRat} (h : m.WellFormed)
    (direction : Direction) (t : Tolerance) (checkIntegrality : Bool) {r : Result Rat ExtendedRat}
    {z : Vector Rat m.definitions.size} (values : r.values = z.toList) :
    m.RowsValid t checkIntegrality r.value? ↔ ∀ i : Fin m.constraints.size,
      t.isBetween (m.relaxation direction).rows.lower[i]
        (SimplexState.activities (m.relaxation direction) z)[i]
        (m.relaxation direction).rows.upper[i] = true := by
  have value : r.value? = fun v => z.toList[v.index]? := by
    funext v
    rw [Result.value?, values]
  have row (i : Fin m.constraints.size) :
      isBetween t (m.rowConstraint i).lower
          ((m.rowConstraint i).body.eval? fun v => z.toList[v.index]?) (m.rowConstraint i).upper =
        t.isBetween (m.relaxation direction).rows.lower[i]
          (SimplexState.activities (m.relaxation direction) z)[i]
          (m.relaxation direction).rows.upper[i] := by
    rw [eval?_body h direction z i, (m.rows_relaxation direction i).1,
      (m.rows_relaxation direction i).2]
    rfl
  rw [rowsValid_iff, value]
  refine ⟨fun valid i => row i ▸ valid _ (m.rowConstraint_mem i), ?_⟩
  intro valid c mem
  obtain ⟨i, inside, rfl⟩ := Array.getElem_of_mem mem
  exact (row ⟨i, inside⟩).trans (valid ⟨i, inside⟩)

/-- A solution is the end of a run about some box, moved into it. It keeps the constraints, as
validation sees them, exactly when no row drifts out of its limits: always when every column ends with
a value that it admits. -/
theorem rowsValid_iff_drift {m : Model Rat ExtendedRat} (built : m.Built) (direction : Direction)
    (c : Config Rat) (clock : Nat → Duration)
    (solved : (m.solveTimed direction c clock).solution.isSome = true) :
    ∃ box : Box ExtendedRat m.definitions.size,
      let p := m.relaxation direction
      let s := p.lastState c.feasibility c.iterationLimit box
      ((SimplexState.start p box c.feasibility).run p c.feasibility c.iterationLimit).1 = .optimal ∧
      (m.solveTimed direction c clock).values = (s.valuesWithin box).toList ∧
      (m.RowsValid c.feasibility false (m.solveTimed direction c clock).value? ↔
        ∀ i, c.feasibility.isBetween p.rows.lower[i] (s.value (.logical i) + s.drift p box i)
          p.rows.upper[i] = true) ∧
      (s.Within → m.RowsValid c.feasibility false (m.solveTimed direction c clock).value?) := by
  have wellFormed := built.wellFormed
  obtain ⟨solution, found⟩ := Option.isSome_iff_exists.mp solved
  obtain ⟨box, objective, values, optimal, same⟩ :=
    SearchTask.solution_answered (Relaxation.keepsFixed_task _ c clock) found
  obtain ⟨uncrossed, ends, rfl, -⟩ := Relaxation.solveWithin_optimal optimal
  have columns : box.Ordered := fun j => not_lt.mp (uncrossed j)
  have rows : (m.relaxation direction).rows.Ordered := rows_ordered wellFormed
  obtain ⟨coherent, costs, last⟩ :=
    SimplexState.run_second rows columns (Relaxation.run_eq _ ends) (.inl rfl)
  have balanced := (last.resolve_right fun h => nomatch h.1).2
  have answer := (Result.values_of_solution found).trans same
  refine ⟨box, ends, answer, ?_⟩
  have valid := rowsValid_iff_activities wellFormed direction c.feasibility false answer
  simp only [SimplexState.activity_valuesWithin balanced] at valid
  refine ⟨valid, fun within => valid.mpr fun i => ?_⟩
  obtain ⟨lower, upper⟩ := within (.logical i)
  rw [(coherent.limited.logical i).1] at lower
  rw [(coherent.limited.logical i).2] at upper
  rw [SimplexState.drift_eq_zero coherent.limited costs within, add_zero]
  exact c.feasibility.isBetween_of_mem lower upper

/-- `x ≥ 1.005` and `y ≤ 10¹⁰` for `x` and `y` from 0 to 1, with `x` as the objective. There is no
solution; but the first phase allows what is little beside `10¹⁰`, and so ends with `x = 1`. -/
def drifting : Model Rat ExtendedRat :=
  .ofParts
    #[⟨"x", ⟨some "x", .continuous, .finite 0, .finite 1⟩, none⟩,
      ⟨"y", ⟨some "y", .continuous, .finite 0, .finite 1⟩, none⟩]
    #[⟨⟨[(⟨0⟩, 1)], 0⟩, .finite 1.005, .above, none⟩,
      ⟨⟨[(⟨1⟩, 1)], 0⟩, .below, .finite 10000000000, none⟩]
    ⟨[(⟨0⟩, 1)], 0⟩

theorem built_drifting : drifting.Built := by
  have single (v : Variable) : Expression.Ascending [(v, (1 : Rat))] := List.pairwise_singleton ..
  refine built_ofParts (by decide) (by decide +kernel) (by decide) ?_ (by decide)
    (Expression.copy_expression (single _))
  simp only [List.forall_mem_cons, List.not_mem_nil, false_imp_iff, implies_true, and_true]
  exact ⟨⟨⟨single _, rfl⟩, rfl, by decide⟩, ⟨single _, rfl⟩, rfl, by decide⟩

/-- A solution may break a constraint: the row `x ≥ 1.005` drifts out of its limits. -/
theorem rowsValid_iff_drift_drifting :
    drifting.Built ∧
    (drifting.solveTimed .minimise .standard fun _ => ⟨0⟩).solution.isSome = true ∧
    (drifting.solveTimed .minimise .standard fun _ => ⟨0⟩).values = [1, 0] ∧
    ¬ drifting.RowsValid (Config.standard : Config Rat).feasibility false
      (drifting.solveTimed .minimise .standard fun _ => ⟨0⟩).value? ∧
    ∃ box, ¬ ((drifting.relaxation .minimise).lastState (Config.standard : Config Rat).feasibility
      (Config.standard : Config Rat).iterationLimit box).Within := by
  have solved : (drifting.solveTimed .minimise .standard fun _ => ⟨0⟩).solution.isSome = true := by
    decide +kernel
  have values : (drifting.solveTimed .minimise .standard fun _ => ⟨0⟩).values = [1, 0] := by
    decide +kernel
  have broken : isBetween (Config.standard : Config Rat).feasibility drifting.constraints[0].lower
      (drifting.constraints[0].body.eval?
        (drifting.solveTimed .minimise .standard fun _ => ⟨0⟩).value?)
      drifting.constraints[0].upper = false := by
    decide +kernel
  have invalid : ¬ drifting.RowsValid (Config.standard : Config Rat).feasibility false
      (drifting.solveTimed .minimise .standard fun _ => ⟨0⟩).value? := fun valid =>
    absurd (rowsValid_iff.mp valid drifting.constraints[0] (Array.getElem_mem _)) (Bool.eq_false_iff.mp broken)
  obtain ⟨box, -, -, -, always⟩ :=
    rowsValid_iff_drift built_drifting .minimise .standard (fun _ => ⟨0⟩) solved
  exact ⟨built_drifting, solved, values, invalid, box, fun within => invalid (always within)⟩

end Model

end Milp
