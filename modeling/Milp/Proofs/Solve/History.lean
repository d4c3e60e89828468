import Milp.Proofs.Search.History
import Milp.Proofs.Search.Status
import Milp.Proofs.Solve

/-!
# The history of a result

Results:
1. `result_record`: the solution of a result is the last incumbent.
2. `eval?_objective`: the objective of the linear program is that of the model.
3. `history_sound`: the history of a result goes from one solution to a better one, and the last one
   is its solution.
-/

namespace Milp

variable {K L : Type} {n m : Nat}

namespace SearchTask

section Results

variable [Scalar K] [Limits L K]

/-- An incumbent is never given up: an unbounded root is found before there is one. -/
theorem hasSolution_of_incumbent (k : SearchTask K L n m) (roundLimit : Nat)
    (found : (k.run roundLimit).1.incumbent.isSome = true) :
    (k.run roundLimit).2.hasSolution = true := by
  refine (k.answer_run roundLimit).hasSolution found fun stopped => ?_
  have last : k.rounds roundLimit .start = ((k.rounds roundLimit .start).1, .unbounded) :=
    Prod.ext rfl stopped
  have unbounded := (rounds_stop last (by simp)).1.mp rfl
  have none : (k.run roundLimit).1.incumbent = .none :=
    (alone_of_unbounded (k.rounds_reached roundLimit) unbounded).2
  rw [none] at found
  cases found

/-- The solution of a result is the last incumbent. -/
theorem solution_result (k : SearchTask K L n m) (names : List String) :
    (k.result names).solution = (k.run roundLimit).1.incumbent.map fun i =>
      ⟨k.relaxation.toObjective i.cost, i.values.toList⟩ := by
  have solved := k.hasSolution_of_incumbent Milp.roundLimit
  unfold result
  generalize k.run Milp.roundLimit = last at solved ⊢
  obtain ⟨s, status⟩ := last
  dsimp only at solved ⊢
  cases found : s.incumbent with
  | none => rfl
  | some i => simp [Result.solution, solved (by simp [found])]

/-- Without an incumbent a result has no values. -/
theorem values_of_unsolved {k : SearchTask K L n m} {names : List String}
    (unsolved : (k.result names).solution = none) : (k.result names).values = [] := by
  rw [solution_result, Option.map_eq_none_iff] at unsolved
  unfold result
  dsimp only
  rw [unsolved]

/-- A status promises a solution exactly when there is one. -/
theorem hasSolution_result (k : SearchTask K L n m) (names : List String) :
    (k.result names).status.hasSolution = (k.result names).solution.isSome := by
  rw [k.solution_result names, Option.isSome_map, Bool.eq_iff_iff]
  exact ⟨(k.answer_run Milp.roundLimit).isSome, k.hasSolution_of_incumbent Milp.roundLimit⟩

end Results

section Exact

variable {k : SearchTask Rat ExtendedRat n m}

theorem sound_run (k : SearchTask Rat ExtendedRat n m) (roundLimit : Nat) :
    (k.run roundLimit).1.record.Sound k :=
  sound_of_reached (k.rounds_reached roundLimit)

/-- The solution of a result is the last incumbent, and its history is that of the search. -/
theorem result_record (k : SearchTask Rat ExtendedRat n m) (names : List String) :
    ∃ r : Record Rat n, r.Sound k ∧ (k.result names).statistics.incumbentHistory = r.history ∧
      (k.result names).solution =
        r.incumbent.map fun i => ⟨k.relaxation.toObjective i.cost, i.values.toList⟩ :=
  ⟨(k.run Milp.roundLimit).1.record, k.sound_run Milp.roundLimit, rfl, k.solution_result names⟩

end Exact

end SearchTask

namespace Model

variable {m : Model Rat ExtendedRat}

/-- The objective of the linear program is the value of the objective of the model. -/
theorem eval?_objective (h : m.WellFormed) (direction : Direction)
    (z : Vector Rat m.definitions.size) :
    m.objective.eval? (fun v => z.toList[v.index]?) =
      some ((m.relaxation direction).objectiveOf z.toList) := by
  have covered (t) (ht : t ∈ m.objective.terms) : t.1.index < m.definitions.size := by
    simpa [definitions] using h.objective t ht
  have cost : (m.relaxation direction).costOf z.toList =
      direction.sense * ∑ j : Fin m.definitions.size, m.objective.coefficient ⟨j⟩ * z[j] := by
    rw [Relaxation.costOf_eq_sum, Finset.mul_sum]
    exact Finset.sum_congr rfl fun j _ => by simp [relaxation, Relaxation.ofProblem, mul_assoc]
  rw [Expression.eval?_vector h.order covered, Relaxation.objectiveOf, Relaxation.toObjective, cost]
  show some _ = some (direction.sense * _ + m.objective.constant)
  rw [← mul_assoc, Relaxation.sense_mul_sense, one_mul, add_comm]

/-- The objectives that a search enters in its history get better, each by more than the tolerance of
the cost before it. There is a solution exactly when there is an entry, and then the last entry is the
objective of the solution, which is the value of the objective of the model. -/
theorem history_sound (built : m.Built) (direction : Direction) (c : Config Rat)
    (clock : Nat → Duration) :
    let p := m.relaxation direction
    let r := m.solveTimed direction c clock
    r.statistics.incumbentHistory.IsChain (fun old new =>
      0 < c.feasibility.epsilon (p.toCost old) ∧
        direction.Better (c.feasibility.epsilon (p.toCost old)) old new) ∧
    (r.solution.isSome = true ↔ r.statistics.incumbentHistory ≠ []) ∧
    ∀ solution, r.solution = some solution →
      r.statistics.incumbentHistory.getLast? = some solution.objective ∧
        m.objective.eval? r.value? = some solution.objective := by
  intro p r
  obtain ⟨record, sound, history, solution⟩ := (p.task c clock).result_record m.names
  change r.statistics.incumbentHistory = _ at history
  change r.solution = _ at solution
  rw [history, solution, Option.isSome_map, Option.isSome_iff_ne_none]
  refine ⟨sound.improving.imp fun old new better => ⟨Tolerance.epsilon_pos _ _, better⟩, ?_, ?_⟩
  · rw [not_iff_not, ← List.getLast?_eq_none_iff, sound.last, Option.map_eq_none_iff]
  · intro last found
    obtain ⟨i, incumbent, rfl⟩ := Option.map_eq_some_iff.mp found
    have value : r.value? = fun v => i.values.toList[v.index]? := by
      funext v
      rw [Result.value?, Result.values_of_solution (solution.trans found)]
    have cost : p.objectiveOf i.values.toList = p.toObjective i.cost :=
      congrArg _ (sound.cost i incumbent).symm
    refine ⟨?_, ?_⟩
    · rw [sound.last, incumbent]
      exact congrArg some cost
    · rw [value, eval?_objective built.wellFormed direction]
      exact congrArg some cost

/-- `5 x + 3 y ≤ 11` for integers `x` and `y` from 0 to 3, with `3 x + 2 y + 1` as the objective. -/
def knapsack : Model Rat ExtendedRat :=
  .ofParts
    #[⟨"x", ⟨some "x", .integer, .finite 0, .finite 3⟩, none⟩,
      ⟨"y", ⟨some "y", .integer, .finite 0, .finite 3⟩, none⟩]
    #[⟨⟨[(⟨0⟩, 5), (⟨1⟩, 3)], 0⟩, .below, .finite 11, none⟩]
    ⟨[(⟨0⟩, 3), (⟨1⟩, 2)], 1⟩

theorem built_knapsack : knapsack.Built := by
  refine built_ofParts (by decide) (by decide +kernel) (by decide) ?_ (by decide)
    (Expression.copy_expression (by simp [Expression.Ascending]))
  simp only [List.forall_mem_singleton]
  exact ⟨⟨by simp [Expression.Ascending], rfl⟩, rfl, by decide⟩

/-- The first solution found is `x = 2` and `y = 0`, the better one `x = 1` and `y = 2`. -/
theorem history_knapsack : (knapsack.solveTimed .maximise .standard
    fun _ => ⟨0⟩).statistics.incumbentHistory = [7, 8] := by
  decide +kernel

theorem history_sound_knapsack :
    knapsack.Built ∧
    ∃ r, knapsack.solveTimed .maximise .standard (fun _ => ⟨0⟩) = r ∧
      r.statistics.incumbentHistory = [7, 8] ∧
      r.statistics.incumbentHistory.IsChain (fun old new =>
        0 < (Config.standard : Config Rat).feasibility.epsilon
            ((knapsack.relaxation .maximise).toCost old) ∧
          Direction.maximise.Better ((Config.standard : Config Rat).feasibility.epsilon
            ((knapsack.relaxation .maximise).toCost old)) old new) ∧
      ∃ solution, r.solution = some solution ∧ solution.objective = 8 ∧
        knapsack.objective.eval? r.value? = some 8 := by
  have sound := history_sound built_knapsack .maximise .standard fun _ => ⟨0⟩
  have history := history_knapsack
  dsimp only at sound
  generalize knapsack.solveTimed .maximise .standard (fun _ => ⟨0⟩) = r at sound history ⊢
  obtain ⟨better, entry, last⟩ := sound
  obtain ⟨solution, solved⟩ := Option.isSome_iff_exists.mp (entry.mpr (by simp [history]))
  obtain ⟨entered, value⟩ := last solution solved
  have objective : 8 = solution.objective := by simpa [history] using entered
  exact ⟨built_knapsack, r, rfl, history, better, solution, solved, objective.symm,
    objective ▸ value⟩

end Model

end Milp
