import Milp.Proofs.Search.Restated
import Milp.Proofs.Solve.History

/-!
# Maximising, minimising and constants

Maximising an objective is minimising its negation, and a constant in an objective is only added to
what comes out.

Results:
1. `solveWithin_restated`: the simplex method sees costs only.
2. `restates_opposite`, `restates_shifted`: the two ways to restate an objective.
3. `objective_restated`: what the results of models with those objectives have in common.
-/

namespace Milp

variable {K L : Type} [Scalar K] [Limits L K] {n m : Nat} {φ : K → K} {ψ : L → L}

/-! ## The simplex method -/

namespace SimplexState

variable (p : Relaxation K L n m) (direction : Direction) (constant : K)

theorem runPhase_restated (t : Tolerance) (left : Nat) (s : SimplexState K L n m) :
    s.runPhase (p.restated direction constant) t left = s.runPhase p t left := by
  induction left generalizing s with
  | zero => rfl
  | succ left ih =>
    have fresh : s.refresh? (p.restated direction constant) = s.refresh? p := rfl
    have step (s : SimplexState K L n m) :
        s.step (p.restated direction constant) t = s.step p t := rfl
    rw [runPhase, runPhase, fresh]
    cases s.refresh? p with
    | none => rfl
    | some s =>
      dsimp only
      rw [step]
      cases s.step p t with
      | inl ending => rfl
      | inr next => exact ih next

theorem run_restated (t : Tolerance) (limit : Nat) (s : SimplexState K L n m) :
    s.run (p.restated direction constant) t limit = s.run p t limit := by
  unfold run reachFeasibility minimise
  simp only [runPhase_restated]
  rfl

end SimplexState

/-- The simplex method sees costs only: it answers the same, with the other objective. -/
theorem Relaxation.solveWithin_restated {p : Relaxation K L n m} {direction : Direction}
    {constant : K}
    (objective : ∀ cost, (p.restated direction constant).toObjective cost = φ (p.toObjective cost))
    (t : Tolerance) (limit : Nat) (box : Box L n) :
    (p.restated direction constant).solveWithin t limit box =
      (p.solveWithin t limit box).mapObjective φ := by
  have start : SimplexState.start (p.restated direction constant) box t =
      SimplexState.start p box t := rfl
  have answer (last : Ending × SimplexState K L n m) :
      (p.restated direction constant).verdict box last = (p.verdict box last).mapObjective φ := by
    obtain ⟨ending, s⟩ := last
    cases ending with
    | optimal => exact congrArg (Verdict.optimal · (s.valuesWithin box)) (objective _)
    | infeasible | unbounded | failed => rfl
  unfold solveWithin
  dsimp only
  rw [start, SimplexState.run_restated, answer]
  split <;> rfl

/-- The task about a restated linear program is the restated task. -/
theorem Relaxation.task_restated {p : Relaxation K L n m} {direction : Direction} {constant : K}
    (objective : ∀ cost, (p.restated direction constant).toObjective cost = φ (p.toObjective cost))
    (c : Config K) (clock : Nat → Duration) :
    (p.restated direction constant).task c clock =
      (p.task c clock).restated direction constant φ := by
  have solver : (p.restated direction constant).solver c =
      fun box => (p.solver c box).mapObjective φ :=
    funext (solveWithin_restated objective c.feasibility c.iterationLimit)
  unfold task
  rw [solver]
  rfl

/-! ## Results -/

/-- The result with other objectives, those of scalars and those of limits. -/
def Result.mapObjectives (φ : K → K) (ψ : L → L) (r : Result K L) : Result K L :=
  { r with
    objective := r.objective.map φ
    statistics := r.statistics.mapObjectives φ ψ }

namespace SearchTask

variable {k : SearchTask K L n m} {direction : Direction} {constant : K}

/-- A restated task has the same result, with the other objectives. -/
theorem result_restated (h : k.Restates direction constant φ ψ) (names : List String) :
    (k.restated direction constant φ).result names = (k.result names).mapObjectives φ ψ := by
  unfold result
  rw [run_restated h]
  generalize k.run Milp.roundLimit = last
  obtain ⟨s, status⟩ := last
  dsimp only [Search.mapObjectives]
  cases s.incumbent with
  | none => rfl
  | some i =>
    dsimp only
    rw [h.objective]
    cases status.hasSolution <;> rfl

end SearchTask

/-! ## Other directions and constants -/

/-- What asks for the opposite. -/
def Direction.opposite : Direction → Direction
  | minimise => .maximise
  | maximise => .minimise

theorem Direction.sense_opposite (d : Direction) : (d.opposite.sense : Rat) = -d.sense := by
  cases d
  · rfl
  · exact (neg_neg 1).symm

namespace ExtendedRat

theorem neg_add_neg (limit : ExtendedRat) (x : Rat) :
    Limits.add (-limit) (-x) = -Limits.add limit x := by
  cases limit with
  | finite q => exact congrArg ExtendedRat.finite (neg_add q x).symm
  | below | above => rfl

theorem add_add (limit : ExtendedRat) (x y : Rat) :
    Limits.add limit (x + y) = Limits.add (Limits.add limit x) y := by
  cases limit with
  | finite q => exact congrArg ExtendedRat.finite (add_assoc q x y).symm
  | below | above => rfl

end ExtendedRat

theorem Relaxation.toObjectiveLimit_opposite (p : Relaxation Rat ExtendedRat n m)
    (cost : ExtendedRat) :
    (p.restated p.direction.opposite (-p.constant)).toObjectiveLimit cost =
      -p.toObjectiveLimit cost := by
  obtain ⟨columns, rows, costs, box, integer, direction, constant⟩ := p
  cases direction with
  | minimise => exact ExtendedRat.neg_add_neg cost constant
  | maximise =>
    refine Eq.trans ?_ (ExtendedRat.neg_add_neg (-cost) constant)
    cases cost with
    | finite q => exact congrArg (ExtendedRat.finite <| · + -constant) (neg_neg q).symm
    | below | above => rfl

namespace SearchTask

variable {k : SearchTask Rat ExtendedRat n m}

theorem margin_of_noGap (noGap : k.config.gap = none) (cost : Rat) :
    k.margin cost = max 0 (k.config.feasibility.epsilon cost) := by
  unfold margin
  rw [noGap]

/-- The margin depends on how large an objective is, not on its sign. -/
theorem margin_restated {direction : Direction} {constant : Rat} {φ : Rat → Rat} {cost : Rat}
    (size : |(k.restated direction constant φ).relaxation.toObjective cost| =
      |k.relaxation.toObjective cost|) :
    (k.restated direction constant φ).margin cost = k.margin cost := by
  rw [← Exact.abs_eq, ← Exact.abs_eq] at size
  unfold margin
  rw [size]
  rfl

/-- Negated objectives, asked for in the opposite direction. -/
theorem restates_opposite (k : SearchTask Rat ExtendedRat n m) :
    k.Restates k.relaxation.direction.opposite (-k.relaxation.constant) (-·) (-·) := by
  let p := k.relaxation
  have negated (cost : Rat) :
      p.direction.opposite.sense * cost + -p.constant = -(p.direction.sense * cost + p.constant) := by
    rw [Direction.sense_opposite]
    ring
  refine ⟨negated, fun objective => ?_, fun cost => ?_, fun x => rfl, fun cost => ?_⟩
  · show (-objective - -p.constant) * p.direction.opposite.sense =
      (objective - p.constant) * p.direction.sense
    rw [Direction.sense_opposite]
    ring
  · exact p.toObjectiveLimit_opposite cost
  · exact margin_restated <| (congrArg abs (negated cost)).trans (abs_neg _)

/-- Objectives moved by a number, where the margin does not depend on them. -/
theorem restates_shifted (noGap : k.config.gap = none) (x : Rat) :
    k.Restates k.relaxation.direction (k.relaxation.constant + x) (· + x) (Limits.add · x) := by
  let p := k.relaxation
  refine ⟨fun cost => ?_, fun objective => ?_, fun cost => ?_, fun y => rfl, fun cost => ?_⟩
  · exact (add_assoc (p.direction.sense * cost) p.constant x).symm
  · show (objective + x - (p.constant + x)) * p.direction.sense =
      (objective - p.constant) * p.direction.sense
    ring
  · exact ExtendedRat.add_add ..
  · rw [margin_of_noGap noGap, margin_of_noGap (k := k.restated _ _ _) noGap]
    rfl

end SearchTask

/-! ## Models -/

namespace Model

open Expression (Ascending)

variable {m : Model Rat ExtendedRat} {e : Expression Rat} {φ : Rat → Rat}
  {ψ : ExtendedRat → ExtendedRat} {direction other : Direction}

/-- An expression in canonical form, about variables that the model has, becomes its objective. -/
theorem setObjective_expression (order : Ascending e.terms)
    (covered : ∀ t ∈ e.terms, t.1.index < m.definitions.size) :
    m.setObjective (.expression e) = .ok { m with objective := e } := by
  have copied := Expression.copy_expression order
  exact setObjective_eq_ok.mpr ⟨copied.symm ▸ covered, by rw [copied]⟩

/-- Objectives that cost the same have the same linear program, but for direction and constant. -/
theorem relaxation_restated (costs : ∀ v, (other.sense * e.coefficient v : Rat) =
      direction.sense * m.objective.coefficient v) :
    ({ m with objective := e } : Model Rat ExtendedRat).relaxation other =
      (m.relaxation direction).restated other e.constant := by
  have cost : ({ m with objective := e }.relaxation other).cost = (m.relaxation direction).cost :=
    congrArg Vector.ofFn <| funext fun j => costs ⟨j⟩
  exact congrArg (fun cost => { (m.relaxation direction).restated other e.constant with cost }) cost

/-- A restated objective has the same result, with the other objectives. -/
theorem solveTimed_restated {c : Config Rat} {clock : Nat → Duration}
    (costs : ∀ v, (other.sense * e.coefficient v : Rat) =
      direction.sense * m.objective.coefficient v)
    (h : ((m.relaxation direction).task c clock).Restates other e.constant φ ψ) :
    ({ m with objective := e } : Model Rat ExtendedRat).solveTimed other c clock =
      (m.solveTimed direction c clock).mapObjectives φ ψ := by
  have task : ({ m with objective := e }.relaxation other).task c clock =
      ((m.relaxation direction).task c clock).restated other e.constant φ := by
    rw [relaxation_restated costs]
    exact Relaxation.task_restated h.objective c clock
  unfold solveTimed
  rw [task]
  exact SearchTask.result_restated h m.names

/-- The negated objective, asked for in the opposite direction, has the same result with all objectives
negated. Without a gap, the objective with a number added has the same result with the number added to
all objectives. -/
theorem objective_restated (built : m.Built) (direction : Direction) (c : Config Rat)
    (clock : Nat → Duration) :
    (∃ negated, m.setObjective (.expression (Operand.expression m.objective).neg) = .ok negated ∧
      negated.solveTimed direction.opposite c clock =
        (m.solveTimed direction c clock).mapObjectives (-·) (-·)) ∧
    (c.gap = none → ∀ x : Rat, ∃ shifted,
      m.setObjective (.expression ((Operand.expression m.objective).add (.number x))) =
        .ok shifted ∧
      shifted.solveTimed direction c clock =
        (m.solveTimed direction c clock).mapObjectives (· + x) (Limits.add · x)) := by
  have wellFormed := built.wellFormed
  refine ⟨⟨_, setObjective_expression (Expression.ascending_scale wellFormed.order _) ?_, ?_⟩,
    fun noGap x => ⟨_, setObjective_expression wellFormed.order wellFormed.objective, ?_⟩⟩
  · intro t ht
    obtain ⟨s, hs, rfl⟩ := List.mem_map.mp ht
    exact wellFormed.objective s hs
  · have constant : (m.objective.scale (-1)).constant = -m.objective.constant := mul_neg_one _
    refine solveTimed_restated (fun v => ?_) (constant ▸ SearchTask.restates_opposite _)
    show direction.opposite.sense * (m.objective.scale (-1)).coefficient v = _
    rw [Expression.coefficient_scale, Direction.sense_opposite]
    ring
  · have constant : m.objective.constant + 1 * x = m.objective.constant + x := by rw [one_mul]
    refine solveTimed_restated (fun v => rfl) ?_
    show SearchTask.Restates _ direction (m.objective.constant + 1 * x) _ _
    exact constant ▸ SearchTask.restates_shifted noGap x

/-- The two solutions of `knapsack`, with `-3 x - 2 y - 1` to minimise and with `3 x + 2 y + 6`. -/
theorem objective_restated_knapsack :
    knapsack.Built ∧
    (∃ negated, knapsack.setObjective
        (.expression (Operand.expression knapsack.objective).neg) = .ok negated ∧
      (negated.solveTimed .minimise .standard fun _ => ⟨0⟩).statistics.incumbentHistory =
        [-7, -8]) ∧
    (Config.standard : Config Rat).gap = none ∧
    ∃ shifted, knapsack.setObjective
        (.expression ((Operand.expression knapsack.objective).add (.number 5))) = .ok shifted ∧
      (shifted.solveTimed .maximise .standard fun _ => ⟨0⟩).statistics.incumbentHistory =
        [12, 13] := by
  have history := history_knapsack
  obtain ⟨⟨negated, negates, opposite⟩, shift⟩ :=
    objective_restated built_knapsack .maximise .standard fun _ => ⟨0⟩
  obtain ⟨shifted, shifts, moved⟩ := shift rfl 5
  generalize knapsack.solveTimed .maximise .standard (fun _ => ⟨0⟩) = r at history opposite moved
  refine ⟨built_knapsack, ⟨negated, negates, ?_⟩, rfl, shifted, shifts, ?_⟩
  · refine (congrArg (·.statistics.incumbentHistory) opposite).trans ?_
    show r.statistics.incumbentHistory.map (-·) = _
    rw [history]
    rfl
  · rw [moved]
    show r.statistics.incumbentHistory.map (· + 5) = _
    rw [history]
    norm_num

end Model

end Milp
