import Milp.Proofs.Search.Truncated
import Milp.Proofs.Solve.History

/-!
# Results under limits

Results:
1. `truncates_result`: the result of a search under a node limit is a truncation of that under a wider
   one.
2. `limits_truncate`: what limits do to the results of a model.
-/

namespace Milp

variable {K L : Type} {n m : Nat}

/-- A result is what another one was when some number of nodes was explored: its history is a
beginning of the other's, and where it has a solution the other has the same or better ones. -/
structure Result.Truncates [Scalar K] (p : Relaxation K L n m) (t : Tolerance) (limit : Nat)
    (short long : Result K L) : Prop where
  history : short.statistics.incumbentHistory <+: long.statistics.incumbentHistory
  explored : short.statistics.nodesExplored = min limit long.statistics.nodesExplored
  solution : ∀ old, short.solution = some old → ∃ new, long.solution = some new ∧
    ∃ cost better, old.objective = p.toObjective cost ∧ new.objective = p.toObjective better ∧
      t.Gains cost better

namespace SearchTask

variable [Scalar K] [Limits L K] {k : SearchTask K L n m} {limit : Nat} {clock : Nat → Duration}

variable (clock) in
/-- The record under a node limit is that under a wider one, or one that leads to it. -/
theorem record_limited (timeless : k.config.Timeless)
    (wider : ∀ l, k.config.nodeLimit = some l → limit ≤ l) (roundLimit : Nat) :
    let short := ((k.limited limit clock).run roundLimit).1.record
    let long := (k.run roundLimit).1.record
    short.explored = min limit long.explored ∧
      ∃ r : Record K n, r.history = short.history ∧ r.incumbent = short.incumbent ∧
        r.Leads k long := by
  intro short long
  have below : short.explored ≤ limit :=
    explored_le_limit (k := k.limited limit clock) (s := .start) rfl roundLimit (Nat.zero_le _)
  rcases rounds_limited clock timeless wider roundLimit .start with
    same | ⟨full, r, history, incumbent, explored, leads⟩
  · have records : short = long := congrArg (·.1.record) same
    exact ⟨by rw [← records, min_eq_right below], long, by rw [records], by rw [records], .refl⟩
  · have reached : limit ≤ long.explored := full.trans (explored.trans leads.explored)
    exact ⟨(le_antisymm below full).trans (min_eq_left reached).symm, r, history, incumbent, leads⟩

/-- The result of a search under a node limit is a truncation of that under a wider one. -/
theorem truncates_result (timeless : k.config.Timeless)
    (wider : ∀ l, k.config.nodeLimit = some l → limit ≤ l) (names : List String) :
    ((k.limited limit clock).result names).Truncates k.relaxation k.config.feasibility limit
      (k.result names) := by
  obtain ⟨explored, r, history, incumbent, leads⟩ :=
    record_limited clock timeless wider roundLimit
  refine ⟨?_, explored, ?_⟩
  · show ((k.limited limit clock).run roundLimit).1.record.history <+: _
    rw [← history]
    exact leads.history
  · intro old solved
    rw [solution_result, Option.map_eq_some_iff] at solved
    obtain ⟨i, found, rfl⟩ := solved
    obtain ⟨i', found', gains⟩ := leads.incumbent (incumbent.trans found)
    have found'' : (k.run roundLimit).1.incumbent = some i' := found'
    refine ⟨_, by rw [solution_result, found'']; rfl, i.cost, i'.cost, rfl, rfl, gains⟩

/-- Where any solution suffices, the history of one node at a time ends with the first entry. -/
theorem history_result_eager {abort : Duration} (timeless : k.config.Timeless)
    (single : k.config.threads = 1) (far : ∀ look, (clock look).reaches (some abort) = false)
    (names : List String) :
    ((k.eager abort clock).result names).statistics.incumbentHistory =
      (k.result names).statistics.incumbentHistory.take 1 :=
  history_eager timeless single far roundLimit rfl rfl

end SearchTask

/-! ## Models -/

/-- Improvements beyond the tolerance add up. -/
theorem Tolerance.Gains.le {t : Tolerance} {cost better : Rat} (gains : t.Gains cost better) :
    better ≤ cost := by
  induction gains with
  | refl => exact le_rfl
  | @tail last next _ step ih =>
    have positive : 0 < t.epsilon last := Tolerance.epsilon_pos t last
    linarith

theorem Result.Truncates.asGood {p : Relaxation Rat ExtendedRat n m} {t : Tolerance} {limit : Nat}
    {short long : Result Rat ExtendedRat} (truncates : short.Truncates p t limit long)
    {old : Solution Rat} (solved : short.solution = some old) :
    ∃ new, long.solution = some new ∧ p.direction.AsGood new.objective old.objective := by
  obtain ⟨new, solved', cost, better, objective, objective', gains⟩ :=
    truncates.solution old solved
  refine ⟨new, solved', ?_⟩
  rw [objective, objective']
  exact Relaxation.asGood_toObjective.mpr gains.le

namespace Model

/-- Limits only truncate the search, whatever the numbers, the number of threads and the clocks.

A search under a node limit is that under a wider limit, or without one, up to the moment when the limit
is reached: its history is a beginning of the other's, and a solution of the one is followed by better
ones of the other. Where any solution suffices and one node is taken at a time, the history ends with
its first entry. -/
theorem limits_truncate :
    (∀ (K L : Type) [Scalar K] [Limits L K] (m : Model K L) (direction : Direction) (c : Config K)
      (clock clock' : Nat → Duration), c.Timeless →
      (∀ limit, (∀ l, c.nodeLimit = some l → limit ≤ l) →
        (m.solveTimed direction (c.withNodeLimit limit) clock).Truncates (m.relaxation direction)
          c.feasibility limit (m.solveTimed direction c clock')) ∧
      (c.threads = 1 → ∀ abort eager, c.withTimeLimits ⟨0⟩ abort = .ok eager →
        (∀ look, (clock look).reaches (some abort) = false) →
        (m.solveTimed direction eager clock).statistics.incumbentHistory =
          (m.solveTimed direction c clock').statistics.incumbentHistory.take 1)) ∧
    ∀ (m : Model Rat ExtendedRat) (direction : Direction) (c : Config Rat)
      (clock clock' : Nat → Duration), c.Timeless →
      ∀ limit, (∀ l, c.nodeLimit = some l → limit ≤ l) →
      ∀ old, (m.solveTimed direction (c.withNodeLimit limit) clock).solution = some old →
      ∃ new, (m.solveTimed direction c clock').solution = some new ∧
        direction.AsGood new.objective old.objective := by
  have truncates (K L : Type) [Scalar K] [Limits L K] (m : Model K L) (direction : Direction)
      (c : Config K) (clock clock' : Nat → Duration) (timeless : c.Timeless) (limit : Nat)
      (wider : ∀ l, c.nodeLimit = some l → limit ≤ l) :
      (m.solveTimed direction (c.withNodeLimit limit) clock).Truncates (m.relaxation direction)
        c.feasibility limit (m.solveTimed direction c clock') :=
    SearchTask.truncates_result (k := (m.relaxation direction).task c clock') timeless wider _
  refine ⟨fun K L _ _ m direction c clock clock' timeless => ⟨?_, ?_⟩, ?_⟩
  · exact truncates K L m direction c clock clock' timeless
  · intro single abort eager limited far
    obtain ⟨-, rfl⟩ := Config.withTimeLimits_ok limited
    exact SearchTask.history_result_eager (k := (m.relaxation direction).task c clock') timeless
      single far _
  · intro m direction c clock clock' timeless limit wider old solved
    exact (truncates Rat ExtendedRat m direction c clock clock' timeless limit wider).asGood solved

/-- Of the two solutions of `knapsack`, two nodes are enough for the first, and so is a search that any
solution suffices for. -/
theorem limits_truncate_knapsack :
    (Config.standard : Config Rat).Timeless ∧
    (knapsack.solveTimed .maximise .standard fun _ => ⟨0⟩).statistics.incumbentHistory = [7, 8] ∧
    (knapsack.solveTimed .maximise (Config.standard.withNodeLimit 2) fun _ => ⟨0⟩).Truncates
      (knapsack.relaxation .maximise) ⟨12, 9⟩ 2 (knapsack.solveTimed .maximise .standard fun _ => ⟨0⟩) ∧
    (∃ old new,
      (knapsack.solveTimed .maximise (Config.standard.withNodeLimit 2) fun _ => ⟨0⟩).solution =
        some old ∧ old.objective = 7 ∧
      (knapsack.solveTimed .maximise .standard fun _ => ⟨0⟩).solution = some new ∧
      Direction.maximise.AsGood new.objective old.objective) ∧
    ∃ eager, (Config.standard : Config Rat).withTimeLimits ⟨0⟩ ⟨1⟩ = .ok eager ∧
      (knapsack.solveTimed .maximise eager fun _ => ⟨0⟩).statistics.incumbentHistory = [7] := by
  have timeless : (Config.standard : Config Rat).Timeless := ⟨rfl, rfl⟩
  have history := history_knapsack
  obtain ⟨truncates, first⟩ := limits_truncate.1 Rat ExtendedRat knapsack .maximise .standard
    (fun _ => ⟨0⟩) (fun _ => ⟨0⟩) timeless
  have asGood := limits_truncate.2 knapsack .maximise .standard (fun _ => ⟨0⟩) (fun _ => ⟨0⟩) timeless
    2 nofun
  obtain ⟨old, solved, objective⟩ : ∃ old,
      (knapsack.solveTimed .maximise (Config.standard.withNodeLimit 2) fun _ => ⟨0⟩).solution =
        some old ∧ old.objective = 7 := by
    have found : (knapsack.solveTimed .maximise (Config.standard.withNodeLimit 2)
        fun _ => ⟨0⟩).solution.map (·.objective) = some 7 := by decide +kernel
    exact Option.map_eq_some_iff.mp found
  obtain ⟨new, solved', better⟩ := asGood old solved
  refine ⟨timeless, history, truncates 2 nofun, ⟨old, new, solved, objective, solved', better⟩, _, rfl, ?_⟩
  rw [first rfl ⟨1⟩ _ rfl fun _ => by decide, history]
  rfl

end Model

end Milp
