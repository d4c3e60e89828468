import Milp.Proofs.Config
import Milp.Proofs.Search.Schedule
import Milp.Proofs.Solve.History

/-!
# Results of any number of threads

Results:
1. `waiting_of_rounds`: when a search without limits ends, no node waits.
2. `result_of_ended`: where it ends without incumbent, its result is a function of its paths.
3. `threads_agree`: the number of threads cannot change whether a model is found to have a solution,
   nor the result where none is found.
-/

namespace Milp

variable {K L : Type} [Scalar K] [Limits L K] {n m : Nat}

/-- A configuration without limits of nodes and time. -/
structure Config.Unlimited (c : Config K) : Prop extends c.Timeless where
  nodes : c.nodeLimit = none

/-- The task with another number of threads, and with another clock. -/
def SearchTask.scheduled (k : SearchTask K L n m) (threads : Nat) (clock : Nat → Duration) :
    SearchTask K L n m :=
  { k with config := k.config.withThreads threads, clock }

namespace SearchTask

variable {k : SearchTask K L n m} {f f' : Moment K L n} {s : Search K L n} {stop : Stop}

/-! ## Other schedules -/

section Scheduled

variable {threads : Nat} {clock : Nat → Duration}

/-- What may happen next does not depend on the schedule. -/
theorem next_of_scheduled (step : (k.scheduled threads clock).Next f f') : k.Next f f' := by
  cases step with
  | look s batch => exact .look s batch
  | explore batch taken better => exact .explore batch taken better
  | dominate batch taken worse => exact .dominate batch taken worse
  | process s id batch => exact .process s id batch

theorem reached_of_scheduled (reached : (k.scheduled threads clock).Reached f) : k.Reached f :=
  Relation.ReflTransGen.mono (fun _ _ step => next_of_scheduled step) _ _ reached

end Scheduled

/-! ## The end of a search without limits -/

/-- Without limits a search ends because the root is unbounded, or because no node is left. -/
theorem stop_of_unlimited (unlimited : k.config.Unlimited) {roundLimit : Nat}
    (last : k.rounds roundLimit .start = (s, stop)) (ended : stop ≠ .outOfRounds) :
    stop = .exhausted ∨ stop = .unbounded := by
  have free (s : Search K L n) : k.limitReached s = none := by
    unfold limitReached
    rw [unlimited.nodes, unlimited.suffice, unlimited.abort]
    simp [Duration.reaches]
  by_contra limit
  obtain ⟨f, -, reached, -⟩ := limit_of_rounds .start last (by cases stop <;> simp_all)
  simp [free] at reached

/-- When a search without limits ends, no node waits. -/
theorem waiting_of_rounds (unlimited : k.config.Unlimited) {roundLimit : Nat}
    (last : k.rounds roundLimit .start = (s, stop)) (ended : stop ≠ .outOfRounds) :
    (⟨s, []⟩ : Moment K L n).waiting = [] := by
  have reached := reached_of_rounds last
  obtain ⟨unbounded, empty⟩ := rounds_stop last ended
  rcases stop_of_unlimited unlimited last ended with exhausted | root
  · rw [Moment.waiting, Queue.toList_eq_nil_iff.mpr (empty exhausted)]
    rfl
  · -- the root is the only node, and it does not wait any more
    have alone := (alone_of_unbounded reached (unbounded.mp root)).1
    refine List.eq_nil_iff_forall_not_mem.mpr fun id waits => ?_
    obtain ⟨x, here, pending⟩ := reached.frontier.mem_of_waits waits
    have first : id < s.tree.nodes.size := Tree.lt_size_of_some here
    have bounded := (reached.bounded_of_pending here pending (by dsimp only at alone; omega)).2.2
    exact absurd (unbounded.mp root) (Bool.eq_false_iff.mp bounded)

/-- The root is unbounded where the search says so. -/
theorem unbounded_of_ended (reached : k.Reached f) (ended : f.waiting = []) :
    f.search.rootUnbounded = true ↔ (k.solver k.box).verdict = .unbounded := by
  obtain ⟨size, -⟩ := root_of_reached reached
  have here : f.node? 0 = some f.search.tree.nodes[0] := Array.getElem?_eq_getElem size
  refine (rootKnown_of_reached reached here).unbounded fun pending => ?_
  have waits := (reached.frontier.pending 0).mpr ⟨_, here, pending⟩
  simp [ended] at waits

/-! ## Results without solution -/

/-- The result of a search that ends without incumbent, by the paths of its nodes. -/
def resultOf (k : SearchTask K L n m) (names : List String) (paths : Multiset (Path L n)) :
    Result K L :=
  { status := match (k.solver k.box).verdict with
      | .unbounded => .unbounded
      | _ =>
        if 0 < (k.statisticsOf paths).numericalFailures then .numericalFailure else .infeasible
    objective := none
    values := []
    names
    statistics := k.statisticsOf paths }

omit [Scalar K] [Limits L K] in
theorem abandon_of_isEmpty (empty : s.queue.isEmpty = true) : s.abandon = s := by
  obtain ⟨tree, queue, incumbent, statistics, rootUnbounded, looks⟩ := s
  cases queue with
  | empty => rfl
  | node => cases empty

theorem result_of_ended (unlimited : k.config.Unlimited) (names : List String)
    (last : k.rounds roundLimit .start = (s, stop)) (ended : stop ≠ .outOfRounds)
    (none : s.incumbent = none) : k.result names = k.resultOf names s.tree.paths := by
  have reached := reached_of_rounds last
  have waiting := waiting_of_rounds unlimited last ended
  have empty : s.queue.isEmpty = true := Queue.toList_eq_nil_iff.mp (Moment.queue_of_ended waiting)
  have lowest : s.queue.lowestBound = .none := by
    rw [Queue.lowestBound, Queue.toList_eq_nil_iff.mpr empty]
  have statistics : ({ s.statistics with bestBound := .none } : Statistics K L) =
      k.statisticsOf s.tree.paths :=
    statistics_of_ended reached waiting none
  have failures : s.statistics.numericalFailures =
      (k.statisticsOf s.tree.paths).numericalFailures :=
    congrArg (fun t => t.numericalFailures) statistics
  have root := (rounds_stop last ended).1.trans (unbounded_of_ended reached waiting)
  have status : k.status s stop .none = (k.resultOf names s.tree.paths).status := by
    unfold status resultOf
    rw [none, failures]
    rcases stop_of_unlimited unlimited last ended with rfl | rfl
    · cases verdict : (k.solver k.box).verdict with
      | unbounded => cases root.mpr verdict
      | infeasible | failed | optimal => rfl
    · rw [root.mp rfl]
  have bound : k.bestBound s .none = .none := by
    unfold bestBound
    rw [none]
  unfold result run
  rw [last]
  dsimp only
  rw [lowest, abandon_of_isEmpty empty, bound, status]
  simp only [Search.tally, none, statistics, resultOf]

theorem solution_eq_none_iff (k : SearchTask K L n m) (names : List String) :
    (k.result names).solution = none ↔ (k.rounds roundLimit .start).1.incumbent = none := by
  have last (roundLimit : Nat) :
      (k.run roundLimit).1.incumbent = (k.rounds roundLimit .start).1.incumbent := rfl
  rw [k.solution_result, Option.map_eq_none_iff, last]

theorem result_scheduled (unlimited : k.config.Unlimited) (names : List String)
    {threads threads' : Nat} {clock clock' : Nat → Duration}
    (ended : ((k.scheduled threads clock).rounds roundLimit .start).2 ≠ .outOfRounds)
    (ended' : ((k.scheduled threads' clock').rounds roundLimit .start).2 ≠ .outOfRounds)
    (none : ((k.scheduled threads clock).rounds roundLimit .start).1.incumbent = none) :
    ((k.scheduled threads' clock').rounds roundLimit .start).1.incumbent = .none ∧
      (k.scheduled threads clock).result names = (k.scheduled threads' clock').result names ∧
      ((k.scheduled threads clock).rounds roundLimit .start).1.tree.paths =
        ((k.scheduled threads' clock').rounds roundLimit .start).1.tree.paths := by
  have free (threads : Nat) (clock : Nat → Duration) : (k.scheduled threads clock).config.Unlimited :=
    ⟨⟨unlimited.suffice, unlimited.abort⟩, unlimited.nodes⟩
  obtain ⟨none', paths⟩ := confluent (k := k)
    (reached_of_scheduled ((k.scheduled threads clock).rounds_reached roundLimit))
    (waiting_of_rounds (free ..) (Prod.eta _).symm ended) none
    (reached_of_scheduled ((k.scheduled threads' clock').rounds_reached roundLimit))
    (waiting_of_rounds (free ..) (Prod.eta _).symm ended')
  refine ⟨none', ?_, paths.symm⟩
  rw [result_of_ended (free ..) names (Prod.eta _).symm ended none,
    result_of_ended (free ..) names (Prod.eta _).symm ended' none', paths]
  rfl

/-- Two searches without limits that differ in their schedules only find solutions in the same cases.
Where they find none they end with the same result, and their trees have the same paths. -/
theorem schedules_agree (unlimited : k.config.Unlimited) (names : List String)
    (threads threads' : Nat) (clock clock' : Nat → Duration)
    (ended : ((k.scheduled threads clock).rounds roundLimit .start).2 ≠ .outOfRounds)
    (ended' : ((k.scheduled threads' clock').rounds roundLimit .start).2 ≠ .outOfRounds) :
    (((k.scheduled threads clock).result names).solution.isSome = true ↔
      ((k.scheduled threads' clock').result names).solution.isSome = true) ∧
    (((k.scheduled threads clock).result names).solution = none →
      (k.scheduled threads clock).result names = (k.scheduled threads' clock').result names ∧
      ((k.scheduled threads clock).rounds roundLimit .start).1.tree.paths =
        ((k.scheduled threads' clock').rounds roundLimit .start).1.tree.paths) := by
  rw [Option.isSome_iff_ne_none, Option.isSome_iff_ne_none, not_iff_not, solution_eq_none_iff,
    solution_eq_none_iff]
  refine ⟨⟨fun none => ?_, fun none => ?_⟩, fun none => ?_⟩
  · exact (result_scheduled unlimited names ended ended' none).1
  · exact (result_scheduled unlimited names ended' ended none).1
  · exact (result_scheduled unlimited names ended ended' none).2

end SearchTask

namespace Model

/-- The number of threads cannot change whether a solution is found. Of two searches for one model
without limits of nodes and time that end, with any numbers of threads, one has a solution exactly when
the other has. Where they have none, their results are the same, with the status and all statistics,
and the same tree of changes is built, though its nodes may be numbered differently. -/
theorem threads_agree (m : Model K L) (direction : Direction) {c : Config K}
    (unlimited : c.Unlimited) (threads threads' : Nat) (clock clock' : Nat → Duration) :
    let k := (m.relaxation direction).task (c.withThreads threads) clock
    let k' := (m.relaxation direction).task (c.withThreads threads') clock'
    let r := m.solveTimed direction (c.withThreads threads) clock
    let r' := m.solveTimed direction (c.withThreads threads') clock'
    (k.rounds roundLimit .start).2 ≠ .outOfRounds → (k'.rounds roundLimit .start).2 ≠ .outOfRounds →
    (r.solution.isSome = true ↔ r'.solution.isSome = true) ∧
    (r.solution = none → r = r' ∧
      (k.rounds roundLimit .start).1.tree.paths = (k'.rounds roundLimit .start).1.tree.paths) := by
  let base := (m.relaxation direction).task c clock
  have task (threads : Nat) (clock : Nat → Duration) : base.scheduled threads clock =
      (m.relaxation direction).task (c.withThreads threads) clock := rfl
  have agree := SearchTask.schedules_agree (k := base) unlimited m.names threads threads' clock clock'
  rw [task, task] at agree
  exact agree

/-- Twice the sum of two integers from 0 to 1 is 1. -/
def oddSum : Model Rat ExtendedRat :=
  .ofParts
    #[⟨"x", ⟨some "x", .integer, .finite 0, .finite 1⟩, none⟩,
      ⟨"y", ⟨some "y", .integer, .finite 0, .finite 1⟩, none⟩]
    #[⟨⟨[(⟨0⟩, 2), (⟨1⟩, 2)], 0⟩, .finite 1, .finite 1, none⟩]
    ⟨[(⟨0⟩, 1), (⟨1⟩, 1)], 0⟩

/-- One thread splits the first of two nodes before it takes the second, and three threads take both
together. -/
theorem threads_agree_oddSum :
    (Config.standard : Config Rat).Unlimited ∧
    (oddSum.solveTimed .minimise (Config.standard.withThreads 1) fun _ => ⟨0⟩).status =
      .infeasible ∧
    (oddSum.solveTimed .minimise (Config.standard.withThreads 1) fun _ => ⟨0⟩).statistics.nodesCreated
      = 5 ∧
    oddSum.solveTimed .minimise (Config.standard.withThreads 1) (fun _ => ⟨0⟩) =
      oddSum.solveTimed .minimise (Config.standard.withThreads 3) (fun _ => ⟨0⟩) := by
  have unlimited : (Config.standard : Config Rat).Unlimited := ⟨⟨rfl, rfl⟩, rfl⟩
  obtain ⟨-, same⟩ := threads_agree oddSum .minimise unlimited 1 3 (fun _ => ⟨0⟩) (fun _ => ⟨0⟩)
    (by decide +kernel) (by decide +kernel)
  have unsolved : (oddSum.solveTimed .minimise (Config.standard.withThreads 1)
      fun _ => ⟨0⟩).solution.isNone = true := by
    decide +kernel
  exact ⟨unlimited, by decide +kernel, by decide +kernel, (same (Option.isNone_iff_eq_none.mp unsolved)).1⟩

end Model

end Milp
