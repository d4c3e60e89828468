import Mathlib.Algebra.BigOperators.Group.Multiset.Basic
import Mathlib.Order.Lattice.Nat
import Milp.Proofs.Search.History
import Milp.Proofs.Search.Prospect
import Milp.Proofs.Search.Status

/-!
# Schedules

Which nodes are taken together, and so which come first, is a matter of the schedule. As long as there
is no incumbent, what grows out of the nodes that wait does not depend on it.

Results:
1. `Grows.of_close`, `Grows.of_split`: whatever path is taken first, the same grows out of those that
   wait.
2. `confluent`: if a search has ended without incumbent, any other that has ended has none, and its
   nodes have the same paths.
3. `quiet_of_reached`: the counts of a search without incumbent are those of its paths.
4. `statistics_of_ended`: when it has ended, its statistics are a function of its paths.
-/

namespace Milp

variable {K L : Type} [Scalar K] [Limits L K] {n m : Nat}

namespace SearchTask

variable {k : SearchTask K L n m} {f f' g : Moment K L n}

/-! ## Growth -/

/-- The paths below those that wait, when all go the ways of their prospects to the end and none leads
to a solution. -/
inductive Grows (k : SearchTask K L n m) : Multiset (Path L n) → Multiset (Path L n) → Prop
  | done : Grows k 0 0
  | close {π : Path L n} {state : NodeState} {waits below : Multiset (Path L n)}
    (prospect : k.prospect π = .close state) (rest : Grows k waits below) :
    Grows k (π ::ₘ waits) below
  | split {π : Path L n} {j : Fin n} {v : K} {waits below : Multiset (Path L n)}
    (prospect : k.prospect π = .split j v) (rest : Grows k (sides π j v + waits) below) :
    Grows k (π ::ₘ waits) (sides π j v + below)

namespace Grows

variable {π : Path L n} {j : Fin n} {v : K} {waits below : Multiset (Path L n)}

theorem of_zero (grows : k.Grows 0 below) : below = 0 := by
  generalize none : (0 : Multiset (Path L n)) = waits at grows
  cases grows with
  | done => rfl
  | close => exact absurd none.symm Multiset.cons_ne_zero
  | split => exact absurd none.symm Multiset.cons_ne_zero

/-- No path that waits leads to a solution. -/
theorem not_settle (grows : k.Grows waits below) (mem : π ∈ waits) (values : Vector K n) :
    k.prospect π ≠ .settle values := by
  induction grows with
  | done => simp at mem
  | close prospect rest ih =>
    rcases Multiset.mem_cons.mp mem with rfl | mem
    · simp [prospect]
    · exact ih mem
  | split prospect rest ih =>
    rcases Multiset.mem_cons.mp mem with rfl | mem
    · simp [prospect]
    · exact ih (Multiset.mem_add.mpr (.inr mem))

/-- A path that is closed may as well be taken first. -/
theorem of_close {state : NodeState} (grows : k.Grows (π ::ₘ waits) below)
    (prospect : k.prospect π = .close state) : k.Grows waits below := by
  generalize all : π ::ₘ waits = before at grows
  induction grows generalizing waits with
  | done => exact absurd all Multiset.cons_ne_zero
  | close prospect' rest ih =>
    rcases Multiset.cons_eq_cons.mp all with ⟨rfl, rfl⟩ | ⟨-, others, rfl, rfl⟩
    · exact rest
    · exact .close prospect' (ih rfl)
  | split prospect' rest ih =>
    rcases Multiset.cons_eq_cons.mp all with ⟨rfl, rfl⟩ | ⟨-, others, rfl, rfl⟩
    · simp [prospect] at prospect'
    · exact .split prospect' (ih (Multiset.add_cons ..).symm)

/-- A path that is split may as well be taken first. -/
theorem of_split (grows : k.Grows (π ::ₘ waits) below) (prospect : k.prospect π = .split j v) :
    ∃ rest, below = sides π j v + rest ∧ k.Grows (sides π j v + waits) rest := by
  generalize all : π ::ₘ waits = before at grows
  induction grows generalizing waits with
  | done => exact absurd all Multiset.cons_ne_zero
  | close prospect' rest ih =>
    rcases Multiset.cons_eq_cons.mp all with ⟨rfl, rfl⟩ | ⟨-, others, rfl, rfl⟩
    · simp [prospect] at prospect'
    · obtain ⟨below, rfl, grows⟩ := ih rfl
      refine ⟨below, rfl, ?_⟩
      rw [Multiset.add_cons]
      exact .close prospect' grows
  | @split π' j' v' _ _ prospect' rest ih =>
    rcases Multiset.cons_eq_cons.mp all with ⟨rfl, rfl⟩ | ⟨-, others, rfl, rfl⟩
    · obtain ⟨rfl, rfl⟩ := Decision.split.inj (prospect.symm.trans prospect')
      exact ⟨_, rfl, rest⟩
    · obtain ⟨below, rfl, grows⟩ := ih (Multiset.add_cons ..).symm
      refine ⟨sides π' j' v' + below, add_left_comm .., ?_⟩
      rw [Multiset.add_cons]
      rw [add_left_comm] at grows
      exact .split prospect' grows

end Grows

/-! ## Confluence -/

/-- The paths of a search come to be these, if all that wait go the ways of their prospects to the
end and none leads to a solution. -/
def Comes (k : SearchTask K L n m) (f : Moment K L n) (paths : Multiset (Path L n)) : Prop :=
  ∃ below, k.Grows f.waits below ∧ paths = below + f.search.tree.paths

variable {paths : Multiset (Path L n)}

/-- Where the paths come to these, no step finds an incumbent. -/
theorem Comes.none (comes : k.Comes f paths) (step : k.QuietStep f f') :
    f'.search.incumbent = none := by
  obtain ⟨below, grows, -⟩ := comes
  cases step with
  | idle none => exact none
  | @work π worked moves =>
    generalize prospect : k.prospect π = d at moves
    cases moves with
    | close none => exact none
    | settle found waits => exact absurd prospect (grows.not_settle waits _)
    | split none => exact none

/-- A step without incumbent changes nothing in what the paths come to. -/
theorem comes_iff (step : k.QuietStep f f') (none : f'.search.incumbent = none) :
    k.Comes f paths ↔ k.Comes f' paths := by
  cases step with
  | idle _ waits paths => rw [Comes, Comes, waits, paths]
  | @work π worked moves =>
    generalize prospect : k.prospect π = d at moves
    cases moves with
    | close _ waits paths =>
      rw [Comes, Comes, waits, paths]
      exact exists_congr fun below => and_congr_left fun _ =>
        ⟨fun grows => grows.of_close prospect, .close prospect⟩
    | settle found => simp [none] at found
    | @split j v rest _ before after paths =>
      rw [Comes, Comes, before, after, paths]
      constructor
      · rintro ⟨_, grows, rfl⟩
        obtain ⟨below, rfl, deeper⟩ := grows.of_split prospect
        exact ⟨below, deeper, (add_assoc ..).trans (add_left_comm ..)⟩
      · rintro ⟨below, grows, rfl⟩
        exact ⟨sides π j v + below, .split prospect grows,
          (add_left_comm ..).trans (add_assoc ..).symm⟩

theorem none_of_next (reached : k.Reached f) (step : k.Next f f')
    (none : f'.search.incumbent = none) : f.search.incumbent = .none := by
  by_contra found
  have later := (change_of_next reached.frontier step).incumbent (Option.isSome_iff_ne_none.mpr found)
  simp [none] at later

theorem comes_start (reached : k.Reached f) (none : f.search.incumbent = none)
    (comes : k.Comes f paths) : k.Comes ⟨.start, []⟩ paths := by
  induction reached with
  | refl => exact comes
  | tail before step ih =>
    have none' := none_of_next before step none
    exact ih none' ((comes_iff (quiet_of_next before none' step) none).mpr comes)

theorem comes_of_start (comes : k.Comes ⟨.start, []⟩ paths) (reached : k.Reached f) :
    f.search.incumbent = none ∧ k.Comes f paths := by
  induction reached with
  | refl => exact ⟨rfl, comes⟩
  | tail before step ih =>
    have quiet := quiet_of_next before ih.1 step
    have none := ih.2.none quiet
    exact ⟨none, (comes_iff quiet none).mp ih.2⟩

theorem comes_iff_of_ended (ended : f.waiting = []) :
    k.Comes f paths ↔ paths = f.search.tree.paths := by
  rw [Comes, Moment.waits_of_ended ended]
  refine ⟨?_, fun same => ⟨0, .done, same.trans (zero_add _).symm⟩⟩
  rintro ⟨below, grows, rfl⟩
  rw [grows.of_zero, zero_add]

/-- If a search has ended without incumbent, any other that has ended has none, and its nodes have the
same paths. -/
theorem confluent (reached : k.Reached f) (ended : f.waiting = []) (none : f.search.incumbent = none)
    (reached' : k.Reached g) (ended' : g.waiting = []) :
    g.search.incumbent = .none ∧ g.search.tree.paths = f.search.tree.paths := by
  have start := comes_start reached none ((comes_iff_of_ended ended).mpr rfl)
  obtain ⟨none', comes⟩ := comes_of_start start reached'
  exact ⟨none', ((comes_iff_of_ended ended').mp comes).symm⟩

/-! ## Counts -/

/-- What the counts of a search without incumbent are: what all paths add to them, but for those that
wait. -/
structure Quiet (k : SearchTask K L n m) (f : Moment K L n) : Prop where
  explored : f.search.statistics.nodesExplored + f.search.queue.size = f.search.tree.paths.card
  iterations : f.search.statistics.simplexIterations + (f.waits.map k.effort).sum =
    (f.search.tree.paths.map k.effort).sum
  countOf : ∀ σ, σ.isCounted = true →
    f.search.statistics.countOf σ + f.waits.countP (fun π => (k.prospect π).state = σ) =
      f.search.tree.paths.countP fun π => (k.prospect π).state = σ
  depth : f.search.statistics.maxDepth = (f.search.tree.paths.map List.length).sup
  once : f.waits.countP (·.isEmpty) ≤ 1
  rootBound : f.search.statistics.rootBound =
    if f.waits.countP (·.isEmpty) = 0 then (k.solver k.box).verdict.objective? else none

/-- A path gives way to its children, if it has any. -/
structure Replaces (f : Moment K L n) (π : Path L n) (f' : Moment K L n)
    (children rest : Multiset (Path L n)) : Prop where
  before : f.waits = π ::ₘ rest
  after : f'.waits = children + rest
  paths : f'.search.tree.paths = children + f.search.tree.paths
  queue : f'.search.queue.size = f.search.queue.size + children.card
  depth : f'.search.statistics.maxDepth =
    max f.search.statistics.maxDepth (children.map List.length).sup
  below : children.countP (·.isEmpty) = 0

theorem Moves.replaces {π : Path L n} {d : Decision K n} (moves : Moves f π f' d)
    (none : f'.search.incumbent = none) : ∃ children rest, Replaces f π f' children rest := by
  cases moves with
  | close _ waits paths queue depth =>
    refine ⟨0, f'.waits, waits, (zero_add _).symm, paths.trans (zero_add _).symm, queue, ?_, rfl⟩
    simpa using depth
  | settle found => simp [none] at found
  | @split j v rest _ before after paths queue depth =>
    refine ⟨sides π j v, rest, before, after, paths, queue, ?_,
      by simp [sides, Multiset.countP_eq_zero]⟩
    simpa [sides] using depth

theorem Quiet.next (quiet : k.Quiet f) (step : k.QuietStep f f')
    (none : f'.search.incumbent = none) : k.Quiet f' := by
  cases step with
  | idle _ waits paths explored rootBound iterations countOf depth =>
    refine ⟨?_, ?_, fun σ counted => ?_, ?_, ?_, ?_⟩
    · rw [explored, paths, quiet.explored]
    · rw [iterations, waits, paths, quiet.iterations]
    · rw [countOf, waits, paths, quiet.countOf σ counted]
    · rw [depth, paths, quiet.depth]
    · rw [waits]
      exact quiet.once
    · rw [rootBound, waits, quiet.rootBound]
  | @work π worked moves =>
    obtain ⟨children, rest, before, after, paths, queue, depth, below⟩ := moves.replaces none
    have once := quiet.once
    have root := quiet.rootBound
    rw [before, Multiset.countP_cons] at once root
    refine ⟨?_, ?_, fun σ counted => ?_, ?_, ?_, ?_⟩
    · have explored := quiet.explored
      rw [worked.explored, queue, paths, Multiset.card_add]
      omega
    · have iterations := quiet.iterations
      rw [before, Multiset.map_cons, Multiset.sum_cons] at iterations
      rw [worked.iterations, paths, after, Multiset.map_add, Multiset.map_add, Multiset.sum_add,
        Multiset.sum_add]
      omega
    · have countOf := quiet.countOf σ counted
      rw [before, Multiset.countP_cons] at countOf
      rw [worked.countOf σ counted, paths, after, Multiset.countP_add, Multiset.countP_add]
      omega
    · rw [depth, paths, quiet.depth, Multiset.map_add, Multiset.sup_add, max_comm]
    · rw [after, Multiset.countP_add, below]
      omega
    · rw [worked.rootBound, root, after, Multiset.countP_add, below, zero_add]
      cases π with
      | nil =>
        have last : rest.countP (·.isEmpty) = 0 := by
          rw [if_pos List.isEmpty_nil] at once
          omega
        rw [last]
        exact Option.or_none
      | cons => simp

theorem quiet_start : k.Quiet ⟨.start, []⟩ := by
  have paths : (Search.start : Search K L n).tree.paths = {[]} := by
    rw [Search.start_tree, Tree.paths]
    exact congrArg ({·} : Path L n → Multiset (Path L n)) Tree.path_root
  have waits : (⟨.start, []⟩ : Moment K L n).waits = {[]} :=
    congrArg ({·} : Path L n → Multiset (Path L n)) Tree.path_root
  refine ⟨?_, ?_, fun σ counted => ?_, ?_, ?_, ?_⟩
  · rw [paths]
    rfl
  · rw [paths, waits]
    exact zero_add _
  · rw [paths, waits]
    cases σ <;> exact zero_add _
  · rw [paths]
    rfl
  · rw [waits]
    rfl
  · rw [waits]
    rfl

/-- The counts of a search without incumbent are those of its paths. -/
theorem quiet_of_reached (reached : k.Reached f) (none : f.search.incumbent = none) : k.Quiet f := by
  induction reached with
  | refl => exact quiet_start
  | tail before step ih =>
    have none' := none_of_next before step none
    exact (ih none').next (quiet_of_next before none' step) none

/-- The statistics of a search that ends without incumbent, by the paths of its nodes. -/
def statisticsOf (k : SearchTask K L n m) (paths : Multiset (Path L n)) : Statistics K L :=
  let count (σ : NodeState) : Nat := paths.countP fun π => (k.prospect π).state = σ
  { nodesCreated := paths.card
    nodesExplored := paths.card
    prunedByBound := count .dominated
    prunedInfeasible := count .infeasible
    branched := count .branched
    integral := count .integral
    numericalFailures := count .failed
    simplexIterations := (paths.map k.effort).sum
    maxDepth := (paths.map List.length).sup
    rootBound := (k.solver k.box).verdict.objective?
    bestBound := none
    incumbentHistory := [] }

theorem statistics_of_ended (reached : k.Reached f) (ended : f.waiting = [])
    (none : f.search.incumbent = none) :
    ({ f.search.statistics with bestBound := .none } : Statistics K L) =
      k.statisticsOf f.search.tree.paths := by
  have quiet := quiet_of_reached reached none
  have waits := Moment.waits_of_ended ended
  have size : f.search.queue.size = 0 := by
    rw [← Queue.length_toList, Moment.queue_of_ended ended]
    rfl
  have countOf (σ : NodeState) (counted : σ.isCounted = true) : f.search.statistics.countOf σ =
      f.search.tree.paths.countP fun π => (k.prospect π).state = σ := by
    rw [← quiet.countOf σ counted, waits]
    rfl
  rw [statisticsOf, Statistics.mk.injEq]
  refine ⟨?_, ?_, countOf .dominated rfl, countOf .infeasible rfl, countOf .branched rfl,
    countOf .integral rfl, countOf .failed rfl, ?_, quiet.depth, ?_, rfl,
    history_of_none reached none⟩
  · exact (ledger_of_reached reached).created.trans (Tree.card_paths _).symm
  · rw [← quiet.explored, size, Nat.add_zero]
  · rw [← quiet.iterations, waits]
    rfl
  · rw [quiet.rootBound, waits]
    rfl

end SearchTask

end Milp
