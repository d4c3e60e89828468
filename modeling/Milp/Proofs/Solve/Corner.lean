import Milp.Proofs.Search.Cover
import Milp.Proofs.Search.Truncated
import Milp.Proofs.Simplex.Corner
import Milp.Proofs.Solve.Ends
import Milp.Proofs.Solve.History

/-!
# Models without constraints

A search whose root has an integral outcome ends there. Without constraints the outcome of the root is
a corner of its bounds, which has integers for the integer columns.

Results:
1. `result_of_integral`: where the outcome of the root is integral, it is the solution, and no other
   node is explored.
2. `Model.unconstrained_solution`: a model without constraints whose variables have finite bounds is
   solved by a corner of the root's bounds, and its objective is the best one up to the tolerance.
-/

namespace Milp

variable {n m : Nat}

namespace SearchTask

variable {k : SearchTask Rat ExtendedRat n m} {values : Vector Rat n} {objective : Rat}

/-! ## Integral outcomes -/

/-- Integer columns have integers for values. -/
def Integral (k : SearchTask Rat ExtendedRat n m) (values : Vector Rat n) : Prop :=
  ∀ j, k.isInteger j = true → ∃ i : Int, values[j] = i

theorem Integral.not_fractional (h : k.Integral values) (j : Fin n) : ¬ k.Fractional values j := by
  intro fractional
  obtain ⟨integer, apart⟩ := fractional.spec
  obtain ⟨i, hi⟩ := h j integer
  exact apart i (congrArg _ (congrArg _ hi))

theorem Integral.offered (h : k.Integral values) :
    k.offered none values = some ⟨k.relaxation.costOf values.toList, values⟩ := by
  have still : k.snap values = values :=
    snap_of_integral (stands_exact.mpr rfl) h
  unfold SearchTask.offered
  rw [still]
  rfl

/-- As long as there is no incumbent, a node with an integral outcome is closed by it. -/
theorem Integral.fate (h : k.Integral values) {s s' : Search Rat ExtendedRat n} {id : Nat}
    {x : Node ExtendedRat n} (none : s.incumbent = none)
    (fate : Fate k s id x (.optimal objective values) s') :
    s'.queue = s.queue ∧ s'.incumbent = some ⟨k.relaxation.costOf values.toList, values⟩ ∧
      s'.statistics.nodesExplored = s.statistics.nodesExplored ∧
      s'.statistics.numericalFailures = s.statistics.numericalFailures ∧
      s'.rootUnbounded = s.rootUnbounded := by
  cases fate with
  | split optimal fractional =>
    cases optimal
    exact absurd fractional (h.not_fractional _)
  | closed why after queue =>
    cases why with
    -- anything improves on no incumbent
    | dominated worse => simp [none, canImprove] at worse
    | rounded tolerated away => exact absurd (.inr away) (h.not_fractional _)
    | settled integral =>
      exact ⟨queue, after.incumbent.trans (none ▸ h.offered), after.counts.explored, after.failures,
        after.unbounded.trans (Bool.or_false _)⟩

/-! ## The root alone -/

/-- The state after the root is taken from the queue. -/
def rootTaken : Search Rat ExtendedRat n :=
  { (Search.start : Search Rat ExtendedRat n) with
    queue := .empty
    statistics := { Statistics.zero with nodesCreated := 1, nodesExplored := 1 }
    looks := 1 }

/-- The first batch is the root. -/
theorem takeBatch_start (free : k.limitReached .start = none) (room : Nat) :
    k.takeBatch (room + 1) (Search.start : Search Rat ExtendedRat n).queue .start =
      (rootTaken, [0], none) := by
  have taken : (Search.start : Search Rat ExtendedRat n).queue.pop? =
      some (⟨.below, 0, 0⟩, .empty) := rfl
  rw [takeBatch_of_better taken free rfl]
  cases room with
  | zero =>
    rw [takeBatch]
    rfl
  | succ room =>
    rw [takeBatch_of_none rfl]
    rfl

section Root

variable (threads : 0 < k.config.threads) (free : k.limitReached .start = none)
  (optimal : (k.solver k.box).verdict = .optimal objective values) (integral : k.Integral values)

include threads free optimal integral

/-- The first round is the last: the root is closed by its outcome. -/
theorem round_of_integral : ∃ s, k.round .start = (s, some .exhausted) ∧ s.queue = .empty ∧
    s.incumbent = some ⟨k.relaxation.costOf values.toList, values⟩ ∧
    s.statistics.nodesExplored = 1 ∧ s.statistics.numericalFailures = 0 := by
  obtain ⟨room, more⟩ := Nat.exists_eq_succ_of_ne_zero threads.ne'
  have bounds : (rootTaken : Search Rat ExtendedRat n).tree.bounds 0 k.box = k.box := by
    show (Tree.root : Tree ExtendedRat n).bounds 0 k.box = k.box
    rw [Tree.bounds, Tree.path_eq_of_some rfl]
    rfl
  have here : (rootTaken : Search Rat ExtendedRat n).tree.nodes[0]? = some _ := rfl
  have fate := k.process_fate (k.solver k.box) here
  rw [optimal] at fate
  obtain ⟨queue, incumbent, explored, failures, unbounded⟩ := integral.fate rfl fate
  refine ⟨k.process rootTaken 0 (k.solver k.box), ?_, queue, incumbent, explored, failures⟩
  unfold round
  rw [more, takeBatch_start free]
  simp only [List.map_cons, List.map_nil, List.foldl_cons, List.foldl_nil, bounds]
  rw [unbounded, queue]
  rfl

/-- The solution is the outcome of the root, and no other node is explored. -/
theorem result_of_integral (names : List String) :
    (k.result names).status = .optimal ∧ (k.result names).statistics.nodesExplored = 1 ∧
      (k.result names).solution =
        some ⟨k.relaxation.objectiveOf values.toList, values.toList⟩ := by
  obtain ⟨s, round, queue, incumbent, explored, failures⟩ :=
    round_of_integral threads free optimal integral
  have first : k.rounds 1 .start = (s, .exhausted) := by
    rw [rounds, round]
  -- the rounds that are left over do nothing
  have last : k.rounds roundLimit .start = (s, .exhausted) :=
    rounds_of_le first (by simp) Nat.one_le_two_pow
  have status : k.status s.abandon .exhausted s.queue.lowestBound = .optimal := by
    unfold SearchTask.status
    rw [show s.abandon.incumbent = _ from incumbent,
      show s.abandon.statistics.numericalFailures = _ from failures]
    rfl
  have solution := k.solution_result names
  unfold result run at solution ⊢
  rw [last] at solution ⊢
  exact ⟨status, explored, solution.trans (congrArg _ incumbent)⟩

end Root

/-! ## The bounds of the root -/

theorem box_of_continuous {j : Fin n} (continuous : k.isInteger j = false) :
    k.box.lower[j] = k.relaxation.box.lower[j] ∧ k.box.upper[j] = k.relaxation.box.upper[j] := by
  simp [box, continuous]

/-- Only the bounds of integer columns may be crossed at the root. -/
theorem ordered_box (ordered : k.relaxation.box.Ordered)
    (uncrossed : ∀ j, k.isInteger j = true → k.box.lower[j] ≤ k.box.upper[j]) : k.box.Ordered := by
  intro j
  cases integer : k.isInteger j with
  | true => exact uncrossed j integer
  | false =>
    obtain ⟨lower, upper⟩ := box_of_continuous integer
    rw [lower, upper]
    exact ordered j

theorem finite_box (finite : k.relaxation.box.Finite) : k.box.Finite := by
  intro j
  cases integer : k.isInteger j with
  | true =>
    exact bounded_exact (fun j _ => finite j) j integer
  | false =>
    obtain ⟨lower, upper⟩ := box_of_continuous integer
    rw [lower, upper]
    exact finite j

/-- The corners of the root's bounds have integers for the integer columns. -/
theorem integral_corner (bounded : k.Bounded) (cutoff : Rat) :
    k.Integral (k.relaxation.corner k.box cutoff) := by
  intro j integer
  obtain ⟨a, b, lower, upper⟩ := bounded.limits integer
  rw [k.box.reading_exact] at lower upper
  rw [Relaxation.getElem_corner, lower, upper]
  split
  · exact ⟨b, rfl⟩
  · exact ⟨a, rfl⟩

end SearchTask

/-! ## Linear programs without rows -/

namespace Relaxation

variable {p : Relaxation Rat ExtendedRat n m}

theorem abs_toObjective_sub (a b : Rat) : |p.toObjective a - p.toObjective b| = |a - b| := by
  have apart : p.toObjective a - p.toObjective b = p.direction.sense * (a - b) := by
    unfold toObjective
    ring
  rw [apart, abs_sense_mul]

/-- The objective of a corner at a cutoff a little below zero is nearly the best one. -/
theorem abs_objectiveOf_corner_sub_le {box : Box ExtendedRat n} (finite : box.Finite)
    (ordered : box.Ordered) {e : Rat} (nonneg : 0 ≤ e) :
    |p.objectiveOf (p.corner box (-e)).toList - p.objectiveOf (p.corner box 0).toList| ≤
      e * box.extent := by
  have least := costOf_corner_zero_le (p := p) finite (p.holds_corner finite ordered (-e))
  have near := costOf_corner_le (p := p) finite ordered nonneg
  unfold objectiveOf
  rw [abs_toObjective_sub, abs_of_nonneg (sub_nonneg.mpr least)]
  linarith

/-- Without rows a linear program with integer columns is solved at the root, by a corner of the root's
bounds. -/
theorem result_corner [IsEmpty (Fin m)] {c : Config Rat} {clock : Nat → Duration}
    (finite : p.box.Finite) (ordered : (p.task c clock).box.Ordered) (threads : 0 < c.threads)
    (free : (p.task c clock).limitReached .start = none)
    (enough : Finset.card {j : Fin n | p.cost[j] < -c.feasibility.absolute} < c.iterationLimit)
    (names : List String) :
    let r := (p.task c clock).result names
    let values := p.corner (p.task c clock).box (-c.feasibility.absolute)
    r.status = .optimal ∧ r.statistics.nodesExplored = 1 ∧
      r.solution = some ⟨p.objectiveOf values.toList, values.toList⟩ :=
  SearchTask.result_of_integral threads free
    (solveWithin_corner (SearchTask.finite_box finite) ordered enough)
    (SearchTask.integral_corner (SearchTask.bounded_exact fun j _ => finite j) _) names

end Relaxation

/-- Without time limits, and with a node limit other than zero, the root may be explored. -/
theorem SearchTask.limitReached_start {k : SearchTask Rat ExtendedRat n m}
    (timeless : k.config.Timeless) (nodes : k.config.nodeLimit ≠ some 0) :
    k.limitReached .start = none := by
  rw [limitReached_of_timeless timeless]
  refine if_neg fun reached => ?_
  obtain ⟨limit, held, full⟩ := (Option.any_eq_true ..).mp reached
  exact nodes (held.trans (congrArg some (Nat.le_zero.mp (of_decide_eq_true full))))

/-! ## Models without constraints -/

namespace Model

variable {m : Model Rat ExtendedRat}

/-- The best value that the objective has within a box. -/
structure IsBest (m : Model Rat ExtendedRat) (direction : Direction)
    (box : Box ExtendedRat m.definitions.size) (best : Rat) : Prop where
  attained : ∃ z, box.Holds z ∧ m.objective.eval? (fun v => z.toList[v.index]?) = some best
  asGood : ∀ z, box.Holds z → ∀ other,
    m.objective.eval? (fun v => z.toList[v.index]?) = some other → direction.AsGood best other

theorem isBest_corner (h : m.WellFormed) (direction : Direction)
    {box : Box ExtendedRat m.definitions.size} (finite : box.Finite) (ordered : box.Ordered) :
    m.IsBest direction box
      ((m.relaxation direction).objectiveOf ((m.relaxation direction).corner box 0).toList) where
  attained :=
    ⟨_, (m.relaxation direction).holds_corner finite ordered 0, eval?_objective h direction _⟩
  asGood z inside other value := by
    obtain rfl := Option.some.inj ((eval?_objective h direction z).symm.trans value)
    exact Relaxation.asGood_toObjective (p := m.relaxation direction).mpr
      (Relaxation.costOf_corner_zero_le finite inside)

theorem finite_relaxation (direction : Direction)
    (finite : ∀ d ∈ m.definitions,
      Limits.isFinite d.lower = true ∧ Limits.isFinite d.upper = true) : (m.relaxation direction).box.Finite := by
  intro j
  obtain ⟨lower, upper, -⟩ := m.columns_relaxation direction j
  rw [lower, upper]
  exact finite _ (m.columnDefinition_mem j)

theorem ordered_relaxation (h : m.WellFormed) (direction : Direction) :
    (m.relaxation direction).box.Ordered := by
  intro j
  obtain ⟨lower, upper, -⟩ := m.columns_relaxation direction j
  have limits := h.bounds _ (m.columnDefinition_mem j)
  simp only [Limits.isOrdered, Bool.and_eq_true, decide_eq_true_eq] at limits
  rw [lower, upper]
  exact limits.2

/-- A model without constraints whose variables have finite bounds is solved at the root by a corner:
a variable is at its upper bound where its cost is below zero by more than the tolerance, and at its
lower bound otherwise. For that the method needs more iterations than there are variables of the first
kind. The objective is as near to the best one within the bounds as the tolerance allows for the sum of
the distances between them. The bounds of integer variables are those of the root: integers, not
crossed. -/
theorem unconstrained_solution (built : m.Built) (direction : Direction) {c : Config Rat}
    (configured : c.Built) (clock : Nat → Duration) (unconstrained : m.constraints = #[])
    (finite : ∀ d ∈ m.definitions,
      Limits.isFinite d.lower = true ∧ Limits.isFinite d.upper = true)
    (uncrossed : ∀ j, ((m.relaxation direction).task c clock).isInteger j = true →
      ((m.relaxation direction).task c clock).box.lower[j] ≤
        ((m.relaxation direction).task c clock).box.upper[j])
    (timeless : c.Timeless) (nodes : c.nodeLimit ≠ some 0)
    (enough : Finset.card {j : Fin m.definitions.size |
      (m.relaxation direction).cost[j] < -c.feasibility.absolute} < c.iterationLimit) :
    let p := m.relaxation direction
    let box := (p.task c clock).box
    let r := m.solveTimed direction c clock
    r.status = .optimal ∧ r.statistics.nodesExplored = 1 ∧
    ∃ solution, r.solution = some solution ∧
      solution.values = (p.corner box (-c.feasibility.absolute)).toList ∧
      m.objective.eval? r.value? = some solution.objective ∧
      ∃ best, m.IsBest direction box best ∧
        |solution.objective - best| ≤ c.feasibility.absolute * box.extent := by
  intro p box r
  have wellFormed := built.wellFormed
  have noRows : IsEmpty (Fin m.constraints.size) := by
    rw [unconstrained]
    exact Fin.isEmpty
  have limits := finite_relaxation direction finite
  have ordered : box.Ordered :=
    SearchTask.ordered_box (ordered_relaxation wellFormed direction) uncrossed
  have bounded : box.Finite := SearchTask.finite_box limits
  obtain ⟨status, explored, solution⟩ := Relaxation.result_corner limits ordered
    configured.threads_pos (SearchTask.limitReached_start timeless nodes) enough m.names
  have value : r.value? = fun v => (p.corner box (-c.feasibility.absolute)).toList[v.index]? := by
    funext v
    rw [Result.value?, Result.values_of_solution (r := r) solution]
  refine ⟨status, explored, _, solution, rfl, ?_, _,
    isBest_corner wellFormed direction bounded ordered,
    Relaxation.abs_objectiveOf_corner_sub_le bounded ordered c.feasibility.absolute_pos.le⟩
  rw [value]
  exact eval?_objective wellFormed direction _

/-- `-2 x - y / 10¹²` for an integer `x` from 0.5 to 3.5 and some `y` from 0 to 4. -/
def shallow : Model Rat ExtendedRat :=
  .ofParts
    #[⟨"x", ⟨some "x", .integer, .finite 0.5, .finite 3.5⟩, none⟩,
      ⟨"y", ⟨some "y", .continuous, .finite 0, .finite 4⟩, none⟩]
    #[]
    ⟨[(⟨0⟩, -2), (⟨1⟩, -1e-12)], 0⟩

theorem built_shallow : shallow.Built :=
  built_ofParts (by decide) (by decide +kernel) (by decide) nofun (by decide)
    (Expression.copy_expression (by simp [Expression.Ascending]))

/-- The upper bound of `x` is 3 at the root, and the cost of `y` is too small for it to move. -/
theorem unconstrained_solution_shallow :
    shallow.Built ∧ (Config.standard : Config Rat).Built ∧ shallow.constraints = #[] ∧
    (∀ d ∈ shallow.definitions,
      Limits.isFinite d.lower = true ∧ Limits.isFinite d.upper = true) ∧
    (∀ j, ((shallow.relaxation .minimise).task .standard fun _ => ⟨0⟩).isInteger j = true →
      ((shallow.relaxation .minimise).task .standard fun _ => ⟨0⟩).box.lower[j] ≤
        ((shallow.relaxation .minimise).task .standard fun _ => ⟨0⟩).box.upper[j]) ∧
    (Config.standard : Config Rat).Timeless ∧ (Config.standard : Config Rat).nodeLimit ≠ some 0 ∧
    Finset.card {j : Fin shallow.definitions.size | (shallow.relaxation .minimise).cost[j] <
      -(Config.standard : Config Rat).feasibility.absolute} <
        (Config.standard : Config Rat).iterationLimit ∧
    ((shallow.relaxation .minimise).task .standard fun _ => ⟨0⟩).box.extent = 6 ∧
    ∃ solution, (shallow.solveTimed .minimise .standard fun _ => ⟨0⟩).status = .optimal ∧
      (shallow.solveTimed .minimise .standard fun _ => ⟨0⟩).solution = some solution ∧
      solution.values = [3, 0] ∧
      ∃ best, shallow.IsBest .minimise
          ((shallow.relaxation .minimise).task .standard fun _ => ⟨0⟩).box best ∧
        |solution.objective - best| ≤ 6e-9 := by
  have finite : ∀ d ∈ shallow.definitions,
      Limits.isFinite d.lower = true ∧ Limits.isFinite d.upper = true := by decide +kernel
  have uncrossed : ∀ j, ((shallow.relaxation .minimise).task .standard
      fun _ => ⟨0⟩).isInteger j = true →
      ((shallow.relaxation .minimise).task .standard fun _ => ⟨0⟩).box.lower[j] ≤
        ((shallow.relaxation .minimise).task .standard fun _ => ⟨0⟩).box.upper[j] := by
    decide +kernel
  have timeless : (Config.standard : Config Rat).Timeless := ⟨rfl, rfl⟩
  have nodes : (Config.standard : Config Rat).nodeLimit ≠ some 0 := nofun
  have enough : Finset.card {j : Fin shallow.definitions.size |
      (shallow.relaxation .minimise).cost[j] <
        -(Config.standard : Config Rat).feasibility.absolute} <
          (Config.standard : Config Rat).iterationLimit := by
    decide +kernel
  have extent : ((shallow.relaxation .minimise).task .standard fun _ => ⟨0⟩).box.extent = 6 := by
    decide +kernel
  have corner : ((shallow.relaxation .minimise).corner
      ((shallow.relaxation .minimise).task .standard fun _ => ⟨0⟩).box
      (-(Config.standard : Config Rat).feasibility.absolute)).toList = [3, 0] := by
    decide +kernel
  obtain ⟨status, -, solution, solved, values, -, best, isBest, near⟩ :=
    unconstrained_solution built_shallow .minimise .standard (fun _ => ⟨0⟩) rfl finite uncrossed
      timeless nodes enough
  have allowed : (Config.standard : Config Rat).feasibility.absolute *
      ((shallow.relaxation .minimise).task .standard fun _ => ⟨0⟩).box.extent = 6e-9 := by
    decide +kernel
  exact ⟨built_shallow, .standard, rfl, finite, uncrossed, timeless, nodes, enough, extent, solution,
    status, solved, values.trans corner, best, isBest, near.trans allowed.le⟩

end Model

end Milp
