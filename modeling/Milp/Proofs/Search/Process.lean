import Milp.Proofs.Search.Queue
import Milp.Proofs.Search.Tree
import Milp.Search.Process

/-!
# What processing a node does

A processed node is closed or split. `Closing` lists the reasons for which a node is closed, and
`Fractional` the values at which one is split.

Results:
1. `branch_eq`: what a split adds to the tree, to the queue and to the counts.
2. `process_fate`: a processed node is closed for one of the reasons or split at an integer column;
   the counts tell which, and nothing else of the search changes.
-/

namespace Milp

variable {K L : Type} {n m : Nat}

/-! ## Counts -/

/-- Coming to this state is counted. -/
def NodeState.isCounted : NodeState → Bool
  | .pending => false
  | .relaxed => false
  | .terminal => false
  | _ => true

namespace Statistics

/-- The number of nodes that are counted as having come to a state. -/
def countOf (t : Statistics K L) : NodeState → Nat
  | .branched => t.branched
  | .integral => t.integral
  | .dominated => t.prunedByBound
  | .infeasible => t.prunedInfeasible
  | .failed => t.numericalFailures
  | _ => 0

/-- The nodes are counted alike. -/
structure SameCounts (t t' : Statistics K L) : Prop where
  created : t'.nodesCreated = t.nodesCreated
  explored : t'.nodesExplored = t.nodesExplored
  countOf : ∀ σ, t'.countOf σ = t.countOf σ

/-- One more node is counted in a state, if that is counted at all. -/
structure CountsOneMore (state : NodeState) (t t' : Statistics K L) : Prop where
  created : t'.nodesCreated = t.nodesCreated
  explored : t'.nodesExplored = t.nodesExplored
  countOf : ∀ σ, σ.isCounted = true → t'.countOf σ = t.countOf σ + if state = σ then 1 else 0

theorem SameCounts.oneMore {state : NodeState} {t t' t'' : Statistics K L} (h : SameCounts t t')
    (more : CountsOneMore state t' t'') : CountsOneMore state t t'' where
  created := more.created.trans h.created
  explored := more.explored.trans h.explored
  countOf σ hσ := by rw [more.countOf σ hσ, h.countOf]

theorem CountsOneMore.same {state : NodeState} {t t' t'' : Statistics K L}
    (more : CountsOneMore state t t') (h : SameCounts t' t'') : CountsOneMore state t t'' where
  created := h.created.trans more.created
  explored := h.explored.trans more.explored
  countOf σ hσ := by rw [h.countOf, more.countOf σ hσ]

/-- The counts with one more node in a state, if that is counted at all. -/
def oneMore (t : Statistics K L) : NodeState → Statistics K L
  | .branched => { t with branched := t.branched + 1 }
  | .integral => { t with integral := t.integral + 1 }
  | .dominated => { t with prunedByBound := t.prunedByBound + 1 }
  | .infeasible => { t with prunedInfeasible := t.prunedInfeasible + 1 }
  | .failed => { t with numericalFailures := t.numericalFailures + 1 }
  | _ => t

theorem countsOneMore (t : Statistics K L) (state : NodeState) :
    CountsOneMore state t (t.oneMore state) := by
  refine ⟨by cases state <;> rfl, by cases state <;> rfl, ?_⟩
  intro σ hσ
  cases σ with
  | pending | relaxed | terminal => cases hσ
  | branched | integral | dominated | infeasible | failed => cases state <;> rfl

end Statistics

/-! ## Splitting -/

section Splitting

variable [Limits L K]

/-- Making a child adds a node that waits with the bound of its parent. -/
theorem Search.addChild_eq {s : Search K L n} {id : Nat} {x : Node L n} (c : BoundChange L n)
    (h : s.tree.nodes[id]? = some x) :
    s.addChild id c =
      { s with
        tree := (s.tree.child id c).1
        queue := s.queue.add ⟨x.bound, s.tree.nodes.size, s.tree.nodes.size⟩
        statistics := { s.statistics with
          nodesCreated := s.statistics.nodesCreated + 1
          maxDepth := max s.statistics.maxDepth (x.depth + 1) } } := by
  have hnew := Tree.nodes_child s.tree id c s.tree.nodes.size
  rw [if_pos rfl, h] at hnew
  unfold Search.addChild Search.enqueue Search.tally
  simp only [Tree.child] at hnew ⊢
  rw [hnew]
  simp

variable [Scalar K]

/-- A split adds two nodes that wait with the bound of their parent. -/
theorem Search.branch_eq {s : Search K L n} {id : Nat} {x : Node L n} (j : Fin n) (v : K)
    (h : s.tree.nodes[id]? = some x) :
    s.branch id j v =
      { s with
        tree := s.tree.split id x.bound j v
        queue := s.queue.addPair x.bound s.tree.nodes.size
        statistics := { s.statistics with
          branched := s.statistics.branched + 1
          nodesCreated := s.statistics.nodesCreated + 2
          maxDepth := max s.statistics.maxDepth (x.depth + 1) } } := by
  have hid := Tree.lt_size_of_some h
  let first := (s.setState id .branched).tally fun t => { t with branched := t.branched + 1 }
  have hset : first.tree.nodes[id]? = some { x with state := .branched } := by
    simp [first, Search.tally, Search.setState, Tree.nodes_setState, h]
  have hchild : (first.tree.child id (.atMost j v)).1.nodes[id]? =
      some { x with state := .branched } := by
    rw [Tree.nodes_child, if_neg, hset]
    exact (Tree.lt_size_of_some hset).ne
  show (first.addChild id (.atMost j v)).addChild id (.atLeast j v) = _
  rw [Search.addChild_eq _ hset, Search.addChild_eq _ hchild]
  simp [first, Search.setState, Search.tally, Tree.split, Tree.close_bound h, Queue.addPair]

end Splitting

/-! ## Branching columns -/

namespace SearchTask

variable {k : SearchTask K L n m}

theorem mem_integers {j : Fin n} : j ∈ k.integers ↔ k.isInteger j = true := by
  simp [integers]

section BranchingColumns

variable [Scalar K]

theorem moreFractional_foldl {values : Vector K n} {js : List (Fin n)}
    {best : Option (Fin n × K)} {j : Fin n}
    (h : (js.foldl (moreFractional values) best).map (·.1) = some j) :
    j ∈ js ∨ best.map (·.1) = some j := by
  induction js generalizing best with
  | nil => exact .inr h
  | cons i js ih =>
    rcases ih h with hj | hj
    · exact .inl (List.mem_cons_of_mem _ hj)
    · unfold moreFractional at hj
      dsimp only at hj
      split at hj
      · exact .inl (by simp_all)
      · split at hj
        · exact .inl (by simp_all)
        · exact .inr hj

/-- The branching column is an integer column whose value is not integral. -/
theorem branchingColumn_eq_some {values : Vector K n} {j : Fin n}
    (h : k.branchingColumn values = some j) :
    k.isInteger j = true ∧ k.config.integrality.isIntegral values[j] = false := by
  rcases moreFractional_foldl h with hj | hj
  · simpa [mem_integers] using hj
  · simp at hj

theorem further_foldl {values : Vector K n} {js : List (Fin n)} {best : Option (Fin n)}
    {j : Fin n} (h : js.foldl (further values) best = some j) : j ∈ js ∨ best = some j := by
  induction js generalizing best with
  | nil => exact .inr h
  | cons i js ih =>
    rcases ih h with hj | hj
    · exact .inl (List.mem_cons_of_mem _ hj)
    · unfold further at hj
      split at hj
      · exact .inl (by simp_all)
      · split at hj
        · exact .inl (by simp_all)
        · exact .inr hj

/-- The furthest column is an integer column whose value is away from its nearest integer. -/
theorem furthestColumn_eq_some {values : Vector K n} {j : Fin n}
    (h : k.furthestColumn values = some j) :
    k.isInteger j = true ∧ (0 : K) < Scalar.deviation values[j] := by
  rcases further_foldl h with hj | hj
  · simpa [mem_integers] using hj
  · simp at hj

theorem further_foldl_some (values : Vector K n) (js : List (Fin n)) (b : Fin n) :
    js.foldl (further values) (some b) ≠ none := by
  induction js generalizing b with
  | nil => simp
  | cons i js ih =>
    rw [List.foldl_cons, further]
    split
    · exact ih i
    · exact ih b

/-- Without a furthest column no integer column is away from its nearest integer. -/
theorem furthestColumn_eq_none {values : Vector K n} (h : k.furthestColumn values = none)
    {j : Fin n} (hj : k.isInteger j = true) : ¬ (0 : K) < Scalar.deviation values[j] := by
  intro hpos
  have hmem : j ∈ k.integers.filter fun j => (0 : K) < Scalar.deviation values[j] := by
    simpa [mem_integers] using ⟨hj, hpos⟩
  unfold furthestColumn at h
  generalize k.integers.filter (fun j => (0 : K) < Scalar.deviation values[j]) = js at h hmem
  cases js with
  | nil => simp at hmem
  | cons i js => exact further_foldl_some values js i h

end BranchingColumns

/-! ## Fates -/

variable [Scalar K] [Limits L K]

/-- The incumbent after values are offered. -/
def offered (k : SearchTask K L n m) (incumbent : Option (Incumbent K n)) (values : Vector K n) :
    Option (Incumbent K n) :=
  let values := k.snap values
  let cost := k.relaxation.costOf values.toList
  if k.improves incumbent cost then some ⟨cost, values⟩ else incumbent

/-- The bound that an objective of a relaxation gives. -/
def boundOf (k : SearchTask K L n m) (objective : K) : L :=
  Limits.ofScalar (k.relaxation.toCost objective)

/-- The reasons for which a verdict closes a node with the given bounds, found while there is some
incumbent: the bound and the state that the node ends with, and the incumbent from then on. -/
inductive Closing (k : SearchTask K L n m) (incumbent : Option (Incumbent K n)) (bounds : Box L n)
    (x : Node L n) : Verdict K n → L → NodeState → Option (Incumbent K n) → Prop
  | infeasible : Closing k incumbent bounds x .infeasible x.bound .infeasible incumbent
  | rootUnbounded (root : x.parent = none) :
    Closing k incumbent bounds x .unbounded x.bound .terminal incumbent
  | unbounded (child : x.parent ≠ none) :
    Closing k incumbent bounds x .unbounded x.bound .failed incumbent
  | failed : Closing k incumbent bounds x .failed x.bound .failed incumbent
  | dominated {objective : K} {values : Vector K n}
    (worse : k.canImprove incumbent (k.boundOf objective : L) = false) :
    Closing k incumbent bounds x (.optimal objective values) (k.boundOf objective) .dominated
      incumbent
  | settled {objective : K} {values : Vector K n} (integral : k.furthestColumn values = none) :
    Closing k incumbent bounds x (.optimal objective values) (k.boundOf objective) .integral
      (k.offered incumbent values)
  | rounded {objective : K} {values : Vector K n} {j : Fin n} {objective' : K}
    {values' : Vector K n} (tolerated : k.branchingColumn values = none)
    (away : k.furthestColumn values = some j)
    (again : (k.solver (k.fixAt bounds values)).verdict = .optimal objective' values') :
    Closing k incumbent bounds x (.optimal objective values) (k.boundOf objective) .integral
      (k.offered incumbent values')

/-- A node that is closed neither waits nor is on the way to its fate. -/
theorem Closing.final {k : SearchTask K L n m} {incumbent kept : Option (Incumbent K n)}
    {bounds : Box L n} {x : Node L n} {verdict : Verdict K n} {bound : L} {state : NodeState}
    (why : Closing k incumbent bounds x verdict bound state kept) :
    state ≠ .pending ∧ state ≠ .relaxed ∧ state ≠ .branched := by
  cases why <;> simp

/-- The columns at whose values a node may be split. -/
def Fractional (k : SearchTask K L n m) (values : Vector K n) (j : Fin n) : Prop :=
  k.branchingColumn values = some j ∨ k.furthestColumn values = some j

/-- A search after one of its nodes is closed. -/
structure Closed (s : Search K L n) (id : Nat) (bound : L) (state : NodeState)
    (incumbent : Option (Incumbent K n)) (s' : Search K L n) : Prop where
  tree : s'.tree = s.tree.close id bound state
  incumbent : s'.incumbent = incumbent
  counts : Statistics.CountsOneMore state s.statistics s'.statistics
  unbounded : s'.rootUnbounded = (s.rootUnbounded || state = .terminal)

/-- A search after one of its nodes is split. -/
structure Split (s : Search K L n) (id : Nat) (bound : L) (j : Fin n) (v : K)
    (s' : Search K L n) : Prop where
  tree : s'.tree = s.tree.split id bound j v
  incumbent : s'.incumbent = s.incumbent
  created : s'.statistics.nodesCreated = s.statistics.nodesCreated + 2
  explored : s'.statistics.nodesExplored = s.statistics.nodesExplored
  countOf : ∀ σ, s'.statistics.countOf σ =
    s.statistics.countOf σ + if .branched = σ then 1 else 0
  unbounded : s'.rootUnbounded = s.rootUnbounded

omit [Scalar K] [Limits L K] in
theorem Closed.failures {s s' : Search K L n} {id : Nat} {bound : L} {state : NodeState}
    {incumbent : Option (Incumbent K n)} (h : Closed s id bound state incumbent s') :
    s'.statistics.numericalFailures =
      s.statistics.numericalFailures + if state = .failed then 1 else 0 :=
  h.counts.countOf .failed rfl

theorem Split.failures {s s' : Search K L n} {id : Nat} {bound : L} {j : Fin n} {v : K}
    (h : Split s id bound j v s') :
    s'.statistics.numericalFailures = s.statistics.numericalFailures :=
  h.countOf .failed

/-- What becomes of a node. -/
inductive Fate (k : SearchTask K L n m) (s : Search K L n) (id : Nat) (x : Node L n)
    (verdict : Verdict K n) (s' : Search K L n) : Prop
  | closed {bound : L} {state : NodeState} {incumbent : Option (Incumbent K n)}
    (why : Closing k s.incumbent (s.tree.bounds id k.box) x verdict bound state incumbent)
    (after : Closed s id bound state incumbent s') (queue : s'.queue = s.queue)
  | split {objective : K} {values : Vector K n} {j : Fin n}
    (optimal : verdict = .optimal objective values) (fractional : k.Fractional values j)
    (after : Split s id (k.boundOf objective) j values[j] s')
    (queue : s'.queue = s.queue.addPair (k.boundOf objective) s.tree.nodes.size)

/-! ## The stages of processing -/

/-- The state with a node's relaxation solved: its bound is known, nothing else is decided. -/
def relaxed (k : SearchTask K L n m) (s : Search K L n) (id : Nat) (isRoot : Bool)
    (objective : K) : Search K L n :=
  let s := { s with tree := s.tree.close id (k.boundOf objective) .relaxed }
  if isRoot then s.tally fun t => { t with rootBound := some objective } else s

/-- A search in which a node's relaxation is solved and nothing else is different. -/
structure Relaxed (s : Search K L n) (id : Nat) (bound : L) (s' : Search K L n) : Prop where
  tree : s'.tree = s.tree.close id bound .relaxed
  queue : s'.queue = s.queue
  incumbent : s'.incumbent = s.incumbent
  counts : Statistics.SameCounts s.statistics s'.statistics
  unbounded : s'.rootUnbounded = s.rootUnbounded

variable {s s' : Search K L n} {id : Nat} {x : Node L n} {bound : L} {objective : K}

theorem relaxed_relaxed (k : SearchTask K L n m) (s : Search K L n) (id : Nat) (isRoot : Bool)
    (objective : K) : Relaxed s id (k.boundOf objective) (k.relaxed s id isRoot objective) := by
  cases isRoot <;> exact ⟨rfl, rfl, rfl, ⟨rfl, rfl, fun _ => rfl⟩, rfl⟩

omit [Limits L K] in
theorem offer_frame (k : SearchTask K L n m) (s : Search K L n) (values : Vector K n) :
    (k.offer s values).tree = s.tree ∧ (k.offer s values).queue = s.queue ∧
      (k.offer s values).incumbent = k.offered s.incumbent values ∧
      Statistics.SameCounts s.statistics (k.offer s values).statistics ∧
      (k.offer s values).rootUnbounded = s.rootUnbounded := by
  unfold offer offered
  dsimp only
  split <;> exact ⟨rfl, rfl, rfl, ⟨rfl, rfl, fun _ => rfl⟩, rfl⟩

omit [Limits L K] in
theorem settle_frame (k : SearchTask K L n m) (s : Search K L n) (id : Nat)
    (values : Vector K n) :
    (k.settle s id values).tree = s.tree.setState id .integral ∧
      (k.settle s id values).queue = s.queue ∧
      (k.settle s id values).incumbent = k.offered s.incumbent values ∧
      Statistics.CountsOneMore .integral s.statistics (k.settle s id values).statistics ∧
      (k.settle s id values).rootUnbounded = s.rootUnbounded := by
  let closed := (s.setState id .integral).tally fun t => { t with integral := t.integral + 1 }
  obtain ⟨tree, queue, incumbent, same, unbounded⟩ := offer_frame k closed values
  exact ⟨tree, queue, incumbent, (s.statistics.countsOneMore .integral).same same, unbounded⟩

omit [Scalar K] in
theorem Relaxed.bounds (h : Relaxed s id bound s') (box : Box L n) :
    s'.tree.bounds id box = s.tree.bounds id box := by
  refine Tree.bounds_congr ?_
  rw [h.tree, Tree.path_close]

omit [Scalar K] in
theorem Relaxed.countIterations (h : Relaxed s id bound s') (o : Outcome K n) :
    Relaxed s id bound (s'.countIterations o) :=
  ⟨h.tree, h.queue, h.incumbent,
    ⟨h.counts.created, h.counts.explored, h.counts.countOf⟩, h.unbounded⟩

omit [Scalar K] [Limits L K] in
/-- A node whose relaxation is solved may be closed in any state. -/
theorem Relaxed.closed {state : NodeState} {incumbent : Option (Incumbent K n)}
    {s'' : Search K L n} (h : Relaxed s id bound s')
    (tree : s''.tree = s'.tree.setState id state) (kept : s''.incumbent = incumbent)
    (counts : Statistics.CountsOneMore state s'.statistics s''.statistics)
    (unbounded : s''.rootUnbounded = (s'.rootUnbounded || state = .terminal)) :
    Closed s id bound state incumbent s'' where
  tree := by rw [tree, h.tree, Tree.setState_close]
  incumbent := kept
  counts := h.counts.oneMore counts
  unbounded := by rw [unbounded, h.unbounded]

theorem Relaxed.fate_settle {values' : Vector K n} {verdict : Verdict K n}
    (h : Relaxed s id bound s')
    (why : Closing k s.incumbent (s.tree.bounds id k.box) x verdict bound .integral
      (k.offered s.incumbent values')) :
    Fate k s id x verdict (k.settle s' id values') := by
  obtain ⟨tree, queue, kept, counts, unbounded⟩ := settle_frame k s' id values'
  refine .closed why (h.closed tree ?_ counts ?_) (queue.trans h.queue)
  · rw [kept, h.incumbent]
  · rw [unbounded]
    exact (Bool.or_false _).symm

theorem Relaxed.fate_branch {values : Vector K n} {j : Fin n}
    (h : Relaxed s id (k.boundOf objective) s') (hx : s.tree.nodes[id]? = some x)
    (fractional : k.Fractional values j) :
    Fate k s id x (.optimal objective values) (s'.branch id j values[j]) := by
  have hx' : s'.tree.nodes[id]? = some { x with bound := k.boundOf objective, state := .relaxed } := by
    rw [h.tree, Tree.nodes_close, if_pos rfl, hx]
    rfl
  rw [Search.branch_eq j values[j] hx']
  refine .split rfl fractional
    ⟨?_, h.incumbent, congrArg (· + 2) h.counts.created, h.counts.explored, ?_, h.unbounded⟩ ?_
  · simp [h.tree, Tree.split]
  · intro σ
    rw [← h.counts.countOf]
    cases σ <;> rfl
  · simp [h.tree, h.queue]

theorem Relaxed.fate_accept {values : Vector K n}
    (h : Relaxed s id (k.boundOf objective) s') (hx : s.tree.nodes[id]? = some x)
    (tolerated : k.branchingColumn values = none) :
    Fate k s id x (.optimal objective values) (k.accept s' id values) := by
  unfold SearchTask.accept
  split
  · rename_i integral
    exact h.fate_settle (.settled integral)
  · rename_i j away
    dsimp only
    split
    · rename_i objective' values' again
      rw [h.bounds] at again
      exact (h.countIterations _).fate_settle (.rounded tolerated away again)
    · exact (h.countIterations _).fate_branch hx (.inr away)

theorem processRelaxed_eq (k : SearchTask K L n m) (s : Search K L n) (id : Nat)
    (isRoot : Bool) (objective : K) (values : Vector K n) :
    k.processRelaxed s id isRoot objective values =
      let s := k.relaxed s id isRoot objective
      if k.canImprove s.incumbent (k.boundOf objective : L) then
        match k.branchingColumn values with
        | none => k.accept s id values
        | some column => s.branch id column values[column]
      else
        (s.setState id .dominated).tally fun t => { t with prunedByBound := t.prunedByBound + 1 } :=
  rfl

theorem processRelaxed_fate (isRoot : Bool) (objective : K) (values : Vector K n)
    (hx : s.tree.nodes[id]? = some x) :
    Fate k s id x (.optimal objective values) (k.processRelaxed s id isRoot objective values) := by
  have h := relaxed_relaxed k s id isRoot objective
  rw [processRelaxed_eq]
  dsimp only
  split
  · split
    · rename_i tolerated
      exact h.fate_accept hx tolerated
    · rename_i j fractional
      exact h.fate_branch hx (.inl fractional)
  · rename_i worse
    rw [h.incumbent, Bool.not_eq_true] at worse
    exact .closed (.dominated worse)
      (h.closed rfl h.incumbent (Statistics.countsOneMore _ .dominated)
        (Bool.or_false _).symm) h.queue

omit [Scalar K] [Limits L K] in
theorem closed_of_setState {state : NodeState} (hx : s.tree.nodes[id]? = some x)
    (tree : s'.tree = s.tree.setState id state) (incumbent : s'.incumbent = s.incumbent)
    (counts : Statistics.CountsOneMore state s.statistics s'.statistics)
    (unbounded : s'.rootUnbounded = (s.rootUnbounded || state = .terminal)) :
    Closed s id x.bound state s.incumbent s' :=
  ⟨tree.trans (Tree.close_bound hx state).symm, incumbent, counts, unbounded⟩

/-- A processed node is closed for one of the reasons, or split at a column whose value is
fractional. Nothing else of the search changes but the counts that go with it. -/
theorem process_fate (k : SearchTask K L n m) (outcome : Outcome K n)
    (hx : s.tree.nodes[id]? = some x) : Fate k s id x outcome.verdict (k.process s id outcome) := by
  have same : Statistics.SameCounts s.statistics (s.countIterations outcome).statistics :=
    ⟨rfl, rfl, fun _ => rfl⟩
  have counted (state : NodeState) := same.oneMore (Statistics.countsOneMore _ state)
  unfold process
  dsimp only
  split
  · rename_i verdict
    rw [verdict]
    exact .closed .infeasible
      (closed_of_setState hx rfl rfl (counted .infeasible) (Bool.or_false _).symm) rfl
  · rename_i verdict
    rw [verdict]
    have root : ((s.countIterations outcome).tree.nodes[id]?.bind (·.parent)).isNone =
        x.parent.isNone := by
      rw [show (s.countIterations outcome).tree = s.tree from rfl, hx]
      rfl
    rw [root]
    split
    · rename_i parent
      exact .closed (.rootUnbounded (Option.isNone_iff_eq_none.mp parent))
        (closed_of_setState hx rfl rfl (counted .terminal) (Bool.or_true _).symm) rfl
    · rename_i parent
      exact .closed (.unbounded fun h => parent (Option.isNone_iff_eq_none.mpr h))
        (closed_of_setState hx rfl rfl (counted .failed) (Bool.or_false _).symm) rfl
  · rename_i verdict
    rw [verdict]
    exact .closed .failed
      (closed_of_setState hx rfl rfl (counted .failed) (Bool.or_false _).symm) rfl
  · rename_i objective values verdict
    rw [verdict]
    cases processRelaxed_fate (s := s.countIterations outcome) _ objective values hx with
    | closed why after queue =>
      exact .closed why
        ⟨after.tree, after.incumbent, same.oneMore after.counts, after.unbounded⟩ queue
    | split optimal fractional after queue =>
      exact .split optimal fractional
        ⟨after.tree, after.incumbent, after.created, after.explored, after.countOf,
          after.unbounded⟩ queue

end SearchTask

end Milp
