import Mathlib.Algebra.Order.Group.Multiset
import Mathlib.Data.Multiset.Lattice
import Milp.Proofs.Search.Decision
import Milp.Proofs.Search.Ledger
import Milp.Proofs.Search.Root

/-!
# Searches without incumbent

As long as there is no incumbent, what becomes of a node depends on the changes of bounds on its path
alone: its *prospect*. The order in which the nodes are taken has no say in it, so the tree that a
search without a solution grows is the same in every order.

Results:
1. `process_quiet`: a node that is processed while there is no incumbent goes the way of its prospect.
2. `quiet_of_next`: so does every step, as far as the paths of the nodes that wait are concerned.
-/

namespace Milp

open scoped List

variable {K L : Type} {n m : Nat}

/-- The state of a node of which this is decided. -/
def Decision.state : Decision K n → NodeState
  | .close state => state
  | .settle _ => .integral
  | .split _ _ => .branched

/-- The changes of bounds on the way from a node up to the root. -/
abbrev Path (L : Type) (n : Nat) : Type :=
  List (BoundChange L n)

/-- The objective of a relaxation that has a solution. -/
def Verdict.objective? : Verdict K n → Option K
  | .optimal objective _ => some objective
  | _ => none

namespace SearchTask

variable [Scalar K] [Limits L K]

/-- The bounds at the end of a path. -/
def boxAt (k : SearchTask K L n m) (π : Path L n) : Box L n :=
  π.foldl Tree.tighten k.box

/-- What is decided about the node of a path while there is no incumbent. -/
def prospect (k : SearchTask K L n m) (π : Path L n) : Decision K n :=
  k.decision none (k.boxAt π) π.isEmpty (k.solver (k.boxAt π)).verdict

/-- The iterations that are spent on the node of a path while there is no incumbent. -/
def effort (k : SearchTask K L n m) (π : Path L n) : Nat :=
  k.iterationsOn none (k.boxAt π) (k.solver (k.boxAt π))

variable {k : SearchTask K L n m} {s s' : Search K L n} {id : Nat} {x : Node L n}

/-! ## Processing without incumbent -/

theorem rootBound_solved (k : SearchTask K L n m) (s : Search K L n) (id : Nat)
    (outcome : Outcome K n) :
    (k.solved s id outcome).statistics.rootBound =
      if s.tree.isRoot id then outcome.verdict.objective?.or s.statistics.rootBound
      else s.statistics.rootBound := by
  obtain ⟨verdict, iterations⟩ := outcome
  cases verdict with
  | infeasible | unbounded | failed => exact (ite_self _).symm
  | optimal objective values =>
    unfold solved relaxed
    cases s.tree.isRoot id <;> rfl

/-- The relaxation of a node is solved, and nothing is decided. -/
structure Solved (s : Search K L n) (id : Nat) (x : Node L n) (iterations : Nat)
    (s' : Search K L n) : Prop where
  node : ∃ y, s'.tree.nodes[id]? = some y ∧ y.depth = x.depth
  close : ∀ bound state, s'.tree.close id bound state = s.tree.close id bound state
  size : s'.tree.nodes.size = s.tree.nodes.size
  queue : s'.queue = s.queue
  incumbent : s'.incumbent = s.incumbent
  counts : Statistics.SameCounts s.statistics s'.statistics
  depth : s'.statistics.maxDepth = s.statistics.maxDepth
  iterations : s'.statistics.simplexIterations = s.statistics.simplexIterations + iterations

theorem solved_solved (here : s.tree.nodes[id]? = some x) (outcome : Outcome K n) :
    Solved s id x (k.iterationsOn s.incumbent (s.tree.bounds id k.box) outcome)
      (k.solved s id outcome) := by
  obtain ⟨verdict, iterations⟩ := outcome
  cases verdict with
  | infeasible | unbounded | failed =>
    exact ⟨⟨x, here, rfl⟩, fun _ _ => rfl, rfl, rfl, rfl, ⟨rfl, rfl, fun _ => rfl⟩, rfl, rfl⟩
  | optimal objective values =>
    have relaxed := relaxed_relaxed k s id (s.tree.isRoot id) objective
    have node : (k.relaxed s id (s.tree.isRoot id) objective).tree.nodes[id]? =
        some { x with bound := k.boundOf objective, state := .relaxed } := by
      rw [relaxed.tree, Tree.nodes_close, if_pos rfl, here]
      rfl
    have same : (k.relaxed s id (s.tree.isRoot id) objective).statistics.maxDepth =
          s.statistics.maxDepth ∧
        (k.relaxed s id (s.tree.isRoot id) objective).statistics.simplexIterations =
          s.statistics.simplexIterations := by
      cases s.tree.isRoot id <;> exact ⟨rfl, rfl⟩
    refine ⟨⟨{ x with bound := k.boundOf objective, state := .relaxed }, node, rfl⟩,
      fun bound state => ?_, ?_, relaxed.queue, relaxed.incumbent,
      ⟨relaxed.counts.created, relaxed.counts.explored, relaxed.counts.countOf⟩, same.1, ?_⟩
    · show (k.relaxed s id (s.tree.isRoot id) objective).tree.close id bound state = _
      rw [relaxed.tree, Tree.close_close]
    · show (k.relaxed s id (s.tree.isRoot id) objective).tree.nodes.size = _
      rw [relaxed.tree, Tree.size_close]
    · exact congrArg (· + _) same.2

/-- What processing the node of a path adds to the counts while there is no incumbent. -/
structure Worked (k : SearchTask K L n m) (π : Path L n) (s s' : Search K L n) : Prop where
  rootBound : s'.statistics.rootBound =
    if π.isEmpty then (k.solver (k.boxAt π)).verdict.objective?.or s.statistics.rootBound
    else s.statistics.rootBound
  explored : s'.statistics.nodesExplored = s.statistics.nodesExplored
  iterations : s'.statistics.simplexIterations = s.statistics.simplexIterations + k.effort π
  countOf : ∀ σ, σ.isCounted = true → s'.statistics.countOf σ =
    s.statistics.countOf σ + if (k.prospect π).state = σ then 1 else 0

/-- What becomes of a node, and of the search, when it goes the way of the prospect. -/
inductive Goes (k : SearchTask K L n m) (s : Search K L n) (id : Nat) (x : Node L n)
    (s' : Search K L n) : Decision K n → Prop
  | close {state : NodeState} {bound : L} (tree : s'.tree = s.tree.close id bound state)
    (queue : s'.queue = s.queue) (none : s'.incumbent = none)
    (depth : s'.statistics.maxDepth = s.statistics.maxDepth) : Goes k s id x s' (.close state)
  | settle {values : Vector K n} (found : s'.incumbent.isSome = true) :
    Goes k s id x s' (.settle values)
  | split {j : Fin n} {v : K} {bound : L} (tree : s'.tree = s.tree.split id bound j v)
    (queue : s'.queue = s.queue.addPair bound s.tree.nodes.size) (none : s'.incumbent = none)
    (depth : s'.statistics.maxDepth = max s.statistics.maxDepth (x.depth + 1)) :
    Goes k s id x s' (.split j v)

theorem goes_act {solved : Search K L n} {iterations : Nat} (none : s.incumbent = none)
    (h : Solved s id x iterations solved) (d : Decision K n) :
    Goes k s id x (k.act solved id d) d := by
  obtain ⟨y, node, depth⟩ := h.node
  cases d with
  | close state =>
    have tree : solved.tree.setState id state = s.tree.close id y.bound state := by
      rw [← Tree.close_bound node, h.close]
    refine .close tree h.queue (h.incumbent.trans none) (Eq.trans ?_ h.depth)
    cases state <;> rfl
  | settle values =>
    refine .settle ?_
    show (k.settle solved id values).incumbent.isSome = true
    rw [(settle_frame k solved id values).2.2.1]
    exact offered_isSome ..
  | split j v =>
    rw [act, Search.branch_eq j v node]
    have tree : solved.tree.split id y.bound j v = s.tree.split id y.bound j v := by
      simp only [Tree.split, h.close]
    refine .split tree ?_ (h.incumbent.trans none) ?_
    · simp only [h.queue, h.size]
    · simp only [h.depth, depth]

theorem worked_act {solved : Search K L n} {iterations : Nat} (h : Solved s id x iterations solved)
    (d : Decision K n) :
    (k.act solved id d).statistics.rootBound = solved.statistics.rootBound ∧
    (k.act solved id d).statistics.nodesExplored = s.statistics.nodesExplored ∧
    (k.act solved id d).statistics.simplexIterations =
      s.statistics.simplexIterations + iterations ∧
    ∀ σ, σ.isCounted = true → (k.act solved id d).statistics.countOf σ =
      s.statistics.countOf σ + if d.state = σ then 1 else 0 := by
  rw [← h.counts.explored, ← h.iterations]
  cases d with
  | close state =>
    have more := solved.statistics.countsOneMore state
    refine ⟨by cases state <;> rfl, more.explored, by cases state <;> rfl, fun σ counted => ?_⟩
    rw [← h.counts.countOf]
    exact more.countOf σ counted
  | settle values =>
    have more := (settle_frame k solved id values).2.2.2.1
    have same : (k.act solved id (.settle values)).statistics.rootBound =
          solved.statistics.rootBound ∧
        (k.act solved id (.settle values)).statistics.simplexIterations =
          solved.statistics.simplexIterations := by
      unfold act settle offer
      dsimp only
      split <;> exact ⟨rfl, rfl⟩
    refine ⟨same.1, more.explored, same.2, fun σ counted => ?_⟩
    · rw [← h.counts.countOf]
      exact more.countOf σ counted
  | split j v =>
    obtain ⟨y, node, -⟩ := h.node
    rw [act, Search.branch_eq j v node]
    refine ⟨rfl, rfl, rfl, fun σ counted => ?_⟩
    rw [← h.counts.countOf]
    cases σ <;> rfl

/-- A node that is processed while there is no incumbent goes the way of its prospect. -/
theorem process_quiet (here : s.tree.nodes[id]? = some x) (none : s.incumbent = none)
    (root : s.tree.isRoot id = (s.tree.path id).isEmpty) :
    Worked k (s.tree.path id) s (k.process s id (k.solver (s.tree.bounds id k.box))) ∧
      Goes k s id x (k.process s id (k.solver (s.tree.bounds id k.box)))
        (k.prospect (s.tree.path id)) := by
  have solved := solved_solved (k := k) here (k.solver (s.tree.bounds id k.box))
  have decided : k.decision s.incumbent (s.tree.bounds id k.box) (s.tree.isRoot id)
      (k.solver (s.tree.bounds id k.box)).verdict = k.prospect (s.tree.path id) := by
    rw [none, root]
    rfl
  have spent : k.iterationsOn s.incumbent (s.tree.bounds id k.box)
      (k.solver (s.tree.bounds id k.box)) = k.effort (s.tree.path id) := by
    rw [none]
    rfl
  rw [spent] at solved
  rw [process_eq, decided]
  obtain ⟨rootBound, explored, iterations, countOf⟩ :=
    worked_act solved (k.prospect (s.tree.path id))
  rw [rootBound_solved, root] at rootBound
  exact ⟨⟨rootBound, explored, iterations, countOf⟩, goes_act none solved _⟩

end SearchTask

/-! ## Paths -/

/-- The paths of the two children of a node that is split. -/
def sides [Scalar K] [Limits L K] (π : Path L n) (j : Fin n) (v : K) : Multiset (Path L n) :=
  {.atMost j v :: π, .atLeast j v :: π}

/-- The paths of all nodes, as often as there are nodes that have them. -/
def Tree.paths (t : Tree L n) : Multiset (Path L n) :=
  (Multiset.range t.nodes.size).map t.path

/-- The paths of the nodes that wait. -/
def Moment.waits (f : Moment K L n) : Multiset (Path L n) :=
  (f.waiting : Multiset Nat).map f.search.tree.path

namespace Tree

variable {t : Tree L n} {id : Nat}

theorem path_root [Limits L K] : (root : Tree L n).path rootId = [] := by
  obtain ⟨x, here, change, parent⟩ : ∃ x, (root : Tree L n).nodes[rootId]? = some x ∧
      x.change = none ∧ x.parent = none := ⟨_, rfl, rfl, rfl⟩
  rw [path_eq_of_some here, change, parent]
  rfl

theorem paths_close (t : Tree L n) (id : Nat) (bound : L) (state : NodeState) :
    (t.close id bound state).paths = t.paths := by
  rw [paths, size_close, paths, funext (path_close t id · bound state)]

theorem card_paths (t : Tree L n) : t.paths.card = t.nodes.size := by
  simp [paths]

theorem paths_split [Scalar K] [Limits L K] (h : id < t.nodes.size) (bound : L) (j : Fin n) (v : K) :
    (t.split id bound j v).paths = sides (t.path id) j v + t.paths := by
  have old : (Multiset.range t.nodes.size).map (t.split id bound j v).path = t.paths :=
    Multiset.map_congr rfl fun i hi => path_split_of_lt (Multiset.mem_range.mp hi)
  rw [paths, size_split, Multiset.range_succ, Multiset.map_cons, Multiset.range_succ,
    Multiset.map_cons, path_split_atMost h, path_split_atLeast h, old, Multiset.cons_swap]
  rfl

end Tree

namespace Moment

variable {f f' : Moment K L n} {id : Nat}

/-- The paths that wait, when the nodes that wait and their paths are known. -/
theorem waits_eq {ids : List Nat} {path : Nat → Path L n} (waiting : f.waiting ~ ids)
    (paths : ∀ i ∈ ids, f.search.tree.path i = path i) :
    f.waits = (ids : Multiset Nat).map path := by
  rw [waits, Multiset.coe_eq_coe.mpr waiting]
  exact Multiset.map_congr rfl paths

theorem waits_of_ended (ended : f.waiting = []) : f.waits = 0 := by
  rw [waits, ended]
  rfl

theorem queue_of_ended (ended : f.waiting = []) : f.search.queue.toList = [] :=
  List.map_eq_nil_iff.mp (List.append_eq_nil_iff.mp ended).1

end Moment

/-! ## Steps without incumbent -/

namespace SearchTask

variable [Scalar K] [Limits L K] {k : SearchTask K L n m} {f f' : Moment K L n}

/-- What becomes of the paths when the node of one that waits goes the way of its prospect. -/
inductive Moves (f : Moment K L n) (π : Path L n) (f' : Moment K L n) : Decision K n → Prop
  | close {state : NodeState} (none : f'.search.incumbent = none) (waits : f.waits = π ::ₘ f'.waits)
    (paths : f'.search.tree.paths = f.search.tree.paths)
    (queue : f'.search.queue.size = f.search.queue.size)
    (depth : f'.search.statistics.maxDepth = f.search.statistics.maxDepth) :
    Moves f π f' (.close state)
  | settle {values : Vector K n} (found : f'.search.incumbent.isSome = true)
    (waits : π ∈ f.waits) : Moves f π f' (.settle values)
  | split {j : Fin n} {v : K} {rest : Multiset (Path L n)} (none : f'.search.incumbent = none)
    (before : f.waits = π ::ₘ rest)
    (after : f'.waits = sides π j v + rest)
    (paths : f'.search.tree.paths = sides π j v + f.search.tree.paths)
    (queue : f'.search.queue.size = f.search.queue.size + 2)
    (depth : f'.search.statistics.maxDepth = max f.search.statistics.maxDepth (π.length + 1)) :
    Moves f π f' (.split j v)

/-- What a step is while there is no incumbent: no node is processed, or one goes the way of its
prospect. -/
inductive QuietStep (k : SearchTask K L n m) (f f' : Moment K L n) : Prop
  | idle (none : f'.search.incumbent = none) (waits : f'.waits = f.waits)
    (paths : f'.search.tree.paths = f.search.tree.paths)
    (explored : f'.search.statistics.nodesExplored + f'.search.queue.size =
      f.search.statistics.nodesExplored + f.search.queue.size)
    (rootBound : f'.search.statistics.rootBound = f.search.statistics.rootBound)
    (iterations : f'.search.statistics.simplexIterations = f.search.statistics.simplexIterations)
    (countOf : ∀ σ, f'.search.statistics.countOf σ = f.search.statistics.countOf σ)
    (depth : f'.search.statistics.maxDepth = f.search.statistics.maxDepth)
  | work {π : Path L n} (worked : k.Worked π f.search f'.search)
    (moves : Moves f π f' (k.prospect π))

theorem isRoot_of_reached (reached : k.Reached f) {id : Nat} {x : Node L n}
    (here : f.node? id = some x) :
    f.search.tree.isRoot id = (f.search.tree.path id).isEmpty := by
  have node : f.search.tree.nodes[id]? = some x := here
  have parent : f.search.tree.isRoot id = x.parent.isNone := by
    rw [Tree.isRoot, node]
    rfl
  rw [parent, Tree.path_eq_of_some here]
  cases origin_of_reached reached here with
  | root first parent change => simp [parent, change]
  | side older parent change splits => simp [parent, change]

/-- At every moment a node is as deep as its path is long. -/
theorem depth_of_reached (reached : k.Reached f) {id : Nat} {x : Node L n}
    (here : f.node? id = some x) : x.depth = (f.search.tree.path id).length :=
  Tree.depth_eq_length_path (grown_of_reached reached) here

theorem moves_of_goes {s s' : Search K L n} {id : Nat} {batch : List Nat} {x : Node L n}
    {d : Decision K n} (h : (⟨s, id :: batch⟩ : Moment K L n).Frontier)
    (here : s.tree.nodes[id]? = some x) (depth : x.depth = (s.tree.path id).length)
    (goes : Goes k s id x s' d) : Moves ⟨s, id :: batch⟩ (s.tree.path id) ⟨s', batch⟩ d := by
  let others := s.queue.toList.map (·.node) ++ batch
  have before : (⟨s, id :: batch⟩ : Moment K L n).waits =
      s.tree.path id ::ₘ (others : Multiset Nat).map s.tree.path :=
    Moment.waits_eq (show _ ~ id :: others from List.perm_middle) fun _ _ => rfl
  cases goes with
  | close tree queue none depth' =>
    have after : (⟨s', batch⟩ : Moment K L n).waits = (others : Multiset Nat).map s.tree.path := by
      refine Moment.waits_eq ?_ fun i _ => ?_
      · rw [Moment.waiting, queue]
      · rw [tree, Tree.path_close]
    refine .close none (before.trans (congrArg _ after.symm)) ?_ (congrArg Queue.size queue) depth'
    rw [tree, Tree.paths_close]
  | settle found => exact .settle found (before ▸ Multiset.mem_cons_self ..)
  | @split j v bound tree queue none depth' =>
    have inside : id < s.tree.nodes.size := Tree.lt_size_of_some here
    have old (i : Nat) (hi : i ∈ others) : s'.tree.path i = s.tree.path i := by
      obtain ⟨y, hy, -⟩ := h.mem_of_waits (List.perm_middle.mem_iff.mpr (List.mem_cons_of_mem id hi))
      rw [tree, Tree.path_split_of_lt (Tree.lt_size_of_some hy)]
    have waiting : (⟨s', batch⟩ : Moment K L n).waiting ~
        (s.tree.nodes.size + 1) :: s.tree.nodes.size :: others := by
      rw [Moment.waiting, queue]
      exact ((Queue.toList_addPair ..).map _).append_right batch
    have after := Moment.waits_eq waiting fun i _ => rfl
    rw [← Multiset.cons_coe, ← Multiset.cons_coe, Multiset.map_cons, Multiset.map_cons,
      Multiset.map_congr rfl old, tree, Tree.path_split_atMost inside,
      Tree.path_split_atLeast inside, Multiset.cons_swap] at after
    refine .split none before after ?_ ?_ (depth ▸ depth')
    · rw [tree, Tree.paths_split inside]
    · rw [queue, Queue.size_addPair]

theorem quiet_of_next (reached : k.Reached f) (none : f.search.incumbent = none)
    (step : k.Next f f') : QuietStep k f f' := by
  have frontier := reached.frontier
  cases step with
  | look s batch => exact .idle none rfl rfl rfl rfl rfl (fun _ => rfl) rfl
  | explore batch taken better =>
    have size := Queue.size_of_pop? taken
    refine .idle none (Moment.waits_eq (Moment.waiting_explore batch taken) fun _ _ => rfl) rfl ?_ rfl
      rfl (fun _ => rfl) rfl
    dsimp only [Search.tally]
    omega
  | @dominate s e rest batch taken worse =>
    rw [show s.incumbent = .none from none] at worse
    cases worse
  | process s id batch =>
    obtain ⟨x, here, -⟩ := frontier.mem_of_waits (List.mem_append_right _ (List.mem_cons_self ..))
    obtain ⟨worked, goes⟩ := process_quiet (k := k) here none (isRoot_of_reached reached here)
    exact .work worked (moves_of_goes frontier here (depth_of_reached reached here) goes)

end SearchTask

end Milp
