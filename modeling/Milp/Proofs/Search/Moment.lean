import Mathlib.Data.List.Nodup
import Milp.Proofs.Search.Growth
import Milp.Proofs.Search.Process
import Milp.Search.Run

/-!
# Moments of a search

A search goes from moment to moment: it looks at the clock, takes a node from the queue to explore
it, closes a node that it took because nothing better is below, or processes the outcome of the
relaxation of a node that it took.

Results:
1. `Frontier.next`: at every moment the nodes that wait are the pending nodes, each once.
2. `change_of_next`: from one moment to the next nothing happens to the tree, or one node that waits
   is closed or split.
3. `Change.became`: what a change makes of one node, from which invariants of all nodes follow by
   `Reached.node_invariant`.
4. `rounds_reached`: whatever the rounds of a search end with is reached moment by moment. In a round
   the relaxations are solved before the first outcome is processed; that makes no difference.
-/

namespace Milp

open scoped List

variable {K L : Type} {n m : Nat}

/-! ## The first and the last state -/

namespace Search

theorem start_queue [Limits L K] :
    (start : Search K L n).queue = .node ⟨Limits.below, 0, 0⟩ .empty .empty :=
  rfl

theorem start_tree [Limits L K] : (start : Search K L n).tree = .root :=
  rfl

theorem nodes_terminal (es : List (QueueEntry L)) (t : Tree L n) (i : Nat) :
    (es.foldl (fun t e => t.setState e.node .terminal) t).nodes[i]? =
      if i ∈ es.map (·.node) then t.nodes[i]?.map fun x => { x with state := .terminal }
      else t.nodes[i]? := by
  induction es generalizing t with
  | nil => simp
  | cons e es ih =>
    rw [List.foldl_cons, ih, Tree.nodes_setState]
    by_cases he : e.node = i
    · subst he
      by_cases later : e.node ∈ es.map (·.node) <;> simp [Function.comp_def]
    · simp [he, Ne.symm he]

/-- When the nodes that wait are given up, the others stay as they are. -/
theorem nodes_abandon (s : Search K L n) (i : Nat) :
    s.abandon.tree.nodes[i]? =
      if i ∈ s.queue.toList.map (·.node) then
        s.tree.nodes[i]?.map fun x => { x with state := .terminal }
      else s.tree.nodes[i]? :=
  nodes_terminal _ _ i

theorem bounds_abandon [Limits L K] (s : Search K L n) (i : Nat) (box : Box L n) :
    s.abandon.tree.bounds i box = s.tree.bounds i box := by
  refine Tree.bounds_congr (Tree.path_congr ?_)
  intro j _
  rw [nodes_abandon]
  split
  · rw [Option.map_map]
    rfl
  · rfl

end Search

/-! ## Moments -/

/-- A search between two steps: its state, and the nodes that have left the queue and are still to be
processed, in order. -/
structure Moment (K L : Type) (n : Nat) where
  search : Search K L n
  batch : List Nat

namespace Moment

/-- The nodes that wait. -/
def waiting (f : Moment K L n) : List Nat :=
  f.search.queue.toList.map (·.node) ++ f.batch

/-- A node of the tree at a moment. -/
def node? (f : Moment K L n) (i : Nat) : Option (Node L n) :=
  f.search.tree.nodes[i]?

/-- The nodes that wait are the pending nodes, each waits once, and the queue has their bounds. -/
structure Frontier (f : Moment K L n) : Prop where
  nodup : f.waiting.Nodup
  pending : ∀ i, i ∈ f.waiting ↔ ∃ x, f.node? i = some x ∧ x.state = .pending
  entries : ∀ e ∈ f.search.queue.toList,
    ∃ x, f.node? e.node = some x ∧ e.bound = x.bound ∧ e.sequence = x.sequence

end Moment

namespace SearchTask

variable [Scalar K] [Limits L K]

/-! ## Steps -/

/-- One moment of a search comes right before another. -/
inductive Next (k : SearchTask K L n m) : Moment K L n → Moment K L n → Prop
  | look (s : Search K L n) (batch : List Nat) :
    Next k ⟨s, batch⟩ ⟨{ s with looks := s.looks + 1 }, batch⟩
  | explore {s : Search K L n} {e : QueueEntry L} {rest : Queue L} (batch : List Nat)
    (taken : s.queue.pop? = some (e, rest)) (better : k.canImprove s.incumbent e.bound = true) :
    Next k ⟨s, batch⟩
      ⟨({ s with queue := rest }).tally fun t => { t with nodesExplored := t.nodesExplored + 1 },
        batch ++ [e.node]⟩
  | dominate {s : Search K L n} {e : QueueEntry L} {rest : Queue L} (batch : List Nat)
    (taken : s.queue.pop? = some (e, rest)) (worse : k.canImprove s.incumbent e.bound = false) :
    Next k ⟨s, batch⟩
      ⟨(({ s with queue := rest }).setState e.node .dominated).tally fun t =>
        { t with prunedByBound := t.prunedByBound + 1 }, batch⟩
  | process (s : Search K L n) (id : Nat) (batch : List Nat) :
    Next k ⟨s, id :: batch⟩ ⟨k.process s id (k.solver (s.tree.bounds id k.box)), batch⟩

/-- One moment of a search is the other, or comes before it. -/
def Reach (k : SearchTask K L n m) : Moment K L n → Moment K L n → Prop :=
  Relation.ReflTransGen k.Next

/-- A moment of a search that starts at the root. -/
def Reached (k : SearchTask K L n m) (f : Moment K L n) : Prop :=
  k.Reach ⟨.start, []⟩ f

/-! ## Changes -/

/-- The reasons for which a node that waits is closed: the bound and the state that it ends with, and
the incumbent from then on. -/
inductive Reason (k : SearchTask K L n m) (s : Search K L n) (id : Nat) (x : Node L n) :
    L → NodeState → Option (Incumbent K n) → Prop
  | stale (worse : k.canImprove s.incumbent x.bound = false) :
    Reason k s id x x.bound .dominated s.incumbent
  | processed {bound : L} {state : NodeState} {incumbent : Option (Incumbent K n)}
    (why : Closing k s.incumbent (s.tree.bounds id k.box) x
      (k.solver (s.tree.bounds id k.box)).verdict bound state incumbent) :
    Reason k s id x bound state incumbent

/-- What may happen from one moment to the next. -/
inductive Change (k : SearchTask K L n m) (f f' : Moment K L n) : Prop
  | kept (tree : f'.search.tree = f.search.tree) (incumbent : f'.search.incumbent = f.search.incumbent)
    (created : f'.search.statistics.nodesCreated = f.search.statistics.nodesCreated)
    (countOf : ∀ σ, f'.search.statistics.countOf σ = f.search.statistics.countOf σ)
    (unbounded : f'.search.rootUnbounded = f.search.rootUnbounded)
  | closed {id : Nat} {x : Node L n} {bound : L} {state : NodeState}
    {incumbent : Option (Incumbent K n)} (here : f.node? id = some x) (pending : x.state = .pending)
    (why : Reason k f.search id x bound state incumbent)
    (after : Closed f.search id bound state incumbent f'.search)
  | split {id : Nat} {x : Node L n} {objective : K} {values : Vector K n} {j : Fin n}
    (here : f.node? id = some x) (pending : x.state = .pending)
    (optimal : (k.solver (f.search.tree.bounds id k.box)).verdict = .optimal objective values)
    (fractional : k.Fractional values j)
    (after : Split f.search id (k.boundOf objective) j values[j] f'.search)

theorem Reason.final {k : SearchTask K L n m} {s : Search K L n} {id : Nat} {x : Node L n}
    {bound : L} {state : NodeState} {incumbent : Option (Incumbent K n)}
    (why : Reason k s id x bound state incumbent) :
    state ≠ .pending ∧ state ≠ .relaxed ∧ state ≠ .branched := by
  cases why with
  | stale => simp
  | processed why => exact why.final

end SearchTask

/-! ## The frontier -/

namespace Moment

variable {f f' : Moment K L n} {id : Nat}

theorem node?_close {bound : L} {state : NodeState}
    (tree : f'.search.tree = f.search.tree.close id bound state) (i : Nat) :
    f'.node? i =
      if id = i then (f.node? i).map fun x => { x with bound, state } else f.node? i := by
  rw [node?, tree, Tree.nodes_close]
  rfl

theorem node?_split [Scalar K] [Limits L K] {x : Node L n} {bound : L} {j : Fin n} {v : K}
    (here : f.node? id = some x) (tree : f'.search.tree = f.search.tree.split id bound j v)
    (i : Nat) :
    f'.node? i =
      if i = f.search.tree.nodes.size then
        some (x.fresh id bound (.atMost j v) f.search.tree.nodes.size)
      else if i = f.search.tree.nodes.size + 1 then
        some (x.fresh id bound (.atLeast j v) (f.search.tree.nodes.size + 1))
      else if id = i then (f.node? i).map fun x => { x with bound, state := .branched }
      else f.node? i := by
  rw [node?, tree, Tree.nodes_split here, Tree.nodes_close]
  rfl

/-- Taking a node from the queue leaves it waiting. -/
theorem waiting_explore [Limits L K] {s : Search K L n} {e : QueueEntry L} {rest : Queue L}
    (batch : List Nat) (taken : s.queue.pop? = some (e, rest)) :
    rest.toList.map (·.node) ++ (batch ++ [e.node]) ~ (⟨s, batch⟩ : Moment K L n).waiting := by
  have entries : s.queue.toList ~ e :: rest.toList := Queue.toList_of_pop? taken
  rw [← List.append_assoc]
  exact List.perm_append_comm.trans ((entries.map QueueEntry.node).append_right batch).symm

namespace Frontier

theorem mem_of_waits (h : f.Frontier) (waits : id ∈ f.waiting) :
    ∃ x, f.node? id = some x ∧ x.state = .pending :=
  (h.pending id).mp waits

/-- Closing a node that waits takes it from the frontier. -/
theorem close {bound : L} {state : NodeState} (h : f.Frontier) (hstate : state ≠ .pending)
    (tree : f'.search.tree = f.search.tree.close id bound state)
    (waiting : f.waiting ~ id :: f'.waiting)
    (entries : ∀ e ∈ f'.search.queue.toList, e ∈ f.search.queue.toList) : f'.Frontier := by
  obtain ⟨gone, nodup⟩ := List.nodup_cons.mp (waiting.nodup_iff.mp h.nodup)
  have node (i : Nat) (hi : i ≠ id) : f'.node? i = f.node? i := by
    rw [node?_close tree, if_neg (Ne.symm hi)]
  have mem (i : Nat) : i ∈ f.waiting ↔ i = id ∨ i ∈ f'.waiting := by
    rw [waiting.mem_iff, List.mem_cons]
  refine ⟨nodup, ?_, ?_⟩
  · intro i
    by_cases hi : i = id
    · -- it waits no longer, and is no longer pending
      subst hi
      refine iff_of_false gone ?_
      rintro ⟨x, hx, hp⟩
      rw [node?_close tree, if_pos rfl, Option.map_eq_some_iff] at hx
      obtain ⟨y, -, rfl⟩ := hx
      exact hstate hp
    · rw [node i hi, ← h.pending i, mem i]
      simp [hi]
  · intro e he
    -- the queue has no entry for the node, or the node would wait twice
    have hne : e.node ≠ id := by
      intro hid
      refine gone (hid ▸ ?_)
      exact List.mem_append_left _ (List.mem_map_of_mem he)
    rw [node _ hne]
    exact h.entries e (entries e he)

/-- A child waits from the moment it is made. -/
theorem grow [Limits L K] {y : Node L n} {c : BoundChange L n} (h : f.Frontier)
    (parent : f.node? id = some y) (tree : f'.search.tree = (f.search.tree.child id c).1)
    (queue : f'.search.queue =
      f.search.queue.add ⟨y.bound, f.search.tree.nodes.size, f.search.tree.nodes.size⟩)
    (batch : f'.batch = f.batch) : f'.Frontier := by
  have nodes (i : Nat) : f'.node? i = if i = f.search.tree.nodes.size then
      some (y.fresh id y.bound c f.search.tree.nodes.size) else f.node? i := by
    have hid : f.search.tree.nodes[id]? = some y := parent
    rw [node?, tree, Tree.nodes_child, hid]
    rfl
  have old {i : Nat} {x : Node L n} (hx : f.node? i = some x) : f'.node? i = some x := by
    rw [nodes, if_neg (Tree.lt_size_of_some hx).ne, hx]
  have entries : f'.search.queue.toList ~
      ⟨y.bound, f.search.tree.nodes.size, f.search.tree.nodes.size⟩ :: f.search.queue.toList := by
    rw [queue]
    exact Queue.toList_add _ _
  have waiting : f'.waiting ~ f.search.tree.nodes.size :: f.waiting := by
    rw [Moment.waiting, batch]
    exact (entries.map _).append_right _
  refine ⟨?_, ?_, ?_⟩
  · refine waiting.nodup_iff.mpr (List.nodup_cons.mpr ⟨?_, h.nodup⟩)
    intro hmem
    obtain ⟨x, hx, -⟩ := h.mem_of_waits hmem
    exact (Tree.lt_size_of_some hx).false
  · intro i
    rw [waiting.mem_iff, List.mem_cons, h.pending, nodes]
    split
    · exact iff_of_true (.inl ‹_›) ⟨_, rfl, rfl⟩
    · exact ⟨fun hi => hi.resolve_left ‹_›, .inr⟩
  · intro e he
    rcases List.mem_cons.mp (entries.mem_iff.mp he) with rfl | he
    · exact ⟨y.fresh id y.bound c f.search.tree.nodes.size, (nodes _).trans (if_pos rfl), rfl, rfl⟩
    · obtain ⟨x, hx, hb, hs⟩ := h.entries e he
      exact ⟨x, old hx, hb, hs⟩

/-- Splitting a node that waits puts its children in its place. -/
theorem split [Scalar K] [Limits L K] {x : Node L n} {bound : L} {j : Fin n} {v : K}
    (h : f.Frontier) (here : f.node? id = some x)
    (tree : f'.search.tree = f.search.tree.split id bound j v)
    (queue : f'.search.queue = f.search.queue.addPair bound f.search.tree.nodes.size)
    (batch : f.batch = id :: f'.batch) : f'.Frontier := by
  -- a split is a closing and two growths, each of which keeps a frontier
  let closed : Moment K L n :=
    ⟨{ f.search with tree := f.search.tree.close id bound .branched }, f'.batch⟩
  let first : Moment K L n :=
    ⟨{ closed.search with
        tree := (closed.search.tree.child id (.atMost j v)).1
        queue := closed.search.queue.add
          ⟨bound, closed.search.tree.nodes.size, closed.search.tree.nodes.size⟩ }, f'.batch⟩
  have hclosed : closed.node? id = some { x with bound, state := .branched } := by
    rw [node?_close (f := f) rfl, if_pos rfl, here]
    rfl
  have hfirst : first.node? id = some { x with bound, state := .branched } := by
    rw [node?, Tree.nodes_child, if_neg (Tree.lt_size_of_some hclosed).ne]
    exact hclosed
  have waiting : f.waiting ~ id :: closed.waiting := by
    rw [Moment.waiting, batch]
    exact List.perm_middle
  have hc : closed.Frontier := h.close (by simp) rfl waiting fun e he => he
  have hf : first.Frontier := hc.grow hclosed rfl rfl rfl
  refine hf.grow hfirst tree ?_ rfl
  rw [queue]
  simp [first, closed, Queue.addPair]

/-- At the start the root waits. -/
theorem start [Limits L K] : (⟨.start, []⟩ : Moment K L n).Frontier := by
  refine ⟨by simp [waiting, Search.start_queue, Queue.toList], ?_, ?_⟩
  · intro i
    cases i <;> simp [waiting, Search.start_queue, Queue.toList, node?, Search.start_tree, Tree.root]
  · intro e he
    simp only [Search.start_queue, Queue.toList, List.append_nil, List.mem_singleton] at he
    subst he
    exact ⟨_, rfl, rfl, rfl⟩

/-- At every moment the nodes that wait are the pending nodes, each once. -/
theorem next [Scalar K] [Limits L K] {k : SearchTask K L n m} (h : f.Frontier)
    (step : k.Next f f') : f'.Frontier := by
  cases step with
  | look s batch => exact ⟨h.nodup, h.pending, h.entries⟩
  | @explore s e rest batch taken better =>
    have entries : s.queue.toList ~ e :: rest.toList := Queue.toList_of_pop? taken
    have waiting := waiting_explore batch taken
    exact ⟨waiting.nodup_iff.mpr h.nodup, fun i => waiting.mem_iff.trans (h.pending i),
      fun e' he => h.entries e' (entries.mem_iff.mpr (List.mem_cons_of_mem _ he))⟩
  | @dominate s e rest batch taken worse =>
    have entries : s.queue.toList ~ e :: rest.toList := Queue.toList_of_pop? taken
    obtain ⟨x, hx, -, -⟩ := h.entries e (entries.mem_iff.mpr (List.mem_cons_self ..))
    refine h.close (by simp) (Tree.close_bound hx .dominated).symm ?_
      fun e' he => entries.mem_iff.mpr (List.mem_cons_of_mem _ he)
    exact (entries.map QueueEntry.node).append_right batch
  | process s id batch =>
    obtain ⟨x, hx, hp⟩ := h.mem_of_waits (List.mem_append_right _ (List.mem_cons_self ..))
    cases k.process_fate (k.solver (s.tree.bounds id k.box)) hx with
    | closed why after queue =>
      refine h.close why.final.1 after.tree ?_ fun e he => queue ▸ he
      rw [Moment.waiting, Moment.waiting, queue]
      exact List.perm_middle
    | split optimal fractional after queue => exact h.split hx after.tree queue rfl

end Frontier

end Moment

/-! ## What may happen -/

namespace SearchTask

variable [Scalar K] [Limits L K] {k : SearchTask K L n m} {f f' : Moment K L n}

theorem Reach.frontier (reach : k.Reach f f') (h : f.Frontier) : f'.Frontier := by
  induction reach with
  | refl => exact h
  | tail _ step ih => exact ih.next step

theorem Reached.frontier (reached : k.Reached f) : f.Frontier :=
  Reach.frontier reached .start

/-- From one moment to the next nothing happens to the tree, or one node that waits is closed or
split. -/
theorem change_of_next (h : f.Frontier) (step : k.Next f f') : k.Change f f' := by
  cases step with
  | look s batch => exact .kept rfl rfl rfl (fun _ => rfl) rfl
  | explore batch taken better => exact .kept rfl rfl rfl (fun _ => rfl) rfl
  | @dominate s e rest batch taken worse =>
    have first : e ∈ s.queue.toList :=
      (Queue.toList_of_pop? taken).mem_iff.mpr (List.mem_cons_self ..)
    obtain ⟨x, hx, hb, -⟩ := h.entries e first
    obtain ⟨y, hy, hp⟩ := h.mem_of_waits (List.mem_append_left _ (List.mem_map_of_mem first))
    obtain rfl : x = y := Option.some.inj (hx.symm.trans hy)
    rw [hb] at worse
    exact .closed hx hp (.stale worse)
      (closed_of_setState hx rfl rfl (Statistics.countsOneMore _ .dominated)
        (Bool.or_false _).symm)
  | process s id batch =>
    obtain ⟨x, hx, hp⟩ := h.mem_of_waits (List.mem_append_right _ (List.mem_cons_self ..))
    cases k.process_fate (k.solver (s.tree.bounds id k.box)) hx with
    | closed why after queue => exact .closed hx hp (.processed why) after
    | split optimal fractional after queue => exact .split hx hp optimal fractional after

/-- What holds at the start and is kept by every change holds at every moment. -/
theorem Reached.invariant {motive : Moment K L n → Prop} (reached : k.Reached f)
    (start : motive ⟨.start, []⟩)
    (change : ∀ f f', k.Reached f → motive f → k.Change f f' → motive f') : motive f := by
  induction reached with
  | refl => exact start
  | tail before step ih =>
    exact change _ _ before ih (change_of_next (Reached.frontier before) step)

/-! ## What stays -/

/-- Nothing happens to the tree but operations on trees. -/
theorem Change.grows (change : k.Change f f') : f.search.tree.Grows f'.search.tree := by
  cases change with
  | kept tree => exact tree ▸ .refl
  | closed here pending why after => exact after.tree ▸ Tree.grows_close ..
  | split here pending optimal fractional after => exact after.tree ▸ Tree.grows_split here ..

/-- At every moment the tree is one that has grown from a root. -/
theorem grown_of_reached (reached : k.Reached f) : f.search.tree.Grown :=
  reached.invariant .refl fun _ _ _ grown change => Relation.ReflTransGen.trans grown change.grows

theorem Change.size_le (change : k.Change f f') :
    f.search.tree.nodes.size ≤ f'.search.tree.nodes.size :=
  change.grows.size_le

/-- The bounds of a node never change. -/
theorem Change.bounds (change : k.Change f f') {i : Nat} (hi : i < f.search.tree.nodes.size)
    (box : Box L n) : f'.search.tree.bounds i box = f.search.tree.bounds i box :=
  Tree.bounds_congr (change.grows.path_eq hi)

/-! ## What becomes of a node -/

/-- What a change makes of a node: it is what it was, it was closed, it is a new side of a split, or
it was split. -/
inductive Became (k : SearchTask K L n m) (f f' : Moment K L n) (i : Nat) : Node L n → Prop
  | kept {x : Node L n} (old : f.node? i = some x) : Became k f f' i x
  | closed {x : Node L n} {bound : L} {state : NodeState} {incumbent : Option (Incumbent K n)}
    (old : f.node? i = some x) (pending : x.state = .pending)
    (why : Reason k f.search i x bound state incumbent)
    (after : Closed f.search i bound state incumbent f'.search) :
    Became k f f' i { x with bound, state }
  | side {id : Nat} {x : Node L n} {objective : K} {values : Vector K n} {j : Fin n}
    {c : BoundChange L n} (here : f.node? id = some x)
    (optimal : (k.solver (f.search.tree.bounds id k.box)).verdict = .optimal objective values)
    (fractional : k.Fractional values j)
    (after : Split f.search id (k.boundOf objective) j values[j] f'.search)
    (new : i = f.search.tree.nodes.size ∧ c = .atMost j values[j] ∨
      i = f.search.tree.nodes.size + 1 ∧ c = .atLeast j values[j]) :
    Became k f f' i (x.fresh id (k.boundOf objective) c i)
  | split {x : Node L n} {objective : K} {values : Vector K n} {j : Fin n}
    (old : f.node? i = some x) (pending : x.state = .pending)
    (optimal : (k.solver (f.search.tree.bounds i k.box)).verdict = .optimal objective values)
    (fractional : k.Fractional values j)
    (after : Split f.search i (k.boundOf objective) j values[j] f'.search) :
    Became k f f' i { x with bound := k.boundOf objective, state := .branched }

/-- Every node after a change comes about in one of these ways. -/
theorem Change.became (change : k.Change f f') {i : Nat} {x : Node L n}
    (now : f'.node? i = some x) : k.Became f f' i x := by
  cases change with
  | kept tree =>
    rw [Moment.node?, tree] at now
    exact .kept now
  | @closed id y bound state incumbent here pending why after =>
    rw [Moment.node?_close after.tree] at now
    split at now
    · rename_i same
      subst same
      rw [here] at now
      cases now
      exact .closed here pending why after
    · exact .kept now
  | @split id y objective values j here pending optimal fractional after =>
    rw [Moment.node?_split here after.tree] at now
    split_ifs at now with first second same
    · cases now
      exact first ▸ .side here optimal fractional after (.inl ⟨first, rfl⟩)
    · cases now
      exact second ▸ .side here optimal fractional after (.inr ⟨second, rfl⟩)
    · subst same
      rw [here] at now
      cases now
      exact .split here pending optimal fractional after
    · exact .kept now

/-- What holds of the root at the start, and after every change of what became of the nodes, holds of
every node at every moment. -/
theorem Reached.node_invariant {motive : Moment K L n → Nat → Node L n → Prop}
    (start : ∀ x, (⟨.start, []⟩ : Moment K L n).node? 0 = some x → motive ⟨.start, []⟩ 0 x)
    (change : ∀ f f' i x, (∀ i x, f.node? i = some x → motive f i x) → k.Change f f' →
      k.Became f f' i x → motive f' i x)
    (reached : k.Reached f) {i : Nat} {x : Node L n} (here : f.node? i = some x) :
    motive f i x := by
  refine reached.invariant (motive := fun f => ∀ i x, f.node? i = some x → motive f i x) ?_ ?_ i x here
  · intro i x here
    cases i with
    | zero => exact start x here
    | succ i => simp [Moment.node?, Search.start_tree, Tree.root] at here
  · exact fun f f' _ ih step i x here => change f f' i x ih step (step.became here)

/-! ## Batches -/

section Batches

variable {s : Search K L n}

/-- Taking from an empty queue. -/
theorem takeBatch_of_none {q : Queue L} (taken : q.pop? = none) (room : Nat) (s : Search K L n) :
    k.takeBatch (room + 1) q s = ({ s with queue := q }, [], none) := by
  rw [takeBatch]
  split
  · rfl
  · rename_i some
    rw [taken] at some
    cases some

section Some

variable {q rest : Queue L} {e : QueueEntry L}

/-- Taking stops at a limit. -/
theorem takeBatch_of_limit {stop : Stop} (taken : q.pop? = some (e, rest))
    (limit : k.limitReached s = some stop) (room : Nat) :
    k.takeBatch (room + 1) q s = ({ s with queue := q, looks := s.looks + 1 }, [], some stop) := by
  rw [takeBatch]
  split
  · rename_i none
    rw [taken] at none
    cases none
  · rw [limit]

/-- A node is taken that may improve on the incumbent. -/
theorem takeBatch_of_better (taken : q.pop? = some (e, rest)) (free : k.limitReached s = none)
    (better : k.canImprove s.incumbent e.bound = true) (room : Nat) :
    k.takeBatch (room + 1) q s =
      let next := k.takeBatch room rest ({ s with looks := s.looks + 1 }.tally fun t =>
        { t with nodesExplored := t.nodesExplored + 1 })
      (next.1, e.node :: next.2.1, next.2.2) := by
  rw [takeBatch]
  split
  · rename_i none
    rw [taken] at none
    cases none
  · rename_i some
    rw [taken] at some
    cases some
    rw [free]
    exact if_pos better

/-- A node is closed that may not. -/
theorem takeBatch_of_worse (taken : q.pop? = some (e, rest)) (free : k.limitReached s = none)
    (worse : ¬ k.canImprove s.incumbent e.bound = true) (room : Nat) :
    k.takeBatch (room + 1) q s =
      k.takeBatch (room + 1) rest (({ s with looks := s.looks + 1 }.setState e.node .dominated).tally
        fun t => { t with prunedByBound := t.prunedByBound + 1 }) := by
  rw [takeBatch]
  split
  · rename_i none
    rw [taken] at none
    cases none
  · rename_i some
    rw [taken] at some
    cases some
    rw [free]
    exact if_neg worse

end Some

end Batches

/-! ## Rounds -/

/-- Taking a batch goes from moment to moment. -/
theorem takeBatch_reach (k : SearchTask K L n m) (room : Nat) (q : Queue L) (s : Search K L n)
    (batch : List Nat) :
    k.Reach ⟨{ s with queue := q }, batch⟩
      ⟨(k.takeBatch room q s).1, batch ++ (k.takeBatch room q s).2.1⟩ := by
  fun_induction takeBatch k room q s generalizing batch with
  | case1 q s => simpa using .refl
  | case2 q s room taken => simpa using .refl
  | case3 q s room e rest taken stop limit =>
    rw [List.append_nil]
    exact .single (.look { s with queue := q } batch)
  | case4 q s room e rest taken limit looked better explored last ids stop h ih =>
    rw [h] at ih
    have look := Next.look (k := k) { s with queue := q } batch
    have explore := Next.explore (k := k) (s := { looked with queue := q }) batch taken better
    rw [List.append_cons]
    exact .head look (.head explore (ih (batch ++ [e.node])))
  | case5 q s room e rest taken limit looked worse closed ih =>
    have look := Next.look (k := k) { s with queue := q } batch
    have dominate := Next.dominate (k := k) (s := { looked with queue := q }) batch taken
      (Bool.not_eq_true _ ▸ worse)
    exact .head look (.head dominate (ih batch))

/-- The outcomes of a batch, solved in one tree, are those of the trees in which they are processed
as long as the bounds of the nodes are the same. -/
theorem process_reach (k : SearchTask K L n m) (t : Tree L n) {ids : List Nat} {s : Search K L n}
    (h : (⟨s, ids⟩ : Moment K L n).Frontier)
    (same : ∀ id ∈ ids, s.tree.bounds id k.box = t.bounds id k.box) :
    k.Reach ⟨s, ids⟩
      ⟨(ids.map fun id => (id, k.solver (t.bounds id k.box))).foldl
        (fun s o => k.process s o.1 o.2) s, []⟩ := by
  induction ids generalizing s with
  | nil => exact .refl
  | cons id ids ih =>
    have step : k.Next ⟨s, id :: ids⟩ ⟨k.process s id (k.solver (t.bounds id k.box)), ids⟩ := by
      rw [← same id (List.mem_cons_self ..)]
      exact .process s id ids
    -- processing one node moves the bounds of no other, so the outcomes to come stay the same
    have change := change_of_next h step
    refine .head step (ih (h.next step) ?_)
    intro i hi
    obtain ⟨x, hx, -⟩ := h.mem_of_waits
      (List.mem_append_right _ (List.mem_cons_of_mem id hi))
    exact (change.bounds (Tree.lt_size_of_some hx) k.box).trans
      (same i (List.mem_cons_of_mem id hi))

theorem round_fst (k : SearchTask K L n m) (s : Search K L n) :
    (k.round s).1 =
      ((k.takeBatch k.config.threads s.queue s).2.1.map fun id =>
        (id, k.solver ((k.takeBatch k.config.threads s.queue s).1.tree.bounds id k.box))).foldl
        (fun s o => k.process s o.1 o.2) (k.takeBatch k.config.threads s.queue s).1 := by
  unfold round
  dsimp only
  split
  · rfl
  · split <;> rfl

/-- A round goes from moment to moment. -/
theorem round_reach (k : SearchTask K L n m) {s : Search K L n}
    (h : (⟨s, []⟩ : Moment K L n).Frontier) : k.Reach ⟨s, []⟩ ⟨(k.round s).1, []⟩ := by
  have taken := k.takeBatch_reach k.config.threads s.queue s []
  rw [round_fst]
  exact taken.trans (process_reach k _ (taken.frontier h) fun _ _ => rfl)

/-- What a round keeps, all rounds keep. -/
theorem rounds_invariant {motive : Search K L n → Prop}
    (kept : ∀ s, motive s → motive (k.round s).1) (left : Nat) {s : Search K L n} (h : motive s) :
    motive (k.rounds left s).1 := by
  induction left generalizing s with
  | zero => exact h
  | succ left ih =>
    have next := kept s h
    rw [rounds]
    split
    · rename_i s' stop round
      rwa [round] at next
    · rename_i s' round
      rw [round] at next
      exact ih next

theorem rounds_reach (k : SearchTask K L n m) (left : Nat) {s : Search K L n}
    (h : (⟨s, []⟩ : Moment K L n).Frontier) : k.Reach ⟨s, []⟩ ⟨(k.rounds left s).1, []⟩ :=
  rounds_invariant (motive := fun last => k.Reach ⟨s, []⟩ ⟨last, []⟩)
    (fun _ reach => reach.trans (k.round_reach (reach.frontier h))) left .refl

/-- What the rounds of a search end with is a moment of the search. -/
theorem rounds_reached (k : SearchTask K L n m) (left : Nat) :
    k.Reached ⟨(k.rounds left .start).1, []⟩ :=
  k.rounds_reach left .start

/-! ## Stops -/

omit [Scalar K] [Limits L K] in
theorem stop_of_limitReached {s : Search K L n} {stop : Stop}
    (h : k.limitReached s = some stop) : stop = .aborted ∨ stop = .sufficient := by
  unfold limitReached at h
  dsimp only at h
  split_ifs at h <;> simp_all

theorem stop_of_takeBatch {room : Nat} {q : Queue L} {s : Search K L n} {stop : Stop}
    (h : (k.takeBatch room q s).2.2 = some stop) : stop = .aborted ∨ stop = .sufficient := by
  fun_induction takeBatch k room q s with
  | case1 | case2 => simp at h
  | case3 q s room e rest taken stop' limit =>
    cases h
    exact stop_of_limitReached limit
  | case4 q s room e rest taken limit looked better explored last ids stop' h' ih =>
    rw [h'] at ih
    exact ih h
  | case5 q s room e rest taken limit looked worse closed ih => exact ih h

/-- How a round ends: with the stop, if there is one, and what is known then. -/
inductive RoundEnd (k : SearchTask K L n m) (s s' : Search K L n) : Option Stop → Prop
  | unbounded (root : s'.rootUnbounded = true) : RoundEnd k s s' (some .unbounded)
  | limited {stop : Stop} (root : s'.rootUnbounded = false)
    (taken : (k.takeBatch k.config.threads s.queue s).2.2 = some stop) : RoundEnd k s s' (some stop)
  | exhausted (root : s'.rootUnbounded = false) (empty : s'.queue.isEmpty = true) :
    RoundEnd k s s' (some .exhausted)
  | unfinished (taken : (k.takeBatch k.config.threads s.queue s).2.2 = none)
    (more : s'.queue.isEmpty = false) : RoundEnd k s s' none

theorem round_end {s s' : Search K L n} {stop : Option Stop} (h : k.round s = (s', stop)) :
    RoundEnd k s s' stop := by
  unfold round at h
  dsimp only at h
  split at h
  · rename_i unbounded
    cases h
    exact .unbounded unbounded
  · rename_i bounded
    rw [Bool.not_eq_true] at bounded
    split at h
    · rename_i stop' taken
      cases h
      exact .limited bounded taken
    · rename_i taken
      cases h
      split
      · exact .exhausted bounded ‹_›
      · exact .unfinished taken (Bool.eq_false_iff.mpr ‹_›)

/-- A round that ends a search is sure of its reason: the root is unbounded exactly when that is the
reason, and nothing waits when the search is exhausted. -/
theorem round_stop {s s' : Search K L n} {stop : Stop} (h : k.round s = (s', some stop)) :
    (stop = .unbounded ↔ s'.rootUnbounded = true) ∧
      (stop = .exhausted → s'.queue.isEmpty = true) := by
  cases round_end h with
  | unbounded root => exact ⟨iff_of_true rfl root, nofun⟩
  | limited root taken =>
    rcases stop_of_takeBatch taken with rfl | rfl
    · exact ⟨iff_of_false nofun (by simp [root]), nofun⟩
    · exact ⟨iff_of_false nofun (by simp [root]), nofun⟩
  | exhausted root empty => exact ⟨iff_of_false nofun (by simp [root]), fun _ => empty⟩

theorem rounds_stop {left : Nat} {s s' : Search K L n} {stop : Stop}
    (h : k.rounds left s = (s', stop)) (more : stop ≠ .outOfRounds) :
    (stop = .unbounded ↔ s'.rootUnbounded = true) ∧
      (stop = .exhausted → s'.queue.isEmpty = true) := by
  induction left generalizing s with
  | zero =>
    cases h
    exact absurd rfl more
  | succ left ih =>
    rw [rounds] at h
    split at h
    · rename_i s'' stop' round
      cases h
      exact round_stop round
    · exact ih h

end SearchTask

end Milp
