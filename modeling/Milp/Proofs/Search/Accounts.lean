import Mathlib.Algebra.BigOperators.Group.Finset.Basic
import Mathlib.Data.Fintype.Basic
import Milp.Proofs.Search.History
import Milp.Proofs.Search.Leaves
import Milp.Proofs.Search.Root

/-!
# Where the nodes of a search go

Results:
1. `nodesIn_terminal`: until the end no node is given up but an unbounded root.
2. `explored_le_size`, `explored_le_limit`: how many nodes are explored.
3. `accounts_of_run`: every node that a search ends with is counted once.
-/

namespace Milp

variable {K L : Type} {n m : Nat}

/-! ## Nodes by their states -/

instance : Fintype NodeState where
  elems := {.pending, .relaxed, .terminal, .dominated, .infeasible, .failed, .branched, .integral}
  complete σ := by cases σ <;> decide

/-- Every node is in one state. -/
theorem Tree.size_eq_sum (t : Tree L n) : t.nodes.size = ∑ σ, (t.nodesIn σ).card := by
  let state (i : Nat) : Option NodeState := t.nodes[i]?.map (·.state)
  have states : Set.MapsTo state (Finset.range t.nodes.size)
      (Finset.univ.map Function.Embedding.some : Finset (Option NodeState)) := by
    intro i inside
    have here : i < t.nodes.size := Finset.mem_range.mp inside
    simp [state, here]
  calc t.nodes.size
    _ = (Finset.range t.nodes.size).card := (Finset.card_range _).symm
    _ = ∑ σ, (t.nodesIn σ).card := by
      rw [Finset.card_eq_sum_card_fiberwise states, Finset.sum_map]
      rfl

/-- The states, those first in which no search leaves a node, and those last that are counted. -/
theorem NodeState.sum_eq (f : NodeState → Nat) :
    ∑ σ, f σ = f .pending + f .relaxed + f .terminal +
      (f .dominated + f .infeasible + f .failed + f .branched + f .integral) := by
  have all : (Finset.univ : Finset NodeState) = {.pending, .relaxed, .terminal, .dominated,
      .infeasible, .failed, .branched, .integral} := rfl
  simp [all, add_assoc]

namespace SearchTask

variable [Scalar K] [Limits L K] {k : SearchTask K L n m} {f f' : Moment K L n}

/-! ## Before the end -/

/-- What a step does to the number of nodes in a state in which none waits. -/
theorem Change.nodesIn_relaxed (change : k.Change f f')
    (h : (f.search.tree.nodesIn .relaxed).card = 0) :
    (f'.search.tree.nodesIn .relaxed).card = 0 := by
  cases change with
  | kept tree => rw [tree, h]
  | closed here pending why after =>
    rw [after.tree, Tree.card_nodesIn_close here (by simp [pending]), h, if_neg why.final.2.1]
  | split here pending optimal fractional after =>
    rw [after.tree, Tree.card_nodesIn_split here (by simp [pending]) (by simp), h,
      if_neg (show NodeState.branched ≠ .relaxed by simp)]

/-- No node stays between its relaxation and its fate. -/
theorem nodesIn_relaxed (reached : k.Reached f) : f.search.tree.nodesIn .relaxed = ∅ := by
  rw [← Finset.card_eq_zero]
  exact reached.invariant (motive := fun f => (f.search.tree.nodesIn .relaxed).card = 0) rfl
    fun _ _ _ h change => change.nodesIn_relaxed h

theorem card_nodesIn_terminal (reached : k.Reached f) :
    (f.search.tree.nodesIn .terminal).card = if f.search.rootUnbounded then 1 else 0 := by
  refine reached.invariant (motive := fun f => (f.search.tree.nodesIn .terminal).card =
    if f.search.rootUnbounded then 1 else 0) rfl ?_
  intro f f' reached' ih change
  cases change with
  | kept tree incumbent created countOf unbounded => rw [tree, unbounded, ih]
  | @closed id x bound state incumbent here pending why after =>
    rw [after.tree, Tree.card_nodesIn_close here (by simp [pending]), ih, after.unbounded]
    by_cases terminal : state = .terminal
    · have root := (parent_of_reached reached' here).mp (why.terminal terminal)
      simp [terminal, (reached'.bounded_of_pending here pending root).2.2]
    · simp [terminal]
  | split here pending optimal fractional after =>
    rw [after.tree, Tree.card_nodesIn_split here (by simp [pending]) (by simp), ih,
      after.unbounded, if_neg (show NodeState.branched ≠ .terminal by simp), add_zero]

/-- Until the end no node is given up but an unbounded root. -/
theorem nodesIn_terminal (reached : k.Reached f) :
    f.search.tree.nodesIn .terminal = if f.search.rootUnbounded then {0} else ∅ := by
  have card := card_nodesIn_terminal reached
  split
  · rename_i unbounded
    rw [if_pos unbounded] at card
    obtain ⟨i, only⟩ := Finset.card_eq_one.mp card
    obtain ⟨x, here, -⟩ := Tree.mem_nodesIn.mp (only ▸ Finset.mem_singleton_self i)
    have inside := Tree.lt_size_of_some here
    have size := (alone_of_unbounded reached unbounded).1
    rw [only, show i = 0 by omega]
  · rename_i bounded
    rwa [if_neg bounded, Finset.card_eq_zero] at card

/-! ## Explored nodes -/

/-- Nodes that were explored and nodes that wait to be are different nodes. -/
theorem explored_le_size (reached : k.Reached f) :
    f.search.statistics.nodesExplored + f.search.queue.size ≤ f.search.tree.nodes.size := by
  induction reached with
  | refl => exact le_rfl
  | tail before step ih =>
    have frontier := Reached.frontier before
    cases step with
    | look s batch => exact ih
    | @explore s e rest batch taken better =>
      have size := Queue.size_of_pop? taken
      show s.statistics.nodesExplored + 1 + rest.size ≤ s.tree.nodes.size
      have old : s.statistics.nodesExplored + s.queue.size ≤ s.tree.nodes.size := ih
      omega
    | @dominate s e rest batch taken worse =>
      have size := Queue.size_of_pop? taken
      show s.statistics.nodesExplored + rest.size ≤ (s.tree.setState e.node .dominated).nodes.size
      have old : s.statistics.nodesExplored + s.queue.size ≤ s.tree.nodes.size := ih
      rw [Tree.size_setState]
      omega
    | process s id batch =>
      have old : s.statistics.nodesExplored + s.queue.size ≤ s.tree.nodes.size := ih
      obtain ⟨x, hx, -⟩ := frontier.mem_of_waits (List.mem_append_right _ (List.mem_cons_self ..))
      cases k.process_fate (k.solver (s.tree.bounds id k.box)) hx with
      | closed why after queue =>
        rw [after.counts.explored, queue, after.tree, Tree.size_close]
        exact old
      | split optimal fractional after queue =>
        rw [after.explored, queue, Queue.size_addPair, after.tree, Tree.size_split]
        omega

variable {limit : Nat} {s : Search K L n}

/-- A batch takes no node beyond the limit, as the limit is looked at before each. -/
theorem takeBatch_explored_le (limited : k.config.nodeLimit = some limit) (room : Nat) (q : Queue L)
    (h : s.statistics.nodesExplored ≤ limit) :
    (k.takeBatch room q s).1.statistics.nodesExplored ≤ limit := by
  fun_induction takeBatch k room q s with
  | case1 | case2 | case3 => exact h
  | case4 q s room e rest taken free looked better explored last ids stop batch ih =>
    rw [batch] at ih
    refine ih (Nat.succ_le_of_lt (Nat.lt_of_not_le ?_))
    intro full
    simp [limitReached, limited, show limit ≤ s.statistics.nodesExplored from full] at free
  | case5 q s room e rest taken free looked worse closed ih => exact ih h

theorem round_explored_le (limited : k.config.nodeLimit = some limit)
    (h : s.statistics.nodesExplored ≤ limit) :
    (k.round s).1.statistics.nodesExplored ≤ limit := by
  rw [round_fst]
  exact (foldl_process_explored k _ _).trans_le (takeBatch_explored_le limited k.config.threads s.queue h)

/-- No more nodes are explored than the limit allows. -/
theorem explored_le_limit (limited : k.config.nodeLimit = some limit) (left : Nat)
    (h : s.statistics.nodesExplored ≤ limit) :
    (k.rounds left s).1.statistics.nodesExplored ≤ limit :=
  rounds_invariant (motive := fun s => s.statistics.nodesExplored ≤ limit)
    (fun _ => round_explored_le limited) left h

end SearchTask

/-! ## The nodes that are given up -/

namespace Search

variable {s : Search K L n} {σ : NodeState}

theorem size_abandon (s : Search K L n) : s.abandon.tree.nodes.size = s.tree.nodes.size := by
  have sizes (es : List (QueueEntry L)) (t : Tree L n) :
      (es.foldl (fun t e => t.setState e.node .terminal) t).nodes.size = t.nodes.size := by
    induction es generalizing t with
    | nil => rfl
    | cons e es ih => rw [List.foldl_cons, ih, Tree.size_setState]
  exact sizes _ _

/-- Giving up the nodes that wait moves those, and no others. -/
theorem mem_nodesIn_abandon (frontier : (⟨s, []⟩ : Moment K L n).Frontier) (i : Nat) :
    i ∈ s.abandon.tree.nodesIn σ ↔
      if i ∈ s.queue.toList.map (·.node) then σ = .terminal else i ∈ s.tree.nodesIn σ := by
  rw [Tree.mem_nodesIn, nodes_abandon]
  split
  · rename_i waits
    obtain ⟨x, here, -⟩ := frontier.mem_of_waits (List.mem_append_left _ waits)
    have old : s.tree.nodes[i]? = some x := here
    simp [old, eq_comm]
  · exact Tree.mem_nodesIn.symm

/-- The nodes that wait are pending, until they are given up. -/
theorem mem_nodesIn_pending (frontier : (⟨s, []⟩ : Moment K L n).Frontier) (i : Nat) :
    i ∈ s.tree.nodesIn .pending ↔ i ∈ s.queue.toList.map (·.node) := by
  have waits := frontier.pending i
  rw [Moment.waiting, List.append_nil] at waits
  exact Tree.mem_nodesIn.trans waits.symm

/-- A node that was neither waiting nor given up stays as it is. -/
theorem nodesIn_abandon (frontier : (⟨s, []⟩ : Moment K L n).Frontier) (pending : σ ≠ .pending)
    (terminal : σ ≠ .terminal) : s.abandon.tree.nodesIn σ = s.tree.nodesIn σ := by
  ext i
  rw [mem_nodesIn_abandon frontier]
  split
  · rename_i waits
    obtain ⟨x, here, state⟩ := frontier.mem_of_waits (List.mem_append_left _ waits)
    refine iff_of_false terminal (Tree.notMem_nodesIn here ?_)
    rw [state]
    exact pending.symm
  · rfl

theorem nodesIn_abandon_pending (frontier : (⟨s, []⟩ : Moment K L n).Frontier) :
    s.abandon.tree.nodesIn .pending = ∅ := by
  refine Finset.eq_empty_of_forall_notMem fun i mem => ?_
  rw [mem_nodesIn_abandon frontier, mem_nodesIn_pending frontier] at mem
  split at mem
  · cases mem
  · exact absurd mem ‹_›

theorem mem_nodesIn_terminal (frontier : (⟨s, []⟩ : Moment K L n).Frontier) (i : Nat) :
    i ∈ s.abandon.tree.nodesIn .terminal ↔
      i ∈ s.queue.toList.map (·.node) ∨ i ∈ s.tree.nodesIn .terminal := by
  rw [mem_nodesIn_abandon frontier]
  split
  · simp [*]
  · simp [*]

/-- The nodes that are given up are those that wait, and those given up before. -/
theorem card_nodesIn_abandon (frontier : (⟨s, []⟩ : Moment K L n).Frontier) :
    (s.abandon.tree.nodesIn .terminal).card =
      s.queue.size + (s.tree.nodesIn .terminal).card := by
  have nodup := frontier.nodup
  rw [Moment.waiting, List.append_nil] at nodup
  have union : s.abandon.tree.nodesIn .terminal =
      (s.queue.toList.map (·.node)).toFinset ∪ s.tree.nodesIn .terminal := by
    ext i
    rw [mem_nodesIn_terminal frontier, Finset.mem_union, List.mem_toFinset]
  have apart : Disjoint (s.queue.toList.map (·.node)).toFinset (s.tree.nodesIn .terminal) := by
    rw [Finset.disjoint_left]
    intro i waits
    obtain ⟨x, here, pending⟩ := frontier.mem_of_waits
      (List.mem_append_left _ (List.mem_toFinset.mp waits))
    exact Tree.notMem_nodesIn here (by simp [pending])
  rw [union, Finset.card_union_of_disjoint apart, List.toFinset_card_of_nodup nodup,
    List.length_map, Queue.length_toList]

end Search

/-! ## The end -/

namespace SearchTask

variable [Scalar K] [Limits L K] {k : SearchTask K L n m}

/-- Where the nodes are that a search ends with, given the state in which it stopped and why it did:
every node is in one place, and every place but the last is counted. -/
structure Accounts (k : SearchTask K L n m) (last : Search K L n) (stop : Stop)
    (s : Search K L n) : Prop where
  size : s.statistics.nodesCreated = s.tree.nodes.size
  created : s.statistics.nodesCreated = 1 + 2 * s.statistics.branched
  pending : s.tree.nodesIn .pending = ∅
  relaxed : s.tree.nodesIn .relaxed = ∅
  countOf : ∀ σ, σ.isCounted = true → s.statistics.countOf σ = (s.tree.nodesIn σ).card
  /-- Given up are the nodes that waited, and the root if it was unbounded. -/
  terminal : ∀ i, i ∈ s.tree.nodesIn .terminal ↔
    i ∈ last.queue.toList.map (·.node) ∨ (last.rootUnbounded = true ∧ i = 0)
  card : (s.tree.nodesIn .terminal).card = last.queue.size + if last.rootUnbounded then 1 else 0
  total : s.statistics.nodesCreated = s.statistics.prunedByBound + s.statistics.prunedInfeasible +
    s.statistics.numericalFailures + s.statistics.branched + s.statistics.integral +
    (s.tree.nodesIn .terminal).card
  exhausted : stop = .exhausted → (s.tree.nodesIn .terminal).card = 0 ∧
    1 + s.statistics.branched = s.statistics.prunedByBound + s.statistics.prunedInfeasible +
      s.statistics.numericalFailures + s.statistics.integral
  history : s.statistics.incumbentHistory.length ≤ s.statistics.integral
  explored : s.statistics.nodesExplored ≤ s.statistics.nodesCreated
  limit : ∀ limit, k.config.nodeLimit = some limit → s.statistics.nodesExplored ≤ limit

variable {last : Search K L n}

/-- A search has one node, and two for each that is split. -/
theorem created_eq (reached : k.Reached ⟨last, []⟩) :
    last.statistics.nodesCreated = 1 + 2 * last.statistics.branched := by
  obtain ⟨created, countOf, size⟩ := ledger_of_reached reached
  rw [created, size, ← countOf .branched rfl, Nat.add_comm]
  rfl

/-- The nodes that are counted in a state are those that a search leaves in it. -/
theorem countOf_abandon (reached : k.Reached ⟨last, []⟩) {σ : NodeState}
    (counted : σ.isCounted = true) :
    last.statistics.countOf σ = (last.abandon.tree.nodesIn σ).card := by
  rw [Search.nodesIn_abandon reached.frontier (by rintro rfl; cases counted)
    (by rintro rfl; cases counted)]
  exact (ledger_of_reached reached).countOf σ counted

theorem nodesIn_abandon_relaxed (reached : k.Reached ⟨last, []⟩) :
    last.abandon.tree.nodesIn .relaxed = ∅ :=
  (Search.nodesIn_abandon reached.frontier (by simp) (by simp)).trans (nodesIn_relaxed reached)

/-- Given up are the nodes that wait, and the root if it is unbounded. -/
theorem mem_terminal_abandon (reached : k.Reached ⟨last, []⟩) (i : Nat) :
    i ∈ last.abandon.tree.nodesIn .terminal ↔
      i ∈ last.queue.toList.map (·.node) ∨ (last.rootUnbounded = true ∧ i = 0) := by
  have before : last.tree.nodesIn .terminal = if last.rootUnbounded then {0} else ∅ :=
    nodesIn_terminal reached
  rw [Search.mem_nodesIn_terminal reached.frontier, before]
  split <;> simp [*]

theorem card_terminal_abandon (reached : k.Reached ⟨last, []⟩) :
    (last.abandon.tree.nodesIn .terminal).card =
      last.queue.size + if last.rootUnbounded then 1 else 0 :=
  (Search.card_nodesIn_abandon reached.frontier).trans
    (congrArg _ (card_nodesIn_terminal reached))

/-- The nodes in the states in which a search may leave one are all nodes. -/
theorem created_eq_sum (reached : k.Reached ⟨last, []⟩) :
    last.statistics.nodesCreated = last.statistics.prunedByBound +
      last.statistics.prunedInfeasible + last.statistics.numericalFailures +
      last.statistics.branched + last.statistics.integral +
      (last.abandon.tree.nodesIn .terminal).card := by
  have created : last.statistics.nodesCreated = last.tree.nodes.size :=
    (ledger_of_reached reached).created
  rw [created, ← Search.size_abandon, Tree.size_eq_sum, NodeState.sum_eq,
    Search.nodesIn_abandon_pending reached.frontier, nodesIn_abandon_relaxed reached,
    ← countOf_abandon reached (σ := .dominated) rfl,
    ← countOf_abandon reached (σ := .infeasible) rfl,
    ← countOf_abandon reached (σ := .failed) rfl, ← countOf_abandon reached (σ := .branched) rfl,
    ← countOf_abandon reached (σ := .integral) rfl]
  simp only [Finset.card_empty, Statistics.countOf]
  omega

/-- However a search ends, its nodes are accounted for. -/
theorem accounts_of_run (k : SearchTask K L n m) (roundLimit : Nat) :
    k.Accounts (k.rounds roundLimit .start).1 (k.rounds roundLimit .start).2
      (k.run roundLimit).1 := by
  have reached := k.rounds_reached roundLimit
  have limit {limit : Nat} (limited : k.config.nodeLimit = some limit) :=
    explored_le_limit (s := .start) limited roundLimit (Nat.zero_le _)
  unfold run
  generalize ended : k.rounds roundLimit .start = pair at reached limit
  obtain ⟨last, stop⟩ := pair
  dsimp only at reached limit ⊢
  have created : last.statistics.nodesCreated = last.tree.nodes.size :=
    (ledger_of_reached reached).created
  have terminal := card_terminal_abandon reached
  have twice := created_eq reached
  have total := created_eq_sum reached
  refine ⟨?_, twice, Search.nodesIn_abandon_pending reached.frontier,
    nodesIn_abandon_relaxed reached, ?_, mem_terminal_abandon reached, terminal, total, ?_,
    length_history_le reached, ?_, fun _ => limit⟩
  · exact created.trans (Search.size_abandon _).symm
  · exact fun _ => countOf_abandon reached
  · rintro rfl
    -- nothing waits, and the root is not unbounded
    obtain ⟨unbounded, empty⟩ := rounds_stop ended (by simp)
    have bounded : last.rootUnbounded = false := by simpa using unbounded
    have queue : last.queue.size = 0 := by
      rw [← Queue.length_toList, Queue.toList_eq_nil_iff.mpr (empty rfl), List.length_nil]
    have none : (last.abandon.tree.nodesIn .terminal).card = 0 := by
      rw [terminal, queue, bounded]
      rfl
    refine ⟨none, ?_⟩
    show 1 + last.statistics.branched = last.statistics.prunedByBound +
      last.statistics.prunedInfeasible + last.statistics.numericalFailures +
      last.statistics.integral
    omega
  · have explored : last.statistics.nodesExplored + last.queue.size ≤ last.tree.nodes.size :=
      explored_le_size reached
    show last.statistics.nodesExplored ≤ last.statistics.nodesCreated
    omega

/-- With room for two nodes the root of `halves` is split, one half is empty and the other given up. -/
example :
    let limited := { halves with config := halves.config.withNodeLimit 2 }
    let s := (limited.run 5).1
    s.statistics.nodesCreated = 3 ∧ s.statistics.branched = 1 ∧
      s.statistics.prunedInfeasible = 1 ∧ (s.tree.nodesIn .terminal).card = 1 ∧
      s.statistics.nodesExplored = 2 := by
  decide +kernel

end SearchTask

end Milp
