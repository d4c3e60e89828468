import Mathlib.Data.Finset.Card
import Mathlib.Order.Interval.Finset.Nat
import Milp.Proofs.Search.Moment

/-!
# Counts of nodes

Result: `ledger_of_reached`, at every moment the counts of a search are the numbers of nodes of its
tree, and the tree has one node and two for each node that is split.
-/

namespace Milp

variable {K L : Type} {n m : Nat}

/-! ## Nodes in a state -/

namespace Tree

variable {t : Tree L n} {id : Nat} {x : Node L n} {state σ : NodeState}

/-- The nodes in a state. -/
def nodesIn (t : Tree L n) (state : NodeState) : Finset Nat :=
  (Finset.range t.nodes.size).filter fun i => t.nodes[i]?.map (·.state) = some state

theorem mem_nodesIn {i : Nat} : i ∈ t.nodesIn σ ↔ ∃ x, t.nodes[i]? = some x ∧ x.state = σ := by
  rw [nodesIn, Finset.mem_filter, Finset.mem_range, Option.map_eq_some_iff]
  exact ⟨And.right, fun h => ⟨h.elim fun _ hx => lt_size_of_some hx.1, h⟩⟩

theorem notMem_nodesIn (here : t.nodes[id]? = some x) (other : x.state ≠ σ) :
    id ∉ t.nodesIn σ := by
  rw [mem_nodesIn]
  rintro ⟨y, hy, rfl⟩
  obtain rfl := Option.some.inj (here.symm.trans hy)
  exact other rfl

/-- A node that is closed leaves its state for another. -/
theorem mem_nodesIn_close (here : t.nodes[id]? = some x) (other : x.state ≠ σ) (bound : L)
    (i : Nat) :
    i ∈ (t.close id bound state).nodesIn σ ↔ (i = id ∧ state = σ) ∨ i ∈ t.nodesIn σ := by
  rw [mem_nodesIn, nodes_close]
  by_cases hi : id = i
  · subst hi
    simp [here, notMem_nodesIn here other]
  · rw [if_neg hi, mem_nodesIn]
    exact ⟨.inr, fun h => h.resolve_left fun new => hi new.1.symm⟩

theorem card_nodesIn_insert {t' : Tree L n} (here : t.nodes[id]? = some x) (other : x.state ≠ σ)
    (mem : ∀ i, i ∈ t'.nodesIn σ ↔ (i = id ∧ state = σ) ∨ i ∈ t.nodesIn σ) :
    (t'.nodesIn σ).card = (t.nodesIn σ).card + if state = σ then 1 else 0 := by
  split
  · rename_i same
    have nodes : t'.nodesIn σ = insert id (t.nodesIn σ) := by
      ext i
      rw [mem, Finset.mem_insert, and_iff_left same]
    rw [nodes, Finset.card_insert_of_notMem (notMem_nodesIn here other)]
  · rename_i differs
    have nodes : t'.nodesIn σ = t.nodesIn σ := by
      ext i
      rw [mem]
      exact or_iff_right fun h => differs h.2
    rw [nodes, Nat.add_zero]

theorem card_nodesIn_close (here : t.nodes[id]? = some x) (other : x.state ≠ σ) (bound : L) :
    ((t.close id bound state).nodesIn σ).card =
      (t.nodesIn σ).card + if state = σ then 1 else 0 :=
  card_nodesIn_insert here other (mem_nodesIn_close here other bound)

/-- The children of a node that is split are pending. -/
theorem card_nodesIn_split [Scalar K] [Limits L K] {j : Fin n} {v : K}
    (here : t.nodes[id]? = some x) (other : x.state ≠ σ) (hσ : σ ≠ .pending) (bound : L) :
    ((t.split id bound j v).nodesIn σ).card =
      (t.nodesIn σ).card + if .branched = σ then 1 else 0 := by
  refine card_nodesIn_insert here other ?_
  intro i
  -- the two new nodes are in neither set, so only the closing of the parent is counted
  rw [← mem_nodesIn_close here other bound, mem_nodesIn, mem_nodesIn, nodes_split here]
  have closed : (t.close id bound .branched).nodes.size = t.nodes.size := size_close ..
  split
  · rename_i first
    have none : (t.close id bound .branched).nodes[i]? = none :=
      Array.getElem?_eq_none (by omega)
    simp [none, Node.fresh, hσ.symm]
  · split
    · rename_i second
      have none : (t.close id bound .branched).nodes[i]? = none :=
        Array.getElem?_eq_none (by omega)
      simp [none, Node.fresh, hσ.symm]
    · rfl

end Tree

/-! ## The counts of a search -/

/-- The counts are the numbers of nodes, and every node but the root was made by a split. -/
structure Search.Ledger (s : Search K L n) : Prop where
  created : s.statistics.nodesCreated = s.tree.nodes.size
  countOf : ∀ σ, σ.isCounted = true → s.statistics.countOf σ = (s.tree.nodesIn σ).card
  size : s.tree.nodes.size = 2 * (s.tree.nodesIn .branched).card + 1

theorem NodeState.ne_pending_of_isCounted {σ : NodeState} (h : σ.isCounted = true) :
    σ ≠ .pending := by
  rintro rfl
  cases h

namespace SearchTask

variable [Scalar K] [Limits L K] {k : SearchTask K L n m} {f f' : Moment K L n}

omit [Scalar K] in
theorem ledger_start : (Search.start : Search K L n).Ledger := by
  refine ⟨rfl, ?_, rfl⟩
  intro σ hσ
  cases σ with
  | pending | relaxed | terminal => cases hσ
  | branched | integral | dominated | infeasible | failed => rfl

/-- A step counts what it does. -/
theorem Change.ledger (change : k.Change f f') (h : f.search.Ledger) : f'.search.Ledger := by
  cases change with
  | kept tree incumbent created countOf unbounded =>
    refine ⟨?_, ?_, ?_⟩
    · rw [created, tree, h.created]
    · intro σ hσ
      rw [countOf, tree, h.countOf σ hσ]
    · rw [tree, h.size]
  | @closed id x bound state incumbent here pending why after =>
    have card {σ : NodeState} (hσ : σ ≠ .pending) :
        (f'.search.tree.nodesIn σ).card =
          (f.search.tree.nodesIn σ).card + if state = σ then 1 else 0 := by
      rw [after.tree]
      exact Tree.card_nodesIn_close here (pending ▸ hσ.symm) _
    refine ⟨?_, ?_, ?_⟩
    · rw [after.counts.created, h.created, after.tree, Tree.size_close]
    · intro σ hσ
      rw [after.counts.countOf σ hσ, h.countOf σ hσ,
        card (NodeState.ne_pending_of_isCounted hσ)]
    · rw [after.tree, Tree.size_close, h.size, ← after.tree, card (by simp), if_neg why.final.2.2]
      rfl
  | split here pending optimal fractional after =>
    have card {σ : NodeState} (hσ : σ ≠ .pending) :
        (f'.search.tree.nodesIn σ).card =
          (f.search.tree.nodesIn σ).card + if .branched = σ then 1 else 0 := by
      rw [after.tree]
      exact Tree.card_nodesIn_split here (pending ▸ hσ.symm) hσ _
    refine ⟨?_, ?_, ?_⟩
    · rw [after.created, h.created, after.tree, Tree.size_split]
    · intro σ hσ
      rw [after.countOf, h.countOf σ hσ, card (NodeState.ne_pending_of_isCounted hσ)]
    · rw [card (by simp), if_pos rfl, after.tree, Tree.size_split, h.size]
      omega

/-- At every moment the counts are the numbers of nodes. -/
theorem ledger_of_reached (reached : k.Reached f) : f.search.Ledger :=
  reached.invariant ledger_start fun _ _ _ h change => change.ledger h

end SearchTask

end Milp
