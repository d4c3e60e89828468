import Milp.Relaxation

/-!
# Search trees

A search tree is a list of nodes in the order of their creation. A node records the one change of
bounds that made it out of its parent; its own bounds are those of the root, tightened by the changes
on the way up.
-/

namespace Milp

/-- New limits for one column. -/
structure BoundChange (L : Type) (n : Nat) where
  column : Fin n
  lower : L
  upper : L

/-- What has become of a node. -/
inductive NodeState
  /-- Waiting in the queue. -/
  | pending
  /-- Its relaxation is solved, nothing else is decided. -/
  | relaxed
  /-- Split into two children. -/
  | branched
  /-- Closed by an integral solution. -/
  | integral
  /-- Closed because its bound cannot improve on the incumbent. -/
  | dominated
  /-- Closed because its relaxation has no solution. -/
  | infeasible
  /-- Closed because its relaxation could not be solved. -/
  | failed
  /-- Left over when the search stopped. -/
  | terminal
deriving DecidableEq, Repr

/-- A node of a search tree. -/
structure Node (L : Type) (n : Nat) where
  parent : Option Nat
  change : Option (BoundChange L n)
  depth : Nat
  /-- A lower limit of the costs below the node. -/
  bound : L
  state : NodeState
  /-- The number of nodes that were made before it. -/
  sequence : Nat

/-- A search tree. -/
structure Tree (L : Type) (n : Nat) where
  nodes : Array (Node L n)

namespace Tree

variable {K L : Type} [Limits L K] {n : Nat}

/-- The tree of a root alone. -/
def root : Tree L n where
  nodes := #[{
    parent := none
    change := none
    depth := 0
    bound := Limits.below
    state := .pending
    sequence := 0 }]

/-- The place of the root. -/
def rootId : Nat := 0

/-- The tree with a child added to a node, and the place of the child. -/
def child (t : Tree L n) (parent : Nat) (change : BoundChange L n) : Tree L n × Nat :=
  let above := t.nodes[parent]?
  let node : Node L n :=
    { parent := some parent
      change := some change
      depth := (above.map fun p => p.depth + 1).getD 0
      bound := (above.map (·.bound)).getD Limits.below
      state := .pending
      sequence := t.nodes.size }
  (⟨t.nodes.push node⟩, t.nodes.size)

/-- The tree with a node's state set. -/
def setState (t : Tree L n) (id : Nat) (state : NodeState) : Tree L n :=
  ⟨t.nodes.modify id fun x => { x with state }⟩

/-- The tree with a node's bound set. -/
def setBound (t : Tree L n) (id : Nat) (bound : L) : Tree L n :=
  ⟨t.nodes.modify id fun x => { x with bound }⟩

/-- The changes from a node up to the root, the node's own first. Parents come before their
children. -/
def path (t : Tree L n) (id : Nat) : List (BoundChange L n) :=
  match t.nodes[id]? with
  | none => []
  | some node =>
    node.change.toList ++
      match node.parent with
      | none => []
      | some parent => if parent < id then path t parent else []
termination_by id

/-- A box with the limits of one column tightened. -/
def tighten (box : Box L n) (change : BoundChange L n) : Box L n where
  lower := box.lower.put change.column (max box.lower[change.column] change.lower)
  upper := box.upper.put change.column (min box.upper[change.column] change.upper)

/-- The bounds of a node, given those of the root. -/
def bounds (t : Tree L n) (id : Nat) (box : Box L n) : Box L n :=
  (t.path id).foldl tighten box

/-- The number of nodes in a state. -/
def count (t : Tree L n) (state : NodeState) : Nat :=
  t.nodes.countP fun x => x.state = state

end Tree

end Milp
