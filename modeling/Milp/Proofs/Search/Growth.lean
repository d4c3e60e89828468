import Mathlib.Logic.Relation
import Milp.Proofs.Search.Tree

/-!
# Trees that grow

A tree starts as a root alone. Then children are added to nodes that it has, and states and bounds of
its nodes are set; nothing else happens to it. So a node keeps its place, and with it the path up to
the root.

Results:
1. `Grows.kept`, `Grows.path_eq`: what operations leave of the nodes that are there.
2. `placed_of_grown`: a node is the root or a child of an older node, and numbered by its place.
3. `exists_ascent`: the walk from a node by way of parents ends, is as long as the node is deep, and
   comes past the changes of the node's path.
-/

namespace Milp.Tree

variable {K L : Type} [Limits L K] {n : Nat}

/-! ## Operations -/

/-- One operation on a tree: a child is added to a node that is there, or the state or the bound of a
node is set. -/
inductive Operation : Tree L n → Tree L n → Prop
  | child (t : Tree L n) {parent : Nat} (there : parent < t.nodes.size) (c : BoundChange L n) :
    Operation t (t.child parent c).1
  | setState (t : Tree L n) (id : Nat) (state : NodeState) : Operation t (t.setState id state)
  | setBound (t : Tree L n) (id : Nat) (bound : L) : Operation t (t.setBound id bound)

/-- Operations make one tree of another. -/
def Grows : Tree L n → Tree L n → Prop :=
  Relation.ReflTransGen Operation

/-- Operations make a tree of a root alone. -/
def Grown (t : Tree L n) : Prop :=
  Grows root t

variable {t t' : Tree L n} {i : Nat} {x : Node L n}

theorem Operation.size_le (h : Operation t t') : t.nodes.size ≤ t'.nodes.size := by
  cases h with
  | child there c => simp
  | setState id state => simp
  | setBound id bound => simp

/-- An operation sets at most the bound and the state of a node that is there. -/
theorem Operation.kept (h : Operation t t') (here : t.nodes[i]? = some x) :
    ∃ bound state, t'.nodes[i]? = some { x with bound, state } := by
  cases h with
  | child there c =>
    exact ⟨x.bound, x.state, by rw [nodes_child, if_neg (lt_size_of_some here).ne, here]⟩
  | setState id state =>
    rw [nodes_setState, here]
    split
    · exact ⟨x.bound, state, rfl⟩
    · exact ⟨x.bound, x.state, rfl⟩
  | setBound id bound =>
    rw [nodes_setBound, here]
    split
    · exact ⟨bound, x.state, rfl⟩
    · exact ⟨x.bound, x.state, rfl⟩

theorem Grows.size_le (h : Grows t t') : t.nodes.size ≤ t'.nodes.size := by
  induction h with
  | refl => exact le_rfl
  | tail _ step ih => exact ih.trans step.size_le

/-- Operations set at most the bound and the state of a node that is there. -/
theorem Grows.kept (h : Grows t t') (here : t.nodes[i]? = some x) :
    ∃ bound state, t'.nodes[i]? = some { x with bound, state } := by
  induction h with
  | refl => exact ⟨x.bound, x.state, here⟩
  | tail _ step ih =>
    obtain ⟨_, _, there⟩ := ih
    obtain ⟨bound, state, last⟩ := step.kept there
    exact ⟨bound, state, last⟩

theorem Grows.links (h : Grows t t') (there : i < t.nodes.size) :
    t'.nodes[i]?.map Node.link = t.nodes[i]?.map Node.link := by
  have old : t.nodes[i]? = some t.nodes[i] := Array.getElem?_eq_getElem there
  obtain ⟨bound, state, new⟩ := h.kept old
  rw [old, new]
  rfl

/-- The path of a node that is there stays as it is. -/
theorem Grows.path_eq (h : Grows t t') (there : i < t.nodes.size) : t'.path i = t.path i :=
  path_congr fun _ hj => h.links (hj.trans_lt there)

theorem grows_close (t : Tree L n) (id : Nat) (bound : L) (state : NodeState) :
    Grows t (t.close id bound state) :=
  .tail (.single (.setBound t id bound)) (.setState _ id state)

theorem grows_split [Scalar K] (here : t.nodes[i]? = some x) (bound : L) (j : Fin n) (v : K) :
    Grows t (t.split i bound j v) := by
  have there := lt_size_of_some here
  have closed := grows_close t i bound .branched
  exact .tail (.tail closed (.child _ (by simpa using there) _)) (.child _ (by simp; omega) _)

/-! ## Places -/

/-- A node is the root, or it is a child of an older node and one level below it. -/
inductive Placed (t : Tree L n) (i : Nat) (x : Node L n) : Prop
  | root (first : i = 0) (parent : x.parent = none) (change : x.change = none) (depth : x.depth = 0)
  | child {p : Nat} {y : Node L n} {c : BoundChange L n} (older : p < i)
    (parent : x.parent = some p) (above : t.nodes[p]? = some y) (change : x.change = some c)
    (depth : x.depth = y.depth + 1)

omit [Limits L K] in
/-- Parents are older than their children. -/
theorem Placed.parent_lt {p : Nat} (placed : t.Placed i x) (parent : x.parent = some p) :
    p < i := by
  cases placed with
  | root first none =>
    rw [none] at parent
    cases parent
  | child older some =>
    rw [some] at parent
    cases parent
    exact older

theorem Operation.placed (h : Operation t t') (placed : t.Placed i x) (bound : L)
    (state : NodeState) : t'.Placed i { x with bound, state } := by
  cases placed with
  | root first parent change depth => exact .root first parent change depth
  | child older parent above change depth =>
    obtain ⟨_, _, above'⟩ := h.kept above
    exact .child older parent above' change depth

/-- The node that a child is made as. -/
theorem placed_child (there : i < t.nodes.size) (c : BoundChange L n) :
    ∃ x, (t.child i c).1.nodes[t.nodes.size]? = some x ∧ x.sequence = t.nodes.size ∧
      (t.child i c).1.Placed t.nodes.size x := by
  have above : t.nodes[i]? = some t.nodes[i] := Array.getElem?_eq_getElem there
  obtain ⟨bound, state, kept⟩ := (Operation.child t there c).kept above
  refine ⟨_, by rw [nodes_child, if_pos rfl], rfl, .child there rfl kept rfl ?_⟩
  rw [above]
  rfl

/-- Every node of a tree that has grown has its place, and its number is that place. -/
theorem placed_of_grown (grown : t.Grown) (here : t.nodes[i]? = some x) :
    x.sequence = i ∧ t.Placed i x := by
  induction grown generalizing i x with
  | refl =>
    cases i with
    | zero =>
      cases here
      exact ⟨rfl, .root rfl rfl rfl rfl⟩
    | succ i => simp [root] at here
  | @tail t t' before step ih =>
    by_cases there : i < t.nodes.size
    · obtain ⟨bound, state, kept⟩ := step.kept (Array.getElem?_eq_getElem there)
      obtain rfl := Option.some.inj (here.symm.trans kept)
      obtain ⟨sequence, placed⟩ := ih (Array.getElem?_eq_getElem there)
      exact ⟨sequence, step.placed placed bound state⟩
    · -- a node that was not there before is the child that this operation adds
      have size := lt_size_of_some here
      cases step with
      | child older c =>
        obtain rfl : i = t.nodes.size := by
          rw [size_child] at size
          omega
        obtain ⟨y, made, sequence, placed⟩ := placed_child older c
        obtain rfl := Option.some.inj (here.symm.trans made)
        exact ⟨sequence, placed⟩
      | setState id state => exact absurd (size_setState t id state ▸ size) there
      | setBound id bound => exact absurd (size_setBound t id bound ▸ size) there

/-! ## Ascents -/

/-- The nodes that a walk by way of parents comes past, up to one without a parent. Where the parents
are is not asked, so the walk need not end. -/
inductive Ascent (t : Tree L n) : Option Nat → List Nat → Prop
  | done : Ascent t none []
  | up {id : Nat} {x : Node L n} {ids : List Nat} (here : t.nodes[id]? = some x)
    (above : Ascent t x.parent ids) : Ascent t (some id) (id :: ids)

/-- The change that made a node. -/
def changeAt (t : Tree L n) (id : Nat) : Option (BoundChange L n) :=
  t.nodes[id]?.bind (·.change)

omit [Limits L K] in
theorem filterMap_changeAt_cons (here : t.nodes[i]? = some x) (ids : List Nat) :
    (i :: ids).filterMap t.changeAt = x.change.toList ++ ids.filterMap t.changeAt := by
  have change : t.changeAt i = x.change := by
    rw [changeAt, here]
    rfl
  cases made : x.change with
  | none => exact List.filterMap_cons_none (change.trans made)
  | some c => exact List.filterMap_cons_some (change.trans made)

/-- The walk from a node ends at the root. It is as long as the node is deep, comes past the changes of
its path, and the paths of the nodes on the way are parts of it. -/
theorem exists_ascent (grown : t.Grown) (here : t.nodes[i]? = some x) :
    ∃ ids, t.Ascent (some i) ids ∧ ids.getLast? = some rootId ∧ ids.length = x.depth + 1 ∧
      t.path i = ids.filterMap t.changeAt ∧ ∀ a ∈ ids, t.path a <:+ t.path i := by
  induction i using Nat.strongRecOn generalizing x with
  | ind i ih =>
    have path := path_eq_of_some here
    cases (placed_of_grown grown here).2 with
    | root first parent change depth =>
      refine ⟨[i], .up here (parent ▸ .done), congrArg some first, by simp [depth], ?_, by simp⟩
      rw [path, filterMap_changeAt_cons here, parent]
      rfl
    | @child p y c older parent above change depth =>
      obtain ⟨ids, ascent, last, length, changes, parts⟩ := ih p older above
      rw [parent] at path
      dsimp only at path
      rw [if_pos older] at path
      refine ⟨i :: ids, .up here (parent ▸ ascent), ?_, ?_, ?_, ?_⟩
      · rw [List.getLast?_cons, last, Option.getD_some]
      · rw [List.length_cons, length, depth]
      · rw [path, filterMap_changeAt_cons here, changes]
      · intro a ha
        rcases List.mem_cons.mp ha with rfl | ha
        · exact List.suffix_rfl
        · rw [path]
          exact (parts a ha).trans (List.suffix_append _ _)

/-- A node is as deep as its path is long. -/
theorem depth_eq_length_path (grown : t.Grown) (here : t.nodes[i]? = some x) :
    x.depth = (t.path i).length := by
  induction i using Nat.strongRecOn generalizing x with
  | ind i ih =>
    cases (placed_of_grown grown here).2 with
    | root first parent change depth => simp [path_eq_of_some here, parent, change, depth]
    | child older parent above change depth =>
      simp [path_eq_of_some here, parent, change, depth, older, ih _ older above]

end Milp.Tree
