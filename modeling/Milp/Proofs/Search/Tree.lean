import Milp.Proofs.Feasible
import Milp.Search.Tree

/-!
# Bounds along the path

The bounds of a node are those of the root and the changes on the path from the node up.

Results:
1. `path_congr`: a path depends only on parents and changes, and on no node made later.
2. `holdsOn_bounds`: a point lies in a node's bounds exactly when it lies in the root's and every
   change on the path admits it.
3. `bounds_of_parent`: the bounds of a node are those of its parent, tightened by its own change.
4. `nodes_close`, `nodes_split`: the nodes of a tree of which one node is closed or split.
-/

namespace Milp

variable {n : Nat}

/-- A point keeps the new limits of the column that a change is about. -/
def BoundChange.Admits (P : Fin n → Prop) (c : BoundChange ExtendedRat n) (z : Vector Rat n) :
    Prop :=
  P c.column → c.lower ≤ .finite z[c.column] ∧ .finite z[c.column] ≤ c.upper

/-- What the new limits of a change stand for. -/
def BoundChange.reading {L : Type} [Reading L] (c : BoundChange L n) : BoundChange ExtendedRat n :=
  ⟨c.column, Reading.lower c.lower, Reading.upper c.upper⟩

section Changes

variable {K L : Type} [Scalar K] [Limits L K]

/-- The change that makes the child at or below a value. -/
def BoundChange.atMost (j : Fin n) (v : K) : BoundChange L n :=
  ⟨j, Limits.below, Limits.ofScalar (Scalar.floor v)⟩

/-- The change that makes the child at or above a value. -/
def BoundChange.atLeast (j : Fin n) (v : K) : BoundChange L n :=
  ⟨j, Limits.ofScalar (Scalar.ceil v), Limits.above⟩

end Changes

/-- What a node's path depends on. -/
def Node.link {L : Type} (x : Node L n) : Option Nat × Option (BoundChange L n) :=
  (x.parent, x.change)

/-- A child of a node before anything is known of it. -/
def Node.fresh {L : Type} (x : Node L n) (id : Nat) (bound : L) (c : BoundChange L n)
    (sequence : Nat) : Node L n where
  parent := some id
  change := some c
  depth := x.depth + 1
  bound
  state := .pending
  sequence

namespace Tree

variable {L : Type} {t t' : Tree L n} {id : Nat}

/-! ## Nodes after a change of the tree -/

theorem nodes_setState (t : Tree L n) (id : Nat) (state : NodeState) (i : Nat) :
    (t.setState id state).nodes[i]? =
      if id = i then t.nodes[i]?.map fun x => { x with state } else t.nodes[i]? := by
  simp [setState, Array.getElem?_modify]

theorem nodes_setBound (t : Tree L n) (id : Nat) (bound : L) (i : Nat) :
    (t.setBound id bound).nodes[i]? =
      if id = i then t.nodes[i]?.map fun x => { x with bound } else t.nodes[i]? := by
  simp [setBound, Array.getElem?_modify]

@[simp]
theorem size_setState (t : Tree L n) (id : Nat) (state : NodeState) :
    (t.setState id state).nodes.size = t.nodes.size := by
  simp [setState]

@[simp]
theorem size_setBound (t : Tree L n) (id : Nat) (bound : L) :
    (t.setBound id bound).nodes.size = t.nodes.size := by
  simp [setBound]

theorem lt_size_of_some {x : Node L n} (h : t.nodes[id]? = some x) : id < t.nodes.size :=
  (Array.getElem?_eq_some_iff.mp h).1

theorem ext_nodes (h : ∀ i : Nat, t.nodes[i]? = t'.nodes[i]?) : t = t' := by
  cases t
  cases t'
  exact congrArg Tree.mk (Array.ext_getElem? h)

/-! ## Closing a node -/

/-- The tree with the bound and the state of a node set. -/
def close (t : Tree L n) (id : Nat) (bound : L) (state : NodeState) : Tree L n :=
  (t.setBound id bound).setState id state

theorem nodes_close (t : Tree L n) (id : Nat) (bound : L) (state : NodeState) (i : Nat) :
    (t.close id bound state).nodes[i]? =
      if id = i then t.nodes[i]?.map fun x => { x with bound, state } else t.nodes[i]? := by
  rw [close, nodes_setState, nodes_setBound]
  split
  · rw [Option.map_map]
    rfl
  · rfl

@[simp]
theorem size_close (t : Tree L n) (id : Nat) (bound : L) (state : NodeState) :
    (t.close id bound state).nodes.size = t.nodes.size := by
  simp [close]

theorem setState_close (t : Tree L n) (id : Nat) (bound : L) (a b : NodeState) :
    (t.close id bound a).setState id b = t.close id bound b := by
  refine ext_nodes ?_
  intro i
  rw [nodes_setState, nodes_close, nodes_close]
  split
  · rw [Option.map_map]
    rfl
  · rfl

@[simp]
theorem close_close (t : Tree L n) (id : Nat) (a b : L) (x y : NodeState) :
    (t.close id a x).close id b y = t.close id b y := by
  refine ext_nodes ?_
  intro i
  rw [nodes_close, nodes_close, nodes_close]
  split
  · rw [Option.map_map]
    rfl
  · rfl

/-- A node of which only the state is set keeps its bound. -/
theorem close_bound {x : Node L n} (h : t.nodes[id]? = some x) (state : NodeState) :
    t.close id x.bound state = t.setState id state := by
  refine ext_nodes ?_
  intro i
  rw [nodes_setState, nodes_close]
  split
  · rename_i hi
    subst hi
    rw [h]
    rfl
  · rfl

/-! ## Paths -/

theorem path_eq_of_some {x : Node L n} (h : t.nodes[id]? = some x) :
    t.path id = x.change.toList ++
      match x.parent with
      | none => []
      | some parent => if parent < id then t.path parent else [] := by
  have step := path.eq_def t id
  rw [h] at step
  exact step

/-- A path depends only on the parents and the changes of the nodes up to its start. -/
theorem path_congr (h : ∀ i ≤ id, t.nodes[i]?.map Node.link = t'.nodes[i]?.map Node.link) :
    t.path id = t'.path id := by
  induction id using Nat.strongRecOn with
  | ind id ih =>
    have hid := h id (Nat.le_refl id)
    cases hx : t.nodes[id]? with
    | none =>
      have hx' : t'.nodes[id]? = none := by simpa [hx] using hid.symm
      rw [path, path, hx, hx']
    | some x =>
      obtain ⟨x', hx', hlink⟩ : ∃ x', t'.nodes[id]? = some x' ∧ x'.link = x.link := by
        simpa [hx, eq_comm] using hid
      obtain ⟨hparent, hchange⟩ := Prod.mk.inj hlink
      rw [path_eq_of_some hx, path_eq_of_some hx', hparent, hchange]
      cases hp : x.parent with
      | none => rfl
      | some parent =>
        -- a path ends at a parent that is not older than its node
        by_cases hlt : parent < id
        · simp only [if_pos hlt]
          rw [ih parent hlt fun i hi => h i (hi.trans hlt.le)]
        · simp only [if_neg hlt]

@[simp]
theorem path_close (t : Tree L n) (id i : Nat) (bound : L) (state : NodeState) :
    (t.close id bound state).path i = t.path i := by
  refine path_congr ?_
  intro j _
  rw [nodes_close]
  split
  · rw [Option.map_map]
    rfl
  · rfl

section Limits

variable {K : Type} [Limits L K]

theorem nodes_child (t : Tree L n) (parent : Nat) (c : BoundChange L n) (i : Nat) :
    (t.child parent c).1.nodes[i]? =
      if i = t.nodes.size then some
        { parent := some parent
          change := some c
          depth := (t.nodes[parent]?.map fun p => p.depth + 1).getD 0
          bound := (t.nodes[parent]?.map (·.bound)).getD Limits.below
          state := .pending
          sequence := t.nodes.size }
      else t.nodes[i]? := by
  simp [child, Array.getElem?_push]

@[simp]
theorem size_child (t : Tree L n) (parent : Nat) (c : BoundChange L n) :
    (t.child parent c).1.nodes.size = t.nodes.size + 1 := by
  simp [child]

/-- Nodes made later leave a path alone. -/
theorem path_child_of_lt (t : Tree L n) (parent : Nat) (c : BoundChange L n)
    (h : id < t.nodes.size) : (t.child parent c).1.path id = t.path id := by
  refine path_congr ?_
  intro i hi
  rw [nodes_child, if_neg (by omega)]

/-- The path of a child is its own change and the path of its parent. -/
theorem path_child (t : Tree L n) (c : BoundChange L n) (h : id < t.nodes.size) :
    (t.child id c).1.path t.nodes.size = c :: t.path id := by
  have hnew := nodes_child t id c t.nodes.size
  rw [if_pos rfl] at hnew
  rw [path_eq_of_some hnew]
  simp [h, path_child_of_lt t id c h]

/-- Only the limits of the column that a change is about are tightened. -/
theorem getElem_tighten (box : Box L n) (c : BoundChange L n) (j : Fin n) :
    (tighten box c).lower[j] =
        (if c.column = j then max box.lower[j] c.lower else box.lower[j]) ∧
      (tighten box c).upper[j] =
        if c.column = j then min box.upper[j] c.upper else box.upper[j] := by
  by_cases hj : c.column = j
  · subst hj
    simp [tighten]
  · have hne : (c.column : Nat) ≠ j := fun h => hj (Fin.ext h)
    simp [tighten, hj, Vector.getElem_set_ne _ _ hne]

/-- Bounds depend on the path alone. -/
theorem bounds_congr {box : Box L n} (h : t.path id = t'.path id) :
    t.bounds id box = t'.bounds id box := by
  rw [bounds, bounds, h]

end Limits

/-! ## Splitting a node -/

section Splitting

variable {K : Type} [Scalar K] [Limits L K]

/-- The tree with a node split at a value of a column. -/
def split (t : Tree L n) (id : Nat) (bound : L) (j : Fin n) (v : K) : Tree L n :=
  (((t.close id bound .branched).child id (.atMost j v)).1.child id (.atLeast j v)).1

@[simp]
theorem size_split (t : Tree L n) (id : Nat) (bound : L) (j : Fin n) (v : K) :
    (t.split id bound j v).nodes.size = t.nodes.size + 2 := by
  simp [split]

/-- A split ends one node and makes two. -/
theorem nodes_split {x : Node L n} (h : t.nodes[id]? = some x) (bound : L) (j : Fin n) (v : K)
    (i : Nat) :
    (t.split id bound j v).nodes[i]? =
      if i = t.nodes.size then some (x.fresh id bound (.atMost j v) t.nodes.size)
      else if i = t.nodes.size + 1 then
        some (x.fresh id bound (.atLeast j v) (t.nodes.size + 1))
      else (t.close id bound .branched).nodes[i]? := by
  have hid := lt_size_of_some h
  have closed : (t.close id bound .branched).nodes[id]? =
      some { x with bound, state := .branched } := by
    rw [nodes_close, if_pos rfl, h]
    rfl
  have first : ((t.close id bound .branched).child id (.atMost j v)).1.nodes[id]? =
      some { x with bound, state := .branched } := by
    rw [nodes_child, if_neg (by simpa using hid.ne), closed]
  rw [split, nodes_child, first, size_child, size_close]
  by_cases hi : i = t.nodes.size + 1
  · rw [if_pos hi, if_neg (by omega), if_pos hi]
    rfl
  · rw [if_neg hi, nodes_child, closed, size_close, if_neg hi]
    rfl

variable {bound : L} {j : Fin n} {v : K}

/-- A split leaves the paths of the nodes that are there alone. -/
theorem path_split_of_lt {i : Nat} (h : i < t.nodes.size) :
    (t.split id bound j v).path i = t.path i := by
  rw [split, path_child_of_lt _ _ _ (by simp; omega), path_child_of_lt _ _ _ (by simpa using h),
    path_close]

/-- A split leaves the bounds of the nodes that are there alone. -/
theorem bounds_split_of_lt {box : Box L n} {i : Nat} (h : i < t.nodes.size) :
    (t.split id bound j v).bounds i box = t.bounds i box :=
  bounds_congr (path_split_of_lt h)

theorem path_split_atMost (h : id < t.nodes.size) :
    (t.split id bound j v).path t.nodes.size = .atMost j v :: t.path id := by
  have first : ((t.close id bound .branched).child id (.atMost j v)).1.path
      (t.close id bound .branched).nodes.size = _ := path_child _ _ (by simpa using h)
  rw [size_close, path_close] at first
  rw [← first, split, path_child_of_lt _ _ _ (by simp)]

theorem path_split_atLeast (h : id < t.nodes.size) :
    (t.split id bound j v).path (t.nodes.size + 1) = .atLeast j v :: t.path id := by
  let first := ((t.close id bound .branched).child id (.atMost j v)).1
  have size : first.nodes.size = t.nodes.size + 1 := by simp [first]
  have second : (first.child id (.atLeast j v)).1.path first.nodes.size = _ :=
    path_child _ _ (by omega)
  have parent : first.path id = t.path id := by
    rw [path_child_of_lt _ _ _ (by simpa using h), path_close]
  rw [size, parent] at second
  exact second

end Splitting

/-! ## Tightened boxes -/

section Tightening

variable {box : Box ExtendedRat n}

/-- The new limits, over exact numbers. -/
theorem tighten_limits (box : Box ExtendedRat n) (c : BoundChange ExtendedRat n) (j : Fin n) :
    (tighten box c).lower[j] =
        (if c.column = j then max box.lower[j] c.lower else box.lower[j]) ∧
      (tighten box c).upper[j] =
        if c.column = j then min box.upper[j] c.upper else box.upper[j] :=
  getElem_tighten box c j

theorem inside_tighten (box : Box ExtendedRat n) (c : BoundChange ExtendedRat n) :
    (tighten box c).Inside box := by
  intro j
  rw [(tighten_limits box c j).1, (tighten_limits box c j).2]
  split
  · exact ⟨le_max_left _ _, min_le_left _ _⟩
  · exact ⟨le_rfl, le_rfl⟩

/-- It does not matter which of two changes is made first. -/
theorem tighten_comm (box : Box ExtendedRat n) (c d : BoundChange ExtendedRat n) :
    tighten (tighten box c) d = tighten (tighten box d) c := by
  refine Box.ext_limits ?_
  intro j
  simp only [tighten_limits]
  constructor
  · split_ifs
    · exact max_right_comm ..
    all_goals rfl
  · split_ifs
    · exact min_right_comm ..
    all_goals rfl

theorem foldl_tighten_cons (box : Box ExtendedRat n) (c : BoundChange ExtendedRat n)
    (cs : List (BoundChange ExtendedRat n)) :
    (c :: cs).foldl tighten box = tighten (cs.foldl tighten box) c := by
  induction cs generalizing box with
  | nil => rfl
  | cons d cs ih =>
    calc (c :: d :: cs).foldl tighten box
      _ = cs.foldl tighten (tighten (tighten box d) c) := by
        rw [List.foldl_cons, List.foldl_cons, tighten_comm]
      _ = tighten (cs.foldl tighten (tighten box d)) c := ih (tighten box d)

end Tightening

/-! ## Points within limits -/

section Points

variable {P : Fin n → Prop} {box : Box ExtendedRat n} {z : Vector Rat n}

theorem holdsOn_tighten {c : BoundChange ExtendedRat n} :
    (tighten box c).HoldsOn P z ↔ box.HoldsOn P z ∧ c.Admits P z := by
  have limits (j : Fin n) : (tighten box c).Admits j z[j] ↔ box.Admits j z[j] ∧
      (c.column = j → c.lower ≤ .finite z[j] ∧ .finite z[j] ≤ c.upper) := by
    rw [Box.Admits, (tighten_limits box c j).1, (tighten_limits box c j).2]
    by_cases hj : c.column = j
    · simp only [if_pos hj, max_le_iff, le_min_iff, Box.Admits]
      tauto
    · simp only [hj, if_false, Box.Admits, false_imp_iff, and_true]
  constructor
  · intro h
    exact ⟨fun j hj => ((limits j).mp (h j hj)).1, fun hc => ((limits _).mp (h _ hc)).2 rfl⟩
  · rintro ⟨hb, hc⟩ j hj
    refine (limits j).mpr ⟨hb j hj, ?_⟩
    intro he
    subst he
    exact hc hj

theorem holdsOn_foldl_tighten {cs : List (BoundChange ExtendedRat n)} :
    (cs.foldl tighten box).HoldsOn P z ↔ box.HoldsOn P z ∧ ∀ c ∈ cs, c.Admits P z := by
  induction cs generalizing box with
  | nil => simp
  | cons c cs ih => simp [ih, holdsOn_tighten, and_assoc]

end Points

/-! ## What bounds stand for -/

section Reading

variable {K : Type} [Scalar K] [Limits L K] [Readable L K] {box : Box L n}

theorem reading_tighten (box : Box L n) (c : BoundChange L n) :
    (tighten box c).reading = tighten box.reading c.reading := by
  refine Box.ext_limits fun j => ?_
  rw [(Box.getElem_reading _ j).1, (Box.getElem_reading _ j).2, (getElem_tighten box c j).1,
    (getElem_tighten box c j).2, (tighten_limits _ _ j).1, (tighten_limits _ _ j).2,
    (Box.getElem_reading _ j).1, (Box.getElem_reading _ j).2]
  show Reading.lower (if c.column = j then _ else _) = (if c.column = j then _ else _) ∧
    Reading.upper (if c.column = j then _ else _) = if c.column = j then _ else _
  split
  · exact ⟨Readable.lower_max _ _, Readable.upper_min _ _⟩
  · exact ⟨rfl, rfl⟩

/-- The bounds of a node stand for exact ones that are tightened by what the changes stand for. -/
theorem reading_bounds (t : Tree L n) (id : Nat) (box : Box L n) :
    (t.bounds id box).reading = ((t.path id).map (·.reading)).foldl tighten box.reading := by
  rw [bounds, List.foldl_map]
  generalize t.path id = cs
  induction cs generalizing box with
  | nil => rfl
  | cons c cs ih => rw [List.foldl_cons, List.foldl_cons, ih, reading_tighten]

theorem reading_of_path {c : BoundChange L n} {p : Nat} (path : t'.path id = c :: t.path p) :
    (t'.bounds id box).reading = tighten (t.bounds p box).reading c.reading := by
  rw [reading_bounds, reading_bounds, path, List.map_cons, foldl_tighten_cons]

/-- The bounds of a node are those of its parent, tightened by the change that made it. -/
theorem bounds_of_parent {x : Node L n} {p : Nat} {c : BoundChange L n}
    (here : t.nodes[id]? = some x) (parent : x.parent = some p) (older : p < id)
    (change : x.change = some c) :
    (t.bounds id box).reading = tighten (t.bounds p box).reading c.reading := by
  refine reading_of_path ?_
  rw [path_eq_of_some here, parent, change]
  simp [older]

/-- A point lies in a node's bounds exactly when it lies in the root's and keeps every change on the
path. -/
theorem holdsOn_bounds {P : Fin n → Prop} {z : Vector Rat n} :
    (t.bounds id box).reading.HoldsOn P z ↔
      box.reading.HoldsOn P z ∧ ∀ c ∈ t.path id, c.reading.Admits P z := by
  rw [reading_bounds, holdsOn_foldl_tighten]
  simp

section Split

variable {P : Fin n → Prop} {z : Vector Rat n} {bound : L} {j : Fin n} {v : K}

theorem holdsOn_bounds_split_atMost (h : id < t.nodes.size) :
    ((t.split id bound j v).bounds t.nodes.size box).reading.HoldsOn P z ↔
      (t.bounds id box).reading.HoldsOn P z ∧ (.atMost j v : BoundChange L n).reading.Admits P z := by
  rw [reading_of_path (path_split_atMost h), holdsOn_tighten]

theorem holdsOn_bounds_split_atLeast (h : id < t.nodes.size) :
    ((t.split id bound j v).bounds (t.nodes.size + 1) box).reading.HoldsOn P z ↔
      (t.bounds id box).reading.HoldsOn P z ∧ (.atLeast j v : BoundChange L n).reading.Admits P z := by
  rw [reading_of_path (path_split_atLeast h), holdsOn_tighten]

end Split

end Reading

end Tree

end Milp
