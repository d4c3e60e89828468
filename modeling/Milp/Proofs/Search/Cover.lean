import Milp.Proofs.Search.Moment
import Milp.Solve

/-!
# The nodes that are not split

The bounds of the nodes that are not split divide the points of the root's bounds whose integer
columns have integer values among them. A value that is undefined splits nothing: both sides of the
split have all points of the node. So no point is lost in any case, and none is doubled where the
values of the solver are defined.

Results:
1. `exists_split`, `unique_split`: a split at a value that is no integer hands every such point of the
   node to a child, and to one of them only.
2. `exists_leaf_of_reached`, `leaf_of_reached`: at every moment a node that is not split has a given
   point, and no other node has it.
3. `Account`: what is known of a node in each of the states it may end in, and `account_of_reached`.
-/

namespace Milp

open Reading (read? lower upper)

variable {K L : Type} [Scalar K] [Limits L K] {n m : Nat}

namespace Tree

section Leaves

variable [Readable L K] {P : Fin n → Prop} {box : Box L n} {z : Vector Rat n} {t : Tree L n}
  {id : Nat} {x : Node L n} {bound : L} {state : NodeState} {j : Fin n} {v : K}

/-- A node is not split, and a point keeps its bounds on some columns. -/
def LeafFor (t : Tree L n) (box : Box L n) (P : Fin n → Prop)
    (z : Vector Rat n) (i : Nat) : Prop :=
  ∃ x, t.nodes[i]? = some x ∧ x.state ≠ .branched ∧ (t.bounds i box).reading.HoldsOn P z

/-! ## Closing -/

/-- Closing a node that is not split moves no point. -/
theorem leafFor_close (here : t.nodes[id]? = some x) (unsplit : x.state ≠ .branched)
    (closed : state ≠ .branched) (i : Nat) :
    (t.close id bound state).LeafFor box P z i ↔ t.LeafFor box P z i := by
  have bounds : (t.close id bound state).bounds i box = t.bounds i box :=
    bounds_congr (path_close ..)
  unfold LeafFor
  rw [bounds, nodes_close]
  by_cases hi : id = i
  · subst hi
    simp [here, unsplit, closed]
  · rw [if_neg hi]

/-! ## Splitting -/

theorem admits_atMost (hj : P j) : (.atMost j v : BoundChange L n).reading.Admits P z ↔
    .finite z[j] ≤ upper (Limits.ofScalar (Scalar.floor v) : L) := by
  simp [BoundChange.Admits, BoundChange.reading, BoundChange.atMost, hj]

theorem admits_atLeast (hj : P j) : (.atLeast j v : BoundChange L n).reading.Admits P z ↔
    lower (Limits.ofScalar (Scalar.ceil v) : L) ≤ .finite z[j] := by
  simp [BoundChange.Admits, BoundChange.reading, BoundChange.atLeast, hj]

/-- After a split, a point of the node that is split is in the child whose side it is on. -/
theorem leafFor_split (here : t.nodes[id]? = some x) (unsplit : x.state ≠ .branched) (hj : P j)
    (i : Nat) :
    (t.split id bound j v).LeafFor box P z i ↔
      (i = t.nodes.size ∧ t.LeafFor box P z id ∧
        .finite z[j] ≤ upper (Limits.ofScalar (Scalar.floor v) : L)) ∨
      (i = t.nodes.size + 1 ∧ t.LeafFor box P z id ∧
        lower (Limits.ofScalar (Scalar.ceil v) : L) ≤ .finite z[j]) ∨
      (i ≠ id ∧ t.LeafFor box P z i) := by
  have hid := lt_size_of_some here
  have leaf : t.LeafFor box P z id ↔ (t.bounds id box).reading.HoldsOn P z :=
    ⟨fun ⟨_, _, _, h⟩ => h, fun h => ⟨x, here, unsplit, h⟩⟩
  rw [leaf]
  unfold LeafFor
  rw [nodes_split here]
  rcases lt_trichotomy i t.nodes.size with hi | rfl | hi
  · -- a node that was there before
    rw [if_neg hi.ne, if_neg (by omega), bounds_split_of_lt hi, nodes_close]
    by_cases he : id = i
    · subst he
      simp [here, hi.ne, show id ≠ t.nodes.size + 1 by omega]
    · simp [he, Ne.symm he, hi.ne, show i ≠ t.nodes.size + 1 by omega]
  · -- the child at or below
    rw [if_pos rfl, holdsOn_bounds_split_atMost hid, admits_atMost hj]
    simp [Node.fresh]
  · by_cases he : i = t.nodes.size + 1
    · -- the child at or above
      subst he
      rw [if_neg (by omega), if_pos rfl, holdsOn_bounds_split_atLeast hid, admits_atLeast hj]
      simp [Node.fresh]
    · have none : t.nodes[i]? = none := Array.getElem?_eq_none hi.le
      rw [if_neg hi.ne', if_neg he, nodes_close, if_neg (by omega), none]
      simp [hi.ne', he]

section Split

variable (here : t.nodes[id]? = some x) (unsplit : x.state ≠ .branched) (hj : P j)
include here unsplit hj

/-- A split loses no point with an integer in its column. -/
theorem exists_split (integral : ∃ i : Int, z[j] = i) (h : ∃ i, t.LeafFor box P z i) :
    ∃ i, (t.split id bound j v).LeafFor box P z i := by
  obtain ⟨leaf, hleaf⟩ := h
  have new (i : Nat) : (t.split id bound j v).LeafFor box P z i ↔ _ :=
    leafFor_split here unsplit hj i
  by_cases hid : leaf = id
  · subst hid
    obtain ⟨c, hc⟩ := integral
    rcases Readable.le_floor_or_ceil_le (L := L) v c with side | side
    · exact ⟨t.nodes.size, (new _).mpr (.inl ⟨rfl, hleaf, hc ▸ side⟩)⟩
    · exact ⟨t.nodes.size + 1, (new _).mpr (.inr (.inl ⟨rfl, hleaf, hc ▸ side⟩))⟩
  · exact ⟨leaf, (new _).mpr (.inr (.inr ⟨hid, hleaf⟩))⟩

/-- A split at a value that is defined and no integer doubles no point. -/
theorem unique_split (defined : read? (Limits.ofScalar v : L) ≠ none)
    (fraction : ∀ i : Int, read? (Limits.ofScalar v : L) ≠ some (.finite i))
    (h : ∀ i i', t.LeafFor box P z i → t.LeafFor box P z i' → i = i') {i i' : Nat}
    (hi : (t.split id bound j v).LeafFor box P z i)
    (hi' : (t.split id bound j v).LeafFor box P z i') : i = i' := by
  have apart := Readable.not_le_floor_and_ceil_le (L := L) (q := z[j]) defined fraction
  rcases (leafFor_split here unsplit hj i).mp hi with
    ⟨rfl, inside, below⟩ | ⟨rfl, inside, above⟩ | ⟨other, stays⟩ <;>
  rcases (leafFor_split here unsplit hj i').mp hi' with
    ⟨rfl, inside', below'⟩ | ⟨rfl, inside', above'⟩ | ⟨other', stays'⟩
  · rfl
  · exact absurd ⟨below, above'⟩ apart
  · exact absurd (h _ _ stays' inside) other'
  · exact absurd ⟨below', above⟩ apart
  · rfl
  · exact absurd (h _ _ stays' inside) other'
  · exact absurd (h _ _ stays inside') other
  · exact absurd (h _ _ stays inside') other
  · exact h _ _ stays stays'

end Split

end Leaves

end Tree

/-! ## Branching columns -/

namespace SearchTask

section Points

variable [Readable L K] {k : SearchTask K L n m} {P : Fin n → Prop} {z : Vector Rat n}
  {f f' : Moment K L n}

/-- Nodes are split at integer columns and at values that are no integers, although integrality is
judged with a tolerance. -/
theorem Fractional.spec {values : Vector K n} {j : Fin n} (h : k.Fractional values j) :
    k.isInteger j = true ∧ ∀ i : Int, read? (Limits.ofScalar values[j] : L) ≠ some (.finite i) := by
  rcases h with h | h
  · obtain ⟨hj, apart⟩ := branchingColumn_eq_some h
    refine ⟨hj, ?_⟩
    intro i hi
    -- an integer is integral up to any tolerance
    have finite : Scalar.isFinite values[j] = true := by
      rw [← Readable.isFinite_ofScalar (L := L), Readable.isFinite_iff]
      exact ⟨_, hi⟩
    rw [Tolerance.isIntegral, Tolerance.within, Readable.round_of_whole hi,
      Readable.beq_self L finite, finite] at apart
    cases apart
  · obtain ⟨hj, away⟩ := furthestColumn_eq_some h
    refine ⟨hj, ?_⟩
    intro i hi
    obtain ⟨p, q, zero, distance, less⟩ := Readable.lt_iff.mp ((Readable.lt_iff_ofScalar (L := L)).mp away)
    rw [Readable.read_zero] at zero
    rw [Readable.read_deviation, hi] at distance
    cases zero
    cases distance
    rw [ExtendedRat.finite_lt_finite, Scalar.deviation, Exact.round_intCast, Exact.abs_eq] at less
    simp at less

/-- The values that integer columns have in the answers about nodes are defined. -/
def Defined (k : SearchTask K L n m) : Prop :=
  ∀ f id x objective values, k.Reached f → f.node? id = some x →
    (k.solver (f.search.tree.bounds id k.box)).verdict = .optimal objective values →
      ∀ j, k.isInteger j = true → read? (Limits.ofScalar values[j] : L) ≠ none

/-- Moving the limits of integer columns inwards up to a tolerance loses no integers. -/
theorem holds_box (inside : k.relaxation.box.reading.Holds z)
    (integral : ∀ j, k.isInteger j = true → ∃ i : Int, z[j] = i) : k.box.reading.Holds z := by
  intro j
  obtain ⟨above, below⟩ := inside j
  have integral := integral j
  rw [(Box.getElem_reading _ j).1] at above
  rw [(Box.getElem_reading _ j).2] at below
  rw [Box.Admits, (Box.getElem_reading _ j).1, (Box.getElem_reading _ j).2]
  simp only [SearchTask.box, Vector.getElem_coordinate, Vector.getElem_ofFn, Fin.eta]
    at above below integral ⊢
  split
  · obtain ⟨i, hi⟩ := integral ‹_›
    rw [hi] at above below ⊢
    rw [Readable.lower_ceil, Readable.upper_floor]
    exact ⟨Exact.ceil_le ((Readable.lower_sub _ _).trans above),
      Exact.le_floor (below.trans (Readable.upper_add _ _))⟩
  · exact ⟨above, below⟩

/-! ## Every moment -/

/-- A step leaves every point with a node. -/
theorem Change.exists_leaf (change : k.Change f f') (integers : ∀ j, k.isInteger j = true → P j)
    (integral : ∀ j, k.isInteger j = true → ∃ i : Int, z[j] = i)
    (h : ∃ i, f.search.tree.LeafFor k.box P z i) : ∃ i, f'.search.tree.LeafFor k.box P z i := by
  cases change with
  | kept tree => rwa [tree]
  | closed here pending why after =>
    simp only [after.tree, Tree.leafFor_close here (by simp [pending]) why.final.2.2]
    exact h
  | split here pending optimal fractional after =>
    obtain ⟨hj, -⟩ := fractional.spec
    rw [after.tree]
    exact Tree.exists_split here (by simp [pending]) (integers _ hj) (integral _ hj) h

/-- A step leaves no point with two nodes. -/
theorem Change.unique_leaf (defined : k.Defined) (reached : k.Reached f) (change : k.Change f f')
    (integers : ∀ j, k.isInteger j = true → P j)
    (h : ∀ i i', f.search.tree.LeafFor k.box P z i → f.search.tree.LeafFor k.box P z i' → i = i')
    {i i' : Nat} (hi : f'.search.tree.LeafFor k.box P z i)
    (hi' : f'.search.tree.LeafFor k.box P z i') : i = i' := by
  cases change with
  | kept tree =>
    rw [tree] at hi hi'
    exact h i i' hi hi'
  | closed here pending why after =>
    rw [after.tree, Tree.leafFor_close here (by simp [pending]) why.final.2.2] at hi hi'
    exact h i i' hi hi'
  | split here pending optimal fractional after =>
    obtain ⟨hj, fraction⟩ := fractional.spec
    rw [after.tree] at hi hi'
    exact Tree.unique_split here (by simp [pending]) (integers _ hj)
      (defined _ _ _ _ _ reached here optimal _ hj) fraction h hi hi'

/-- At every moment, a node that is not split has a given point of the root's bounds. -/
theorem exists_leaf_of_reached (integers : ∀ j, k.isInteger j = true → P j)
    (integral : ∀ j, k.isInteger j = true → ∃ i : Int, z[j] = i)
    (inside : k.box.reading.HoldsOn P z) (reached : k.Reached f) :
    ∃ i, f.search.tree.LeafFor k.box P z i := by
  induction reached with
  | refl =>
    refine ⟨0, _, rfl, NodeState.noConfusion, Tree.holdsOn_bounds.mpr ⟨inside, ?_⟩⟩
    intro c hc
    simp [Search.start_tree, Tree.root, Tree.path] at hc
  | tail before step ih =>
    exact (change_of_next (Reached.frontier before) step).exists_leaf integers integral ih

/-- At every moment, no two nodes that are not split have a point in common. -/
theorem unique_leaf_of_reached (defined : k.Defined) (integers : ∀ j, k.isInteger j = true → P j)
    (reached : k.Reached f) {i i' : Nat} (hi : f.search.tree.LeafFor k.box P z i)
    (hi' : f.search.tree.LeafFor k.box P z i') : i = i' := by
  induction reached generalizing i i' with
  | refl =>
    have first {i : Nat} (h : (Search.start (L := L) (K := K)).tree.LeafFor k.box P z i) : i = 0 :=
      Nat.lt_one_iff.mp (h.elim fun _ h => Tree.lt_size_of_some h.1)
    rw [first hi, first hi']
  | tail before step ih =>
    exact (change_of_next (Reached.frontier before) step).unique_leaf defined before integers
      (fun _ _ h h' => ih h h') hi hi'

/-- At every moment, exactly one node that is not split has a given point of the root's bounds. -/
theorem leaf_of_reached (defined : k.Defined) (integers : ∀ j, k.isInteger j = true → P j)
    (integral : ∀ j, k.isInteger j = true → ∃ i : Int, z[j] = i)
    (inside : k.box.reading.HoldsOn P z) (reached : k.Reached f) :
    ∃! i, f.search.tree.LeafFor k.box P z i := by
  obtain ⟨i, leaf⟩ := exists_leaf_of_reached integers integral inside reached
  exact ⟨i, leaf, fun _ other => unique_leaf_of_reached defined integers reached other leaf⟩

end Points

variable {k : SearchTask K L n m} {f f' : Moment K L n}

/-! ## What is known of a node -/

/-- A node was closed in a step of the search before a moment, because its bound could not improve on
the incumbent of that time. -/
def DominatedBefore (k : SearchTask K L n m) (f : Moment K L n) (i : Nat)
    (x : Node L n) : Prop :=
  ∃ (f₁ f₂ : Moment K L n) (x₁ : Node L n) (incumbent : Incumbent K n),
    k.Reached f₁ ∧ k.Next f₁ f₂ ∧ k.Reach f₂ f ∧
    f₁.node? i = some x₁ ∧ x₁.state = .pending ∧ f₂.node? i = some x ∧
    f₁.search.incumbent = some incumbent ∧
    ¬ x.bound < Limits.ofScalar (incumbent.cost - k.margin incumbent.cost)

/-- What is known of a node in each of its states. -/
def Account (k : SearchTask K L n m) (f : Moment K L n) (i : Nat)
    (x : Node L n) : Prop :=
  let verdict := (k.solver (f.search.tree.bounds i k.box)).verdict
  match x.state with
  | .pending => True
  | .relaxed => False
  | .branched => True
  | .integral => True
  | .dominated => k.DominatedBefore f i x
  | .infeasible => verdict = .infeasible
  | .failed => (verdict = .failed ∨ verdict = .unbounded) ∧
    0 < f.search.statistics.numericalFailures
  | .terminal => f.search.rootUnbounded = true

theorem not_lt_of_not_canImprove {incumbent : Option (Incumbent K n)} {bound : L}
    (h : k.canImprove incumbent bound = false) :
    ∃ i, incumbent = some i ∧ ¬ bound < Limits.ofScalar (i.cost - k.margin i.cost) := by
  cases incumbent with
  | none => simp [canImprove] at h
  | some i => exact ⟨i, rfl, by simpa [canImprove] using h⟩

/-- What is above the lowest bound of a queue could not improve on the incumbent if that could not. -/
theorem canImprove_of_lowest {q : Queue L} {incumbent : Option (Incumbent K n)} {e : QueueEntry L}
    [Readable L K] (waits : e ∈ q.toList)
    (worse : ∀ b, q.lowestBound = some b → k.canImprove incumbent b = false) :
    k.canImprove incumbent e.bound = false := by
  cases incumbent with
  | none =>
    obtain ⟨b, lowest⟩ : ∃ b, q.lowestBound = some b := by
      unfold Queue.lowestBound
      cases hq : q.toList with
      | nil => simp [hq] at waits
      | cons => exact ⟨_, rfl⟩
    simpa [canImprove] using worse b lowest
  | some i =>
    refine decide_eq_false fun less => ?_
    obtain ⟨b, lowest, better⟩ := Queue.lowestBound_lt_iff.mpr ⟨e, waits, less⟩
    exact of_decide_eq_false (worse b lowest) better

theorem Change.failures_le (change : k.Change f f') :
    f.search.statistics.numericalFailures ≤ f'.search.statistics.numericalFailures := by
  cases change with
  | kept tree incumbent created countOf unbounded => exact (countOf .failed).ge
  | closed here pending why after => exact (Nat.le_add_right _ _).trans after.failures.ge
  | split here pending optimal fractional after => exact after.failures.ge

theorem Change.unbounded_mono (change : k.Change f f') (h : f.search.rootUnbounded = true) :
    f'.search.rootUnbounded = true := by
  cases change with
  | kept tree incumbent created countOf unbounded => rw [unbounded, h]
  | closed here pending why after => rw [after.unbounded, h, Bool.true_or]
  | split here pending optimal fractional after => rw [after.unbounded, h]

/-- What is known of a node that does not wait is known from then on. -/
theorem Account.next {i : Nat} {x : Node L n} (h : k.Account f i x)
    (reached : k.Reached f) (step : k.Next f f') (here : f.node? i = some x) :
    k.Account f' i x := by
  have change := change_of_next reached.frontier step
  have bounds := change.bounds (Tree.lt_size_of_some here) k.box
  unfold Account at h ⊢
  rw [bounds]
  cases hx : x.state with
  | pending | branched | integral => trivial
  | relaxed => simp [hx] at h
  | infeasible => simpa [hx] using h
  | failed =>
    simp only [hx] at h ⊢
    exact ⟨h.1, h.2.trans_le change.failures_le⟩
  | terminal =>
    simp only [hx] at h ⊢
    exact change.unbounded_mono h
  | dominated =>
    simp only [hx] at h ⊢
    obtain ⟨f₁, f₂, x₁, incumbent, reached₁, step₁, reach, rest⟩ := h
    exact ⟨f₁, f₂, x₁, incumbent, reached₁, step₁, reach.tail step, rest⟩

/-- A node that a step closes is accounted for. -/
theorem Closed.account {id : Nat} {x : Node L n} {bound : L}
    {state : NodeState} {incumbent : Option (Incumbent K n)} (reached : k.Reached f)
    (step : k.Next f f') (here : f.node? id = some x) (pending : x.state = .pending)
    (why : Reason k f.search id x bound state incumbent)
    (after : Closed f.search id bound state incumbent f'.search) :
    k.Account f' id { x with bound, state } := by
  have bounds : f'.search.tree.bounds id k.box = f.search.tree.bounds id k.box :=
    (change_of_next reached.frontier step).bounds (Tree.lt_size_of_some here) k.box
  have now : f'.node? id = some { x with bound, state } := by
    rw [Moment.node?_close after.tree, if_pos rfl, here]
    rfl
  have dominated (worse : k.canImprove f.search.incumbent bound = false) :
      k.DominatedBefore f' id { x with bound, state } := by
    obtain ⟨i, hi, most⟩ := not_lt_of_not_canImprove worse
    exact ⟨f, f', x, i, reached, step, .refl, here, pending, now, hi, most⟩
  unfold Account
  rw [bounds]
  cases why with
  | stale worse => exact dominated worse
  | processed why =>
    generalize hv : (k.solver (f.search.tree.bounds id k.box)).verdict = verdict at why
    cases why with
    | infeasible => rfl
    | rootUnbounded root => simp [after.unbounded]
    | unbounded child => simp [after.failures]
    | failed => simp [after.failures]
    | dominated worse => exact dominated worse
    | settled integral => trivial
    | rounded tolerated away again => trivial

/-- At every moment every node is accounted for. -/
theorem account_of_reached (reached : k.Reached f) {i : Nat} {x : Node L n}
    (here : f.node? i = some x) : k.Account f i x := by
  induction reached generalizing i x with
  | refl =>
    cases i with
    | zero =>
      cases here
      trivial
    | succ i => simp [Moment.node?, Search.start_tree, Tree.root] at here
  | tail before step ih =>
    cases (change_of_next (Reached.frontier before) step).became here with
    | kept old => exact (ih old).next before step old
    | closed old pending why after => exact after.account before step old pending why
    | side => trivial
    | split => trivial

/-! ## The end of a search -/

/-- A node has ended: in an integral solution, because its relaxation has no solution, because its
relaxation could not be solved, which is counted, or because its bound could not improve on the
incumbent that there was when it was closed. -/
def Ended (k : SearchTask K L n m) (s : Search K L n) (i : Nat) : Prop :=
  let verdict := (k.solver (s.tree.bounds i k.box)).verdict
  ∃ x, s.tree.nodes[i]? = some x ∧
    (x.state = .integral ∨
      (x.state = .infeasible ∧ verdict = .infeasible) ∨
      (x.state = .failed ∧ (verdict = .failed ∨ verdict = .unbounded) ∧
        0 < s.statistics.numericalFailures) ∨
      (x.state = .dominated ∧ k.DominatedBefore ⟨s, []⟩ i x))

/-- An exhausted search has neither nodes that wait nor an unbounded root. -/
theorem exhausted_spec {left : Nat} {s : Search K L n}
    (h : k.rounds left .start = (s, .exhausted)) :
    (⟨s, []⟩ : Moment K L n).waiting = [] ∧ s.rootUnbounded = false := by
  obtain ⟨unbounded, empty⟩ := rounds_stop h (by simp)
  refine ⟨?_, ?_⟩
  · simp [Moment.waiting, Queue.toList_eq_nil_iff.mpr (empty rfl)]
  · simpa using unbounded

/-- When a search is exhausted, every node that is not split has ended. -/
theorem ended_of_exhausted {left : Nat} {s : Search K L n}
    (h : k.rounds left .start = (s, .exhausted)) {i : Nat} {x : Node L n}
    (here : s.tree.nodes[i]? = some x) (unsplit : x.state ≠ .branched) : k.Ended s i := by
  have reached : k.Reached ⟨s, []⟩ := by
    have last := k.rounds_reached left
    rwa [h] at last
  obtain ⟨waiting, bounded⟩ := exhausted_spec h
  have account := account_of_reached reached here
  refine ⟨x, here, ?_⟩
  unfold Account at account
  cases hx : x.state with
  | pending =>
    -- a pending node waits, and nothing does
    have waits := (reached.frontier.pending i).mpr ⟨x, here, hx⟩
    rw [waiting] at waits
    cases waits
  | relaxed => simp [hx] at account
  | branched => exact absurd hx unsplit
  | integral => exact .inl rfl
  | dominated =>
    simp only [hx] at account
    exact .inr (.inr (.inr ⟨rfl, account⟩))
  | infeasible =>
    simp only [hx] at account
    exact .inr (.inl ⟨rfl, account⟩)
  | failed =>
    simp only [hx] at account
    exact .inr (.inr (.inl ⟨rfl, account⟩))
  | terminal =>
    simp only [hx, bounded] at account
    cases account

end SearchTask

end Milp
