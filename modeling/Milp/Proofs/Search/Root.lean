import Milp.Proofs.Search.Lineage

/-!
# The root and the incumbent

Until a node is explored there is only the root, and the root is explored first.

Results:
1. `incumbent_of_reach`: once there is an incumbent there is always one.
2. `settled_of_reached`: with a node that was closed by a solution there is an incumbent, and a node
   that was split has a relaxation with a solution.
3. `rootKnown_of_reached`: a search knows that the root is unbounded exactly when the relaxation of
   the root was solved, and is unbounded.
4. `alone_of_unbounded`: then there is no other node, and no incumbent.
-/

namespace Milp

variable {K L : Type} [Scalar K] [Limits L K] {n m : Nat}

namespace SearchTask

variable {k : SearchTask K L n m} {f f' : Moment K L n}

/-! ## Incumbents -/

omit [Limits L K] in
theorem offered_isSome (k : SearchTask K L n m) (incumbent : Option (Incumbent K n))
    (values : Vector K n) : (k.offered incumbent values).isSome = true := by
  unfold offered
  cases incumbent with
  | none => rfl
  | some i =>
    dsimp only
    split <;> rfl

theorem Closing.isSome {incumbent kept : Option (Incumbent K n)} {bounds : Box L n} {x : Node L n}
    {verdict : Verdict K n} {bound : L} {state : NodeState}
    (why : Closing k incumbent bounds x verdict bound state kept)
    (h : incumbent.isSome = true ∨ state = .integral) : kept.isSome = true := by
  cases why with
  | infeasible | rootUnbounded | unbounded | failed | dominated =>
    exact h.resolve_right nofun
  | settled => exact offered_isSome ..
  | rounded => exact offered_isSome ..

theorem Reason.isSome {s : Search K L n} {id : Nat} {x : Node L n} {bound : L} {state : NodeState}
    {incumbent : Option (Incumbent K n)} (why : Reason k s id x bound state incumbent)
    (h : s.incumbent.isSome = true ∨ state = .integral) : incumbent.isSome = true := by
  cases why with
  | stale => exact h.resolve_right nofun
  | processed why => exact why.isSome h

theorem Change.incumbent (change : k.Change f f') (h : f.search.incumbent.isSome = true) :
    f'.search.incumbent.isSome = true := by
  cases change with
  | kept tree incumbent => rwa [incumbent]
  | closed here pending why after =>
    rw [after.incumbent]
    exact why.isSome (.inl h)
  | split here pending optimal fractional after => rwa [after.incumbent]

/-- Once there is an incumbent there is always one. -/
theorem incumbent_of_reach (reach : k.Reach f f') (frontier : f.Frontier)
    (h : f.search.incumbent.isSome = true) : f'.search.incumbent.isSome = true := by
  induction reach with
  | refl => exact h
  | tail before step ih => exact (change_of_next (Reach.frontier before frontier) step).incumbent ih

/-! ## Nodes that were closed or split -/

/-- What a node's state says of the incumbent, where it was closed by a solution, and of its
relaxation, where it was split. -/
structure Settled (k : SearchTask K L n m) (f : Moment K L n) (i : Nat) (x : Node L n) : Prop where
  integral : x.state = .integral → f.search.incumbent.isSome = true
  branched : x.state = .branched → ∃ objective values,
    (k.solver (f.search.tree.bounds i k.box)).verdict = .optimal objective values

theorem Settled.of_pending {i : Nat} {x : Node L n} (pending : x.state = .pending) :
    k.Settled f i x where
  integral state := by simp [pending] at state
  branched state := by simp [pending] at state

theorem Settled.next {i : Nat} {x : Node L n} (h : k.Settled f i x) (change : k.Change f f')
    (hi : i < f.search.tree.nodes.size) : k.Settled f' i x := by
  refine ⟨fun state => change.incumbent (h.integral state), fun state => ?_⟩
  rw [change.bounds hi]
  exact h.branched state

/-- At every moment the state of a node says so much. -/
theorem settled_of_reached (reached : k.Reached f) {i : Nat} {x : Node L n}
    (here : f.node? i = some x) : k.Settled f i x := by
  refine reached.node_invariant (motive := k.Settled) ?_ ?_ here
  · intro x here
    cases here
    exact .of_pending rfl
  · intro f f' i x ih change became
    cases became with
    | kept old => exact (ih i x old).next change (Tree.lt_size_of_some old)
    | closed old pending why after =>
      refine ⟨fun integral => ?_, fun branched => absurd branched why.final.2.2⟩
      rw [after.incumbent]
      exact why.isSome (.inr integral)
    | side => exact .of_pending rfl
    | @split y objective values j old pending optimal =>
      refine ⟨fun integral => absurd integral (by simp), fun _ => ⟨objective, values, ?_⟩⟩
      rw [change.bounds (Tree.lt_size_of_some old)]
      exact optimal

/-! ## The root -/

/-- What a search knows of its root: while the root waits it knows nothing else, and then whether it
is unbounded. -/
structure RootKnown (k : SearchTask K L n m) (f : Moment K L n) (x : Node L n) : Prop where
  alone : x.state = .pending → f.search.tree.nodes.size = 1 ∧ f.search.incumbent = none ∧
    f.search.rootUnbounded = false
  unbounded : x.state ≠ .pending →
    (f.search.rootUnbounded = true ↔ (k.solver k.box).verdict = .unbounded)

theorem parent_of_reached (reached : k.Reached f) {i : Nat} {x : Node L n}
    (here : f.node? i = some x) : x.parent = none ↔ i = 0 := by
  cases origin_of_reached reached here with
  | root first parent => exact iff_of_true parent first
  | side older parent =>
    refine iff_of_false (by simp [parent]) ?_
    rintro rfl
    cases older

/-- The root is given up exactly when its relaxation is unbounded. -/
theorem Closing.terminal_iff {kept : Option (Incumbent K n)} {bounds : Box L n} {x : Node L n}
    {verdict : Verdict K n} {bound : L} {state : NodeState} {incumbent : Option (Incumbent K n)}
    (why : Closing k incumbent bounds x verdict bound state kept) :
    state = .terminal ↔ x.parent = none ∧ verdict = .unbounded := by
  cases why with
  | rootUnbounded root => exact iff_of_true rfl ⟨root, rfl⟩
  | unbounded child => exact iff_of_false nofun fun h => child h.1
  | infeasible | failed | dominated | settled | rounded =>
    exact iff_of_false nofun (fun h => nomatch h.2)

theorem Reason.terminal {s : Search K L n} {id : Nat} {x : Node L n} {bound : L} {state : NodeState}
    {incumbent : Option (Incumbent K n)} (why : Reason k s id x bound state incumbent)
    (terminal : state = .terminal) : x.parent = none := by
  cases why with
  | stale => cases terminal
  | processed why => exact (why.terminal_iff.mp terminal).1

/-- The root that is closed while there is no incumbent is given up exactly when its relaxation is
unbounded. -/
theorem Reason.terminal_iff {s : Search K L n} {id : Nat} {x : Node L n} {bound : L}
    {state : NodeState} {incumbent : Option (Incumbent K n)}
    (why : Reason k s id x bound state incumbent) (none : s.incumbent = none)
    (root : x.parent = .none) :
    state = .terminal ↔ (k.solver (s.tree.bounds id k.box)).verdict = .unbounded := by
  cases why with
  | stale worse => simp [none, canImprove] at worse
  | processed why => exact why.terminal_iff.trans (and_iff_right root)

/-- A root that has been closed or split stays known while nothing is found of it. -/
theorem RootKnown.keep {x : Node L n} (known : k.RootKnown f x) (settled : x.state ≠ .pending)
    (same : f'.search.rootUnbounded = f.search.rootUnbounded) : k.RootKnown f' x where
  alone waits := absurd waits settled
  unbounded _ := by
    rw [same]
    exact known.unbounded settled

/-- While the root waits it is the only node. -/
theorem RootKnown.settled_of_other {x y : Node L n} {id : Nat} (known : k.RootKnown f x)
    (there : f.node? id = some y) (other : id ≠ 0) : x.state ≠ .pending := by
  intro waits
  have alone := (known.alone waits).1
  have inside : id < f.search.tree.nodes.size := Tree.lt_size_of_some there
  omega

section Steps

variable {x x' y : Node L n} {id : Nat} (reached : k.Reached f) (root : f.node? 0 = some x)
  (known : k.RootKnown f x) (there : f.node? id = some y) (pending : y.state = .pending)
  (here : f'.node? 0 = some x')

include reached root known there pending here

theorem RootKnown.closed {bound : L} {state : NodeState} {incumbent : Option (Incumbent K n)}
    (why : Reason k f.search id y bound state incumbent)
    (after : Closed f.search id bound state incumbent f'.search) : k.RootKnown f' x' := by
  rw [Moment.node?_close after.tree] at here
  split at here
  · rename_i same
    subst same
    obtain rfl := Option.some.inj (root.symm.trans there)
    obtain ⟨-, none, bounded⟩ := known.alone pending
    rw [root] at here
    cases here
    refine ⟨fun waits => absurd waits why.final.1, fun _ => ?_⟩
    have found := why.terminal_iff none ((parent_of_reached reached root).mpr rfl)
    rw [(root_of_reached reached).2] at found
    rw [after.unbounded, bounded, Bool.false_or, decide_eq_true_iff, found]
  · rename_i other
    obtain rfl := Option.some.inj (root.symm.trans here)
    refine known.keep (known.settled_of_other there other) ?_
    -- only the root is ever given up while the search goes on
    have kept : state ≠ .terminal := fun terminal =>
      other ((parent_of_reached reached there).mp (why.terminal terminal))
    rw [after.unbounded, decide_eq_false kept, Bool.or_false]

theorem RootKnown.split {objective : K} {values : Vector K n} {j : Fin n}
    (optimal : (k.solver (f.search.tree.bounds id k.box)).verdict = .optimal objective values)
    (after : Split f.search id (k.boundOf objective) j values[j] f'.search) :
    k.RootKnown f' x' := by
  have size := (root_of_reached reached).1
  rw [Moment.node?_split there after.tree, if_neg (by omega), if_neg (by omega)] at here
  split at here
  · rename_i same
    subst same
    obtain rfl := Option.some.inj (root.symm.trans there)
    obtain ⟨-, -, bounded⟩ := known.alone pending
    rw [root] at here
    cases here
    rw [(root_of_reached reached).2] at optimal
    refine ⟨fun waits => absurd waits (by simp), fun _ => ?_⟩
    simp [after.unbounded, bounded, optimal]
  · rename_i other
    obtain rfl := Option.some.inj (root.symm.trans here)
    exact known.keep (known.settled_of_other there other) after.unbounded

end Steps

/-- A change keeps what a search knows of its root. -/
theorem RootKnown.next {x x' : Node L n} (known : k.RootKnown f x) (reached : k.Reached f)
    (root : f.node? 0 = some x) (change : k.Change f f') (here : f'.node? 0 = some x') :
    k.RootKnown f' x' := by
  cases change with
  | kept tree incumbent created countOf unbounded =>
    rw [Moment.node?, tree] at here
    obtain rfl := Option.some.inj (root.symm.trans here)
    refine ⟨fun waits => ?_, fun settled => ?_⟩
    · rw [tree, incumbent, unbounded]
      exact known.alone waits
    · rw [unbounded]
      exact known.unbounded settled
  | closed there pending why after => exact known.closed reached root there pending here why after
  | split there pending optimal fractional after =>
    exact known.split reached root there pending here optimal after

/-- At every moment the search knows so much of its root. -/
theorem rootKnown_of_reached (reached : k.Reached f) {x : Node L n} (here : f.node? 0 = some x) :
    k.RootKnown f x := by
  refine reached.invariant (motive := fun f => ∀ x, f.node? 0 = some x → k.RootKnown f x)
    ?_ ?_ x here
  · intro x here
    cases here
    exact ⟨fun _ => ⟨rfl, rfl, rfl⟩, fun waits => absurd rfl waits⟩
  · intro f f' reached' ih change x here
    have size : 0 < f.search.tree.nodes.size := (root_of_reached reached').1
    have root : f.node? 0 = some f.search.tree.nodes[0] := Array.getElem?_eq_getElem size
    exact (ih _ root).next reached' root change here

theorem Closing.incumbent_of_terminal {incumbent kept : Option (Incumbent K n)} {bounds : Box L n}
    {x : Node L n} {verdict : Verdict K n} {bound : L} {state : NodeState}
    (why : Closing k incumbent bounds x verdict bound state kept) (terminal : state = .terminal) :
    kept = incumbent := by
  cases why with
  | rootUnbounded => rfl
  | infeasible | unbounded | failed | dominated | settled | rounded => cases terminal

theorem Reason.incumbent_of_terminal {s : Search K L n} {id : Nat} {x : Node L n} {bound : L}
    {state : NodeState} {incumbent : Option (Incumbent K n)}
    (why : Reason k s id x bound state incumbent) (terminal : state = .terminal) :
    incumbent = s.incumbent := by
  cases why with
  | stale => cases terminal
  | processed why => exact why.incumbent_of_terminal terminal

/-- While the root waits, a search does not call it unbounded. -/
theorem Reached.bounded_of_pending (reached : k.Reached f) {id : Nat} {x : Node L n}
    (here : f.node? id = some x) (pending : x.state = .pending) (root : id = 0) :
    f.search.tree.nodes.size = 1 ∧ f.search.incumbent = none ∧ f.search.rootUnbounded = false :=
  (rootKnown_of_reached reached (root ▸ here)).alone pending

/-- When the root is unbounded there is no other node, and no incumbent. -/
theorem alone_of_unbounded (reached : k.Reached f) (h : f.search.rootUnbounded = true) :
    f.search.tree.nodes.size = 1 ∧ f.search.incumbent = none := by
  refine reached.invariant (motive := fun f => f.search.rootUnbounded = true →
    f.search.tree.nodes.size = 1 ∧ f.search.incumbent = none) nofun ?_ h
  intro f f' reached' ih change after'
  -- once the root is unbounded no node waits
  have ended {id : Nat} {x : Node L n} (here : f.node? id = some x) (pending : x.state = .pending) :
      f.search.rootUnbounded = false := by
    by_contra unbounded
    have size := (ih (Bool.eq_true_of_not_eq_false unbounded)).1
    have inside : id < f.search.tree.nodes.size := Tree.lt_size_of_some here
    exact unbounded (reached'.bounded_of_pending here pending (by omega)).2.2
  cases change with
  | kept tree incumbent created countOf unbounded =>
    rw [tree, incumbent]
    exact ih (unbounded ▸ after')
  | @closed id x bound state incumbent here pending why after =>
    have terminal : state = .terminal := by
      simpa [ended here pending] using after.unbounded.symm.trans after'
    have root := (parent_of_reached reached' here).mp (why.terminal terminal)
    obtain ⟨size, none, -⟩ := reached'.bounded_of_pending here pending root
    rw [after.tree, Tree.size_close, after.incumbent, why.incumbent_of_terminal terminal]
    exact ⟨size, none⟩
  | split here pending optimal fractional after =>
    rw [after.unbounded, ended here pending] at after'
    cases after'

theorem Reached.alone_of_queued (reached : k.Reached f)
    (queued : 0 ∈ f.search.queue.toList.map (·.node)) :
    f.search.tree.nodes.size = 1 ∧ f.search.incumbent = none := by
  obtain ⟨x, here, pending⟩ := reached.frontier.mem_of_waits (List.mem_append_left _ queued)
  obtain ⟨size, none, -⟩ := (rootKnown_of_reached reached here).alone pending
  exact ⟨size, none⟩

/-- The root is explored before any other node: nothing was explored exactly when it is still in the
queue. -/
theorem explored_of_reached (reached : k.Reached f) :
    f.search.statistics.nodesExplored = 0 ↔ 0 ∈ f.search.queue.toList.map (·.node) := by
  induction reached with
  | refl => exact iff_of_true rfl (by simp [Search.start_queue, Queue.toList])
  | tail before step ih =>
    have alone := Reached.alone_of_queued before
    have frontier := Reached.frontier before
    cases step with
    | look s batch => exact ih
    | @explore s e rest batch taken better =>
      refine iff_of_false (Nat.succ_ne_zero _) ?_
      intro queued
      have entries := (Queue.toList_of_pop? taken).map QueueEntry.node
      rw [List.map_cons] at entries
      have waits : e.node ∈ s.queue.toList.map (·.node) :=
        entries.mem_iff.mpr (List.mem_cons_self ..)
      -- the root and the node that was taken would be two, but the root is alone
      have size := (alone (entries.mem_iff.mpr (List.mem_cons_of_mem _ queued))).1
      obtain ⟨x, here, -⟩ := frontier.mem_of_waits (List.mem_append_left _ waits)
      have inside : e.node < s.tree.nodes.size := Tree.lt_size_of_some here
      have zero : e.node = 0 := Nat.lt_one_iff.mp (size ▸ inside)
      have nodup := entries.nodup_iff.mp (List.Nodup.of_append_left frontier.nodup)
      exact (List.nodup_cons.mp nodup).1 (zero ▸ queued)
    | @dominate s e rest batch taken worse =>
      have entries := (Queue.toList_of_pop? taken).map QueueEntry.node
      rw [List.map_cons] at entries
      have gone : 0 ∉ s.queue.toList.map (·.node) := by
        intro queued
        have none : s.incumbent = none := (alone queued).2
        simp [none, canImprove] at worse
      refine iff_of_false (fun zero => gone (ih.mp zero)) fun queued => gone ?_
      exact entries.mem_iff.mpr (List.mem_cons_of_mem _ queued)
    | process s id batch =>
      obtain ⟨x, hx, -⟩ := frontier.mem_of_waits (List.mem_append_right _ (List.mem_cons_self ..))
      have size : 0 < s.tree.nodes.size := Nat.zero_lt_of_lt (Tree.lt_size_of_some hx)
      cases k.process_fate (k.solver (s.tree.bounds id k.box)) hx with
      | closed why after queue =>
        rw [after.counts.explored, queue]
        exact ih
      | split optimal fractional after queue =>
        rw [after.explored, queue, ((Queue.toList_addPair ..).map _).mem_iff]
        simpa [size.ne] using ih

end SearchTask

end Milp
