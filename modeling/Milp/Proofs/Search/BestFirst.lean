import Milp.Proofs.Binary64.Reading
import Milp.Proofs.Search.Decision
import Milp.Proofs.Search.Moment
import Milp.Proofs.Search.Order
import Milp.Solve

/-!
# Best bound first

At every moment of a search the queue is in order, and its entries are numbered like the nodes that
they stand for. The node that is taken therefore has the lowest bound of all that wait, and of those
with that bound it is the oldest. As this leaves no choice, it does not matter to a search how the
entries of its queue lie.

Results:
1. `orderly_of_reached`: at every moment the queue is in order and numbered like its nodes.
2. `Search.Alike.rounds`: searches that differ only in how the entries of their queues lie end alike.
3. `SearchTask.best_bound_first`: what is taken from the queue of a search over doubles, and that how
   the queue lies makes no difference.
-/

namespace Milp

open scoped List

variable {K L : Type} {n m : Nat}

/-! ## Queues in a search -/

/-- The queue is in order, and an entry has the number of the node that it stands for. -/
structure Moment.Orderly [Limits L K] (f : Moment K L n) : Prop where
  frontier : f.Frontier
  ordered : f.search.queue.Ordered
  numbered : ∀ e ∈ f.search.queue.toList, e.sequence = e.node

namespace Moment.Orderly

variable [Scalar K] [Limits L K] {k : SearchTask K L n m} {f f' : Moment K L n}

omit [Scalar K] in
theorem distinct (h : f.Orderly) : Queue.Distinct f.search.queue.toList := by
  unfold Queue.Distinct
  rw [List.map_congr_left h.numbered]
  exact (List.nodup_append.mp h.frontier.nodup).1

omit [Scalar K] in
theorem start : (⟨.start, []⟩ : Moment K L n).Orderly where
  frontier := .start
  ordered := .node (Queue.heads_empty _) (Queue.heads_empty _) .empty .empty
  numbered e he := by
    simp only [Search.start_queue, Queue.toList, List.append_nil, List.mem_singleton] at he
    rw [he]

variable [Std.TransCmp (Limits.compare : L → L → Ordering)]

theorem next (h : f.Orderly) (step : k.Next f f') : f'.Orderly := by
  refine ⟨h.frontier.next step, ?_, ?_⟩
  · cases step with
    | look => exact h.ordered
    | explore _ taken | dominate _ taken => exact (h.ordered.pop? taken).2
    | process s id batch =>
      obtain ⟨x, hx, -⟩ := h.frontier.mem_of_waits (List.mem_append_right _ (List.mem_cons_self ..))
      cases k.process_fate (k.solver (s.tree.bounds id k.box)) hx with
      | closed _ _ queue => exact queue ▸ h.ordered
      | split _ _ _ queue => exact queue ▸ (h.ordered.add _).add _
  · cases step with
    | look => exact h.numbered
    | explore _ taken | dominate _ taken =>
      exact fun e he => h.numbered e
        ((Queue.toList_of_pop? taken).mem_iff.mpr (List.mem_cons_of_mem _ he))
    | process s id batch =>
      obtain ⟨x, hx, -⟩ := h.frontier.mem_of_waits (List.mem_append_right _ (List.mem_cons_self ..))
      cases k.process_fate (k.solver (s.tree.bounds id k.box)) hx with
      | closed _ _ queue => exact queue ▸ h.numbered
      | split _ _ _ queue =>
        intro e he
        rw [queue] at he
        -- the children are numbered in the order of their creation, which is their place
        rcases List.mem_cons.mp ((Queue.toList_addPair ..).mem_iff.mp he) with rfl | he
        · rfl
        · rcases List.mem_cons.mp he with rfl | he
          · rfl
          · exact h.numbered e he

end Moment.Orderly

namespace SearchTask

variable [Scalar K] [Limits L K] {k : SearchTask K L n m} {f f' : Moment K L n}

theorem Reach.orderly [Std.TransCmp (Limits.compare : L → L → Ordering)] (reach : k.Reach f f')
    (h : f.Orderly) : f'.Orderly := by
  induction reach with
  | refl => exact h
  | tail _ step ih => exact ih.next step

/-- At every moment the queue is in order and numbered like its nodes. -/
theorem orderly_of_reached [Std.TransCmp (Limits.compare : L → L → Ordering)]
    (reached : k.Reached f) : f.Orderly :=
  Reach.orderly reached .start

/-- Why a round ends a search, if it does. -/
theorem round_snd (k : SearchTask K L n m) (s : Search K L n) :
    (k.round s).2 =
      if (k.round s).1.rootUnbounded then some .unbounded
      else (k.takeBatch k.config.threads s.queue s).2.2.or
        (if (k.round s).1.queue.isEmpty then some .exhausted else none) := by
  rw [round_fst]
  unfold round
  dsimp only
  split
  · rfl
  · split
    · rename_i stop limited
      rw [limited]
      rfl
    · rename_i free
      rw [free]
      rfl

end SearchTask

/-! ## Searches with other queues -/

/-- Two states of a search differ at most in how the entries of their queues lie, both in order. -/
structure Search.Alike [Limits L K] (s s' : Search K L n) : Prop where
  rest : s' = { s with queue := s'.queue }
  entries : s.queue.toList ~ s'.queue.toList
  ordered : s.queue.Ordered
  ordered' : s'.queue.Ordered

namespace Search.Alike

variable [Limits L K] {s s' : Search K L n}

/-- What does not look at the queue keeps searches alike. -/
theorem map (h : s.Alike s') {g : Search K L n → Search K L n}
    (keeps : ∀ t q, g { t with queue := q } = { g t with queue := q }) : (g s).Alike (g s') := by
  have queue (t : Search K L n) : (g t).queue = t.queue := by
    conv_lhs => rw [show t = { t with queue := t.queue } from rfl, keeps]
  refine ⟨?_, ?_, ?_, ?_⟩
  · rw [queue s']
    conv_lhs => rw [h.rest, keeps]
  · rw [queue, queue]
    exact h.entries
  · exact queue s ▸ h.ordered
  · exact queue s' ▸ h.ordered'

theorem tree (h : s.Alike s') : s'.tree = s.tree := by
  rw [h.rest]

theorem incumbent (h : s.Alike s') : s'.incumbent = s.incumbent := by
  rw [h.rest]

/-- Searches that are alike are the same once the nodes that wait are given up. -/
theorem abandon (h : s.Alike s') : s'.abandon = s.abandon := by
  have trees : s'.abandon.tree = s.abandon.tree := by
    refine Tree.ext_nodes fun i => ?_
    have waits : i ∈ s'.queue.toList.map (·.node) ↔ i ∈ s.queue.toList.map (·.node) :=
      (h.entries.map _).mem_iff.symm
    rw [nodes_abandon, nodes_abandon, h.tree]
    simp only [waits]
  have rest (t : Search K L n) : t.abandon = { t with tree := t.abandon.tree, queue := .empty } := rfl
  rw [rest s', rest s, trees, h.rest]

variable [Std.TransCmp (Limits.compare : L → L → Ordering)]

theorem enqueue (h : s.Alike s') (id : Nat) : (s.enqueue id).Alike (s'.enqueue id) := by
  unfold Search.enqueue
  rw [h.tree]
  cases s.tree.nodes[id]? with
  | none => exact h
  | some x =>
    refine ⟨?_, ?_, h.ordered.add _, h.ordered'.add _⟩
    · rw [h.rest]
    · exact (Queue.toList_add _ _).trans ((h.entries.cons _).trans (Queue.toList_add _ _).symm)

theorem addChild (h : s.Alike s') (id : Nat) (c : BoundChange L n) :
    (s.addChild id c).Alike (s'.addChild id c) := by
  let grown (t : Search K L n) : Search K L n :=
    { t with tree := (t.tree.child id c).1 }.tally fun counts =>
      { counts with
        nodesCreated := counts.nodesCreated + 1
        maxDepth := max counts.maxDepth
          (((t.tree.child id c).1.nodes[(t.tree.child id c).2]?.map Node.depth).getD 0) }
  have parts (t : Search K L n) : t.addChild id c = (grown t).enqueue (t.tree.child id c).2 := rfl
  rw [parts, parts, h.tree]
  exact (h.map (g := grown) fun _ _ => rfl).enqueue _

variable [Scalar K]

theorem branch (h : s.Alike s') (id : Nat) (j : Fin n) (v : K) :
    (s.branch id j v).Alike (s'.branch id j v) := by
  let closed (t : Search K L n) : Search K L n :=
    (t.setState id .branched).tally fun counts => { counts with branched := counts.branched + 1 }
  exact ((h.map (g := closed) fun _ _ => rfl).addChild id (.atMost j v)).addChild id (.atLeast j v)

variable {k : SearchTask K L n m}

theorem act (h : s.Alike s') (id : Nat) (decision : Decision K n) :
    (k.act s id decision).Alike (k.act s' id decision) := by
  cases decision with
  | close state => exact h.map (g := (k.act · id (.close state))) fun _ _ => rfl
  | settle values =>
    refine h.map (g := (k.act · id (.settle values))) fun t q => ?_
    unfold SearchTask.act SearchTask.settle SearchTask.offer
    dsimp only [Search.tally, Search.setState]
    cases k.improves t.incumbent (k.relaxation.costOf (k.snap values).toList) <;> rfl
  | split j v => exact h.branch id j v

theorem process (h : s.Alike s') (id : Nat) (outcome : Outcome K n) :
    (k.process s id outcome).Alike (k.process s' id outcome) := by
  rw [SearchTask.process_eq, SearchTask.process_eq, h.tree, h.incumbent]
  refine act (h.map (g := (k.solved · id outcome)) fun t q => ?_) id _
  obtain ⟨verdict, iterations⟩ := outcome
  cases verdict with
  | optimal objective values =>
    unfold SearchTask.solved SearchTask.relaxed
    dsimp only
    cases t.tree.isRoot id <;> rfl
  | infeasible | unbounded | failed => rfl

theorem foldl_process (h : s.Alike s') (outcomes : List (Nat × Outcome K n)) :
    (outcomes.foldl (fun s o => k.process s o.1 o.2) s).Alike
      (outcomes.foldl (fun s o => k.process s o.1 o.2) s') := by
  induction outcomes generalizing s s' with
  | nil => exact h
  | cons o outcomes ih => exact ih (h.process o.1 o.2)

/-! ### Rounds -/

omit [Scalar K] in
/-- From queues of the same entries the same one is taken, and leaves queues of the same entries. -/
theorem taken {q q' rest : Queue L} {e : QueueEntry L}
    (h : ({ s with queue := q }).Alike { s' with queue := q' }) (distinct : Queue.Distinct q.toList)
    (taken : q.pop? = some (e, rest)) :
    ∃ rest', q'.pop? = some (e, rest') ∧
      ({ s with queue := rest }).Alike { s' with queue := rest' } := by
  obtain ⟨rest', taken', ordered', entries⟩ :=
    Queue.pop?_of_perm h.ordered h.ordered' distinct h.entries taken
  have same : ({ s' with queue := q' } : Search K L n) = { s with queue := q' } := h.rest
  refine ⟨rest', taken', ?_, entries, (h.ordered.pop? taken).2, ordered'⟩
  exact congrArg (fun t : Search K L n => { t with queue := rest' }) same

omit [Std.TransCmp (Limits.compare : L → L → Ordering)] [Scalar K] in
/-- The limits do not look at the queue. -/
theorem limitReached {q q' : Queue L} (h : ({ s with queue := q }).Alike { s' with queue := q' }) :
    k.limitReached s' = k.limitReached s :=
  calc k.limitReached s'
    _ = k.limitReached { s' with queue := q' } := rfl
    _ = k.limitReached { s with queue := q' } := congrArg k.limitReached h.rest
    _ = k.limitReached s := rfl

/-- From queues of the same entries the same batch is taken. -/
theorem takeBatch {q q' : Queue L} (h : ({ s with queue := q }).Alike { s' with queue := q' })
    (distinct : Queue.Distinct q.toList) (room : Nat) :
    (k.takeBatch room q s).1.Alike (k.takeBatch room q' s').1 ∧
      (k.takeBatch room q' s').2 = (k.takeBatch room q s).2 := by
  fun_induction SearchTask.takeBatch k room q s generalizing s' q' with
  | case1 q s =>
    rw [SearchTask.takeBatch]
    exact ⟨h, rfl⟩
  | case2 q s room taken =>
    have taken' : q'.pop? = none := by
      rw [Queue.pop?_eq_none_iff, ← Queue.toList_eq_nil_iff] at taken ⊢
      exact (taken ▸ h.entries.symm).eq_nil
    rw [SearchTask.takeBatch_of_none taken']
    exact ⟨h, rfl⟩
  | case3 q s room e rest taken stop limit =>
    obtain ⟨rest', taken', -⟩ := h.taken distinct taken
    rw [SearchTask.takeBatch_of_limit taken' (h.limitReached.trans limit)]
    exact ⟨h.map (g := fun t => { t with looks := t.looks + 1 }) fun _ _ => rfl, rfl⟩
  | case4 q s room e rest taken =>
    rename_i limit looked better explored last ids stop batch ih
    obtain ⟨rest', taken', left⟩ := h.taken distinct taken
    have incumbent : s'.incumbent = s.incumbent := h.incumbent
    let explore (t : Search K L n) : Search K L n :=
      { t with looks := t.looks + 1 }.tally fun counts =>
        { counts with nodesExplored := counts.nodesExplored + 1 }
    have next : ({ explore s with queue := rest }).Alike { explore s' with queue := rest' } :=
      left.map (g := explore) fun _ _ => rfl
    obtain ⟨alike, same⟩ := ih next (distinct.perm (Queue.toList_of_pop? taken)).of_cons
    rw [batch] at alike same
    rw [SearchTask.takeBatch_of_better taken' (h.limitReached.trans limit) (incumbent ▸ better)]
    refine ⟨alike, ?_⟩
    dsimp only
    rw [same]
  | case5 q s room e rest taken =>
    rename_i limit looked worse closed ih
    obtain ⟨rest', taken', left⟩ := h.taken distinct taken
    have incumbent : s'.incumbent = s.incumbent := h.incumbent
    let dominate (t : Search K L n) : Search K L n :=
      ({ t with looks := t.looks + 1 }.setState e.node .dominated).tally fun counts =>
        { counts with prunedByBound := counts.prunedByBound + 1 }
    have next : ({ dominate s with queue := rest }).Alike { dominate s' with queue := rest' } :=
      left.map (g := dominate) fun _ _ => rfl
    rw [SearchTask.takeBatch_of_worse taken' (h.limitReached.trans limit) (incumbent ▸ worse)]
    exact ih next (distinct.perm (Queue.toList_of_pop? taken)).of_cons

/-- Searches that are alike stay so in a round, which ends them for the same reason. -/
theorem round (h : s.Alike s') (distinct : Queue.Distinct s.queue.toList) :
    (k.round s).1.Alike (k.round s').1 ∧ (k.round s').2 = (k.round s).2 := by
  obtain ⟨taken, same⟩ := h.takeBatch (k := k) distinct k.config.threads
  have last : (k.round s).1.Alike (k.round s').1 := by
    rw [SearchTask.round_fst, SearchTask.round_fst, same, taken.tree]
    exact taken.foldl_process _
  refine ⟨last, ?_⟩
  have unbounded : (k.round s').1.rootUnbounded = (k.round s).1.rootUnbounded := by rw [last.rest]
  have empty : (k.round s').1.queue.isEmpty = (k.round s).1.queue.isEmpty := by
    rw [Bool.eq_iff_iff, ← Queue.toList_eq_nil_iff, ← Queue.toList_eq_nil_iff]
    exact ⟨fun none => (none ▸ last.entries).eq_nil, fun none => (none ▸ last.entries.symm).eq_nil⟩
  rw [SearchTask.round_snd, SearchTask.round_snd, unbounded, empty, same]

/-- Searches that are alike end alike. -/
theorem rounds (h : s.Alike s') (orderly : (⟨s, []⟩ : Moment K L n).Orderly) (left : Nat) :
    (k.rounds left s).1.Alike (k.rounds left s').1 ∧
      (k.rounds left s').2 = (k.rounds left s).2 := by
  induction left generalizing s s' with
  | zero => exact ⟨h, rfl⟩
  | succ left ih =>
    obtain ⟨alike, same⟩ := h.round (k := k) orderly.distinct
    have next : (⟨(k.round s).1, []⟩ : Moment K L n).Orderly :=
      (k.round_reach orderly.frontier).orderly orderly
    rw [SearchTask.rounds, SearchTask.rounds]
    cases ended : k.round s with | mk t stop =>
    cases ended' : k.round s' with | mk t' stop' =>
    rw [ended, ended'] at alike same
    rw [ended] at next
    obtain rfl : stop' = stop := same
    cases stop' with
    | some stop => exact ⟨alike, rfl⟩
    | none => exact ih alike next

end Search.Alike

/-! ## Searches over doubles -/

/-- An entry over doubles comes before another: in the total order of doubles its bound does, or the
bounds are equal and it is the older one. An undefined bound comes last. -/
def QueueEntry.ComesBefore (a b : QueueEntry Float) : Prop :=
  Binary64.Precedes a.bound b.bound ∨ a.bound = b.bound ∧ a.sequence < b.sequence

theorem QueueEntry.isBefore_iff_comesBefore {a b : QueueEntry Float} :
    a.isBefore b = true ↔ a.ComesBefore b := by
  have parts : a.order b = (Double.compare a.bound b.bound).then
      (Ord.compare a.sequence b.sequence) := rfl
  rw [isBefore_iff, parts, Ordering.then_eq_lt, Nat.compare_eq_lt, Binary64.compare_eq_lt_iff,
    Binary64.compare_eq_eq_iff, ComesBefore]

namespace SearchTask

variable {k : SearchTask Float Float n m}

/-- Whether the lowest bound of a queue may improve on an incumbent depends on the entries only. -/
theorem any_lowestBound (q : Queue Float) (incumbent : Option (Incumbent Float n)) :
    q.lowestBound.any (k.canImprove incumbent) =
      q.toList.any fun e => k.canImprove incumbent e.bound := by
  cases incumbent with
  | none =>
    unfold Queue.lowestBound
    cases q.toList <;> simp [canImprove]
  | some i =>
    rw [Bool.eq_iff_iff, Option.any_eq_true, List.any_eq_true]
    simp only [canImprove, decide_eq_true_iff]
    exact Queue.lowestBound_lt_iff

theorem status_alike {s s' : Search Float Float n} (h : s.Alike s') (stop : Stop) :
    k.status s' stop s'.queue.lowestBound = k.status s stop s.queue.lowestBound := by
  have bounds : s'.queue.lowestBound.any (k.canImprove s.incumbent) =
      s.queue.lowestBound.any (k.canImprove s.incumbent) := by
    rw [any_lowestBound, any_lowestBound]
    exact (h.entries.any_eq).symm
  have statistics : s'.statistics = s.statistics := by rw [h.rest]
  unfold status
  rw [h.incumbent, statistics, bounds]

/-- The node that is taken from the queue of a search comes before all that wait with it, and what the
queue says of these nodes holds of them. Entries come out of a queue in their order and once each,
whichever way they were put in; so it makes no difference to a search how the entries of its queue
lie. -/
theorem best_bound_first (k : SearchTask Float Float n m) :
    (∀ f e rest, k.Reached f → f.search.queue.pop? = some (e, rest) →
      ∀ e' ∈ rest.toList, e.ComesBefore e') ∧
    (∀ f e, k.Reached f → e ∈ f.search.queue.toList →
      ∃ x, f.node? e.node = some x ∧ x.state = .pending ∧ e.bound = x.bound ∧
        e.sequence = x.sequence) ∧
    (∀ es : List (QueueEntry Float), (es.map (·.sequence)).Nodup →
      (Queue.ofList es).drain ~ es ∧ (Queue.ofList es).drain.Pairwise QueueEntry.ComesBefore ∧
        ∀ es', es' ~ es → (Queue.ofList es').drain = (Queue.ofList es).drain) ∧
    ∀ (s s' : Search Float Float n) (left : Nat), k.Reached ⟨s, []⟩ → s.Alike s' →
      let last := k.rounds left s
      let last' := k.rounds left s'
      last'.2 = last.2 ∧ last'.1.abandon = last.1.abandon ∧
        k.status last'.1 last'.2 last'.1.queue.lowestBound =
          k.status last.1 last.2 last.1.queue.lowestBound := by
  refine ⟨?_, ?_, ?_, ?_⟩
  · intro f e rest reached taken e' he'
    have orderly := orderly_of_reached reached
    exact QueueEntry.isBefore_iff_comesBefore.mp
      (Queue.isBefore_of_pop? orderly.ordered orderly.distinct taken e' he')
  · intro f e reached he
    have frontier := reached.frontier
    obtain ⟨x, hx, bound, sequence⟩ := frontier.entries e he
    obtain ⟨y, hy, pending⟩ :=
      frontier.mem_of_waits (List.mem_append_left _ (List.mem_map_of_mem he))
    obtain rfl : x = y := Option.some.inj (hx.symm.trans hy)
    exact ⟨x, hx, pending, bound, sequence⟩
  · intro es distinct
    obtain ⟨entries, order, same⟩ := Queue.drain_ofList distinct
    exact ⟨entries, order.imp fun before => QueueEntry.isBefore_iff_comesBefore.mp before, same⟩
  · intro s s' left reached alike last last'
    obtain ⟨ends, stop⟩ := alike.rounds (k := k) (orderly_of_reached reached) left
    exact ⟨stop, ends.abandon, stop ▸ status_alike ends _⟩

deriving instance DecidableEq for QueueEntry

/-- Of six nodes the one without a lower bound is first, then negative zero, then the two positive
zeros by age, then the infinite bound, and the undefined one is last. -/
theorem best_bound_first_zeros :
    (Queue.ofList (L := Float)
      [⟨0, 4, 4⟩, ⟨.nan, 5, 5⟩, ⟨Limits.above, 0, 0⟩, ⟨0, 1, 1⟩, ⟨-0, 3, 3⟩,
        ⟨Limits.below, 2, 2⟩]).drain =
      [⟨Limits.below, 2, 2⟩, ⟨-0, 3, 3⟩, ⟨0, 1, 1⟩, ⟨0, 4, 4⟩, ⟨Limits.above, 0, 0⟩,
        ⟨.nan, 5, 5⟩] := by
  let k : SearchTask Float Float _ _ :=
    ((Model.empty : Model Float Float).relaxation .minimise).task .standard fun _ => ⟨0⟩
  obtain ⟨entries, order, -⟩ := (best_bound_first k).2.2.1
    [⟨0, 4, 4⟩, ⟨.nan, 5, 5⟩, ⟨Limits.above, 0, 0⟩, ⟨0, 1, 1⟩, ⟨-0, 3, 3⟩, ⟨Limits.below, 2, 2⟩]
    (by decide)
  have sorted : List.Pairwise (fun a b : QueueEntry Float => a.isBefore b = true)
      [⟨Limits.below, 2, 2⟩, ⟨-0, 3, 3⟩, ⟨0, 1, 1⟩, ⟨0, 4, 4⟩, ⟨Limits.above, 0, 0⟩,
        ⟨.nan, 5, 5⟩] := by
    decide
  refine (entries.trans (by decide)).eq_of_pairwise (fun a b _ _ before after => ?_) order
    (sorted.imp QueueEntry.isBefore_iff_comesBefore.mp)
  have before := QueueEntry.NotAfter.of_isBefore (QueueEntry.isBefore_iff_comesBefore.mpr before)
  exact absurd (QueueEntry.isBefore_iff_comesBefore.mpr after) (Bool.eq_false_iff.mp before)

end SearchTask

end Milp
