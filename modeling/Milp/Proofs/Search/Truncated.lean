import Milp.Proofs.Config
import Milp.Proofs.Search.Accounts
import Milp.Proofs.Search.Decision

/-!
# Truncated searches

A limit does not change what a search does, only when it ends. It may cut a batch short; the nodes of
the batch that are left are then processed as they would have been, because taking more nodes changes
nothing on which a decision depends.

Results:
1. `outline_process`: states that agree on the links of their nodes, on the incumbent and on the history
   agree on them after processing a node.
2. `rounds_limited`: under a node limit the rounds end as under a wider one, or with a record that the
   others come to as well and go on from.
3. `history_eager`: where any solution suffices, a search of one node at a time ends with the
   first.
-/

namespace Milp

variable {K L : Type} {n m : Nat}

/-! ## Records that lead to others -/

/-- One cost comes after another by improvements beyond the tolerance. -/
def Tolerance.Gains [Scalar K] (t : Tolerance) : K → K → Prop :=
  Relation.ReflTransGen fun cost better => better < cost - t.epsilon cost

/-- One record is another, or a search may go on to it from there. -/
def Record.Leads [Scalar K] (k : SearchTask K L n m) : Record K n → Record K n → Prop :=
  Relation.ReflTransGen fun r r' => r.Step k r' ∨ r' = r.explore

section Leads

variable [Scalar K] {k : SearchTask K L n m} {r r' : Record K n}

namespace Record

theorem Leads.explored (leads : r.Leads k r') : r.explored ≤ r'.explored := by
  induction leads with
  | refl => exact le_rfl
  | tail _ step ih =>
    rcases step with step | rfl
    · exact ih.trans step.explored.ge
    · exact ih.trans (Nat.le_succ _)

/-- Nothing is taken from a history. -/
theorem Leads.history (leads : r.Leads k r') : r.history <+: r'.history := by
  induction leads with
  | refl => exact List.prefix_refl _
  | tail _ step ih =>
    rcases step with step | rfl
    · cases step with
      | same | settled => exact ih
      | improved => exact ih.trans (List.prefix_append _ _)
    · exact ih

/-- An incumbent gives way to better ones only. -/
theorem Leads.incumbent (leads : r.Leads k r') {i : Incumbent K n} (found : r.incumbent = some i) :
    ∃ i', r'.incumbent = some i' ∧ k.config.feasibility.Gains i.cost i'.cost := by
  induction leads with
  | refl => exact ⟨i, found, .refl⟩
  | tail _ step ih =>
    obtain ⟨last, held, gains⟩ := ih
    rcases step with step | rfl
    · cases step with
      | same | settled => exact ⟨last, held, gains⟩
      | improved better =>
        rw [held] at better
        exact ⟨_, rfl, gains.tail (of_decide_eq_true better)⟩
    · exact ⟨last, held, gains⟩

end Record

/-- The first solution is the first entry. -/
theorem Record.Step.first (step : r.Step k r') (none : r.incumbent = none)
    (empty : r.history = []) :
    (r'.incumbent = .none ∧ r'.history = []) ∨
      (r'.incumbent.isSome = true ∧ r'.history.length = 1) := by
  cases step with
  | same | settled => exact .inl ⟨none, empty⟩
  | improved => exact .inr ⟨rfl, by simp [empty]⟩

namespace SearchTask

variable [Limits L K] {f f' : Moment K L n}

theorem Reach.leads (reach : k.Reach f f') : f.search.record.Leads k f'.search.record := by
  induction reach with
  | refl => exact .refl
  | tail _ step ih => exact .tail ih (record_next step)

theorem foldl_process_leads (k : SearchTask K L n m) (outcomes : List (Nat × Outcome K n))
    (s : Search K L n) :
    s.record.Leads k (outcomes.foldl (fun s o => k.process s o.1 o.2) s).record := by
  induction outcomes generalizing s with
  | nil => exact .refl
  | cons o outcomes ih => exact .head (.inl (record_process k s o.1 o.2)) (ih _)

theorem round_leads (k : SearchTask K L n m) (s : Search K L n) :
    s.record.Leads k (k.round s).1.record := by
  have taken := (k.takeBatch_reach k.config.threads s.queue s []).leads
  rw [round_fst]
  exact taken.trans (foldl_process_leads k _ _)

theorem rounds_leads (k : SearchTask K L n m) (left : Nat) (s : Search K L n) :
    s.record.Leads k (k.rounds left s).1.record :=
  rounds_invariant (motive := fun last => s.record.Leads k last.record)
    (fun last leads => leads.trans (k.round_leads last)) left .refl

end SearchTask

end Leads

/-! ## Outlines -/

/-- What decisions and histories depend on: the parents and the changes of the nodes, the incumbent
and the history. -/
structure Outline (K L : Type) (n : Nat) where
  links : Array (Option Nat × Option (BoundChange L n))
  incumbent : Option (Incumbent K n)
  history : List K

/-- The outline of a search. -/
def Search.outline (s : Search K L n) : Outline K L n :=
  ⟨s.tree.nodes.map Node.link, s.incumbent, s.statistics.incumbentHistory⟩

namespace Search

variable {s s' : Search K L n}

theorem links_modify (nodes : Array (Node L n)) (id : Nat) (f : Node L n → Node L n)
    (same : ∀ x, (f x).link = x.link) : (nodes.modify id f).map Node.link = nodes.map Node.link := by
  refine Array.ext_getElem? fun i => ?_
  rw [Array.getElem?_map, Array.getElem?_modify, Array.getElem?_map]
  split
  · rw [Option.map_map]
    exact congrArg (Option.map · _) (funext same)
  · rfl

@[simp]
theorem outline_setState (s : Search K L n) (id : Nat) (state : NodeState) :
    (s.setState id state).outline = s.outline :=
  congrArg (Outline.mk · s.incumbent _)
    (links_modify s.tree.nodes id (fun x => { x with state }) fun _ => rfl)

section Limits

variable [Limits L K]

theorem bounds_of_outline (h : s.outline = s'.outline) (id : Nat) (box : Box L n) :
    s.tree.bounds id box = s'.tree.bounds id box := by
  refine Tree.bounds_congr (Tree.path_congr fun i _ => ?_)
  rw [← Array.getElem?_map, ← Array.getElem?_map]
  exact congrArg (·.links[i]?) h

omit [Limits L K] in
theorem isRoot_of_outline (h : s.outline = s'.outline) (id : Nat) :
    s.tree.isRoot id = s'.tree.isRoot id := by
  have parent (s : Search K L n) :
      s.tree.isRoot id = (s.outline.links[id]?.bind (·.1)).isNone := by
    rw [Tree.isRoot, outline, Array.getElem?_map, Option.bind_map]
    rfl
  rw [parent, parent, h]

theorem outline_addChild (s : Search K L n) (id : Nat) (c : BoundChange L n) :
    (s.addChild id c).outline =
      { s.outline with links := s.outline.links.push (some id, some c) } := by
  unfold addChild enqueue
  dsimp only
  split <;> simp [outline, Tree.child, tally, Node.link]

theorem outline_branch [Scalar K] (s : Search K L n) (id : Nat) (j : Fin n) (v : K) :
    (s.branch id j v).outline =
      { s.outline with
        links := (s.outline.links.push (some id, some (.atMost j v))).push
          (some id, some (.atLeast j v)) } := by
  have closed : ((s.setState id .branched).tally fun t =>
      { t with branched := t.branched + 1 }).outline = s.outline := outline_setState ..
  unfold branch
  dsimp only
  rw [outline_addChild, outline_addChild, closed]
  rfl

end Limits

end Search

namespace SearchTask

section Outlines

variable [Scalar K] [Limits L K] {k : SearchTask K L n m} {s s' : Search K L n}

omit [Limits L K] in
theorem outline_settle (k : SearchTask K L n m) (s : Search K L n) (id : Nat) (values : Vector K n) :
    (k.settle s id values).outline =
      if k.improves s.outline.incumbent (k.relaxation.costOf (k.snap values).toList) then
        { s.outline with
          incumbent := some ⟨k.relaxation.costOf (k.snap values).toList, k.snap values⟩
          history := s.outline.history ++ [k.relaxation.objectiveOf (k.snap values).toList] }
      else s.outline := by
  have closed : ((s.setState id .integral).tally fun t =>
      { t with integral := t.integral + 1 }).outline = s.outline := Search.outline_setState ..
  rw [← closed]
  unfold settle offer
  dsimp only
  exact apply_ite Search.outline ..

theorem outline_act (h : s.outline = s'.outline) (id : Nat) (d : Decision K n) :
    (k.act s id d).outline = (k.act s' id d).outline := by
  cases d with
  | close state =>
    have closed (s : Search K L n) : (k.act s id (.close state)).outline = s.outline := by
      rw [← Search.outline_setState s id state]
      cases state <;> rfl
    rw [closed, closed, h]
  | settle values => rw [act, act, outline_settle, outline_settle, h]
  | split j v => rw [act, act, Search.outline_branch, Search.outline_branch, h]

theorem outline_solved (k : SearchTask K L n m) (s : Search K L n) (id : Nat)
    (outcome : Outcome K n) : (k.solved s id outcome).outline = s.outline := by
  obtain ⟨verdict, iterations⟩ := outcome
  cases verdict with
  | infeasible | unbounded | failed => rfl
  | optimal objective values =>
    have bounded : ({ s with tree := s.tree.setBound id (k.boundOf objective) } :
        Search K L n).outline = s.outline :=
      congrArg (Outline.mk · s.incumbent _)
        (Search.links_modify s.tree.nodes id (fun x => { x with bound := k.boundOf objective })
          fun _ => rfl)
    refine Eq.trans ?_ ((Search.outline_setState _ id .relaxed).trans bounded)
    unfold solved relaxed
    cases s.tree.isRoot id <;> rfl

/-- States of one outline have one outline after processing a node. -/
theorem outline_process (h : s.outline = s'.outline) (id : Nat) (outcome : Outcome K n) :
    (k.process s id outcome).outline = (k.process s' id outcome).outline := by
  have incumbent : s.incumbent = s'.incumbent := congrArg Outline.incumbent h
  rw [process_eq, process_eq, incumbent, Search.bounds_of_outline h, Search.isRoot_of_outline h]
  refine outline_act ?_ id _
  rw [outline_solved, outline_solved, h]

/-- Outcomes are processed alike in states of one outline. -/
theorem outline_foldl_process (h : s.outline = s'.outline) (outcomes : List (Nat × Outcome K n)) :
    (outcomes.foldl (fun s o => k.process s o.1 o.2) s).outline =
      (outcomes.foldl (fun s o => k.process s o.1 o.2) s').outline := by
  induction outcomes generalizing s s' with
  | nil => exact h
  | cons o outcomes ih => exact ih (outline_process h o.1 o.2)

/-- Taking a batch leaves the outline as it is. -/
theorem outline_takeBatch (k : SearchTask K L n m) (room : Nat) (q : Queue L) (s : Search K L n) :
    (k.takeBatch room q s).1.outline = s.outline := by
  fun_induction takeBatch k room q s with
  | case1 | case2 | case3 => rfl
  | case4 q s room e rest taken free looked better explored last ids stop batch ih =>
    rw [batch] at ih
    exact ih
  | case5 q s room e rest taken free looked worse closed ih =>
    exact ih.trans (Search.outline_setState ..)

end Outlines

end SearchTask

/-! ## Node limits -/

/-- The task in which any solution suffices, with a time to abort and another clock. -/
def SearchTask.eager (k : SearchTask K L n m) (abort : Duration) (clock : Nat → Duration) :
    SearchTask K L n m :=
  { k with config := { k.config with sufficeAfter := some ⟨0⟩, abortAfter := some abort }, clock }

/-- The task with a limit of its nodes, and with another clock. -/
def SearchTask.limited (k : SearchTask K L n m) (limit : Nat) (clock : Nat → Duration) :
    SearchTask K L n m :=
  { k with config := k.config.withNodeLimit limit, clock }

namespace SearchTask

variable [Scalar K] [Limits L K] {k : SearchTask K L n m}

section NodeLimits

variable {limit : Nat} {clock : Nat → Duration} {s : Search K L n}

omit [Scalar K] [Limits L K] in
/-- Without time limits only the number of nodes stops a search. -/
theorem limitReached_of_timeless (timeless : k.config.Timeless) (s : Search K L n) :
    k.limitReached s =
      if k.config.nodeLimit.any (· ≤ s.statistics.nodesExplored) then some .aborted else none := by
  unfold limitReached
  rw [timeless.suffice, timeless.abort]
  simp [Duration.reaches]

omit [Scalar K] [Limits L K] in
theorem limitReached_limited (timeless : k.config.Timeless) (s : Search K L n) :
    (k.limited limit clock).limitReached s =
      if limit ≤ s.statistics.nodesExplored then some .aborted else none := by
  rw [limitReached_of_timeless (k := k.limited limit clock) ⟨timeless.suffice, timeless.abort⟩]
  simp [limited, Config.withNodeLimit]

omit [Scalar K] [Limits L K] in
/-- What a node limit lets pass, a wider one lets pass. -/
theorem free_of_limited (timeless : k.config.Timeless)
    (wider : ∀ l, k.config.nodeLimit = some l → limit ≤ l)
    (free : (k.limited limit clock).limitReached s = none) : k.limitReached s = none := by
  rw [limitReached_limited timeless] at free
  have below : ¬ limit ≤ s.statistics.nodesExplored := by simpa using free
  rw [limitReached_of_timeless timeless]
  refine if_neg fun reached => below ?_
  obtain ⟨l, held, full⟩ := (Option.any_eq_true ..).mp reached
  exact (wider l held).trans (of_decide_eq_true full)

/-- What a batch under a node limit is beside that under a wider one, taken in the same state: it is
the same, or it is the beginning and the search is aborted. -/
inductive Cut (limit : Nat) (short long : Search K L n × List Nat × Option Stop) : Prop
  | whole (same : short = long)
  | short (aborted : short.2.2 = some .aborted) (full : limit ≤ short.1.statistics.nodesExplored)
    (fewer : short.1.statistics.nodesExplored ≤ long.1.statistics.nodesExplored)
    (first : short.2.1 <+: long.2.1)

variable (clock) in
theorem takeBatch_limited (timeless : k.config.Timeless)
    (wider : ∀ l, k.config.nodeLimit = some l → limit ≤ l) (room : Nat) (q : Queue L)
    (s : Search K L n) :
    Cut limit ((k.limited limit clock).takeBatch room q s) (k.takeBatch room q s) := by
  have better {incumbent : Option (Incumbent K n)} {bound : L}
      (h : (k.limited limit clock).canImprove incumbent bound = true) :
      k.canImprove incumbent bound = true := h
  fun_induction takeBatch (k.limited limit clock) room q s with
  | case1 q s =>
    rw [takeBatch]
    exact .whole rfl
  | case2 q s room taken => exact .whole (takeBatch_of_none taken room s).symm
  | case3 q s room e rest taken stop reached =>
    -- the limit is reached before the next node
    rw [limitReached_limited timeless] at reached
    obtain ⟨full, rfl⟩ : limit ≤ s.statistics.nodesExplored ∧ Stop.aborted = stop := by
      simpa using reached
    exact .short rfl full (k.takeBatch_reach (room + 1) q s []).leads.explored List.nil_prefix
  | case4 q s room e rest taken free looked improves explored last ids stop batch ih =>
    rw [takeBatch_of_better taken (free_of_limited timeless wider free) (better improves)]
    rw [batch] at ih
    cases ih with
    | whole same => exact .whole (congrArg (fun next => (next.1, e.node :: next.2.1, next.2.2)) same)
    | short aborted full fewer first =>
      exact .short aborted full fewer (List.cons_prefix_cons.mpr ⟨rfl, first⟩)
  | case5 q s room e rest taken free looked worse closed ih =>
    rw [takeBatch_of_worse taken (free_of_limited timeless wider free) worse]
    exact ih

/-- One search is cut short where the other goes on: the limit is reached, and the other comes to a
record with the same solutions. -/
structure CutShort (k : SearchTask K L n m) (limit : Nat) (short long : Search K L n) : Prop where
  full : limit ≤ short.statistics.nodesExplored
  passed : ∃ r : Record K n, r.history = short.record.history ∧
    r.incumbent = short.record.incumbent ∧ short.record.explored ≤ r.explored ∧
    r.Leads k long.record

/-- The nodes of a batch that is cut short are processed as they are in the whole batch, where the
others come after them. -/
theorem cutShort_of_batch {short long : Search K L n × List Nat × Option Stop}
    (outline : short.1.outline = long.1.outline) (full : limit ≤ short.1.statistics.nodesExplored)
    (fewer : short.1.statistics.nodesExplored ≤ long.1.statistics.nodesExplored)
    (first : short.2.1 <+: long.2.1) :
    k.CutShort limit
      ((short.2.1.map fun id => (id, k.solver (short.1.tree.bounds id k.box))).foldl
        (fun s o => k.process s o.1 o.2) short.1)
      ((long.2.1.map fun id => (id, k.solver (long.1.tree.bounds id k.box))).foldl
        (fun s o => k.process s o.1 o.2) long.1) := by
  have outcomes : (fun id => (id, k.solver (short.1.tree.bounds id k.box))) =
      fun id => (id, k.solver (long.1.tree.bounds id k.box)) :=
    funext fun id =>
      congrArg (fun box => (id, k.solver box)) (Search.bounds_of_outline outline id k.box)
  obtain ⟨more, batch⟩ := first
  rw [← batch, List.map_append, List.foldl_append, outcomes]
  generalize short.2.1.map _ = processed
  have alike := outline_foldl_process (k := k) outline processed
  refine ⟨full.trans_eq (foldl_process_explored k _ _).symm, _,
    (congrArg Outline.history alike).symm, (congrArg Outline.incumbent alike).symm, ?_,
    foldl_process_leads k _ _⟩
  exact (foldl_process_explored k _ _).trans_le
    (fewer.trans_eq (foldl_process_explored k _ _).symm)

variable (clock) in
/-- A round under a node limit is that under a wider one, or the search ends with it. -/
theorem round_limited (timeless : k.config.Timeless)
    (wider : ∀ l, k.config.nodeLimit = some l → limit ≤ l) (s : Search K L n) :
    (k.limited limit clock).round s = k.round s ∨
      ∃ last stop, (k.limited limit clock).round s = (last, some stop) ∧
        k.CutShort limit last (k.round s).1 := by
  have taken := takeBatch_limited clock timeless wider k.config.threads s.queue s
  cases taken with
  | whole same =>
    left
    unfold round
    rw [show (k.limited limit clock).takeBatch (k.limited limit clock).config.threads s.queue s =
      k.takeBatch k.config.threads s.queue s from same]
    rfl
  | short aborted full fewer first =>
    right
    have cut : k.CutShort limit ((k.limited limit clock).round s).1 (k.round s).1 := by
      rw [round_fst, round_fst]
      refine cutShort_of_batch (k := k) ?_ full fewer first
      rw [outline_takeBatch, outline_takeBatch]
    generalize ended : (k.limited limit clock).round s = round at cut
    obtain ⟨last, stop⟩ := round
    cases stop with
    | some stop => exact ⟨last, stop, rfl, cut⟩
    | none =>
      cases round_end ended with
      | unfinished unstopped => exact absurd (aborted.symm.trans unstopped) (by simp)

theorem rounds_succ_leads (k : SearchTask K L n m) (left : Nat) (s : Search K L n) :
    (k.round s).1.record.Leads k (k.rounds (left + 1) s).1.record := by
  rw [rounds]
  split
  · rename_i s' stop round
    rw [round]
    exact .refl
  · rename_i s' round
    rw [round]
    exact k.rounds_leads left s'

variable (clock) in
/-- Under a node limit the rounds end as under a wider one, or they are cut short. -/
theorem rounds_limited (timeless : k.config.Timeless)
    (wider : ∀ l, k.config.nodeLimit = some l → limit ≤ l) (left : Nat) (s : Search K L n) :
    (k.limited limit clock).rounds left s = k.rounds left s ∨
      k.CutShort limit ((k.limited limit clock).rounds left s).1 (k.rounds left s).1 := by
  induction left generalizing s with
  | zero => exact .inl rfl
  | succ left ih =>
    rcases round_limited clock timeless wider s with same | ⟨last, stop, ends, cut⟩
    · rw [rounds, rounds, same]
      split
      · exact .inl rfl
      · exact ih _
    · have stopped : (k.limited limit clock).rounds (left + 1) s = (last, stop) := by
        rw [rounds, ends]
      obtain ⟨full, r, history, incumbent, explored, leads⟩ := cut
      rw [stopped]
      exact .inr ⟨full, r, history, incumbent, explored,
        leads.trans (k.rounds_succ_leads left s)⟩

end NodeLimits

/-! ## Sufficient solutions -/

section Sufficiency

variable {abort : Duration} {clock : Nat → Duration} {s : Search K L n}

omit [Scalar K] [Limits L K] in
/-- While there is no solution, none suffices. -/
theorem limitReached_eager (timeless : k.config.Timeless)
    (far : ∀ look, (clock look).reaches (some abort) = false) (none : s.incumbent = none) :
    (k.eager abort clock).limitReached s = k.limitReached s := by
  rw [limitReached_of_timeless timeless]
  unfold limitReached
  simp [eager, far, none]

omit [Scalar K] [Limits L K] in
/-- Once there is a solution, it suffices, unless there is no room for another node. -/
theorem limitReached_eager_of_some (found : s.incumbent.isSome = true) :
    (k.eager abort clock).limitReached s ≠ none := by
  unfold limitReached
  dsimp only
  split_ifs with full late early
  · simp
  · simp
  · simp
  · simp [eager, found, Duration.reaches] at early

theorem takeBatch_eager (timeless : k.config.Timeless)
    (far : ∀ look, (clock look).reaches (some abort) = false) (room : Nat) (q : Queue L)
    (none : s.incumbent = none) :
    (k.eager abort clock).takeBatch room q s = k.takeBatch room q s := by
  have same {s : Search K L n} (none : s.incumbent = .none) :=
    limitReached_eager (k := k) timeless far none
  fun_induction takeBatch k room q s with
  | case1 q s => rw [takeBatch]
  | case2 q s room taken => exact takeBatch_of_none taken room s
  | case3 q s room e rest taken stop reached =>
    exact takeBatch_of_limit taken ((same none).trans reached) room
  | case4 q s room e rest taken free looked improves explored last ids stop batch ih =>
    rw [batch] at ih
    refine (takeBatch_of_better taken ((same none).trans free) improves room).trans ?_
    exact congrArg (fun next => (next.1, e.node :: next.2.1, next.2.2)) (ih none)
  | case5 q s room e rest taken free looked worse closed ih =>
    exact (takeBatch_of_worse taken ((same none).trans free) worse room).trans (ih none)

/-- Until there is a solution, a round is as it is without time limits. -/
theorem round_eager (timeless : k.config.Timeless)
    (far : ∀ look, (clock look).reaches (some abort) = false) (none : s.incumbent = none) :
    (k.eager abort clock).round s = k.round s := by
  have taken := takeBatch_eager (k := k) timeless far k.config.threads s.queue none
  unfold round
  rw [show (k.eager abort clock).takeBatch (k.eager abort clock).config.threads s.queue s =
    k.takeBatch k.config.threads s.queue s from taken]
  rfl

/-- Once there is a solution, no round takes a node that waits. -/
theorem history_eager_of_some (single : k.config.threads = 1) (found : s.incumbent.isSome = true)
    (more : s.queue.isEmpty = false) (left : Nat) :
    ((k.eager abort clock).rounds left s).1.statistics.incumbentHistory =
      s.statistics.incumbentHistory := by
  cases left with
  | zero => rfl
  | succ left =>
    obtain ⟨⟨e, rest⟩, taken⟩ : ∃ first, s.queue.pop? = some first :=
      Option.ne_none_iff_exists'.mp fun none => by simp [Queue.pop?_eq_none_iff.mp none] at more
    have limited : (k.eager abort clock).limitReached s ≠ none := limitReached_eager_of_some found
    obtain ⟨stop, limit⟩ := Option.ne_none_iff_exists'.mp limited
    have batch : (k.eager abort clock).takeBatch (k.eager abort clock).config.threads s.queue s =
        ({ s with queue := s.queue, looks := s.looks + 1 }, [], some stop) := by
      rw [show (k.eager abort clock).config.threads = 1 from single]
      exact takeBatch_of_limit taken limit 0
    rw [rounds, round, batch]
    cases s.rootUnbounded <;> simp

theorem length_takeBatch_le (k : SearchTask K L n m) (room : Nat) (q : Queue L) (s : Search K L n) :
    (k.takeBatch room q s).2.1.length ≤ room := by
  fun_induction takeBatch k room q s with
  | case1 | case2 | case3 => exact Nat.zero_le _
  | case4 q s room e rest taken free looked improves explored last ids stop batch ih =>
    rw [batch] at ih
    exact Nat.succ_le_succ ih
  | case5 q s room e rest taken free looked worse closed ih => exact ih

/-- A search of one node at a time enters no two objectives in one round. -/
theorem round_single (single : k.config.threads = 1) (none : s.incumbent = none)
    (empty : s.statistics.incumbentHistory = []) :
    ((k.round s).1.incumbent = .none ∧ (k.round s).1.statistics.incumbentHistory = []) ∨
      ((k.round s).1.incumbent.isSome = true ∧
        (k.round s).1.statistics.incumbentHistory.length = 1) := by
  have outline := outline_takeBatch k k.config.threads s.queue s
  have short := (length_takeBatch_le k k.config.threads s.queue s).trans_eq single
  rw [round_fst]
  generalize k.takeBatch k.config.threads s.queue s = batch at outline short
  obtain ⟨s', ids, stop⟩ := batch
  have none' : s'.record.incumbent = .none := (congrArg Outline.incumbent outline).trans none
  have empty' : s'.record.history = [] := (congrArg Outline.history outline).trans empty
  rcases ids with _ | ⟨id, _ | ⟨other, more⟩⟩
  · exact .inl ⟨none', empty'⟩
  · exact (record_process k s' id _).first none' empty'
  · simp at short

/-- Where any solution suffices, a search of one node at a time ends with the first. -/
theorem history_eager (timeless : k.config.Timeless) (single : k.config.threads = 1)
    (far : ∀ look, (clock look).reaches (some abort) = false) (left : Nat)
    (none : s.incumbent = none) (empty : s.statistics.incumbentHistory = []) :
    ((k.eager abort clock).rounds left s).1.statistics.incumbentHistory =
      (k.rounds left s).1.statistics.incumbentHistory.take 1 := by
  induction left generalizing s with
  | zero => simp [rounds, empty]
  | succ left ih =>
    rw [rounds, rounds, round_eager timeless far none]
    have one := round_single (k := k) single none empty
    generalize ended : k.round s = round at one
    obtain ⟨s', stop⟩ := round
    dsimp only at one
    cases stop with
    | some stop =>
      refine (List.take_of_length_le ?_).symm
      rcases one with ⟨-, empty'⟩ | ⟨-, length⟩
      · simp [empty']
      · exact length.le
    | none =>
      rcases one with ⟨none', empty'⟩ | ⟨found, length⟩
      · exact ih none' empty'
      · cases round_end ended with
        | unfinished unstopped more =>
          have first := (k.rounds_leads left s').history
          refine (history_eager_of_some single found more left).trans ?_
          rw [← length]
          exact List.prefix_iff_eq_take.mp first

end Sufficiency

end SearchTask

end Milp
