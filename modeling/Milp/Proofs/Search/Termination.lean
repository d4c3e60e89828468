import Milp.Proofs.Search.Size

/-!
# Termination

A node that has left the queue does not come back, and every round takes one. So there are no more
rounds than a tree can have nodes.

Results:
1. `takes_or_stops_iff`: every round takes a node or ends the search, if nodes may be taken at all;
   `round_progress`: a round after which the search goes on leaves one more node outside the queue.
2. `rounds_end`: the rounds come to an end when there are as many as nodes that a tree can have, and
   `exists_end`: from then on their number does not matter.
-/

namespace Milp

variable {K L : Type} {n m : Nat}

namespace SearchTask

variable [Scalar K] [Limits L K] {k : SearchTask K L n m} {f f' : Moment K L n}

/-! ## Progress -/

/-- The nodes outside the queue become no fewer. -/
theorem outside_le_of_next (h : f.Frontier) (step : k.Next f f') :
    f.search.tree.nodes.size + f'.search.queue.size ≤
      f'.search.tree.nodes.size + f.search.queue.size := by
  cases step with
  | look s batch => exact le_rfl
  | explore batch taken better =>
    exact Nat.add_le_add_left (Queue.size_lt_of_pop? taken).le _
  | @dominate s e rest batch taken worse =>
    show s.tree.nodes.size + rest.size ≤ (s.tree.setState e.node .dominated).nodes.size + s.queue.size
    rw [Tree.size_setState]
    exact Nat.add_le_add_left (Queue.size_lt_of_pop? taken).le _
  | process s id batch =>
    obtain ⟨x, hx, -⟩ := h.mem_of_waits (List.mem_append_right _ (List.mem_cons_self ..))
    cases k.process_fate (k.solver (s.tree.bounds id k.box)) hx with
    | closed why after queue =>
      show _ + (k.process s id _).queue.size ≤ (k.process s id _).tree.nodes.size + _
      rw [queue, after.tree, Tree.size_close]
    | split optimal fractional after queue =>
      show _ + (k.process s id _).queue.size ≤ (k.process s id _).tree.nodes.size + _
      rw [queue, after.tree, Tree.size_split, Queue.size_addPair]
      show s.tree.nodes.size + (s.queue.size + 2) ≤ s.tree.nodes.size + 2 + s.queue.size
      omega

theorem outside_le_of_reach (h : f.Frontier) (reach : k.Reach f f') :
    f.search.tree.nodes.size + f'.search.queue.size ≤
      f'.search.tree.nodes.size + f.search.queue.size := by
  induction reach with
  | refl => exact le_rfl
  | tail before step ih =>
    have next := outside_le_of_next (Reach.frontier before h) step
    omega

/-- Taking a batch makes no nodes, and takes one unless a limit stops it. -/
theorem takeBatch_queue (k : SearchTask K L n m) (room : Nat) (q : Queue L) (s : Search K L n) :
    (k.takeBatch room q s).1.tree.nodes.size = s.tree.nodes.size ∧
      (k.takeBatch room q s).1.queue.size ≤ q.size ∧
      (0 < room → q.isEmpty = false → (k.takeBatch room q s).2.2 = none →
        (k.takeBatch room q s).1.queue.size < q.size) := by
  fun_induction takeBatch k room q s with
  | case1 q s => exact ⟨rfl, le_rfl, fun h => absurd h (lt_irrefl 0)⟩
  | case2 q s room taken =>
    refine ⟨rfl, le_rfl, fun _ more => ?_⟩
    rw [Queue.pop?_eq_none_iff.mp taken] at more
    cases more
  | case3 q s room e rest taken stop limit => exact ⟨rfl, le_rfl, fun _ _ go => absurd go (by simp)⟩
  | case4 q s room e rest taken limit looked better explored last ids stop h ih =>
    rw [h] at ih
    have fewer := ih.2.1.trans_lt (Queue.size_lt_of_pop? taken)
    exact ⟨ih.1, fewer.le, fun _ _ _ => fewer⟩
  | case5 q s room e rest taken limit looked worse closed ih =>
    have fewer := ih.2.1.trans_lt (Queue.size_lt_of_pop? taken)
    refine ⟨ih.1.trans ?_, fewer.le, fun _ _ _ => fewer⟩
    exact Tree.size_setState ..

/-- A round takes a node from the queue, or the search stops. -/
theorem round_takes_or_stops (threads : 0 < k.config.threads) (s : Search K L n) :
    (k.takeBatch k.config.threads s.queue s).1.queue.size < s.queue.size ∨
      (k.round s).2.isSome = true := by
  cases round : k.round s with | mk s' stop =>
  cases round_end round with
  | unbounded | limited | exhausted => exact .inr rfl
  | unfinished unstopped more =>
    refine .inl ((k.takeBatch_queue _ _ s).2.2 threads ?_ unstopped)
    -- from an empty queue nothing is taken, so nothing is processed and it stays empty
    by_contra waits
    rw [Bool.not_eq_false] at waits
    obtain ⟨room, some⟩ := Nat.exists_eq_add_of_le' threads
    have last : (k.round s).1 = s := by
      rw [round_fst, some, takeBatch_of_none (Queue.pop?_eq_none_iff.mpr waits)]
      rfl
    rw [round] at last
    dsimp only at last
    rw [last, waits] at more
    cases more

/-- If no node may be taken, a round in which nodes wait does nothing, and the search goes on. -/
theorem round_of_no_threads {s : Search K L n} (none : k.config.threads = 0)
    (waits : s.queue.isEmpty = false) (bounded : s.rootUnbounded = false) :
    k.round s = (s, .none) := by
  have batch : k.takeBatch k.config.threads s.queue s = (s, [], .none) := by
    rw [none, takeBatch]
  unfold round
  rw [batch]
  simp [waits, bounded]

/-- Every round takes a node or ends the search exactly when nodes may be taken. -/
theorem takes_or_stops_iff : (∀ s : Search K L n,
    (k.takeBatch k.config.threads s.queue s).1.queue.size < s.queue.size ∨
      (k.round s).2.isSome = true) ↔ 0 < k.config.threads := by
  refine ⟨fun h => Nat.pos_of_ne_zero fun none => ?_, fun threads => round_takes_or_stops threads⟩
  rcases h .start with fewer | ends
  · rw [none, takeBatch] at fewer
    exact fewer.false
  · rw [round_of_no_threads none rfl rfl] at ends
    cases ends

/-- A round after which the search goes on leaves one more node outside the queue. -/
theorem round_progress {s s' : Search K L n} (h : (⟨s, []⟩ : Moment K L n).Frontier)
    (threads : 0 < k.config.threads) (more : s.queue.isEmpty = false)
    (round : k.round s = (s', none)) : s'.queue.isEmpty = false ∧
    s.tree.nodes.size + s'.queue.size < s'.tree.nodes.size + s.queue.size := by
  obtain ⟨size, -, fewer⟩ := k.takeBatch_queue k.config.threads s.queue s
  have taken := (k.takeBatch_reach k.config.threads s.queue s []).frontier h
  have processed := outside_le_of_reach taken (process_reach k _ taken fun _ _ => rfl)
  rw [List.nil_append, ← round_fst, round] at processed
  cases round_end round with
  | unfinished unstopped more' =>
    have first := fewer threads more unstopped
    dsimp only at processed
    exact ⟨more', by omega⟩

/-! ## Rounds -/

/-- The rounds come to an end when there are as many as nodes that a tree can have. -/
theorem rounds_end {limit : Nat} (threads : 0 < k.config.threads)
    (small : ∀ f, k.Reached f → f.search.tree.nodes.size ≤ limit) {left : Nat} {s : Search K L n}
    (reached : k.Reached ⟨s, []⟩) (more : s.queue.isEmpty = false)
    (enough : limit + s.queue.size ≤ left + s.tree.nodes.size) :
    (k.rounds left s).2 ≠ .outOfRounds := by
  induction left generalizing s with
  | zero =>
    have size : s.tree.nodes.size ≤ limit := small _ reached
    have waits : 0 < s.queue.size := by
      cases hq : s.queue with
      | empty => simp [hq, Queue.isEmpty] at more
      | node top left right => exact Nat.succ_pos _
    -- no round is left, so all nodes that the tree can have are outside the queue already
    omega
  | succ left ih =>
    rw [rounds]
    split
    · rename_i s' stop round
      cases round_end round with
      | unbounded root => simp
      | limited root taken => rcases stop_of_takeBatch taken with rfl | rfl <;> simp
      | exhausted root empty => simp
    · rename_i s' round
      obtain ⟨more', progress⟩ := round_progress reached.frontier threads more round
      have next : k.Reached ⟨s', []⟩ := by
        have reach := k.round_reach reached.frontier
        rw [round] at reach
        exact Relation.ReflTransGen.trans reached reach
      exact ih next more' (by omega)

/-- Rounds that are left over change nothing. -/
theorem rounds_of_le {left left' : Nat} {s s' : Search K L n} {stop : Stop}
    (h : k.rounds left s = (s', stop)) (ends : stop ≠ .outOfRounds) (le : left ≤ left') :
    k.rounds left' s = (s', stop) := by
  induction left generalizing s left' with
  | zero =>
    cases h
    exact absurd rfl ends
  | succ left ih =>
    obtain ⟨left', rfl⟩ := Nat.exists_eq_add_of_le' (Nat.one_le_of_lt le)
    rw [rounds] at h ⊢
    split at h
    · exact h
    · exact ih h (Nat.le_of_succ_le_succ le)

theorem exists_end {limit : Nat} (threads : 0 < k.config.threads)
    (small : ∀ f, k.Reached f → f.search.tree.nodes.size ≤ limit) :
    ∃ s stop, stop ≠ .outOfRounds ∧ ∀ left, limit ≤ left → k.rounds left .start = (s, stop) := by
  have ends : (k.rounds limit .start).2 ≠ .outOfRounds :=
    rounds_end threads small .refl rfl (by simp [Search.start_queue, Queue.size, Search.start_tree, Tree.root])
  exact ⟨_, _, ends, fun left enough => rounds_of_le rfl ends enough⟩

end SearchTask

end Milp
