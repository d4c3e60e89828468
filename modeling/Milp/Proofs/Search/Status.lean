import Milp.Proofs.Search.Leaves
import Milp.Proofs.Search.Optimality
import Milp.Proofs.Search.Root
import Milp.Solve

/-!
# What the answers mean

Results:
1. `limit_of_rounds`: a search that is stopped by a limit came to a moment at which it is reached.
2. `status_sound`: what each answer of a search that ends says of its relaxations.
-/

namespace Milp

variable {K L : Type} {n m : Nat}

namespace SearchTask

/-! ## Limits -/

section Stops

variable [Scalar K] [Limits L K] {k : SearchTask K L n m}

/-- A batch that is cut short came to a moment at which a limit is reached. -/
theorem limit_of_takeBatch {room : Nat} {q : Queue L} {s : Search K L n} {stop : Stop}
    (batch : List Nat) (h : (k.takeBatch room q s).2.2 = some stop) :
    ∃ f, k.Reach ⟨{ s with queue := q }, batch⟩ f ∧ k.limitReached f.search = some stop ∧
      k.Reach f ⟨(k.takeBatch room q s).1, batch ++ (k.takeBatch room q s).2.1⟩ := by
  fun_induction takeBatch k room q s generalizing batch with
  | case1 | case2 => cases h
  | case3 q s room e rest taken stop' limit =>
    -- the limits are looked at before the node leaves the queue
    cases h
    rw [List.append_nil]
    exact ⟨_, .refl, limit, .single (.look { s with queue := q } batch)⟩
  | case4 q s room e rest taken limit looked better explored last ids stop' h' ih =>
    rw [h'] at ih
    obtain ⟨f, before, reached, after⟩ := ih (batch ++ [e.node]) h
    have look := Next.look (k := k) { s with queue := q } batch
    have explore := Next.explore (k := k) (s := { looked with queue := q }) batch taken better
    refine ⟨f, .head look (.head explore before), reached, ?_⟩
    rw [List.append_cons]
    exact after
  | case5 q s room e rest taken limit looked worse closed ih =>
    obtain ⟨f, before, reached, after⟩ := ih batch h
    have look := Next.look (k := k) { s with queue := q } batch
    have dominate := Next.dominate (k := k) (s := { looked with queue := q }) batch taken
      (Bool.not_eq_true _ ▸ worse)
    exact ⟨f, .head look (.head dominate before), reached, after⟩

/-- A search that is stopped by a limit came to a moment at which the limit is reached. -/
theorem limit_of_rounds {left : Nat} {s s' : Search K L n} {stop : Stop}
    (frontier : (⟨s, []⟩ : Moment K L n).Frontier) (h : k.rounds left s = (s', stop))
    (limit : stop = .aborted ∨ stop = .sufficient) :
    ∃ f, k.Reach ⟨s, []⟩ f ∧ k.limitReached f.search = some stop ∧ k.Reach f ⟨s', []⟩ := by
  induction left generalizing s with
  | zero =>
    cases h
    rcases limit with h | h <;> cases h
  | succ left ih =>
    have reach := k.round_reach frontier
    rw [rounds] at h
    split at h
    · rename_i s'' stop' round
      cases h
      cases round_end round with
      | unbounded => rcases limit with h | h <;> cases h
      | exhausted => rcases limit with h | h <;> cases h
      | limited root taken =>
        obtain ⟨f, before, reached, after⟩ := limit_of_takeBatch [] taken
        have processed := process_reach k _ (after.frontier (before.frontier frontier))
          fun _ _ => rfl
        rw [List.nil_append, ← round_fst, round] at processed
        exact ⟨f, before, reached, after.trans processed⟩
    · rename_i s'' round
      rw [round] at reach
      obtain ⟨f, before, reached, after⟩ := ih (reach.frontier frontier) h
      exact ⟨f, reach.trans before, reached, after⟩

omit [Scalar K] [Limits L K] in
/-- That a solution suffices is looked at only when there is one. -/
theorem incumbent_of_sufficient {s : Search K L n} (h : k.limitReached s = some .sufficient) :
    s.incumbent.isSome = true := by
  unfold limitReached at h
  dsimp only at h
  split_ifs at h with nodes time enough
  · cases h
  · cases h
  · exact (Bool.and_eq_true _ _ ▸ enough).1

/-! ## Statuses -/

variable {s : Search K L n} {stop : Stop} {remaining : Option L}

/-- The ways to an answer. -/
inductive Answer (k : SearchTask K L n m) (s : Search K L n) (stop : Stop) (remaining : Option L) :
    Status → Prop
  | unbounded (stopped : stop = .unbounded) : Answer k s stop remaining .unbounded
  | optimal (found : s.incumbent.isSome = true) (failures : s.statistics.numericalFailures = 0)
    (stopped : stop = .exhausted ∨ stop = .sufficient ∧
      ∀ b, remaining = some b → k.canImprove s.incumbent b = false) :
    Answer k s stop remaining .optimal
  | suboptimal (found : s.incumbent.isSome = true) (stopped : stop ≠ .unbounded) :
    Answer k s stop remaining .suboptimal
  | infeasible (none : s.incumbent = none) (failures : s.statistics.numericalFailures = 0)
    (stopped : stop = .exhausted) : Answer k s stop remaining .infeasible
  | numericalFailure (none : s.incumbent = none) (failures : 0 < s.statistics.numericalFailures)
    (stopped : stop = .exhausted) : Answer k s stop remaining .numericalFailure
  | timeLimit (none : s.incumbent = none) (unexhausted : stop ≠ .exhausted)
    (stopped : stop ≠ .unbounded) : Answer k s stop remaining .timeLimit

theorem answer_status (k : SearchTask K L n m) (s : Search K L n) (stop : Stop)
    (remaining : Option L) : k.Answer s stop remaining (k.status s stop remaining) := by
  unfold status
  dsimp only
  split
  · exact .unbounded rfl
  · rename_i i found
    split
    · exact .suboptimal (by simp [found]) nofun
    · rename_i failures
      exact .optimal (by simp [found]) (Nat.eq_zero_of_not_pos failures) (.inl rfl)
  · rename_i none
    split
    · exact .numericalFailure none ‹_› rfl
    · rename_i failures
      exact .infeasible none (Nat.eq_zero_of_not_pos failures) rfl
  · rename_i i found
    split
    · rename_i proven
      simp only [Bool.and_eq_true, Bool.not_eq_true', decide_eq_false_iff_not] at proven
      refine .optimal (by simp [found]) (Nat.eq_zero_of_not_pos proven.2) (.inr ⟨rfl, ?_⟩)
      intro b hb
      simpa [hb] using proven.1
    · exact .suboptimal (by simp [found]) nofun
  · rename_i i unbounded exhausted sufficient found
    exact .suboptimal (by simp [found]) unbounded
  · rename_i unbounded exhausted none
    exact .timeLimit none exhausted unbounded

theorem Answer.isSome {status : Status} (answer : k.Answer s stop remaining status)
    (solved : status.hasSolution = true) : s.incumbent.isSome = true := by
  cases answer with
  | optimal found => exact found
  | suboptimal found => exact found
  | unbounded | infeasible | numericalFailure | timeLimit => cases solved

/-- A search with an incumbent promises a solution, unless the root is unbounded. -/
theorem Answer.hasSolution {status : Status} (answer : k.Answer s stop remaining status)
    (found : s.incumbent.isSome = true) (bounded : stop ≠ .unbounded) :
    status.hasSolution = true := by
  cases answer with
  | unbounded stopped => exact absurd stopped bounded
  | optimal | suboptimal => rfl
  | infeasible none | numericalFailure none | timeLimit none => simp [none] at found

theorem Answer.unbounded_iff {status : Status} (answer : k.Answer s stop remaining status) :
    status = .unbounded ↔ stop = .unbounded := by
  cases answer with
  | unbounded stopped => exact iff_of_true rfl stopped
  | optimal _ _ stopped =>
    refine iff_of_false nofun ?_
    rcases stopped with rfl | ⟨rfl, -⟩ <;> nofun
  | suboptimal _ stopped | timeLimit _ _ stopped => exact iff_of_false nofun stopped
  | infeasible _ _ stopped | numericalFailure _ _ stopped =>
    subst stopped
    exact iff_of_false nofun nofun

theorem answer_run (k : SearchTask K L n m) (roundLimit : Nat) :
    k.Answer (k.rounds roundLimit .start).1.abandon (k.rounds roundLimit .start).2
      (k.rounds roundLimit .start).1.queue.lowestBound (k.run roundLimit).2 :=
  k.answer_status ..

theorem reached_of_rounds {roundLimit : Nat} (last : k.rounds roundLimit .start = (s, stop)) :
    k.Reached ⟨s, []⟩ := by
  have reached := k.rounds_reached roundLimit
  rwa [last] at reached

/-- A result has an objective and one value for each column if its status promises a solution, and else
neither. -/
theorem result_solution (k : SearchTask K L n m) (names : List String) :
    ((k.result names).status.hasSolution = true →
      (k.result names).objective.isSome = true ∧ (k.result names).values.length = n) ∧
    ((k.result names).status.hasSolution = false →
      (k.result names).objective = none ∧ (k.result names).values = []) := by
  have found : (k.run Milp.roundLimit).2.hasSolution = true →
      (k.run Milp.roundLimit).1.incumbent.isSome = true := (k.answer_run _).isSome
  unfold SearchTask.result
  generalize k.run Milp.roundLimit = last at found ⊢
  dsimp only
  refine ⟨fun status => ?_, fun status => ?_⟩
  · obtain ⟨i, hi⟩ := Option.isSome_iff_exists.mp (found status)
    rw [hi]
    simp [status]
  · cases hi : last.1.incumbent with
    | none => exact ⟨rfl, rfl⟩
    | some i => simp [status]

end Stops

/-! ## The end of a search -/

section End

variable [Scalar K] [Limits L K] {k : SearchTask K L n m} {roundLimit : Nat} {s : Search K L n}
  {i : Nat} {x : Node L n}

/-- A search that is stopped by a limit without incumbent came to a moment at which it had to stop. -/
theorem aborted_of_rounds {stop : Stop} (last : k.rounds roundLimit .start = (s, stop))
    (none : s.incumbent = none) (limit : stop = .aborted ∨ stop = .sufficient) :
    ∃ f, k.Reached f ∧ k.limitReached f.search = some .aborted ∧ k.Reach f ⟨s, []⟩ := by
  obtain ⟨f, before, reached, after⟩ := limit_of_rounds .start last limit
  rcases limit with rfl | rfl
  · exact ⟨f, before, reached, after⟩
  · -- a solution that suffices is kept to the end
    have later := incumbent_of_reach after (Reached.frontier before) (incumbent_of_sufficient reached)
    simp [none] at later

/-- A search that is exhausted without incumbent and without failure has found every node that is not
split to have no solution. -/
theorem infeasible_of_exhausted (last : k.rounds roundLimit .start = (s, .exhausted))
    (none : s.incumbent = none) (failures : s.statistics.numericalFailures = 0)
    (here : s.tree.nodes[i]? = some x) :
    (x.state = .branched ∧ ∃ objective values,
        (k.solver (s.tree.bounds i k.box)).verdict = .optimal objective values) ∨
      (x.state = .infeasible ∧ (k.solver (s.tree.bounds i k.box)).verdict = .infeasible) := by
  have reached := reached_of_rounds last
  by_cases split : x.state = .branched
  · exact .inl ⟨split, (settled_of_reached reached here).branched split⟩
  · obtain ⟨y, hy, ended⟩ := ended_of_exhausted last here split
    obtain rfl := Option.some.inj (here.symm.trans hy)
    -- of the ways to end, all but one leave an incumbent or a failure behind
    rcases ended with integral | infeasible | failed | dominated
    · have found : s.incumbent.isSome = true := (settled_of_reached reached here).integral integral
      simp [none] at found
    · exact .inr infeasible
    · have failed := failed.2.2
      omega
    · obtain ⟨-, f₁, f₂, x₁, i, before, step, after, -, -, -, found, -⟩ := dominated
      have later := incumbent_of_reach (Relation.ReflTransGen.head step after) before.frontier
        (by rw [found]; rfl)
      simp [none] at later

/-- A node that is given up at the end could not improve on the incumbent, if the answer is
optimal. -/
theorem canImprove_of_terminal [Readable L K] {stop : Stop} (last : k.rounds roundLimit .start = (s, stop))
    (stopped : stop = .exhausted ∨ stop = .sufficient ∧
      ∀ b, s.queue.lowestBound = some b → k.canImprove s.incumbent b = false)
    (here : s.abandon.tree.nodes[i]? = some x) (terminal : x.state = .terminal) :
    k.canImprove s.incumbent x.bound = false := by
  have reached := reached_of_rounds last
  obtain ⟨unbounded, empty⟩ := rounds_stop last (by rcases stopped with rfl | ⟨rfl, -⟩ <;> simp)
  rw [Search.nodes_abandon] at here
  split at here
  · rename_i waits
    obtain ⟨e, he, rfl⟩ := List.mem_map.mp waits
    rcases stopped with rfl | ⟨-, rest⟩
    · rw [Queue.toList_eq_nil_iff.mpr (empty rfl)] at he
      cases he
    · obtain ⟨y, hy, entry, -⟩ := reached.frontier.entries e he
      have tree : s.tree.nodes[e.node]? = some y := hy
      rw [tree] at here
      cases here
      have worse := canImprove_of_lowest he rest
      rwa [entry] at worse
  · -- the root was given up because it is unbounded, and then that is the reason to stop
    have account := account_of_reached reached here
    simp only [Account, terminal] at account
    rcases stopped with rfl | ⟨rfl, -⟩ <;> cases unbounded.mpr account

/-- The search finds the problem unbounded exactly when the root was explored and is unbounded. -/
theorem unbounded_iff {stop : Stop} (last : k.rounds roundLimit .start = (s, stop))
    (ended : stop ≠ .outOfRounds) :
    stop = .unbounded ↔
      0 < s.statistics.nodesExplored ∧ (k.solver k.box).verdict = .unbounded := by
  have reached := reached_of_rounds last
  obtain ⟨size, -⟩ := root_of_reached reached
  have here : (⟨s, []⟩ : Moment K L n).node? 0 = some s.tree.nodes[0] :=
    Array.getElem?_eq_getElem size
  have known := rootKnown_of_reached reached here
  have waits : s.statistics.nodesExplored = 0 ↔ s.tree.nodes[0].state = .pending := by
    have pending := reached.frontier.pending 0
    rw [Moment.waiting, List.append_nil] at pending
    rw [explored_of_reached reached, pending, here]
    simp
  rw [(rounds_stop last ended).1, Nat.pos_iff_ne_zero]
  by_cases pending : s.tree.nodes[0].state = .pending
  · refine iff_of_false ?_ fun h => h.1 (waits.mpr pending)
    have bounded : s.rootUnbounded = false := (known.alone pending).2.2
    simp [bounded]
  · rw [ne_eq, waits, and_iff_right pending]
    exact known.unbounded pending

/-- Every node was split, or it was found to have no solution. None was given up, and the relaxation of
none failed; where rounded values could not be solved again, the node was split. -/
def Refuted (k : SearchTask K L n m) (s : Search K L n) : Prop :=
  ∀ i x, s.tree.nodes[i]? = some x →
    (x.state = .branched ∧ ∃ objective values,
      (k.solver (s.tree.bounds i k.box)).verdict = .optimal objective values) ∨
    (x.state = .infeasible ∧ (k.solver (s.tree.bounds i k.box)).verdict = .infeasible)

section Points

variable [Readable L K]

/-- If a node without solution has no point of some kind, a refuted problem has none with integers in
the integer columns. -/
theorem Refuted.not_keeps {f : Moment K L n} (refuted : k.Refuted f.search) (reached : k.Reached f)
    {keeps : Vector Rat n → Prop}
    (right : ∀ box, (k.solver box).verdict = .infeasible → ∀ z, box.reading.Holds z → ¬ keeps z)
    {z : Vector Rat n} (inside : k.relaxation.box.reading.Holds z)
    (integral : ∀ j, k.isInteger j = true → ∃ i : Int, z[j] = i) : ¬ keeps z := by
  intro kept
  obtain ⟨i, x, here, unsplit, leaf⟩ := exists_leaf_of_reached (P := fun _ => True)
    (fun _ _ => trivial) integral (Box.holdsOn_true.mpr (holds_box inside integral)) reached
  rcases refuted i x here with split | infeasible
  · exact unsplit split.1
  · exact right _ infeasible.2 z (Box.holdsOn_true.mp leaf) kept

end Points

theorem refuted_abandon (empty : s.queue.isEmpty = true) (refuted : k.Refuted s) :
    k.Refuted s.abandon := by
  intro i x here
  rw [Search.nodes_abandon, Queue.toList_eq_nil_iff.mpr empty] at here
  rw [Search.bounds_abandon]
  exact refuted i x here

/-- What each answer of a search that ends means. *Infeasible*: there is no incumbent, and every node
was split or has no solution, so that the problem has none. *Numerical failure*: the search was
exhausted without incumbent, and failures are counted. *Time limit*: there is no incumbent, and a
limit was reached. *Optimal*: there is an incumbent, no failure is counted, and no node that was given
up could improve on the incumbent. *Unbounded*: the root was explored, and is unbounded. And a result
has a solution, with one value for each column, exactly when its status promises one. -/
theorem status_sound [Readable L K] (k : SearchTask K L n m) (names : List String) {roundLimit : Nat}
    (ended : (k.rounds roundLimit .start).2 ≠ .outOfRounds) :
    let last := k.rounds roundLimit .start
    let s := (k.run roundLimit).1
    let status := (k.run roundLimit).2
    (status = .infeasible →
      s.incumbent = none ∧ s.statistics.numericalFailures = 0 ∧ k.Refuted s ∧
      ∀ keeps : Vector Rat n → Prop,
        (∀ box, (k.solver box).verdict = .infeasible → ∀ z, box.reading.Holds z → ¬ keeps z) →
        ∀ z, k.relaxation.box.reading.Holds z →
          (∀ j, k.isInteger j = true → ∃ i : Int, z[j] = i) → ¬ keeps z) ∧
    (status = .numericalFailure →
      last.2 = .exhausted ∧ last.1.queue.isEmpty = true ∧ s.incumbent = none ∧
        0 < s.statistics.numericalFailures) ∧
    (status = .timeLimit →
      s.incumbent = none ∧ ∃ f, k.Reached f ∧ k.limitReached f.search = some .aborted ∧
        k.Reach f ⟨last.1, []⟩) ∧
    (status = .optimal →
      s.incumbent.isSome = true ∧ s.statistics.numericalFailures = 0 ∧
      ∀ (i : Nat) (x : Node L n), s.tree.nodes[i]? = some x → x.state = .terminal →
        k.canImprove s.incumbent x.bound = false) ∧
    (status = .unbounded ↔
      0 < s.statistics.nodesExplored ∧ (k.solver k.box).verdict = .unbounded) ∧
    ((k.result names).status.hasSolution = true →
      (k.result names).objective.isSome = true ∧ (k.result names).values.length = n) ∧
    ((k.result names).status.hasSolution = false →
      (k.result names).objective = none ∧ (k.result names).values = []) := by
  intro last s status
  have rounds : k.rounds roundLimit .start = (last.1, last.2) := rfl
  have reached := reached_of_rounds rounds
  have empty (stopped : last.2 = .exhausted) : last.1.queue.isEmpty = true :=
    (rounds_stop rounds ended).2 stopped
  have answer : k.Answer last.1.abandon last.2 last.1.queue.lowestBound status :=
    k.answer_run roundLimit
  obtain ⟨solved, unsolved⟩ := k.result_solution names
  refine ⟨fun h => ?_, fun h => ?_, fun h => ?_, fun h => ?_, ?_, solved, unsolved⟩
  · rw [h] at answer
    cases answer with
    | infeasible none failures stopped =>
      rw [stopped] at rounds
      have refuted : k.Refuted last.1 := fun i x here =>
        infeasible_of_exhausted rounds none failures here
      exact ⟨none, failures, refuted_abandon (empty stopped) refuted,
        fun _ right _ inside integral => refuted.not_keeps reached right inside integral⟩
  · rw [h] at answer
    cases answer with
    | numericalFailure none failures stopped => exact ⟨stopped, empty stopped, none, failures⟩
  · rw [h] at answer
    cases answer with
    | timeLimit none unexhausted bounded =>
      have limit : last.2 = .aborted ∨ last.2 = .sufficient := by
        cases hstop : last.2 <;> simp_all
      exact ⟨none, aborted_of_rounds (s := last.1) rounds none limit⟩
  · rw [h] at answer
    cases answer with
    | optimal found failures stopped =>
      exact ⟨found, failures, fun i x here terminal =>
        canImprove_of_terminal (s := last.1) rounds stopped here terminal⟩
  · exact answer.unbounded_iff.trans (unbounded_iff (s := last.1) rounds ended)

end End

/-- Twice an integer from 0 to 3 is 1. -/
def oddTwice : SearchTask Float Float 1 1 :=
  Relaxation.task { halves.relaxation with rows := ⟨.replicate 1 1, .replicate 1 1⟩ } .standard
    fun _ => ⟨0⟩

theorem status_sound_oddTwice :
    (oddTwice.rounds 3 .start).2 ≠ .outOfRounds ∧ (oddTwice.run 3).2 = .infeasible ∧
    (oddTwice.run 3).1.tree.nodes.size = 3 ∧ oddTwice.Refuted (oddTwice.run 3).1 ∧
    (oddTwice.result ["x"]).objective = none ∧ (oddTwice.result ["x"]).values = [] := by
  have ended : (oddTwice.rounds 3 .start).2 ≠ .outOfRounds := by decide +kernel
  have infeasible : (oddTwice.run 3).2 = .infeasible := by decide +kernel
  have unsolved : (oddTwice.result ["x"]).status.hasSolution = false := by decide +kernel
  obtain ⟨sound, -, -, -, -, -, result⟩ := status_sound oddTwice ["x"] ended
  exact ⟨ended, infeasible, by decide +kernel, (sound infeasible).2.2.1, result unsolved⟩

end SearchTask

end Milp
