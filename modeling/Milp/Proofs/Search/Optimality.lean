import Milp.Proofs.Search.Cover
import Milp.Proofs.Search.Incumbent
import Milp.Proofs.Simplex.Columns

/-!
# Optimal answers

What an optimal answer says about the points that satisfy a problem, when the relaxations are
answered exactly. `SearchTask.Hidden` names the points that the search passes over: they lie in a
node that was closed at rounded values, with other integers than those.

Results:
1. `judged_of_reached`: at every moment the bound of a node is below the cost of its points, and the points
   of a closed node cannot improve on the incumbent, or are hidden.
2. `optimal_up_to_hidden`: with an optimal answer, a point that is better than the incumbent by more
   than the margin is hidden.
-/

namespace Milp

variable {n m : Nat}

namespace SearchTask

variable {k : SearchTask Rat ExtendedRat n m} {f f' : Moment Rat ExtendedRat n}
  {z : Vector Rat n}

/-! ## Points -/

/-- A point satisfies the rows, lies within the bounds of all columns and has integers where they are
required. -/
structure Feasible (k : SearchTask Rat ExtendedRat n m) (z : Vector Rat n) : Prop where
  rows : k.relaxation.Satisfies z
  bounds : k.relaxation.box.Holds z
  integral : ∀ j, k.isInteger j = true → ∃ i : Int, z[j] = i

/-- The cost of a point. -/
def cost (k : SearchTask Rat ExtendedRat n m) (z : Vector Rat n) : Rat :=
  k.relaxation.costOf z.toList

/-- A node is closed at rounded values although its relaxation has other integers for a point: the
values of the relaxation are integral up to the tolerance and no integers. -/
def RoundedAway (k : SearchTask Rat ExtendedRat n m) (t : Tree ExtendedRat n) (z : Vector Rat n)
    (i : Nat) : Prop :=
  ∃ objective values, (k.solver (t.bounds i k.box)).verdict = .optimal objective values ∧
    k.branchingColumn values = none ∧ k.furthestColumn values ≠ none ∧
    ∃ j, k.isInteger j = true ∧ z[j] ≠ Scalar.round values[j]

/-- A point lies in a node that is closed at rounded values with other integers. -/
def Hidden (k : SearchTask Rat ExtendedRat n m) (t : Tree ExtendedRat n) (z : Vector Rat n) : Prop :=
  ∃ i x, t.nodes[i]? = some x ∧ x.state = .integral ∧ (t.bounds i k.box).Holds z ∧
    k.RoundedAway t z i

/-- Moving the bounds of integer columns inwards loses no point. -/
theorem Feasible.inside (h : k.Feasible z) : k.box.Holds z := by
  have inside := holds_box (by rw [Box.reading_exact]; exact h.bounds) h.integral
  rwa [Box.reading_exact] at inside

/-! ## Exact relaxations -/

section Exact

variable (exact : k.solver.Exact k.relaxation) {box : Box ExtendedRat n} {objective : Rat}
  {values : Vector Rat n}

include exact

theorem boundOf_eq (optimal : (k.solver box).verdict = .optimal objective values) :
    (k.boundOf objective : ExtendedRat) = .finite (k.cost values) := by
  unfold boundOf
  rw [exact.objective box objective values optimal]
  exact congrArg _ (Relaxation.toCost_toObjective _)

/-- An optimum bounds the cost of the points of its box. -/
theorem boundOf_le (optimal : (k.solver box).verdict = .optimal objective values)
    (inside : box.Holds z) (rows : k.relaxation.Satisfies z) :
    k.boundOf objective ≤ ExtendedRat.finite (k.cost z) := by
  rw [boundOf_eq exact optimal, ExtendedRat.finite_le_finite]
  exact exact.least box objective values optimal z inside rows

end Exact

/-! ## Judged nodes -/

/-- What a search knows of the points of a node: none costs less than the bound, a dominated node's
bound cannot improve on the incumbent, and neither can a point of a node closed by a solution, unless
it was rounded away. -/
structure JudgedAt (k : SearchTask Rat ExtendedRat n m) (s : Search Rat ExtendedRat n) (i : Nat)
    (x : Node ExtendedRat n) : Prop where
  bound : ∀ z, (s.tree.bounds i k.box).Holds z → k.relaxation.Satisfies z →
    x.bound ≤ .finite (k.cost z)
  dominated : x.state = .dominated → k.canImprove s.incumbent x.bound = false
  integral : x.state = .integral → ∀ z, (s.tree.bounds i k.box).Holds z →
    k.relaxation.Satisfies z →
    k.canImprove s.incumbent (.finite (k.cost z)) = false ∨ k.RoundedAway s.tree z i

/-- Everything that a search knows of its nodes is right. -/
def Judged (k : SearchTask Rat ExtendedRat n m) (f : Moment Rat ExtendedRat n) : Prop :=
  ∀ i x, f.node? i = some x → k.JudgedAt f.search i x

variable {s s' : Search Rat ExtendedRat n} {i id : Nat} {x : Node ExtendedRat n}
  {bound : ExtendedRat} {state : NodeState} {incumbent : Option (Incumbent Rat n)}

/-- A judgement stays right while the incumbent gets better. -/
theorem JudgedAt.later (h : k.JudgedAt s i x) (bounds : s'.tree.bounds i k.box = s.tree.bounds i k.box)
    (better : ∀ b, k.canImprove s.incumbent b = false → k.canImprove s'.incumbent b = false) :
    k.JudgedAt s' i x := by
  refine ⟨?_, fun hx => better _ (h.dominated hx), ?_⟩
  · rw [bounds]
    exact h.bound
  · intro hx z inside rows
    rw [bounds] at inside
    rcases h.integral hx z inside rows with worse | away
    · exact .inl (better _ worse)
    · refine .inr ?_
      unfold RoundedAway
      rwa [bounds]

/-- Whatever closes a node leaves an incumbent that is no worse. -/
theorem Reason.better (modest : k.ModestGap) (why : Reason k s id x bound state incumbent)
    {b : ExtendedRat} (worse : k.canImprove s.incumbent b = false) :
    k.canImprove incumbent b = false := by
  cases why with
  | stale => exact worse
  | processed why =>
    generalize (k.solver (s.tree.bounds id k.box)).verdict = verdict at why
    cases why with
    | infeasible | rootUnbounded | unbounded | failed | dominated => exact worse
    | settled | rounded => exact canImprove_offered modest worse

/-- What cannot improve on the incumbent cannot improve on a later one. -/
theorem Change.better (modest : k.ModestGap) (change : k.Change f f') {b : ExtendedRat}
    (worse : k.canImprove f.search.incumbent b = false) :
    k.canImprove f'.search.incumbent b = false := by
  cases change with
  | kept tree incumbent => rw [incumbent, worse]
  | closed here pending why after =>
    rw [after.incumbent]
    exact why.better modest worse
  | split here pending optimal fractional after => rw [after.incumbent, worse]

/-- A node is closed as dominated by the incumbent that the search goes on with. -/
theorem Reason.dominated (why : Reason k s id x bound state incumbent) (closed : state = .dominated) :
    k.canImprove incumbent bound = false := by
  cases why with
  | stale worse => exact worse
  | processed why =>
    generalize (k.solver (s.tree.bounds id k.box)).verdict = verdict at why
    cases why with
    | infeasible | rootUnbounded | unbounded | failed | settled | rounded => cases closed
    | dominated worse => exact worse

section Steps

variable (exact : k.solver.Exact k.relaxation)

include exact

/-- Nothing improves on the incumbent in a node that an integral relaxation settles. -/
theorem canImprove_of_settled {box : Box ExtendedRat n} {objective : Rat} {values : Vector Rat n}
    (optimal : (k.solver box).verdict = .optimal objective values)
    (snapped : k.snap values = values) (inside : box.Holds z)
    (rows : k.relaxation.Satisfies z) :
    k.canImprove (k.offered incumbent values) (.finite (k.cost z)) = false := by
  refine canImprove_of_offered ?_
  rw [snapped]
  exact exact.least box objective values optimal z inside rows

/-- The bound that a node is closed with is below the cost of its points. -/
theorem Reason.bound_le (h : k.JudgedAt s id x) (why : Reason k s id x bound state incumbent)
    (inside : (s.tree.bounds id k.box).Holds z) (rows : k.relaxation.Satisfies z) :
    bound ≤ .finite (k.cost z) := by
  cases why with
  | stale => exact h.bound z inside rows
  | processed why =>
    generalize hv : (k.solver (s.tree.bounds id k.box)).verdict = verdict at why
    cases why with
    | infeasible | rootUnbounded | unbounded | failed => exact h.bound z inside rows
    | dominated | settled | rounded => exact boundOf_le exact hv inside rows

/-- A node that is closed by a solution has no point that improves on the incumbent, save those that
are rounded away. -/
theorem Reason.integral (why : Reason k s id x bound state incumbent) (closed : state = .integral)
    (inside : (s.tree.bounds id k.box).Holds z) (rows : k.relaxation.Satisfies z) :
    k.canImprove incumbent (.finite (k.cost z)) = false ∨ k.RoundedAway s.tree z id := by
  cases why with
  | stale => cases closed
  | processed why =>
    generalize hv : (k.solver (s.tree.bounds id k.box)).verdict = verdict at why
    cases why with
    | infeasible | rootUnbounded | unbounded | failed | dominated => cases closed
    | settled settled =>
      exact .inl (canImprove_of_settled exact hv
        (snap_of_furthestColumn_eq_none (stands_exact.mpr rfl) settled) inside rows)
    | @rounded objective values j objective' values' tolerated away again =>
      -- a point with the rounded integers is in the box that was solved again
      by_cases same : ∀ j, k.isInteger j = true → z[j] = Scalar.round values[j]
      · have stands : Stands ExtendedRat values values := stands_exact.mpr rfl
        have kept : (s.tree.bounds id k.box).reading.Holds z := by rwa [Box.reading_exact]
        have fixed : (k.fixAt (s.tree.bounds id k.box) values).reading.Holds z :=
          holds_fixAt stands kept same
        have answered : (k.fixAt (s.tree.bounds id k.box) values).reading.Holds values' := by
          rw [Box.reading_exact]
          exact exact.holds _ _ _ again
        have snapped : k.snap values' = values' :=
          snap_of_holds_fixAt stands (stands_exact.mpr rfl) answered
        rw [Box.reading_exact] at fixed
        exact .inl (canImprove_of_settled exact again snapped fixed rows)
      · push Not at same
        exact .inr ⟨objective, values, hv, tolerated, by simp [away], same⟩

/-- The nodes of a split are judged by the relaxation of the one that is split. -/
theorem judgedAt_of_split {objective : Rat} {values : Vector Rat n}
    (optimal : (k.solver (s.tree.bounds id k.box)).verdict = .optimal objective values)
    (sub : ∀ z, (s'.tree.bounds i k.box).Holds z → (s.tree.bounds id k.box).Holds z)
    (hbound : x.bound = k.boundOf objective) (dominated : x.state ≠ .dominated)
    (integral : x.state ≠ .integral) : k.JudgedAt s' i x where
  bound z inside rows := by
    rw [hbound]
    exact boundOf_le exact optimal (sub z inside) rows
  dominated h := absurd h dominated
  integral h := absurd h integral

/-- A node that a change closes is judged right. -/
theorem JudgedAt.closed (h : k.JudgedAt s id x) (why : Reason k s id x bound state incumbent)
    (after : Closed s id bound state incumbent s')
    (bounds : s'.tree.bounds id k.box = s.tree.bounds id k.box) :
    k.JudgedAt s' id { x with bound, state } where
  bound z inside rows := by
    rw [bounds] at inside
    exact why.bound_le exact h inside rows
  dominated closed := by
    rw [after.incumbent]
    exact why.dominated closed
  integral closed z inside rows := by
    rw [bounds] at inside
    rw [after.incumbent, RoundedAway, bounds]
    exact why.integral exact closed inside rows

/-- Whatever a change makes of a node, it is judged right. -/
theorem Judged.next (modest : k.ModestGap) (h : k.Judged f) (change : k.Change f f')
    (became : k.Became f f' i x) : k.JudgedAt f'.search i x := by
  cases became with
  | kept old =>
    exact (h i x old).later (change.bounds (Tree.lt_size_of_some old) k.box) fun b worse =>
      change.better modest worse
  | @closed y bound state incumbent old pending why after =>
    exact (h i y old).closed exact why after (change.bounds (Tree.lt_size_of_some old) k.box)
  | @side id y objective values j c here optimal fractional after new =>
    have hid : id < f.search.tree.nodes.size := Tree.lt_size_of_some here
    refine judgedAt_of_split exact optimal ?_ rfl (by simp [Node.fresh]) (by simp [Node.fresh])
    intro z inside
    rw [← Box.holdsOn_true, after.tree, ← Box.reading_exact (Tree.bounds _ _ _)] at inside
    rw [← Box.holdsOn_true, ← Box.reading_exact (Tree.bounds _ _ _)]
    rcases new with ⟨rfl, -⟩ | ⟨rfl, -⟩
    · exact ((Tree.holdsOn_bounds_split_atMost hid).mp inside).1
    · exact ((Tree.holdsOn_bounds_split_atLeast hid).mp inside).1
  | split old pending optimal fractional after =>
    refine judgedAt_of_split exact optimal ?_ rfl (by simp) (by simp)
    intro z inside
    rwa [change.bounds (Tree.lt_size_of_some old)] at inside

theorem judged_of_reached (modest : k.ModestGap) (reached : k.Reached f) : k.Judged f := by
  intro i x here
  refine reached.node_invariant (motive := fun f => k.JudgedAt f.search) ?_ ?_ here
  · intro x here
    cases here
    exact ⟨fun z _ _ => ExtendedRat.below_le _, (nomatch ·), (nomatch ·)⟩
  · exact fun f f' i x ih change became => Judged.next exact modest ih change became

end Steps

/-! ## The end -/

/-- An optimal answer has an incumbent, no failure is counted, and nothing that was given up could
improve on the incumbent. -/
theorem status_optimal {stop : Stop} {remaining : Option ExtendedRat}
    (h : k.status s stop remaining = .optimal) :
    (∃ i, s.incumbent = some i) ∧ s.statistics.numericalFailures = 0 ∧
      (stop = .exhausted ∨
        stop = .sufficient ∧ ∀ b, remaining = some b → k.canImprove s.incumbent b = false) := by
  unfold status at h
  dsimp only at h
  split at h
  · cases h
  · rename_i i hi
    split_ifs at h with failed
    exact ⟨⟨i, hi⟩, Nat.eq_zero_of_not_pos failed, .inl rfl⟩
  · split_ifs at h
  · rename_i i hi
    split_ifs at h with proven
    simp only [Bool.and_eq_true, Bool.not_eq_true', decide_eq_false_iff_not] at proven
    refine ⟨⟨i, hi⟩, Nat.eq_zero_of_not_pos proven.2, .inr ⟨rfl, ?_⟩⟩
    intro b hb
    simpa [hb] using proven.1
  · cases h
  · cases h

theorem canImprove_mono {b b' : ExtendedRat} (above : b ≤ b')
    (worse : k.canImprove incumbent b = false) : k.canImprove incumbent b' = false := by
  cases incumbent with
  | none => simp [canImprove] at worse
  | some i =>
    rw [canImprove_some] at worse ⊢
    exact worse.trans above

theorem hidden_abandon {batch : List Nat}
    (frontier : (⟨s, batch⟩ : Moment Rat ExtendedRat n).Frontier)
    (here : s.tree.nodes[i]? = some x) (integral : x.state = .integral)
    (inside : (s.tree.bounds i k.box).Holds z) (away : k.RoundedAway s.tree z i) :
    k.Hidden s.abandon.tree z := by
  have settled : i ∉ s.queue.toList.map (·.node) := by
    intro waits
    obtain ⟨y, hy, pending⟩ := frontier.mem_of_waits (List.mem_append_left _ waits)
    obtain rfl : x = y := Option.some.inj (here.symm.trans hy)
    simp [integral] at pending
  refine ⟨i, x, ?_, integral, ?_, ?_⟩
  · rw [Search.nodes_abandon, if_neg settled, here]
  · rwa [Search.bounds_abandon]
  · unfold RoundedAway
    rwa [Search.bounds_abandon]

/-- Where a search stops with an optimal answer, a point that satisfies the problem cannot improve on
the incumbent, or it is hidden. -/
theorem dismissed_or_hidden (exact : k.solver.Exact k.relaxation) (modest : k.ModestGap)
    {left : Nat} {stop : Stop} (last : k.rounds left .start = (s, stop))
    (failures : s.statistics.numericalFailures = 0)
    (closed : stop = .exhausted ∨ stop = .sufficient ∧
      ∀ b, s.queue.lowestBound = some b → k.canImprove s.incumbent b = false)
    (feasible : k.Feasible z) :
    k.canImprove s.incumbent (.finite (k.cost z)) = false ∨ k.Hidden s.abandon.tree z := by
  have reached : k.Reached ⟨s, []⟩ := by
    have reached := k.rounds_reached left
    rwa [last] at reached
  obtain ⟨stopped, empty⟩ := rounds_stop last (by rcases closed with rfl | ⟨rfl, -⟩ <;> simp)
  obtain ⟨i, x, here, unsplit, inside⟩ := exists_leaf_of_reached (P := fun _ => True)
    (fun _ _ => trivial) feasible.integral
    (by rw [Box.reading_exact]; exact Box.holdsOn_true.mpr feasible.inside) reached
  rw [Box.reading_exact, Box.holdsOn_true] at inside
  have judged := judged_of_reached exact modest reached i x here
  have bound := judged.bound z inside feasible.rows
  have account := account_of_reached reached here
  unfold Account at account
  -- the point is in one node that is not split: what became of that node decides
  cases hx : x.state with
  | pending =>
    have waits := (reached.frontier.pending i).mpr ⟨x, here, hx⟩
    simp only [Moment.waiting, List.append_nil, List.mem_map] at waits
    obtain ⟨e, he, rfl⟩ := waits
    rcases closed with rfl | ⟨rfl, rest⟩
    · rw [Queue.toList_eq_nil_iff.mpr (empty rfl)] at he
      cases he
    · -- the search stopped early, because the lowest bound of the queue cannot improve
      obtain ⟨y, hy, entry, -⟩ := reached.frontier.entries e he
      obtain rfl : x = y := Option.some.inj (here.symm.trans hy)
      have worse := canImprove_of_lowest he rest
      rw [entry] at worse
      exact .inl (canImprove_mono bound worse)
  | relaxed => simp [hx] at account
  | branched => exact absurd hx unsplit
  | integral =>
    rcases judged.integral hx z inside feasible.rows with worse | away
    · exact .inl worse
    · exact .inr (hidden_abandon reached.frontier here hx inside away)
  | dominated => exact .inl (canImprove_mono bound (judged.dominated hx))
  | infeasible =>
    simp only [hx] at account
    exact absurd feasible.rows (exact.infeasible _ account z inside)
  | failed =>
    simp only [hx] at account
    omega
  | terminal =>
    simp only [hx] at account
    rcases closed with rfl | ⟨rfl, -⟩ <;> cases stopped.mpr account

/-- With an optimal answer no point that satisfies the problem is better than the incumbent by more
than the margin, save those that are hidden in a node that was closed at rounded values. Optimal
means optimal exactly when none of these is better. -/
theorem optimal_up_to_hidden (k : SearchTask Rat ExtendedRat n m)
    (exact : k.solver.Exact k.relaxation) (modest : k.ModestGap) (roundLimit : Nat)
    (optimal : (k.run roundLimit).2 = .optimal) :
    ∃ i, (k.run roundLimit).1.incumbent = some i ∧
      (∀ z, k.Feasible z → k.cost z < i.cost - k.margin i.cost →
        k.Hidden (k.run roundLimit).1.tree z) ∧
      ((∀ z, k.Feasible z → i.cost - k.margin i.cost ≤ k.cost z) ↔
        ∀ z, k.Feasible z → k.Hidden (k.run roundLimit).1.tree z →
          i.cost - k.margin i.cost ≤ k.cost z) := by
  obtain ⟨⟨i, hi⟩, failures, closed⟩ := status_optimal optimal
  have hidden (z : Vector Rat n) (feasible : k.Feasible z) :
      i.cost - k.margin i.cost ≤ k.cost z ∨ k.Hidden (k.run roundLimit).1.tree z := by
    rcases dismissed_or_hidden exact modest rfl failures closed feasible with worse | hidden
    · refine .inl ?_
      rwa [show (k.rounds roundLimit .start).1.incumbent = some i from hi, canImprove_some,
        ExtendedRat.finite_le_finite] at worse
    · exact .inr hidden
  refine ⟨i, hi, ?_, fun h z feasible _ => h z feasible, ?_⟩
  · intro z feasible better
    exact (hidden z feasible).resolve_left (not_le.mpr better)
  · intro h z feasible
    exact (hidden z feasible).elim id (h z feasible)

/-- `10⁹ x + y ≥ 2000000400` for an integer `x` from 0 to 10 and some `y ≥ 0`, with `x + y` as the
cost. The relaxation has `x = 2.0000004`, which is two up to the tolerance; but with `x = 2` the rest
has to come from `y`. The relaxations are answered at the two boxes that the search asks about. -/
def almostTwo : SearchTask Rat ExtendedRat 2 1 where
  relaxation :=
    { columns := .ofFn ![[(Fin.last 0, 1000000000)], [(Fin.last 0, 1)]]
      rows := ⟨.replicate 1 (.finite 2000000400), .replicate 1 .above⟩
      cost := .replicate 2 1
      box := ⟨.replicate 2 (.finite 0), .ofFn ![.finite 10, .above]⟩
      integer := .ofFn ![true, false]
      direction := .minimise
      constant := 0 }
  config := .standard
  solver box :=
    if box = ⟨.replicate 2 (.finite 0), .ofFn ![.finite 10, .above]⟩ then
      ⟨.optimal 2.0000004 (.ofFn ![2.0000004, 0]), 1⟩
    else if box = ⟨.ofFn ![.finite 2, .finite 0], .ofFn ![.finite 2, .above]⟩ then
      ⟨.optimal 402 (.ofFn ![2, 400]), 1⟩
    else ⟨.failed, 0⟩
  clock _ := ⟨0⟩

theorem almostTwo_row {z : Vector Rat 2} (rows : almostTwo.relaxation.Satisfies z) :
    (2000000400 : Rat) ≤ (1000000000 : Rat) * z[0] + z[1] := by
  have row := (rows 0).1
  rw [SimplexState.activities_eq_sum, Fin.sum_univ_two] at row
  simpa [almostTwo] using row

theorem almostTwo_cost (z : Vector Rat 2) : almostTwo.cost z = z[0] + z[1] := by
  rw [cost, Relaxation.costOf_eq_sum, Fin.sum_univ_two]
  simp [almostTwo]

/-- The optimum where `x` may be anything. -/
theorem almostTwo_least {z : Vector Rat 2} (rows : almostTwo.relaxation.Satisfies z)
    (rest : (0 : Rat) ≤ z[1]) : 2.0000004 ≤ almostTwo.cost z := by
  have row := almostTwo_row rows
  rw [almostTwo_cost]
  linarith

/-- The optimum where `x` is two. -/
theorem almostTwo_least_at_two {z : Vector Rat 2} (rows : almostTwo.relaxation.Satisfies z)
    (two : z[0] = 2) : 402 ≤ almostTwo.cost z := by
  have row := almostTwo_row rows
  rw [almostTwo_cost]
  linarith

theorem almostTwo_answers {box : Box ExtendedRat 2} {objective : Rat} {values : Vector Rat 2}
    (optimal : (almostTwo.solver box).verdict = .optimal objective values) :
    (box = ⟨#v[.finite 0, .finite 0], #v[.finite 10, .above]⟩ ∧ objective = 2.0000004 ∧
      values = #v[2.0000004, 0]) ∨
    (box = ⟨#v[.finite 2, .finite 0], #v[.finite 2, .above]⟩ ∧ objective = 402 ∧
      values = #v[2, 400]) := by
  simp only [almostTwo] at optimal
  split_ifs at optimal with first second
  · cases optimal
    exact .inl ⟨first, rfl, rfl⟩
  · cases optimal
    exact .inr ⟨second, rfl, rfl⟩

theorem almostTwo_exact : almostTwo.solver.Exact almostTwo.relaxation where
  objective box objective values optimal := by
    rcases almostTwo_answers optimal with ⟨-, rfl, rfl⟩ | ⟨-, rfl, rfl⟩ <;> decide +kernel
  holds box objective values optimal := by
    rcases almostTwo_answers optimal with ⟨rfl, -, rfl⟩ | ⟨rfl, -, rfl⟩ <;> decide +kernel
  satisfies box objective values optimal := by
    rcases almostTwo_answers optimal with ⟨-, -, rfl⟩ | ⟨-, -, rfl⟩ <;> decide +kernel
  least box objective values optimal z inside rows := by
    rcases almostTwo_answers optimal with ⟨rfl, -, rfl⟩ | ⟨rfl, -, rfl⟩
    · have rest : (0 : Rat) ≤ z[1] := by simpa using (inside 1).1
      have optimum : almostTwo.cost #v[2.0000004, 0] = 2.0000004 := by decide +kernel
      exact optimum.le.trans (almostTwo_least rows rest)
    · have lower : (2 : Rat) ≤ z[0] := by simpa using (inside 0).1
      have upper : z[0] ≤ (2 : Rat) := by simpa using (inside 0).2
      have optimum : almostTwo.cost #v[2, 400] = 402 := by decide +kernel
      exact optimum.le.trans (almostTwo_least_at_two rows (le_antisymm upper lower))
  infeasible box verdict := by
    simp only [almostTwo] at verdict
    split_ifs at verdict

/-- Optimal may not mean optimal: the answer is 402, and the point of cost 3 is hidden. -/
theorem optimal_up_to_hidden_almostTwo :
    almostTwo.solver.Exact almostTwo.relaxation ∧ almostTwo.ModestGap ∧
    (almostTwo.run 2).2 = .optimal ∧ almostTwo.Feasible #v[3, 0] ∧ almostTwo.cost #v[3, 0] = 3 ∧
    (∃ i, (almostTwo.run 2).1.incumbent = some i ∧ i.cost = 402) ∧
    almostTwo.Hidden (almostTwo.run 2).1.tree #v[3, 0] := by
  have modest : almostTwo.ModestGap := fun _ none => nomatch none
  have optimal : (almostTwo.run 2).2 = .optimal := by decide +kernel
  have feasible : almostTwo.Feasible #v[3, 0] :=
    { rows := by decide +kernel
      bounds := by decide +kernel
      integral := fun j integer => by
        have first : j = 0 := by revert j; decide +kernel
        exact ⟨3, by rw [first]; rfl⟩ }
  have cost : almostTwo.cost #v[3, 0] = 3 := by decide +kernel
  obtain ⟨i, incumbent, hidden, -⟩ := optimal_up_to_hidden almostTwo almostTwo_exact modest 2 optimal
  have hi : (almostTwo.run 2).1.incumbent.map (·.cost) = some 402 := by decide +kernel
  have worse : i.cost = 402 := by simpa [incumbent] using hi
  have margin : almostTwo.margin 402 < 1 := by decide +kernel
  refine ⟨almostTwo_exact, modest, optimal, feasible, cost, ⟨i, incumbent, worse⟩,
    hidden _ feasible ?_⟩
  rw [cost, worse]
  linarith

end SearchTask

end Milp
