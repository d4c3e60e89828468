import Milp.Proofs.Binary64.Reading
import Milp.Proofs.Search.Decision
import Milp.Proofs.Search.History
import Milp.Proofs.Solve.Within
import Milp.Proofs.Validation.Report

/-!
# What becomes of values that are nearly integers

A solution is rounded before it is kept, and values that are integers up to the tolerance are solved
for once more with the integer columns fixed at rounded values. The second step leaves nothing for the
first one to do: whatever closes a node is an answer of the solver and stays as it is.

Results:
1. `answers_of_acceptance`: values that are accepted answer for the bounds of their node.
2. `accept_of_split`, `furthestColumn_spec`: values that are not accepted split the node at the furthest
   column, and no integer column is farther from an integer.
3. `settled_as_answered`: what nodes are closed with, what is kept of it, and where a node is split
   instead.
4. `Settles.toCost`, `cost_of_answer_ne`: the cost that is kept is recovered from the objective of the
   answer in exact arithmetic, and need not be in doubles.
-/

namespace Milp

deriving instance DecidableEq for Incumbent

variable {K L : Type} [Scalar K] [Limits L K] {n m : Nat}

/-! ## The furthest column -/

namespace Scalar

theorem deviation_eq (q : Rat) : deviation q = |q - round q| :=
  Exact.abs_eq _

/-- The distance from the nearest integer is the distance from some integer, and from none a shorter
one. -/
theorem deviation_least (q : Rat) :
    (∃ near : Int, deviation q = |q - near|) ∧ ∀ z : Int, deviation q ≤ |q - z| := by
  obtain ⟨near, rounds⟩ := Exact.exists_int_round q
  rw [deviation_eq, rounds]
  exact ⟨⟨near, rfl⟩, (Exact.isNearest_iff.mpr rounds).least⟩

end Scalar

namespace SearchTask

section Furthest

variable [Readable L K] {k : SearchTask K L n m} {values : Vector K n} {z : Vector Rat n}
  (stands : Stands L values z)
include stands

/-- Distances are compared as those of the numbers that values stand for. -/
theorem deviation_le_iff (a b : Fin n) :
    Scalar.deviation values[a] ≤ Scalar.deviation values[b] ↔
      Scalar.deviation z[a] ≤ Scalar.deviation z[b] := by
  rw [Readable.le_iff_read (L := L), Readable.read_deviation, Readable.read_deviation, stands a,
    stands b]
  simp

theorem deviation_pos_iff (a : Fin n) :
    (0 : K) < Scalar.deviation values[a] ↔ 0 < Scalar.deviation z[a] := by
  rw [Readable.lt_iff_ofScalar (L := L), Readable.lt_iff, Readable.read_zero,
    Readable.read_deviation, stands a]
  simp

/-- The further of two columns is at least as far as both. -/
theorem further_spec (best : Option (Fin n)) (i : Fin n) :
    ∃ c, further values best i = some c ∧ Scalar.deviation z[i] ≤ Scalar.deviation z[c] ∧
      ∀ b, best = some b → Scalar.deviation z[b] ≤ Scalar.deviation z[c] := by
  cases best with
  | none => exact ⟨i, rfl, le_rfl, nofun⟩
  | some b =>
    have order := deviation_le_iff stands b i
    unfold further
    dsimp only
    split
    · rename_i far
      exact ⟨i, rfl, le_rfl, fun _ same => Option.some.inj same ▸ order.mp far⟩
    · rename_i near
      exact ⟨b, rfl, (not_le.mp (near ∘ order.mpr)).le, fun _ same => Option.some.inj same ▸ le_rfl⟩

theorem deviation_le_foldl {js : List (Fin n)} {best : Option (Fin n)} {j : Fin n}
    (h : js.foldl (further values) best = some j) :
    (∀ i ∈ js, Scalar.deviation z[i] ≤ Scalar.deviation z[j]) ∧
      ∀ b, best = some b → Scalar.deviation z[b] ≤ Scalar.deviation z[j] := by
  induction js generalizing best with
  | nil => exact ⟨nofun, fun b same => by rw [Option.some.inj (same.symm.trans h)]⟩
  | cons i js ih =>
    obtain ⟨c, step, here, before⟩ := further_spec stands best i
    obtain ⟨later, now⟩ := ih h
    have last : Scalar.deviation z[c] ≤ Scalar.deviation z[j] := now c step
    refine ⟨fun i' mem => ?_, fun b same => (before b same).trans last⟩
    rcases List.mem_cons.mp mem with rfl | mem
    · exact here.trans last
    · exact later i' mem

/-- No integer column is farther from an integer than the furthest one. -/
theorem deviation_le_of_furthestColumn {j : Fin n} (h : k.furthestColumn values = some j)
    {i : Fin n} (hi : k.isInteger i = true) :
    Scalar.deviation z[i] ≤ Scalar.deviation z[j] := by
  by_cases away : 0 < Scalar.deviation z[i]
  · refine (deviation_le_foldl stands h).1 i ?_
    simpa [mem_integers] using ⟨hi, (deviation_pos_iff stands i).mpr away⟩
  · have far := (deviation_pos_iff stands j).mp (furthestColumn_eq_some h).2
    exact (not_lt.mp away).trans far.le

/-- The furthest column is an integer column with a value that is no integer, and some integer is as
near to the value of any integer column as none is to this one. -/
theorem furthestColumn_spec {j : Fin n} (h : k.furthestColumn values = some j) :
    k.isInteger j = true ∧ (∀ i : Int, z[j] ≠ i) ∧
      ∀ i, k.isInteger i = true → ∃ near : Int, ∀ w : Int, |z[i] - near| ≤ |z[j] - w| := by
  have fractional : k.Fractional values j := .inr h
  refine ⟨fractional.spec.1, fun i whole => ?_, fun i hi => ?_⟩
  · exact fractional.spec.2 i ((stands j).trans (by rw [whole]))
  · obtain ⟨near, same⟩ := (Scalar.deviation_least z[i]).1
    refine ⟨near, fun w => ?_⟩
    calc |z[i] - near|
      _ = Scalar.deviation z[i] := same.symm
      _ ≤ Scalar.deviation z[j] := deviation_le_of_furthestColumn stands h hi
      _ ≤ |z[j] - w| := (Scalar.deviation_least z[j]).2 w

end Furthest

/-- Values that are integers up to the tolerance and are not accepted split the node at the furthest
column. -/
theorem accept_of_split {k : SearchTask K L n m} {s : Search K L n} {id : Nat}
    {values : Vector K n} {j : Fin n} {v : K}
    (split : k.acceptance (s.tree.bounds id k.box) values = .split j v) :
    k.furthestColumn values = some j ∧ v = values[j] ∧
      k.accept s id values =
        (s.countIterations (k.solver (k.fixAt (s.tree.bounds id k.box) values))).branch id j v := by
  rw [accept_eq, split]
  unfold acceptance at split
  cases away : k.furthestColumn values with
  | none =>
    rw [away] at split
    cases split
  | some far =>
    have extra : k.extraIterations (s.tree.bounds id k.box) values =
        (k.solver (k.fixAt (s.tree.bounds id k.box) values)).iterations := by
      rw [extraIterations, away]
    rw [away] at split
    dsimp only at split
    split at split
    · cases split
    · cases split
      exact ⟨rfl, rfl, by rw [extra]; rfl⟩

/-! ## What a node is closed with -/

section Settling

variable [Readable L K] {k : SearchTask K L n m} {bounds : Box L n} {values : Vector K n}

/-- Values that are accepted answer for the bounds: they have integers already, or the integer columns
were fixed at integers within the bounds. -/
theorem answers_of_acceptance (within : k.AnswersWithin bounds) (whole : k.Whole bounds.reading)
    {objective : K} (optimal : (k.solver bounds).verdict = .optimal objective values)
    {values' : Vector K n} (accepted : k.acceptance bounds values = .settle values') :
    k.Answers bounds values' := by
  unfold acceptance at accepted
  split at accepted
  · rename_i integral
    cases accepted
    exact answers_of_furthestColumn_eq_none within optimal integral
  · split at accepted
    · rename_i objective' _ again
      cases accepted
      exact answers_of_fixAt within optimal whole again
    · cases accepted

/-- Values that a node is closed with answer for its bounds. -/
theorem answers_of_decision (within : k.AnswersWithin bounds) (whole : k.Whole bounds.reading)
    {incumbent : Option (Incumbent K n)} {isRoot : Bool}
    (decided : k.decision incumbent bounds isRoot (k.solver bounds).verdict = .settle values) :
    k.Answers bounds values := by
  generalize optimal : (k.solver bounds).verdict = verdict at decided
  cases verdict with
  | infeasible | unbounded | failed => cases decided
  | optimal objective relaxed =>
    unfold decision at decided
    dsimp only at decided
    split at decided
    · split at decided
      · exact answers_of_acceptance within whole optimal decided
      · cases decided
    · cases decided

/-- Values settle a node with some bounds, at a cost: they are what the solver answers for these
bounds, or for these with the integer columns fixed. They lie within the bounds and have integers in
the integer columns, so that rounding does not change them. The cost is that of the values, and its
objective is that of the answer. -/
structure Settles (k : SearchTask K L n m) (bounds : Box L n) (values : Vector K n) (cost : K) :
    Prop where
  optimal : ∃ box, k.Asks bounds box ∧
    (k.solver box).verdict = .optimal (k.relaxation.toObjective cost) values
  cost : cost = k.relaxation.costOf values.toList
  proper : ∃ z, k.Proper bounds values z
  unchanged : k.snap values = values

end Settling

/-- In exact arithmetic the cost is recovered from the objective of the answer. -/
theorem Settles.toCost {k : SearchTask Rat ExtendedRat n m} {bounds : Box ExtendedRat n}
    {values : Vector Rat n} {cost : Rat} (settles : k.Settles bounds values cost) :
    ∃ box objective, k.Asks bounds box ∧ (k.solver box).verdict = .optimal objective values ∧
      k.relaxation.toCost objective = cost := by
  obtain ⟨box, asks, optimal⟩ := settles.optimal
  exact ⟨box, _, asks, optimal, Relaxation.toCost_toObjective cost⟩

end SearchTask

namespace Relaxation

variable [Readable L K] {p : Relaxation K L n m}

theorem settles_of_answers {c : Config K} {clock : Nat → Duration} {bounds : Box L n}
    {values : Vector K n} (answers : (p.task c clock).Answers bounds values) :
    (p.task c clock).Settles bounds values (p.costOf values.toList) := by
  obtain ⟨⟨box, objective, asks, optimal⟩, z, proper⟩ := answers
  obtain ⟨-, -, -, rfl⟩ := solveWithin_optimal optimal
  exact ⟨⟨box, asks, optimal⟩, rfl, ⟨z, proper⟩, proper.snap⟩

/-- What a node is closed with is an answer of the simplex method, about the bounds of the node or about
these with the integer columns fixed; it lies within these bounds, has integers in the integer columns,
and is kept as it is, at the cost of its values, of which the objective is that of the answer. Where a
node is split although its values are integers up to the tolerance, it is split at an integer column
whose value is no integer, and none is farther from one. -/
theorem settled_as_answered (p : Relaxation K L n m) (c : Config K) (clock : Nat → Duration)
    (finite : (p.task c clock).Finite) (roomy : ∀ j, p.box.reading.Roomy j) :
    let k := p.task c clock
    (∀ s id batch, k.Reached ⟨s, id :: batch⟩ →
      let bounds := s.tree.bounds id k.box
      let outcome := k.solver bounds
      let decision := k.decision s.incumbent bounds (s.tree.isRoot id) outcome.verdict
      k.process s id outcome = k.act (k.solved s id outcome) id decision ∧
        ∀ values, decision = .settle values → k.Settles bounds values (p.costOf values.toList)) ∧
    (∀ f i, k.Reached f → f.search.incumbent = some i →
      ∃ f' id x, k.Reached f' ∧ f'.node? id = some x ∧
        k.Settles (f'.search.tree.bounds id k.box) i.values i.cost) ∧
    ∀ s id values z j v, Stands L values z →
      k.acceptance (s.tree.bounds id k.box) values = .split j v →
      let fixed := k.solver (k.fixAt (s.tree.bounds id k.box) values)
      k.accept s id values = (s.countIterations fixed).branch id j v ∧
        v = values[j] ∧ k.isInteger j = true ∧ (∀ i : Int, z[j] ≠ i) ∧
        ∀ i, k.isInteger i = true → ∃ near : Int, ∀ w : Int, |z[i] - near| ≤ |z[j] - w| := by
  intro k
  have within (f : Moment K L n) (id : Nat) (x : Node L n) (reached : k.Reached f)
      (here : f.node? id = some x) : k.AnswersWithin (f.search.tree.bounds id k.box) :=
    SearchTask.answersWithin_of_clamps (p.clamps_solver c) finite
      (fun j => SearchTask.roomy_box (roomy j)) reached here
  refine ⟨?_, ?_, ?_⟩
  · intro s id batch reached bounds outcome decision
    refine ⟨k.process_eq s id outcome, fun values decided => ?_⟩
    obtain ⟨x, here, -⟩ :=
      reached.frontier.mem_of_waits (List.mem_append_right _ (List.mem_cons_self ..))
    have whole := SearchTask.whole_of_reached reached here
    exact settles_of_answers
      (SearchTask.answers_of_decision (within _ id x reached here) whole decided)
  · intro f i reached found
    obtain ⟨f', id, x, reached', here, answers, cost⟩ :=
      SearchTask.answers_of_reached within reached found
    have settles := settles_of_answers answers
    rw [show p.costOf i.values.toList = i.cost from cost.symm] at settles
    exact ⟨f', id, x, reached', here, settles⟩
  · intro s id values z j v stands split fixed
    obtain ⟨away, rfl, splits⟩ := SearchTask.accept_of_split split
    exact ⟨splits, rfl, SearchTask.furthestColumn_spec stands away⟩

/-- An integer `x` from 0 to 2 and `y` from 0 to 1, with `x + y = 1.0000005` and `y` as small as may
be. -/
def nearlyOne : Model Float Float :=
  .ofParts
    #[⟨"x", ⟨some "x", .integer, 0, 2⟩, none⟩, ⟨"y", ⟨some "y", .continuous, 0, 1⟩, none⟩]
    #[⟨⟨[(⟨0⟩, 1), (⟨1⟩, 1)], 0⟩, 1.0000005, 1.0000005, some "sum"⟩] ⟨[(⟨1⟩, 1)], 0⟩

/-- The optimum `x = 1.0000005` is an integer up to the tolerance. With `x` fixed at 1 the row is kept
by `y`, and that is the solution. -/
theorem settled_as_answered_nearlyOne :
    let p := nearlyOne.relaxation .minimise
    let k := p.task .standard fun _ => ⟨0⟩
    k.Finite ∧ (∀ j, p.box.reading.Roomy j) ∧
      ((k.rounds 1 .start).1.incumbent.map fun i => (i.cost, i.values.toList)) =
        some (1.0000005 - 1, [1, 1.0000005 - 1]) ∧
      ∃ i box, (k.rounds 1 .start).1.incumbent = some i ∧ k.Settles box i.values i.cost := by
  intro p k
  have limits : p.box.reading.Finite := by decide +kernel
  have finite : k.Finite :=
    SearchTask.finite_of_limits (p.clamps_solver .standard) (by decide +kernel)
  have found : ((k.rounds 1 .start).1.incumbent.map fun i => (i.cost, i.values.toList)) =
      some (1.0000005 - 1, [1, 1.0000005 - 1]) := by
    decide +kernel
  obtain ⟨i, incumbent, -⟩ := Option.map_eq_some_iff.mp found
  obtain ⟨f, id, x, -, -, settles⟩ :=
    (settled_as_answered p .standard (fun _ => ⟨0⟩) finite limits.roomy).2.1 _ i (k.rounds_reached 1)
      incumbent
  exact ⟨finite, limits.roomy, found, i, _, incumbent, settles⟩

/-- An integer `x` that is 1, with `0.2 x + 0.1` as small as may be. -/
def threeTenths : Model Float Float :=
  .ofParts #[⟨"x", ⟨some "x", .integer, 1, 1⟩, none⟩] #[] ⟨[(⟨0⟩, 0.2)], 0.1⟩

/-- In doubles the cost of a solution need not be the cost of the answer that it is. The sum of 0.2 and
0.1 is rounded in the objective, so that the cost recovered from it is not 0.2. -/
theorem cost_of_answer_ne :
    let p := threeTenths.relaxation .minimise
    let k := p.task .standard fun _ => ⟨0⟩
    k.Finite ∧ (k.rounds 1 .start).2 = .exhausted ∧
      ∃ i, (k.rounds 1 .start).1.incumbent = some i ∧
        (∃ objective, (k.solver k.box).verdict = .optimal objective i.values) ∧
        ∀ box objective, (k.solver box).verdict = .optimal objective i.values →
          p.toCost objective ≠ i.cost := by
  intro p k
  have finite : k.Finite :=
    SearchTask.finite_of_limits (p.clamps_solver .standard) (by decide +kernel)
  refine ⟨finite, by decide +kernel, ⟨0.2, .replicate _ 1⟩, by decide +kernel,
    ⟨0.2 + 0.1, by decide +kernel⟩, ?_⟩
  intro box objective optimal
  obtain ⟨-, -, -, rfl⟩ := solveWithin_optimal optimal
  decide +kernel

end Relaxation

end Milp
