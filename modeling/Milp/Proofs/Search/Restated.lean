import Milp.Proofs.Search.Moment

/-!
# Restated objectives

A search works with costs. Objectives only stand in what it records, and in the margin that a gap
gives. So when costs are turned into other objectives, by a direction and a constant, a search does
the same as before and records the other objectives, if the margin stays as it is.

Results:
1. `process_restated`, `round_restated`: what a node and a round do.
2. `run_restated`: what a search does.
-/

namespace Milp

variable {K L : Type} {n m : Nat} {φ : K → K} {ψ : L → L}

/-! ## Other objectives -/

/-- The verdict with another objective. -/
def Verdict.mapObjective (φ : K → K) : Verdict K n → Verdict K n
  | .optimal objective values => .optimal (φ objective) values
  | .infeasible => .infeasible
  | .unbounded => .unbounded
  | .failed => .failed

/-- The outcome with another objective. -/
def Outcome.mapObjective (φ : K → K) (o : Outcome K n) : Outcome K n :=
  { o with verdict := o.verdict.mapObjective φ }

/-- The statistics with other objectives, those of scalars and those of limits. -/
def Statistics.mapObjectives (φ : K → K) (ψ : L → L) (t : Statistics K L) : Statistics K L :=
  { t with
    rootBound := t.rootBound.map φ
    bestBound := t.bestBound.map ψ
    incumbentHistory := t.incumbentHistory.map φ }

/-- The state of a search with other objectives in its statistics. -/
def Search.mapObjectives (φ : K → K) (ψ : L → L) (s : Search K L n) : Search K L n :=
  { s with statistics := s.statistics.mapObjectives φ ψ }

/-- The linear program whose costs are other objectives. -/
def Relaxation.restated (p : Relaxation K L n m) (direction : Direction) (constant : K) :
    Relaxation K L n m :=
  { p with direction, constant }

/-- The task about a restated linear program, with a solver that answers with the other
objectives. -/
def SearchTask.restated (k : SearchTask K L n m) (direction : Direction) (constant : K)
    (φ : K → K) : SearchTask K L n m :=
  { k with
    relaxation := k.relaxation.restated direction constant
    solver := fun box => (k.solver box).mapObjective φ }

/-- A direction and a constant make other objectives of the same costs, and the margin of an incumbent
stays as it is. -/
structure SearchTask.Restates [Scalar K] [Limits L K] (k : SearchTask K L n m)
    (direction : Direction) (constant : K) (φ : K → K) (ψ : L → L) : Prop where
  objective : ∀ cost, (k.restated direction constant φ).relaxation.toObjective cost =
    φ (k.relaxation.toObjective cost)
  cost : ∀ objective, (k.restated direction constant φ).relaxation.toCost (φ objective) =
    k.relaxation.toCost objective
  limit : ∀ cost, (k.restated direction constant φ).relaxation.toObjectiveLimit cost =
    ψ (k.relaxation.toObjectiveLimit cost)
  scalar : ∀ x : K, (Limits.ofScalar (φ x) : L) = ψ (Limits.ofScalar x)
  margin : ∀ cost, (k.restated direction constant φ).margin cost = k.margin cost

namespace Search

variable [Limits L K]

theorem addChild_mapObjectives (s : Search K L n) (id : Nat) (c : BoundChange L n) :
    (s.mapObjectives φ ψ).addChild id c = (s.addChild id c).mapObjectives φ ψ := by
  unfold addChild enqueue
  dsimp only [mapObjectives, tally]
  split <;> rfl

theorem branch_mapObjectives [Scalar K] (s : Search K L n) (id : Nat) (j : Fin n) (v : K) :
    (s.mapObjectives φ ψ).branch id j v = (s.branch id j v).mapObjectives φ ψ := by
  unfold branch
  dsimp only
  rw [← addChild_mapObjectives, ← addChild_mapObjectives]
  rfl

end Search

namespace SearchTask

variable [Scalar K] [Limits L K] {k : SearchTask K L n m} {direction : Direction} {constant : K}
  {s : Search K L n}

theorem canImprove_restated (h : k.Restates direction constant φ ψ)
    (incumbent : Option (Incumbent K n)) (bound : L) :
    (k.restated direction constant φ).canImprove incumbent bound =
      k.canImprove incumbent bound := by
  cases incumbent with
  | none => rfl
  | some i =>
    unfold canImprove
    dsimp only
    rw [h.margin]

/-! ## Nodes -/

theorem offer_restated (h : k.Restates direction constant φ ψ) (s : Search K L n)
    (values : Vector K n) :
    (k.restated direction constant φ).offer (s.mapObjectives φ ψ) values =
      (k.offer s values).mapObjectives φ ψ := by
  have same : (k.restated direction constant φ).improves (s.mapObjectives φ ψ).incumbent
      ((k.restated direction constant φ).relaxation.costOf
        ((k.restated direction constant φ).snap values).toList) =
      k.improves s.incumbent (k.relaxation.costOf (k.snap values).toList) := rfl
  unfold offer
  dsimp only
  rw [same, h.objective]
  split
  · simp only [Search.mapObjectives, Search.tally, Statistics.mapObjectives, List.map_append,
      List.map_singleton]
    rfl
  · rfl

theorem settle_restated (h : k.Restates direction constant φ ψ) (s : Search K L n) (id : Nat)
    (values : Vector K n) :
    (k.restated direction constant φ).settle (s.mapObjectives φ ψ) id values =
      (k.settle s id values).mapObjectives φ ψ :=
  offer_restated h
    ((s.setState id .integral).tally fun t => { t with integral := t.integral + 1 }) values

theorem accept_restated (h : k.Restates direction constant φ ψ) (s : Search K L n) (id : Nat)
    (values : Vector K n) :
    (k.restated direction constant φ).accept (s.mapObjectives φ ψ) id values =
      (k.accept s id values).mapObjectives φ ψ := by
  have furthest : (k.restated direction constant φ).furthestColumn values =
      k.furthestColumn values := rfl
  have again : (k.restated direction constant φ).solver ((k.restated direction constant φ).fixAt
      ((s.mapObjectives φ ψ).tree.bounds id (k.restated direction constant φ).box) values) =
        (k.solver (k.fixAt (s.tree.bounds id k.box) values)).mapObjective φ := rfl
  unfold accept
  rw [furthest, again]
  cases k.furthestColumn values with
  | none => exact settle_restated h s id values
  | some j =>
    dsimp only
    generalize k.solver (k.fixAt (s.tree.bounds id k.box) values) = fixed
    obtain ⟨verdict, iterations⟩ := fixed
    cases verdict with
    | optimal objective values' => exact settle_restated h (s.countIterations _) id values'
    | infeasible | unbounded | failed => exact Search.branch_mapObjectives (s.countIterations _) ..

theorem boundOf_restated (h : k.Restates direction constant φ ψ) (objective : K) :
    ((k.restated direction constant φ).boundOf (φ objective) : L) = k.boundOf objective := by
  unfold boundOf
  rw [h.cost]

theorem relaxed_restated (h : k.Restates direction constant φ ψ) (s : Search K L n) (id : Nat)
    (isRoot : Bool) (objective : K) :
    (k.restated direction constant φ).relaxed (s.mapObjectives φ ψ) id isRoot (φ objective) =
      (k.relaxed s id isRoot objective).mapObjectives φ ψ := by
  unfold relaxed
  rw [boundOf_restated h]
  cases isRoot <;> rfl

theorem processRelaxed_restated (h : k.Restates direction constant φ ψ) (s : Search K L n) (id : Nat)
    (isRoot : Bool) (objective : K) (values : Vector K n) :
    (k.restated direction constant φ).processRelaxed (s.mapObjectives φ ψ) id isRoot (φ objective)
        values =
      (k.processRelaxed s id isRoot objective values).mapObjectives φ ψ := by
  have branching : (k.restated direction constant φ).branchingColumn values =
      k.branchingColumn values := rfl
  rw [processRelaxed_eq, processRelaxed_eq, relaxed_restated h, boundOf_restated h, branching]
  dsimp only
  rw [canImprove_restated h]
  generalize k.relaxed s id isRoot objective = relaxed
  show (if k.canImprove relaxed.incumbent (k.boundOf objective : L) = true then _ else _) = _
  split
  · cases k.branchingColumn values with
    | none => exact accept_restated h relaxed id values
    | some j => exact Search.branch_mapObjectives relaxed id j values[j]
  · rfl

/-- Processing a node does the same, with the other objectives. -/
theorem process_restated (h : k.Restates direction constant φ ψ) (s : Search K L n) (id : Nat)
    (outcome : Outcome K n) :
    (k.restated direction constant φ).process (s.mapObjectives φ ψ) id (outcome.mapObjective φ) =
      (k.process s id outcome).mapObjectives φ ψ := by
  obtain ⟨verdict, iterations⟩ := outcome
  unfold process
  cases verdict with
  | infeasible | failed => rfl
  | unbounded =>
    dsimp only [Outcome.mapObjective, Verdict.mapObjective]
    show (if _ then _ else _) = Search.mapObjectives φ ψ (if _ then _ else _)
    rw [apply_ite (Search.mapObjectives φ ψ)]
    rfl
  | optimal objective values =>
    exact processRelaxed_restated h (s.countIterations ⟨.optimal objective values, iterations⟩) id _
      objective values

/-! ## Rounds -/

theorem takeBatch_restated (h : k.Restates direction constant φ ψ) (room : Nat) (q : Queue L)
    (s : Search K L n) :
    (k.restated direction constant φ).takeBatch room q (s.mapObjectives φ ψ) =
      ((k.takeBatch room q s).1.mapObjectives φ ψ, (k.takeBatch room q s).2) := by
  have limits (s : Search K L n) : (k.restated direction constant φ).limitReached
      (s.mapObjectives φ ψ) = k.limitReached s := rfl
  fun_induction takeBatch k room q s with
  | case1 q s =>
    rw [takeBatch]
    rfl
  | case2 q s room taken => exact takeBatch_of_none taken room _
  | case3 q s room e rest taken stop limit =>
    exact takeBatch_of_limit taken ((limits s).trans limit) room
  | case4 q s room e rest taken free looked better explored last ids stop batch ih =>
    rw [batch] at ih
    have better' := (canImprove_restated h s.incumbent e.bound).trans better
    refine (takeBatch_of_better taken ((limits s).trans free) better' room).trans ?_
    exact congrArg (fun next => (next.1, e.node :: next.2.1, next.2.2)) ih
  | case5 q s room e rest taken free looked worse closed ih =>
    have worse' := (canImprove_restated h s.incumbent e.bound).trans_ne worse
    exact (takeBatch_of_worse taken ((limits s).trans free) worse' room).trans ih

/-- Processing the outcomes of a batch does the same, with the other objectives. -/
theorem foldl_process_restated (h : k.Restates direction constant φ ψ)
    (outcomes : List (Nat × Outcome K n)) (s : Search K L n) :
    (outcomes.map fun o => (o.1, o.2.mapObjective φ)).foldl
        (fun s o => (k.restated direction constant φ).process s o.1 o.2) (s.mapObjectives φ ψ) =
      (outcomes.foldl (fun s o => k.process s o.1 o.2) s).mapObjectives φ ψ := by
  induction outcomes generalizing s with
  | nil => rfl
  | cons o outcomes ih =>
    rw [List.map_cons, List.foldl_cons, List.foldl_cons, process_restated h, ih]

/-- A round does the same, with the other objectives. -/
theorem round_restated (h : k.Restates direction constant φ ψ) (s : Search K L n) :
    (k.restated direction constant φ).round (s.mapObjectives φ ψ) =
      ((k.round s).1.mapObjectives φ ψ, (k.round s).2) := by
  have batch : (k.restated direction constant φ).takeBatch
      (k.restated direction constant φ).config.threads (s.mapObjectives φ ψ).queue
        (s.mapObjectives φ ψ) =
      ((k.takeBatch k.config.threads s.queue s).1.mapObjectives φ ψ,
        (k.takeBatch k.config.threads s.queue s).2) := takeBatch_restated h ..
  unfold round
  rw [batch]
  generalize k.takeBatch k.config.threads s.queue s = taken
  obtain ⟨s, ids, stop⟩ := taken
  dsimp only
  have outcomes : (ids.map fun id => (id, (k.restated direction constant φ).solver
        ((s.mapObjectives φ ψ).tree.bounds id (k.restated direction constant φ).box))) =
      (ids.map fun id => (id, k.solver (s.tree.bounds id k.box))).map fun o =>
        (o.1, o.2.mapObjective φ) := by
    rw [List.map_map]
    rfl
  rw [outcomes, foldl_process_restated h]
  generalize (ids.map fun id => (id, k.solver (s.tree.bounds id k.box))).foldl
    (fun s o => k.process s o.1 o.2) s = s'
  show (if s'.rootUnbounded = true then _ else _) = _
  cases s'.rootUnbounded with
  | true => rfl
  | false => cases stop <;> rfl

theorem rounds_restated (h : k.Restates direction constant φ ψ) (left : Nat) (s : Search K L n) :
    (k.restated direction constant φ).rounds left (s.mapObjectives φ ψ) =
      ((k.rounds left s).1.mapObjectives φ ψ, (k.rounds left s).2) := by
  induction left generalizing s with
  | zero => rfl
  | succ left ih =>
    rw [rounds, rounds, round_restated h]
    generalize k.round s = last
    obtain ⟨s', stop⟩ := last
    cases stop with
    | none => exact ih s'
    | some stop => rfl

/-! ## The end -/

theorem status_restated (h : k.Restates direction constant φ ψ) (s : Search K L n) (stop : Stop)
    (remaining : Option L) :
    (k.restated direction constant φ).status (s.mapObjectives φ ψ) stop remaining =
      k.status s stop remaining := by
  have improves : (k.restated direction constant φ).canImprove (s.mapObjectives φ ψ).incumbent =
      (k.canImprove s.incumbent : L → Bool) := funext (canImprove_restated h _)
  unfold status
  rw [improves]
  rfl

theorem bestBound_restated (h : k.Restates direction constant φ ψ) (s : Search K L n)
    (remaining : Option L) :
    (k.restated direction constant φ).bestBound (s.mapObjectives φ ψ) remaining =
      (k.bestBound s remaining).map ψ := by
  have same : (s.mapObjectives φ ψ).incumbent = s.incumbent := rfl
  unfold bestBound
  rw [same]
  cases remaining with
  | some bound => exact congrArg some (h.limit bound)
  | none =>
    cases s.incumbent with
    | none => rfl
    | some i =>
      dsimp only
      rw [h.objective, h.scalar]
      rfl

/-- A search does the same, with the other objectives. -/
theorem run_restated (h : k.Restates direction constant φ ψ) (roundLimit : Nat) :
    (k.restated direction constant φ).run roundLimit =
      ((k.run roundLimit).1.mapObjectives φ ψ, (k.run roundLimit).2) := by
  have rounds : (k.restated direction constant φ).rounds roundLimit .start =
      ((k.rounds roundLimit .start).1.mapObjectives φ ψ, (k.rounds roundLimit .start).2) :=
    rounds_restated h roundLimit .start
  unfold run
  rw [rounds]
  generalize k.rounds roundLimit .start = last
  obtain ⟨s, stop⟩ := last
  have abandoned : (s.mapObjectives φ ψ).abandon = s.abandon.mapObjectives φ ψ := rfl
  dsimp only
  rw [abandoned, status_restated h, bestBound_restated h]
  rfl

end SearchTask

end Milp
