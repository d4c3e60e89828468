import Milp.Search.Branching

/-!
# What becomes of a node

The outcome of a node's relaxation closes the node, or splits it in two. An integral outcome is
offered as a solution. An outcome that is integral only up to the tolerance is rounded and solved
once more with the integer columns fixed; if that fails, the node is split after all.
-/

namespace Milp

/-- The state with the iterations of a relaxation counted. -/
def Search.countIterations {K L : Type} [Limits L K] {n : Nat} (s : Search K L n)
    (outcome : Outcome K n) : Search K L n :=
  s.tally fun t => { t with simplexIterations := t.simplexIterations + outcome.iterations }

namespace SearchTask

variable {K L : Type} [Scalar K] [Limits L K] {n m : Nat}

/-! ## Solutions -/

/-- Values with those of integer columns rounded. -/
def snap (k : SearchTask K L n m) (values : Vector K n) : Vector K n :=
  .ofFn fun j => if k.isInteger j then Scalar.round values[j] else values[j]

/-- Whether a cost is better than the incumbent's beyond the tolerance. -/
def improves (k : SearchTask K L n m) (incumbent : Option (Incumbent K n)) (cost : K) : Bool :=
  match incumbent with
  | none => true
  | some i => cost < i.cost - k.config.feasibility.epsilon i.cost

/-- The state after a solution is offered. -/
def offer (k : SearchTask K L n m) (s : Search K L n) (values : Vector K n) : Search K L n :=
  let values := k.snap values
  let cost := k.relaxation.costOf values.toList
  if k.improves s.incumbent cost then
    { s with incumbent := some ⟨cost, values⟩ }.tally fun t =>
      { t with incumbentHistory := t.incumbentHistory ++ [k.relaxation.toObjective cost] }
  else s

/-- The state after a node is closed by an integral solution. -/
def settle (k : SearchTask K L n m) (s : Search K L n) (id : Nat) (values : Vector K n) :
    Search K L n :=
  let s := (s.setState id .integral).tally fun t => { t with integral := t.integral + 1 }
  k.offer s values

/-- A box in which integer columns are fixed at their rounded values. -/
def fixAt (k : SearchTask K L n m) (box : Box L n) (values : Vector K n) : Box L n where
  lower := .ofFn fun j =>
    if k.isInteger j then Limits.ofScalar (Scalar.round values[j]) else box.lower[j]
  upper := .ofFn fun j =>
    if k.isInteger j then Limits.ofScalar (Scalar.round values[j]) else box.upper[j]

/-- The state after values were found integral up to the tolerance. -/
def accept (k : SearchTask K L n m) (s : Search K L n) (id : Nat) (values : Vector K n) :
    Search K L n :=
  match k.furthestColumn values with
  | none => k.settle s id values
  | some column =>
    let fixed := k.solver (k.fixAt (s.tree.bounds id k.box) values)
    let s := s.countIterations fixed
    match fixed.verdict with
    | .optimal _ values => k.settle s id values
    | _ => s.branch id column values[column]

/-! ## Outcomes -/

/-- The state after a node's relaxation was solved. -/
def processRelaxed (k : SearchTask K L n m) (s : Search K L n) (id : Nat) (isRoot : Bool)
    (objective : K) (values : Vector K n) : Search K L n :=
  let cost : L := Limits.ofScalar (k.relaxation.toCost objective)
  let s := { s with tree := (s.tree.setBound id cost).setState id .relaxed }
  let s := if isRoot then s.tally fun t => { t with rootBound := some objective } else s
  if k.canImprove s.incumbent cost then
    match k.branchingColumn values with
    | none => k.accept s id values
    | some column => s.branch id column values[column]
  else
    (s.setState id .dominated).tally fun t => { t with prunedByBound := t.prunedByBound + 1 }

/-- The state after the outcome of a node's relaxation. -/
def process (k : SearchTask K L n m) (s : Search K L n) (id : Nat) (outcome : Outcome K n) :
    Search K L n :=
  let s := s.countIterations outcome
  let isRoot := ((s.tree.nodes[id]?).bind (·.parent)).isNone
  let fail (s : Search K L n) := (s.setState id .failed).tally fun t =>
    { t with numericalFailures := t.numericalFailures + 1 }
  match outcome.verdict with
  | .infeasible =>
    (s.setState id .infeasible).tally fun t => { t with prunedInfeasible := t.prunedInfeasible + 1 }
  | .unbounded => if isRoot then { s.setState id .terminal with rootUnbounded := true } else fail s
  | .failed => fail s
  | .optimal objective values => k.processRelaxed s id isRoot objective values

end SearchTask

end Milp
