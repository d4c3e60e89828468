import Milp.Search.State

/-!
# Branching

A node whose relaxation is not integral is split in two, at the integer column whose value is most
fractional.
-/

namespace Milp

namespace Scalar

variable {K : Type} [Scalar K]

/-- The distance of a number from its nearest integer. -/
def deviation (x : K) : K :=
  abs (x - round x)

/-- How far a number lies from both integers around it. -/
def fractionality (x : K) : K :=
  let fraction := x - floor x
  min fraction (1 - fraction)

end Scalar

namespace SearchTask

variable {K L : Type} [Scalar K] [Limits L K] {n m : Nat}

/-- The more fractional of a column and the best one so far, the latter on a tie. -/
def moreFractional (values : Vector K n) (best : Option (Fin n × K)) (j : Fin n) :
    Option (Fin n × K) :=
  let score := Scalar.fractionality values[j]
  match best with
  | none => some (j, score)
  | some (_, most) => if most < score then some (j, score) else best

/-- The integer column whose value is most fractional, the first of several; none where all values
are integral up to the tolerance. -/
def branchingColumn (k : SearchTask K L n m) (values : Vector K n) : Option (Fin n) :=
  ((k.integers.filter fun j => !k.config.integrality.isIntegral values[j]).foldl
    (moreFractional values) none).map (·.1)

/-- The further from an integer of a column and the best one so far, the former on a tie. -/
def further (values : Vector K n) (best : Option (Fin n)) (j : Fin n) : Option (Fin n) :=
  match best with
  | none => some j
  | some b => if Scalar.deviation values[b] ≤ Scalar.deviation values[j] then some j else best

/-- The integer column whose value is furthest from an integer, the last of several; none where all
values are integers. -/
def furthestColumn (k : SearchTask K L n m) (values : Vector K n) : Option (Fin n) :=
  (k.integers.filter fun j => (0 : K) < Scalar.deviation values[j]).foldl (further values) none

end SearchTask

namespace Search

variable {K L : Type} [Scalar K] [Limits L K] {n : Nat}

/-- The state with a child added to a node and put into the queue. -/
def addChild (s : Search K L n) (id : Nat) (change : BoundChange L n) : Search K L n :=
  let (tree, child) := s.tree.child id change
  let depth := ((tree.nodes[child]?).map (·.depth)).getD 0
  let s := { s with tree }.tally fun t =>
    { t with nodesCreated := t.nodesCreated + 1, maxDepth := max t.maxDepth depth }
  s.enqueue child

/-- The state after a node is split at a value of a column: one child at or below the integer
below, one at or above the integer above. -/
def branch (s : Search K L n) (id : Nat) (column : Fin n) (value : K) : Search K L n :=
  let s := (s.setState id .branched).tally fun t => { t with branched := t.branched + 1 }
  let s := s.addChild id ⟨column, Limits.below, Limits.ofScalar (Scalar.floor value)⟩
  s.addChild id ⟨column, Limits.ofScalar (Scalar.ceil value), Limits.above⟩

end Search

end Milp
