import Milp.Config
import Milp.Search.Queue
import Milp.Search.Tree

/-!
# States of a search

A search has a task, which does not change, and a state: the tree, the queue of the nodes that wait,
the best solution so far and the counts of what happened.
-/

namespace Milp

/-- What a search is about. -/
structure SearchTask (K L : Type) (n m : Nat) where
  relaxation : Relaxation K L n m
  config : Config K
  /-- What solves the relaxation of a node. -/
  solver : Solver K L n
  /-- The time that has passed at each look at the clock. -/
  clock : Nat → Duration

/-- The best solution so far. -/
structure Incumbent (K : Type) (n : Nat) where
  cost : K
  values : Vector K n

/-- Counts of what happened in a search, and bounds of the objective. -/
structure Statistics (K L : Type) where
  nodesCreated : Nat
  nodesExplored : Nat
  prunedByBound : Nat
  prunedInfeasible : Nat
  branched : Nat
  integral : Nat
  numericalFailures : Nat
  simplexIterations : Nat
  maxDepth : Nat
  /-- The objective of the root's relaxation. -/
  rootBound : Option K
  /-- The objective that no solution is better than. -/
  bestBound : Option L
  /-- The objectives of the incumbents, in order. -/
  incumbentHistory : List K

/-- The counts before anything happened. -/
def Statistics.zero {K L : Type} : Statistics K L :=
  ⟨0, 0, 0, 0, 0, 0, 0, 0, 0, none, none, []⟩

/-- A state of a search. -/
structure Search (K L : Type) (n : Nat) where
  tree : Tree L n
  queue : Queue L
  incumbent : Option (Incumbent K n)
  statistics : Statistics K L
  rootUnbounded : Bool
  /-- The number of looks at the clock. -/
  looks : Nat

/-- Why a search stopped. -/
inductive Stop
  | exhausted
  | sufficient
  | aborted
  | unbounded
  /-- The number of rounds that one search may take is used up. -/
  | outOfRounds
deriving DecidableEq, Repr

namespace SearchTask

variable {K L : Type} [Scalar K] [Limits L K] {n m : Nat}

/-- Whether a column has to be an integer. -/
def isInteger (k : SearchTask K L n m) (j : Fin n) : Bool :=
  !k.config.relax && k.relaxation.integer[j]

/-- The columns that have to be integers. -/
def integers (k : SearchTask K L n m) : List (Fin n) :=
  (List.finRange n).filter k.isInteger

/-- The bounds of the root: those of integer columns are moved outwards by the tolerance, and from there
inwards to integers. -/
def box (k : SearchTask K L n m) : Box L n where
  lower := .ofFn fun j =>
    let l := k.relaxation.box.lower[j]
    if k.isInteger j then Limits.ceil (Limits.sub l (k.config.integrality.epsilonOf l)) else l
  upper := .ofFn fun j =>
    let u := k.relaxation.box.upper[j]
    if k.isInteger j then Limits.floor (Limits.add u (k.config.integrality.epsilonOf u)) else u

/-- How much better than an incumbent's cost a bound has to be. -/
def margin (k : SearchTask K L n m) (cost : K) : K :=
  let gap := match k.config.gap with
    | none => 0
    | some gap => gap * Scalar.abs (k.relaxation.toObjective cost)
  max gap (k.config.feasibility.epsilon cost)

/-- Whether a bound leaves room for a better solution than the incumbent. -/
def canImprove (k : SearchTask K L n m) (incumbent : Option (Incumbent K n)) (bound : L) : Bool :=
  match incumbent with
  | none => true
  | some i => bound < Limits.ofScalar (i.cost - k.margin i.cost)

end SearchTask

namespace Search

variable {K L : Type} [Limits L K] {n : Nat}

/-- The state with a node put into the queue. -/
def enqueue (s : Search K L n) (id : Nat) : Search K L n :=
  match s.tree.nodes[id]? with
  | some node => { s with queue := s.queue.add ⟨node.bound, node.sequence, id⟩ }
  | none => s

/-- The state with a node's state set. -/
def setState (s : Search K L n) (id : Nat) (state : NodeState) : Search K L n :=
  { s with tree := s.tree.setState id state }

/-- The state with its counts changed. -/
def tally (s : Search K L n) (f : Statistics K L → Statistics K L) : Search K L n :=
  { s with statistics := f s.statistics }

/-- The state with the nodes that still wait given up. -/
def abandon (s : Search K L n) : Search K L n :=
  { s with
    tree := s.queue.toList.foldl (fun t e => t.setState e.node .terminal) s.tree
    queue := .empty }

/-- The state with the root in the queue. -/
def start : Search K L n :=
  let s : Search K L n :=
    { tree := .root
      queue := .empty
      incumbent := none
      statistics := { Statistics.zero with nodesCreated := 1 }
      rootUnbounded := false
      looks := 0 }
  s.enqueue Tree.rootId

end Search

end Milp
