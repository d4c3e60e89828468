import Milp.Search.Process

/-!
# Running a search

A search goes in rounds. A round takes some nodes from the queue, solves their relaxations and
processes the outcomes in order. Before each node is taken the limits of the configuration are
looked at; a node that can no longer improve on the incumbent is closed without being explored.
-/

namespace Milp

/-- The answer to an optimisation problem. -/
inductive Status
  | optimal
  | suboptimal
  | infeasible
  | unbounded
  | timeLimit
  | numericalFailure
deriving DecidableEq, Repr

namespace Status

/-- Whether a solution comes with the answer. -/
def hasSolution : Status → Bool
  | optimal => true
  | suboptimal => true
  | _ => false

/-- The name of an answer. -/
def text : Status → String
  | optimal => "optimal"
  | suboptimal => "suboptimal"
  | infeasible => "infeasible"
  | unbounded => "unbounded"
  | timeLimit => "time limit"
  | numericalFailure => "numerical failure"

end Status

namespace SearchTask

variable {K L : Type} [Scalar K] [Limits L K] {n m : Nat}

/-! ## Rounds -/

/-- The limit that stops a search before its next node. -/
def limitReached (k : SearchTask K L n m) (s : Search K L n) : Option Stop :=
  let elapsed := k.clock s.looks
  if k.config.nodeLimit.any fun limit => limit ≤ s.statistics.nodesExplored then some .aborted
  else if elapsed.reaches k.config.abortAfter then some .aborted
  else if s.incumbent.isSome && elapsed.reaches k.config.sufficeAfter then some .sufficient
  else none

/-- Takes nodes from a queue, as many as there is room for: the state, with what is left of the
queue, the nodes to explore, and the limit that stopped it. -/
def takeBatch (k : SearchTask K L n m) (room : Nat) (q : Queue L) (s : Search K L n) :
    Search K L n × List Nat × Option Stop :=
  match room with
  | 0 => ({ s with queue := q }, [], none)
  | room + 1 =>
    match _taken : q.pop? with
    | none => ({ s with queue := q }, [], none)
    | some (e, rest) =>
      match k.limitReached s with
      | some stop => ({ s with queue := q, looks := s.looks + 1 }, [], some stop)
      | none =>
        let s := { s with looks := s.looks + 1 }
        if k.canImprove s.incumbent e.bound then
          let s := s.tally fun t => { t with nodesExplored := t.nodesExplored + 1 }
          let (s, batch, stop) := takeBatch k room rest s
          (s, e.node :: batch, stop)
        else
          let s := (s.setState e.node .dominated).tally fun t =>
            { t with prunedByBound := t.prunedByBound + 1 }
          takeBatch k (room + 1) rest s
termination_by q.size
decreasing_by all_goals exact Queue.size_lt_of_pop? _taken

/-- One round: the state after it, and why the search stops there, if it does. -/
def round (k : SearchTask K L n m) (s : Search K L n) : Search K L n × Option Stop :=
  let (s, batch, stop) := k.takeBatch k.config.threads s.queue s
  let outcomes := batch.map fun id => (id, k.solver (s.tree.bounds id k.box))
  let s := outcomes.foldl (fun s o => k.process s o.1 o.2) s
  if s.rootUnbounded then (s, some .unbounded)
  else match stop with
    | some stop => (s, some stop)
    | none => (s, if s.queue.isEmpty then some .exhausted else none)

/-- The rounds of a search, at most as many as are left. -/
def rounds (k : SearchTask K L n m) : Nat → Search K L n → Search K L n × Stop
  | 0, s => (s, .outOfRounds)
  | left + 1, s =>
    match k.round s with
    | (s, some stop) => (s, stop)
    | (s, none) => rounds k left s

/-! ## The end -/

/-- The answer of a search that stopped, given the lowest bound of the nodes given up. -/
def status (k : SearchTask K L n m) (s : Search K L n) (stop : Stop) (remaining : Option L) :
    Status :=
  let failed := 0 < s.statistics.numericalFailures
  match stop, s.incumbent with
  | .unbounded, _ => .unbounded
  | .exhausted, some _ => if failed then .suboptimal else .optimal
  | .exhausted, none => if failed then .numericalFailure else .infeasible
  | .sufficient, some _ =>
    let proven := !remaining.any (k.canImprove s.incumbent)
    if proven && !failed then .optimal else .suboptimal
  | _, some _ => .suboptimal
  | _, none => .timeLimit

/-- The objective that no solution is better than: that of the nodes given up, or else that of the
incumbent. -/
def bestBound (k : SearchTask K L n m) (s : Search K L n) (remaining : Option L) : Option L :=
  match remaining, s.incumbent with
  | some bound, _ => some (k.relaxation.toObjectiveLimit bound)
  | none, some i => some (Limits.ofScalar (k.relaxation.toObjective i.cost))
  | none, none => none

/-- The search: its last state and its answer. -/
def run (k : SearchTask K L n m) (roundLimit : Nat) : Search K L n × Status :=
  let (s, stop) := k.rounds roundLimit .start
  let remaining := s.queue.lowestBound
  let s := s.abandon
  let status := k.status s stop remaining
  (s.tally fun t => { t with bestBound := k.bestBound s remaining }, status)

end SearchTask

end Milp
