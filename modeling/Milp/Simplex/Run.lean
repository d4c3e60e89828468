import Milp.Simplex.Pricing
import Milp.Simplex.RatioTest

/-!
# The simplex method

Bounded primal simplex in two phases: the first drives the artificial columns to zero, the second
minimises the cost. The inverse of the basis is computed anew after a number of updates and at the
end.
-/

namespace Milp

/-- How the simplex method ends. -/
inductive Ending
  | optimal
  | infeasible
  | unbounded
  /-- Without an answer that can be trusted. -/
  | failed
deriving DecidableEq, Repr

namespace Cell

variable {K L : Type} [Scalar K] [Limits L K]

/-- A cell that comes to rest at one of its bounds. -/
def restAt (toUpper : Bool) (c : Cell K L) : Cell K L :=
  if toUpper then { c with value := Limits.toScalar c.upper, place := .atUpper }
  else { c with value := Limits.toScalar c.lower, place := .atLower }

/-- An artificial column after the first phase: without cost, and fixed at zero unless it is basic. -/
def close (c : Cell K L) : Cell K L :=
  let c := { c with cost := 0, upper := Limits.ofScalar 0 }
  if c.place = .basic then c else { c with value := 0, place := .atLower }

end Cell

namespace SimplexState

variable {K L : Type} [Scalar K] [Limits L K] {n m : Nat}

/-- The number of updates after which the inverse is computed anew. -/
def refactorInterval : Nat := 64

/-- The number of steps of length zero after which the first column that qualifies enters. -/
def degenerateLimit : Nat := 50

/-! ## One step -/

/-- The values after an entering column has moved by a length. -/
def move (s : SimplexState K L n m) (entering : Column n m) (direction : K) (alpha : Vector K m)
    (length : K) : SimplexState K L n m :=
  if 0 < length then
    let s := s.modify entering fun c => { c with value := c.value + direction * length }
    (List.finRange m).foldl
      (fun s i => s.modify s.basic[i] fun c =>
        { c with value := c.value - direction * alpha[i] * length }) s
  else s

/-- The state after a column has entered, moved and been stopped. -/
def apply (s : SimplexState K L n m) (entering : Column n m) (direction : K) (alpha : Vector K m)
    (step : Step m) (length : K) : SimplexState K L n m :=
  let s := s.move entering direction alpha length
  match step with
  | .flip => s.modify entering (Cell.restAt (decide (0 < direction)))
  | .leave position toUpper =>
    let s := s.modify s.basic[position] (Cell.restAt toUpper)
    let s := s.modify entering fun c => { c with place := .basic }
    { s with basic := s.basic.put position entering, inverse := s.inverse.pivot position alpha }

/-- The state with one more step counted. -/
def count (s : SimplexState K L n m) (length : K) : SimplexState K L n m :=
  { s with
    iterations := s.iterations + 1
    degenerate := if length ≤ degenerateStep then s.degenerate + 1 else 0 }

/-! ## Computing the inverse anew -/

/-- What the nonbasic columns leave to the basic ones, in every row. -/
def residual (p : Relaxation K L n m) (s : SimplexState K L n m) : Vector K m :=
  .ofFn fun i => (Column.all n m).foldl
    (fun (sum : K) c =>
      let cell := s.cell c
      if cell.place = .basic || cell.value == 0 then sum
      else (s.entries p c).foldl
        (fun sum e => if e.1 = i then sum - e.2 * cell.value else sum) sum) 0

/-- The state with its inverse and the values of the basic columns computed anew: none where the
basis is singular. -/
def refactorize? (p : Relaxation K L n m) (s : SimplexState K L n m) :
    Option (SimplexState K L n m) :=
  (BasisInverse.factorize? (s.basic.map (s.entries p))).map fun inverse =>
    let values := inverse.ftranDense (s.residual p)
    (List.finRange m).foldl
      (fun s i => s.modify s.basic[i] fun c => { c with value := values[i] })
      { s with inverse }

/-- The state that a step starts from, its inverse computed anew where that is due: none where the
basis is singular. -/
def refresh? (p : Relaxation K L n m) (s : SimplexState K L n m) : Option (SimplexState K L n m) :=
  if refactorInterval ≤ s.inverse.updates then s.refactorize? p else some s

/-! ## A phase -/

/-- Whether the next entering column is the first that qualifies. -/
def entersFirst (s : SimplexState K L n m) : Bool :=
  degenerateLimit ≤ s.degenerate

/-- One step: the state after it, or how the phase ends. -/
def step (p : Relaxation K L n m) (t : Tolerance) (s : SimplexState K L n m) :
    Ending ⊕ SimplexState K L n m :=
  match s.price p t s.multipliers s.entersFirst with
  | none => .inl .optimal
  | some e =>
    let alpha := s.inverse.ftran (s.entries p e.column)
    match s.ratioTest e.column e.direction alpha s.entersFirst with
    | none => .inl .unbounded
    | some (step, length) =>
      .inr ((s.apply e.column e.direction alpha step length).count length)

/-- The steps of a phase, as many as are left. -/
def runPhase (p : Relaxation K L n m) (t : Tolerance) :
    Nat → SimplexState K L n m → Ending × SimplexState K L n m
  | 0, s => (.failed, s)
  | left + 1, s =>
    match s.refresh? p with
    | none => (.failed, s)
    | some s =>
      match s.step p t with
      | .inl ending => (ending, s)
      | .inr s => runPhase p t left s

/-! ## Two phases -/

/-- The state of the first phase: artificial columns cost one, others nothing. -/
def forFeasibility (s : SimplexState K L n m) : SimplexState K L n m :=
  { s with
    cells := { s.cells with artificial := s.cells.artificial.map fun c => { c with cost := 1 } } }

/-- The sum of the artificial columns. -/
def infeasibility (s : SimplexState K L n m) : K :=
  Scalar.sum (s.cells.artificial.toList.map (·.value))

/-- The largest finite limit of a row, at least one. -/
def largestLimit (p : Relaxation K L n m) : K :=
  (p.rows.lower.toList ++ p.rows.upper.toList).foldl
    (fun best l => if Limits.isFinite l then max best (Scalar.abs (Limits.toScalar l)) else best) 1

/-- The sum of the artificial columns up to which rows count as kept. -/
def infeasibilityAllowed (p : Relaxation K L n m) (t : Tolerance) (s : SimplexState K L n m) : K :=
  t.epsilon (largestLimit p) * ((s.artificialCount : Int) : K)

/-- The state of the second phase: structural columns have their cost. -/
def forCost (p : Relaxation K L n m) (s : SimplexState K L n m) : SimplexState K L n m :=
  { s with
    cells := { s.cells with
      structural := .ofFn fun j => { s.cells.structural[j] with cost := p.cost[j] } }
    degenerate := 0 }

/-- The state between the phases: artificial columns are fixed at zero. -/
def closeArtificial (s : SimplexState K L n m) : SimplexState K L n m :=
  { s with cells := { s.cells with artificial := s.cells.artificial.map Cell.close } }

/-- The first phase, where a row needs it. It ends optimal where all rows are kept. -/
def reachFeasibility (p : Relaxation K L n m) (t : Tolerance) (limit : Nat)
    (s : SimplexState K L n m) : Ending × SimplexState K L n m :=
  if s.artificialCount = 0 then (.optimal, s)
  else
    match s.forFeasibility.runPhase p t limit with
    | (.optimal, s) =>
      if s.infeasibilityAllowed p t < s.infeasibility then (.infeasible, s)
      else (.optimal, s.closeArtificial)
    | (_, s) => (.failed, s)

/-- The second phase, within what is left of the iterations. -/
def minimise (p : Relaxation K L n m) (t : Tolerance) (limit : Nat)
    (s : SimplexState K L n m) : Ending × SimplexState K L n m :=
  match (s.forCost p).runPhase p t (limit - s.iterations) with
  | (.optimal, s) =>
    if 0 < s.inverse.updates then
      match s.refactorize? p with
      | some s => (.optimal, s)
      | none => (.failed, s)
    else (.optimal, s)
  | (ending, s) => (ending, s)

/-- Both phases. -/
def run (p : Relaxation K L n m) (t : Tolerance) (limit : Nat)
    (s : SimplexState K L n m) : Ending × SimplexState K L n m :=
  match s.reachFeasibility p t limit with
  | (.optimal, s) => s.minimise p t limit
  | (ending, s) => (ending, s)

/-- The values of the structural columns, moved into a box. -/
def valuesWithin (s : SimplexState K L n m) (box : Box L n) : Vector K n :=
  .ofFn fun j =>
    Limits.lowerTo (Limits.raiseTo (s.cells.structural[j]).value box.lower[j]) box.upper[j]

end SimplexState

namespace Relaxation

variable {K L : Type} [Scalar K] [Limits L K] {n m : Nat}

/-- The verdict of the simplex method within a box. -/
def verdict (p : Relaxation K L n m) (box : Box L n) :
    Ending × SimplexState K L n m → Verdict K n
  | (.optimal, s) =>
    let values := s.valuesWithin box
    .optimal (p.objectiveOf values.toList) values
  | (.infeasible, _) => .infeasible
  | (.unbounded, _) => .unbounded
  | (.failed, _) => .failed

/-- The answer for a linear program within a box. A box with crossed limits is empty. -/
def solveWithin (p : Relaxation K L n m) (t : Tolerance) (limit : Nat) (box : Box L n) :
    Outcome K n :=
  if (List.finRange n).any fun j => box.upper[j] < box.lower[j] then ⟨.infeasible, 0⟩
  else
    let last := (SimplexState.start p box t).run p t limit
    ⟨p.verdict box last, last.2.iterations⟩

/-- The answer for a linear program within its own bounds. -/
def solve (p : Relaxation K L n m) (t : Tolerance) (limit : Nat) : Outcome K n :=
  p.solveWithin t limit p.box

end Relaxation

end Milp
