import Milp.Coordinate
import Milp.Model.Basic
import Milp.Tolerance

/-!
# Relaxations

The matrix form of a problem without its integrality: columns of coefficients, limits of rows and
bounds of columns, and a cost to minimise. Maximising is minimising the negated objective; the
constant of the objective is put back when a cost is turned into an objective.
-/

namespace Milp

/-- What is asked of the objective. -/
inductive Direction
  | minimise
  | maximise
deriving DecidableEq, Repr

/-- The name of a direction. -/
def Direction.text : Direction → String
  | minimise => "minimise"
  | maximise => "maximise"

/-- The factor that turns an objective into a cost. -/
def Direction.sense {K : Type} [Scalar K] : Direction → K
  | minimise => 1
  | maximise => -1

/-- A lower and an upper limit for each of some numbers. -/
structure Box (L : Type) (n : Nat) where
  lower : Vector L n
  upper : Vector L n

/-- The box of the first limits of two lists. A limit that a list does not have is infinite. -/
def Box.ofLists {K L : Type} [Limits L K] (n : Nat) (lower upper : List L) : Box L n where
  lower := .ofFn fun j => lower.getD j Limits.below
  upper := .ofFn fun j => upper.getD j Limits.above

/-- A column with the rows in which it has a coefficient. -/
abbrev SparseColumn (K : Type) (m : Nat) := List (Fin m × K)

/-- A linear program of `n` columns and `m` rows. -/
structure Relaxation (K L : Type) (n m : Nat) where
  columns : Vector (SparseColumn K m) n
  rows : Box L m
  cost : Vector K n
  box : Box L n
  /-- The columns that have to be integers. -/
  integer : Vector Bool n
  direction : Direction
  constant : K

namespace Relaxation

variable {K L : Type} [Scalar K] [Limits L K] {n m : Nat}

/-- The columns with a term of a row at the end of the column of its variable, unless it is zero. -/
def addEntry (row : Fin m) (columns : Vector (SparseColumn K m) n) (t : Variable × K) :
    Vector (SparseColumn K m) n :=
  if h : t.1.index < n then
    if t.2 == 0 then columns else columns.set t.1.index (columns[t.1.index] ++ [(row, t.2)])
  else columns

/-- The linear program of a problem. The terms of the constraints go to the columns row by row. -/
def ofProblem (definitions : Array (Definition L)) (constraints : Array (Constraint K L))
    (objective : Expression K) (direction : Direction) :
    Relaxation K L definitions.size constraints.size where
  columns := (List.finRange constraints.size).foldl
    (fun columns i => constraints.toVector[i].body.terms.foldl (addEntry i) columns)
    (.replicate _ [])
  rows := ⟨constraints.toVector.map (·.lower), constraints.toVector.map (·.upper)⟩
  cost := .ofFn fun j => direction.sense * objective.coefficient ⟨j⟩
  box := ⟨definitions.toVector.map (·.lower), definitions.toVector.map (·.upper)⟩
  integer := definitions.toVector.map (·.domain.isInteger)
  direction
  constant := objective.constant

/-- The cost of values for the columns; values beyond the last column do not count. -/
def costOf (p : Relaxation K L n m) (values : List K) : K :=
  Scalar.sum (List.zipWith (· * ·) p.cost.toList values)

/-- The objective of a cost. -/
def toObjective (p : Relaxation K L n m) (cost : K) : K :=
  p.direction.sense * cost + p.constant

/-- The cost of an objective. -/
def toCost (p : Relaxation K L n m) (objective : K) : K :=
  (objective - p.constant) * p.direction.sense

/-- The objective of values for the columns. -/
def objectiveOf (p : Relaxation K L n m) (values : List K) : K :=
  p.toObjective (p.costOf values)

/-- The objective of a limit of costs. -/
def toObjectiveLimit (p : Relaxation K L n m) (cost : L) : L :=
  Limits.add (match p.direction with
    | .minimise => cost
    | .maximise => -cost) p.constant

end Relaxation

namespace Model

variable {K L : Type} [Scalar K] [Limits L K]

/-- The linear program of a model. -/
def relaxation (m : Model K L) (direction : Direction) :
    Relaxation K L m.definitions.size m.constraints.size :=
  .ofProblem m.definitions m.constraints m.objective direction

end Model

/-- What was found out about a linear program of `n` columns. -/
inductive Verdict (K : Type) (n : Nat)
  | optimal (objective : K) (values : Vector K n)
  | infeasible
  | unbounded
  /-- No answer that can be trusted. -/
  | failed

/-- A verdict, and the iterations that it took. -/
structure Outcome (K : Type) (n : Nat) where
  verdict : Verdict K n
  iterations : Nat

/-- What solves a linear program with other bounds for its columns. -/
abbrev Solver (K L : Type) (n : Nat) := Box L n → Outcome K n

end Milp
