import Milp.Search.Run
import Milp.Simplex.Run

/-!
# Solving models

A model is solved by searching over its integer variables, with the simplex method for the
relaxations. Solving leaves the model alone; a solution is committed to it as a separate step.
-/

namespace Milp

/-- A solution of a model. -/
structure Solution (K : Type) where
  objective : K
  /-- One value for each variable, in order. -/
  values : List K

/-- What solving a model yields. -/
structure Result (K L : Type) where
  status : Status
  /-- The objective of the solution; undefined without one. -/
  objective : Option K
  /-- One value for each variable, in order; none at all without a solution. -/
  values : List K
  /-- The names of the variables, in order. -/
  names : List String
  statistics : Statistics K L

namespace Result

variable {K L : Type}

/-- The solution of a result: its values, if they have an objective. -/
def solution (r : Result K L) : Option (Solution K) :=
  r.objective.map fun objective => ⟨objective, r.values⟩

/-- The value of a variable, if there is a solution with that variable. -/
def value? (r : Result K L) (v : Variable) : Option K :=
  r.values[v.index]?

/-- Names beside values. -/
def namedValues (r : Result K L) : List (String × K) :=
  r.names.zip r.values

/-- The value of the variable of a name. -/
def valueOf? (r : Result K L) (name : String) : Option K :=
  r.namedValues.lookup name

end Result

/-- The rounds that one search may take: more than can be run. -/
def roundLimit : Nat := Nat.pow 2 64

variable {K L : Type} [Scalar K] [Limits L K]

/-- The simplex method as a solver of relaxations. -/
def Relaxation.solver {n m : Nat} (p : Relaxation K L n m) (c : Config K) : Solver K L n :=
  p.solveWithin c.feasibility c.iterationLimit

/-- The task of solving a linear program with some of its columns integers. -/
def Relaxation.task {n m : Nat} (p : Relaxation K L n m) (c : Config K)
    (clock : Nat → Duration) : SearchTask K L n m :=
  ⟨p, c, p.solver c, clock⟩

/-- The result of a search task. -/
def SearchTask.result {n m : Nat} (k : SearchTask K L n m) (names : List String) : Result K L :=
  let (s, status) := k.run roundLimit
  let (objective, values) := match s.incumbent with
    | some i =>
      if status.hasSolution then (some (k.relaxation.toObjective i.cost), i.values.toList)
      else (none, [])
    | none => (none, [])
  { status, objective, values, names, statistics := s.statistics }

namespace Model

/-- The result of solving a model, with a clock for the time limits. -/
def solveTimed (m : Model K L) (direction : Direction) (c : Config K)
    (clock : Nat → Duration) : Result K L :=
  ((m.relaxation direction).task c clock).result m.names

/-- The result of solving a model in no time. -/
def solve (m : Model K L) (direction : Direction) (c : Config K) : Result K L :=
  m.solveTimed direction c fun _ => ⟨0⟩

/-- The model with the values of a result assigned. -/
def commit (m : Model K L) (r : Result K L) : Model K L :=
  m.assignAll r.values

/-- Solves a model and commits the solution, if there is one. -/
def optimise (m : Model K L) (direction : Direction) (c : Config K) : Model K L × Result K L :=
  let r := m.solve direction c
  (if r.status.hasSolution then m.commit r else m, r)

/-- The result of solving a model; none where the configuration cannot be run. -/
def solve? (m : Model K L) (direction : Direction) (c : Config K) : Option (Result K L) :=
  if c.isRunnable then some (m.solve direction c) else none

/-- Solves a model and commits the solution; none where the configuration cannot be run. -/
def optimise? (m : Model K L) (direction : Direction) (c : Config K) :
    Option (Model K L × Result K L) :=
  if c.isRunnable then some (m.optimise direction c) else none

end Model

end Milp
