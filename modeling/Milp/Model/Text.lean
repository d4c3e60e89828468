import Milp.Model.Basic

/-!
# The text of models

The objective, then a line for each constraint and a line for each variable.
-/

namespace Milp.Model

variable {K L : Type} [Scalar K] [Limits L K] [Spelled K] [Spelled L]

/-- The name of a variable in the model, or by its place outside it. -/
def nameOf (m : Model K L) (v : Variable) : String :=
  match m.labels[v.index]? with
  | some name => name
  | none => v.placeName

/-- The line of a constraint. -/
def constraintLine (m : Model K L) (c : Constraint K L) : String :=
  c.name.getD "_" ++ ": " ++ c.text m.nameOf ++ "\n"

/-- The line of a variable. -/
def entryLine (e : Entry K L) : String :=
  let d := e.definition
  e.name ++ " " ++ d.domain.text ++ " in [" ++ spell d.lower ++ ", " ++ spell d.upper ++ "]\n"

/-- The text of a model. -/
def text (m : Model K L) : String :=
  "objective: " ++ m.objective.text m.nameOf ++ "\n"
    ++ String.join (m.constraints.toList.map m.constraintLine)
    ++ String.join (m.entries.toList.map entryLine)

end Milp.Model
