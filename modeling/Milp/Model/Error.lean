import Milp.Expression.Basic
import Milp.Number.Shortest
import Milp.Text.Quoted

/-!
# What a model refuses
-/

namespace Milp

/-- Why a change of a model is refused. -/
inductive ModelError (L : Type)
  | duplicateName (name : String)
  | invalidVariableBounds (name : String) (lower upper : L)
  | invalidConstraintLimits (lower upper : L)
  | unknownVariable (v : Variable)

/-- The message of an error. -/
def ModelError.message {L : Type} [Spelled L] : ModelError L → String
  | duplicateName name => "Duplicate name: " ++ Text.quoted name
  | invalidVariableBounds name lower upper =>
    "Invalid bounds for variable " ++ Text.quoted name
      ++ ": lower (" ++ spell lower ++ ") > upper (" ++ spell upper ++ ")"
  | invalidConstraintLimits lower upper =>
    "Invalid constraint limits: lower (" ++ spell lower ++ ") > upper (" ++ spell upper ++ ")"
  | unknownVariable v =>
    s!"Variable v{v.index} does not belong to this model. "
      ++ "You probably used variables from a different model in this one."

end Milp
