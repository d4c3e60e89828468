import Milp.Expression.Operand
import Milp.Expression.Text

/-!
# Constraints

A constraint is a linear body between two limits, either of which may be infinite. A comparison of
two operands becomes one by moving everything variable to the left and the constant to the limits.
-/

namespace Milp

/-- `lower ≤ body ≤ upper`. The body has constant zero. -/
structure Constraint (K L : Type) where
  body : Expression K
  lower : L
  upper : L
  name : Option String

namespace Constraint

variable {K L : Type} [Scalar K] [Limits L K]

/-- The constraint that keeps an expression between two limits. -/
def ofLimits (e : Expression K) (lower upper : L) : Constraint K L where
  body := { e with constant := 0 }
  lower := Limits.sub lower e.constant
  upper := Limits.sub upper e.constant
  name := none

/-- The constraint that keeps an operand between two limits. -/
def range (a : Operand K) (lower upper : L) : Constraint K L :=
  ofLimits a.toExpression lower upper

/-- Gives a name. -/
def named (c : Constraint K L) (name : String) : Constraint K L :=
  { c with name := some name }

/-- The lower limit, if it is finite. -/
def lower? (c : Constraint K L) : Option L :=
  if Limits.isFinite c.lower then some c.lower else none

/-- The upper limit, if it is finite. -/
def upper? (c : Constraint K L) : Option L :=
  if Limits.isFinite c.upper then some c.upper else none

/-- Whether the two limits are equal. -/
def isEquality (c : Constraint K L) : Bool :=
  c.lower == c.upper

/-- The text of a constraint, with names for its variables. -/
def text [Spelled K] [Spelled L] (c : Constraint K L) (name : Variable → String) : String :=
  let body := c.body.linearText name
  match c.lower?, c.upper? with
  | some l, some u =>
    if c.isEquality then body ++ " = " ++ spell l else spell l ++ " <= " ++ body ++ " <= " ++ spell u
  | some l, none => body ++ " >= " ++ spell l
  | none, some u => body ++ " <= " ++ spell u
  | none, none => body ++ " free"

end Constraint

/-- How two operands are compared. -/
inductive Relation
  | atMost
  | atLeast
  | equal
deriving DecidableEq, Repr

/-- A comparison of two operands: of their difference with zero. -/
structure Comparison (K : Type) where
  relation : Relation
  difference : Expression K

namespace Comparison

variable {K L : Type} [Scalar K] [Limits L K]

/-- The constraint that a comparison states. -/
def constraint (c : Comparison K) : Constraint K L :=
  match c.relation with
  | .atMost => .ofLimits c.difference Limits.below (Limits.ofScalar 0)
  | .atLeast => .ofLimits c.difference (Limits.ofScalar 0) Limits.above
  | .equal => .ofLimits c.difference (Limits.ofScalar 0) (Limits.ofScalar 0)

end Comparison

section Comparing

variable {K : Type} [Scalar K]

/-- `a` compared with `b`. -/
def Operand.compare (relation : Relation) (a b : Operand K) : Comparison K :=
  ⟨relation, a - b⟩

/-- An expression compared with an operand. -/
def Expression.compare (relation : Relation) (e : Expression K) (b : Operand K) : Comparison K :=
  ⟨relation, Operand.expression e - b⟩

/-- `a <<< b` states that `a` is at most `b`. -/
instance : HShiftLeft (Operand K) (Operand K) (Comparison K) := ⟨Operand.compare .atMost⟩

/-- `a >>> b` states that `a` is at least `b`. -/
instance : HShiftRight (Operand K) (Operand K) (Comparison K) := ⟨Operand.compare .atLeast⟩

end Comparing

end Milp
