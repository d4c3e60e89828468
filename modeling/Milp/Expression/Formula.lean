import Milp.Expression.Operand

/-!
# Formulas

The syntax in which expressions are written down: numbers, variables and the operations on them. A
formula is built into an operand from the leaves up.
-/

namespace Milp

/-- A formula. -/
inductive Formula (K : Type)
  | number (n : Number K)
  | var (v : Variable)
  /-- An expression that was built before. -/
  | known (e : Expression K)
  | add (a b : Formula K)
  | sub (a b : Formula K)
  | mul (a : Formula K) (n : Number K)
  | div (a : Formula K) (n : Number K)
  | neg (a : Formula K)
  /-- A number, a variable or an expression made into a new expression. -/
  | convert (a : Formula K)
  /-- A copy of an expression: its terms and its constant added to zero. -/
  | copy (a : Formula K)
  | sum (as : List (Formula K))
  /-- `e` with `factor * a` added to it. -/
  | addMultiple (e : Formula K) (factor : Number K) (a : Formula K)
  /-- `e`, made an expression and multiplied. -/
  | scale (e : Formula K) (factor : Number K)
  /-- `e` with a coefficient added to that of a variable. -/
  | addTerm (e : Formula K) (v : Variable) (c : Number K)
  /-- `e` with its constant moved. -/
  | addConstant (e : Formula K) (c : Number K)

namespace Formula

variable {K : Type} [Scalar K]

mutual

/-- What a formula builds. -/
def operand : Formula K → Operand K
  | number n => .number n.value
  | var v => .var v
  | known e => .expression e
  | add a b => .expression (a.operand + b.operand)
  | sub a b => .expression (a.operand - b.operand)
  | mul a n => .expression (a.operand * n.value)
  | div a n => .expression (a.operand / n.value)
  | neg a => .expression a.operand.neg
  | convert a => .expression a.operand.copy
  | copy a => .expression (Operand.expression a.operand.toExpression).copy
  | sum as => .expression (Operand.sum (operands as))
  | addMultiple e factor a =>
    .expression (Operand.addMultiple e.operand.toExpression factor.value a.operand)
  | scale e factor => .expression (e.operand.toExpression.scale factor.value)
  | addTerm e v c => .expression (e.operand.toExpression.addTerm v c.value)
  | addConstant e c => .expression (e.operand.toExpression.addConstant c.value)

/-- What a list of formulas builds. -/
def operands : List (Formula K) → List (Operand K)
  | [] => []
  | a :: as => a.operand :: operands as

end

/-- The expression that a formula builds. -/
def expression (a : Formula K) : Expression K :=
  a.operand.toExpression

end Formula

end Milp
