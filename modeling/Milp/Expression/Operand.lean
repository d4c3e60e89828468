import Milp.Expression.Basic

/-!
# Operands

Numbers, variables and expressions mix freely in arithmetic. This module says what each operation
yields, whichever of the three its operands are.
-/

namespace Milp

/-- A number that stands in a formula, with its written type. -/
inductive Number (K : Type)
  | scalar (x : K)
  | unsigned (n : UInt32)
  | signed (n : Int32)

/-- The scalar of a number. -/
def Number.value {K : Type} [Scalar K] : Number K → K
  | scalar x => x
  | unsigned n => ((n.toNat : Int) : K)
  | signed n => (n.toInt : K)

/-- What arithmetic on expressions takes. -/
inductive Operand (K : Type)
  | number (x : K)
  | var (v : Variable)
  | expression (e : Expression K)

namespace Operand

variable {K : Type} [Scalar K]

/-- The terms of an operand. -/
def terms : Operand K → List (Variable × K)
  | number _ => []
  | var v => [(v, 1)]
  | expression e => e.terms

/-- The constant of an operand. -/
def constant : Operand K → K
  | number x => x
  | var _ => 0
  | expression e => e.constant

/-- The expression that is built from the terms and the constant of an operand. -/
def copy : Operand K → Expression K
  | number x => .ofScalar x
  | a => (a.terms.foldl (fun (e : Expression K) t => e.addTerm t.1 t.2) .zero).addConstant a.constant

/-- An operand as an expression; an expression is itself. -/
def toExpression : Operand K → Expression K
  | expression e => e
  | a => a.copy

/-- An expression with a multiple of an operand added. -/
def addMultiple (e : Expression K) (factor : K) (a : Operand K) : Expression K :=
  e.addMultiple factor a.terms a.constant

/-- The sum of two operands. A number before an expression is added to it. -/
def add : Operand K → Operand K → Expression K
  | number x, expression e => addMultiple e 1 (number x)
  | a, b => addMultiple a.toExpression 1 b

/-- The difference of two operands. -/
def sub (a b : Operand K) : Expression K :=
  addMultiple a.toExpression (-1) b

/-- The product of an operand and a number. -/
def mul : Operand K → K → Expression K
  | var v, x => ⟨[(v, x)], 0⟩
  | a, x => a.toExpression.scale x

/-- An operand divided by a number: the product with its inverse. -/
def div (a : Operand K) (x : K) : Expression K :=
  a.mul (1 / x)

/-- An operand with its sign changed. -/
def neg (a : Operand K) : Expression K :=
  a.toExpression.scale (-1)

/-- The sum of a list of operands. -/
def sum (as : List (Operand K)) : Expression K :=
  as.foldl (fun e a => addMultiple e 1 a) .zero

instance : HAdd (Operand K) (Operand K) (Expression K) := ⟨add⟩
instance : HSub (Operand K) (Operand K) (Expression K) := ⟨sub⟩
instance : HMul (Operand K) K (Expression K) := ⟨mul⟩
instance : HDiv (Operand K) K (Expression K) := ⟨div⟩

end Operand

end Milp
