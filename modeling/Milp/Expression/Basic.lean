import Milp.Number.Scalar

/-!
# Expressions

An affine expression is a constant and one coefficient for each of some variables. The terms are
kept in the order of their variables, one term a variable; a coefficient that has become zero stays,
because the variable still occurs.
-/

namespace Milp

/-- A variable of a model, named by its place. -/
structure Variable where
  index : Nat
deriving DecidableEq, Repr

/-- An affine expression. -/
structure Expression (K : Type) where
  /-- Coefficients, by ascending variable. -/
  terms : List (Variable × K)
  constant : K

namespace Expression

variable {K : Type} [Scalar K]

/-- The expression without terms. -/
def ofScalar (x : K) : Expression K := ⟨[], x⟩

/-- The expression zero. -/
def zero : Expression K := ofScalar 0

instance : Inhabited (Expression K) := ⟨zero⟩

/-- The expression zero with room for a number of terms. Room is made in powers of two, an eighth of
it left empty; there is none for more terms than memory can address. -/
def withRoom? (terms : Nat) : Option (Expression K) :=
  if terms ≤ 7 * Nat.pow 2 55 then some zero else none

/-- Terms with a coefficient added to that of a variable, which starts at zero. -/
def addTo (v : Variable) (c : K) : List (Variable × K) → List (Variable × K)
  | [] => [(v, 0 + c)]
  | (w, d) :: r =>
    if v.index < w.index then (v, 0 + c) :: (w, d) :: r
    else if v = w then (w, d + c) :: r
    else (w, d) :: addTo v c r

/-- The expression with a coefficient added to that of a variable. -/
def addTerm (e : Expression K) (v : Variable) (c : K) : Expression K :=
  { e with terms := addTo v c e.terms }

/-- The expression with its constant moved. -/
def addConstant (e : Expression K) (c : K) : Expression K :=
  { e with constant := e.constant + c }

/-- The expression with a multiple of some terms and a constant added. -/
def addMultiple (e : Expression K) (factor : K) (terms : List (Variable × K)) (constant : K) :
    Expression K where
  terms := terms.foldl (fun ts t => addTo t.1 (factor * t.2) ts) e.terms
  constant := e.constant + factor * constant

/-- The expression times a number. -/
def scale (e : Expression K) (factor : K) : Expression K where
  terms := e.terms.map fun t => (t.1, t.2 * factor)
  constant := e.constant * factor

/-- The coefficient of a variable, zero where it does not occur. -/
def coefficient (e : Expression K) (v : Variable) : K :=
  match e.terms.find? fun t => t.1 = v with
  | some t => t.2
  | none => 0

/-- The variables that occur, ascending. -/
def occurring (e : Expression K) : List Variable :=
  e.terms.map (·.1)

/-- Equality of constants and of stored terms, in the equality of the arithmetic. -/
def same (a b : Expression K) : Bool :=
  a.constant == b.constant && a.occurring == b.occurring
    && (a.terms.zip b.terms).all fun (s, t) => s.2 == t.2

/-- The value at an assignment: the constant plus the sum of the terms. There is none where a
variable that occurs has no value. -/
def eval? (e : Expression K) (value : Variable → Option K) : Option K :=
  (e.terms.mapM fun t => (value t.1).map (t.2 * ·)).map fun xs => e.constant + Scalar.sum xs

end Expression

end Milp
