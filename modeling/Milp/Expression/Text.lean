import Milp.Expression.Basic
import Milp.Number.Shortest

/-!
# The text of expressions

Terms in the order of their variables, joined by ` + `. Terms with coefficient zero do not show, nor
does a coefficient one or, beside a term, a constant near zero.
-/

namespace Milp

/-- The name of a variable outside any model. -/
def Variable.placeName (v : Variable) : String :=
  s!"v{v.index}"

namespace Expression

variable {K : Type} [Scalar K] [Spelled K]

/-- The distance from one to the next double: how closely a coefficient has to be one, or a constant
zero, not to show. -/
def resolution : K := 2.220446049250313e-16

/-- Whether some term shows. -/
def hasTerms (e : Expression K) : Bool :=
  e.terms.any fun t => !(t.2 == 0)

/-- One term, with a name for its variable. -/
def termText (name : Variable → String) (t : Variable × K) : String :=
  if resolution < Scalar.abs (t.2 - 1) then spell t.2 ++ " " ++ name t.1 else name t.1

/-- The terms without the constant; zero where none shows. -/
def linearText (e : Expression K) (name : Variable → String) : String :=
  if e.hasTerms then
    " + ".intercalate ((e.terms.filter fun t => !(t.2 == 0)).map (termText name))
  else "0"

/-- The whole expression. -/
def text (e : Expression K) (name : Variable → String) : String :=
  if e.hasTerms then
    if resolution ≤ Scalar.abs e.constant then e.linearText name ++ " + " ++ spell e.constant
    else e.linearText name
  else spell e.constant

end Expression

end Milp
