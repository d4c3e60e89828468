import Milp.Number.Scalar

/-!
# Definitions of variables

What a model says of a variable: a name, if one was given, the set it ranges over, and its bounds.
-/

namespace Milp

/-- The set that a variable ranges over. -/
inductive Domain
  | continuous
  | integer
  | binary
deriving DecidableEq, Repr

/-- Whether the values of a domain are integers. -/
def Domain.isInteger : Domain → Bool
  | continuous => false
  | _ => true

/-- The name of a domain. -/
def Domain.text : Domain → String
  | continuous => "continuous"
  | integer => "integer"
  | binary => "binary"

/-- The definition of a variable. -/
structure Definition (L : Type) where
  /-- The name that was given, if any. -/
  name : Option String
  domain : Domain
  lower : L
  upper : L

namespace Definition

variable {K L : Type} [Scalar K] [Limits L K]

/-- A continuous variable without name and without bounds. -/
def free : Definition L where
  name := none
  domain := .continuous
  lower := Limits.below
  upper := Limits.above

/-- Gives a name. -/
def named (d : Definition L) (name : String) : Definition L :=
  { d with name := some name }

/-- Sets the lower bound. -/
def withLower (d : Definition L) (lower : L) : Definition L :=
  { d with lower }

/-- Sets the upper bound. -/
def withUpper (d : Definition L) (upper : L) : Definition L :=
  { d with upper }

/-- Sets both bounds; a side that is left out has none. -/
def withBounds (d : Definition L) (lower upper : Option L) : Definition L :=
  { d with lower := lower.getD Limits.below, upper := upper.getD Limits.above }

/-- Makes the variable an integer. -/
def integer (d : Definition L) : Definition L :=
  { d with domain := .integer }

/-- Makes the variable zero or one. -/
def binary (d : Definition L) : Definition L :=
  { d with domain := .binary, lower := Limits.ofScalar 0, upper := Limits.ofScalar 1 }

end Definition

end Milp
