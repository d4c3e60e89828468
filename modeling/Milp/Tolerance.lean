import Milp.Number.Scalar

/-!
# Tolerances

When two numbers are equal enough. A value is compared with a reference up to
`max (10 ^ -scale) (|reference| * 10 ^ -precision)`: an absolute tolerance near zero, a relative one
for large numbers. Feasibility, integrality and the agreement of two objectives all use this rule.
-/

namespace Milp

/-- The number of digits that two numbers have to agree in. -/
structure Tolerance where
  /-- Digits of relative agreement. -/
  precision : UInt32
  /-- Decimal places of absolute agreement. -/
  scale : Int32
deriving DecidableEq, Repr

namespace Tolerance

/-- The tolerance of a comparison that names none. -/
def standard : Tolerance := ⟨12, 8⟩

instance : Inhabited Tolerance := ⟨standard⟩

/-- The power of ten of the absolute tolerance, a word that wraps. -/
def absoluteExponent (t : Tolerance) : Int32 := -t.scale

/-- The power of ten of the relative tolerance, a word that wraps. -/
def relativeExponent (t : Tolerance) : Int32 := -t.precision.toInt32

/-- The text of a tolerance. -/
def text (t : Tolerance) : String :=
  s!"precision={t.precision.toNat} scale={t.scale.toInt}"

variable {K L : Type} [Scalar K] [Limits L K]

/-- The tolerance near zero. -/
def absolute (t : Tolerance) : K :=
  Scalar.powTen t.absoluteExponent.toInt

/-- The tolerance as a share of the reference. -/
def relative (t : Tolerance) : K :=
  Scalar.powTen t.relativeExponent.toInt

/-- How far a number may lie from a reference, given whether the reference is finite. -/
def slack (t : Tolerance) (finite : Bool) (reference : K) : K :=
  max t.absolute (if finite then Scalar.abs reference * t.relative else 0)

/-- How far a number may lie from a scalar. -/
def epsilon (t : Tolerance) (reference : K) : K :=
  t.slack (Scalar.isFinite reference) reference

/-- How far a number may lie from a limit. -/
def epsilonOf (t : Tolerance) (limit : L) : K :=
  t.slack (Limits.isFinite limit) (Limits.toScalar limit)

/-- Whether a value agrees with a reference. -/
def within (t : Tolerance) (reference value : K) : Bool :=
  reference == value || decide (Scalar.abs (reference - value) ≤ t.epsilon reference)

/-- Whether a value agrees with zero. -/
def isZero (t : Tolerance) (value : K) : Bool :=
  t.within 0 value

/-- Whether a value agrees with its nearest integer. -/
def isIntegral (t : Tolerance) (value : K) : Bool :=
  Scalar.isFinite value && t.within (Scalar.round value) value

/-- Whether a value agrees with a limit. -/
def meets (t : Tolerance) (limit : L) (value : K) : Bool :=
  limit == Limits.ofScalar value
    || decide (Limits.abs (Limits.sub limit value) ≤ Limits.ofScalar (t.epsilonOf limit))

/-- Whether a value is below an upper limit or agrees with it. -/
def isAtMost (t : Tolerance) (value : K) (limit : L) : Bool :=
  decide (Limits.ofScalar value ≤ limit) || t.meets limit value

/-- Whether a value is above a lower limit or agrees with it. -/
def isAtLeast (t : Tolerance) (value : K) (limit : L) : Bool :=
  decide (limit ≤ Limits.ofScalar value) || t.meets limit value

/-- Whether a value lies between two limits or agrees with one. -/
def isBetween (t : Tolerance) (lower : L) (value : K) (upper : L) : Bool :=
  !Scalar.isUndefined value && t.isAtLeast value lower && t.isAtMost value upper

end Tolerance

end Milp
