import Milp.Number.Scalar

/-!
# Double precision

The numbers that programs run on. One type serves as scalar and as limit, because doubles hold the
two infinities themselves. An undefined operand of `max` and `min` is ignored.
-/

namespace Milp.Double

/-! ## Extremes and signs -/

/-- The larger of two doubles; an undefined operand is ignored. -/
def max (a b : Float) : Float :=
  if a.isNaN then b else if b.isNaN then a else if a < b then b else a

/-- The smaller of two doubles; an undefined operand is ignored. -/
def min (a b : Float) : Float :=
  if a.isNaN then b else if b.isNaN then a else if b < a then b else a

/-- One with the sign of a double, zeros included. -/
def sign (a : Float) : Float :=
  if a.isNaN then a else if a.toBits < 0x8000000000000000 then 1 else -1

/-! ## Integers -/

/-- The integer next to a double on the side of zero, with the sign of the double: the bits of its
mantissa that stand for a fraction are cleared, or all bits but the sign where the double is less than
one. -/
def trunc (a : Float) : Float :=
  let bits := a.toBits.toNat
  let exponent := bits / Nat.pow 2 52 % Nat.pow 2 11
  let cleared := if exponent < 1023 then 63 else 1075 - exponent
  .ofBits (.ofNat (bits - bits % Nat.pow 2 cleared))

/-- The greatest integer that is not above a double. -/
def floor (a : Float) : Float :=
  let t := trunc a
  if a < t then t - 1 else t

/-- The least integer that is not below a double. -/
def ceil (a : Float) : Float :=
  let t := trunc a
  if t < a then t + 1 else t

/-- The integer nearest to a double; a half goes away from zero. -/
def round (a : Float) : Float :=
  let t := trunc a
  if 0.5 ≤ (a - t).abs then t + sign a else t

/-! ## The total order -/

/-- The place of a double in the total order of its bits: positive ones count up from zero, negative
ones down from minus one. The undefined double has the sign of a positive one and bits above those of
infinity, so that it comes last. -/
def rank (a : Float) : Int64 :=
  let bits := a.toBits
  if bits < 0x8000000000000000 then bits.toInt64
  else -(bits - 0x8000000000000000).toInt64 - 1

/-- The total order of doubles. -/
def compare (a b : Float) : Ordering :=
  Ord.compare (rank a) (rank b)

/-- The double nearest to a double's single precision value. -/
def toSingle (a : Float) : Float :=
  a.toFloat32.toFloat

instance : Scalar Float where
  zero := 0
  one := 1
  intCast := Float.ofInt
  max := Double.max
  min := Double.min
  decideLt := fun a b => inferInstanceAs (Decidable (a < b))
  decideLe := fun a b => inferInstanceAs (Decidable (a ≤ b))
  abs := Float.abs
  floor := Double.floor
  ceil := Double.ceil
  round := Double.round
  sign := Double.sign
  isFinite := Float.isFinite
  isUndefined := Float.isNaN

instance : Limits Float Float where
  max := Double.max
  min := Double.min
  decideLt := fun a b => inferInstanceAs (Decidable (a < b))
  decideLe := fun a b => inferInstanceAs (Decidable (a ≤ b))
  ofScalar := id
  toScalar := id
  below := -(1 / 0)
  above := 1 / 0
  isFinite := Float.isFinite
  isUndefined := Float.isNaN
  add := Float.add
  sub := Float.sub
  diff := fun a b => some (a - b)
  abs := Float.abs
  floor := Double.floor
  ceil := Double.ceil
  raiseTo := Double.max
  lowerTo := Double.min
  compare := Double.compare

end Milp.Double
