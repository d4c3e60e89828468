/-!
# Numbers

A problem is stated in two sorts of numbers. A *scalar* is a coefficient, a cost or a value of a
variable. A *limit* is the end of an interval, and may be infinite. Every algorithm of this library
is written over the two classes below and never over one fixed type of numbers, so that what runs
on doubles and what is proved over exact rationals is one definition.
-/

namespace Milp

/-- The arithmetic of coefficients, costs and values. -/
class Scalar (K : Type) extends
    Zero K, One K, Add K, Sub K, Mul K, Div K, Neg K, IntCast K, OfScientific K,
    BEq K, LT K, LE K, Max K, Min K where
  /-- Strict order is decidable. -/
  decideLt : DecidableRel (fun a b : K => a < b)
  /-- Order is decidable. -/
  decideLe : DecidableRel (fun a b : K => a ≤ b)
  /-- The distance from zero. -/
  abs : K → K
  /-- The greatest integer that is not above. -/
  floor : K → K
  /-- The least integer that is not below. -/
  ceil : K → K
  /-- The nearest integer; a half goes away from zero. -/
  round : K → K
  /-- One, with the sign of the number. -/
  sign : K → K
  /-- Neither infinite nor undefined. -/
  isFinite : K → Bool
  /-- The outcome of an operation without a meaning, such as zero times infinity. -/
  isUndefined : K → Bool

attribute [reducible, instance] Scalar.decideLt Scalar.decideLe

/-- The arithmetic of the ends of intervals, which may be infinite. -/
class Limits (L : Type) (K : outParam Type) extends BEq L, LT L, LE L, Max L, Min L, Neg L where
  /-- Strict order is decidable. -/
  decideLt : DecidableRel (fun a b : L => a < b)
  /-- Order is decidable. -/
  decideLe : DecidableRel (fun a b : L => a ≤ b)
  /-- The limit at a scalar. -/
  ofScalar : K → L
  /-- The scalar of a finite limit. -/
  toScalar : L → K
  /-- No lower limit. -/
  below : L
  /-- No upper limit. -/
  above : L
  /-- Neither infinite nor undefined. -/
  isFinite : L → Bool
  /-- The outcome of an operation without a meaning. -/
  isUndefined : L → Bool
  /-- The limit moved up by a scalar. -/
  add : L → K → L
  /-- The limit moved down by a scalar. -/
  sub : L → K → L
  /-- The difference of two limits, where there is one. -/
  diff : L → L → Option L
  /-- The distance from zero. -/
  abs : L → L
  /-- The greatest integer that is not above. -/
  floor : L → L
  /-- The least integer that is not below. -/
  ceil : L → L
  /-- The scalar, raised to a lower limit that it is below of. -/
  raiseTo : K → L → K
  /-- The scalar, lowered to an upper limit that it is above of. -/
  lowerTo : K → L → K
  /-- A total order that also tells signed zeros apart and places undefined limits. -/
  compare : L → L → Ordering

attribute [reducible, instance] Limits.decideLt Limits.decideLe

namespace Scalar

variable {K : Type} [Scalar K]

/-- `base ^ n` by repeated squaring, times `acc`. -/
def powAux (acc base : K) (n : Nat) : K :=
  let acc := if n % 2 = 1 then acc * base else acc
  if n / 2 = 0 then acc else powAux acc (base * base) (n / 2)
termination_by n
decreasing_by omega

/-- Ten to an integer power; a negative power is the inverse of the positive one. -/
def powTen (n : Int) : K :=
  let power := powAux 1 ((10 : Int) : K) n.natAbs
  if n < 0 then 1 / power else power

/-- The sum of a list, from the front. It starts from the negated zero, which is neutral where zeros
have a sign: a sum of zeros is negative only if all of them are. -/
def sum (xs : List K) : K :=
  xs.foldl (· + ·) (-0)

end Scalar

/-- Whether two limits are the ends of an interval. -/
def Limits.isOrdered {K L : Type} [Limits L K] (lower upper : L) : Bool :=
  !Limits.isUndefined lower && !Limits.isUndefined upper && decide (lower ≤ upper)

end Milp
