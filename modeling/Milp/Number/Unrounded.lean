import Milp.Number.Numeral

/-!
# Doubles without rounding

The arithmetic of doubles with every result exact: the rationals, the two infinities, and the
outcome of an operation without a meaning. One type serves as scalar and as limit. There is one
zero, and it divides as a positive number does.
-/

namespace Milp

/-- A double that is not rounded. -/
inductive Unrounded
  | undefined
  | below
  | finite (q : Rat)
  | above
deriving DecidableEq

namespace Unrounded

/-- Order of doubles; an undefined one is in no order. -/
def le : Unrounded → Unrounded → Bool
  | undefined, _ => false
  | _, undefined => false
  | below, _ => true
  | _, above => true
  | finite a, finite b => decide (a ≤ b)
  | _, _ => false

instance : LE Unrounded := ⟨fun a b => le a b = true⟩
instance : LT Unrounded := ⟨fun a b => (le a b && !le b a) = true⟩
instance (a b : Unrounded) : Decidable (a ≤ b) := inferInstanceAs (Decidable (le a b = true))
instance (a b : Unrounded) : Decidable (a < b) :=
  inferInstanceAs (Decidable ((le a b && !le b a) = true))

/-- Whether a double is the outcome of an operation without a meaning. -/
def isUndefined : Unrounded → Bool
  | undefined => true
  | _ => false

/-- Whether a double is a rational. -/
def isFinite : Unrounded → Bool
  | finite _ => true
  | _ => false

/-- A finite double changed by a function, any other one kept. -/
def map (f : Rat → Rat) : Unrounded → Unrounded
  | finite q => finite (f q)
  | x => x

/-- The double with its sign changed. -/
def neg : Unrounded → Unrounded
  | undefined => undefined
  | below => above
  | finite q => finite (-q)
  | above => below

/-- The sum of two doubles; infinities of two signs have none. -/
def add : Unrounded → Unrounded → Unrounded
  | finite a, finite b => finite (a + b)
  | undefined, _ => undefined
  | _, undefined => undefined
  | below, above => undefined
  | above, below => undefined
  | below, _ => below
  | _, below => below
  | above, _ => above
  | _, above => above

/-- The difference of two doubles. -/
def sub (a b : Unrounded) : Unrounded :=
  a.add b.neg

/-- Infinity with the sign of a rational; zero has none. -/
def infinite (q : Rat) : Unrounded :=
  if 0 < q then above else if q < 0 then below else undefined

/-- The product of two doubles; zero and an infinity have none. -/
def mul : Unrounded → Unrounded → Unrounded
  | finite a, finite b => finite (a * b)
  | undefined, _ => undefined
  | _, undefined => undefined
  | finite a, above => infinite a
  | above, finite b => infinite b
  | finite a, below => (infinite a).neg
  | below, finite b => (infinite b).neg
  | above, above => above
  | below, below => above
  | _, _ => below

/-- The quotient of two doubles. -/
def div : Unrounded → Unrounded → Unrounded
  | finite a, finite b => if b = 0 then infinite a else finite (a / b)
  | finite _, above => finite 0
  | finite _, below => finite 0
  | above, finite b => if b < 0 then below else above
  | below, finite b => if b < 0 then above else below
  | _, _ => undefined

/-- The distance from zero. -/
def abs : Unrounded → Unrounded
  | undefined => undefined
  | finite q => finite q.abs
  | _ => above

/-- One with the sign of a double. -/
def sign : Unrounded → Unrounded
  | undefined => undefined
  | below => finite (-1)
  | finite q => finite (Exact.sign q)
  | above => finite 1

/-- The larger of two doubles; an undefined operand is ignored. -/
def max (a b : Unrounded) : Unrounded :=
  if a.isUndefined then b else if b.isUndefined then a else if a < b then b else a

/-- The smaller of two doubles; an undefined operand is ignored. -/
def min (a b : Unrounded) : Unrounded :=
  if a.isUndefined then b else if b.isUndefined then a else if b < a then b else a

/-- The total order of doubles, with an undefined one after the others. -/
def compare (a b : Unrounded) : Ordering :=
  match a.isUndefined, b.isUndefined with
  | true, true => .eq
  | true, false => .gt
  | false, true => .lt
  | false, false => if a < b then .lt else if b < a then .gt else .eq

instance : Scalar Unrounded where
  zero := finite 0
  one := finite 1
  add := add
  sub := sub
  mul := mul
  div := div
  neg := neg
  intCast := fun n => finite (n : Rat)
  ofScientific := fun m s e => finite (OfScientific.ofScientific m s e)
  beq := fun a b => le a b && le b a
  max := Unrounded.max
  min := Unrounded.min
  decideLt := fun a b => inferInstanceAs (Decidable (a < b))
  decideLe := fun a b => inferInstanceAs (Decidable (a ≤ b))
  abs := Unrounded.abs
  floor := map fun q => (q.floor : Rat)
  ceil := map fun q => (q.ceil : Rat)
  round := map Exact.round
  sign := Unrounded.sign
  isFinite := Unrounded.isFinite
  isUndefined := Unrounded.isUndefined

instance : Limits Unrounded Unrounded where
  beq := fun a b => le a b && le b a
  neg := neg
  max := Unrounded.max
  min := Unrounded.min
  decideLt := fun a b => inferInstanceAs (Decidable (a < b))
  decideLe := fun a b => inferInstanceAs (Decidable (a ≤ b))
  ofScalar := id
  toScalar := id
  below := below
  above := above
  isFinite := Unrounded.isFinite
  isUndefined := Unrounded.isUndefined
  add := add
  sub := sub
  diff := fun a b => some (sub a b)
  abs := Unrounded.abs
  floor := map fun q => (q.floor : Rat)
  ceil := map fun q => (q.ceil : Rat)
  raiseTo := Unrounded.max
  lowerTo := Unrounded.min
  compare := Unrounded.compare

instance : OfNumeral Unrounded where
  ofNumeral?
    | .undefined _ => some undefined
    | .infinite negative => some (if negative then below else above)
    | .decimal negative digits exponent => some (finite (Exact.ofDecimal negative digits exponent))

end Unrounded

end Milp
