import Milp.Number.Scalar

/-!
# Exact numbers

Rationals as scalars, and rationals with two infinities as limits: the arithmetic in which the
algorithms are reasoned about.
-/

namespace Milp

/-- A rational or one of the two infinities. -/
inductive ExtendedRat
  | below
  | finite (q : Rat)
  | above
deriving DecidableEq

namespace ExtendedRat

/-- Order of the extended rationals. -/
def le : ExtendedRat → ExtendedRat → Bool
  | below, _ => true
  | _, above => true
  | finite a, finite b => decide (a ≤ b)
  | _, _ => false

instance : LE ExtendedRat := ⟨fun a b => le a b = true⟩
instance : LT ExtendedRat := ⟨fun a b => le b a = false⟩
instance (a b : ExtendedRat) : Decidable (a ≤ b) := inferInstanceAs (Decidable (le a b = true))
instance (a b : ExtendedRat) : Decidable (a < b) := inferInstanceAs (Decidable (le b a = false))

/-- The scalar of a finite limit, and zero for an infinite one. -/
def toRat : ExtendedRat → Rat
  | finite q => q
  | _ => 0

/-- A finite limit changed by a function, an infinite one kept. -/
def map (f : Rat → Rat) : ExtendedRat → ExtendedRat
  | finite q => finite (f q)
  | x => x

/-- The limit with its sign changed. -/
def neg : ExtendedRat → ExtendedRat
  | below => above
  | finite q => finite (-q)
  | above => below

/-- The difference of two limits; equal infinities have none. -/
def diff : ExtendedRat → ExtendedRat → Option ExtendedRat
  | finite a, finite b => some (finite (a - b))
  | above, above => none
  | below, below => none
  | above, _ => some above
  | _, below => some above
  | _, _ => some below

/-- The distance from zero. -/
def abs : ExtendedRat → ExtendedRat
  | finite q => finite q.abs
  | _ => above

/-- The larger of two limits. -/
def max (a b : ExtendedRat) : ExtendedRat :=
  if a ≤ b then b else a

/-- The smaller of two limits. -/
def min (a b : ExtendedRat) : ExtendedRat :=
  if a ≤ b then a else b

/-- The total order as a comparison. -/
def compare (a b : ExtendedRat) : Ordering :=
  if a < b then .lt else if a = b then .eq else .gt

end ExtendedRat

namespace Exact

/-- The nearest integer; a half goes away from zero. -/
def round (q : Rat) : Rat :=
  if 0 ≤ q then ((q + 1 / 2).floor : Rat) else ((q - 1 / 2).ceil : Rat)

/-- One with the sign of a rational; zero counts as positive. -/
def sign (q : Rat) : Rat :=
  if 0 ≤ q then 1 else -1

instance : Scalar Rat where
  toZero := Zero.ofOfNat0
  toOne := One.ofOfNat1
  toMax := Rat.instMax
  toMin := Rat.instMin
  decideLt := fun a b => inferInstanceAs (Decidable (a < b))
  decideLe := fun a b => inferInstanceAs (Decidable (a ≤ b))
  abs := Rat.abs
  floor := fun q => (q.floor : Rat)
  ceil := fun q => (q.ceil : Rat)
  round := round
  sign := sign
  isFinite := fun _ => true
  isUndefined := fun _ => false

instance : Limits ExtendedRat Rat where
  neg := ExtendedRat.neg
  max := ExtendedRat.max
  min := ExtendedRat.min
  decideLt := fun a b => inferInstanceAs (Decidable (a < b))
  decideLe := fun a b => inferInstanceAs (Decidable (a ≤ b))
  ofScalar := .finite
  toScalar := ExtendedRat.toRat
  below := .below
  above := .above
  isFinite := fun x => match x with
    | .finite _ => true
    | _ => false
  isUndefined := fun _ => false
  add := fun x q => x.map (· + q)
  sub := fun x q => x.map (· - q)
  diff := ExtendedRat.diff
  abs := ExtendedRat.abs
  floor := ExtendedRat.map fun q => (q.floor : Rat)
  ceil := ExtendedRat.map fun q => (q.ceil : Rat)
  raiseTo := fun q x => match x with
    | .finite l => @Max.max Rat Rat.instMax q l
    | _ => q
  lowerTo := fun q x => match x with
    | .finite u => @Min.min Rat Rat.instMin q u
    | _ => q
  compare := ExtendedRat.compare

end Exact

end Milp
