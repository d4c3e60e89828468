/-!
# The shortest decimal of a double

A finite double stands for the interval of reals that round to it. Its text is the decimal of fewest
digits inside that interval; of several with that many digits the one nearest to the double, and of
two equally near the larger. All tests are comparisons of natural numbers.
-/

namespace Milp

/-- A positive double as `mantissa * 2 ^ exponent`. -/
structure Binary where
  mantissa : Nat
  exponent : Int
  /-- The neighbour below is only half as far as the neighbour above. -/
  narrow : Bool

namespace Binary

/-- The parts of a positive finite double, from its bits without the sign. -/
def ofBits (bits : Nat) : Binary :=
  let biased : Nat := bits / Nat.pow 2 52
  let fraction : Nat := bits % Nat.pow 2 52
  if biased = 0 then ⟨fraction, -1074, false⟩
  else ⟨Nat.pow 2 52 + fraction, (biased : Int) - 1075, fraction = 0 && biased > 1⟩

/-- Whether `a * 2 ^ p < b * 10 ^ k`. -/
def ltDecimal (a : Nat) (p : Int) (b : Nat) (k : Int) : Bool :=
  a * Nat.pow 2 p.toNat * Nat.pow 10 (-k).toNat < b * Nat.pow 10 k.toNat * Nat.pow 2 (-p).toNat

/-- Whether `b * 10 ^ k < a * 2 ^ p`. -/
def gtDecimal (a : Nat) (p : Int) (b : Nat) (k : Int) : Bool :=
  b * Nat.pow 10 k.toNat * Nat.pow 2 (-p).toNat < a * Nat.pow 2 p.toNat * Nat.pow 10 (-k).toNat

/-- Whether `digits * 10 ^ k` rounds to the double: it lies between the midpoints to the two
neighbours, which themselves round to an even mantissa. -/
def covers (x : Binary) (digits : Nat) (k : Int) : Bool :=
  let low := 4 * x.mantissa - (if x.narrow then 1 else 2)
  let high := 4 * x.mantissa + 2
  let p := x.exponent - 2
  if x.mantissa % 2 = 0 then !gtDecimal low p digits k && !ltDecimal high p digits k
  else ltDecimal low p digits k && gtDecimal high p digits k

/-- The whole part of the double in units of `10 ^ k`. -/
def quotient (x : Binary) (k : Int) : Nat :=
  (x.mantissa * Nat.pow 2 x.exponent.toNat * Nat.pow 10 (-k).toNat) /
    (Nat.pow 10 k.toNat * Nat.pow 2 (-x.exponent).toNat)

/-- The least `e` with the double below `10 ^ e`. The binary logarithm, times the share of a decimal
digit in a binary one, is off by at most two. -/
def scale (x : Binary) : Int :=
  let low := ((x.mantissa.log2 : Int) + x.exponent) * 30103 / 100000
  if ltDecimal x.mantissa x.exponent 1 low then low
  else if ltDecimal x.mantissa x.exponent 1 (low + 1) then low + 1
  else low + 2

/-- The double's neighbour among the multiples of `10 ^ k` that rounds to it, if one does; the nearer
one of two, the larger one on a tie. -/
def onGrid? (x : Binary) (k : Int) : Option Nat :=
  let d := x.quotient k
  match x.covers d k, x.covers (d + 1) k with
  | true, true => some (if ltDecimal (2 * x.mantissa) x.exponent (2 * d + 1) k then d else d + 1)
  | true, false => some d
  | false, true => some (d + 1)
  | false, false => none

/-- The search for the fewest digits, from `used` digits on. -/
def search (x : Binary) : (left used : Nat) → Nat × Int
  | 0, used => let k := x.scale - used; (x.quotient k, k)
  | left + 1, used =>
    let k := x.scale - used
    match x.onGrid? k with
    | some d => (d, k)
    | none => search x left (used + 1)

/-- The decimal of fewest digits that rounds to the double, as digits and a power of ten. Seventeen
digits always suffice. -/
def shortest (x : Binary) : Nat × Int :=
  search x 17 1

end Binary

/-- The digits of a whole number. -/
def wholeDigits (n : Nat) : List Char :=
  Nat.toDigits 10 n

/-- `digits * 10 ^ k` without an exponent: a point only before a fraction, and no zeros that end one. -/
def positional (digits : Nat) (k : Int) : List Char :=
  if 0 ≤ k then wholeDigits (digits * Nat.pow 10 k.toNat)
  else
    let places := (-k).toNat
    let ds := wholeDigits digits
    let padded := List.replicate (places + 1 - ds.length) '0' ++ ds
    let cut := padded.length - places
    let part := ((padded.drop cut).reverse.dropWhile (· == '0')).reverse
    if part.isEmpty then padded.take cut else padded.take cut ++ '.' :: part

/-- Numbers that can be written. -/
class Spelled (α : Type) where
  /-- The text of a number. -/
  spell : α → String

export Spelled (spell)

/-- The text of a double: its shortest decimal, with the sign of zero kept. -/
def Double.text (x : Float) : String :=
  if x.isNaN then "NaN"
  else
    let bits := x.toBits.toNat
    let magnitude := bits % Nat.pow 2 63
    let body :=
      if magnitude = 0 then ['0']
      else if x.isInf then ['i', 'n', 'f']
      else
        let (digits, k) := (Binary.ofBits magnitude).shortest
        positional digits k
    String.ofList (if bits < Nat.pow 2 63 then body else '-' :: body)

instance : Spelled Float := ⟨Double.text⟩

end Milp
