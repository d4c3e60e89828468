import Milp.Number.Double
import Milp.Number.Exact

/-!
# Numerals

The written form of a number: an optional sign, then digits with an optional point and an optional
exponent, or one of the words `inf`, `infinity` and `nan` in any case. A numeral is read in two
steps, from text to its parts and from its parts to a number, so that the grammar does not depend on
the arithmetic.
-/

namespace Milp

/-- What a text says that is read as a number. -/
inductive Numeral
  /-- The word for an undefined number. -/
  | undefined (negative : Bool)
  /-- A word for infinity. -/
  | infinite (negative : Bool)
  /-- `digits * 10 ^ exponent`, with a sign. -/
  | decimal (negative : Bool) (digits : Nat) (exponent : Int)
deriving DecidableEq, Repr

namespace Numeral

/-- Whether a numeral has a minus sign, which an undefined number does not show. -/
def isNegative : Numeral → Bool
  | undefined negative => negative
  | infinite negative => negative
  | decimal negative _ _ => negative

/-- The value of a list of digits. -/
def digitsValue (ds : List Char) : Nat :=
  ds.foldl (fun n d => 10 * n + (d.toNat - '0'.toNat)) 0

/-- A text split at its first sign: whether it is negative, and the rest. -/
def splitSign : List Char → Bool × List Char
  | '-' :: r => (true, r)
  | '+' :: r => (false, r)
  | r => (false, r)

/-- The exponent that ends a numeral; none at all stands for zero. -/
def exponent? : List Char → Option Int
  | [] => some 0
  | c :: r =>
    if c = 'e' ∨ c = 'E' then
      let (negative, ds) := splitSign r
      if ds.isEmpty || !ds.all Char.isDigit then none
      else some (if negative then -(digitsValue ds : Int) else digitsValue ds)
    else none

/-- The digits after an optional point, and what follows them. -/
def fraction : List Char → List Char × List Char
  | '.' :: r => (r.takeWhile Char.isDigit, r.dropWhile Char.isDigit)
  | r => ([], r)

/-- A numeral of digits, without its sign. -/
def decimal? (negative : Bool) (s : List Char) : Option Numeral :=
  let whole := s.takeWhile Char.isDigit
  let (part, rest) := fraction (s.dropWhile Char.isDigit)
  if whole.isEmpty && part.isEmpty then none
  else (exponent? rest).map fun e =>
    .decimal negative (digitsValue (whole ++ part)) (e - part.length)

/-- The numeral that a text spells. -/
def ofChars? (s : List Char) : Option Numeral :=
  let (negative, body) := splitSign s
  let word := body.map Char.toLower
  if word = ['i', 'n', 'f'] ∨ word = ['i', 'n', 'f', 'i', 'n', 'i', 't', 'y'] then
    some (.infinite negative)
  else if word = ['n', 'a', 'n'] then some (.undefined negative)
  else decimal? negative body

end Numeral

/-- Numbers that can be read. Infinity and the undefined number are read where the arithmetic has
them. -/
class OfNumeral (α : Type) where
  /-- The number nearest to what a numeral says. -/
  ofNumeral? : Numeral → Option α

/-- The number that a text spells. -/
def readNumber? {α : Type} [OfNumeral α] (s : String) : Option α :=
  (Numeral.ofChars? s.toList).bind OfNumeral.ofNumeral?

namespace Double

/-- The double nearest to `digits * 10 ^ exponent`. Exponents that leave the range of doubles by far
are decided without computing the power. -/
def ofDecimal (digits : Nat) (exponent : Int) : Float :=
  let magnitude := exponent + (Nat.toDigits 10 digits).length
  if digits = 0 then 0
  else if magnitude > 400 then 1 / 0
  else if magnitude < -400 then 0
  else if exponent < 0 then Float.ofScientific digits true exponent.natAbs
  else Float.ofScientific digits false exponent.natAbs

instance : OfNumeral Float where
  ofNumeral?
    | .undefined _ => some (0 / 0)
    | .infinite negative => some (if negative then -(1 / 0) else 1 / 0)
    | .decimal negative digits exponent =>
      let x := ofDecimal digits exponent
      some (if negative then -x else x)

end Double

namespace Exact

/-- The rational `digits * 10 ^ exponent`, with a sign. -/
def ofDecimal (negative : Bool) (digits : Nat) (exponent : Int) : Rat :=
  let x := (digits : Rat) * (10 : Rat) ^ exponent
  if negative then -x else x

instance : OfNumeral Rat where
  ofNumeral?
    | .decimal negative digits exponent => some (ofDecimal negative digits exponent)
    | _ => none

instance : OfNumeral ExtendedRat where
  ofNumeral?
    | .undefined _ => none
    | .infinite negative => some (if negative then .below else .above)
    | .decimal negative digits exponent => some (.finite (ofDecimal negative digits exponent))

end Exact

end Milp
