import Milp.Simplex.State

/-!
# The ratio test

How far an entering column moves, and what stops it: its own other bound, or a basic column that
reaches one of its bounds. Basic columns whose coefficient is tiny beside the largest do not count.
Limits that agree up to a small slack are a tie, won by the larger coefficient or, against cycling,
by the lower column.
-/

namespace Milp

/-- What ends the move of an entering column. -/
inductive Step (m : Nat)
  /-- It reaches its other bound. -/
  | flip
  /-- A basic column reaches a bound and leaves the basis. -/
  | leave (position : Fin m) (toUpper : Bool)
deriving DecidableEq, Repr

namespace SimplexState

variable {K L : Type} [Scalar K] [Limits L K] {n m : Nat}

/-- The least size of a coefficient, as a share of the largest. -/
def relativePivot : K := 1e-9

/-- The least size of a coefficient. -/
def absolutePivot : K := 1e-11

/-- A step of at most this length counts as none; limits this close, relatively, are a tie. -/
def degenerateStep : K := 1e-12

/-- A basic position that stops the move, at which bound and after which length. -/
structure Blocking (K : Type) (m : Nat) where
  position : Fin m
  toUpper : Bool
  limit : K

/-- The size up to which a coefficient does not count. -/
def pivotTolerance (alpha : Vector K m) : K :=
  let largest := alpha.toList.foldl (fun best a => max best (Scalar.abs a)) 0
  max (relativePivot * largest) absolutePivot

/-- Whether a basic position stops a move in a direction, and after which length. -/
def blocking? (s : SimplexState K L n m) (direction : K) (alpha : Vector K m)
    (position : Fin m) : Option (Blocking K m) :=
  let a := alpha[position]
  let cell := s.cell s.basic[position]
  let rate := -direction * a
  if Scalar.abs a ≤ pivotTolerance alpha then none
  else if rate < 0 && Limits.isFinite cell.lower then
    some ⟨position, false, max ((cell.value - Limits.toScalar cell.lower) / -rate) 0⟩
  else if 0 < rate && Limits.isFinite cell.upper then
    some ⟨position, true, max ((Limits.toScalar cell.upper - cell.value) / rate) 0⟩
  else none

/-- Whether a position that stops the move is preferred to the best one so far. -/
def isPreferred (s : SimplexState K L n m) (alpha : Vector K m) (lowest : Bool)
    (best b : Blocking K m) : Bool :=
  let slack := degenerateStep * (1 + best.limit)
  if b.limit < best.limit - slack then true
  else if b.limit ≤ best.limit + slack then
    if lowest then s.basic[b.position].rank < s.basic[best.position].rank
    else Scalar.abs alpha[best.position] < Scalar.abs alpha[b.position]
  else false

/-- The position that stops the move first. -/
def firstBlocking (s : SimplexState K L n m) (direction : K) (alpha : Vector K m)
    (lowest : Bool) : Option (Blocking K m) :=
  ((List.finRange m).filterMap (s.blocking? direction alpha)).foldl
    (fun best b => match best with
      | none => some b
      | some best => if s.isPreferred alpha lowest best b then some b else some best)
    none

/-- What ends the move of an entering column and after which length: none where nothing does. Between
limits without a difference there is no other bound to reach. -/
def ratioTest (s : SimplexState K L n m) (entering : Column n m) (direction : K)
    (alpha : Vector K m) (lowest : Bool) : Option (Step m × K) :=
  let range : Option L := Limits.diff (s.cell entering).upper (s.cell entering).lower
  match s.firstBlocking direction alpha lowest with
  | some b =>
    match range.filter (· ≤ Limits.ofScalar b.limit) with
    | some range => some (.flip, Limits.toScalar range)
    | none => some (.leave b.position b.toUpper, b.limit)
  | none => (range.filter Limits.isFinite).map fun range => (.flip, Limits.toScalar range)

end SimplexState

end Milp
