import Milp.Simplex.State

/-!
# Pricing

Which column enters the basis. A column at a lower bound may rise, one at an upper bound may fall, a
free one may do either. The steepest column enters, the first of several; after many steps of length
zero the first column that qualifies enters instead, which cannot cycle.
-/

namespace Milp.SimplexState

variable {K L : Type} [Scalar K] [Limits L K] {n m : Nat}

/-- The multipliers of the rows: the costs of the basis times its inverse. -/
def multipliers (s : SimplexState K L n m) : Vector K m :=
  s.inverse.btran (s.basic.map fun c => (s.cell c).cost)

/-- The cost of a column less what its coefficients are worth. -/
def reducedCost (p : Relaxation K L n m) (s : SimplexState K L n m) (multipliers : Vector K m)
    (c : Column n m) : K :=
  (s.cell c).cost
    - (s.entries p c).foldl (fun (sum : K) e => sum + multipliers[e.1] * e.2) 0

/-- A column that may enter the basis: its direction, one or minus one, and how steeply the cost
falls. -/
structure Entrant (K : Type) (n m : Nat) where
  column : Column n m
  direction : K
  slope : K

/-- A column as an entrant, if it is one. Basic columns are none, nor are fixed ones. -/
def entrant? (p : Relaxation K L n m) (t : Tolerance) (s : SimplexState K L n m)
    (multipliers : Vector K m) (c : Column n m) : Option (Entrant K n m) :=
  let cell := s.cell c
  if cell.place = .basic || cell.lower == cell.upper then none
  else
    let d := s.reducedCost p multipliers c
    if d < -t.absolute && (cell.place = .atLower || cell.place = .free) then
      some ⟨c, 1, Scalar.abs d⟩
    else if t.absolute < d && (cell.place = .atUpper || cell.place = .free) then
      some ⟨c, -1, Scalar.abs d⟩
    else none

/-- The steepest of two entrants, the first on a tie. -/
def steeper (best : Option (Entrant K n m)) (e : Entrant K n m) : Option (Entrant K n m) :=
  match best with
  | none => some e
  | some b => if b.slope < e.slope then some e else best

/-- The column that enters. -/
def price (p : Relaxation K L n m) (t : Tolerance) (s : SimplexState K L n m)
    (multipliers : Vector K m) (first : Bool) : Option (Entrant K n m) :=
  let entrants := (Column.all n m).filterMap (s.entrant? p t multipliers)
  if first then entrants.head? else entrants.foldl steeper none

end Milp.SimplexState
