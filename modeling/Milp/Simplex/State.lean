import Milp.Simplex.Column
import Milp.Simplex.Inverse

/-!
# The state of the simplex method

Every column has bounds, a cost, a value and a place: basic, or resting at a bound, or free at zero.
The starting point rests every structural column at a finite bound. A row that this point keeps has
its logical column in the basis; a row that it breaks rests the logical column at the broken limit
and has its artificial column in the basis.
-/

namespace Milp

/-- Where the value of a column comes from. -/
inductive Place
  | basic
  | atLower
  | atUpper
  | free
deriving DecidableEq, Repr

/-- A column as the simplex method sees it. -/
structure Cell (K L : Type) where
  lower : L
  upper : L
  value : K
  cost : K
  place : Place

/-- A state of the simplex method. -/
structure SimplexState (K L : Type) (n m : Nat) where
  cells : Table (Cell K L) n m
  /-- The coefficients of the artificial columns, of the rows that have one. -/
  signs : Vector (Option K) m
  /-- The basic columns, by position. -/
  basic : Vector (Column n m) m
  inverse : BasisInverse K m
  iterations : Nat
  /-- The number of steps of length zero since the last longer one. -/
  degenerate : Nat

namespace SimplexState

variable {K L : Type} [Scalar K] [Limits L K] {n m : Nat}

/-! ## The start -/

/-- A structural column at rest. -/
def restingCell (lower upper : L) : Cell K L :=
  if Limits.isFinite lower then ⟨lower, upper, Limits.toScalar lower, 0, .atLower⟩
  else if Limits.isFinite upper then ⟨lower, upper, Limits.toScalar upper, 0, .atUpper⟩
  else ⟨lower, upper, 0, 0, .free⟩

/-- What a column adds to the activity of a row, onto a sum. -/
def addActivity (column : SparseColumn K m) (value : K) (i : Fin m) (sum : K) : K :=
  if value == 0 then sum
  else column.foldl (fun sum e => if e.1 = i then sum + e.2 * value else sum) sum

/-- The activities of the rows at values of the structural columns. -/
def activities (p : Relaxation K L n m) (values : Vector K n) : Vector K m :=
  .ofFn fun i => (List.finRange n).foldl
    (fun (sum : K) (j : Fin n) => addActivity p.columns[j] values[j] i sum) 0

/-- How a row starts: its logical column, its artificial column and the coefficient of that, if the
row needs one. -/
structure RowStart (K L : Type) where
  logical : Cell K L
  artificial : Cell K L
  sign : Option K

/-- The start of a row with an activity between two limits. -/
def RowStart.of (t : Tolerance) (lower : L) (activity : K) (upper : L) : RowStart K L :=
  let zero : L := Limits.ofScalar 0
  if t.isBetween lower activity upper then
    ⟨⟨lower, upper, activity, 0, .basic⟩, ⟨zero, zero, 0, 0, .atLower⟩, none⟩
  else
    let target := Limits.lowerTo (Limits.raiseTo activity lower) upper
    let place := if Limits.ofScalar target == lower then Place.atLower else .atUpper
    let gap := target - activity
    ⟨⟨lower, upper, target, 0, place⟩, ⟨zero, Limits.above, Scalar.abs gap, 0, .basic⟩,
      some (Scalar.sign gap)⟩

/-- The state that the simplex method starts from. -/
def start (p : Relaxation K L n m) (box : Box L n) (t : Tolerance) : SimplexState K L n m :=
  let structural : Vector (Cell K L) n := .ofFn fun j => restingCell box.lower[j] box.upper[j]
  let activity := activities p (structural.map (·.value))
  let rows : Vector (RowStart K L) m :=
    .ofFn fun i => .of t p.rows.lower[i] activity[i] p.rows.upper[i]
  { cells := ⟨structural, rows.map (·.logical), rows.map (·.artificial)⟩
    signs := rows.map (·.sign)
    basic := .ofFn fun i => if rows[i].sign.isSome then .artificial i else .logical i
    inverse := .diagonal (rows.map fun r => r.sign.getD (-1))
    iterations := 0
    degenerate := 0 }

/-! ## Reading and writing -/

/-- The coefficients of a column. -/
def entries (p : Relaxation K L n m) (s : SimplexState K L n m) : Column n m → SparseColumn K m
  | .structural j => p.columns[j]
  | .logical i => [(i, -1)]
  | .artificial i =>
    match s.signs[i] with
    | some sign => [(i, sign)]
    | none => []

/-- A column's cell. -/
def cell (s : SimplexState K L n m) (c : Column n m) : Cell K L :=
  s.cells.get c

/-- The state with a column's cell changed. -/
def modify (s : SimplexState K L n m) (c : Column n m) (f : Cell K L → Cell K L) :
    SimplexState K L n m :=
  { s with cells := s.cells.modify c f }

/-- The values of the structural columns. -/
def structuralValues (s : SimplexState K L n m) : Vector K n :=
  s.cells.structural.map (·.value)

/-- The number of rows with an artificial column. -/
def artificialCount (s : SimplexState K L n m) : Nat :=
  s.signs.toList.countP (·.isSome)

end SimplexState

end Milp
