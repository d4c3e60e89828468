import Milp.Number.Scalar
import Milp.Relaxation

/-!
# The inverse of a basis

The inverse of a square matrix given by sparse columns. It is computed by Gauss-Jordan elimination
with row exchanges, and changed with one elementary transformation when a column is replaced.
-/

namespace Milp

/-- The inverse of a basis of `m` columns. -/
structure BasisInverse (K : Type) (m : Nat) where
  /-- The rows of the inverse, by position in the basis. -/
  rows : Vector (Vector K m) m
  /-- The number of columns replaced since the inverse was last computed as a whole. -/
  updates : Nat

namespace BasisInverse

variable {K : Type} [Scalar K] {m : Nat}

/-- A pivot below this size makes a basis singular. -/
def singularPivot : K := 1e-11

/-- The inverse of a diagonal matrix. -/
def diagonal (d : Vector K m) : BasisInverse K m where
  rows := .ofFn fun i => .ofFn fun k => if i = k then 1 / d[i] else 0
  updates := 0

/-! ## Elimination -/

/-- A matrix beside the matrix that the same row operations have made of the identity. -/
structure Elimination (K : Type) (m : Nat) where
  left : Vector (Vector K m) m
  right : Vector (Vector K m) m

/-- The coefficient of a sparse column in a row; repeated entries add up. -/
def entryAt (column : SparseColumn K m) (i : Fin m) : K :=
  column.foldl (fun sum e => if e.1 = i then sum + e.2 else sum) 0

/-- A matrix of sparse columns beside the identity. -/
def Elimination.start (columns : Vector (SparseColumn K m) m) : Elimination K m where
  left := .ofFn fun i => .ofFn fun k => entryAt columns[k] i
  right := .ofFn fun i => .ofFn fun k => if i = k then 1 else 0

/-- The row at or below `column` with the largest entry in that column, the first of several, and
the size of that entry. -/
def Elimination.pivotRow (w : Elimination K m) (column : Fin m) : Fin m × K :=
  ((List.finRange m).filter fun r => column ≤ r).foldl
    (fun best r =>
      let size := Scalar.abs (w.left[r])[column]
      if best.2 < size then (r, size) else best)
    (column, -1)

/-- A matrix with two rows exchanged. -/
def exchange (rows : Vector (Vector K m) m) (i k : Fin m) : Vector (Vector K m) m :=
  rows.swap i k i.isLt k.isLt

/-- A row divided by a number. -/
def divideRow (row : Vector K m) (x : K) : Vector K m :=
  row.map (· / x)

/-- A row with a multiple of another subtracted. A multiple of zero changes nothing. -/
def subtractRow (row : Vector K m) (factor : K) (other : Vector K m) : Vector K m :=
  if factor == 0 then row else row.zipWith (fun x y => x - factor * y) other

/-- A matrix whose row `i` is divided by `x` and then subtracted from every other row as often as
`factors` says. -/
def sweepRows (rows : Vector (Vector K m) m) (i : Fin m) (x : K) (factors : Vector K m) :
    Vector (Vector K m) m :=
  let pivot := divideRow rows[i] x
  .ofFn fun r => if r = i then pivot else subtractRow rows[r] factors[r] pivot

/-- The elimination of one column: none where no row has a pivot for it. -/
def Elimination.step? (w : Elimination K m) (column : Fin m) : Option (Elimination K m) :=
  let (r, size) := w.pivotRow column
  if size < singularPivot then none
  else
    let left := exchange w.left r column
    let right := exchange w.right r column
    let x := (left[column])[column]
    let factors : Vector K m := left.map fun row => row[column]
    some ⟨sweepRows left column x factors, sweepRows right column x factors⟩

/-- The inverse of a matrix of sparse columns: none where a pivot is missing. -/
def factorize? (columns : Vector (SparseColumn K m) m) : Option (BasisInverse K m) :=
  ((List.finRange m).foldlM Elimination.step? (Elimination.start columns)).map fun w =>
    ⟨w.right, 0⟩

/-! ## Products -/

/-- The inverse times a sparse column. -/
def ftran (b : BasisInverse K m) (column : SparseColumn K m) : Vector K m :=
  b.rows.map fun row => column.foldl (fun sum e => sum + row[e.1] * e.2) 0

/-- The inverse times a dense column. -/
def ftranDense (b : BasisInverse K m) (column : Vector K m) : Vector K m :=
  b.rows.map fun row => Scalar.sum (List.zipWith (· * ·) row.toList column.toList)

/-- A row times the inverse. Entries that are zero are left out of the sums. -/
def btran (b : BasisInverse K m) (row : Vector K m) : Vector K m :=
  .ofFn fun k => (List.finRange m).foldl
    (fun (sum : K) (i : Fin m) =>
      if row[i] == 0 then sum else sum + row[i] * (b.rows[i])[k]) 0

/-- The inverse after the column at a position is replaced by one whose product with the inverse is
`alpha`. -/
def pivot (b : BasisInverse K m) (position : Fin m) (alpha : Vector K m) : BasisInverse K m where
  rows := sweepRows b.rows position alpha[position] alpha
  updates := b.updates + 1

end BasisInverse

end Milp
