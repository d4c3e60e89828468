import Mathlib.Algebra.BigOperators.Fin
import Mathlib.Data.Matrix.Mul
import Milp.Proofs.Feasible

/-!
# Sparse columns as sums

The loops over sparse columns, over the columns of the working problem and over rows are sums.

Results:
1. `sum_mul_entryAt`: a row times a sparse column.
2. `activities_eq_sum`, `costOf_eq_sum`: activities and costs of a point.
3. `ftran_eq_sum`, `ftranDense_eq_sum`, `btran_eq_sum`: the products with an inverse.
-/

namespace Milp

variable {n m : Nat}

/-! ## Loops -/

/-- A loop that adds something for every element is a sum. -/
theorem foldl_eq_add_sum {α : Type} {g : Rat → α → Rat} {f : α → Rat} (xs : List α)
    (step : ∀ sum, ∀ x ∈ xs, g sum x = sum + f x) (start : Rat) :
    xs.foldl g start = start + (xs.map f).sum := by
  induction xs generalizing start with
  | nil => simp
  | cons x xs ih =>
    have first := step start x (List.mem_cons_self ..)
    have rest := ih (fun sum y hy => step sum y (List.mem_cons_of_mem x hy)) (start + f x)
    rw [List.foldl_cons, first, rest, List.map_cons, List.sum_cons, add_assoc]

/-- A loop over all indices that adds something for each is a sum. -/
theorem foldl_finRange_eq_sum {g : Rat → Fin n → Rat} {f : Fin n → Rat}
    (step : ∀ sum i, g sum i = sum + f i) : (List.finRange n).foldl g 0 = ∑ i, f i := by
  rw [foldl_eq_add_sum _ (fun sum i _ => step sum i), zero_add, Fin.sum_univ_def]

theorem sum_zipWith_mul (a b : Vector Rat n) :
    (List.zipWith (· * ·) a.toList b.toList).sum = ∑ i : Fin n, a[i] * b[i] := by
  have entries : List.zipWith (· * ·) a.toList b.toList =
      (List.finRange n).map fun i : Fin n => a[i] * b[i] := by
    refine List.ext_getElem (by simp) ?_
    intro i h h'
    simp
  rw [entries, Fin.sum_univ_def]

/-! ## Sparse columns -/

/-- The vector of a sparse column: in every row the sum of the entries there. -/
def SparseColumn.dense (column : SparseColumn Rat m) (i : Fin m) : Rat :=
  ((column.filter (·.1 = i)).map (·.2)).sum

namespace BasisInverse

variable {column : SparseColumn Rat m}

@[simp]
theorem entryAt_nil (i : Fin m) : entryAt ([] : SparseColumn Rat m) i = 0 :=
  rfl

theorem entryAt_eq_sum (column : SparseColumn Rat m) (i : Fin m) :
    entryAt column i = (column.map fun e => if e.1 = i then e.2 else 0).sum := by
  unfold entryAt
  rw [foldl_eq_add_sum (f := fun e : Fin m × Rat => if e.1 = i then e.2 else 0), zero_add]
  intro sum e _
  split <;> simp

@[simp]
theorem entryAt_cons (e : Fin m × Rat) (column : SparseColumn Rat m) (i : Fin m) :
    entryAt (e :: column) i = (if e.1 = i then e.2 else 0) + entryAt column i := by
  simp [entryAt_eq_sum]

theorem entryAt_eq_dense (column : SparseColumn Rat m) (i : Fin m) :
    entryAt column i = column.dense i := by
  rw [SparseColumn.dense]
  induction column with
  | nil => rfl
  | cons e column ih => by_cases here : e.1 = i <;> simp [here, ih]

/-- A row times a sparse column. -/
theorem sum_mul_entryAt (y : Fin m → Rat) (column : SparseColumn Rat m) :
    ∑ i, y i * entryAt column i = (column.map fun e => y e.1 * e.2).sum := by
  induction column with
  | nil => simp
  | cons e column ih => simp [mul_add, Finset.sum_add_distrib, ih]

end BasisInverse

open BasisInverse (entryAt entryAt_eq_sum sum_mul_entryAt)

namespace SimplexState

theorem addActivity_eq (column : SparseColumn Rat m) (value : Rat) (i : Fin m) (sum : Rat) :
    addActivity column value i sum = sum + entryAt column i * value := by
  unfold addActivity
  split
  · rename_i zero
    rw [show value = 0 from beq_iff_eq.mp zero, mul_zero, add_zero]
  · rw [foldl_eq_add_sum (f := fun e : Fin m × Rat => if e.1 = i then e.2 * value else 0),
      entryAt_eq_sum, ← List.sum_map_mul_right]
    · simp
    · intro sum e _
      split <;> simp

/-- The activity of a row. -/
theorem activities_eq_sum (p : Relaxation Rat ExtendedRat n m) (z : Vector Rat n) (i : Fin m) :
    (activities p z)[i] = ∑ j : Fin n, entryAt p.columns[j] i * z[j] := by
  rw [activities, Vector.getElem_coordinate, Vector.getElem_ofFn]
  exact foldl_finRange_eq_sum fun sum j => addActivity_eq p.columns[j] z[j] i sum

end SimplexState

/-- The cost of a point. -/
theorem Relaxation.costOf_eq_sum (p : Relaxation Rat ExtendedRat n m) (z : Vector Rat n) :
    p.costOf z.toList = ∑ j : Fin n, p.cost[j] * z[j] := by
  rw [costOf, Exact.sum_eq, sum_zipWith_mul]

/-! ## Products with an inverse -/

namespace BasisInverse

variable (b : BasisInverse Rat m)

/-- An inverse as a matrix. -/
def matrix : Matrix (Fin m) (Fin m) Rat :=
  fun i k => (b.rows[i])[k]

theorem ftran_eq_sum (column : SparseColumn Rat m) (i : Fin m) :
    (b.ftran column)[i] = ∑ k, b.matrix i k * entryAt column k := by
  rw [sum_mul_entryAt]
  simp only [ftran, Vector.getElem_coordinate, Vector.getElem_map]
  rw [foldl_eq_add_sum _ (fun sum e _ => rfl), zero_add]
  rfl

theorem ftranDense_eq_sum (column : Vector Rat m) (i : Fin m) :
    (b.ftranDense column)[i] = ∑ k : Fin m, b.matrix i k * column[k] := by
  simp only [ftranDense, Vector.getElem_coordinate, Vector.getElem_map]
  rw [Exact.sum_eq, sum_zipWith_mul]
  rfl

theorem btran_eq_sum (row : Vector Rat m) (k : Fin m) :
    (b.btran row)[k] = ∑ i : Fin m, row[i] * b.matrix i k := by
  rw [btran, Vector.getElem_coordinate, Vector.getElem_ofFn]
  refine foldl_finRange_eq_sum ?_
  intro sum i
  split
  · rename_i zero
    rw [show row[i] = 0 from beq_iff_eq.mp zero, zero_mul, add_zero]
  · rfl

end BasisInverse

end Milp
