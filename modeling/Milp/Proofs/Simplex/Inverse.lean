import Mathlib.Algebra.BigOperators.Field
import Mathlib.Data.List.FinRange
import Mathlib.LinearAlgebra.Matrix.NonsingularInverse
import Milp.Proofs.Simplex.Columns

/-!
# The inverse of a basis

The rows that an inverse is kept in, read as a matrix. Elimination and replacement are row
operations, and a row operation on a product is one on its first factor.

Results:
1. `sweep_mul`, `exchange_mul`: the row operations commute with a product from the right.
2. `pivot_mul`: replacing a column keeps an inverse an inverse.
3. `factorize?_mul`: what elimination yields is an inverse.
-/

namespace Milp

variable {m : Nat}

namespace BasisInverse

/-- Rows as a matrix. -/
def ofRows (rows : Vector (Vector Rat m) m) : Matrix (Fin m) (Fin m) Rat :=
  fun i k => (rows[i])[k]

/-- Sparse columns as a matrix. -/
def ofColumns (columns : Vector (SparseColumn Rat m) m) : Matrix (Fin m) (Fin m) Rat :=
  fun i k => entryAt columns[k] i

/-! ## Row operations -/

/-- A matrix whose row `i` is divided by `x` and then subtracted from every other row as often as
`factors` says. -/
def sweep (i : Fin m) (x : Rat) (factors : Fin m → Rat) (a : Matrix (Fin m) (Fin m) Rat) :
    Matrix (Fin m) (Fin m) Rat :=
  fun r c => if r = i then a i c / x else a r c - factors r * (a i c / x)

theorem sweep_mul (i : Fin m) (x : Rat) (factors : Fin m → Rat)
    (a b : Matrix (Fin m) (Fin m) Rat) : sweep i x factors a * b = sweep i x factors (a * b) := by
  ext r c
  simp only [Matrix.mul_apply, sweep]
  split
  · rw [Finset.sum_div]
    exact Finset.sum_congr rfl fun k _ => by ring
  · rw [Finset.sum_div, Finset.mul_sum, ← Finset.sum_sub_distrib]
    exact Finset.sum_congr rfl fun k _ => by ring

theorem getElem_subtractRow (row other : Vector Rat m) (factor : Rat) (k : Fin m) :
    (subtractRow row factor other)[k] = row[k] - factor * other[k] := by
  unfold subtractRow
  split
  · rename_i zero
    have none : factor = 0 := beq_iff_eq.mp zero
    simp [none]
  · simp

theorem getElem_sweepRows (rows : Vector (Vector Rat m) m) (i : Fin m) (x : Rat)
    (factors : Vector Rat m) (r : Fin m) :
    (sweepRows rows i x factors)[r] =
      if r = i then divideRow rows[i] x
      else subtractRow rows[r] factors[r] (divideRow rows[i] x) := by
  simp [sweepRows]

theorem ofRows_sweepRows (rows : Vector (Vector Rat m) m) (i : Fin m) (x : Rat)
    (factors : Vector Rat m) :
    ofRows (sweepRows rows i x factors) = sweep i x (fun r => factors[r]) (ofRows rows) := by
  ext r c
  unfold ofRows sweep
  rw [getElem_sweepRows]
  split
  · simp [divideRow]
  · rw [getElem_subtractRow]
    simp [divideRow]

/-- A matrix with two rows exchanged. -/
def exchanged (i k : Fin m) (a : Matrix (Fin m) (Fin m) Rat) : Matrix (Fin m) (Fin m) Rat :=
  fun r => if r = i then a k else if r = k then a i else a r

theorem exchange_mul (i k : Fin m) (a b : Matrix (Fin m) (Fin m) Rat) :
    exchanged i k a * b = exchanged i k (a * b) := by
  ext r c
  simp only [Matrix.mul_apply, exchanged]
  split_ifs <;> simp [Matrix.mul_apply]

theorem ofRows_exchange (rows : Vector (Vector Rat m) m) (i k : Fin m) :
    ofRows (exchange rows i k) = exchanged i k (ofRows rows) := by
  ext r c
  simp only [ofRows, exchange, exchanged, Vector.getElem_coordinate, Vector.getElem_swap, Fin.ext_iff]
  split_ifs <;> simp_all [ofRows]

/-! ## Replacing a column -/

/-- Replacing a column keeps an inverse an inverse, where the new column is `a`. -/
theorem pivot_mul {b : BasisInverse Rat m} {basis : Matrix (Fin m) (Fin m) Rat}
    (inverse : b.matrix * basis = 1) {a : Fin m → Rat} {alpha : Vector Rat m}
    (product : ∀ i : Fin m, alpha[i] = ∑ k, b.matrix i k * a k) {position : Fin m}
    (nonzero : alpha[position] ≠ 0) :
    (b.pivot position alpha).matrix * basis.updateCol position a = 1 := by
  have left : (b.pivot position alpha).matrix =
      sweep position alpha[position] (fun r => alpha[r]) b.matrix := ofRows_sweepRows ..
  have right (r c : Fin m) : (b.matrix * basis.updateCol position a) r c =
      if c = position then alpha[r] else (1 : Matrix (Fin m) (Fin m) Rat) r c := by
    rw [← inverse, Matrix.mul_apply, product r]
    split
    · rename_i same
      exact Finset.sum_congr rfl fun k _ => by rw [same, Matrix.updateCol_self]
    · rename_i other
      rw [Matrix.mul_apply]
      exact Finset.sum_congr rfl fun k _ => by rw [Matrix.updateCol_ne other]
  rw [left, sweep_mul]
  ext r c
  simp only [sweep, right, Matrix.one_apply]
  by_cases hc : c = position
  · rw [if_pos hc, if_pos hc, div_self nonzero, mul_one, sub_self, hc]
  · rw [if_neg hc, if_neg hc, if_neg (Ne.symm hc), zero_div, mul_zero, sub_zero]
    split
    · rename_i hr
      rw [hr, if_neg (Ne.symm hc)]
    · rfl

/-! ## Elimination -/

namespace Elimination

variable {w w' : Elimination Rat m} {j : Fin m}

/-- The matrix on the left is the one on the right times a third one. -/
def Splits (basis : Matrix (Fin m) (Fin m) Rat) (w : Elimination Rat m) : Prop :=
  ofRows w.left = ofRows w.right * basis

/-- A column of the matrix on the left is that of the identity. -/
def Done (w : Elimination Rat m) (k : Fin m) : Prop :=
  ∀ i, ofRows w.left i k = if i = k then 1 else 0

theorem start_splits (columns : Vector (SparseColumn Rat m) m) :
    Splits (ofColumns columns) (.start columns) := by
  have right : ofRows (Elimination.start columns).right = 1 := by
    ext i k
    simp [ofRows, Elimination.start, Matrix.one_apply]
  show ofRows _ = ofRows _ * _
  rw [right, one_mul]
  ext i k
  simp [ofRows, ofColumns, Elimination.start]

/-- The pivot row is at or below the column, and the size found is that of its entry. -/
theorem pivotRow_spec (w : Elimination Rat m) (j : Fin m) (h : (w.pivotRow j).2 ≠ -1) :
    j ≤ (w.pivotRow j).1 ∧ (w.pivotRow j).2 = |ofRows w.left (w.pivotRow j).1 j| := by
  suffices spec : ∀ (rs : List (Fin m)) (best : Fin m × Rat), (∀ r ∈ rs, j ≤ r) →
      (best.2 ≠ -1 → j ≤ best.1 ∧ best.2 = |ofRows w.left best.1 j|) →
      let last := rs.foldl (fun best r =>
        let size := Scalar.abs (w.left[r])[j]
        if best.2 < size then (r, size) else best) best
      last.2 ≠ -1 → j ≤ last.1 ∧ last.2 = |ofRows w.left last.1 j| from
    spec _ _ (fun r hr => by simpa using hr) (fun h => absurd rfl h) h
  intro rs
  induction rs with
  | nil => exact fun _ _ h => h
  | cons r rs ih =>
    intro best below good
    refine ih _ (fun r' hr' => below r' (List.mem_cons_of_mem r hr')) ?_
    dsimp only
    split
    · exact fun _ => ⟨below r (List.mem_cons_self ..), Exact.abs_eq _⟩
    · exact good

theorem singularPivot_pos : (0 : Rat) < singularPivot := by
  norm_num [singularPivot]

/-- A column eliminated is a column of the identity. -/
theorem sweep_column (j : Fin m) (a : Matrix (Fin m) (Fin m) Rat) (nonzero : a j j ≠ 0)
    (i : Fin m) : sweep j (a j j) (fun i => a i j) a i j = if i = j then 1 else 0 := by
  unfold sweep
  rw [div_self nonzero, mul_one, sub_self]

/-- A column of the identity that has nothing in the pivot row is not changed. -/
theorem sweep_other (j : Fin m) (x : Rat) (factors : Fin m → Rat) (a : Matrix (Fin m) (Fin m) Rat)
    {k : Fin m} (zero : a j k = 0) (i : Fin m) : sweep j x factors a i k = a i k := by
  unfold sweep
  rw [zero, zero_div, mul_zero, sub_zero]
  split
  · rename_i same
    rw [same, zero]
  · rfl

/-- The exchange of rows below a column of the identity leaves it alone. -/
theorem exchanged_column {a : Matrix (Fin m) (Fin m) Rat} {r j k : Fin m} (hr : j ≤ r) (hk : k < j)
    (unit : ∀ i, a i k = if i = k then 1 else 0) (i : Fin m) :
    exchanged r j a i k = if i = k then 1 else 0 := by
  have hjk : j ≠ k := hk.ne'
  have hrk : r ≠ k := (hk.trans_le hr).ne'
  unfold exchanged
  split_ifs with h₁ h₂ h₃ h₄
  · exact absurd (h₁.symm.trans h₂) hrk
  · rw [unit, if_neg hjk]
  · exact absurd (h₃.symm.trans h₄) hjk
  · rw [unit, if_neg hrk]
  · rw [unit, if_pos ‹_›]
  · rw [unit, if_neg ‹_›]

/-- A pivot that is not too small is at or below the column, and is not zero once its row has been
moved up. -/
theorem pivot_ne_zero (large : ¬ (w.pivotRow j).2 < singularPivot) :
    j ≤ (w.pivotRow j).1 ∧ exchanged (w.pivotRow j).1 j (ofRows w.left) j j ≠ 0 := by
  have positive : (0 : Rat) < (w.pivotRow j).2 := singularPivot_pos.trans_le (not_lt.mp large)
  obtain ⟨below, size⟩ := pivotRow_spec w j (by linarith)
  have nonzero : ofRows w.left (w.pivotRow j).1 j ≠ 0 := abs_pos.mp (size ▸ positive)
  refine ⟨below, ?_⟩
  unfold exchanged
  split
  · rename_i same
    rwa [← same] at nonzero
  · rwa [if_pos rfl]

/-- What the elimination of a column does to both matrices. -/
theorem step?_eq (step : w.step? j = some w') :
    ∃ r, j ≤ r ∧
      let left := exchanged r j (ofRows w.left)
      left j j ≠ 0 ∧ ofRows w'.left = sweep j (left j j) (fun i => left i j) left ∧
      ofRows w'.right = sweep j (left j j) (fun i => left i j) (exchanged r j (ofRows w.right)) := by
  unfold step? at step
  dsimp only at step
  split at step
  · cases step
  · rename_i large
    obtain ⟨below, nonzero⟩ := pivot_ne_zero large
    refine ⟨(w.pivotRow j).1, below, nonzero, ?_⟩
    cases step
    dsimp only
    rw [← ofRows_exchange, ← ofRows_exchange, ofRows_sweepRows, ofRows_sweepRows]
    simp [ofRows]

/-- The elimination of a column keeps the product, completes the column, and leaves those that are
complete already. -/
theorem step?_spec {basis : Matrix (Fin m) (Fin m) Rat} (step : w.step? j = some w')
    (splits : w.Splits basis) :
    w'.Splits basis ∧ w'.Done j ∧ ∀ k < j, w.Done k → w'.Done k := by
  obtain ⟨r, below, pivot, left, right⟩ := step?_eq step
  refine ⟨?_, ?_, ?_⟩
  · show ofRows w'.left = ofRows w'.right * basis
    rw [left, right, sweep_mul, exchange_mul, ← show ofRows w.left = _ from splits]
  · intro i
    rw [left]
    exact sweep_column j _ pivot i
  · intro k hk done i
    have unit := exchanged_column below hk done
    rw [left, sweep_other j _ _ _ ((unit j).trans (if_neg hk.ne'))]
    exact unit i

/-- Elimination of all columns in order completes them all. -/
theorem foldlM_spec {basis : Matrix (Fin m) (Fin m) Rat} {js : List (Fin m)}
    (ascending : js.Pairwise (· < ·)) (run : js.foldlM step? w = some w')
    (splits : w.Splits basis) (done : ∀ k, k ∉ js → w.Done k ∧ ∀ j ∈ js, k < j) :
    w'.Splits basis ∧ ∀ k, w'.Done k := by
  induction js generalizing w with
  | nil =>
    cases run
    exact ⟨splits, fun k => (done k (by simp)).1⟩
  | cons j js ih =>
    obtain ⟨first, rest⟩ := List.pairwise_cons.mp ascending
    rw [List.foldlM_cons] at run
    obtain ⟨w₁, step, run⟩ := Option.bind_eq_some_iff.mp run
    obtain ⟨splits, now, before⟩ := step?_spec step splits
    refine ih rest run splits ?_
    intro k hk
    by_cases same : k = j
    · subst same
      exact ⟨now, first⟩
    · obtain ⟨old, below⟩ := done k (by simp [same, hk])
      exact ⟨before k (below j (List.mem_cons_self ..)) old,
        fun i hi => below i (List.mem_cons_of_mem j hi)⟩

end Elimination

/-- What elimination yields is an inverse. -/
theorem factorize?_mul {columns : Vector (SparseColumn Rat m) m} {b : BasisInverse Rat m}
    (h : factorize? columns = some b) :
    b.updates = 0 ∧ b.matrix * ofColumns columns = 1 := by
  obtain ⟨w, run, rfl⟩ := Option.map_eq_some_iff.mp h
  obtain ⟨splits, done⟩ := Elimination.foldlM_spec (List.pairwise_lt_finRange m) run
    (Elimination.start_splits columns) fun k hk => absurd (List.mem_finRange k) hk
  refine ⟨rfl, ?_⟩
  have identity : ofRows w.left = 1 := by
    ext i k
    rw [done k i, Matrix.one_apply]
  exact (show ofRows w.left = _ from splits).symm.trans identity

/-- The inverse of a diagonal matrix. -/
theorem diagonal_mul {d : Vector Rat m} (nonzero : ∀ i : Fin m, d[i] ≠ 0) :
    (diagonal d).matrix * Matrix.diagonal (fun i => d[i]) = 1 := by
  ext i k
  rw [Matrix.mul_diagonal, Matrix.one_apply]
  simp only [matrix, diagonal, Vector.getElem_coordinate, Vector.getElem_ofFn, Fin.eta]
  split
  · rename_i same
    subst same
    exact one_div_mul_cancel (nonzero i)
  · exact zero_mul _

end BasisInverse

end Milp
