import Milp.Proofs.Simplex.Inverse

/-!
# An inverse that is kept up

An inverse starts from a diagonal matrix or from a factorization. Replacing a column changes it in
place, and a factorization of the same columns computes it anew. Whichever of these are done, and in
whatever order, it is the inverse of the matrix that the columns form at the moment.

Results:
1. `Inverts.pivot`, `inverts_of_factorize?`, `inverts_diagonal`: each way to come by an inverse.
2. `inverts_of_kept`: what is kept up is an inverse.
3. `kept_inverse`: so the products are those with the inverse, and nothing comes of a matrix that has
   none.
-/

namespace Milp

variable {m : Nat}

namespace BasisInverse

/-- The matrix that sparse columns form. -/
def formed (columns : Vector (SparseColumn Rat m) m) : Matrix (Fin m) (Fin m) Rat :=
  fun i k => SparseColumn.dense columns[k] i

/-- An inverse is that of a matrix, from both sides. -/
structure Inverts (b : BasisInverse Rat m) (a : Matrix (Fin m) (Fin m) Rat) : Prop where
  left : b.matrix * a = 1
  right : a * b.matrix = 1

/-- The products with an inverse are the products with a matrix, for every column and every row. -/
structure MultipliesBy (b : BasisInverse Rat m) (a : Matrix (Fin m) (Fin m) Rat) : Prop where
  ftran : ∀ (column : SparseColumn Rat m) (i : Fin m),
    (b.ftran column)[i] = a.mulVec column.dense i
  ftranDense : ∀ (column : Vector Rat m) (i : Fin m),
    (b.ftranDense column)[i] = a.mulVec (fun k => column[k]) i
  btran : ∀ (row : Vector Rat m) (k : Fin m),
    (b.btran row)[k] = Matrix.vecMul (fun i => row[i]) a k

/-- An inverse that is kept up, with the columns that it belongs to: that of a diagonal matrix, one
that was computed from the columns, or one after another column was put in the place of one. -/
inductive Kept : Vector (SparseColumn Rat m) m → BasisInverse Rat m → Prop
  | diagonal {d : Vector Rat m} (nonzero : ∀ i : Fin m, d[i] ≠ 0) :
    Kept (.ofFn fun i => [(i, d[i])]) (.diagonal d)
  | factorized {columns : Vector (SparseColumn Rat m) m} {b : BasisInverse Rat m}
    (new : factorize? columns = some b) : Kept columns b
  | pivoted {columns : Vector (SparseColumn Rat m) m} {b : BasisInverse Rat m}
    (before : Kept columns b) {column : SparseColumn Rat m} {position : Fin m}
    (nonzero : (b.ftran column)[position] ≠ 0) :
    Kept (columns.put position column) (b.pivot position (b.ftran column))

variable {b b' : BasisInverse Rat m} {a : Matrix (Fin m) (Fin m) Rat}
  {columns : Vector (SparseColumn Rat m) m}

/-! ## The matrix of columns -/

theorem ofColumns_eq_formed (columns : Vector (SparseColumn Rat m) m) :
    ofColumns columns = formed columns :=
  funext₂ fun i k => entryAt_eq_dense columns[k] i

theorem formed_put (columns : Vector (SparseColumn Rat m) m) (position : Fin m)
    (column : SparseColumn Rat m) :
    formed (columns.put position column) = (formed columns).updateCol position column.dense := by
  ext i k
  rw [Matrix.updateCol_apply, formed, Vector.put_eq_set, Vector.getElem_coordinate,
    Vector.getElem_set]
  by_cases here : k = position
  · rw [if_pos here, if_pos (congrArg Fin.val here).symm]
  · rw [if_neg here, if_neg fun same => here (Fin.ext same.symm)]
    rfl

theorem formed_diagonal (d : Vector Rat m) :
    formed (.ofFn fun i : Fin m => [(i, d[i])]) = Matrix.diagonal fun i : Fin m => d[i] := by
  ext i k
  rw [Matrix.diagonal_apply]
  simp only [formed, SparseColumn.dense, Vector.getElem_coordinate, Vector.getElem_ofFn, Fin.eta]
  by_cases here : i = k
  · simp [here]
  · simp [here, Ne.symm here]

/-! ## Inverses -/

theorem inverts_of_left (left : b.matrix * a = 1) : b.Inverts a :=
  ⟨left, mul_eq_one_comm.mp left⟩

theorem inverts_diagonal {d : Vector Rat m} (nonzero : ∀ i : Fin m, d[i] ≠ 0) :
    (diagonal d).Inverts (Matrix.diagonal fun i => d[i]) :=
  inverts_of_left (diagonal_mul nonzero)

theorem inverts_of_factorize? (new : factorize? columns = some b) : b.Inverts (formed columns) :=
  inverts_of_left (ofColumns_eq_formed columns ▸ (factorize?_mul new).2)

theorem ftran_eq_mulVec (b : BasisInverse Rat m) (column : SparseColumn Rat m) (i : Fin m) :
    (b.ftran column)[i] = b.matrix.mulVec column.dense i := by
  rw [ftran_eq_sum]
  exact Finset.sum_congr rfl fun k _ => by rw [entryAt_eq_dense]

/-- An inverse stays one when a column is replaced by one whose product is not zero there. -/
theorem Inverts.pivot (h : b.Inverts a) {column : SparseColumn Rat m} {position : Fin m}
    (nonzero : (b.ftran column)[position] ≠ 0) :
    (b.pivot position (b.ftran column)).Inverts (a.updateCol position column.dense) :=
  inverts_of_left (pivot_mul h.left (b.ftran_eq_mulVec column) nonzero)

/-- What is kept up is an inverse. -/
theorem inverts_of_kept (kept : Kept columns b) : b.Inverts (formed columns) := by
  induction kept with
  | diagonal nonzero =>
    rw [formed_diagonal]
    exact inverts_diagonal nonzero
  | factorized new => exact inverts_of_factorize? new
  | pivoted _ nonzero ih =>
    rw [formed_put]
    exact ih.pivot nonzero

theorem Inverts.multipliesBy (h : b.Inverts a) : b.MultipliesBy a⁻¹ := by
  rw [Matrix.inv_eq_left_inv h.left]
  exact ⟨b.ftran_eq_mulVec, b.ftranDense_eq_sum, b.btran_eq_sum⟩

/-- A matrix has one inverse, which is kept in one way. -/
theorem Inverts.rows_eq (h : b.Inverts a) (h' : b'.Inverts a) : b.rows = b'.rows := by
  have same : b.matrix = b'.matrix := left_inv_eq_right_inv h.left h'.right
  ext i hi k hk
  exact congrFun₂ same ⟨i, hi⟩ ⟨k, hk⟩

/-- Factorization yields an inverse from both sides, and nothing where the columns form a singular
matrix. The inverse of a diagonal matrix without zeros is one, and an inverse stays one when a column
is replaced by another one whose product with the inverse is not zero there. So an inverse that is kept
up, by any replacements and factorizations, is that of the matrix that the columns form at the moment,
its products are the products with that, and computing it anew changes no entry. -/
theorem kept_inverse (m : Nat) :
    (∀ columns : Vector (SparseColumn Rat m) m,
      ((formed columns).det = 0 → factorize? columns = none) ∧
      ∀ b, factorize? columns = some b → b.Inverts (formed columns)) ∧
    (∀ d : Vector Rat m, (∀ i : Fin m, d[i] ≠ 0) →
      (diagonal d).Inverts (Matrix.diagonal fun i => d[i])) ∧
    (∀ (b : BasisInverse Rat m) (a : Matrix (Fin m) (Fin m) Rat), b.Inverts a →
      ∀ (column : SparseColumn Rat m) (position : Fin m), (b.ftran column)[position] ≠ 0 →
        (b.pivot position (b.ftran column)).Inverts (a.updateCol position column.dense)) ∧
    ∀ (columns : Vector (SparseColumn Rat m) m) (b : BasisInverse Rat m), Kept columns b →
      b.Inverts (formed columns) ∧ b.MultipliesBy (formed columns)⁻¹ ∧
      ∀ b', factorize? columns = some b' → b'.rows = b.rows := by
  refine ⟨fun columns => ⟨fun singular => ?_, fun b => inverts_of_factorize?⟩,
    fun d => inverts_diagonal, fun b a h column position => h.pivot, fun columns b kept => ?_⟩
  · -- an inverse from the right makes the determinant a unit
    refine Option.eq_none_iff_forall_ne_some.mpr fun b new => ?_
    have unit := Matrix.isUnit_det_of_right_inverse (inverts_of_factorize? new).right
    rw [singular] at unit
    exact not_isUnit_zero unit
  · have inverts := inverts_of_kept kept
    exact ⟨inverts, inverts.multipliesBy, fun b' new => (inverts_of_factorize? new).rows_eq inverts⟩

/-- Columns whose first one has nothing in the first row, where the second has two entries. -/
def crossed : Vector (SparseColumn Rat 2) 2 :=
  #v[[(1, 3)], [(0, 1), (1, 4), (0, 1)]]

/-- Two columns of which the second is twice the first. -/
def dependent : Vector (SparseColumn Rat 2) 2 :=
  #v[[(0, 1), (1, 2)], [(0, 2), (1, 4)]]

/-- The rows of `crossed` are exchanged on the way to its inverse, and its first column can be replaced
by one of the identity. There is no inverse of `dependent`. -/
theorem kept_inverse_crossed :
    (formed dependent).det = 0 ∧ factorize? dependent = none ∧
    ∃ b, factorize? crossed = some b ∧ (b.ftran [(0, 1)])[(0 : Fin 2)] ≠ 0 ∧
      Kept (crossed.put 0 [(0, 1)]) (b.pivot 0 (b.ftran [(0, 1)])) ∧
      (b.pivot 0 (b.ftran [(0, 1)])).Inverts (formed (crossed.put 0 [(0, 1)])) := by
  obtain ⟨factorized, -, -, kept⟩ := kept_inverse 2
  have singular : (formed dependent).det = 0 := by
    rw [Matrix.det_fin_two]
    decide +kernel
  have inverse : (factorize? crossed).map (·.rows) =
      some #v[#v[-2 / 3, 1 / 3], #v[1 / 2, 0]] := by decide +kernel
  obtain ⟨b, new, rows⟩ := Option.map_eq_some_iff.mp inverse
  have nonzero : (b.ftran [(0, 1)])[(0 : Fin 2)] ≠ 0 := by
    simp [ftran, rows]
  have pivoted : Kept (crossed.put 0 [(0, 1)]) (b.pivot 0 (b.ftran [(0, 1)])) :=
    .pivoted (.factorized new) nonzero
  exact ⟨singular, (factorized dependent).1 singular, b, new, nonzero, pivoted,
    (kept _ _ pivoted).1⟩

end BasisInverse

end Milp
