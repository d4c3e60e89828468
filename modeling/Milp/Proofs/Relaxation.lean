import Milp.Proofs.Feasible
import Milp.Proofs.Model
import Milp.Proofs.Simplex.Columns

/-!
# The linear program of a model

Results:
1. `rows_ordered`: no row of the linear program of a well-formed model has crossed limits.
2. `columns_eq_filterMap`: the entries that the constraints have left in a column.
3. `eval?_body`: the activity of a row is the value of the body of its constraint.
-/

namespace Milp

open BasisInverse (entryAt)
open Expression (Ascending coefficient_cons coefficient_eq_zero)

/-- The value of an expression at the coordinates of a vector. -/
theorem Expression.eval?_vector {e : Expression Rat} (order : Ascending e.terms) {n : Nat}
    (covered : ∀ t ∈ e.terms, t.1.index < n) (z : Vector Rat n) :
    e.eval? (fun v => z.toList[v.index]?) =
      some (e.constant + ∑ j : Fin n, e.coefficient ⟨j⟩ * z[j]) := by
  let x (v : Variable) : Rat := z.toList[v.index]?.getD 0
  have assigned (t) (ht : t ∈ e.terms) : z.toList[t.1.index]? = some (x t.1) := by
    have inside : t.1.index < z.toList.length := by simpa using covered t ht
    show z.toList[t.1.index]? = some (z.toList[t.1.index]?.getD 0)
    rw [List.getElem?_eq_getElem inside, Option.getD_some]
  have coordinate (j : Fin n) : x ⟨j⟩ = z[j] := by simp [x]
  rw [Expression.eval?_eq_some assigned, ← Expression.sum_coefficient_mul order covered]
  simp only [coordinate]

/-! ## Filling the columns -/

namespace Relaxation

variable {n k : Nat}

/-- The entry of a row for a variable, unless the variable has no coefficient there. -/
def rowEntry (body : Expression Rat) (i : Fin k) (j : Fin n) : Option (Fin k × Rat) :=
  if body.coefficient ⟨j⟩ == 0 then none else some (i, body.coefficient ⟨j⟩)

/-- A term changes the column of its own variable only. -/
theorem getElem_addEntry (i : Fin k) (columns : Vector (SparseColumn Rat k) n)
    (t : Variable × Rat) (j : Fin n) :
    (addEntry i columns t)[j] =
      columns[j] ++ if t.1 = ⟨j⟩ ∧ t.2 ≠ 0 then [(i, t.2)] else [] := by
  obtain ⟨⟨v⟩, a⟩ := t
  unfold addEntry
  split
  · rename_i inside
    by_cases zero : a = 0
    · simp [zero]
    · by_cases here : v = j
      · simp [here, zero]
      · simp [here, zero]
  · rename_i outside
    have other : v ≠ j := fun same => outside (same ▸ j.isLt)
    simp [other]

/-- What the terms of a row leave in a column: one entry at most, as no variable has two terms. -/
theorem getElem_foldl_addEntry {body : Expression Rat} (order : Ascending body.terms) (i : Fin k)
    (columns : Vector (SparseColumn Rat k) n) (j : Fin n) :
    (body.terms.foldl (addEntry i) columns)[j] = columns[j] ++ (rowEntry body i j).toList := by
  obtain ⟨terms, constant⟩ := body
  induction terms generalizing columns with
  | nil => simp [rowEntry, Expression.coefficient]
  | cons t terms ih =>
    obtain ⟨below, rest⟩ := List.pairwise_cons.mp order
    have later := ih (addEntry i columns t) rest
    dsimp only at later ⊢
    rw [List.foldl_cons, later, getElem_addEntry, List.append_assoc]
    congr 1
    unfold rowEntry
    rw [coefficient_cons]
    by_cases here : t.1 = ⟨j⟩
    · have absent : (⟨terms, constant⟩ : Expression Rat).coefficient ⟨j⟩ = 0 :=
        coefficient_eq_zero fun s hs same =>
          (below s hs).ne (congrArg Variable.index (here.trans same.symm))
      by_cases zero : t.2 = 0 <;> simp [here, absent, zero]
    · simp [here]

/-- What all rows leave in a column. -/
theorem getElem_foldl_rows {body : Fin k → Expression Rat} (order : ∀ i, Ascending (body i).terms)
    (rows : List (Fin k)) (columns : Vector (SparseColumn Rat k) n) (j : Fin n) :
    (rows.foldl (fun columns i => (body i).terms.foldl (addEntry i) columns) columns)[j] =
      columns[j] ++ rows.filterMap fun i => rowEntry (body i) i j := by
  induction rows generalizing columns with
  | nil => simp
  | cons i rows ih =>
    rw [List.foldl_cons, ih, getElem_foldl_addEntry (order i), List.append_assoc,
      List.filterMap_cons]
    cases rowEntry (body i) i j <;> rfl

end Relaxation

open Relaxation (rowEntry getElem_foldl_rows)

namespace Model

variable {m : Model Rat ExtendedRat} {direction : Direction}

/-- The constraint that a row comes from. -/
def rowConstraint (m : Model Rat ExtendedRat) (i : Fin m.constraints.size) :
    Constraint Rat ExtendedRat :=
  m.constraints.toVector[i]

theorem rowConstraint_mem (m : Model Rat ExtendedRat) (i : Fin m.constraints.size) :
    m.rowConstraint i ∈ m.constraints :=
  Array.getElem_mem _

theorem rows_relaxation (m : Model Rat ExtendedRat) (direction : Direction)
    (i : Fin m.constraints.size) :
    (m.relaxation direction).rows.lower[i] = (m.rowConstraint i).lower ∧
      (m.relaxation direction).rows.upper[i] = (m.rowConstraint i).upper := by
  simp [relaxation, Relaxation.ofProblem, rowConstraint]

/-- The definition that a column comes from. -/
def columnDefinition (m : Model Rat ExtendedRat) (j : Fin m.definitions.size) :
    Definition ExtendedRat :=
  m.definitions.toVector[j]

theorem columnDefinition_mem (m : Model Rat ExtendedRat) (j : Fin m.definitions.size) :
    m.columnDefinition j ∈ m.definitions :=
  Array.getElem_mem _

theorem columns_relaxation (m : Model Rat ExtendedRat) (direction : Direction)
    (j : Fin m.definitions.size) :
    (m.relaxation direction).box.lower[j] = (m.columnDefinition j).lower ∧
      (m.relaxation direction).box.upper[j] = (m.columnDefinition j).upper ∧
      (m.relaxation direction).integer[j] = (m.columnDefinition j).domain.isInteger := by
  simp [relaxation, Relaxation.ofProblem, columnDefinition]

theorem rows_ordered (h : m.WellFormed) : (m.relaxation direction).rows.Ordered := by
  intro i
  have limits := h.limits _ (m.rowConstraint_mem i)
  simp only [Limits.isOrdered, Bool.and_eq_true, decide_eq_true_eq] at limits
  rw [(m.rows_relaxation direction i).1, (m.rows_relaxation direction i).2]
  exact limits.2

/-- The entries of a column come row by row. -/
theorem columns_eq_filterMap (h : m.WellFormed) (direction : Direction)
    (j : Fin m.definitions.size) :
    (m.relaxation direction).columns[j] =
      (List.finRange m.constraints.size).filterMap fun i => rowEntry (m.rowConstraint i).body i j := by
  have filled := getElem_foldl_rows (fun i => (h.proper _ (m.rowConstraint_mem i)).order)
    (List.finRange m.constraints.size) (.replicate m.definitions.size []) j
  have start : (Vector.replicate m.definitions.size ([] : SparseColumn Rat m.constraints.size))[j] =
      [] := by simp
  rw [start, List.nil_append] at filled
  exact filled

/-- What is read of a column from which zeros are left out. -/
theorem entryAt_filterMap {k : Nat} (a : Fin k → Rat) (i : Fin k) :
    entryAt ((List.finRange k).filterMap fun l => if a l == 0 then none else some (l, a l)) i =
      a i := by
  have entries (ls : List (Fin k)) :
      entryAt (ls.filterMap fun l => if a l == 0 then none else some (l, a l)) i =
        (ls.map fun l => if l = i then a l else 0).sum := by
    induction ls with
    | nil => simp
    | cons l ls ih =>
      rw [List.map_cons, List.sum_cons, ← ih]
      by_cases zero : a l = 0
      · simp [zero]
      · simp [zero]
  rw [entries, ← Fin.sum_univ_def, Finset.sum_ite_eq' Finset.univ i a, if_pos (Finset.mem_univ i)]

theorem entryAt_relaxation (h : m.WellFormed) (direction : Direction)
    (j : Fin m.definitions.size) (i : Fin m.constraints.size) :
    entryAt (m.relaxation direction).columns[j] i = (m.rowConstraint i).body.coefficient ⟨j⟩ := by
  rw [columns_eq_filterMap h]
  exact entryAt_filterMap (fun l => (m.rowConstraint l).body.coefficient ⟨j⟩) i

/-- The activity of a row is the value of the body of its constraint. -/
theorem eval?_body (h : m.WellFormed) (direction : Direction) (z : Vector Rat m.definitions.size)
    (i : Fin m.constraints.size) :
    (m.rowConstraint i).body.eval? (fun v => z.toList[v.index]?) =
      some (SimplexState.activities (m.relaxation direction) z)[i] := by
  have mem := m.rowConstraint_mem i
  rw [Expression.eval?_vector (h.proper _ mem).order (h.covered _ mem), (h.proper _ mem).constant, zero_add,
    SimplexState.activities_eq_sum]
  exact congrArg some (Finset.sum_congr rfl fun j _ => by rw [entryAt_relaxation h])

end Model

end Milp
