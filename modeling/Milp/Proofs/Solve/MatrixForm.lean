import Milp.Proofs.Solve.History

/-!
# The matrix form of a model

A model keeps its constraints by rows, each with the terms of its body, and its linear program keeps
them by columns, without the terms that are zero. The linear program minimises a cost, which is the
objective of the model up to the direction and a constant.

Results:
1. `mem_terms_iff`: the coefficients of an expression in canonical form are its terms.
2. `mem_columns`, `pairwise_columns`: the entries of a column.
3. `toObjective_toCost`, `costOf_le_costOf_iff`: costs and objectives.
4. `relaxation_faithful`: what a model and its linear program have in common.
-/

namespace Milp

open SimplexState (activities activities_eq_sum)
open BasisInverse (entryAt_eq_dense)
open Relaxation (rowEntry)

/-- The coefficients of an expression in canonical form are its terms, but for those that are zero. -/
theorem Expression.mem_terms_iff {e : Expression Rat} (order : Ascending e.terms) {v : Variable}
    {a : Rat} (nonzero : a ≠ 0) : (v, a) ∈ e.terms ↔ e.coefficient v = a := by
  obtain ⟨terms, constant⟩ := e
  induction terms with
  | nil => simp [coefficient, nonzero.symm]
  | cons t terms ih =>
    obtain ⟨below, rest⟩ := List.pairwise_cons.mp order
    rw [coefficient_cons, List.mem_cons]
    by_cases here : t.1 = v
    · have absent : (v, a) ∉ terms := fun later => (below _ later).ne (congrArg Variable.index here)
      rw [if_pos here, or_iff_left absent, Prod.ext_iff]
      exact ⟨fun same => same.2.symm, fun same => ⟨here.symm, same.symm⟩⟩
    · have other : (v, a) ≠ t := fun same => here (congrArg Prod.fst same).symm
      rw [if_neg here, or_iff_right other]
      exact ih rest

namespace Relaxation

variable {n m : Nat} {p : Relaxation Rat ExtendedRat n m}

theorem rowEntry_eq_some {body : Expression Rat} {i k : Fin m} {j : Fin n} {a : Rat} :
    rowEntry body i j = some (k, a) ↔ i = k ∧ a ≠ 0 ∧ body.coefficient ⟨j⟩ = a := by
  unfold rowEntry
  split
  · rename_i zero
    have absent : ¬ (i = k ∧ a ≠ 0 ∧ body.coefficient ⟨j⟩ = a) := by
      rintro ⟨-, nonzero, rfl⟩
      exact nonzero (beq_iff_eq.mp zero)
    simp only [absent, reduceCtorEq]
  · rename_i nonzero
    rw [Option.some.injEq, Prod.mk.injEq]
    refine and_congr_right fun _ => ⟨?_, And.right⟩
    rintro rfl
    exact ⟨fun zero => nonzero (beq_iff_eq.mpr zero), rfl⟩

/-- An objective is recovered from its cost. -/
theorem toObjective_toCost (objective : Rat) : p.toObjective (p.toCost objective) = objective := by
  unfold toObjective toCost
  calc p.direction.sense * ((objective - p.constant) * p.direction.sense) + p.constant
    _ = (objective - p.constant) * (p.direction.sense * p.direction.sense) + p.constant := by ring
    _ = objective := by rw [sense_mul_sense, mul_one, sub_add_cancel]

end Relaxation

namespace Model

variable {m : Model Rat ExtendedRat} {direction : Direction}

/-! ## Columns -/

/-- A column has the terms of its variable that are not zero. -/
theorem mem_columns (h : m.WellFormed) (j : Fin m.definitions.size) (i : Fin m.constraints.size)
    (a : Rat) :
    (i, a) ∈ (m.relaxation direction).columns[j] ↔
      a ≠ 0 ∧ ((⟨j⟩ : Variable), a) ∈ (m.rowConstraint i).body.terms := by
  have order := (h.proper _ (m.rowConstraint_mem i)).order
  have entry : (i, a) ∈ (m.relaxation direction).columns[j] ↔
      a ≠ 0 ∧ (m.rowConstraint i).body.coefficient ⟨j⟩ = a := by
    rw [columns_eq_filterMap h, List.mem_filterMap]
    simp only [Relaxation.rowEntry_eq_some, List.mem_finRange, true_and, exists_eq_left]
  rw [entry]
  exact and_congr_right fun nonzero => (Expression.mem_terms_iff order nonzero).symm

/-- The rows of a column ascend, and none comes twice. -/
theorem pairwise_columns (h : m.WellFormed) (j : Fin m.definitions.size) :
    (m.relaxation direction).columns[j].Pairwise fun s t => s.1 < t.1 := by
  rw [columns_eq_filterMap h]
  refine List.pairwise_filterMap.mpr ((List.pairwise_lt_finRange _).imp ?_)
  intro i k less ⟨i', a⟩ hs ⟨k', b⟩ ht
  obtain ⟨rfl, -⟩ := Relaxation.rowEntry_eq_some.mp hs
  obtain ⟨rfl, -⟩ := Relaxation.rowEntry_eq_some.mp ht
  exact less

/-! ## Faithfulness -/

/-- One point costs no more than another exactly when the direction finds it as good. -/
theorem costOf_le_costOf_iff (h : m.WellFormed) {z z' : Vector Rat m.definitions.size} {v v' : Rat}
    (value : m.objective.eval? (fun w => z.toList[w.index]?) = some v)
    (value' : m.objective.eval? (fun w => z'.toList[w.index]?) = some v') :
    (m.relaxation direction).costOf z.toList ≤ (m.relaxation direction).costOf z'.toList ↔
      direction.AsGood v v' := by
  rw [eval?_objective h direction, Option.some.injEq] at value value'
  rw [← value, ← value']
  exact (Relaxation.asGood_toObjective (p := m.relaxation direction)).symm

/-- The linear program of a model has the coefficients, the limits, the bounds and the objective of
the model. -/
theorem relaxation_faithful (built : m.Built) (direction : Direction) :
    let p := m.relaxation direction
    (∀ j : Fin m.definitions.size,
      p.columns[j].Pairwise (fun s t => s.1 < t.1) ∧
      (∀ i a, (i, a) ∈ p.columns[j] ↔
        a ≠ 0 ∧ ((⟨j⟩ : Variable), a) ∈ (m.rowConstraint i).body.terms) ∧
      p.box.lower[j] = (m.columnDefinition j).lower ∧
      p.box.upper[j] = (m.columnDefinition j).upper ∧
      (p.integer[j] = true ↔ (m.columnDefinition j).domain ≠ .continuous)) ∧
    (∀ i : Fin m.constraints.size,
      p.rows.lower[i] = (m.rowConstraint i).lower ∧
      p.rows.upper[i] = (m.rowConstraint i).upper) ∧
    (∀ z : Vector Rat m.definitions.size,
      (∀ i : Fin m.constraints.size,
        (activities p z)[i] = ∑ j : Fin m.definitions.size, p.columns[j].dense i * z[j] ∧
        (m.rowConstraint i).body.eval? (fun v => z.toList[v.index]?) =
          some (activities p z)[i]) ∧
      m.objective.eval? (fun v => z.toList[v.index]?) = some (p.objectiveOf z.toList)) ∧
    (∀ (z z' : Vector Rat m.definitions.size) (v v' : Rat),
      m.objective.eval? (fun w => z.toList[w.index]?) = some v →
      m.objective.eval? (fun w => z'.toList[w.index]?) = some v' →
      (p.costOf z.toList ≤ p.costOf z'.toList ↔ direction.AsGood v v')) ∧
    ∀ q, p.toCost (p.toObjective q) = q ∧ p.toObjective (p.toCost q) = q := by
  have h := built.wellFormed
  refine ⟨fun j => ?_, m.rows_relaxation direction, fun z => ⟨fun i => ?_, ?_⟩, ?_, fun q => ?_⟩
  · obtain ⟨lower, upper, integer⟩ := m.columns_relaxation direction j
    exact ⟨pairwise_columns h j, mem_columns h j, lower, upper, integer ▸ Domain.isInteger_iff⟩
  · refine ⟨?_, eval?_body h direction z i⟩
    rw [activities_eq_sum]
    exact Finset.sum_congr rfl fun j _ => by rw [entryAt_eq_dense]
  · exact eval?_objective h direction z
  · exact fun z z' v v' value value' => costOf_le_costOf_iff h value value'
  · exact ⟨Relaxation.toCost_toObjective q, Relaxation.toObjective_toCost q⟩

/-- The knapsack with `x - x + 3 y ≥ 1` as a second row. -/
def cancelling : Model Rat ExtendedRat :=
  knapsack.withConstraint ⟨⟨[(⟨0⟩, 0), (⟨1⟩, 3)], 0⟩, .finite 1, .above, none⟩

theorem built_cancelling : cancelling.Built := by
  have added : knapsack.addConstraint ⟨⟨[(⟨0⟩, 0), (⟨1⟩, 3)], 0⟩, .finite 1, .above, none⟩ =
      .ok (cancelling, 1) :=
    addConstraint_eq_ok.mpr ⟨rfl, by decide +kernel, nofun, rfl, by decide +kernel⟩
  refine built_knapsack.addConstraint ⟨?_, rfl⟩ added
  simp [Expression.Ascending]

/-- The term of `x` in the second row is kept there with the coefficient zero, and is in no column. -/
theorem relaxation_faithful_cancelling :
    cancelling.Built ∧
    let p := cancelling.relaxation .maximise
    let x : Fin cancelling.definitions.size := ⟨0, by decide +kernel⟩
    let second : Fin cancelling.constraints.size := ⟨1, by decide⟩
    let z : Vector Rat cancelling.definitions.size := ⟨#[2, 1], by decide +kernel⟩
    p.columns[x] = [(⟨0, by decide⟩, 5)] ∧
    ((⟨0⟩ : Variable), (0 : Rat)) ∈ (cancelling.rowConstraint second).body.terms ∧
    (∀ a, (second, a) ∉ p.columns[x]) ∧
    (activities p z)[second] = 3 ∧
    (cancelling.rowConstraint second).body.eval? (fun v => z.toList[v.index]?) = some 3 ∧
    p.objectiveOf z.toList = 9 ∧
    cancelling.objective.eval? (fun v => z.toList[v.index]?) = some 9 := by
  refine ⟨built_cancelling, ?_⟩
  intro p x second z
  obtain ⟨columns, -, values, -⟩ := relaxation_faithful built_cancelling .maximise
  obtain ⟨bodies, objective⟩ := values z
  obtain ⟨-, entries, -⟩ := columns x
  obtain ⟨-, body⟩ := bodies second
  have stored : (cancelling.rowConstraint second).body.terms = [(⟨0⟩, 0), (⟨1⟩, 3)] := rfl
  have activity : (activities p z)[second] = 3 := by decide +kernel
  have value : p.objectiveOf z.toList = 9 := by decide +kernel
  refine ⟨by decide +kernel, by simp [stored], ?_, activity, activity ▸ body, value,
    value ▸ objective⟩
  intro a entry
  obtain ⟨nonzero, term⟩ := (entries second a).mp entry
  have zero : a = 0 := by simpa [stored, x] using term
  exact nonzero zero

end Model

end Milp
