import Mathlib.Algebra.BigOperators.Ring.Finset
import Milp.Proofs.Exact
import Milp.Expression.Operand

/-!
# Expressions in canonical form

The terms of an expression are kept in the order of their variables, one term a variable.

Results:
1. `ascending_addTo`, `ascending_foldl_addTo`: adding terms keeps the order; so do the operations.
2. `sum_coefficient_mul`: the coefficients of all variables make up the terms.
3. `eval?_eq_some`: the value at an assignment of the variables that occur.
4. `copy_expression`: a copy of an expression in canonical form is that expression.
-/

namespace Milp

namespace Expression

/-! ## The order of the terms -/

section Terms

variable {K : Type} [Scalar K] {terms : List (Variable × K)}

/-- Terms in the order of their variables, one a variable. -/
def Ascending (terms : List (Variable × K)) : Prop :=
  terms.Pairwise fun s t => s.1.index < t.1.index

/-- The variables of terms to which one is added. -/
theorem mem_addTo {v : Variable} {c : K} {t : Variable × K} (h : t ∈ addTo v c terms) :
    t.1 = v ∨ ∃ s ∈ terms, s.1 = t.1 := by
  induction terms with
  | nil => simp_all [addTo]
  | cons first terms ih =>
    obtain ⟨w, d⟩ := first
    unfold addTo at h
    split at h
    · rcases List.mem_cons.mp h with rfl | h
      · exact .inl rfl
      · exact .inr ⟨t, h, rfl⟩
    · split at h
      · rcases List.mem_cons.mp h with rfl | h
        · exact .inr ⟨(w, d), List.mem_cons_self .., rfl⟩
        · exact .inr ⟨t, List.mem_cons_of_mem _ h, rfl⟩
      · rcases List.mem_cons.mp h with rfl | h
        · exact .inr ⟨(w, d), List.mem_cons_self .., rfl⟩
        · exact (ih h).imp id fun ⟨s, hs, same⟩ => ⟨s, List.mem_cons_of_mem _ hs, same⟩

/-- Adding a term keeps the order. -/
theorem ascending_addTo (v : Variable) (c : K) (h : Ascending terms) :
    Ascending (addTo v c terms) := by
  induction terms with
  | nil => simp [addTo, Ascending]
  | cons first terms ih =>
    obtain ⟨w, d⟩ := first
    obtain ⟨below, rest⟩ := List.pairwise_cons.mp h
    unfold addTo
    split
    · rename_i less
      refine List.pairwise_cons.mpr ⟨?_, h⟩
      intro t ht
      rcases List.mem_cons.mp ht with rfl | ht
      · exact less
      · exact less.trans (below t ht)
    · rename_i notLess
      split
      · exact List.pairwise_cons.mpr ⟨below, rest⟩
      · rename_i other
        refine List.pairwise_cons.mpr ⟨?_, ih rest⟩
        intro t ht
        rcases mem_addTo ht with same | ⟨s, hs, same⟩
        · have apart : v.index ≠ w.index := fun index => other (by cases v; cases w; simp_all)
          rw [same]
          show w.index < v.index
          omega
        · rw [← same]
          exact below s hs

theorem ascending_foldl_addTo (added : List (Variable × K)) (f : K → K) (h : Ascending terms) :
    Ascending (added.foldl (fun ts t => addTo t.1 (f t.2) ts) terms) := by
  induction added generalizing terms with
  | nil => exact h
  | cons t added ih => exact ih (ascending_addTo t.1 (f t.2) h)

end Terms

end Expression

/-! ## Operations -/

namespace Operand

open Expression

variable {K : Type} [Scalar K] {a b : Operand K}

theorem ascending_copy (a : Operand K) : Ascending a.copy.terms := by
  have built (ts : List (Variable × K)) (e : Expression K) (h : Ascending e.terms) :
      Ascending (ts.foldl (fun (e : Expression K) t => e.addTerm t.1 t.2) e).terms := by
    induction ts generalizing e with
    | nil => exact h
    | cons t ts ih => exact ih _ (ascending_addTo t.1 t.2 h)
  cases a with
  | number x => exact .nil
  | var v => exact built _ _ .nil
  | expression e => exact built _ _ .nil

theorem ascending_toExpression (h : Ascending a.terms) : Ascending a.toExpression.terms := by
  cases a with
  | number x => exact ascending_copy _
  | var v => exact ascending_copy _
  | expression e => exact h

theorem ascending_addMultiple {e : Expression K} (factor : K) (b : Operand K)
    (h : Ascending e.terms) : Ascending (addMultiple e factor b).terms :=
  ascending_foldl_addTo b.terms (factor * ·) h

theorem ascending_sub (b : Operand K) (ha : Ascending a.terms) : Ascending (a.sub b).terms :=
  ascending_addMultiple (-1) b (ascending_toExpression ha)

end Operand

namespace Expression

/-! ## Values -/

/-- The sum of terms at an assignment. -/
def linear (terms : List (Variable × Rat)) (x : Variable → Rat) : Rat :=
  (terms.map fun t => t.2 * x t.1).sum

theorem coefficient_cons (t : Variable × Rat) (terms : List (Variable × Rat)) (constant : Rat)
    (v : Variable) : (⟨t :: terms, constant⟩ : Expression Rat).coefficient v =
      if t.1 = v then t.2 else (⟨terms, constant⟩ : Expression Rat).coefficient v := by
  by_cases here : t.1 = v <;> simp [coefficient, here]

theorem coefficient_eq_zero {terms : List (Variable × Rat)} {constant : Rat} {v : Variable}
    (none : ∀ t ∈ terms, t.1 ≠ v) : (⟨terms, constant⟩ : Expression Rat).coefficient v = 0 := by
  have absent : terms.find? (fun t => t.1 = v) = .none :=
    List.find?_eq_none.mpr fun t ht => by simpa using none t ht
  unfold coefficient
  dsimp only
  rw [absent]

/-- The coefficients of all variables make up the terms. -/
theorem sum_coefficient_mul {n : Nat} {e : Expression Rat} (order : Ascending e.terms)
    (covered : ∀ t ∈ e.terms, t.1.index < n) (x : Variable → Rat) :
    ∑ j : Fin n, e.coefficient ⟨j⟩ * x ⟨j⟩ = linear e.terms x := by
  obtain ⟨terms, constant⟩ := e
  induction terms with
  | nil => simp [coefficient, linear]
  | cons t terms ih =>
    obtain ⟨below, rest⟩ := List.pairwise_cons.mp order
    have first : t.1.index < n := covered t (List.mem_cons_self ..)
    have absent : (⟨terms, constant⟩ : Expression Rat).coefficient t.1 = 0 :=
      coefficient_eq_zero fun s hs same => (below s hs).ne (by rw [same])
    have parts (j : Fin n) : (⟨t :: terms, constant⟩ : Expression Rat).coefficient ⟨j⟩ * x ⟨j⟩ =
        (if j = ⟨t.1.index, first⟩ then t.2 * x t.1 else 0) +
          (⟨terms, constant⟩ : Expression Rat).coefficient ⟨j⟩ * x ⟨j⟩ := by
      rw [coefficient_cons]
      by_cases here : t.1 = ⟨j⟩
      · have same : j = ⟨t.1.index, first⟩ := Fin.ext (congrArg Variable.index here).symm
        rw [if_pos here, if_pos same, ← here, absent, zero_mul, add_zero]
      · have other : j ≠ ⟨t.1.index, first⟩ := by
          rintro rfl
          exact here rfl
        rw [if_neg here, if_neg other, zero_add]
    have later := ih rest fun s hs => covered s (List.mem_cons_of_mem _ hs)
    rw [Finset.sum_congr rfl fun j _ => parts j, Finset.sum_add_distrib, later]
    simp [linear]

/-- The value at an assignment of the variables that occur. -/
theorem eval?_eq_some {e : Expression Rat} {value : Variable → Option Rat} {x : Variable → Rat}
    (assigned : ∀ t ∈ e.terms, value t.1 = some (x t.1)) :
    e.eval? value = some (e.constant + linear e.terms x) := by
  have values : e.terms.mapM (fun t => (value t.1).map (t.2 * ·)) =
      some (e.terms.map fun t => t.2 * x t.1) := by
    generalize e.terms = terms at assigned
    induction terms with
    | nil => rfl
    | cons t terms ih =>
      have first := assigned t (List.mem_cons_self ..)
      have rest := ih fun s hs => assigned s (List.mem_cons_of_mem _ hs)
      simp [List.mapM_cons, first, rest]
  rw [eval?, values, Option.map_some, Exact.sum_eq, linear]

/-! ## Copies and multiples -/

theorem addTo_of_below {terms : List (Variable × Rat)} {v : Variable}
    (below : ∀ t ∈ terms, t.1.index < v.index) (c : Rat) : addTo v c terms = terms ++ [(v, c)] := by
  induction terms with
  | nil => simp [addTo]
  | cons first terms ih =>
    obtain ⟨w, d⟩ := first
    have less : w.index < v.index := below _ (List.mem_cons_self ..)
    have other : v ≠ w := fun same => less.ne (by rw [same])
    rw [addTo, if_neg (Nat.not_lt.mpr less.le), if_neg other,
      ih fun t ht => below t (List.mem_cons_of_mem _ ht)]
    rfl

/-- Adding the terms of an expression in canonical form, one by one, makes that expression. -/
theorem copy_expression {e : Expression Rat} (order : Ascending e.terms) :
    (Operand.expression e).copy = e := by
  have added (ts : List (Variable × Rat)) (e : Expression Rat) (order : Ascending (e.terms ++ ts)) :
      ts.foldl (fun (e : Expression Rat) t => e.addTerm t.1 t.2) e =
        ⟨e.terms ++ ts, e.constant⟩ := by
    induction ts generalizing e with
    | nil => rw [List.append_nil]; rfl
    | cons t ts ih =>
      obtain ⟨-, -, below⟩ := List.pairwise_append.mp order
      have last : e.addTerm t.1 t.2 = ⟨e.terms ++ [t], e.constant⟩ := by
        rw [addTerm, addTo_of_below fun s hs => below s hs t (List.mem_cons_self ..)]
      rw [List.foldl_cons, last, ih _ (by rwa [List.append_assoc]), List.append_assoc]
      rfl
  have all := added e.terms .zero order
  unfold Operand.copy
  dsimp only [Operand.terms, Operand.constant]
  rw [all]
  simp [addConstant, zero, ofScalar]

theorem ascending_scale {e : Expression Rat} (order : Ascending e.terms) (factor : Rat) :
    Ascending (e.scale factor).terms :=
  List.pairwise_map.mpr order

theorem coefficient_scale (e : Expression Rat) (factor : Rat) (v : Variable) :
    (e.scale factor).coefficient v = e.coefficient v * factor := by
  obtain ⟨terms, constant⟩ := e
  induction terms with
  | nil => simp [coefficient, scale]
  | cons t terms ih =>
    have first : (scale ⟨t :: terms, constant⟩ factor).coefficient v =
        if t.1 = v then t.2 * factor else (scale ⟨terms, constant⟩ factor).coefficient v :=
      coefficient_cons ..
    rw [first, coefficient_cons, ih, ite_mul]

end Expression

end Milp
