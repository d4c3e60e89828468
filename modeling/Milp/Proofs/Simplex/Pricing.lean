import Milp.Proofs.Simplex.System
import Milp.Simplex.Pricing

/-!
# Reduced costs

Results:
1. `reducedCost_basic`: with a right inverse, basic columns have no reduced cost.
2. `sum_cost_eq`: a cost is what the reduced costs make of the values, and what the multipliers make
   of the rows.
3. `entrant?_spec`, `signs_of_price_eq_none`: what pricing says of the reduced costs, both where a
   column enters and where none does.
-/

namespace Milp.SimplexState

open BasisInverse (entryAt)

variable {n m : Nat} {p : Relaxation Rat ExtendedRat n m} {t : Tolerance}
  {s : SimplexState Rat ExtendedRat n m} {c : Column n m} {y : Vector Rat m}
  {e : Entrant Rat n m}

/-- The cost of a column. -/
def cost (s : SimplexState Rat ExtendedRat n m) (c : Column n m) : Rat :=
  (s.cell c).cost

/-! ## Duality -/

theorem multipliers_eq_sum (i : Fin m) :
    s.multipliers[i] = ∑ k : Fin m, s.cost s.basic[k] * s.inverse.matrix k i := by
  rw [multipliers, BasisInverse.btran_eq_sum]
  exact Finset.sum_congr rfl fun k _ => by simp [cost]

theorem reducedCost_eq (y : Vector Rat m) (c : Column n m) :
    s.reducedCost p y c = s.cost c - ∑ i : Fin m, y[i] * s.system p i c := by
  unfold reducedCost system
  rw [BasisInverse.sum_mul_entryAt, foldl_eq_add_sum _ (fun sum e _ => rfl), zero_add]
  rfl

/-- With a right inverse, basic columns have no reduced cost. -/
theorem reducedCost_basic (inverse : s.inverse.matrix * s.basis p = 1) (l : Fin m) :
    s.reducedCost p s.multipliers s.basic[l] = 0 := by
  have worth : ∑ i : Fin m, s.multipliers[i] * s.system p i s.basic[l] = s.cost s.basic[l] := by
    calc ∑ i : Fin m, s.multipliers[i] * s.system p i s.basic[l]
      _ = ∑ i : Fin m, ∑ k : Fin m,
            s.cost s.basic[k] * (s.inverse.matrix k i * s.basis p i l) := by
        refine Finset.sum_congr rfl ?_
        intro i _
        rw [multipliers_eq_sum, Finset.sum_mul]
        exact Finset.sum_congr rfl fun k _ => mul_assoc ..
      _ = ∑ k : Fin m, s.cost s.basic[k] * (s.inverse.matrix * s.basis p) k l := by
        rw [Finset.sum_comm]
        exact Finset.sum_congr rfl fun k _ => by rw [Matrix.mul_apply, Finset.mul_sum]
      _ = s.cost s.basic[l] := by
        simp only [inverse, Matrix.one_apply, mul_ite, mul_one, mul_zero, Finset.sum_ite_eq',
          Finset.mem_univ, if_true]
  rw [reducedCost_eq, worth, sub_self]

/-- The cost of any values is that by the reduced costs and that of the rows by the multipliers. -/
theorem sum_cost_eq (y : Vector Rat m) (v : Column n m → Rat) :
    ∑ c, s.cost c * v c =
      ∑ c, s.reducedCost p y c * v c + ∑ i : Fin m, y[i] * ∑ c, s.system p i c * v c := by
  have rows : ∑ i : Fin m, y[i] * ∑ c, s.system p i c * v c =
      ∑ c, (∑ i : Fin m, y[i] * s.system p i c) * v c := by
    calc ∑ i : Fin m, y[i] * ∑ c, s.system p i c * v c
      _ = ∑ i : Fin m, ∑ c, y[i] * s.system p i c * v c := by
        refine Finset.sum_congr rfl ?_
        intro i _
        rw [Finset.mul_sum]
        exact Finset.sum_congr rfl fun c _ => (mul_assoc ..).symm
      _ = ∑ c, ∑ i : Fin m, y[i] * s.system p i c * v c := Finset.sum_comm
      _ = ∑ c, (∑ i : Fin m, y[i] * s.system p i c) * v c :=
        Finset.sum_congr rfl fun c _ => (Finset.sum_mul ..).symm
  rw [rows, ← Finset.sum_add_distrib]
  exact Finset.sum_congr rfl fun c _ => by rw [reducedCost_eq]; ring

/-! ## Entrants -/

/-- A column that may enter: it is not basic, its limits differ, and the cost falls in the direction
in which its place lets it go. -/
theorem entrant?_spec (h : s.entrant? p t y c = some e) :
    e.column = c ∧ (s.cell c).place ≠ .basic ∧ (s.cell c).lower ≠ (s.cell c).upper ∧
      ((e.direction = 1 ∧ s.reducedCost p y c < -t.absolute ∧
          ((s.cell c).place = .atLower ∨ (s.cell c).place = .free)) ∨
        (e.direction = -1 ∧ t.absolute < s.reducedCost p y c ∧
          ((s.cell c).place = .atUpper ∨ (s.cell c).place = .free))) := by
  unfold entrant? at h
  dsimp only at h
  split at h
  · cases h
  · rename_i eligible
    simp only [Bool.or_eq_true, decide_eq_true_eq, beq_iff_eq, not_or] at eligible
    split at h
    · rename_i rises
      cases h
      exact ⟨rfl, eligible.1, eligible.2, .inl ⟨rfl, by simpa using rises⟩⟩
    · split at h
      · rename_i falls
        cases h
        exact ⟨rfl, eligible.1, eligible.2, .inr ⟨rfl, by simpa using falls⟩⟩
      · cases h

/-- A column with different limits that may not enter has a reduced cost of the right sign, up to the
tolerance. -/
theorem entrant?_eq_none (h : s.entrant? p t y c = none) (nonbasic : (s.cell c).place ≠ .basic)
    (wide : (s.cell c).lower ≠ (s.cell c).upper) :
    ((s.cell c).place = .atLower ∨ (s.cell c).place = .free →
        -t.absolute ≤ s.reducedCost p y c) ∧
      ((s.cell c).place = .atUpper ∨ (s.cell c).place = .free →
        s.reducedCost p y c ≤ t.absolute) := by
  unfold entrant? at h
  dsimp only at h
  rw [if_neg (by simp [nonbasic, wide])] at h
  split at h
  · cases h
  · rename_i level
    split at h
    · cases h
    · rename_i level'
      simp only [Bool.and_eq_true, Bool.or_eq_true, decide_eq_true_eq, not_and_or] at level level'
      refine ⟨?_, ?_⟩
      · intro place
        exact not_lt.mp (level.resolve_right (not_not_intro place))
      · intro place
        exact not_lt.mp (level'.resolve_right (not_not_intro place))

theorem foldl_steeper_mem {es : List (Entrant Rat n m)} {best : Option (Entrant Rat n m)}
    (h : es.foldl steeper best = some e) : e ∈ es ∨ best = some e := by
  induction es generalizing best with
  | nil => exact .inr h
  | cons e' es ih =>
    rcases ih h with later | now
    · exact .inl (List.mem_cons_of_mem _ later)
    · unfold steeper at now
      split at now
      · exact .inl (by simp_all)
      · split at now
        · exact .inl (by simp_all)
        · exact .inr now

theorem foldl_steeper_some (es : List (Entrant Rat n m)) (b : Entrant Rat n m) :
    es.foldl steeper (some b) ≠ none := by
  induction es generalizing b with
  | nil => simp
  | cons e es ih =>
    rw [List.foldl_cons, steeper]
    split
    · exact ih e
    · exact ih b

/-- The column that enters is one that may. -/
theorem entrant?_of_price {first : Bool} (h : s.price p t y first = some e) :
    s.entrant? p t y e.column = some e := by
  have mem : e ∈ (Column.all n m).filterMap (s.entrant? p t y) := by
    unfold price at h
    dsimp only at h
    split at h
    · exact List.mem_of_mem_head? h
    · exact (foldl_steeper_mem h).resolve_right (by simp)
  obtain ⟨c, -, hc⟩ := List.mem_filterMap.mp mem
  rwa [(entrant?_spec hc).1]

/-- When no column enters, none may. -/
theorem entrant?_of_price_eq_none {first : Bool} (h : s.price p t y first = none)
    (c : Column n m) : s.entrant? p t y c = none := by
  have empty : (Column.all n m).filterMap (s.entrant? p t y) = [] := by
    unfold price at h
    dsimp only at h
    split at h
    · exact List.head?_eq_none_iff.mp h
    · generalize (Column.all n m).filterMap (s.entrant? p t y) = es at h
      cases es with
      | nil => rfl
      | cons e es => exact absurd h (foldl_steeper_some es e)
  exact List.filterMap_eq_nil_iff.mp empty c (Column.mem_all c)

end Milp.SimplexState
