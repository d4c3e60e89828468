import Milp.Proofs.Simplex.Coherent

/-!
# Computing the inverse anew

Results:
1. `residual_eq`: what the nonbasic columns leave to the basic ones.
2. `balanced_of_refactored`: basic columns that take it up bring the rows into balance.
3. `Coherent.refactorize?`, `Coherent.refresh?`: the state stays coherent.
4. `reducedCost_refactorize?`: so do the reduced costs.
-/

namespace Milp.SimplexState

open BasisInverse (entryAt entryAt_eq_sum)

variable {n m : Nat} {p : Relaxation Rat ExtendedRat n m} {box : Box ExtendedRat n}
  {s s' : SimplexState Rat ExtendedRat n m}

/-- The value of a column that is not basic. -/
def restingValue (s : SimplexState Rat ExtendedRat n m) (c : Column n m) : Rat :=
  if (s.cell c).place = .basic then 0 else s.value c

theorem foldl_sub_eq (column : SparseColumn Rat m) (value : Rat) (i : Fin m) (sum : Rat) :
    column.foldl (fun sum e => if e.1 = i then sum - e.2 * value else sum) sum =
      sum + -(entryAt column i * value) := by
  rw [foldl_eq_add_sum (f := fun e : Fin m × Rat => if e.1 = i then e.2 * -value else 0),
    entryAt_eq_sum, ← mul_neg, ← List.sum_map_mul_right]
  · simp only [ite_mul, zero_mul]
  · intro sum e _
    split <;> ring

/-- What the nonbasic columns leave to the basic ones. -/
theorem residual_eq (i : Fin m) :
    (s.residual p)[i] = -∑ c, s.system p i c * s.restingValue c := by
  rw [residual, Vector.getElem_coordinate, Vector.getElem_ofFn,
    foldl_eq_add_sum (f := fun c => -(s.system p i c * s.restingValue c)), zero_add,
    Column.sum_all, Finset.sum_neg_distrib]
  intro sum c _
  dsimp only
  split
  · rename_i nothing
    have zero : s.restingValue c = 0 := by
      unfold restingValue
      split
      · rfl
      · rename_i nonbasic
        simpa [nonbasic, value] using nothing
    rw [zero, mul_zero, neg_zero, add_zero]
  · rename_i something
    have resting : s.restingValue c = s.value c := if_neg fun basic => something (by simp [basic])
    rw [foldl_sub_eq, resting]
    rfl

/-- Basic columns that take up what the others leave bring the rows into balance. -/
theorem balanced_of_refactored {inverse : BasisInverse Rat m}
    (inverts : inverse.matrix * s.basis p = 1) (signs : s'.signs = s.signs)
    (values : ∀ c, s'.value c =
      s.restingValue c + s.spread (inverse.ftranDense (s.residual p)) c) : s'.Balanced p := by
  intro i
  have taken : ∑ k : Fin m, s.basis p i k * (inverse.ftranDense (s.residual p))[k] =
      (s.residual p)[i] := by
    simp only [BasisInverse.ftranDense_eq_sum]
    exact basis_mul_inverse inverts (fun l : Fin m => (s.residual p)[l]) i
  unfold imbalance
  rw [system_congr signs]
  simp only [values, mul_add, Finset.sum_add_distrib]
  rw [system_mul_spread, taken, residual_eq, add_neg_cancel]

theorem Coherent.restingValue_add_spread (h : s.Coherent p box) (v : Vector Rat m)
    (c : Column n m) : (∀ k : Fin m, s.basic[k] = c → s.restingValue c + s.spread v c = v[k]) ∧
      ((∀ k : Fin m, s.basic[k] ≠ c) → s.restingValue c + s.spread v c = s.value c) := by
  refine ⟨?_, ?_⟩
  · intro k hk
    have basic := (h.placed c).mpr ⟨k, hk⟩
    rw [restingValue, if_pos basic, ← hk, spread_basic h.distinct, zero_add]
  · intro other
    have nonbasic : (s.cell c).place ≠ .basic := fun basic =>
      (h.placed c).mp basic |>.elim fun k hk => other k hk
    rw [restingValue, if_neg nonbasic, spread_other v other, add_zero]

/-- Under a new inverse the basic columns take the values that it gives them. -/
theorem Coherent.cell_refactored (h : s.Coherent p box) (inverse : BasisInverse Rat m)
    (c : Column n m) :
    (modifyBasics { s with inverse }
      (fun i c => { c with value := (inverse.ftranDense (s.residual p))[i] })
      (List.finRange m)).cell c =
        { s.cell c with value := s.restingValue c + s.spread (inverse.ftranDense (s.residual p)) c } := by
  obtain ⟨changed, same⟩ := cell_modifyBasics (s := { s with inverse }) h.distinct
    (fun i c => { c with value := (inverse.ftranDense (s.residual p))[i] }) (List.nodup_finRange m)
  obtain ⟨taken, resting⟩ := h.restingValue_add_spread (inverse.ftranDense (s.residual p)) c
  by_cases mem : ∃ k : Fin m, s.basic[k] = c
  · obtain ⟨k, rfl⟩ := mem
    rw [taken k rfl]
    exact changed k (List.mem_finRange k)
  · have other (k : Fin m) : s.basic[k] ≠ c := fun hk => mem ⟨k, hk⟩
    rw [resting other]
    exact same c fun k _ => other k

/-- Computing the inverse anew keeps a state coherent, and leaves no update. -/
theorem Coherent.refactorize? (h : s.Coherent p box) (new : s.refactorize? p = some s') :
    s'.Coherent p box ∧ s'.inverse.updates = 0 := by
  have keeps := keeps_refactorize? new
  obtain ⟨inverse, found, rfl⟩ := Option.map_eq_some_iff.mp new
  obtain ⟨fresh, inverts⟩ := BasisInverse.factorize?_mul found
  rw [ofColumns_basic] at inverts
  let f (i : Fin m) (c : Cell Rat ExtendedRat) : Cell Rat ExtendedRat :=
    { c with value := (inverse.ftranDense (s.residual p))[i] }
  let first : SimplexState Rat ExtendedRat n m := { s with inverse }
  obtain ⟨signs, basic, kept⟩ := modifyBasics_frame (s := first) f (List.finRange m)
  have cells : ∀ c, (first.modifyBasics f (List.finRange m)).cell c = { s.cell c with
      value := s.restingValue c + s.spread (inverse.ftranDense (s.residual p)) c } :=
    h.cell_refactored inverse
  change s.Keeps (first.modifyBasics f (List.finRange m)) at keeps
  show (first.modifyBasics f (List.finRange m)).Coherent p box ∧
    (first.modifyBasics f (List.finRange m)).inverse.updates = 0
  generalize first.modifyBasics f (List.finRange m) = s' at signs basic kept cells keeps ⊢
  refine ⟨⟨h.limited.of_keeps keeps, ?_, ?_, ?_, ?_, ?_⟩,
    by rw [kept]; exact fresh⟩
  · rw [basic]
    exact h.distinct
  · intro c
    rw [basic, cells c]
    exact h.placed c
  · intro c admits
    rw [cells c] at admits ⊢
    by_cases place : (s.cell c).place = .basic
    · simp [Cell.Rests, place]
    · have other (k : Fin m) : s.basic[k] ≠ c := fun hk => place ((h.placed c).mpr ⟨k, hk⟩)
      rw [(h.restingValue_add_spread _ c).2 other]
      exact h.rests c admits
  · rw [kept, basis_congr signs basic]
    exact inverts
  · intro _
    exact balanced_of_refactored inverts signs fun c => by rw [value, cells c]

/-- Computing the inverse anew changes neither the basis nor the places of the columns. -/
theorem refactorize?_frame (new : s.refactorize? p = some s') :
    s'.basic = s.basic ∧ ∀ c, (s'.cell c).place = (s.cell c).place := by
  obtain ⟨inverse, -, rfl⟩ := Option.map_eq_some_iff.mp new
  let f (i : Fin m) (c : Cell Rat ExtendedRat) : Cell Rat ExtendedRat :=
    { c with value := (inverse.ftranDense (s.residual p))[i] }
  have places (positions : List (Fin m)) (s : SimplexState Rat ExtendedRat n m) (c : Column n m) :
      ((s.modifyBasics f positions).cell c).place = (s.cell c).place := by
    induction positions generalizing s with
    | nil => rfl
    | cons i positions ih =>
      refine (ih (s.modify s.basic[i] (f i))).trans ?_
      rw [cell_modify]
      split
      · rename_i here
        rw [← here]
      · rfl
  exact ⟨(modifyBasics_frame (s := { s with inverse }) f (List.finRange m)).2.1,
    fun c => places (List.finRange m) { s with inverse } c⟩

/-- An inverse is determined by the basis, and with it the multipliers and the reduced costs: they
are the same after the inverse is computed anew. -/
theorem Coherent.reducedCost_refactorize? (h : s.Coherent p box) (new : s.refactorize? p = some s')
    (c : Column n m) :
    s'.reducedCost p s'.multipliers c = s.reducedCost p s.multipliers c := by
  have keeps := keeps_refactorize? new
  have basic := (refactorize?_frame new).1
  have inverts := (h.refactorize? new).1.inverse
  rw [basis_congr keeps.signs basic] at inverts
  have same : s'.inverse.matrix = s.inverse.matrix :=
    left_inv_eq_right_inv inverts (mul_eq_one_comm.mp h.inverse)
  have cost (c : Column n m) : s'.cost c = s.cost c := (keeps.terms c).2.2
  rw [reducedCost_eq, reducedCost_eq, cost, system_congr keeps.signs]
  simp only [multipliers_eq_sum, same, basic, cost]

theorem Coherent.refresh? (h : s.Coherent p box) (new : s.refresh? p = some s') :
    s'.Coherent p box := by
  unfold SimplexState.refresh? at new
  split at new
  · exact (h.refactorize? new).1
  · cases new
    exact h

end Milp.SimplexState
