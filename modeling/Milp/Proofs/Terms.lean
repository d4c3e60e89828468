import Milp.Proofs.Expression

/-!
# Terms that come in the order of their variables

Where an expression is built variable by variable, each in its turn, the terms are what was added.

Results:
1. `foldl_groups`: a group of coefficients for each variable makes a term, or none where it is empty.
2. `copy_of_ascending`: a copy of an expression in canonical form.
-/

namespace Milp

namespace Expression

variable {K : Type} [Scalar K] {terms : List (Variable × K)} {v : Variable}

/-- A variable after all others goes to the end. -/
theorem addTo_after (after : ∀ t ∈ terms, t.1.index < v.index) (c : K) :
    addTo v c terms = terms ++ [(v, 0 + c)] := by
  induction terms with
  | nil => rfl
  | cons t terms ih =>
    have first := after t (List.mem_cons_self ..)
    have differ : v ≠ t.1 := by
      rintro rfl
      exact Nat.lt_irrefl _ first
    rw [addTo, if_neg (Nat.not_lt.mpr first.le), if_neg differ,
      ih fun t ht => after t (List.mem_cons_of_mem _ ht), List.cons_append]

/-- A coefficient is added to that of the last variable. -/
theorem addTo_last (after : ∀ t ∈ terms, t.1.index < v.index) (d c : K) :
    addTo v c (terms ++ [(v, d)]) = terms ++ [(v, d + c)] := by
  induction terms with
  | nil => simp [addTo]
  | cons t terms ih =>
    have first := after t (List.mem_cons_self ..)
    have differ : v ≠ t.1 := by
      rintro rfl
      exact Nat.lt_irrefl _ first
    rw [List.cons_append, addTo, if_neg (Nat.not_lt.mpr first.le), if_neg differ,
      ih fun t ht => after t (List.mem_cons_of_mem _ ht), List.cons_append]

/-- The sum of some numbers in order, if there are any. -/
def total? : List K → Option K
  | [] => none
  | xs => some (xs.foldl (· + ·) 0)

/-- Coefficients of a variable after all others are added up. -/
theorem foldl_addTerm_after (after : ∀ t ∈ terms, t.1.index < v.index) (constant : K) (xs : List K) :
    xs.foldl (fun (e : Expression K) x => e.addTerm v x) ⟨terms, constant⟩ =
      ⟨terms ++ ((total? xs).map (Prod.mk v)).toList, constant⟩ := by
  have last (xs : List K) (d : K) :
      xs.foldl (fun (e : Expression K) x => e.addTerm v x) ⟨terms ++ [(v, d)], constant⟩ =
        ⟨terms ++ [(v, xs.foldl (· + ·) d)], constant⟩ := by
    induction xs generalizing d with
    | nil => rfl
    | cons x xs ih =>
      rw [List.foldl_cons, addTerm, addTo_last after, ih, List.foldl_cons]
  cases xs with
  | nil => simp [total?]
  | cons x xs =>
    rw [List.foldl_cons, addTerm, addTo_after after, last]
    rfl

/-- Groups of coefficients, one for each of the variables that follow, make a term each, if they are
not empty. -/
theorem foldl_groups {α : Type} (terms : List (Variable × K)) (group : α → List K) (as : List α) (n : Nat)
    (before : ∀ t ∈ terms, t.1.index < n) (constant : K) :
    (as.zipIdx n).foldl
        (fun e a => (group a.1).foldl (fun (e : Expression K) x => e.addTerm ⟨a.2⟩ x) e)
        ⟨terms, constant⟩ =
      ⟨terms ++ (as.zipIdx n).filterMap fun a => (total? (group a.1)).map (Prod.mk ⟨a.2⟩),
        constant⟩ := by
  induction as generalizing n terms with
  | nil => simp
  | cons a as ih =>
    have after : ∀ t ∈ terms ++ ((total? (group a)).map (Prod.mk ⟨n⟩)).toList,
        t.1.index < n + 1 := by
      intro t ht
      rcases List.mem_append.mp ht with ht | ht
      · exact (before t ht).trans (Nat.lt_succ_self n)
      · obtain ⟨x, -, rfl⟩ := Option.map_eq_some_iff.mp (Option.mem_toList.mp ht)
        exact Nat.lt_succ_self n
    rw [List.zipIdx_cons, List.foldl_cons, foldl_addTerm_after before, ih _ (n + 1) after,
      List.append_assoc, List.filterMap_cons]
    cases total? (group a) <;> rfl

/-- A copy of an expression in canonical form has its terms, each added to nothing. -/
theorem copy_of_ascending {e : Expression K} (order : Ascending e.terms) :
    (Operand.expression e).copy = ⟨e.terms.map fun t => (t.1, 0 + t.2), 0 + e.constant⟩ := by
  have built (ts pre : List (Variable × K)) (k : K) (order : Ascending ts)
      (before : ∀ s ∈ pre, ∀ t ∈ ts, s.1.index < t.1.index) :
      ts.foldl (fun (e : Expression K) t => e.addTerm t.1 t.2) ⟨pre, k⟩ =
        ⟨pre ++ ts.map fun t => (t.1, 0 + t.2), k⟩ := by
    induction ts generalizing pre with
    | nil => simp
    | cons t ts ih =>
      obtain ⟨first, order⟩ := List.pairwise_cons.mp order
      rw [List.foldl_cons, addTerm,
        addTo_after fun s hs => before s hs t (List.mem_cons_self ..), ih _ order]
      · simp
      · intro s hs u hu
        rcases List.mem_append.mp hs with hs | hs
        · exact before s hs u (List.mem_cons_of_mem _ hu)
        · rw [List.mem_singleton.mp hs]
          exact first u hu
  have terms := built e.terms [] 0 order (by simp)
  unfold Operand.copy
  dsimp only [Operand.terms, Operand.constant]
  rw [show (zero : Expression K) = ⟨[], 0⟩ from rfl, terms]
  rfl

end Expression

end Milp
