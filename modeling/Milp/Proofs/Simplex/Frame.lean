import Milp.Proofs.Simplex.Pricing
import Milp.Simplex.Run

/-!
# What a phase leaves alone

A phase changes values, places and the basis. It never changes the coefficients of the artificial
columns, nor the limits and the cost of any column.

Results:
1. `keeps_apply`, `keeps_refactorize?`: the parts of a step.
2. `keeps_runPhase`: a whole phase.
-/

namespace Milp

variable {n m : Nat}

/-- A cell with the limits and the cost of another. -/
def Cell.SameTerms (c c' : Cell Rat ExtendedRat) : Prop :=
  c'.lower = c.lower ∧ c'.upper = c.upper ∧ c'.cost = c.cost

theorem Cell.sameTerms_restAt (toUpper : Bool) (c : Cell Rat ExtendedRat) :
    c.SameTerms (c.restAt toUpper) := by
  cases toUpper <;> exact ⟨rfl, rfl, rfl⟩

namespace SimplexState

variable {p : Relaxation Rat ExtendedRat n m} {t : Tolerance}
  {s s' s'' : SimplexState Rat ExtendedRat n m}

/-- A state with the artificial columns, the limits and the costs of another. -/
structure Keeps (s s' : SimplexState Rat ExtendedRat n m) : Prop where
  signs : s'.signs = s.signs
  terms : ∀ c, (s.cell c).SameTerms (s'.cell c)

theorem Keeps.refl (s : SimplexState Rat ExtendedRat n m) : s.Keeps s :=
  ⟨rfl, fun _ => ⟨rfl, rfl, rfl⟩⟩

theorem Keeps.trans (first : s.Keeps s') (second : s'.Keeps s'') : s.Keeps s'' where
  signs := second.signs.trans first.signs
  terms c := by
    obtain ⟨lower, upper, cost⟩ := first.terms c
    obtain ⟨lower', upper', cost'⟩ := second.terms c
    exact ⟨lower'.trans lower, upper'.trans upper, cost'.trans cost⟩

theorem Keeps.congr (h : s.Keeps s') (signs : s''.signs = s'.signs) (cells : s''.cells = s'.cells) :
    s.Keeps s'' := by
  have same (c : Column n m) : s''.cell c = s'.cell c := congrArg (·.get c) cells
  exact h.trans ⟨signs, fun c => by rw [same]; exact ⟨rfl, rfl, rfl⟩⟩

theorem keeps_modify (c : Column n m) {f : Cell Rat ExtendedRat → Cell Rat ExtendedRat}
    (same : ∀ c, Cell.SameTerms c (f c)) : s.Keeps (s.modify c f) where
  signs := rfl
  terms d := by
    rw [cell_modify]
    split
    · rename_i here
      rw [← here]
      exact same _
    · exact ⟨rfl, rfl, rfl⟩

theorem keeps_modifyBasics {f : Fin m → Cell Rat ExtendedRat → Cell Rat ExtendedRat}
    (same : ∀ i c, Cell.SameTerms c (f i c)) (positions : List (Fin m)) :
    s.Keeps (s.modifyBasics f positions) := by
  induction positions generalizing s with
  | nil => exact .refl s
  | cons i positions ih => exact (keeps_modify s.basic[i] (same i)).trans ih

theorem keeps_move (entering : Column n m) (direction : Rat) (alpha : Vector Rat m)
    (length : Rat) : s.Keeps (s.move entering direction alpha length) := by
  unfold move
  split
  · refine (keeps_modify entering ?_).trans (keeps_modifyBasics ?_ (List.finRange m))
    · exact fun _ => ⟨rfl, rfl, rfl⟩
    · exact fun _ _ => ⟨rfl, rfl, rfl⟩
  · exact .refl s

theorem keeps_apply (entering : Column n m) (direction : Rat) (alpha : Vector Rat m)
    (step : Step m) (length : Rat) : s.Keeps (s.apply entering direction alpha step length) := by
  have moved := keeps_move (s := s) entering direction alpha length
  cases step with
  | flip => exact moved.trans (keeps_modify entering (Cell.sameTerms_restAt _))
  | leave position toUpper =>
    have left := moved.trans (keeps_modify (s.move entering direction alpha length).basic[position]
      (Cell.sameTerms_restAt toUpper))
    refine (left.trans (keeps_modify entering (f := fun c => { c with place := .basic }) ?_)).congr
      rfl rfl
    exact fun _ => ⟨rfl, rfl, rfl⟩

theorem keeps_refactorize? (h : s.refactorize? p = some s') : s.Keeps s' := by
  obtain ⟨inverse, -, rfl⟩ := Option.map_eq_some_iff.mp h
  have first : s.Keeps { s with inverse } := ⟨rfl, fun _ => ⟨rfl, rfl, rfl⟩⟩
  refine first.trans (keeps_modifyBasics ?_ (List.finRange m))
  exact fun _ _ => ⟨rfl, rfl, rfl⟩

theorem keeps_refresh? (h : s.refresh? p = some s') : s.Keeps s' := by
  unfold refresh? at h
  split at h
  · exact keeps_refactorize? h
  · cases h
    exact .refl s

theorem keeps_step (h : s.step p t = .inr s') : s.Keeps s' := by
  unfold step at h
  split at h
  · cases h
  · dsimp only at h
    split at h
    · cases h
    · cases h
      exact (keeps_apply _ _ _ _ _).congr rfl rfl

/-- A phase leaves the artificial columns, the limits and the costs alone. -/
theorem keeps_runPhase {left : Nat} {ending : Ending} (h : s.runPhase p t left = (ending, s')) :
    s.Keeps s' := by
  induction left generalizing s with
  | zero =>
    cases h
    exact .refl _
  | succ left ih =>
    unfold runPhase at h
    split at h
    · cases h
      exact .refl _
    · rename_i fresh refreshed
      split at h
      · cases h
        exact keeps_refresh? refreshed
      · rename_i next stepped
        exact ((keeps_refresh? refreshed).trans (keeps_step stepped)).trans (ih h)

end SimplexState

end Milp
