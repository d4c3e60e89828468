import Milp.Proofs.Simplex.Refactor
import Milp.Proofs.Simplex.Step

/-!
# Runs of the simplex method

Results:
1. `Coherent.runPhase`: a phase keeps a state coherent, and ends where a step does.
2. `FirstPhase`, `SecondPhase`: the costs of the two phases.
3. `run_infeasible`, `run_second`: what is known of the last state of a run.
-/

namespace Milp.SimplexState

variable {n m : Nat} {p : Relaxation Rat ExtendedRat n m} {box : Box ExtendedRat n} {t : Tolerance}
  {s s' : SimplexState Rat ExtendedRat n m} {ending : Ending} {limit : Nat}

/-! ## Phases -/

/-- A phase keeps a state coherent, and ends where a step does. -/
theorem Coherent.runPhase {left : Nat} (h : s.Coherent p box) (rows : p.rows.Ordered)
    (columns : box.Ordered) (run : s.runPhase p t left = (ending, s')) :
    s'.Coherent p box ∧ s'.Stop p t ending := by
  induction left generalizing s with
  | zero =>
    cases run
    exact ⟨h, .failed⟩
  | succ left ih =>
    unfold SimplexState.runPhase at run
    split at run
    · cases run
      exact ⟨h, .failed⟩
    · rename_i fresh refreshed
      have coherent := h.refresh? refreshed
      split at run
      · rename_i stopped
        cases run
        exact ⟨coherent, stop_of_step stopped⟩
      · rename_i next stepped
        exact ih (coherent.step rows columns stepped) run

/-- The costs of the first phase: the artificial columns. -/
structure FirstPhase (s : SimplexState Rat ExtendedRat n m) : Prop where
  structural : ∀ j, s.cost (.structural j) = 0
  logical : ∀ i, s.cost (.logical i) = 0
  artificial : ∀ i, s.cost (.artificial i) = 1

/-- The costs of the second phase: those of the structural columns. The artificial columns are fixed
at zero. -/
structure SecondPhase (p : Relaxation Rat ExtendedRat n m) (s : SimplexState Rat ExtendedRat n m) :
    Prop where
  structural : ∀ j : Fin n, s.cost (.structural j) = p.cost[j]
  logical : ∀ i, s.cost (.logical i) = 0
  artificial : ∀ i, s.cost (.artificial i) = 0
  fixed : ∀ i, (s.cell (.artificial i)).upper = .finite 0

theorem FirstPhase.of_keeps (h : s.FirstPhase) (keeps : s.Keeps s') : s'.FirstPhase where
  structural j := (keeps.terms _).2.2.trans (h.structural j)
  logical i := (keeps.terms _).2.2.trans (h.logical i)
  artificial i := (keeps.terms _).2.2.trans (h.artificial i)

theorem SecondPhase.of_keeps (h : s.SecondPhase p) (keeps : s.Keeps s') : s'.SecondPhase p where
  structural j := (keeps.terms _).2.2.trans (h.structural j)
  logical i := (keeps.terms _).2.2.trans (h.logical i)
  artificial i := (keeps.terms _).2.2.trans (h.artificial i)
  fixed i := (keeps.terms _).2.1.trans (h.fixed i)

theorem cost_start (c : Column n m) : (start p box t).cost c = 0 := by
  unfold cost
  cases c with
  | structural j =>
    rw [cell_start_structural]
    unfold restingCell
    split
    · rfl
    · split <;> rfl
  | logical i =>
    obtain ⟨r, spec, logical, -⟩ := start_row p box t i
    rw [logical]
    cases spec <;> rfl
  | artificial i =>
    obtain ⟨r, spec, -, artificial, -⟩ := start_row p box t i
    rw [artificial]
    cases spec <;> rfl

theorem firstPhase_start : (start p box t).forFeasibility.FirstPhase where
  structural j := cost_start (p := p) (t := t) (.structural j)
  logical i := cost_start (p := p) (t := t) (.logical i)
  artificial i := by simp [cost, forFeasibility, cell, Table.get]

/-- The first phase may be left out where no row has an artificial column. -/
theorem fixed_of_artificialCount_eq_zero (none : (start p box t).artificialCount = 0) (i : Fin m) :
    ((start p box t).cell (.artificial i)).upper = .finite 0 := by
  obtain ⟨r, spec, -, artificial, sign, -⟩ := start_row p box t i
  rw [artificial]
  cases spec with
  | kept => rfl
  | broken =>
    unfold artificialCount at none
    have mem : (start p box t).signs[i] ∈ (start p box t).signs.toList := by simp
    exact absurd (by rw [sign]; rfl) (List.countP_eq_zero.mp none _ mem)

theorem secondPhase_forCost (logical : ∀ i, s.cost (.logical i) = 0)
    (artificial : ∀ i, s.cost (.artificial i) = 0)
    (fixed : ∀ i, (s.cell (.artificial i)).upper = .finite 0) : (s.forCost p).SecondPhase p where
  structural j := by simp [cost, forCost, cell, Table.get]
  logical := logical
  artificial := artificial
  fixed := fixed

/-! ## Both phases -/

/-- What is known where the first phase ends. -/
theorem reachFeasibility_spec (rows : p.rows.Ordered) (columns : box.Ordered)
    (run : (start p box t).reachFeasibility p t limit = (ending, s)) :
    s.Coherent p box ∧
      (ending = .optimal ∧ (s.forCost p).SecondPhase p ∨
        ending = .infeasible ∧ s.FirstPhase ∧ s.Stop p t .optimal ∧
          s.infeasibilityAllowed p t < s.infeasibility ∨
        ending = .failed) := by
  have coherent := coherent_start p box t
  unfold reachFeasibility at run
  split at run
  · rename_i none
    cases run
    exact ⟨coherent, .inl ⟨rfl, secondPhase_forCost (fun i => cost_start _) (fun i => cost_start _)
      (fixed_of_artificialCount_eq_zero none)⟩⟩
  · split at run
    · rename_i last phase
      obtain ⟨kept, stop⟩ := coherent.forFeasibility.runPhase rows columns phase
      have costs := firstPhase_start.of_keeps (keeps_runPhase phase)
      split at run
      · rename_i above
        cases run
        exact ⟨kept, .inr (.inl ⟨rfl, costs, stop, above⟩)⟩
      · cases run
        refine ⟨kept.closeArtificial, .inl ⟨rfl, secondPhase_forCost costs.logical
          (fun i => ?_) fun i => ?_⟩⟩
        · rw [cost, cell_closeArtificial]
          unfold Cell.close
          dsimp only
          split <;> rfl
        · rw [cell_closeArtificial]
          unfold Cell.close
          dsimp only
          split <;> rfl
    · rename_i last other phase
      cases run
      exact ⟨(coherent.forFeasibility.runPhase rows columns phase).1, .inr (.inr rfl)⟩

/-- What is known where the second phase ends. -/
theorem minimise_spec (h : s.Coherent p box) (costs : (s.forCost p).SecondPhase p)
    (rows : p.rows.Ordered) (columns : box.Ordered)
    (run : s.minimise p t limit = (ending, s')) :
    s'.Coherent p box ∧ s'.SecondPhase p ∧
      (ending = .optimal ∧ s'.Balanced p ∨ ending = .unbounded ∧ s'.Stop p t .unbounded ∨
        ending = .failed) := by
  unfold minimise at run
  split at run
  · rename_i last phase
    obtain ⟨kept, stop⟩ := h.forCost.runPhase rows columns phase
    have terms := costs.of_keeps (keeps_runPhase phase)
    split at run
    · split at run
      · rename_i fresh refactored
        cases run
        obtain ⟨kept', none⟩ := kept.refactorize? refactored
        exact ⟨kept', terms.of_keeps (keeps_refactorize? refactored),
          .inl ⟨rfl, kept'.balanced none⟩⟩
      · cases run
        exact ⟨kept, terms, .inr (.inr rfl)⟩
    · rename_i fresh
      cases run
      exact ⟨kept, terms, .inl ⟨rfl, kept.balanced (Nat.eq_zero_of_not_pos fresh)⟩⟩
  · rename_i last other phase
    cases run
    obtain ⟨kept, stop⟩ := h.forCost.runPhase rows columns phase
    have terms := costs.of_keeps (keeps_runPhase phase)
    cases stop with
    | level => exact (other rfl).elim
    | free enters endless => exact ⟨kept, terms, .inr (.inl ⟨rfl, .free enters endless⟩)⟩
    | failed => exact ⟨kept, terms, .inr (.inr rfl)⟩

theorem run_infeasible (rows : p.rows.Ordered) (columns : box.Ordered)
    (run : (start p box t).run p t limit = (.infeasible, s)) :
    s.Coherent p box ∧ s.FirstPhase ∧ s.Stop p t .optimal ∧
      s.infeasibilityAllowed p t < s.infeasibility := by
  unfold SimplexState.run at run
  split at run
  · rename_i middle phase
    obtain ⟨kept, first⟩ := reachFeasibility_spec rows columns phase
    rcases first with ⟨-, costs⟩ | ⟨other, -⟩ | other
    · obtain ⟨-, -, ends⟩ := minimise_spec kept costs rows columns run
      simp at ends
    · cases other
    · cases other
  · rename_i middle other phase
    cases run
    obtain ⟨kept, first⟩ := reachFeasibility_spec rows columns phase
    rcases first with ⟨same, -⟩ | ⟨-, costs, stop, above⟩ | same
    · cases same
    · exact ⟨kept, costs, stop, above⟩
    · cases same

/-- A run that ends optimal or unbounded ends in its second phase. -/
theorem run_second (rows : p.rows.Ordered) (columns : box.Ordered)
    (run : (start p box t).run p t limit = (ending, s))
    (second : ending = .optimal ∨ ending = .unbounded) :
    s.Coherent p box ∧ s.SecondPhase p ∧
      (ending = .optimal ∧ s.Balanced p ∨ ending = .unbounded ∧ s.Stop p t .unbounded) := by
  unfold SimplexState.run at run
  split at run
  · rename_i middle phase
    obtain ⟨kept, first⟩ := reachFeasibility_spec rows columns phase
    rcases first with ⟨-, costs⟩ | ⟨other, -⟩ | other
    · obtain ⟨kept', terms, ends⟩ := minimise_spec kept costs rows columns run
      refine ⟨kept', terms, ?_⟩
      rcases ends with ends | ends | rfl
      · exact .inl ends
      · exact .inr ends
      · simp at second
    · cases other
    · cases other
  · rename_i middle other phase
    cases run
    obtain ⟨-, first⟩ := reachFeasibility_spec rows columns phase
    rcases first with ⟨rfl, -⟩ | ⟨rfl, -⟩ | rfl
    · exact (other rfl).elim
    · simp at second
    · simp at second

end Milp.SimplexState
