import Milp.Config

/-!
# Configurations that can be made

A configuration starts as the standard one and is changed by its functions only.

Results:
1. `Built.consistent`: what the limits, the gap and the threads of a configuration always keep.
2. `built_configured`: whatever changes are asked for, made or refused, the functions have made the
   configuration.
-/

namespace Milp.Config

variable {K : Type} [Scalar K]

/-- A configuration that the functions make of the standard one. -/
inductive Built : Config K → Prop
  | standard : Built .standard
  | withRelaxation {c : Config K} (before : Built c) (relax : Bool) : Built (c.withRelaxation relax)
  | withTimeLimits {c c' : Config K} {suffice abort : Duration} (before : Built c)
    (set : c.withTimeLimits suffice abort = .ok c') : Built c'
  | withTimeAbort {c : Config K} (before : Built c) (abort : Duration) : Built (c.withTimeAbort abort)
  | withGap {c c' : Config K} {gap : K} {signed : Bool} (before : Built c)
    (set : c.withGap gap signed = .ok c') : Built c'
  | withFeasibility {c : Config K} (before : Built c) (t : Tolerance) : Built (c.withFeasibility t)
  | withIntegrality {c : Config K} (before : Built c) (t : Tolerance) : Built (c.withIntegrality t)
  | withNodeLimit {c : Config K} (before : Built c) (nodes : Nat) : Built (c.withNodeLimit nodes)
  | withIterationLimit {c : Config K} (before : Built c) (iterations : Nat) :
    Built (c.withIterationLimit iterations)
  | withThreads {c : Config K} (before : Built c) (threads : Nat) : Built (c.withThreads threads)

/-- A configuration without time limits. -/
structure Timeless (c : Config K) : Prop where
  suffice : c.sufficeAfter = none
  abort : c.abortAfter = none

omit [Scalar K] in
theorem withTimeLimits_ok {c c' : Config K} {suffice abort : Duration}
    (set : c.withTimeLimits suffice abort = .ok c') :
    suffice.nanoseconds ≤ abort.nanoseconds ∧
      c' = { c with sufficeAfter := some suffice, abortAfter := some abort } := by
  unfold Config.withTimeLimits at set
  split at set
  · cases set
  · rename_i ordered
    cases set
    exact ⟨Nat.le_of_not_lt ordered, rfl⟩

/-- A gap that a configuration may have: undefined, or finite and not negative. -/
def AcceptsGap (gap : K) : Prop :=
  Scalar.isUndefined gap = true ∨ Scalar.isFinite gap = true ∧ (Scalar.sign gap == -1) = false

theorem withGap_ok {c c' : Config K} {gap : K} {signed : Bool}
    (set : c.withGap gap signed = .ok c') :
    AcceptsGap gap ∧ c' = { c with gap := some gap } := by
  unfold Config.withGap at set
  split at set
  · cases set
  · rename_i positive
    split at set
    · cases set
    · rename_i finite
      cases set
      refine ⟨?_, rfl⟩
      cases undefined : Scalar.isUndefined gap with
      | true => exact .inl undefined
      | false =>
        have inside : signed = false ∧ (Scalar.sign gap == -1) = false := by
          simpa [undefined] using positive
        exact .inr ⟨by simpa [undefined] using finite, inside.2⟩

/-! ## What is kept -/

/-- The limits of a configuration are in order, its gap is an accepted one, and at least one node is
taken at a time. -/
structure Consistent (c : Config K) : Prop where
  ordered : ∀ suffice, c.sufficeAfter = some suffice →
    ∃ abort, c.abortAfter = some abort ∧ suffice.nanoseconds ≤ abort.nanoseconds
  gap : ∀ gap, c.gap = some gap → AcceptsGap gap
  threads : 0 < c.threads

theorem consistent_standard : (standard : Config K).Consistent :=
  ⟨nofun, nofun, Nat.one_pos⟩

/-- A limit that moves takes an earlier one along that would come to lie behind it. -/
theorem Consistent.withTimeAbort {c : Config K} (h : c.Consistent) (abort : Duration) :
    (c.withTimeAbort abort).Consistent := by
  refine ⟨?_, h.gap, h.threads⟩
  intro suffice set
  obtain ⟨before, -, rfl⟩ := Option.map_eq_some_iff.mp set
  refine ⟨abort, rfl, ?_⟩
  split
  · exact Nat.le_refl _
  · exact Nat.le_of_not_lt ‹_›

theorem Consistent.withTimeLimits {c c' : Config K} {suffice abort : Duration} (h : c.Consistent)
    (set : c.withTimeLimits suffice abort = .ok c') : c'.Consistent := by
  obtain ⟨ordered, rfl⟩ := withTimeLimits_ok set
  refine ⟨?_, h.gap, h.threads⟩
  rintro _ ⟨⟩
  exact ⟨abort, rfl, ordered⟩

theorem Consistent.withGap {c c' : Config K} {gap : K} {signed : Bool} (h : c.Consistent)
    (set : c.withGap gap signed = .ok c') : c'.Consistent := by
  obtain ⟨accepted, rfl⟩ := withGap_ok set
  refine ⟨h.ordered, ?_, h.threads⟩
  rintro _ ⟨⟩
  exact accepted

theorem Consistent.withThreads {c : Config K} (h : c.Consistent) (threads : Nat) :
    (c.withThreads threads).Consistent :=
  ⟨h.ordered, h.gap, Nat.lt_of_lt_of_le Nat.one_pos (Nat.le_max_right _ _)⟩

/-- A configuration that the functions make is consistent. -/
theorem Built.consistent {c : Config K} (built : c.Built) : c.Consistent := by
  induction built with
  | standard => exact consistent_standard
  | withTimeLimits _ set ih => exact ih.withTimeLimits set
  | withTimeAbort _ abort ih => exact ih.withTimeAbort abort
  | withGap _ set ih => exact ih.withGap set
  | withThreads _ threads ih => exact ih.withThreads threads
  | withRelaxation _ _ ih | withFeasibility _ _ ih | withIntegrality _ _ ih | withNodeLimit _ _ ih
  | withIterationLimit _ _ ih => exact ⟨ih.ordered, ih.gap, ih.threads⟩

/-- At least one node is taken at a time. -/
theorem Built.threads_pos {c : Config K} (built : c.Built) : 0 < c.threads :=
  built.consistent.threads

/-! ## Settings -/

/-- A change of a configuration that is asked for. -/
inductive Setting (K : Type)
  | relaxation (relax : Bool)
  | timeLimits (suffice abort : Duration)
  | timeAbort (abort : Duration)
  | gap (value : K) (signed : Bool)
  | feasibility (t : Tolerance)
  | integrality (t : Tolerance)
  | nodeLimit (nodes : Nat)
  | iterationLimit (iterations : Nat)
  | threads (number : Nat)

/-- The configuration with a change made, or why it is refused. -/
def Setting.apply (c : Config K) : Setting K → Except ConfigError (Config K)
  | .relaxation relax => .ok (c.withRelaxation relax)
  | .timeLimits suffice abort => c.withTimeLimits suffice abort
  | .timeAbort abort => .ok (c.withTimeAbort abort)
  | .gap value signed => c.withGap value signed
  | .feasibility t => .ok (c.withFeasibility t)
  | .integrality t => .ok (c.withIntegrality t)
  | .nodeLimit nodes => .ok (c.withNodeLimit nodes)
  | .iterationLimit iterations => .ok (c.withIterationLimit iterations)
  | .threads number => .ok (c.withThreads number)

/-- The configuration after a change was asked for; one that is refused leaves it as it was. -/
def set (c : Config K) (s : Setting K) : Config K :=
  match s.apply c with
  | .ok c' => c'
  | .error _ => c

/-- The standard configuration after changes were asked for, one by one. -/
def configured (settings : List (Setting K)) : Config K :=
  settings.foldl set standard

theorem Built.apply {c c' : Config K} (before : c.Built) {s : Setting K}
    (made : s.apply c = .ok c') : c'.Built := by
  cases s with
  | timeLimits suffice abort => exact before.withTimeLimits made
  | gap value signed => exact before.withGap made
  | relaxation relax =>
    cases made
    exact before.withRelaxation relax
  | timeAbort abort =>
    cases made
    exact before.withTimeAbort abort
  | feasibility t =>
    cases made
    exact before.withFeasibility t
  | integrality t =>
    cases made
    exact before.withIntegrality t
  | nodeLimit nodes =>
    cases made
    exact before.withNodeLimit nodes
  | iterationLimit iterations =>
    cases made
    exact before.withIterationLimit iterations
  | threads number =>
    cases made
    exact before.withThreads number

theorem Built.set {c : Config K} (before : c.Built) (s : Setting K) : (c.set s).Built := by
  unfold Config.set
  split
  · exact before.apply ‹_›
  · exact before

/-- Whatever is asked for, the functions have made the configuration. -/
theorem built_configured (settings : List (Setting K)) : (configured settings).Built := by
  have after (c : Config K) (before : c.Built) : (settings.foldl Config.set c).Built := by
    induction settings generalizing c with
    | nil => exact before
    | cons s settings ih => exact ih _ (before.set s)
  exact after _ .standard

end Milp.Config
