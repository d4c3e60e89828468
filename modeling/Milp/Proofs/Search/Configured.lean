import Milp.Proofs.Binary64.TotalOrder
import Milp.Proofs.Config
import Milp.Proofs.Search.Termination
import Milp.Solve

/-!
# Searches with a configuration

What a search relies on in its configuration: the limits of time are in order, the gap takes nothing
away from what may be pruned, and every round has room for a node.

Results:
1. `acceptsGap_iff`: the doubles that are accepted as gaps.
2. `configured_consistent`: what holds of a configuration whatever was asked for, and that a round
   with it takes a node or ends the search.
-/

namespace Milp.Config

open Binary64

/-- A double with a sign is not negative exactly when its sign bit is clear. -/
theorem sign_bit_clear_iff {x : Float} (defined : x.isNaN = false) :
    (Scalar.sign x == -1) = false ↔ x.toBits < 0x8000000000000000 := by
  show (Double.sign x == -1) = false ↔ _
  rw [Double.sign, defined, if_neg Bool.false_ne_true]
  split
  · exact iff_of_true (by decide) ‹_›
  · exact iff_of_false (by decide) ‹_›

/-- The doubles that are accepted as gaps: the undefined one, and the finite ones with a clear sign
bit. -/
theorem acceptsGap_iff {gap : Float} : AcceptsGap gap ↔
    gap.isNaN = true ∨ gap.isFinite = true ∧ gap.toBits < 0x8000000000000000 := by
  show gap.isNaN = true ∨ gap.isFinite = true ∧ _ ↔ _
  refine or_congr Iff.rfl (and_congr_right fun finite => ?_)
  exact sign_bit_clear_iff (isNaN_of_isFinite finite)

/-- Whatever changes of the standard configuration are asked for, those that are refused having no
effect: a time after which a solution suffices comes with one at which the run ends, and is not behind
it; a gap is undefined, or finite with a clear sign bit; and there is at least one thread. So every
round of a search with the configuration takes a node from the queue or ends the search. -/
theorem configured_consistent (settings : List (Setting Float)) :
    let c := configured settings
    (∀ suffice, c.sufficeAfter = some suffice →
      ∃ abort, c.abortAfter = some abort ∧ suffice.nanoseconds ≤ abort.nanoseconds) ∧
    (∀ gap, c.gap = some gap →
      gap.isNaN = true ∨ gap.isFinite = true ∧ gap.toBits < 0x8000000000000000) ∧
    1 ≤ c.threads ∧
    ∀ (n m : Nat) (k : SearchTask Float Float n m), k.config = c → ∀ s : Search Float Float n,
      (k.takeBatch c.threads s.queue s).1.queue.size < s.queue.size ∨
        (k.round s).2.isSome = true := by
  intro c
  have consistent : c.Consistent := (built_configured settings).consistent
  refine ⟨consistent.ordered, fun gap set => acceptsGap_iff.mp (consistent.gap gap set),
    consistent.threads, ?_⟩
  intro n m k config s
  rw [← config]
  exact SearchTask.takes_or_stops_iff.mpr (config ▸ consistent.threads) s

/-- Of six changes that are asked for, a gap of negative zero and limits in the wrong order are
refused; the run is to end before a solution would suffice, so both times become one; and no threads
are one thread. The search of an empty model takes its root. -/
theorem configured_consistent_capped :
    let second := Duration.perSecond
    let settings : List (Setting Float) :=
      [.timeLimits ⟨4 * second⟩ ⟨8 * second⟩, .timeAbort ⟨2 * second⟩, .gap (-0) false,
        .gap 0.5 false, .timeLimits ⟨10 * second⟩ ⟨5 * second⟩, .threads 0]
    let c := configured settings
    let empty : Model Float Float := .empty
    let k := (empty.relaxation .minimise).task c fun _ => ⟨0⟩
    let start : Search Float Float empty.definitions.size := .start
    c.sufficeAfter = some ⟨2 * second⟩ ∧
      (∃ abort, c.abortAfter = some abort ∧ 2 * second ≤ abort.nanoseconds) ∧
      c.gap = some 0.5 ∧ ((0.5 : Float).isNaN = true ∨
        (0.5 : Float).isFinite = true ∧ (0.5 : Float).toBits < 0x8000000000000000) ∧
      c.threads = 1 ∧
      ((k.takeBatch c.threads start.queue start).1.queue.size < start.queue.size ∨
        (k.round start).2.isSome = true) := by
  intro second settings c empty k start
  have suffice : c.sufficeAfter = some ⟨2 * second⟩ := by decide
  have gap : c.gap = some 0.5 := by decide
  obtain ⟨ordered, accepted, -, progress⟩ := configured_consistent settings
  exact ⟨suffice, ordered _ suffice, gap, accepted _ gap, by decide, progress _ _ k rfl start⟩

end Milp.Config
