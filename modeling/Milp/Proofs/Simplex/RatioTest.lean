import Milp.Proofs.Simplex.System
import Milp.Simplex.RatioTest

/-!
# What stops a move

Results:
1. `blocking?_spec`: a basic position that stops a move has a coefficient that counts and moves
   towards a finite limit.
2. `tested_ratioTest`: the test by cases of what stops the move.
3. `ratioTest_flip`, `ratioTest_leave`: an entering column stops at its own other limit, or where a
   basic position stops it.
4. `ratioTest_eq_none`: a move that nothing stops.
-/

namespace Milp

/-! ## Lengths of intervals -/

namespace ExtendedRat

/-- How far it is between limits that are not crossed: any way, or a length. Equal infinities are no
distance apart. -/
theorem diff_cases {l u : ExtendedRat} (wide : l ≤ u) :
    (diff u l = none ∧ l = u) ∨ (diff u l = some above ∧ (l = below ∨ u = above)) ∨
      ∃ a b, l = finite a ∧ u = finite b ∧ a ≤ b ∧ diff u l = some (finite (b - a)) := by
  cases l with
  | below =>
    cases u with
    | below => exact .inl ⟨rfl, rfl⟩
    | finite | above => exact .inr (.inl ⟨rfl, .inl rfl⟩)
  | finite a =>
    cases u with
    | below => exact absurd wide (not_finite_le_below a)
    | finite b => exact .inr (.inr ⟨a, b, rfl, rfl, finite_le_finite.mp wide, rfl⟩)
    | above => exact .inr (.inl ⟨rfl, .inr rfl⟩)
  | above =>
    cases u with
    | below => cases wide
    | finite b => exact absurd wide (not_above_le_finite b)
    | above => exact .inl ⟨rfl, rfl⟩

/-- A difference of limits that is not infinite is one of scalars. -/
theorem finite_of_diff {l u r : ExtendedRat} (wide : l ≤ u) (distance : diff u l = some r)
    (bounded : r ≠ above) :
    ∃ a b, l = finite a ∧ u = finite b ∧ a ≤ b ∧ r = finite (b - a) := by
  rcases diff_cases wide with ⟨none, -⟩ | ⟨infinite, -⟩ | ⟨a, b, hl, hu, order, finite⟩
  · cases none.symm.trans distance
  · cases infinite.symm.trans distance
    exact absurd rfl bounded
  · cases finite.symm.trans distance
    exact ⟨a, b, hl, hu, order, rfl⟩

end ExtendedRat

namespace SimplexState

variable {n m : Nat} {s : SimplexState Rat ExtendedRat n m} {entering : Column n m}
  {direction : Rat} {alpha : Vector Rat m} {i : Fin m} {b : Blocking Rat m} {lowest : Bool}
  {length : Rat}

/-! ## Blocking positions -/

theorem pivotTolerance_pos (alpha : Vector Rat m) : 0 < pivotTolerance alpha := by
  refine lt_of_lt_of_le ?_ (le_max_right _ _)
  norm_num [absolutePivot]

/-- A position that stops a move has a coefficient that counts, and moves towards a finite limit. -/
theorem blocking?_spec (h : s.blocking? direction alpha i = some b) :
    b.position = i ∧ pivotTolerance alpha < |alpha[i]| ∧ 0 ≤ b.limit ∧
      (if b.toUpper then
        0 < -direction * alpha[i] ∧ Limits.isFinite (s.cell s.basic[i]).upper = true
      else -direction * alpha[i] < 0 ∧ Limits.isFinite (s.cell s.basic[i]).lower = true) := by
  unfold blocking? at h
  dsimp only at h
  split at h
  · cases h
  · rename_i counts
    rw [not_le, Exact.abs_eq] at counts
    split at h
    · rename_i down
      cases h
      simp only [Bool.and_eq_true, decide_eq_true_eq] at down
      exact ⟨rfl, counts, le_max_right _ _, by simpa using down⟩
    · split at h
      · rename_i up
        cases h
        simp only [Bool.and_eq_true, decide_eq_true_eq] at up
        exact ⟨rfl, counts, le_max_right _ _, by simpa using up⟩
      · cases h

theorem coefficient_ne_zero (h : s.blocking? direction alpha i = some b) : alpha[i] ≠ 0 := by
  obtain ⟨-, counts, -⟩ := blocking?_spec h
  exact abs_pos.mp ((pivotTolerance_pos alpha).trans counts)

/-- A position that does not stop a move has a coefficient that does not count, or does not move
towards a finite limit. -/
theorem blocking?_eq_none (h : s.blocking? direction alpha i = none) :
    |alpha[i]| ≤ pivotTolerance alpha ∨
      (-direction * alpha[i] < 0 → Limits.isFinite (s.cell s.basic[i]).lower = false) ∧
      (0 < -direction * alpha[i] → Limits.isFinite (s.cell s.basic[i]).upper = false) := by
  unfold blocking? at h
  dsimp only at h
  split at h
  · rename_i tiny
    rw [Exact.abs_eq] at tiny
    exact .inl tiny
  · split at h
    · cases h
    · rename_i free
      split at h
      · cases h
      · rename_i free'
        simp only [Bool.and_eq_true, decide_eq_true_eq, not_and, Bool.not_eq_true] at free free'
        exact .inr ⟨free, free'⟩

/-- The preferred one of a position that stops the move and the best one so far. -/
def preferred (s : SimplexState Rat ExtendedRat n m) (alpha : Vector Rat m) (lowest : Bool)
    (best : Option (Blocking Rat m)) (b : Blocking Rat m) : Option (Blocking Rat m) :=
  match best with
  | none => some b
  | some best => if s.isPreferred alpha lowest best b then some b else some best

theorem firstBlocking_eq : s.firstBlocking direction alpha lowest =
    ((List.finRange m).filterMap (s.blocking? direction alpha)).foldl
      (s.preferred alpha lowest) none := by
  unfold firstBlocking
  congr 1
  funext best b
  cases best <;> rfl

theorem foldl_preferred_mem {bs : List (Blocking Rat m)} {best : Option (Blocking Rat m)}
    (h : bs.foldl (s.preferred alpha lowest) best = some b) : b ∈ bs ∨ best = some b := by
  induction bs generalizing best with
  | nil => exact .inr h
  | cons b' bs ih =>
    rcases ih h with later | now
    · exact .inl (List.mem_cons_of_mem _ later)
    · unfold preferred at now
      split at now
      · exact .inl (by simp_all)
      · split at now
        · exact .inl (by simp_all)
        · exact .inr now

theorem foldl_preferred_some (bs : List (Blocking Rat m)) (best : Blocking Rat m) :
    bs.foldl (s.preferred alpha lowest) (some best) ≠ none := by
  induction bs generalizing best with
  | nil => simp
  | cons b bs ih =>
    rw [List.foldl_cons, preferred]
    split
    · exact ih b
    · exact ih best

theorem blocking?_of_firstBlocking (h : s.firstBlocking direction alpha lowest = some b) :
    s.blocking? direction alpha b.position = some b := by
  rw [firstBlocking_eq] at h
  have mem := (foldl_preferred_mem h).resolve_right (by simp)
  obtain ⟨i, -, hi⟩ := List.mem_filterMap.mp mem
  rwa [(blocking?_spec hi).1]

theorem blocking?_of_firstBlocking_eq_none (h : s.firstBlocking direction alpha lowest = none)
    (i : Fin m) : s.blocking? direction alpha i = none := by
  rw [firstBlocking_eq] at h
  have empty : (List.finRange m).filterMap (s.blocking? direction alpha) = [] := by
    generalize (List.finRange m).filterMap (s.blocking? direction alpha) = bs at h
    cases bs with
    | nil => rfl
    | cons b bs => exact absurd h (foldl_preferred_some bs b)
  exact List.filterMap_eq_nil_iff.mp empty i (List.mem_finRange i)

/-! ## The test -/

/-- The test by cases of what stops the move: the range of the entering column, a position that comes
first, or nothing. -/
inductive Tested (s : SimplexState Rat ExtendedRat n m) (entering : Column n m) (direction : Rat)
    (alpha : Vector Rat m) (lowest : Bool) : Option (Step m × Rat) → Prop
  | flip {range : ExtendedRat}
    (distance : ExtendedRat.diff (s.cell entering).upper (s.cell entering).lower = some range)
    (bounded : range ≠ .above)
    (short : ∀ b, s.firstBlocking direction alpha lowest = some b → range ≤ .finite b.limit) :
    Tested s entering direction alpha lowest (some (.flip, range.toRat))
  | leave {b : Blocking Rat m} (first : s.firstBlocking direction alpha lowest = some b)
    (far : ∀ range, ExtendedRat.diff (s.cell entering).upper (s.cell entering).lower = some range →
      .finite b.limit < range) :
    Tested s entering direction alpha lowest (some (.leave b.position b.toUpper, b.limit))
  | unbounded (first : s.firstBlocking direction alpha lowest = none)
    (infinite : ∀ range,
      ExtendedRat.diff (s.cell entering).upper (s.cell entering).lower = some range →
        Limits.isFinite range = false) :
    Tested s entering direction alpha lowest none

theorem tested_ratioTest (s : SimplexState Rat ExtendedRat n m) (entering : Column n m)
    (direction : Rat) (alpha : Vector Rat m) (lowest : Bool) :
    s.Tested entering direction alpha lowest (s.ratioTest entering direction alpha lowest) := by
  unfold ratioTest
  dsimp only
  split
  · rename_i b first
    split
    · rename_i range reached
      obtain ⟨distance, short⟩ := Option.filter_eq_some_iff.mp reached
      have short : range ≤ .finite b.limit := of_decide_eq_true short
      refine .flip distance ?_ fun b' first' => ?_
      · rintro rfl
        exact ExtendedRat.not_above_le_finite _ short
      · obtain rfl := Option.some.inj (first.symm.trans first')
        exact short
    · rename_i unreached
      refine .leave first fun range distance => ?_
      have far := Option.filter_eq_none_iff.mp unreached range distance
      exact not_le.mp fun short => far (decide_eq_true short)
  · rename_i first
    cases reached : Option.filter Limits.isFinite
        (Limits.diff (s.cell entering).upper (s.cell entering).lower) with
    | none =>
      exact .unbounded first fun range distance =>
        Bool.eq_false_iff.mpr (Option.filter_eq_none_iff.mp reached range distance)
    | some range =>
      obtain ⟨distance, finite⟩ := Option.filter_eq_some_iff.mp reached
      refine .flip distance ?_ fun b first' => by simp [first] at first'
      rintro rfl
      cases finite

/-- A column that reaches its other limit has two limits, and moves from one to the other. -/
theorem ratioTest_flip (wide : (s.cell entering).lower < (s.cell entering).upper)
    (h : s.ratioTest entering direction alpha lowest = some (.flip, length)) :
    ∃ l u, (s.cell entering).lower = .finite l ∧ (s.cell entering).upper = .finite u ∧
      length = u - l := by
  have tested := s.tested_ratioTest entering direction alpha lowest
  rw [h] at tested
  cases tested with
  | flip distance bounded short =>
    obtain ⟨l, u, hl, hu, -, rfl⟩ := ExtendedRat.finite_of_diff wide.le distance bounded
    exact ⟨l, u, hl, hu, rfl⟩

/-- A column that makes another leave stops where that one stops it. -/
theorem ratioTest_leave {position : Fin m} {toUpper : Bool}
    (h : s.ratioTest entering direction alpha lowest = some (.leave position toUpper, length)) :
    s.blocking? direction alpha position = some ⟨position, toUpper, length⟩ := by
  have tested := s.tested_ratioTest entering direction alpha lowest
  rw [h] at tested
  cases tested with
  | leave first => exact blocking?_of_firstBlocking first

/-- Nothing stops a column that has no limit on one side, where no basic position stops it. -/
theorem ratioTest_eq_none (wide : (s.cell entering).lower < (s.cell entering).upper)
    (h : s.ratioTest entering direction alpha lowest = none) :
    (∀ i, s.blocking? direction alpha i = none) ∧
      ((s.cell entering).lower = .below ∨ (s.cell entering).upper = .above) := by
  have tested := s.tested_ratioTest entering direction alpha lowest
  rw [h] at tested
  cases tested with
  | unbounded first infinite =>
    refine ⟨blocking?_of_firstBlocking_eq_none first, ?_⟩
    rcases ExtendedRat.diff_cases wide.le with ⟨-, same⟩ | ⟨-, open_⟩ | ⟨l, u, -, -, -, finite⟩
    · exact absurd same wide.ne
    · exact open_
    · cases infinite _ finite

end SimplexState

end Milp
