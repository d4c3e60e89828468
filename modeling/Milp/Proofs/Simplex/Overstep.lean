import Mathlib.Tactic.GCongr
import Milp.Proofs.Simplex.RatioTest

/-!
# How far a move may overstep

Of two positions whose limits agree up to a small slack, either may be preferred. Over a chain of such
ties the limit may creep upwards, so a move may go beyond what the nearest position allows, by a factor
for each position at most.

Results:
1. `blocks_of_blocking?`, `Blocks.blocking?_eq`: the test finds the positions that stop a move.
2. `one_add_limit_le`, `foldl_preferred_limit_le`: each more position lets the best limit creep up by
   one factor at most.
3. `ratioTest_bounded`: what ends a move, and how far beyond a limit that may be.
-/

namespace Milp.SimplexState

variable {n m : Nat} {s : SimplexState Rat ExtendedRat n m} {entering : Column n m}
  {direction : Rat} {alpha : Vector Rat m} {i : Fin m} {lowest : Bool}

/-! ## Positions that stop a move -/

/-- A basic position stops a move at its upper or its lower bound, after a length: its coefficient
counts, its column moves towards that bound, and the bound is finite. A column beyond its bound stops
the move at once. -/
inductive Blocks (s : SimplexState Rat ExtendedRat n m) (direction : Rat) (alpha : Vector Rat m)
    (i : Fin m) : Bool → Rat → Prop
  | atLower {l : Rat} (counts : pivotTolerance alpha < |alpha[i]|)
    (falls : 0 < direction * alpha[i]) (bound : (s.cell s.basic[i]).lower = .finite l) :
    Blocks s direction alpha i false (max 0 (((s.cell s.basic[i]).value - l) / |alpha[i]|))
  | atUpper {u : Rat} (counts : pivotTolerance alpha < |alpha[i]|)
    (rises : direction * alpha[i] < 0) (bound : (s.cell s.basic[i]).upper = .finite u) :
    Blocks s direction alpha i true (max 0 ((u - (s.cell s.basic[i]).value) / |alpha[i]|))

theorem Blocks.coefficient_ne_zero {toUpper : Bool} {limit : Rat}
    (h : s.Blocks direction alpha i toUpper limit) : alpha[i] ≠ 0 := by
  cases h with
  | atLower counts | atUpper counts => exact abs_pos.mp ((pivotTolerance_pos alpha).trans counts)

/-- The rate at which a column moves has the size of its coefficient. -/
theorem abs_rate (unit : direction = 1 ∨ direction = -1) (a : Rat) : |direction * a| = |a| := by
  rcases unit with rfl | rfl <;> simp

/-- A position that the test finds stops the move, at that bound and after that length. -/
theorem blocks_of_blocking? (unit : direction = 1 ∨ direction = -1) {b : Blocking Rat m}
    (h : s.blocking? direction alpha i = some b) :
    b.position = i ∧ s.Blocks direction alpha i b.toUpper b.limit := by
  have rate := abs_rate unit alpha[i]
  obtain ⟨position, counts, -, -⟩ := blocking?_spec h
  refine ⟨position, ?_⟩
  unfold blocking? at h
  dsimp only at h
  rw [if_neg (by rwa [Exact.abs_eq, not_le])] at h
  split at h
  · rename_i down
    cases h
    simp only [neg_mul, Bool.and_eq_true, decide_eq_true_eq, Left.neg_neg_iff] at down
    obtain ⟨l, bound⟩ := Exact.isFinite_iff.mp down.2
    rw [abs_of_pos down.1] at rate
    rw [bound, neg_mul, neg_neg, rate, max_comm]
    exact .atLower counts down.1 bound
  · split at h
    · rename_i up
      cases h
      simp only [neg_mul, Bool.and_eq_true, decide_eq_true_eq, Left.neg_pos_iff] at up
      obtain ⟨u, bound⟩ := Exact.isFinite_iff.mp up.2
      rw [abs_of_neg up.1] at rate
      rw [bound, neg_mul, rate, max_comm]
      exact .atUpper counts up.1 bound
    · cases h

/-- The test finds every position that stops the move. -/
theorem Blocks.blocking?_eq (unit : direction = 1 ∨ direction = -1) {toUpper : Bool} {limit : Rat}
    (h : s.Blocks direction alpha i toUpper limit) :
    s.blocking? direction alpha i = some ⟨i, toUpper, limit⟩ := by
  have rate := abs_rate unit alpha[i]
  unfold blocking?
  dsimp only
  cases h with
  | @atLower l counts falls bound =>
    have down : -direction * alpha[i] < 0 := by linarith
    have finite : Limits.isFinite (s.cell s.basic[i]).lower = true :=
      Exact.isFinite_iff.mpr ⟨l, bound⟩
    rw [if_neg (by rwa [Exact.abs_eq, not_le]), if_pos (by rw [decide_eq_true down, finite]; rfl)]
    rw [abs_of_pos falls] at rate
    rw [bound, neg_mul, neg_neg, rate, max_comm]
    rfl
  | @atUpper u counts rises bound =>
    have up : 0 < -direction * alpha[i] := by linarith
    have finite : Limits.isFinite (s.cell s.basic[i]).upper = true :=
      Exact.isFinite_iff.mpr ⟨u, bound⟩
    rw [if_neg (by rwa [Exact.abs_eq, not_le]), if_neg (by rw [decide_eq_false up.le.not_gt]; nofun),
      if_pos (by rw [decide_eq_true up, finite]; rfl)]
    rw [abs_of_neg rises] at rate
    rw [bound, neg_mul, rate, max_comm]
    rfl

/-! ## The best position so far -/

theorem degenerateStep_pos : (0 : Rat) < degenerateStep := by
  norm_num [degenerateStep]

theorem degenerateStep_lt_one : (degenerateStep : Rat) < 1 := by
  norm_num [degenerateStep]

section Preference

variable {best b : Blocking Rat m}

/-- The limit of a position that is preferred is larger by the slack at most. -/
theorem limit_le_of_isPreferred (nonneg : 0 ≤ best.limit)
    (h : s.isPreferred alpha lowest best b = true) :
    b.limit ≤ best.limit + degenerateStep * (1 + best.limit) := by
  have slack : 0 ≤ degenerateStep * (1 + best.limit) :=
    mul_nonneg degenerateStep_pos.le (by linarith)
  unfold isPreferred at h
  dsimp only at h
  split at h
  · linarith
  · split at h
    · assumption
    · cases h

/-- The limit of a position that is not preferred is smaller by the slack at most. -/
theorem le_limit_of_not_isPreferred (h : s.isPreferred alpha lowest best b = false) :
    best.limit - degenerateStep * (1 + best.limit) ≤ b.limit := by
  unfold isPreferred at h
  dsimp only at h
  split at h
  · cases h
  · exact not_lt.mp ‹_›

/-- Whichever of two positions is the best one then, its limit is at most that of either, up to one
factor. -/
theorem one_add_limit_le {next : Blocking Rat m} (nonneg : 0 ≤ best.limit) (nonneg' : 0 ≤ b.limit)
    (h : s.preferred alpha lowest (some best) b = some next) :
    0 ≤ next.limit ∧ (1 - degenerateStep) * (1 + next.limit) ≤ 1 + best.limit ∧
      (1 - degenerateStep) * (1 + next.limit) ≤ 1 + b.limit := by
  have factor := degenerateStep_pos
  unfold preferred at h
  dsimp only at h
  split at h
  · rename_i better
    cases h
    have creep := limit_le_of_isPreferred nonneg better
    refine ⟨nonneg', ?_, ?_⟩
    · calc (1 - degenerateStep) * (1 + b.limit)
        _ ≤ (1 - degenerateStep) * ((1 + degenerateStep) * (1 + best.limit)) := by
          gcongr
          · linarith [degenerateStep_lt_one]
          · linarith
        _ = 1 + best.limit - degenerateStep ^ 2 * (1 + best.limit) := by ring
        _ ≤ 1 + best.limit := sub_le_self _ (by positivity)
    · have less : 0 ≤ degenerateStep * (1 + b.limit) := by positivity
      linarith
  · rename_i worse
    cases h
    have near := le_limit_of_not_isPreferred (Bool.eq_false_iff.mpr worse)
    have less : 0 ≤ degenerateStep * (1 + best.limit) := by positivity
    exact ⟨nonneg, by linarith, by linarith⟩

end Preference

/-- The best of some positions has a limit that is at most that of any of them, up to one factor for
each of them. -/
theorem foldl_preferred_limit_le {bs : List (Blocking Rat m)} {best last : Blocking Rat m}
    (nonneg : 0 ≤ best.limit) (nonneg' : ∀ b ∈ bs, 0 ≤ b.limit)
    (h : bs.foldl (s.preferred alpha lowest) (some best) = some last) :
    ∀ b ∈ best :: bs, (1 - degenerateStep) ^ bs.length * (1 + last.limit) ≤ 1 + b.limit := by
  have less : (0 : Rat) ≤ 1 - degenerateStep := by linarith [degenerateStep_lt_one]
  induction bs generalizing best with
  | nil =>
    intro b hb
    cases h
    obtain rfl := List.mem_singleton.mp hb
    simp
  | cons c bs ih =>
    obtain ⟨next, chosen⟩ : ∃ next, s.preferred alpha lowest (some best) c = some next := by
      unfold preferred
      dsimp only
      split <;> exact ⟨_, rfl⟩
    rw [List.foldl_cons, chosen] at h
    obtain ⟨positive, old, new⟩ :=
      one_add_limit_le nonneg (nonneg' c (List.mem_cons_self ..)) chosen
    have later := ih positive (fun b hb => nonneg' b (List.mem_cons_of_mem _ hb)) h
    -- the chain goes on from the better of the first two, which costs one factor
    have chain {b : Blocking Rat m} (hb : b ∈ next :: bs) :
        (1 - degenerateStep) ^ (c :: bs).length * (1 + last.limit) ≤
          (1 - degenerateStep) * (1 + b.limit) := by
      rw [List.length_cons, pow_succ', mul_assoc]
      exact mul_le_mul_of_nonneg_left (later b hb) less
    have first := chain (List.mem_cons_self ..)
    intro b hb
    rcases List.mem_cons.mp hb with rfl | hb
    · exact first.trans old
    · rcases List.mem_cons.mp hb with rfl | rest
      · exact first.trans new
      · have smaller : 0 ≤ degenerateStep * (1 + b.limit) :=
          mul_nonneg degenerateStep_pos.le (by linarith [nonneg' b hb])
        linarith [chain (List.mem_cons_of_mem _ rest)]

/-- The first position to stop a move has a limit that is at most that of any other, up to one factor
for each position. -/
theorem firstBlocking_limit_le {last b : Blocking Rat m}
    (h : s.firstBlocking direction alpha lowest = some last)
    (hb : s.blocking? direction alpha i = some b) :
    (1 - degenerateStep) ^ m * (1 + last.limit) ≤ 1 + b.limit := by
  obtain ⟨-, -, positive, -⟩ := blocking?_spec (blocking?_of_firstBlocking h)
  rw [firstBlocking_eq] at h
  have mem : b ∈ (List.finRange m).filterMap (s.blocking? direction alpha) :=
    List.mem_filterMap.mpr ⟨i, List.mem_finRange i, hb⟩
  have nonneg : ∀ b ∈ (List.finRange m).filterMap (s.blocking? direction alpha), 0 ≤ b.limit := by
    intro b hb
    obtain ⟨i, -, hi⟩ := List.mem_filterMap.mp hb
    exact (blocking?_spec hi).2.2.1
  have count : ((List.finRange m).filterMap (s.blocking? direction alpha)).length ≤ m :=
    (List.length_filterMap_le ..).trans (List.length_finRange ..).le
  generalize (List.finRange m).filterMap (s.blocking? direction alpha) = bs at h mem nonneg count
  cases bs with
  | nil => cases mem
  | cons c bs =>
    have few : bs.length ≤ m := by
      rw [List.length_cons] at count
      omega
    calc (1 - degenerateStep) ^ m * (1 + last.limit)
      _ ≤ (1 - degenerateStep) ^ bs.length * (1 + last.limit) := by
        refine mul_le_mul_of_nonneg_right (pow_le_pow_of_le_one ?_ ?_ few) (by linarith)
        · linarith [degenerateStep_lt_one]
        · linarith [degenerateStep_pos]
      _ ≤ 1 + b.limit := foldl_preferred_limit_le (nonneg c (List.mem_cons_self ..))
          (fun b hb => nonneg b (List.mem_cons_of_mem _ hb)) h b mem

/-! ## The test -/

/-- The test fails exactly where no position stops the move and the range of the entering column is
infinite, or there is none. Otherwise the move goes forward, within the range of the entering column,
and beyond the limit of no position that stops it by more than one factor for each position. Where a
position ends the move, it stops it after that very length, and its coefficient is not zero; where none
does, the length is the range. Equal infinite limits have no range. -/
theorem ratioTest_bounded (s : SimplexState Rat ExtendedRat n m) (entering : Column n m)
    (direction : Rat) (alpha : Vector Rat m) (lowest : Bool)
    (wide : (s.cell entering).lower ≤ (s.cell entering).upper)
    (unit : direction = 1 ∨ direction = -1) :
    let range := ExtendedRat.diff (s.cell entering).upper (s.cell entering).lower
    (s.ratioTest entering direction alpha lowest = none ↔
      (∀ i toUpper limit, ¬ s.Blocks direction alpha i toUpper limit) ∧
        (range = some .above ∨ range = none)) ∧
    ∀ step length, s.ratioTest entering direction alpha lowest = some (step, length) →
      0 ≤ length ∧ (∀ r, range = some r → .finite length ≤ r) ∧
      (∀ i toUpper limit, s.Blocks direction alpha i toUpper limit →
        (1 - degenerateStep) ^ m * (1 + length) ≤ 1 + limit) ∧
      (∀ i toUpper, step = .leave i toUpper →
        s.Blocks direction alpha i toUpper length ∧ alpha[i] ≠ 0) ∧
      (step = .flip → range = some (.finite length)) := by
  intro range
  have found {i : Fin m} {toUpper : Bool} {limit : Rat}
      (blocks : s.Blocks direction alpha i toUpper limit) :
      ∃ b, s.firstBlocking direction alpha lowest = some b := by
    refine Option.ne_none_iff_exists'.mp fun none => ?_
    have := blocking?_of_firstBlocking_eq_none none i
    rw [blocks.blocking?_eq unit] at this
    cases this
  have tested := s.tested_ratioTest entering direction alpha lowest
  generalize s.ratioTest entering direction alpha lowest = outcome at tested ⊢
  cases tested with
  | @flip r distance bounded short =>
    obtain ⟨l, u, -, -, order, rfl⟩ := ExtendedRat.finite_of_diff wide distance bounded
    have distance : range = some (.finite (u - l)) := distance
    refine ⟨iff_of_false nofun fun h => ?_, ?_⟩
    · rcases h.2 with infinite | none
      · cases distance.symm.trans infinite
      · cases distance.symm.trans none
    · rintro _ _ ⟨⟩
      refine ⟨sub_nonneg.mpr order, fun r same => ?_, fun i toUpper limit blocks => ?_, nofun, fun _ => distance⟩
      · obtain rfl := Option.some.inj (distance.symm.trans same)
        exact le_rfl
      · obtain ⟨b, first⟩ := found blocks
        refine le_trans ?_ (firstBlocking_limit_le first (blocks.blocking?_eq unit))
        have less : (0 : Rat) ≤ 1 - degenerateStep := by linarith [degenerateStep_lt_one]
        have shorter : u - l ≤ b.limit := ExtendedRat.finite_le_finite.mp (short b first)
        show (1 - degenerateStep) ^ m * (1 + (u - l)) ≤ _
        gcongr
  | @leave b first far =>
    obtain ⟨position, blocks⟩ := blocks_of_blocking? unit (blocking?_of_firstBlocking first)
    refine ⟨iff_of_false nofun fun h => h.1 _ _ _ blocks, ?_⟩
    rintro _ _ ⟨⟩
    refine ⟨(blocking?_spec (blocking?_of_firstBlocking first)).2.2.1, fun r same => (far r same).le,
      fun i toUpper limit blocks => firstBlocking_limit_le first (blocks.blocking?_eq unit), ?_, nofun⟩
    rintro _ _ ⟨⟩
    exact ⟨blocks, blocks.coefficient_ne_zero⟩
  | unbounded first infinite =>
    refine ⟨iff_of_true rfl ⟨fun i toUpper limit blocks => ?_, ?_⟩, nofun⟩
    · obtain ⟨b, first'⟩ := found blocks
      simp [first] at first'
    · rcases ExtendedRat.diff_cases wide with ⟨none, -⟩ | ⟨above, -⟩ | ⟨l, u, -, -, -, finite⟩
      · exact .inr none
      · exact .inl above
      · cases infinite _ finite

deriving instance DecidableEq for Blocking

/-- Two columns that fall towards zero, one from 1 and one from a little more than 2 at twice the
rate. -/
def falling : SimplexState Rat ExtendedRat 1 2 where
  cells :=
    { structural := #v[⟨.finite 0, .above, 0, 0, .atLower⟩]
      logical := #v[⟨.finite 0, .above, 1, 0, .basic⟩, ⟨.finite 0, .above, 2.000000000001, 0, .basic⟩]
      artificial := .replicate 2 ⟨.finite 0, .finite 0, 0, 0, .atLower⟩ }
  signs := .replicate 2 none
  basic := .ofFn .logical
  inverse := .diagonal (.replicate 2 (-1))
  iterations := 0
  degenerate := 0

/-- The two limits are a tie, which the second column wins: the move goes beyond zero for the first
one, and stays within two factors of its limit. -/
theorem ratioTest_bounded_falling :
    (falling.cell (.structural 0)).lower ≤ (falling.cell (.structural 0)).upper ∧
    falling.ratioTest (.structural 0) 1 #v[1, 2] false = some (.leave 1 false, 1.0000000000005) ∧
    falling.Blocks 1 #v[1, 2] 0 false 1 ∧ falling.Blocks 1 #v[1, 2] 1 false 1.0000000000005 ∧
    (1 : Rat) < 1.0000000000005 ∧
    (1 - degenerateStep) ^ 2 * (1 + 1.0000000000005) ≤ (1 + 1 : Rat) := by
  have wide : (falling.cell (.structural 0)).lower ≤ (falling.cell (.structural 0)).upper := by
    decide +kernel
  have tested : falling.ratioTest (.structural 0) 1 #v[1, 2] false =
      some (.leave 1 false, 1.0000000000005) := by
    decide +kernel
  have first : falling.Blocks 1 #v[1, 2] 0 false 1 :=
    (blocks_of_blocking? (b := ⟨0, false, 1⟩) (.inl rfl) (by decide +kernel)).2
  obtain ⟨-, bounded⟩ :=
    ratioTest_bounded falling (.structural 0) 1 #v[1, 2] false wide (.inl rfl)
  obtain ⟨-, -, creeps, leaves, -⟩ := bounded _ _ tested
  exact ⟨wide, tested, first, (leaves 1 false rfl).1, by norm_num, creeps 0 false 1 first⟩

end Milp.SimplexState
