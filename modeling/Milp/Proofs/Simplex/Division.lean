import Milp.Proofs.Simplex.Run

/-!
# Division in the simplex method

No number is ever divided by zero, so it does not matter what that would yield. The divisors are the
diagonal of the starting basis, the rates of the ratio test, the pivots of an exchange and of an
elimination, and powers of ten.

Results:
1. `diagonal_dividing`, `blocking?_dividing`, `pivot_dividing`, `Elimination.step?_dividing`: the
   places where numbers are divided.
2. `indifferent`: the start, a step from any state and computing the inverse anew.
3. `solveWithin_dividing`: the answer of the simplex method.
-/

namespace Milp

variable {n m : Nat} {divide : Rat → Rat → Rat}

namespace Exact

/-- Exact arithmetic with another division. -/
@[reducible]
def dividing (divide : Rat → Rat → Rat) : Scalar Rat :=
  { (inferInstance : Scalar Rat) with div := divide }

/-- A division that yields the quotient, and anything at all where the divisor is zero. -/
def Divides (divide : Rat → Rat → Rat) : Prop :=
  ∀ a b, b ≠ 0 → divide a b = a / b

end Exact

open Exact (dividing Divides)

/-! ## Tolerances -/

theorem Scalar.powAux_dividing (divide : Rat → Rat → Rat) (acc base : Rat) (k : Nat) :
    @Scalar.powAux Rat (dividing divide) acc base k = Scalar.powAux acc base k := by
  induction k using Nat.strongRecOn generalizing acc base with
  | ind k ih =>
    unfold Scalar.powAux
    dsimp only
    refine ite_congr rfl (fun _ => rfl) fun more => ?_
    exact ih (k / 2) (by omega) _ _

theorem Scalar.powTen_dividing (divides : Divides divide) (k : Int) :
    @Scalar.powTen Rat (dividing divide) k = Scalar.powTen k := by
  have positive : (0 : Rat) < Scalar.powAux 1 ((10 : Int) : Rat) k.natAbs :=
    Scalar.powAux_pos k.natAbs one_pos (by norm_num)
  have power := Scalar.powAux_dividing divide 1 ((10 : Int) : Rat) k.natAbs
  have inverse := divides 1 _ positive.ne'
  unfold Scalar.powTen
  -- the quotient of the other arithmetic, written out for the lemmas to apply
  show (if k < 0 then divide 1 (@Scalar.powAux Rat (dividing divide) 1 ((10 : Int) : Rat) k.natAbs)
    else @Scalar.powAux Rat (dividing divide) 1 ((10 : Int) : Rat) k.natAbs) = _
  rw [power, inverse]

namespace Tolerance

theorem slack_dividing (divides : Divides divide) (t : Tolerance) (finite : Bool) (x : Rat) :
    @slack Rat (dividing divide) t finite x = t.slack finite x := by
  unfold slack absolute relative
  rw [Scalar.powTen_dividing divides, Scalar.powTen_dividing divides]
  rfl

theorem isBetween_dividing (divides : Divides divide) (t : Tolerance) (l : ExtendedRat) (x : Rat)
    (u : ExtendedRat) :
    @isBetween Rat ExtendedRat (dividing divide) _ t l x u = t.isBetween l x u := by
  unfold isBetween isAtLeast isAtMost meets epsilonOf
  rw [slack_dividing divides, slack_dividing divides]
  rfl

end Tolerance

/-! ## Inverses -/

namespace BasisInverse

theorem diagonal_dividing (divides : Divides divide) {d : Vector Rat m}
    (nonzero : ∀ i : Fin m, d[i] ≠ 0) :
    @diagonal Rat (dividing divide) m d = diagonal d := by
  unfold diagonal
  congr 1
  ext i hi k hk
  simp only [Vector.getElem_ofFn]
  exact ite_congr rfl (fun _ => divides 1 _ (nonzero ⟨i, hi⟩)) fun _ => rfl

theorem sweepRows_dividing (divides : Divides divide) (rows : Vector (Vector Rat m) m) (i : Fin m)
    {x : Rat} (nonzero : x ≠ 0) (factors : Vector Rat m) :
    @sweepRows Rat (dividing divide) m rows i x factors = sweepRows rows i x factors := by
  have row : @divideRow Rat (dividing divide) m rows[i] x = divideRow rows[i] x :=
    Vector.map_congr_left fun a _ => divides a x nonzero
  unfold sweepRows
  dsimp only
  rw [row]
  rfl

theorem pivot_dividing (divides : Divides divide) (b : BasisInverse Rat m) {position : Fin m}
    {alpha : Vector Rat m} (nonzero : alpha[position] ≠ 0) :
    @pivot Rat (dividing divide) m b position alpha = b.pivot position alpha := by
  unfold pivot
  rw [sweepRows_dividing divides b.rows position nonzero alpha]

theorem Elimination.step?_dividing (divides : Divides divide) (w : Elimination Rat m) (j : Fin m) :
    @step? Rat (dividing divide) m w j = w.step? j := by
  unfold step?
  dsimp only
  refine ite_congr rfl (fun _ => rfl) fun large => ?_
  -- the pivot is not small, as the row with the largest entry has been moved up
  have nonzero : ((exchange w.left (w.pivotRow j).1 j)[j])[j] ≠ 0 := by
    have entry := (pivot_ne_zero large).2
    rwa [← ofRows_exchange] at entry
  have sweeps (rows : Vector (Vector Rat m) m) := sweepRows_dividing divides rows j nonzero
    ((exchange w.left (w.pivotRow j).1 j).map fun row => row[j])
  exact congrArg₂ (fun left right => some (Elimination.mk left right)) (sweeps _) (sweeps _)

theorem factorize?_dividing (divides : Divides divide) (columns : Vector (SparseColumn Rat m) m) :
    @factorize? Rat (dividing divide) m columns = factorize? columns := by
  unfold factorize?
  rw [funext₂ (Elimination.step?_dividing divides)]
  rfl

end BasisInverse

namespace SimplexState

/-! ## Steps -/

theorem start_dividing (divides : Divides divide) (p : Relaxation Rat ExtendedRat n m)
    (box : Box ExtendedRat n) (t : Tolerance) :
    @start Rat ExtendedRat (dividing divide) _ n m p box t = start p box t := by
  have rows (l : ExtendedRat) (a : Rat) (u : ExtendedRat) :
      @RowStart.of Rat ExtendedRat (dividing divide) _ t l a u = RowStart.of t l a u := by
    unfold RowStart.of
    rw [Tolerance.isBetween_dividing divides]
    rfl
  unfold start
  simp only [rows]
  refine congrArg (fun inverse => SimplexState.mk _ _ _ inverse _ _)
    (BasisInverse.diagonal_dividing divides fun i => ?_)
  have nonzero : (start p box t).startDiagonal[i] ≠ 0 := startDiagonal_ne_zero i
  simp only [startDiagonal, start, Vector.map_map] at nonzero
  exact nonzero

theorem price_dividing (divides : Divides divide) (p : Relaxation Rat ExtendedRat n m)
    (t : Tolerance) (s : SimplexState Rat ExtendedRat n m) (y : Vector Rat m) (first : Bool) :
    @price Rat ExtendedRat (dividing divide) _ n m p t s y first = s.price p t y first := by
  unfold price entrant? Tolerance.absolute
  rw [Scalar.powTen_dividing divides]
  rfl

/-- A position is only asked for its limit where its rate is not zero. -/
theorem blocking?_dividing (divides : Divides divide) (s : SimplexState Rat ExtendedRat n m)
    (direction : Rat) (alpha : Vector Rat m) (i : Fin m) :
    @blocking? Rat ExtendedRat (dividing divide) _ n m s direction alpha i =
      s.blocking? direction alpha i := by
  unfold blocking?
  dsimp only
  refine ite_congr rfl (fun _ => rfl) fun _ => ite_congr rfl (fun down => ?_) fun _ =>
    ite_congr rfl (fun up => ?_) fun _ => rfl
  · simp only [Bool.and_eq_true, decide_eq_true_eq] at down
    exact congrArg (fun limit => some (Blocking.mk i false (max limit 0)))
      (divides _ _ (neg_pos.mpr down.1).ne')
  · simp only [Bool.and_eq_true, decide_eq_true_eq] at up
    exact congrArg (fun limit => some (Blocking.mk i true (max limit 0))) (divides _ _ up.1.ne')

theorem ratioTest_dividing (divides : Divides divide) (s : SimplexState Rat ExtendedRat n m)
    (entering : Column n m) (direction : Rat) (alpha : Vector Rat m) (lowest : Bool) :
    @ratioTest Rat ExtendedRat (dividing divide) _ n m s entering direction alpha lowest =
      s.ratioTest entering direction alpha lowest := by
  unfold ratioTest firstBlocking
  rw [funext (blocking?_dividing divides s direction alpha)]
  rfl

theorem apply_dividing (divides : Divides divide) {alpha : Vector Rat m} {step : Step m}
    (nonzero : ∀ position toUpper, step = .leave position toUpper → alpha[position] ≠ 0)
    (s : SimplexState Rat ExtendedRat n m) (entering : Column n m) (direction length : Rat) :
    @apply Rat ExtendedRat (dividing divide) _ n m s entering direction alpha step length =
      s.apply entering direction alpha step length := by
  cases step with
  | flip => rfl
  | leave position toUpper =>
    exact congrArg (fun inverse => SimplexState.mk _ _ _ inverse _ _)
      (BasisInverse.pivot_dividing divides _ (nonzero position toUpper rfl))

/-- The column that enters has a coefficient that is not zero where another one leaves. -/
theorem step_dividing (divides : Divides divide) (p : Relaxation Rat ExtendedRat n m)
    (t : Tolerance) (s : SimplexState Rat ExtendedRat n m) :
    @step Rat ExtendedRat (dividing divide) _ n m p t s = s.step p t := by
  have priced := price_dividing divides p t s s.multipliers s.entersFirst
  unfold step
  split
  · rename_i level
    rw [priced.symm.trans level]
  · rename_i e enters
    have tested := ratioTest_dividing divides s e.column e.direction
      (s.inverse.ftran (s.entries p e.column)) s.entersFirst
    rw [priced.symm.trans enters]
    dsimp only
    split
    · rename_i endless
      rw [tested.symm.trans endless]
    · rename_i stopped length stop
      have stop' := tested.symm.trans stop
      rw [stop']
      refine congrArg (fun next => Sum.inr (count next length))
        (apply_dividing divides ?_ s _ _ _)
      -- only a position that stops the move leaves, and its coefficient is above the tolerance
      intro position toUpper leaves
      subst leaves
      exact coefficient_ne_zero (ratioTest_leave stop')

theorem refactorize?_dividing (divides : Divides divide) (p : Relaxation Rat ExtendedRat n m)
    (s : SimplexState Rat ExtendedRat n m) :
    @refactorize? Rat ExtendedRat (dividing divide) n m p s = s.refactorize? p :=
  congrArg (Option.map _) (BasisInverse.factorize?_dividing divides (s.basic.map (s.entries p)))

/-- It does not matter what a division by zero yields: not for the inverse of the diagonal that the
method starts from, nor for the length of a move that a position allows, nor for the inverse after a
step, nor for the elimination of a column or the inverse that comes of it. -/
structure Indifferent (divide : Rat → Rat → Rat) (p : Relaxation Rat ExtendedRat n m)
    (box : Box ExtendedRat n) (t : Tolerance) (s : SimplexState Rat ExtendedRat n m) : Prop where
  start : @start Rat ExtendedRat (dividing divide) _ n m p box t = start p box t
  blocking : ∀ direction alpha i,
    @blocking? Rat ExtendedRat (dividing divide) _ n m s direction alpha i =
      s.blocking? direction alpha i
  step : @step Rat ExtendedRat (dividing divide) _ n m p t s = s.step p t
  elimination : ∀ (w : BasisInverse.Elimination Rat m) j,
    @BasisInverse.Elimination.step? Rat (dividing divide) m w j = w.step? j
  refactorize : @refactorize? Rat ExtendedRat (dividing divide) n m p s = s.refactorize? p

theorem indifferent (divides : Divides divide) (p : Relaxation Rat ExtendedRat n m)
    (box : Box ExtendedRat n) (t : Tolerance) (s : SimplexState Rat ExtendedRat n m) :
    s.Indifferent divide p box t where
  start := start_dividing divides p box t
  blocking := blocking?_dividing divides s
  step := step_dividing divides p t s
  elimination := BasisInverse.Elimination.step?_dividing divides
  refactorize := refactorize?_dividing divides p s

/-! ## Runs -/

theorem refresh?_dividing (divides : Divides divide) (p : Relaxation Rat ExtendedRat n m)
    (s : SimplexState Rat ExtendedRat n m) :
    @refresh? Rat ExtendedRat (dividing divide) n m p s = s.refresh? p := by
  unfold refresh?
  rw [refactorize?_dividing divides]

theorem runPhase_dividing (divides : Divides divide) (p : Relaxation Rat ExtendedRat n m)
    (t : Tolerance) (left : Nat) (s : SimplexState Rat ExtendedRat n m) :
    @runPhase Rat ExtendedRat (dividing divide) _ n m p t left s = s.runPhase p t left := by
  induction left generalizing s with
  | zero => rfl
  | succ left ih =>
    unfold runPhase
    rw [refresh?_dividing divides]
    cases s.refresh? p with
    | none => rfl
    | some fresh =>
      dsimp only
      rw [step_dividing divides]
      cases fresh.step p t with
      | inl ending => rfl
      | inr next => exact ih next

theorem run_dividing (divides : Divides divide) (p : Relaxation Rat ExtendedRat n m)
    (t : Tolerance) (limit : Nat) (s : SimplexState Rat ExtendedRat n m) :
    @run Rat ExtendedRat (dividing divide) _ n m p t limit s = s.run p t limit := by
  have phase := runPhase_dividing divides p t
  have refactored := refactorize?_dividing divides p
  unfold run reachFeasibility minimise infeasibilityAllowed Tolerance.epsilon
  simp only [phase, refactored, Tolerance.slack_dividing divides]
  rfl

end SimplexState

/-- The answer of the simplex method does not depend on what a division by zero would yield. -/
theorem Relaxation.solveWithin_dividing (divides : Divides divide)
    (p : Relaxation Rat ExtendedRat n m) (t : Tolerance) (limit : Nat) (box : Box ExtendedRat n) :
    @solveWithin Rat ExtendedRat (dividing divide) _ n m p t limit box =
      p.solveWithin t limit box := by
  unfold solveWithin
  rw [SimplexState.start_dividing divides, SimplexState.run_dividing divides]
  rfl

end Milp
