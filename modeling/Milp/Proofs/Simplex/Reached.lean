import Milp.Proofs.Relaxation
import Milp.Proofs.Simplex.Division

/-!
# The states that the simplex method reaches

Results:
1. `reached_run`: the states of a run are reached.
2. `coherent_of_reached`, `updates_of_reached`: what is kept on the way.
3. `Model.consistent_of_reached`: the basis, the places, the inverse and the divisors of all states
   that are reached for a model.
-/

namespace Milp

variable {n m : Nat}

deriving instance DecidableEq for SimplexState.Entrant

namespace SimplexState

variable {p : Relaxation Rat ExtendedRat n m} {box : Box ExtendedRat n} {t : Tolerance}
  {s s' : SimplexState Rat ExtendedRat n m} {pivots : Nat}

/-- The states that the simplex method reaches, each with the number of columns exchanged since the
inverse was last computed as a whole. -/
inductive Reached (p : Relaxation Rat ExtendedRat n m) (box : Box ExtendedRat n) (t : Tolerance) :
    Nat → SimplexState Rat ExtendedRat n m → Prop
  | start : Reached p box t 0 (.start p box t)
  | flip {pivots : Nat} {s : SimplexState Rat ExtendedRat n m} {e : Entrant Rat n m} {length : Rat}
    (before : Reached p box t pivots s) (takes : s.Takes p t e .flip length) :
    Reached p box t pivots (s.taken p e .flip length)
  | exchange {pivots : Nat} {s : SimplexState Rat ExtendedRat n m} {e : Entrant Rat n m}
    {position : Fin m} {toUpper : Bool} {length : Rat} (before : Reached p box t pivots s)
    (takes : s.Takes p t e (.leave position toUpper) length) :
    Reached p box t (pivots + 1) (s.taken p e (.leave position toUpper) length)
  | refactorize {pivots : Nat} {s s' : SimplexState Rat ExtendedRat n m}
    (before : Reached p box t pivots s) (new : s.refactorize? p = some s') : Reached p box t 0 s'
  | forFeasibility {pivots : Nat} {s : SimplexState Rat ExtendedRat n m}
    (before : Reached p box t pivots s) : Reached p box t pivots s.forFeasibility
  | closeArtificial {pivots : Nat} {s : SimplexState Rat ExtendedRat n m}
    (before : Reached p box t pivots s) : Reached p box t pivots s.closeArtificial
  | forCost {pivots : Nat} {s : SimplexState Rat ExtendedRat n m}
    (before : Reached p box t pivots s) : Reached p box t pivots (s.forCost p)

/-! ## Runs -/

theorem reached_step (reached : Reached p box t pivots s) (h : s.step p t = .inr s') :
    ∃ pivots', Reached p box t pivots' s' := by
  obtain ⟨e, stopped, length, takes, rfl⟩ := step_eq_inr.mp h
  cases stopped with
  | flip => exact ⟨_, reached.flip takes⟩
  | leave position toUpper => exact ⟨_, reached.exchange takes⟩

theorem reached_refresh? (reached : Reached p box t pivots s) (h : s.refresh? p = some s') :
    ∃ pivots', Reached p box t pivots' s' := by
  unfold refresh? at h
  split at h
  · exact ⟨0, reached.refactorize h⟩
  · cases h
    exact ⟨pivots, reached⟩

theorem reached_runPhase {left : Nat} {ending : Ending} (reached : Reached p box t pivots s)
    (h : s.runPhase p t left = (ending, s')) : ∃ pivots', Reached p box t pivots' s' := by
  induction left generalizing s pivots with
  | zero =>
    cases h
    exact ⟨pivots, reached⟩
  | succ left ih =>
    unfold runPhase at h
    split at h
    · cases h
      exact ⟨pivots, reached⟩
    · rename_i fresh refreshed
      obtain ⟨pivots', reached'⟩ := reached_refresh? reached refreshed
      split at h
      · cases h
        exact ⟨pivots', reached'⟩
      · rename_i next stepped
        obtain ⟨pivots'', reached''⟩ := reached_step reached' stepped
        exact ih reached'' h

theorem reached_reachFeasibility {limit : Nat} {ending : Ending} (reached : Reached p box t pivots s)
    (h : s.reachFeasibility p t limit = (ending, s')) : ∃ pivots', Reached p box t pivots' s' := by
  unfold reachFeasibility at h
  split at h
  · cases h
    exact ⟨pivots, reached⟩
  · split at h
    · rename_i last phase
      obtain ⟨pivots', reached'⟩ := reached_runPhase reached.forFeasibility phase
      split at h
      · cases h
        exact ⟨pivots', reached'⟩
      · cases h
        exact ⟨pivots', reached'.closeArtificial⟩
    · rename_i last other phase
      cases h
      exact reached_runPhase reached.forFeasibility phase

theorem reached_minimise {limit : Nat} {ending : Ending} (reached : Reached p box t pivots s)
    (h : s.minimise p t limit = (ending, s')) : ∃ pivots', Reached p box t pivots' s' := by
  unfold minimise at h
  split at h
  · rename_i last phase
    obtain ⟨pivots', reached'⟩ := reached_runPhase reached.forCost phase
    split at h
    · split at h
      · rename_i fresh refactored
        cases h
        exact ⟨0, reached'.refactorize refactored⟩
      · cases h
        exact ⟨pivots', reached'⟩
    · cases h
      exact ⟨pivots', reached'⟩
  · rename_i last other phase
    cases h
    exact reached_runPhase reached.forCost phase

/-- A run ends in a state that is reached. -/
theorem reached_run {limit : Nat} {ending : Ending}
    (h : (start p box t).run p t limit = (ending, s)) : ∃ pivots, Reached p box t pivots s := by
  unfold run at h
  split at h
  · rename_i middle phase
    obtain ⟨pivots, reached⟩ := reached_reachFeasibility .start phase
    exact reached_minimise reached h
  · rename_i middle other phase
    cases h
    exact reached_reachFeasibility .start phase

/-! ## What is kept -/

/-- All states that are reached are coherent. -/
theorem coherent_of_reached (rows : p.rows.Ordered) (columns : box.Ordered)
    (reached : Reached p box t pivots s) : s.Coherent p box := by
  induction reached with
  | start => exact coherent_start p box t
  | flip _ takes ih => exact ih.taken rows columns takes
  | exchange _ takes ih => exact ih.taken rows columns takes
  | refactorize _ new ih => exact (ih.refactorize? new).1
  | forFeasibility _ ih => exact ih.forFeasibility
  | closeArtificial _ ih => exact ih.closeArtificial
  | forCost _ ih => exact ih.forCost

/-- An inverse counts the columns exchanged since it was computed. -/
theorem updates_of_reached (rows : p.rows.Ordered) (columns : box.Ordered)
    (reached : Reached p box t pivots s) : s.inverse.updates = pivots := by
  induction reached with
  | start => rfl
  | @flip _ s e length _ _ ih =>
    have inverse := (apply_flip_frame s e.column e.direction (s.coefficients p e.column) length).2.2
    exact (congrArg BasisInverse.updates inverse).trans ih
  | @exchange _ s e position toUpper length _ _ ih =>
    have inverse := (apply_leave_frame s e.column e.direction (s.coefficients p e.column) position
      toUpper length).2.2
    exact (congrArg BasisInverse.updates inverse).trans (congrArg (· + 1) ih)
  | refactorize before new _ => exact ((coherent_of_reached rows columns before).refactorize? new).2
  | forFeasibility _ ih => exact ih
  | closeArtificial _ ih => exact ih
  | forCost _ ih => exact ih

/-- The columns of the working problem: of the artificial ones, those of the rows that the starting
point breaks. -/
def Has (s : SimplexState Rat ExtendedRat n m) : Column n m → Prop
  | .artificial i => s.signs[i].isSome = true
  | _ => True

/-- A column that an invertible basis has is one of the working problem, as the others are zero. -/
theorem has_basic (inverse : s.inverse.matrix * s.basis p = 1) (k : Fin m) : s.Has s.basic[k] := by
  cases here : s.basic[k] with
  | structural j => trivial
  | logical i => trivial
  | artificial i =>
    by_contra unsigned
    have none : s.signs[i] = none := Option.not_isSome_iff_eq_none.mp unsigned
    have zero (l : Fin m) : s.basis p l k = 0 := by
      rw [basis, here, system_artificial, none]
      exact ite_self _
    -- the product with a zero column has a zero where the identity has one
    have unit := congrFun (congrFun inverse k) k
    simp [Matrix.mul_apply, zero] at unit

/-- Limits in order leave room, unless both are the same infinity. -/
theorem admits_of_roomy {c : Cell Rat ExtendedRat} (ordered : c.lower ≤ c.upper)
    (lower : c.lower ≠ .above) (upper : c.upper ≠ .below) : ∃ q, c.Admits q :=
  ⟨_, Exact.clamp_mem 0 ordered lower upper⟩

/-- The columns have room for a value, where those of the problem and the rows do. -/
theorem Limited.admits (h : s.Limited p box) (rows : p.rows.Ordered) (columns : box.Ordered)
    (roomyRows : ∀ i, p.rows.Roomy i) (roomyColumns : ∀ j, box.Roomy j) (c : Column n m) :
    ∃ q, (s.cell c).Admits q := by
  have ordered := h.ordered rows columns c
  cases c with
  | structural j =>
    obtain ⟨lower, upper⟩ := h.structural j
    exact admits_of_roomy ordered (lower ▸ (roomyColumns j).1) (upper ▸ (roomyColumns j).2)
  | logical i =>
    obtain ⟨lower, upper⟩ := h.logical i
    exact admits_of_roomy ordered (lower ▸ (roomyRows i).1) (upper ▸ (roomyRows i).2)
  | artificial i => exact ⟨0, h.admits_zero i⟩

/-- The basis has as many columns as there are rows, all different, and they are the ones placed as
basic; the others are at a finite limit or free at zero; and the inverse is that of the basis. -/
structure Consistent (p : Relaxation Rat ExtendedRat n m) (s : SimplexState Rat ExtendedRat n m)
    (pivots : Nat) : Prop where
  distinct : ∀ i k : Fin m, s.basic[i] = s.basic[k] → i = k
  has : ∀ k : Fin m, s.Has s.basic[k]
  placed : ∀ c, (s.cell c).place = .basic ↔ ∃ k : Fin m, s.basic[k] = c
  rests : ∀ c, (s.cell c).Rests
  ordered : ∀ c, (s.cell c).lower ≤ (s.cell c).upper
  left : s.inverse.matrix * s.basis p = 1
  right : s.basis p * s.inverse.matrix = 1
  updates : s.inverse.updates = pivots

end SimplexState

namespace Model

open SimplexState (Reached Consistent)
open Exact (Divides)

/-- In every state that the simplex method reaches for a model the basis, the places of the columns and
the inverse agree, and no step from there divides by zero: whatever a division by zero would yield, the
same state is reached. -/
theorem consistent_of_reached {m : Model Rat ExtendedRat} (built : m.Built) (direction : Direction)
    {box : Box ExtendedRat m.definitions.size} (columns : box.Ordered)
    (roomyColumns : ∀ j, box.Roomy j) (roomyRows : ∀ i, (m.relaxation direction).rows.Roomy i)
    {t : Tolerance} {pivots : Nat}
    {s : SimplexState Rat ExtendedRat m.definitions.size m.constraints.size}
    (reached : Reached (m.relaxation direction) box t pivots s) :
    s.Consistent (m.relaxation direction) pivots ∧
      ∀ divide, Divides divide → s.Indifferent divide (m.relaxation direction) box t := by
  have rows : (m.relaxation direction).rows.Ordered := rows_ordered built.wellFormed
  have coherent := SimplexState.coherent_of_reached rows columns reached
  refine ⟨⟨coherent.distinct, SimplexState.has_basic coherent.inverse, coherent.placed, fun c => ?_,
    coherent.limited.ordered rows columns, coherent.inverse, mul_eq_one_comm.mp coherent.inverse,
    SimplexState.updates_of_reached rows columns reached⟩, fun divide divides => ?_⟩
  · exact coherent.rests c (coherent.limited.admits rows columns roomyRows roomyColumns c)
  · exact SimplexState.indifferent divides _ _ _ s

/-- `2 x ≥ 3` for `x` from 0 to 10, with `x` as the objective. -/
def twice : Model Rat ExtendedRat :=
  .ofParts #[⟨"x", ⟨some "x", .continuous, .finite 0, .finite 10⟩, none⟩]
    #[⟨⟨[(⟨0⟩, 2)], 0⟩, .finite 3, .above, none⟩] ⟨[(⟨0⟩, 1)], 0⟩

theorem built_twice : twice.Built := by
  have single (a : Rat) : Expression.Ascending [((⟨0⟩ : Variable), a)] := List.pairwise_singleton ..
  refine built_ofParts (by decide) (by decide +kernel) (by decide) ?_ (by decide)
    (Expression.copy_expression (single 1))
  simp only [List.forall_mem_singleton]
  exact ⟨⟨single 2, rfl⟩, rfl, by decide⟩

/-- The row is broken at the start, and kept once its artificial column has left for `x`. -/
theorem consistent_of_reached_twice :
    twice.Built ∧ (twice.relaxation .minimise).box.Ordered ∧
    (∀ j, (twice.relaxation .minimise).box.Roomy j) ∧
    (∀ i, (twice.relaxation .minimise).rows.Roomy i) ∧
    ∃ s, Reached (twice.relaxation .minimise) (twice.relaxation .minimise).box .standard 1 s ∧
      s.Consistent (twice.relaxation .minimise) 1 ∧ s.basic.toList.map Column.rank = [0] ∧
      s.Indifferent (fun a b => if b = 0 then 1 else a / b) (twice.relaxation .minimise)
        (twice.relaxation .minimise).box .standard := by
  have ordered : (twice.relaxation .minimise).box.Ordered := by decide +kernel
  have roomyColumns : ∀ j, (twice.relaxation .minimise).box.Roomy j := by decide +kernel
  have roomyRows : ∀ i, (twice.relaxation .minimise).rows.Roomy i := by decide +kernel
  have takes : (SimplexState.start (twice.relaxation .minimise) (twice.relaxation .minimise).box
      .standard).forFeasibility.Takes (twice.relaxation .minimise) .standard
        ⟨.structural ⟨0, by decide +kernel⟩, 1, 2⟩ (.leave ⟨0, by decide +kernel⟩ false) (3 / 2) :=
    ⟨by decide +kernel, by decide +kernel⟩
  have reached := (Reached.start.forFeasibility).exchange takes
  obtain ⟨consistent, indifferent⟩ :=
    consistent_of_reached built_twice .minimise ordered roomyColumns roomyRows reached
  have divides : Divides fun a b => if b = 0 then 1 else a / b := fun a b nonzero => if_neg nonzero
  exact ⟨built_twice, ordered, roomyColumns, roomyRows, _, reached, consistent, by decide +kernel,
    indifferent _ divides⟩

end Model

end Milp
