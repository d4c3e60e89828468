import Milp.Proofs.Model.Operations
import Milp.Proofs.Tolerance
import Milp.Validation

/-!
# Validation with another tolerance

Over doubles without rounding, so that values, limits and tolerances are what they are written as.

Results:
1. `violations_sublist`: a looser tolerance finds a part of the violations.
2. `findsNoMore_iff_looser`: only a looser one does so in every model.
3. `findsNoMore_iff`: the same in terms of digits. Fewer digits find no more than more digits do,
   unless a power of ten wraps around for one of the two only.
-/

namespace Milp

/-! ## A looser tolerance -/

namespace Model

variable {s t : Tolerance}

/-- What is found under a condition is found under a weaker one. -/
theorem ite_sublist {α : Type} {p q : Prop} [Decidable p] [Decidable q] (weaker : p → q)
    (xs : List α) : (if p then xs else []).Sublist (if q then xs else []) := by
  split
  · rename_i h
    rw [if_pos (weaker h)]
  · exact List.nil_sublist _

theorem isBetween_of_looser (looser : s.Looser t) {l u : Unrounded} {v : Option Unrounded}
    (h : isBetween t l v u = true) : isBetween s l v u = true := by
  unfold isBetween at h ⊢
  rw [Option.any_eq_true] at h ⊢
  obtain ⟨v, here, inside⟩ := h
  exact ⟨v, here, looser.isBetween inside⟩

theorem constraintViolations_sublist (looser : s.Looser t) (value : Variable → Option Unrounded)
    (c : Constraint Unrounded Unrounded) (index : Nat) :
    (constraintViolations s value c index).Sublist (constraintViolations t value c index) := by
  unfold constraintViolations
  simp only [← ite_not (_ = true)]
  exact ite_sublist (mt (isBetween_of_looser looser)) _

theorem boundViolations_sublist (looser : s.Looser t) (value : Variable → Option Unrounded)
    (e : Entry Unrounded Unrounded) (index : Nat) :
    (boundViolations s value e index).Sublist (boundViolations t value e index) := by
  unfold boundViolations
  simp only [← ite_not (_ = true)]
  exact ite_sublist (mt (isBetween_of_looser looser)) _

theorem integralityViolations_sublist (looser : s.Looser t) (value : Variable → Option Unrounded)
    (e : Entry Unrounded Unrounded) (index : Nat) :
    (integralityViolations s value e index).Sublist (integralityViolations t value e index) := by
  unfold integralityViolations
  dsimp only
  refine ite_sublist (fun broken => ?_) _
  rw [Bool.and_eq_true, Bool.not_eq_true', Bool.eq_false_iff] at broken ⊢
  refine ⟨broken.1, fun integral => broken.2 ?_⟩
  rw [Option.any_eq_true] at integral ⊢
  obtain ⟨v, valued, integral⟩ := integral
  exact ⟨v, valued, looser.isIntegral integral⟩

/-- A looser tolerance finds a part of the violations, in the same order. -/
theorem violations_sublist (looser : s.Looser t) (m : Model Unrounded Unrounded)
    (checkIntegrality : Bool) (value : Variable → Option Unrounded) :
    (m.violations s checkIntegrality value).Sublist (m.violations t checkIntegrality value) := by
  refine List.Sublist.append ?_ ?_
  · exact List.Sublist.flatMap_right _ fun p _ => constraintViolations_sublist looser value p.1 p.2
  · refine List.Sublist.flatMap_right _ fun p _ => ?_
    refine (boundViolations_sublist looser value p.1 p.2).append ?_
    split
    · exact integralityViolations_sublist looser value p.1 p.2
    · exact .refl _

end Model

/-! ## Any other tolerance -/

namespace Tolerance

variable {s t : Tolerance}

/-- In every model that can be built and for every assignment, with the requirement of integrality
and without, a tolerance finds a part of the violations that another one finds; so what is valid for
the other one is valid for it. -/
def FindsNoMore (s t : Tolerance) : Prop :=
  ∀ (os : List (Operation Unrounded Unrounded)) (checkIntegrality : Bool)
    (value : Variable → Option Unrounded),
    let m := (Model.empty : Model Unrounded Unrounded).afterAll os
    (m.violations s checkIntegrality value).Sublist (m.violations t checkIntegrality value) ∧
      (m.violations t checkIntegrality value = [] → m.violations s checkIntegrality value = [])

/-- A model with one variable, which has to be a certain number. -/
def fixedAt (q : Rat) : Model Unrounded Unrounded :=
  Model.empty.afterAll
    [.addVariable ((Definition.free.named "x").withBounds (some (.finite q)) (some (.finite q)))]

theorem violations_fixedAt (t : Tolerance) {q e : Rat} (positive : 0 < e) :
    (fixedAt q).violations t false (fun _ => some (.finite (q + e))) = [] ↔ e ≤ t.slack true q := by
  have ordered : Limits.isOrdered (Unrounded.finite q) (Unrounded.finite q) = true := by
    simp [Limits.isOrdered, Limits.isUndefined, Unrounded.isUndefined]
  have built : fixedAt q =
      .ofParts #[⟨"x", ⟨some "x", .continuous, .finite q, .finite q⟩, none⟩] #[] .zero := by
    simp [fixedAt, Model.afterAll, Model.after, Model.ended, Change.outcome, Change.addVariable_eq,
      Model.empty, Model.variableNamed?, Model.nextName, Model.withVariable, Model.ofParts,
      Definition.withBounds, Definition.named, Definition.free, ordered]
  have found (value : Variable → Option Unrounded) : (fixedAt q).violations t false value =
      Model.boundViolations t value ⟨"x", ⟨some "x", .continuous, .finite q, .finite q⟩, none⟩ 0 := by
    rw [built, Model.violations, Model.entries_ofParts]
    simp [Model.ofParts]
  rw [found, ← isBetween_add positive]
  unfold Model.boundViolations
  dsimp only
  split <;> simp_all [Model.isBetween]

/-- Only a looser tolerance never finds more. -/
theorem findsNoMore_iff_looser : s.FindsNoMore t ↔ s.Looser t := by
  constructor
  · intro h
    by_contra tighter
    obtain ⟨q, -, less⟩ := exists_slack_lt tighter
    have positive := t.slack_pos true q
    have none := (h _ false fun _ => some (.finite (q + t.slack true q))).2
      ((violations_fixedAt t positive).mpr le_rfl)
    exact not_lt.mpr ((violations_fixedAt s positive).mp none) less
  · intro looser os checkIntegrality value
    have part := Model.violations_sublist looser (Model.empty.afterAll os) checkIntegrality value
    exact ⟨part, fun none => List.sublist_nil.mp (none ▸ part)⟩

/-- Fewer digits never find more violations than more digits do, unless the power of ten of the
precision or of the scale wraps around for one of the two tolerances only. -/
theorem findsNoMore_iff (precision : s.precision ≤ t.precision) (scale : s.scale ≤ t.scale) :
    s.FindsNoMore t ↔ (2 ^ 31 < t.precision.toNat → 2 ^ 31 < s.precision.toNat) ∧
      (s.scale = Int32.minValue → t.scale = Int32.minValue) :=
  findsNoMore_iff_looser.trans (looser_iff precision scale)

/-- Twelve digits are stricter than seven, but the largest precision is laxer than twelve. -/
theorem findsNoMore_iff_seven_twelve_largest :
    (7 : UInt32) ≤ 12 ∧ (6 : Int32) ≤ 8 ∧ FindsNoMore ⟨7, 6⟩ ⟨12, 8⟩ ∧
      (12 : UInt32) ≤ 4294967295 ∧ ¬ FindsNoMore ⟨12, 8⟩ ⟨4294967295, 8⟩ := by
  refine ⟨by decide, by decide, ?_, by decide, ?_⟩
  · exact (findsNoMore_iff (by decide) (by decide)).mpr ⟨by decide, by decide⟩
  · intro h
    have wrapped := ((findsNoMore_iff (by decide) (by decide)).mp h).1
    exact absurd (wrapped (by decide)) (by decide)

end Tolerance

end Milp
