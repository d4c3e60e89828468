import Milp.Proofs.Model
import Milp.Validation

/-!
# Validation in exact arithmetic

The limits of a requirement are tested one at a time, each first without the tolerance and then with
it. In exact arithmetic that is one interval: between two limits that are moved apart, each by the room
that the tolerance leaves at it.

Results:
1. `isNearest_iff`: which of the integers rounding yields.
2. `isBetween_iff`, `isIntegral_iff`: what a tolerance accepts.
3. `mem_violations`, `pairwise_violations`: what is listed, and in which order.
4. `violations_exact`: the list of violations, with the requirement of integrality and without.
-/

namespace Milp

/-! ## Rounding -/

namespace Exact

/-- No integer is nearer to a number, and none that is as near lies farther from zero. -/
structure IsNearest (q : Rat) (i : Int) : Prop where
  least : ∀ k : Int, |q - i| ≤ |q - k|
  outward : ∀ k : Int, |q - k| = |q - i| → |k| ≤ |i|

variable {q : Rat} {i k : Int}

theorem IsNearest.neg (h : IsNearest q i) : IsNearest (-q) (-i) := by
  have apart (k : Int) : |-q - k| = |q - (-k : Int)| := by
    rw [← abs_neg]
    congr 1
    push_cast
    ring
  refine ⟨fun k => ?_, fun k same => ?_⟩
  · rw [apart, apart, neg_neg]
    exact h.least (-k)
  · rw [apart, apart, neg_neg] at same
    simpa using h.outward (-k) same

theorem IsNearest.unique (h : IsNearest q i) (h' : IsNearest q k) : i = k := by
  have near : |q - i| = |q - k| := le_antisymm (h.least k) (h'.least i)
  rcases abs_eq_abs.mp (le_antisymm (h'.outward i near) (h.outward k near.symm)) with same | opposite
  · exact same
  · -- a number that is as far from an integer as from its negation is zero, or the integer is
    subst opposite
    rcases abs_eq_abs.mp near with same | opposite
    · push_cast at same
      have zero : (k : Rat) = 0 := by linarith
      simp [Int.cast_eq_zero.mp zero]
    · push_cast at opposite
      have zero : q = 0 := by linarith
      have least := h'.least 0
      rw [zero] at least
      have none : k = 0 := by simpa using least
      rw [none, neg_zero]

/-- Rounding a number that is not negative. -/
theorem isNearest_floor (nonneg : 0 ≤ q) : IsNearest q ⌊q + 1 / 2⌋ := by
  have low := Int.floor_le (q + 1 / 2)
  have high := Int.lt_floor_add_one (q + 1 / 2)
  have far {k : Int} (other : k ≠ ⌊q + 1 / 2⌋) :
      (k : Rat) ≤ ⌊q + 1 / 2⌋ - 1 ∨ (⌊q + 1 / 2⌋ : Rat) + 1 ≤ k := by
    rcases lt_or_gt_of_ne other with less | more
    · exact .inl (by exact_mod_cast Int.le_sub_one_of_lt less)
    · exact .inr (by exact_mod_cast Int.add_one_le_of_lt more)
  refine ⟨fun k => ?_, fun k same => ?_⟩
  · by_cases equal : k = ⌊q + 1 / 2⌋
    · rw [equal]
    · rw [abs_le]
      rcases far equal with less | more
      · have := le_abs_self (q - k)
        constructor <;> linarith
      · have := neg_le_abs (q - k)
        constructor <;> linarith
  · by_cases equal : k = ⌊q + 1 / 2⌋
    · rw [equal]
    · -- as far on the other side: the number is halfway between the two
      have sum : q - k = -(q - ⌊q + 1 / 2⌋) := by
        refine (abs_eq_abs.mp same).resolve_left fun h => equal ?_
        have : (k : Rat) = ⌊q + 1 / 2⌋ := by linarith
        exact_mod_cast this
      have below : (k : Rat) ≤ ⌊q + 1 / 2⌋ - 1 :=
        (far equal).resolve_right fun more => by linarith
      have above : -(⌊q + 1 / 2⌋ : Rat) ≤ k := by linarith
      rw [abs_of_nonneg (Int.floor_nonneg.mpr (by linarith : 0 ≤ q + 1 / 2))]
      exact abs_le.mpr ⟨by exact_mod_cast above, by exact_mod_cast (by linarith :
        (k : Rat) ≤ ⌊q + 1 / 2⌋)⟩

/-- Rounding yields the nearest integer, of two the one farther from zero. -/
theorem isNearest_iff : IsNearest q i ↔ Scalar.round q = i := by
  obtain ⟨r, rounds, nearest⟩ : ∃ r : Int, Scalar.round q = r ∧ IsNearest q r := by
    show ∃ r : Int, Exact.round q = r ∧ IsNearest q r
    unfold Exact.round
    split
    · rename_i nonneg
      exact ⟨_, rfl, isNearest_floor nonneg⟩
    · rename_i negative
      refine ⟨-⌊-q + 1 / 2⌋, ?_, ?_⟩
      · rw [show ((q - 1 / 2).ceil : Rat) = _ from ceil_eq (q - 1 / 2), ← Int.ceil_neg]
        congr 2
        ring
      · simpa using (isNearest_floor (q := -q) (by linarith)).neg
  rw [rounds, Int.cast_inj]
  exact ⟨fun h => nearest.unique h, fun same => same ▸ nearest⟩

end Exact

/-! ## What a tolerance accepts -/

namespace Tolerance

/-- A number lies between two limits that are moved apart, each by the room that there is at it. The
infinity of its side does not move, and every number is within it. -/
structure Spans (t : Tolerance) (l : ExtendedRat) (v : Rat) (u : ExtendedRat) : Prop where
  lower : Limits.sub l (t.epsilonOf l) ≤ .finite v
  upper : .finite v ≤ Limits.add u (t.epsilonOf u)

variable {t : Tolerance} {v : Rat}

theorem within_iff {q : Rat} : t.within q v = true ↔ |q - v| ≤ t.epsilon q := by
  unfold within
  rw [Exact.abs_eq, Bool.or_eq_true, decide_eq_true_iff]
  refine or_iff_right_of_imp fun same => ?_
  rw [beq_iff_eq.mp same, sub_self, abs_zero]
  exact (t.epsilon_pos v).le

theorem meets_finite_iff {q : Rat} :
    t.meets (ExtendedRat.finite q) v = true ↔ |q - v| ≤ t.epsilonOf (ExtendedRat.finite q) := by
  refine Iff.trans ?_ within_iff
  show (ExtendedRat.finite q == .finite v ||
    decide (ExtendedRat.finite (Scalar.abs (q - v)) ≤ .finite (t.epsilon q))) = true ↔ _
  simp [within]

theorem isAtLeast_iff {l : ExtendedRat} :
    t.isAtLeast v l = true ↔ Limits.sub l (t.epsilonOf l) ≤ .finite v := by
  unfold isAtLeast
  cases l with
  | below => simp [Limits.sub, ExtendedRat.map]
  | above => simp [meets, Limits.sub, Limits.abs, ExtendedRat.map, ExtendedRat.abs]
  | finite q =>
    have room := t.epsilonOf_pos (.finite q)
    rw [Bool.or_eq_true, decide_eq_true_iff, meets_finite_iff]
    show ExtendedRat.finite q ≤ .finite v ∨ _ ↔ ExtendedRat.finite (q - t.epsilonOf _) ≤ .finite v
    rw [ExtendedRat.finite_le_finite, ExtendedRat.finite_le_finite, abs_le]
    constructor
    · rintro (above | near) <;> linarith
    · intro low
      rcases le_total q v with above | below
      · exact .inl above
      · exact .inr ⟨by linarith, by linarith⟩

theorem isAtMost_iff {u : ExtendedRat} :
    t.isAtMost v u = true ↔ .finite v ≤ Limits.add u (t.epsilonOf u) := by
  unfold isAtMost
  cases u with
  | above => simp [Limits.add, ExtendedRat.map]
  | below => simp [meets, Limits.sub, Limits.add, Limits.abs, ExtendedRat.map, ExtendedRat.abs]
  | finite q =>
    have room := t.epsilonOf_pos (.finite q)
    rw [Bool.or_eq_true, decide_eq_true_iff, meets_finite_iff]
    show ExtendedRat.finite v ≤ .finite q ∨ _ ↔ .finite v ≤ ExtendedRat.finite (q + t.epsilonOf _)
    rw [ExtendedRat.finite_le_finite, ExtendedRat.finite_le_finite, abs_le]
    constructor
    · rintro (below | near) <;> linarith
    · intro high
      rcases le_total v q with below | above
      · exact .inl below
      · exact .inr ⟨by linarith, by linarith⟩

/-- Without a lower limit the upper one decides. -/
theorem spans_below_iff {u : ExtendedRat} :
    t.Spans .below v u ↔ .finite v ≤ Limits.add u (t.epsilonOf u) :=
  ⟨fun h => h.upper, fun h => ⟨ExtendedRat.below_le _, h⟩⟩

/-- Without an upper limit the lower one decides. -/
theorem spans_above_iff {l : ExtendedRat} :
    t.Spans l v .above ↔ Limits.sub l (t.epsilonOf l) ≤ .finite v :=
  ⟨fun h => h.lower, fun h => ⟨h, ExtendedRat.le_above _⟩⟩

/-- What a tolerance accepts between two limits. -/
theorem isBetween_iff {l u : ExtendedRat} : t.isBetween l v u = true ↔ t.Spans l v u := by
  have defined : Scalar.isUndefined v = false := rfl
  unfold isBetween
  rw [defined, Bool.not_false, Bool.true_and, Bool.and_eq_true, isAtLeast_iff, isAtMost_iff]
  exact ⟨fun h => ⟨h.1, h.2⟩, fun h => ⟨h.lower, h.upper⟩⟩

/-- What a tolerance accepts as an integer. -/
theorem isIntegral_iff :
    t.isIntegral v = true ↔ ∃ i : Int, Exact.IsNearest v i ∧ |v - i| ≤ t.epsilon (i : Rat) := by
  obtain ⟨i, rounds⟩ := Exact.exists_int_round v
  have only (k : Int) : Exact.IsNearest v k ↔ k = i := by
    rw [Exact.isNearest_iff, rounds, Int.cast_inj, eq_comm]
  have finite : Scalar.isFinite v = true := rfl
  simp only [only, exists_eq_left, isIntegral, rounds, finite, Bool.true_and]
  rw [within_iff, abs_sub_comm]

end Tolerance

/-! ## Requirements -/

namespace Violation

variable {K L : Type}

/-- One violation is listed before another: constraints come first, and the bounds of a variable come
before its integrality. -/
def Before : Violation K L → Violation K L → Prop
  | constraint i .., constraint k .. => i < k
  | constraint .., _ => True
  | _, constraint .. => False
  | bound i .., bound k .. => i < k
  | bound i .., integrality k .. => i ≤ k
  | integrality i .., bound k .. => i < k
  | integrality i .., integrality k .. => i < k

theorem not_before_self (x : Violation K L) : ¬ x.Before x := by
  cases x <;> exact Nat.lt_irrefl _

/-- Whether a violation is one of the requirement of integrality. -/
def isOfIntegrality : Violation K L → Bool
  | integrality .. => true
  | _ => false

end Violation

namespace Model

variable {m : Model Rat ExtendedRat} {t : Tolerance} {checkIntegrality : Bool}
  {value : Variable → Option Rat}

/-- There is a value, and it lies between two limits up to the tolerance. -/
def Lies (t : Tolerance) (l : ExtendedRat) (v : Option Rat) (u : ExtendedRat) : Prop :=
  ∃ q, v = some q ∧ t.Spans l q u

/-- There is a value, and it is as near as the tolerance asks for to the integer nearest to it. -/
def LiesAtInteger (t : Tolerance) (v : Option Rat) : Prop :=
  ∃ q, v = some q ∧ ∃ i : Int, Exact.IsNearest q i ∧ |q - i| ≤ t.epsilon (i : Rat)

/-- An assignment breaks a requirement of a model: the limits of a constraint, the bounds of a variable
or the integrality of one. -/
inductive Breaks (m : Model Rat ExtendedRat) (t : Tolerance) (value : Variable → Option Rat) :
    Violation Rat ExtendedRat → Prop
  | constraint {i : Nat} {c : Constraint Rat ExtendedRat} (here : m.constraints[i]? = some c)
    (outside : ¬ Lies t c.lower (c.body.eval? value) c.upper) :
    Breaks m t value (.constraint i c.name (c.body.eval? value) c.lower c.upper)
  | bound {j : Nat} {e : Entry Rat ExtendedRat} (here : m.entries[j]? = some e)
    (outside : ¬ Lies t e.definition.lower (value ⟨j⟩) e.definition.upper) :
    Breaks m t value
      (.bound j e.name (value ⟨j⟩) e.definition.lower e.definition.upper)
  | integrality {j : Nat} {e : Entry Rat ExtendedRat} (here : m.entries[j]? = some e)
    (integer : e.definition.domain ≠ .continuous) (fractional : ¬ LiesAtInteger t (value ⟨j⟩)) :
    Breaks m t value (.integrality j e.name (value ⟨j⟩))

/-- An assignment meets all requirements of a model, those of integrality if they count. -/
structure IsMetBy (m : Model Rat ExtendedRat) (t : Tolerance) (checkIntegrality : Bool)
    (value : Variable → Option Rat) : Prop where
  constraints : ∀ c ∈ m.constraints, Lies t c.lower (c.body.eval? value) c.upper
  bounds : ∀ j e, m.entries[j]? = some e →
    Lies t e.definition.lower (value ⟨j⟩) e.definition.upper
  integers : checkIntegrality = true → ∀ j e, m.entries[j]? = some e →
    e.definition.domain ≠ .continuous → LiesAtInteger t (value ⟨j⟩)

/-! ## The list of violations -/

theorem isBetween_iff {l u : ExtendedRat} {v : Option Rat} :
    isBetween t l v u = true ↔ Lies t l v u := by
  simp only [isBetween, Option.any_eq_true, Tolerance.isBetween_iff, Lies]

theorem any_isIntegral_iff {v : Option Rat} :
    v.any t.isIntegral = true ↔ LiesAtInteger t v := by
  simp only [Option.any_eq_true, Tolerance.isIntegral_iff, LiesAtInteger]

variable {x : Violation Rat ExtendedRat} {c : Constraint Rat ExtendedRat}
  {e : Entry Rat ExtendedRat} {i : Nat}

theorem mem_constraintViolations : x ∈ constraintViolations t value c i ↔
    x = .constraint i c.name (c.body.eval? value) c.lower c.upper ∧
      ¬ Lies t c.lower (c.body.eval? value) c.upper := by
  unfold constraintViolations
  dsimp only
  rw [← isBetween_iff]
  split <;> simp [*]

theorem mem_boundViolations : x ∈ boundViolations t value e i ↔
    x = .bound i e.name (value ⟨i⟩) e.definition.lower e.definition.upper ∧
      ¬ Lies t e.definition.lower (value ⟨i⟩) e.definition.upper := by
  unfold boundViolations
  dsimp only
  rw [← isBetween_iff]
  split <;> simp [*]

theorem mem_integralityViolations : x ∈ integralityViolations t value e i ↔
    x = .integrality i e.name (value ⟨i⟩) ∧
      e.definition.domain ≠ .continuous ∧ ¬ LiesAtInteger t (value ⟨i⟩) := by
  unfold integralityViolations
  dsimp only
  rw [← any_isIntegral_iff, ← Domain.isInteger_iff]
  cases e.definition.domain.isInteger <;> cases (value ⟨i⟩).any t.isIntegral <;> simp

/-- What is listed is what the assignment breaks. -/
theorem mem_violations : x ∈ m.violations t checkIntegrality value ↔
    m.Breaks t value x ∧ (x.isOfIntegrality = true → checkIntegrality = true) := by
  simp only [violations, List.mem_append, List.mem_flatMap, List.mem_zipIdx_iff_getElem?,
    Array.getElem?_toList, mem_constraintViolations, mem_boundViolations, List.mem_ite_nil_right,
    mem_integralityViolations]
  constructor
  · rintro (⟨⟨c, i⟩, here, rfl, outside⟩ | ⟨⟨e, j⟩, here, ⟨rfl, outside⟩ | ⟨checked, rfl, broken⟩⟩)
    · exact ⟨.constraint here outside, nofun⟩
    · exact ⟨.bound here outside, nofun⟩
    · exact ⟨.integrality here broken.1 broken.2, fun _ => checked⟩
  · rintro ⟨breaks, checked⟩
    cases breaks with
    | @constraint i c here outside => exact .inl ⟨(c, i), here, rfl, outside⟩
    | @bound j e here outside => exact .inr ⟨(e, j), here, .inl ⟨rfl, outside⟩⟩
    | @integrality j e here integer fractional =>
      exact .inr ⟨(e, j), here, .inr ⟨checked rfl, rfl, integer, fractional⟩⟩

/-- Elements come with their places in order. -/
theorem pairwise_zipIdx {α : Type} (xs : List α) :
    xs.zipIdx.Pairwise fun a b => a.2 < b.2 := by
  have places : (xs.zipIdx.map Prod.snd).Pairwise (· < ·) := by
    rw [List.zipIdx_map_snd]
    exact List.pairwise_lt_range'
  exact List.pairwise_map.mp places

/-- The violations of one variable are those of its bounds and then those of its integrality. -/
theorem pairwise_entry : (boundViolations t value e i ++
    if checkIntegrality then integralityViolations t value e i else []).Pairwise
      Violation.Before := by
  refine List.pairwise_append.mpr ⟨?_, ?_, fun x hx y hy => ?_⟩
  · unfold boundViolations
    dsimp only
    split <;> simp
  · unfold integralityViolations
    dsimp only
    split
    · split <;> simp
    · exact .nil
  · rw [List.mem_ite_nil_right] at hy
    rw [(mem_boundViolations.mp hx).1, (mem_integralityViolations.mp hy.2).1]
    exact Nat.le_refl i

/-- The violations of one variable are about it. -/
theorem eq_of_mem_entry (h : x ∈ boundViolations t value e i ++
    if checkIntegrality then integralityViolations t value e i else []) :
    x = .bound i e.name (value ⟨i⟩) e.definition.lower e.definition.upper ∨
      x = .integrality i e.name (value ⟨i⟩) := by
  rw [List.mem_append, List.mem_ite_nil_right] at h
  exact h.imp (fun h => (mem_boundViolations.mp h).1) fun h => (mem_integralityViolations.mp h.2).1

/-- Violations are listed in the order of the requirements. -/
theorem pairwise_violations (m : Model Rat ExtendedRat) (t : Tolerance) (checkIntegrality : Bool)
    (value : Variable → Option Rat) :
    (m.violations t checkIntegrality value).Pairwise Violation.Before := by
  unfold violations
  refine List.pairwise_append.mpr ⟨?_, ?_, ?_⟩
  · refine List.pairwise_flatMap.mpr ⟨fun p _ => ?_, ?_⟩
    · unfold constraintViolations
      dsimp only
      split <;> simp
    · refine (pairwise_zipIdx _).imp fun less x hx y hy => ?_
      rw [(mem_constraintViolations.mp hx).1, (mem_constraintViolations.mp hy).1]
      exact less
  · refine List.pairwise_flatMap.mpr ⟨fun p _ => pairwise_entry, ?_⟩
    refine (pairwise_zipIdx _).imp fun less x hx y hy => ?_
    rcases eq_of_mem_entry hx with rfl | rfl <;> rcases eq_of_mem_entry hy with rfl | rfl
    · exact less
    · exact less.le
    · exact less
    · exact less
  · intro x hx y hy
    obtain ⟨p, -, hx⟩ := List.mem_flatMap.mp hx
    obtain ⟨q, -, hy⟩ := List.mem_flatMap.mp hy
    rw [(mem_constraintViolations.mp hx).1]
    rcases eq_of_mem_entry hy with rfl | rfl <;> exact trivial

/-- Without the requirement of integrality the other violations remain. -/
theorem filter_violations (m : Model Rat ExtendedRat) (t : Tolerance)
    (value : Variable → Option Rat) :
    (m.violations t true value).filter (!·.isOfIntegrality) = m.violations t false value := by
  have kept {xs : List (Violation Rat ExtendedRat)} (other : ∀ x ∈ xs, x.isOfIntegrality = false) :
      xs.filter (!·.isOfIntegrality) = xs :=
    List.filter_eq_self.mpr fun x hx => by rw [other x hx, Bool.not_false]
  unfold violations
  rw [List.filter_append, List.filter_flatMap, List.filter_flatMap]
  congr 1
  · refine List.flatMap_congr fun p _ => kept fun x hx => ?_
    rw [(mem_constraintViolations.mp hx).1]
    rfl
  · refine List.flatMap_congr fun p _ => ?_
    rw [List.filter_append, kept fun x hx => ?_]
    · congr 1
      refine List.filter_eq_nil_iff.mpr fun x hx => ?_
      rw [(mem_integralityViolations.mp hx).1]
      nofun
    · rw [(mem_boundViolations.mp hx).1]
      rfl

/-- Nothing is listed exactly when every requirement is met. -/
theorem violations_eq_nil_iff :
    m.violations t checkIntegrality value = [] ↔ m.IsMetBy t checkIntegrality value := by
  rw [List.eq_nil_iff_forall_not_mem]
  simp only [mem_violations]
  constructor
  · intro none
    refine ⟨fun c hc => ?_, fun j e here => ?_, fun checked j e here integer => ?_⟩
    · obtain ⟨i, here⟩ := Array.mem_iff_getElem?.mp hc
      by_contra outside
      exact none _ ⟨.constraint here outside, nofun⟩
    · by_contra outside
      exact none _ ⟨.bound here outside, nofun⟩
    · by_contra fractional
      exact none _ ⟨.integrality here integer fractional, fun _ => checked⟩
  · rintro met x ⟨breaks, checked⟩
    cases breaks with
    | constraint here outside => exact outside (met.constraints _ (Array.mem_of_getElem? here))
    | bound here outside => exact outside (met.bounds _ _ here)
    | integrality here integer fractional =>
      exact fractional (met.integers (checked rfl) _ _ here integer)

/-- Every requirement that an assignment breaks is listed once, and nothing else is: the constraints
come first in their order, then the variables in theirs, each with its bounds before its integrality.
A constraint, or the bounds of a variable, is broken where the value lies outside of the limits moved
apart by their tolerances, and never on a side without limit; the integrality of a variable where the
value is farther from the integer nearest to it than the tolerance of that. Without the requirement of
integrality just the violations of it are left out. So nothing is listed exactly when every requirement
is met, and what is valid is valid without that requirement. -/
theorem violations_exact (m : Model Rat ExtendedRat) (t : Tolerance) (checkIntegrality : Bool)
    (value : Variable → Option Rat) :
    (∀ x, x ∈ m.violations t checkIntegrality value ↔
      m.Breaks t value x ∧ (x.isOfIntegrality = true → checkIntegrality = true)) ∧
    (∀ (l u : ExtendedRat) (v : Rat),
      (t.Spans .below v u ↔ .finite v ≤ Limits.add u (t.epsilonOf u)) ∧
      (t.Spans l v .above ↔ Limits.sub l (t.epsilonOf l) ≤ .finite v)) ∧
    (m.violations t checkIntegrality value).Nodup ∧
    (m.violations t checkIntegrality value).Pairwise Violation.Before ∧
    m.violations t false value = (m.violations t true value).filter (!·.isOfIntegrality) ∧
    (m.violations t checkIntegrality value = [] ↔ m.IsMetBy t checkIntegrality value) ∧
    (m.isValid t = true ↔ m.IsMetBy t true m.value?) ∧
    (m.isValidRelaxed t = true ↔ m.IsMetBy t false m.value?) ∧
    (m.isValid t = true → m.isValidRelaxed t = true) := by
  have valid : m.isValid t = true ↔ m.IsMetBy t true m.value? :=
    List.isEmpty_iff.trans violations_eq_nil_iff
  have relaxed : m.isValidRelaxed t = true ↔ m.IsMetBy t false m.value? :=
    List.isEmpty_iff.trans violations_eq_nil_iff
  have order := m.pairwise_violations t checkIntegrality value
  refine ⟨fun _ => mem_violations,
    fun _ _ _ => ⟨Tolerance.spans_below_iff, Tolerance.spans_above_iff⟩, order.imp ?_, order, (m.filter_violations t value).symm,
    violations_eq_nil_iff, valid, relaxed, ?_⟩
  · rintro x _ before rfl
    exact x.not_before_self before
  · rw [valid, relaxed]
    exact fun met => ⟨met.constraints, met.bounds, nofun⟩

/-- An integer from 0 to 10 and some number from 0 to 5 with a sum of at most 8, at 7.5 and 6: the
violations of the constraint, of the integrality of the one and of the bounds of the other. -/
example :
    let m : Model Rat ExtendedRat :=
      .ofParts
        #[⟨"x", ⟨some "x", .integer, .finite 0, .finite 10⟩, some 7.5⟩,
          ⟨"y", ⟨some "y", .continuous, .finite 0, .finite 5⟩, some 6⟩]
        #[⟨⟨[(⟨0⟩, 1), (⟨1⟩, 1)], 0⟩, .below, .finite 8, some "cap"⟩]
        .zero
    (m.violations ⟨7, 6⟩ true m.value?).map (·.isOfIntegrality) = [false, true, false] := by
  decide +kernel

end Model

end Milp
