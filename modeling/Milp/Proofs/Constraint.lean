import Milp.Proofs.Exact
import Milp.Proofs.Formula
import Milp.Proofs.Model

/-!
# What constraints mean

A comparison of two formulas is stored as limits of their difference, with all that is constant moved
to the limits. Whichever way the comparison is written, this is the same constraint, and it holds
where the formulas are in the relation.

Results:
1. `holds_ofLimits`: limits with the constant taken off hold for a body without constant as they do
   for the whole expression.
2. `Writes.constraint_eq`: formulas with the same variables and the same difference make the same
   constraint, in every way to write it.
3. `takes_iff`: the constraints that a model takes.
4. `Formula.constraints_mean`: all this for the comparisons and the ranges of formulas.
-/

namespace Milp

open Expression (linear)

/-- A relation holds between two numbers. -/
def Relation.Holds : Relation → Rat → Rat → Prop
  | atMost, p, q => p ≤ q
  | atLeast, p, q => q ≤ p
  | equal, p, q => p = q

/-! ## Limits without the constant -/

namespace Constraint

/-- A constraint with a name, if one is given. -/
def called (c : Constraint Rat ExtendedRat) (name : Option String) : Constraint Rat ExtendedRat :=
  name.elim c c.named

/-- The body has a value, and it lies between the limits. -/
def Holds (c : Constraint Rat ExtendedRat) (value : Variable → Option Rat) : Prop :=
  ∃ q, c.body.eval? value = some q ∧ c.lower ≤ .finite q ∧ .finite q ≤ c.upper

theorem sub_le_finite_iff {l : ExtendedRat} {c q : Rat} :
    Limits.sub l c ≤ .finite q ↔ l ≤ .finite (c + q) := by
  cases l with
  | below => simp [Limits.sub, ExtendedRat.map]
  | finite a => simp [Limits.sub, ExtendedRat.map, add_comm]
  | above => simp [Limits.sub, ExtendedRat.map]

theorem finite_le_sub_iff {u : ExtendedRat} {c q : Rat} :
    .finite q ≤ Limits.sub u c ↔ .finite (c + q) ≤ u := by
  cases u with
  | below => simp [Limits.sub, ExtendedRat.map]
  | finite a => simp [Limits.sub, ExtendedRat.map, le_sub_iff_add_le, add_comm]
  | above => simp [Limits.sub, ExtendedRat.map]

theorem sub_le_sub_iff {l u : ExtendedRat} {c : Rat} :
    (Limits.sub l c : ExtendedRat) ≤ Limits.sub u c ↔ l ≤ u := by
  cases u with
  | finite b =>
    show Limits.sub l c ≤ ExtendedRat.finite (b - c) ↔ _
    rw [sub_le_finite_iff, add_sub_cancel]
  | below | above => cases l <;> simp [Limits.sub, ExtendedRat.map]

variable {e : Expression Rat} {vs : List Variable} {f : (Variable → Rat) → Rat}
  {value : Variable → Option Rat} {x : Variable → Rat} {lower upper : ExtendedRat}

/-- A body lies between the limits that are moved by its constant exactly when the expression with
that constant lies between the limits. -/
theorem holds_ofLimits (h : e.Represents vs f) (assigned : ∀ v ∈ vs, value v = some (x v)) :
    (ofLimits e lower upper).Holds value ↔ lower ≤ .finite (f x) ∧ .finite (f x) ≤ upper := by
  have body : Expression.Represents { e with constant := 0 } vs fun x => linear e.terms x :=
    ⟨h.order, h.occurring, fun x => zero_add _⟩
  have whole : f x = e.constant + linear e.terms x := (h.value x).symm
  have evaluated : (ofLimits e lower upper).body.eval? value = some (linear e.terms x) :=
    body.eval? assigned
  rw [whole, ← sub_le_finite_iff, ← finite_le_sub_iff]
  constructor
  · rintro ⟨q, found, within⟩
    cases evaluated.symm.trans found
    exact within
  · exact fun within => ⟨_, evaluated, within⟩

theorem isOrdered_ofLimits :
    Limits.isOrdered (ofLimits e lower upper).lower (ofLimits e lower upper).upper = true ↔
      lower ≤ upper := by
  rw [← sub_le_sub_iff (c := e.constant)]
  exact decide_eq_true_iff

end Constraint

open Constraint (holds_ofLimits isOrdered_ofLimits)

/-! ## Comparisons -/

namespace Comparison

variable {s : Comparison Rat} {vs : List Variable} {f : (Variable → Rat) → Rat}
  {value : Variable → Option Rat} {x : Variable → Rat}

/-- A comparison is stored as limits of the difference. -/
theorem exists_ofLimits (s : Comparison Rat) : ∃ lower upper : ExtendedRat,
    s.constraint = .ofLimits s.difference lower upper ∧ lower ≤ upper ∧
      ∀ q, lower ≤ .finite q ∧ .finite q ≤ upper ↔ s.relation.Holds q 0 := by
  obtain ⟨relation, e⟩ := s
  cases relation with
  | atMost => exact ⟨.below, .finite 0, rfl, by simp, fun q => by simp [Relation.Holds]⟩
  | atLeast => exact ⟨.finite 0, .above, rfl, by simp, fun q => by simp [Relation.Holds]⟩
  | equal =>
    refine ⟨.finite 0, .finite 0, rfl, le_rfl, fun q => ?_⟩
    simp only [ExtendedRat.finite_le_finite, Relation.Holds]
    exact ⟨fun both => le_antisymm both.2 both.1, fun zero => ⟨zero.ge, zero.le⟩⟩

theorem holds_constraint (h : s.difference.Represents vs f)
    (assigned : ∀ v ∈ vs, value v = some (x v)) :
    s.constraint.Holds value ↔ s.relation.Holds (f x) 0 := by
  obtain ⟨lower, upper, stored, -, within⟩ := s.exists_ofLimits
  rw [stored, holds_ofLimits h assigned, within]

end Comparison

theorem Relation.holds_sub_zero {r : Relation} {p q : Rat} : r.Holds (p - q) 0 ↔ r.Holds p q := by
  cases r with
  | atMost => exact sub_nonpos
  | atLeast => exact sub_nonneg
  | equal => exact sub_eq_zero

/-! ## Formulas that are compared -/

/-- The ways to write that two formulas are in a relation: a function of both, a method of the
expression of the first, and an operator for each of the inequalities. -/
inductive Writes (a b : Formula Rat) : Relation → Comparison Rat → Prop
  | function (r : Relation) : Writes a b r (Operand.compare r a.operand b.operand)
  | method (r : Relation) : Writes a b r (a.expression.compare r b.operand)
  | shiftLeft : Writes a b .atMost (a.operand <<< b.operand)
  | shiftRight : Writes a b .atLeast (a.operand >>> b.operand)

namespace Writes

variable {a b a' b' : Formula Rat} {r : Relation} {s s' : Comparison Rat}

theorem relation (h : Writes a b r s) : s.relation = r := by
  cases h <;> rfl

/-- In every way to write a comparison the difference of the formulas is built. -/
theorem represents (h : Writes a b r s) (ha : a.Canonical) (hb : b.Canonical) :
    s.difference.Represents (a.written ++ b.written) fun x => a.denote x - b.denote x := by
  have left := Formula.operand_represents a ha
  have right := Formula.operand_represents b hb
  have converted : (Operand.expression a.expression).Represents a.written a.denote :=
    left.toExpression
  cases h with
  | function => exact left.sub right
  | method => exact converted.sub right
  | shiftLeft => exact left.sub right
  | shiftRight => exact left.sub right

/-- Formulas with the same variables and the same difference make the same constraint, in every way
to write it. -/
theorem constraint_eq (h : Writes a b r s) (h' : Writes a' b' r s') (ha : a.Canonical)
    (hb : b.Canonical) (ha' : a'.Canonical) (hb' : b'.Canonical)
    (vars : ∀ v, v ∈ a.written ++ b.written ↔ v ∈ a'.written ++ b'.written)
    (values : ∀ x, a.denote x - b.denote x = a'.denote x - b'.denote x) :
    (s.constraint : Constraint Rat ExtendedRat) = s'.constraint := by
  have difference := (h.represents ha hb).unique (h'.represents ha' hb') vars values
  obtain ⟨relation, e⟩ := s
  obtain ⟨relation', e'⟩ := s'
  cases h.relation
  cases h'.relation
  cases difference
  rfl

end Writes

/-! ## Acceptance -/

namespace Model

variable {m : Model Rat ExtendedRat} {c : Constraint Rat ExtendedRat}

/-- A model takes a constraint. -/
def Takes (m : Model Rat ExtendedRat) (c : Constraint Rat ExtendedRat) : Prop :=
  ∃ m' i, m.addConstraint c = .ok (m', i)

/-- Some variables belong to a model. -/
def HasAll (m : Model Rat ExtendedRat) (vs : List Variable) : Prop :=
  ∀ v ∈ vs, v.index < m.definitions.size

/-- No constraint of a model has a name that may be given to another one. -/
def LeavesFree (m : Model Rat ExtendedRat) (given : Option String) : Prop :=
  ∀ name, given = some name → ∀ c ∈ m.constraints, c.name ≠ some name

/-- A model takes the constraints with limits that are not crossed, with variables that it has, and
without a name or with one that is free. -/
theorem takes_iff (h : m.Coherent) : m.Takes c ↔
    Limits.isOrdered c.lower c.upper = true ∧ m.HasAll c.body.occurring ∧ m.LeavesFree c.name := by
  have present : m.HasAll c.body.occurring ↔ ∀ t ∈ c.body.terms, t.1.index < m.definitions.size :=
    List.forall_mem_map
  have free : m.LeavesFree c.name ↔
      ∀ name, c.name = some name → m.constraintNamed? name = none :=
    forall_congr' fun name => imp_congr_right fun _ => h.constraintNamed?_eq_none_iff.symm
  rw [present, free]
  constructor
  · rintro ⟨m', i, added⟩
    obtain ⟨ordered, covered, fresh, -⟩ := addConstraint_eq_ok.mp added
    exact ⟨ordered, covered, fresh⟩
  · rintro ⟨ordered, covered, fresh⟩
    exact ⟨_, _, addConstraint_eq_ok.mpr ⟨ordered, covered, fresh, rfl, rfl⟩⟩

theorem takes_ofLimits (built : m.Built) {e : Expression Rat} {vs : List Variable}
    {f : (Variable → Rat) → Rat} (h : e.Represents vs f) {lower upper : ExtendedRat} {name : Option String} :
    m.Takes ((Constraint.ofLimits e lower upper).called name) ↔
      lower ≤ upper ∧ m.HasAll vs ∧ m.LeavesFree name := by
  have present : m.HasAll e.occurring ↔ m.HasAll vs :=
    forall_congr' fun v => imp_congr_left (h.occurring v)
  rw [takes_iff built.wellFormed.coherent, ← present, ← isOrdered_ofLimits (e := e)]
  cases name <;> rfl

end Model

/-! ## Comparisons and ranges of formulas -/

namespace Formula

variable {a b : Formula Rat}

/-- Comparisons and ranges of formulas hold where they say so, whichever way they are written, and a
model takes them if it has their variables, their name is free, and a range is not crossed. -/
theorem constraints_mean (ha : a.Canonical) (hb : b.Canonical) :
    let comparison (r : Relation) : Constraint Rat ExtendedRat :=
      (Operand.compare r a.operand b.operand).constraint
    (∀ r s, Writes a b r s → s.constraint = comparison r) ∧
    (∀ r value x, (∀ v ∈ a.written ++ b.written, value v = some (x v)) →
      ((comparison r).Holds value ↔ r.Holds (a.denote x) (b.denote x))) ∧
    (∀ (lower upper : ExtendedRat) value x, (∀ v ∈ a.written, value v = some (x v)) →
      ((Constraint.range a.operand lower upper).Holds value ↔
        lower ≤ .finite (a.denote x) ∧ .finite (a.denote x) ≤ upper)) ∧
    (∀ r, (comparison r).body.constant = 0) ∧
    (∀ lower upper : ExtendedRat, (Constraint.range a.operand lower upper).body.constant = 0) ∧
    ∀ (m : Model Rat ExtendedRat) (name : Option String), m.Built →
      (∀ r, m.Takes ((comparison r).called name) ↔
        m.HasAll (a.written ++ b.written) ∧ m.LeavesFree name) ∧
      ∀ lower upper, m.Takes ((Constraint.range a.operand lower upper).called name) ↔
        lower ≤ upper ∧ m.HasAll a.written ∧ m.LeavesFree name := by
  intro comparison
  have direct (r : Relation) : Writes a b r (Operand.compare r a.operand b.operand) := .function r
  have single := expression_represents ha
  refine ⟨fun r s writes => ?_, fun r value x assigned => ?_, fun lower upper value x assigned => ?_,
    fun r => ?_, fun lower upper => rfl, fun m name built => ⟨fun r => ?_, fun lower upper => ?_⟩⟩
  · exact writes.constraint_eq (direct r) ha hb ha hb (fun _ => .rfl) fun _ => rfl
  · have holds := Comparison.holds_constraint ((direct r).represents ha hb) assigned
    exact holds.trans Relation.holds_sub_zero
  · exact holds_ofLimits single assigned
  · cases r <;> rfl
  · obtain ⟨lower, upper, stored, ordered, -⟩ :=
      (Operand.compare r a.operand b.operand).exists_ofLimits
    have takes : m.Takes ((comparison r).called name) ↔
        lower ≤ upper ∧ m.HasAll (a.written ++ b.written) ∧ m.LeavesFree name := by
      show m.Takes (Constraint.called (Comparison.constraint _) name) ↔ _
      rw [stored]
      exact Model.takes_ofLimits built ((direct r).represents ha hb)
    exact takes.trans (and_iff_right ordered)
  · exact Model.takes_ofLimits built single

/-- Three less a variable. -/
def complement : Formula Rat :=
  .sub (.number (.unsigned 3)) (.var ⟨0⟩)

/-- The three is moved to the limit of `3 - x ≥ y`, which holds for 1 and 2 and not for 2 and 2. -/
theorem constraints_mean_complement :
    let y : Formula Rat := .var ⟨1⟩
    let s : Comparison Rat := complement.operand >>> y.operand
    let c : Constraint Rat ExtendedRat := s.constraint
    let m : Model Rat ExtendedRat :=
      .ofParts #[⟨"x", .named .free "x", none⟩, ⟨"y", .named .free "y", none⟩] #[] .zero
    complement.Canonical ∧ y.Canonical ∧
    c = ⟨⟨[(⟨0⟩, -1), (⟨1⟩, -1)], 0⟩, .finite (-3), .above, none⟩ ∧
    (complement.expression.compare .atLeast y.operand).constraint = c ∧
    c.Holds (fun v => [1, 2][v.index]?) ∧ ¬ c.Holds (fun v => [2, 2][v.index]?) ∧
    m.Built ∧ m.Takes (c.named "row") ∧ ¬ (Model.empty : Model Rat ExtendedRat).Takes c ∧
    ¬ m.Takes (.range complement.operand (.finite 2) (.finite 1)) := by
  intro y s c m
  have three : ((Number.unsigned 3).value : Rat) = 3 := rfl
  have canonical : complement.Canonical := ⟨trivial, trivial⟩
  have canonical' : y.Canonical := trivial
  obtain ⟨same, holds, -, -, -, takes⟩ := constraints_mean canonical canonical'
  have operator : c = (Operand.compare .atLeast complement.operand y.operand).constraint :=
    same .atLeast s .shiftRight
  have method := same .atLeast _ (.method .atLeast)
  have holds_at (p q : Rat) : c.Holds (fun v => [p, q][v.index]?) ↔ q ≤ 3 - p := by
    rw [operator]
    exact holds .atLeast _ (fun v => [p, q].getD v.index 0) (by simp [complement, y, written])
  have both : m.HasAll (complement.written ++ y.written) := by
    simp [Model.HasAll, Model.ofParts, complement, y, written, m]
  have built : m.Built := Model.built_variables (by simp) (by simp; decide)
  refine ⟨canonical, canonical', ?_, method.trans operator.symm, ?_, ?_, built, ?_, ?_, ?_⟩
  · have difference : s.difference = ⟨[(⟨0⟩, -1), (⟨1⟩, -1)], 3⟩ := by
      show Expression.addMultiple (Expression.addMultiple (.ofScalar (Number.unsigned 3).value) (-1)
        [(⟨0⟩, 1)] 0) (-1) [(⟨1⟩, 1)] 0 = _
      simp [three, Expression.addMultiple, Expression.addTo, Expression.ofScalar]
    show Constraint.ofLimits s.difference (ExtendedRat.finite 0) .above = _
    rw [difference]
    simp [Constraint.ofLimits, Limits.sub, ExtendedRat.map]
  · exact (holds_at 1 2).mpr (by norm_num)
  · exact fun kept => absurd ((holds_at 2 2).mp kept) (by norm_num)
  · rw [operator]
    exact ((takes m (some "row") built).1 .atLeast).mpr ⟨both, by simp [Model.LeavesFree, Model.ofParts, m]⟩
  · rw [operator]
    intro taken
    have first := (((takes .empty none .empty).1 .atLeast).mp taken).1 ⟨0⟩ (by simp [complement, written])
    exact Nat.not_lt_zero 0 first
  · intro taken
    have crossed := (((takes m none built).2 _ _).mp taken).1
    exact absurd crossed (by decide)

end Formula

end Milp
