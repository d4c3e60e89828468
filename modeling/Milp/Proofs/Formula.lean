import Milp.Expression.Formula
import Milp.Proofs.Expression

/-!
# What formulas denote

A formula denotes a number for every assignment of its variables. The expression that is built of it
has that number for its value, and a term for each variable that is written in it, also where the
coefficients cancel.

Results:
1. `Represents.addMultiple`, `Represents.scale`, `Represents.addTerm`: what the operations on
   expressions do to the variables that occur and to the value.
2. `Represents.unique`: an expression in canonical form is determined by its variables and values.
3. `eval?_eq_none_iff`: evaluation fails where a variable that occurs has no value, and only there.
4. `Formula.expression_denotes`: all this for the expression of a formula.
-/

namespace Milp

namespace Expression

/-! ## Values and variables -/

section Terms

variable {terms : List (Variable × Rat)} {v w : Variable} {c : Rat} {x : Variable → Rat}

theorem linear_cons (t : Variable × Rat) (terms : List (Variable × Rat)) (x : Variable → Rat) :
    linear (t :: terms) x = t.2 * x t.1 + linear terms x := rfl

theorem linear_addTo (v : Variable) (c : Rat) (terms : List (Variable × Rat)) (x : Variable → Rat) :
    linear (addTo v c terms) x = linear terms x + c * x v := by
  induction terms with
  | nil => simp [addTo, linear]
  | cons first terms ih =>
    obtain ⟨w, d⟩ := first
    unfold addTo
    split
    · simp only [linear_cons]
      ring
    · split
      · rename_i same
        subst same
        simp only [linear_cons]
        ring
      · rw [linear_cons, ih, linear_cons, add_assoc]

theorem linear_foldl_addTo (added : List (Variable × Rat)) (factor : Rat)
    (terms : List (Variable × Rat)) (x : Variable → Rat) :
    linear (added.foldl (fun ts t => addTo t.1 (factor * t.2) ts) terms) x =
      linear terms x + factor * linear added x := by
  induction added generalizing terms with
  | nil => simp [linear]
  | cons t added ih =>
    rw [List.foldl_cons, ih, linear_addTo, linear_cons]
    ring

theorem linear_scale (terms : List (Variable × Rat)) (factor : Rat) (x : Variable → Rat) :
    linear (terms.map fun t => (t.1, t.2 * factor)) x = linear terms x * factor := by
  induction terms with
  | nil => simp [linear]
  | cons t terms ih =>
    rw [List.map_cons, linear_cons, ih, linear_cons]
    ring

/-- The variables of terms to which one is added are theirs and that of the added one. -/
theorem mem_variables_addTo :
    w ∈ (addTo v c terms).map (·.1) ↔ w ∈ terms.map (·.1) ∨ w = v := by
  induction terms with
  | nil => simp [addTo]
  | cons first terms ih =>
    obtain ⟨u, d⟩ := first
    unfold addTo
    split
    · simp [or_comm]
    · split
      · rename_i same
        subst same
        simp
        tauto
      · rw [List.map_cons, List.mem_cons, ih, List.map_cons, List.mem_cons, or_assoc]

theorem mem_variables_foldl_addTo (added : List (Variable × Rat)) (factor : Rat) :
    w ∈ (added.foldl (fun ts t => addTo t.1 (factor * t.2) ts) terms).map (·.1) ↔
      w ∈ terms.map (·.1) ∨ w ∈ added.map (·.1) := by
  induction added generalizing terms with
  | nil => simp
  | cons t added ih =>
    rw [List.foldl_cons, ih, mem_variables_addTo, List.map_cons, List.mem_cons, or_assoc]

end Terms

/-- The value of an expression at an assignment of all variables. -/
def value (e : Expression Rat) (x : Variable → Rat) : Rat :=
  e.constant + linear e.terms x

/-- An expression is in canonical form, some variables occur in it, and it has some values. -/
structure Represents (e : Expression Rat) (vars : List Variable)
    (values : (Variable → Rat) → Rat) : Prop where
  order : Ascending e.terms
  occurring : ∀ v, v ∈ e.occurring ↔ v ∈ vars
  value : ∀ x, e.value x = values x

namespace Represents

variable {e : Expression Rat} {vs ws : List Variable} {f g : (Variable → Rat) → Rat}

/-- What is represented matters up to the order of the variables and pointwise equality. -/
theorem congr (he : e.Represents vs f) (vars : ∀ v, v ∈ vs ↔ v ∈ ws) (values : ∀ x, f x = g x) :
    e.Represents ws g where
  order := he.order
  occurring v := (he.occurring v).trans (vars v)
  value x := (he.value x).trans (values x)

theorem zero : Represents .zero [] fun _ => 0 where
  order := .nil
  occurring _ := .rfl
  value _ := by simp [Expression.value, Expression.zero, ofScalar, linear]

theorem addMultiple (he : e.Represents vs f) (factor : Rat) {terms : List (Variable × Rat)}
    {constant : Rat} (ha : Represents ⟨terms, constant⟩ ws g) :
    (e.addMultiple factor terms constant).Represents (vs ++ ws) fun x => f x + factor * g x where
  order := ascending_foldl_addTo _ _ he.order
  occurring v := by
    rw [List.mem_append, ← he.occurring, ← ha.occurring]
    exact mem_variables_foldl_addTo terms factor
  value x := by
    rw [← he.value, ← ha.value]
    simp only [Expression.value, Expression.addMultiple, linear_foldl_addTo]
    ring

theorem scale (he : e.Represents vs f) (factor : Rat) :
    (e.scale factor).Represents vs fun x => f x * factor where
  order := ascending_scale he.order factor
  occurring v := by
    rw [← he.occurring]
    simp [Expression.occurring, Expression.scale]
  value x := by
    rw [← he.value]
    simp only [Expression.value, Expression.scale, linear_scale]
    ring

theorem addTerm (he : e.Represents vs f) (v : Variable) (c : Rat) :
    (e.addTerm v c).Represents (vs ++ [v]) fun x => f x + c * x v where
  order := ascending_addTo v c he.order
  occurring w := by
    rw [List.mem_append, List.mem_singleton, ← he.occurring]
    exact mem_variables_addTo
  value x := by
    rw [← he.value]
    simp only [Expression.value, Expression.addTerm, linear_addTo]
    ring

theorem addConstant (he : e.Represents vs f) (c : Rat) :
    (e.addConstant c).Represents vs fun x => f x + c where
  order := he.order
  occurring := he.occurring
  value x := by
    rw [← he.value]
    simp only [Expression.value, Expression.addConstant]
    ring

end Represents

/-! ## Canonical forms -/

theorem linear_eq_zero {terms : List (Variable × Rat)} {v : Variable}
    (absent : ∀ t ∈ terms, t.1 ≠ v) : linear terms (fun w => if w = v then 1 else 0) = 0 := by
  refine List.sum_eq_zero fun y hy => ?_
  obtain ⟨t, ht, rfl⟩ := List.mem_map.mp hy
  simp [absent t ht]

/-- At the assignment of one to a variable and zero to all others, terms have its coefficient. -/
theorem linear_indicator {terms : List (Variable × Rat)} (order : Ascending terms)
    {t : Variable × Rat} (ht : t ∈ terms) :
    linear terms (fun v => if v = t.1 then 1 else 0) = t.2 := by
  induction terms with
  | nil => cases ht
  | cons s terms ih =>
    obtain ⟨below, rest⟩ := List.pairwise_cons.mp order
    rw [linear_cons]
    rcases List.mem_cons.mp ht with rfl | ht
    · rw [linear_eq_zero fun u hu same => (below u hu).ne (by rw [same]), if_pos rfl]
      ring
    · have other : s.1 ≠ t.1 := fun same => (below t ht).ne (by rw [same])
      rw [ih rest ht, if_neg other]
      ring

/-- Terms in order are their variables, each with the coefficient that an indicator reads off. -/
theorem terms_eq_map {e : Expression Rat} (order : Ascending e.terms) :
    e.terms = e.occurring.map fun v => (v, linear e.terms fun w => if w = v then 1 else 0) := by
  rw [occurring, List.map_map]
  refine (List.map_id e.terms).symm.trans (List.map_congr_left fun t ht => ?_)
  exact Prod.ext rfl (linear_indicator order ht).symm

theorem occurring_ascending {e : Expression Rat} (order : Ascending e.terms) :
    e.occurring.Pairwise fun v w => v.index < w.index :=
  List.pairwise_map.mpr order

theorem Represents.nodup {e : Expression Rat} {vs : List Variable} {f : (Variable → Rat) → Rat}
    (h : e.Represents vs f) : e.occurring.Nodup :=
  (occurring_ascending h.order).imp fun less same => less.ne (congrArg Variable.index same)

/-- An expression in canonical form is determined by its variables and its values. -/
theorem Represents.unique {e e' : Expression Rat} {vs ws : List Variable}
    {f g : (Variable → Rat) → Rat} (h : e.Represents vs f) (h' : e'.Represents ws g)
    (vars : ∀ v, v ∈ vs ↔ v ∈ ws) (values : ∀ x, f x = g x) : e = e' := by
  have same (x : Variable → Rat) :
      e.constant + linear e.terms x = e'.constant + linear e'.terms x :=
    (h.value x).trans ((values x).trans (h'.value x).symm)
  have constant : e.constant = e'.constant := by simpa [linear] using same fun _ => 0
  have linear_eq (x : Variable → Rat) : linear e.terms x = linear e'.terms x := by
    simpa [constant] using same x
  have occurring : e.occurring = e'.occurring := by
    refine List.Perm.eq_of_pairwise (fun v w _ _ less more => absurd more (Nat.lt_asymm less))
      (occurring_ascending h.order) (occurring_ascending h'.order) ?_
    refine (List.perm_ext_iff_of_nodup h.nodup h'.nodup).mpr fun v => ?_
    exact (h.occurring v).trans ((vars v).trans (h'.occurring v).symm)
  have terms : e.terms = e'.terms := by
    rw [terms_eq_map h.order, terms_eq_map h'.order, occurring]
    simp only [linear_eq]
  obtain ⟨ts, c⟩ := e
  obtain ⟨ts', c'⟩ := e'
  exact congrArg₂ Expression.mk terms constant

/-- Equality of expressions is reflexive in exact arithmetic. -/
theorem same_self (e : Expression Rat) : e.same e = true := by
  have pairs : e.terms.zip e.terms = e.terms.map fun t => (t, t) := by
    rw [List.zip_eq_zipWith, List.zipWith_self]
  simp [same, pairs]

/-! ## Evaluation on a map -/

/-- Evaluation fails where a variable that occurs has no value, and only there. -/
theorem eval?_eq_none_iff {e : Expression Rat} {value : Variable → Option Rat} :
    e.eval? value = none ↔ ∃ v ∈ e.occurring, value v = none := by
  obtain ⟨terms, constant⟩ := e
  rw [eval?, Option.map_eq_none_iff]
  induction terms with
  | nil => simp [occurring]
  | cons t terms ih =>
    have first : occurring ⟨t :: terms, constant⟩ = t.1 :: occurring ⟨terms, constant⟩ := rfl
    simp only [first, List.mem_cons, exists_eq_or_imp, ← ih, List.mapM_cons]
    cases value t.1 with
    | none => simp
    | some y => cases terms.mapM fun t => (value t.1).map (t.2 * ·) <;> simp

/-- Evaluation, where it succeeds, gives the value. -/
theorem Represents.eval? {e : Expression Rat} {vs : List Variable} {f : (Variable → Rat) → Rat}
    (h : e.Represents vs f) {value : Variable → Option Rat} {x : Variable → Rat}
    (assigned : ∀ v ∈ vs, value v = some (x v)) : e.eval? value = some (f x) := by
  rw [← h.value]
  exact eval?_eq_some fun t ht => assigned t.1 ((h.occurring t.1).mp (List.mem_map_of_mem ht))

end Expression

/-! ## Operations -/

namespace Operand

open Expression

/-- An operand has an expression in canonical form, with some variables and some values. -/
def Represents (a : Operand Rat) (vars : List Variable) (values : (Variable → Rat) → Rat) : Prop :=
  Expression.Represents ⟨a.terms, a.constant⟩ vars values

variable {a b : Operand Rat} {vs ws : List Variable} {f g : (Variable → Rat) → Rat}

theorem represents_number (c : Rat) : (number c).Represents [] fun _ => c where
  order := .nil
  occurring _ := .rfl
  value _ := by simp [Expression.value, terms, constant, linear]

theorem represents_var (v : Variable) : (var v).Represents [v] fun x => x v where
  order := List.pairwise_singleton ..
  occurring _ := .rfl
  value _ := by simp [Expression.value, terms, constant, linear]

/-- An operand as an expression has the terms and the constant of the operand. -/
theorem toExpression_eq (a : Operand Rat) : a.toExpression = ⟨a.terms, a.constant⟩ := by
  cases a with
  | number c => rfl
  | var v => simp [toExpression, copy, terms, constant, addTerm, addTo, Expression.zero, ofScalar,
      Expression.addConstant]
  | expression e => rfl

namespace Represents

theorem toExpression (ha : a.Represents vs f) : a.toExpression.Represents vs f := by
  rw [toExpression_eq]
  exact ha

theorem copy (ha : a.Represents vs f) : a.copy.Represents vs f := by
  cases a with
  | number c => exact ha.toExpression
  | var v => exact ha.toExpression
  | expression e =>
    have same : (expression e).copy = e := copy_expression ha.order
    rw [same]
    exact ha

theorem add (ha : a.Represents vs f) (hb : b.Represents ws g) :
    (a + b : Expression Rat).Represents (vs ++ ws) fun x => f x + g x := by
  have general : (Operand.addMultiple a.toExpression 1 b).Represents (vs ++ ws)
      fun x => f x + g x :=
    (ha.toExpression.addMultiple 1 hb).congr (fun _ => .rfl) fun x => by rw [one_mul]
  cases a with
  | var v => exact general
  | expression e => exact general
  | number c =>
    cases b with
    | number d => exact general
    | var v => exact general
    | expression e =>
      -- the number is added to the expression, which comes first
      refine (hb.toExpression.addMultiple 1 ha).congr (fun v => ?_) fun x => ?_
      · rw [List.mem_append, List.mem_append, or_comm]
      · ring

theorem sub (ha : a.Represents vs f) (hb : b.Represents ws g) :
    (a - b : Expression Rat).Represents (vs ++ ws) fun x => f x - g x :=
  (ha.toExpression.addMultiple (-1) hb).congr (fun _ => .rfl) fun x => by ring

theorem mul (ha : a.Represents vs f) (c : Rat) :
    (a * c : Expression Rat).Represents vs fun x => f x * c := by
  cases a with
  | number d => exact ha.toExpression.scale c
  | expression e => exact ha.toExpression.scale c
  | var v =>
    -- a variable is not made an expression first: its coefficient is written down
    have scaled : ((var v : Operand Rat) * c : Expression Rat) =
        (var v).toExpression.scale c := by
      rw [toExpression_eq]
      show Expression.mk [(v, c)] 0 = _
      simp [Expression.scale, terms, constant]
    rw [scaled]
    exact ha.toExpression.scale c

theorem div (ha : a.Represents vs f) (c : Rat) :
    (a / c : Expression Rat).Represents vs fun x => f x / c := by
  have divided : (a / c : Expression Rat) = (a * (1 / c) : Expression Rat) := rfl
  rw [divided]
  exact (ha.mul (1 / c)).congr (fun _ => .rfl) fun x => by ring

theorem neg (ha : a.Represents vs f) : a.neg.Represents vs fun x => - f x :=
  (ha.toExpression.scale (-1)).congr (fun _ => .rfl) fun x => by ring

end Represents

end Operand

/-! ## Formulas -/

namespace Formula

open Expression

mutual

/-- The variables that are written in a formula, also those whose coefficients cancel. -/
def written : Formula Rat → List Variable
  | number _ => []
  | var v => [v]
  | known e => e.occurring
  | add a b => a.written ++ b.written
  | sub a b => a.written ++ b.written
  | mul a _ => a.written
  | div a _ => a.written
  | neg a => a.written
  | convert a => a.written
  | copy a => a.written
  | sum as => allWritten as
  | addMultiple e _ a => e.written ++ a.written
  | scale e _ => e.written
  | addTerm e v _ => e.written ++ [v]
  | addConstant e _ => e.written

/-- The variables that are written in some formulas. -/
def allWritten : List (Formula Rat) → List Variable
  | [] => []
  | a :: as => a.written ++ allWritten as

end

mutual

/-- The number that a formula denotes at an assignment. -/
def denote : Formula Rat → (Variable → Rat) → Rat
  | number n, _ => n.value
  | var v, x => x v
  | known e, x => e.value x
  | add a b, x => a.denote x + b.denote x
  | sub a b, x => a.denote x - b.denote x
  | mul a n, x => a.denote x * n.value
  | div a n, x => a.denote x / n.value
  | neg a, x => - a.denote x
  | convert a, x => a.denote x
  | copy a, x => a.denote x
  | sum as, x => denoteSum as x
  | addMultiple e factor a, x => e.denote x + factor.value * a.denote x
  | scale e factor, x => e.denote x * factor.value
  | addTerm e v c, x => e.denote x + c.value * x v
  | addConstant e c, x => e.denote x + c.value

/-- The sum of what some formulas denote. -/
def denoteSum : List (Formula Rat) → (Variable → Rat) → Rat
  | [], _ => 0
  | a :: as, x => a.denote x + denoteSum as x

end

mutual

/-- The expressions that a formula takes over from before are in canonical form. -/
def Canonical : Formula Rat → Prop
  | number _ => True
  | var _ => True
  | known e => Ascending e.terms
  | add a b => a.Canonical ∧ b.Canonical
  | sub a b => a.Canonical ∧ b.Canonical
  | mul a _ => a.Canonical
  | div a _ => a.Canonical
  | neg a => a.Canonical
  | convert a => a.Canonical
  | copy a => a.Canonical
  | sum as => AllCanonical as
  | addMultiple e _ a => e.Canonical ∧ a.Canonical
  | scale e _ => e.Canonical
  | addTerm e _ _ => e.Canonical
  | addConstant e _ => e.Canonical

/-- The same for some formulas. -/
def AllCanonical : List (Formula Rat) → Prop
  | [] => True
  | a :: as => a.Canonical ∧ AllCanonical as

end

mutual

/-- What a formula builds has the variables and the values of the formula. -/
theorem operand_represents :
    (a : Formula Rat) → a.Canonical → a.operand.Represents a.written a.denote
  | number n, _ => Operand.represents_number n.value
  | var v, _ => Operand.represents_var v
  | known _, order => ⟨order, fun _ => .rfl, fun _ => rfl⟩
  | add a b, ⟨ha, hb⟩ => (operand_represents a ha).add (operand_represents b hb)
  | sub a b, ⟨ha, hb⟩ => (operand_represents a ha).sub (operand_represents b hb)
  | mul a n, ha => (operand_represents a ha).mul n.value
  | div a n, ha => (operand_represents a ha).div n.value
  | neg a, ha => (operand_represents a ha).neg
  | convert a, ha => (operand_represents a ha).copy
  | copy a, ha =>
    have made : (Operand.expression a.operand.toExpression).Represents a.written a.denote :=
      (operand_represents a ha).toExpression
    made.copy
  | sum as, has =>
    (foldl_operands_represents as .zero has).congr (fun _ => .rfl) fun _ => zero_add _
  | addMultiple e factor a, ⟨he, ha⟩ =>
    (operand_represents e he).toExpression.addMultiple factor.value (operand_represents a ha)
  | scale e factor, he => (operand_represents e he).toExpression.scale factor.value
  | addTerm e v c, he => (operand_represents e he).toExpression.addTerm v c.value
  | addConstant e c, he => (operand_represents e he).toExpression.addConstant c.value

/-- Adding what some formulas build, one by one, to an expression. -/
theorem foldl_operands_represents : (as : List (Formula Rat)) → {e : Expression Rat} →
    {vs : List Variable} → {f : (Variable → Rat) → Rat} → e.Represents vs f → AllCanonical as →
    ((operands as).foldl (fun e a => Operand.addMultiple e 1 a) e).Represents
      (vs ++ allWritten as) fun x => f x + denoteSum as x
  | [], _, _, _, he, _ =>
    he.congr (fun v => by rw [allWritten, List.append_nil]) fun x => (add_zero _).symm
  | a :: as, _, _, _, he, ⟨ha, has⟩ =>
    (foldl_operands_represents as (he.addMultiple 1 (operand_represents a ha)) has).congr
      (fun v => by rw [allWritten, List.append_assoc])
      fun x => by rw [denoteSum, one_mul, add_assoc]

end

/-- The expression of a formula is in canonical form, with a term for each variable that is written
in the formula and the values that the formula denotes. -/
theorem expression_represents {a : Formula Rat} (canonical : a.Canonical) :
    a.expression.Represents a.written a.denote :=
  (operand_represents a canonical).toExpression

/-- The expression of a formula keeps one term for each variable that is written in the formula,
zero coefficients included. It evaluates to the number that the formula denotes, and fails to where
one of these variables has no value, and only there. Formulas with the same variables that denote
the same function have equal expressions. -/
theorem expression_denotes {a : Formula Rat} (canonical : a.Canonical) :
    (a.expression.occurring.Nodup ∧ ∀ v, v ∈ a.expression.occurring ↔ v ∈ a.written) ∧
      (∀ (value : Variable → Option Rat) (x : Variable → Rat),
        (∀ v ∈ a.written, value v = some (x v)) →
          a.expression.eval? value = some (a.denote x)) ∧
      (∀ value : Variable → Option Rat,
        a.expression.eval? value = none ↔ ∃ v ∈ a.written, value v = none) ∧
      ∀ b : Formula Rat, b.Canonical → (∀ v, v ∈ a.written ↔ v ∈ b.written) →
        (∀ x, a.denote x = b.denote x) →
          a.expression = b.expression ∧ a.expression.same b.expression = true := by
  have built := expression_represents canonical
  refine ⟨⟨built.nodup, built.occurring⟩, fun value x => built.eval?, fun value => ?_, ?_⟩
  · simp only [eval?_eq_none_iff, built.occurring]
  · intro b hb vars values
    have equal := built.unique (expression_represents hb) vars values
    exact ⟨equal, by rw [equal, same_self]⟩

/-- Three less two variables, written as a difference of a difference. -/
def difference : Formula Rat :=
  .sub (.sub (.number (.unsigned 3)) (.var ⟨0⟩)) (.var ⟨1⟩)

/-- The same as a sum, with a variable that cancels once. -/
def collected : Formula Rat :=
  .sum [.mul (.var ⟨0⟩) (.signed (-1)), .sub (.var ⟨0⟩) (.var ⟨0⟩), .number (.scalar 3),
    .neg (.div (.mul (.var ⟨1⟩) (.signed 2)) (.scalar 2))]

/-- The two ways to write a difference are built into one expression. -/
theorem difference_eq_collected :
    difference.Canonical ∧ difference.expression = collected.expression ∧
      difference.expression.eval? (fun v => if v.index < 2 then some 1 else none) = some 1 := by
  have canonical : difference.Canonical := ⟨⟨trivial, trivial⟩, trivial⟩
  have canonical' : collected.Canonical := ⟨trivial, ⟨trivial, trivial⟩, trivial, trivial, trivial⟩
  have three : ((Number.unsigned 3).value : Rat) = 3 := rfl
  have minus : ((Number.signed (-1)).value : Rat) = -1 := rfl
  have two : ((Number.signed 2).value : Rat) = 2 := rfl
  have exact (x : Rat) : (Number.scalar x).value = x := rfl
  have vars (v : Variable) : v ∈ difference.written ↔ v ∈ collected.written := by
    simp [difference, collected, written, allWritten]
  obtain ⟨-, values, -, unique⟩ := expression_denotes canonical
  refine ⟨canonical, (unique collected canonical' vars fun x => ?_).1, ?_⟩
  · simp only [difference, collected, denote, denoteSum, three, minus, two, exact]
    ring
  · rw [values _ (fun _ => 1) (by decide)]
    simp only [difference, denote, three]
    norm_num

end Formula

end Milp
