import Milp.Proofs.Reading
import Milp.Simplex.State

/-!
# Points of boxes and of linear programs

What it means for values of the columns to lie in a box and to keep the rows, and what it means for
the answers about a linear program to be right. A box of limits that stand for exact ones is a box of
exact limits to what lies in it.
-/

namespace Milp

variable {n m : Nat}

deriving instance DecidableEq for Box

namespace Box

/-- A scalar lies between the limits of a column. -/
def Admits (box : Box ExtendedRat n) (j : Fin n) (q : Rat) : Prop :=
  box.lower[j] ≤ .finite q ∧ .finite q ≤ box.upper[j]

instance (box : Box ExtendedRat n) (j : Fin n) (q : Rat) : Decidable (box.Admits j q) :=
  inferInstanceAs (Decidable (_ ∧ _))

/-- No limits are crossed. -/
def Ordered (box : Box ExtendedRat n) : Prop :=
  ∀ j : Fin n, box.lower[j] ≤ box.upper[j]

instance (box : Box ExtendedRat n) : Decidable box.Ordered :=
  inferInstanceAs (Decidable (∀ _, _))

/-- The values of some columns lie between their limits. -/
def HoldsOn (P : Fin n → Prop) (box : Box ExtendedRat n) (z : Vector Rat n) : Prop :=
  ∀ j, P j → box.Admits j z[j]

/-- All values lie between their limits. -/
def Holds (box : Box ExtendedRat n) (z : Vector Rat n) : Prop :=
  ∀ j : Fin n, box.Admits j z[j]

instance (box : Box ExtendedRat n) (z : Vector Rat n) : Decidable (box.Holds z) :=
  inferInstanceAs (Decidable (∀ _, _))

theorem holdsOn_true {box : Box ExtendedRat n} {z : Vector Rat n} :
    box.HoldsOn (fun _ => True) z ↔ box.Holds z :=
  ⟨fun h j => h j trivial, fun h j _ => h j⟩

/-- The limits of a box lie within those of another. -/
def Inside (inner outer : Box ExtendedRat n) : Prop :=
  ∀ j : Fin n, outer.lower[j] ≤ inner.lower[j] ∧ inner.upper[j] ≤ outer.upper[j]

theorem Inside.refl (box : Box ExtendedRat n) : box.Inside box :=
  fun _ => ⟨le_rfl, le_rfl⟩

theorem Inside.trans {a b c : Box ExtendedRat n} (hab : a.Inside b) (hbc : b.Inside c) :
    a.Inside c :=
  fun j => ⟨(hbc j).1.trans (hab j).1, (hab j).2.trans (hbc j).2⟩

theorem Inside.admits {inner outer : Box ExtendedRat n} (h : inner.Inside outer) {j : Fin n}
    {q : Rat} (admits : inner.Admits j q) : outer.Admits j q :=
  ⟨(h j).1.trans admits.1, admits.2.trans (h j).2⟩

/-- The limits of a column leave room for a scalar, unless they are crossed: neither is the infinity
of the other side. -/
def Roomy (box : Box ExtendedRat n) (j : Fin n) : Prop :=
  box.lower[j] ≠ .above ∧ box.upper[j] ≠ .below

instance (box : Box ExtendedRat n) (j : Fin n) : Decidable (box.Roomy j) :=
  inferInstanceAs (Decidable (_ ∧ _))

/-- No limit is infinite. -/
def Finite (box : Box ExtendedRat n) : Prop :=
  ∀ j : Fin n, Limits.isFinite box.lower[j] = true ∧ Limits.isFinite box.upper[j] = true

instance (box : Box ExtendedRat n) : Decidable box.Finite :=
  inferInstanceAs (Decidable (∀ _, _))

theorem Finite.lower {box : Box ExtendedRat n} (h : box.Finite) (j : Fin n) : box.lower[j] = .finite box.lower[j].toRat :=
  (Exact.finite_toScalar (h j).1).symm

theorem Finite.upper {box : Box ExtendedRat n} (h : box.Finite) (j : Fin n) : box.upper[j] = .finite box.upper[j].toRat :=
  (Exact.finite_toScalar (h j).2).symm

theorem Finite.roomy {box : Box ExtendedRat n} (h : box.Finite) (j : Fin n) : box.Roomy j := by
  rw [Roomy, h.lower, h.upper]
  exact ⟨nofun, nofun⟩

section Reading

variable {L : Type} [Reading L]

/-- The limits that the limits of a box stand for. -/
def reading (box : Box L n) : Box ExtendedRat n where
  lower := .ofFn fun j => Reading.lower box.lower[j]
  upper := .ofFn fun j => Reading.upper box.upper[j]

theorem getElem_reading (box : Box L n) (j : Fin n) :
    box.reading.lower[j] = Reading.lower box.lower[j] ∧
      box.reading.upper[j] = Reading.upper box.upper[j] := by
  simp [reading]

end Reading

theorem ext_limits {a b : Box ExtendedRat n}
    (h : ∀ j : Fin n, a.lower[j] = b.lower[j] ∧ a.upper[j] = b.upper[j]) : a = b := by
  obtain ⟨al, au⟩ := a
  obtain ⟨bl, bu⟩ := b
  rw [Box.mk.injEq]
  exact ⟨Vector.ext fun j hj => (h ⟨j, hj⟩).1, Vector.ext fun j hj => (h ⟨j, hj⟩).2⟩

/-- Exact limits stand for themselves. -/
@[simp]
theorem reading_exact (box : Box ExtendedRat n) : box.reading = box :=
  ext_limits box.getElem_reading

end Box

/-- Values stand for the rationals of a point. -/
def Stands (L : Type) {K : Type} [Scalar K] [Limits L K] [Reading L] (values : Vector K n)
    (z : Vector Rat n) : Prop :=
  ∀ j : Fin n, Reading.read? (Limits.ofScalar values[j] : L) = some (.finite z[j])

theorem stands_exact {values z : Vector Rat n} : Stands ExtendedRat values z ↔ values = z := by
  refine ⟨fun stands => Vector.ext fun j hj => ?_, fun same j => same ▸ rfl⟩
  exact ExtendedRat.finite.inj (Option.some.inj (stands ⟨j, hj⟩))

/-- Values of the columns keep every row. -/
def Relaxation.Satisfies (p : Relaxation Rat ExtendedRat n m) (z : Vector Rat n) : Prop :=
  p.rows.Holds (SimplexState.activities p z)

instance (p : Relaxation Rat ExtendedRat n m) (z : Vector Rat n) : Decidable (p.Satisfies z) :=
  inferInstanceAs (Decidable (p.rows.Holds _))

/-- The answers of a solver are right where it gives one: an optimum is the lowest cost of the points
of the box that keep the rows, and a box without solution has none. -/
structure Solver.Exact (solver : Solver Rat ExtendedRat n) (p : Relaxation Rat ExtendedRat n m) :
    Prop where
  objective : ∀ box objective values, (solver box).verdict = .optimal objective values →
    objective = p.objectiveOf values.toList
  holds : ∀ box objective values, (solver box).verdict = .optimal objective values →
    box.Holds values
  satisfies : ∀ box objective values, (solver box).verdict = .optimal objective values →
    p.Satisfies values
  least : ∀ box objective values, (solver box).verdict = .optimal objective values →
    ∀ z, box.Holds z → p.Satisfies z → p.costOf values.toList ≤ p.costOf z.toList
  infeasible : ∀ box, (solver box).verdict = .infeasible →
    ∀ z, box.Holds z → ¬ p.Satisfies z

/-- The optima of a solver are optima: its values lie in the box and keep the rows, and no other such
values cost less. Nothing is said of boxes without optimum. -/
structure Solver.Minimises (solver : Solver Rat ExtendedRat n) (p : Relaxation Rat ExtendedRat n m) :
    Prop where
  objective : ∀ box objective values, (solver box).verdict = .optimal objective values →
    objective = p.objectiveOf values.toList
  holds : ∀ box objective values, (solver box).verdict = .optimal objective values →
    box.Holds values
  satisfies : ∀ box objective values, (solver box).verdict = .optimal objective values →
    p.Satisfies values
  least : ∀ box objective values, (solver box).verdict = .optimal objective values →
    ∀ z, box.Holds z → p.Satisfies z → p.costOf values.toList ≤ p.costOf z.toList

section Clamping

variable {K L : Type} [Scalar K] [Limits L K]

/-- The values of an optimum have been moved between the limits of the box, none of which are
crossed. -/
def Solver.Clamps (solver : Solver K L n) : Prop :=
  ∀ box objective values, (solver box).verdict = .optimal objective values →
    (∀ j : Fin n, ¬ box.upper[j] < box.lower[j]) ∧ ∀ j : Fin n, ∃ v : K,
      values[j] = Limits.lowerTo (Limits.raiseTo v box.lower[j]) box.upper[j]

namespace Solver.Clamps

variable [Readable L K] {solver : Solver K L n} (clamps : solver.Clamps) {box : Box L n}
  {objective : K} {values : Vector K n} (optimal : (solver box).verdict = .optimal objective values)
include clamps optimal

theorem ordered : box.reading.Ordered := by
  intro j
  rw [(box.getElem_reading j).1, (box.getElem_reading j).2]
  exact Readable.lower_le_upper ((clamps box objective values optimal).1 j)

variable {j : Fin n} (roomy : box.reading.Roomy j)
include roomy

/-- What the values stand for lies between the limits. -/
theorem between {p : ExtendedRat} (read : Reading.read? (Limits.ofScalar values[j] : L) = some p) :
    box.reading.lower[j] ≤ p ∧ p ≤ box.reading.upper[j] := by
  obtain ⟨order, moved⟩ := clamps box objective values optimal
  obtain ⟨v, hv⟩ := moved j
  rw [Box.Roomy, (box.getElem_reading j).1, (box.getElem_reading j).2] at roomy
  rw [(box.getElem_reading j).1, (box.getElem_reading j).2]
  rw [hv] at read
  exact Readable.clamp_mem roomy.1 roomy.2 (order j) read

omit roomy in
theorem holds (roomy : ∀ j, box.reading.Roomy j) {z : Vector Rat n} (stands : Stands L values z) :
    box.reading.Holds z :=
  fun j => clamps.between optimal (roomy j) (stands j)

/-- What is moved to a limit is defined if the limit is. -/
theorem defined (limit : box.reading.lower[j] ≠ .below) :
    Reading.read? (Limits.ofScalar values[j] : L) ≠ none := by
  obtain ⟨v, hv⟩ := (clamps box objective values optimal).2 j
  rw [Box.Roomy, (box.getElem_reading j).1, (box.getElem_reading j).2] at roomy
  rw [(box.getElem_reading j).1, Reading.lower] at limit
  rw [hv]
  refine Readable.clamp_defined roomy.1 roomy.2 fun none => limit ?_
  rw [none, Option.getD_none]

omit roomy in
/-- What is moved between rationals is a rational between them. -/
theorem between_finite {a b : Rat} (lower : box.reading.lower[j] = .finite a)
    (upper : box.reading.upper[j] = .finite b) :
    ∃ q, Reading.read? (Limits.ofScalar values[j] : L) = some (.finite q) ∧ a ≤ q ∧ q ≤ b := by
  have roomy : box.reading.Roomy j := by simp [Box.Roomy, lower, upper]
  obtain ⟨p, read⟩ : ∃ p, Reading.read? (Limits.ofScalar values[j] : L) = some p :=
    Option.ne_none_iff_exists'.mp (clamps.defined optimal roomy (by simp [lower]))
  obtain ⟨above, below⟩ := clamps.between optimal roomy read
  rw [lower] at above
  rw [upper] at below
  cases p with
  | below => exact absurd above (ExtendedRat.not_finite_le_below _)
  | above => exact absurd below (ExtendedRat.not_above_le_finite _)
  | finite q =>
    exact ⟨q, read, ExtendedRat.finite_le_finite.mp above, ExtendedRat.finite_le_finite.mp below⟩

omit roomy in
theorem exists_stands (limits : box.reading.Finite) : ∃ z, Stands L values z := by
  choose z stands _ using fun j => clamps.between_finite optimal (limits.lower j) (limits.upper j)
  exact ⟨.ofFn z, fun j => by simpa using stands j⟩

end Solver.Clamps

end Clamping

end Milp
