import Milp.Proofs.Search.Within
import Milp.Proofs.Solve

/-!
# Solutions lie within bounds

Result: `Model.solution_within`, a solution has one value for each variable, within its bounds and an
integer where that is required, up to the tolerance of integrality only at the bounds of integer
variables. So validation finds at most constraints that do not hold.
-/

namespace Milp

variable {n m : Nat}

/-! ## Tolerated values -/

namespace Tolerance

variable {t : Tolerance} {l u : ExtendedRat} {v : Rat}

theorem meets_of_near {a : Rat} (near : |a - v| ≤ t.epsilonOf (ExtendedRat.finite a)) :
    t.meets (ExtendedRat.finite a) v = true := by
  unfold meets
  rw [Bool.or_eq_true, decide_eq_true_iff]
  refine .inr (ExtendedRat.finite_le_finite.mpr ?_)
  show Scalar.abs (a - v) ≤ _
  rwa [Exact.abs_eq]

theorem isAtLeast_of_near (near : Limits.sub l (t.epsilonOf l) ≤ .finite v) :
    t.isAtLeast v l = true := by
  unfold isAtLeast
  rw [Bool.or_eq_true, decide_eq_true_iff]
  cases l with
  | below => exact .inl (ExtendedRat.below_le _)
  | above => exact absurd near (ExtendedRat.not_above_le_finite v)
  | finite a =>
    have shifted : a - t.epsilonOf (ExtendedRat.finite a) ≤ v :=
      ExtendedRat.finite_le_finite.mp near
    rcases le_or_gt a v with inside | outside
    · exact .inl (ExtendedRat.finite_le_finite.mpr inside)
    · refine .inr (meets_of_near ?_)
      rw [abs_of_pos (sub_pos.mpr outside)]
      linarith

theorem isAtMost_of_near (near : .finite v ≤ Limits.add u (t.epsilonOf u)) :
    t.isAtMost v u = true := by
  unfold isAtMost
  rw [Bool.or_eq_true, decide_eq_true_iff]
  cases u with
  | above => exact .inl (ExtendedRat.le_above _)
  | below => exact absurd near (ExtendedRat.not_finite_le_below v)
  | finite a =>
    have shifted : v ≤ a + t.epsilonOf (ExtendedRat.finite a) :=
      ExtendedRat.finite_le_finite.mp near
    rcases le_or_gt v a with inside | outside
    · exact .inl (ExtendedRat.finite_le_finite.mpr inside)
    · refine .inr (meets_of_near ?_)
      rw [abs_of_neg (sub_neg.mpr outside)]
      linarith

theorem isBetween_of_near (lower : Limits.sub l (t.epsilonOf l) ≤ .finite v)
    (upper : .finite v ≤ Limits.add u (t.epsilonOf u)) : t.isBetween l v u = true := by
  simp [isBetween, Scalar.isUndefined, isAtLeast_of_near lower, isAtMost_of_near upper]

theorem isIntegral_intCast (t : Tolerance) (i : Int) : t.isIntegral (i : Rat) = true := by
  simp [isIntegral, within, Scalar.isFinite, Exact.round_intCast]

end Tolerance

/-! ## The bounds of the root -/

namespace SearchTask

variable {k : SearchTask Rat ExtendedRat n m} {j : Fin n} {v : Rat}

/-- What lies within the bounds of the root lies within those of the problem, up to the tolerance at
integer columns. -/
theorem admits_of_box (h : k.box.Admits j v) :
    (k.isInteger j = false → k.relaxation.box.Admits j v) ∧
    (k.isInteger j = true →
      Limits.sub k.relaxation.box.lower[j]
          (k.config.integrality.epsilonOf k.relaxation.box.lower[j]) ≤ .finite v ∧
        .finite v ≤ Limits.add k.relaxation.box.upper[j]
          (k.config.integrality.epsilonOf k.relaxation.box.upper[j])) := by
  obtain ⟨lower, upper⟩ := h
  simp only [box, Vector.getElem_coordinate, Vector.getElem_ofFn, Fin.eta] at lower upper
  constructor
  · intro hj
    simp only [hj, Bool.false_eq_true, if_false] at lower upper
    exact ⟨lower, upper⟩
  · intro hj
    simp only [hj, if_true] at lower upper
    exact ⟨(Exact.sub_le_ceil _ _).trans lower, upper.trans (Exact.floor_le_add _ _)⟩

/-- The values of a solution lie within the bounds of the root, with integers in the integer columns. -/
theorem solution_proper (clamps : k.solver.Clamps) (roomy : ∀ j, k.relaxation.box.Roomy j)
    {names : List String} {solution : Solution Rat}
    (h : (k.result names).solution = some solution) :
    ∃ values, k.box.Holds values ∧ (∀ j, k.isInteger j = true → ∃ i : Int, values[j] = i) ∧
      solution.values = values.toList := by
  obtain ⟨i, incumbent, rfl⟩ := incumbent_of_solution h
  have room (j : Fin n) : k.box.reading.Roomy j :=
    roomy_box (by rw [Box.reading_exact]; exact roomy j)
  obtain ⟨z, proper⟩ :=
    proper_of_reached clamps k.finite_exact room (k.rounds_reached roundLimit) incumbent
  obtain rfl := stands_exact.mp proper.stands
  exact ⟨i.values, by simpa using proper.inside, proper.integral, rfl⟩

end SearchTask

/-! ## Solutions of models -/

namespace Model

/-- Every variable that is a number can lie between its bounds: none of the infinities stands on the
wrong side. -/
def Roomy (m : Model Rat ExtendedRat) : Prop :=
  ∀ d ∈ m.definitions, d.lower ≠ .above ∧ d.upper ≠ .below

instance (m : Model Rat ExtendedRat) : Decidable m.Roomy :=
  inferInstanceAs (Decidable (∀ _ ∈ _, _))

/-- The value of a variable lies within its bounds; if it has to be an integer, it is one, and lies
within the bounds up to the tolerance. -/
structure ValueWithin (c : Config Rat) (d : Definition ExtendedRat) (v : Rat) : Prop where
  continuous : c.relax = true ∨ d.domain.isInteger = false → d.lower ≤ .finite v ∧ .finite v ≤ d.upper
  integer : c.relax = false → d.domain.isInteger = true → (∃ z : Int, v = z) ∧
    Limits.sub d.lower (c.integrality.epsilonOf d.lower) ≤ .finite v ∧
    .finite v ≤ Limits.add d.upper (c.integrality.epsilonOf d.upper)

theorem ValueWithin.isBetween {c : Config Rat} {d : Definition ExtendedRat} {v : Rat}
    (h : ValueWithin c d v) : c.integrality.isBetween d.lower v d.upper = true := by
  cases relax : c.relax with
  | true =>
    obtain ⟨lower, upper⟩ := h.continuous (.inl relax)
    exact c.integrality.isBetween_of_mem lower upper
  | false =>
    cases integer : d.domain.isInteger with
    | false =>
      obtain ⟨lower, upper⟩ := h.continuous (.inr integer)
      exact c.integrality.isBetween_of_mem lower upper
    | true =>
      obtain ⟨-, lower, upper⟩ := h.integer relax integer
      exact Tolerance.isBetween_of_near lower upper

/-- Validation finds nothing wrong with a variable whose value lies within its bounds. -/
theorem ValueWithin.violations {c : Config Rat} {e : Entry Rat ExtendedRat} {v : Rat} {index : Nat}
    {value : Variable → Option Rat} (h : ValueWithin c e.definition v)
    (valued : value ⟨index⟩ = some v) :
    boundViolations c.integrality value e index = [] ∧
      (c.relax = false → integralityViolations c.integrality value e index = []) := by
  constructor
  · unfold boundViolations
    simp [valued, Model.isBetween, h.isBetween]
  · intro relax
    unfold integralityViolations
    cases integer : e.definition.domain.isInteger with
    | false => simp
    | true =>
      obtain ⟨⟨z, rfl⟩, -⟩ := h.integer relax integer
      simp [valued, Tolerance.isIntegral_intCast]

/-- Where every value lies within its bounds, validation finds nothing but constraints. -/
theorem constraint_of_mem_violations {m : Model Rat ExtendedRat} {c : Config Rat}
    {value : Variable → Option Rat}
    (within : ∀ i d, m.definitions[i]? = some d → ∃ v, value ⟨i⟩ = some v ∧ ValueWithin c d v)
    {violation : Violation Rat ExtendedRat}
    (mem : violation ∈ m.violations c.integrality (!c.relax) value) :
    ∃ index name activity lower upper,
      violation = .constraint index name activity lower upper := by
  rcases List.mem_append.mp mem with broken | wrong
  · obtain ⟨⟨constraint, index⟩, -, broken⟩ := List.mem_flatMap.mp broken
    unfold constraintViolations at broken
    dsimp only at broken
    split at broken
    · cases broken
    · exact ⟨_, _, _, _, _, List.mem_singleton.mp broken⟩
  · obtain ⟨⟨e, index⟩, entry, wrong⟩ := List.mem_flatMap.mp wrong
    have here : m.entries[index]? = some e := by
      simpa using List.mem_zipIdx_iff_getElem?.mp entry
    obtain ⟨v, valued, inside⟩ := within index e.definition (getElem?_entries.mp here).1
    obtain ⟨bounds, integrality⟩ := inside.violations valued
    dsimp only at wrong
    rw [bounds, List.nil_append] at wrong
    split at wrong
    · rename_i strict
      rw [integrality (by simpa using strict)] at wrong
      cases wrong
    · cases wrong

/-- A value that lies within the bounds of the root lies within those of its variable. -/
theorem valueWithin_of_admits {m : Model Rat ExtendedRat} {direction : Direction} {c : Config Rat}
    {clock : Nat → Duration} {j : Fin m.definitions.size} {v : Rat}
    (inside : ((m.relaxation direction).task c clock).box.Admits j v)
    (integral : ((m.relaxation direction).task c clock).isInteger j = true → ∃ z : Int, v = z) :
    ValueWithin c (m.columnDefinition j) v := by
  obtain ⟨lower, upper, domain⟩ := m.columns_relaxation direction j
  have isInteger : ((m.relaxation direction).task c clock).isInteger j =
      (!c.relax && (m.columnDefinition j).domain.isInteger) := by
    rw [← domain]
    rfl
  obtain ⟨exactly, nearly⟩ := SearchTask.admits_of_box inside
  rw [isInteger] at exactly nearly integral
  simp only [Relaxation.task, Box.Admits, lower, upper] at exactly nearly
  refine ⟨fun h => exactly ?_, fun relax integer => ?_⟩
  · rcases h with h | h <;> simp [h]
  · have both : (!c.relax && (m.columnDefinition j).domain.isInteger) = true := by
      simp [relax, integer]
    exact ⟨integral both, nearly both⟩

/-- A solution has one value for each variable, within its bounds. Integer variables have integers,
within the bounds up to the tolerance. So validation with that tolerance finds at most constraints
that do not hold. -/
theorem solution_within (m : Model Rat ExtendedRat) (direction : Direction) (c : Config Rat)
    (clock : Nat → Duration) (roomy : m.Roomy)
    (solved : (m.solveTimed direction c clock).solution.isSome = true) :
    let r := m.solveTimed direction c clock
    r.values.length = m.definitions.size ∧
    (∀ (i : Nat) (d : Definition ExtendedRat) (v : Rat), m.definitions[i]? = some d →
      r.values[i]? = some v → ValueWithin c d v) ∧
    ∀ violation ∈ m.violations c.integrality (!c.relax) r.value?,
      ∃ index name activity lower upper,
        violation = .constraint index name activity lower upper := by
  intro r
  obtain ⟨solution, found⟩ := Option.isSome_iff_exists.mp solved
  have room (j : Fin m.definitions.size) : (m.relaxation direction).box.Roomy j := by
    obtain ⟨lower, upper, -⟩ := m.columns_relaxation direction j
    rw [Box.Roomy, lower, upper]
    exact roomy _ (m.columnDefinition_mem j)
  obtain ⟨z, holds, integral, same⟩ :=
    SearchTask.solution_proper ((m.relaxation direction).clamps_solver c) room found
  have values : r.values = z.toList := (Result.values_of_solution found).trans same
  have within (i : Nat) (d : Definition ExtendedRat) (here : m.definitions[i]? = some d) :
      ∃ v, r.values[i]? = some v ∧ ValueWithin c d v := by
    obtain ⟨inside, rfl⟩ := Array.getElem?_eq_some_iff.mp here
    let j : Fin m.definitions.size := ⟨i, inside⟩
    refine ⟨z[j], ?_, valueWithin_of_admits (holds j) (integral j)⟩
    rw [values]
    simp [j, inside]
  refine ⟨?_, ?_, ?_⟩
  · rw [values, Vector.length_toList]
  · intro i d v here valued
    obtain ⟨w, hw, inside⟩ := within i d here
    obtain rfl := Option.some.inj (hw.symm.trans valued)
    exact inside
  · intro violation mem
    exact constraint_of_mem_violations within mem

/-- An integer `x` from a little above 2 to 10, and `y` from 0 to 1, with `x - y` as the objective. -/
def nearlyTwo : Model Rat ExtendedRat :=
  .ofParts
    #[⟨"x", ⟨some "x", .integer, .finite 2.0000005, .finite 10⟩, none⟩,
      ⟨"y", ⟨some "y", .continuous, .finite 0, .finite 1⟩, none⟩]
    #[]
    ⟨[(⟨0⟩, 1), (⟨1⟩, -1)], 0⟩

/-- The tolerance is used: `x = 2` is below its lower bound, and passes validation. -/
theorem solution_within_nearlyTwo :
    nearlyTwo.Roomy ∧
    (nearlyTwo.solveTimed .minimise .standard fun _ => ⟨0⟩).solution.isSome = true ∧
    (nearlyTwo.solveTimed .minimise .standard fun _ => ⟨0⟩).values = [2, 1] ∧
    ValueWithin .standard ⟨some "x", .integer, .finite 2.0000005, .finite 10⟩ 2 ∧
    ¬ ExtendedRat.finite 2.0000005 ≤ .finite 2 ∧
    ValueWithin .standard ⟨some "y", .continuous, .finite 0, .finite 1⟩ 1 := by
  have roomy : nearlyTwo.Roomy := by decide +kernel
  have solved : (nearlyTwo.solveTimed .minimise .standard fun _ => ⟨0⟩).solution.isSome = true := by
    decide +kernel
  have values : (nearlyTwo.solveTimed .minimise .standard fun _ => ⟨0⟩).values = [2, 1] := by
    decide +kernel
  obtain ⟨-, within, -⟩ := solution_within nearlyTwo .minimise .standard (fun _ => ⟨0⟩) roomy solved
  simp only [values] at within
  exact ⟨roomy, solved, values, within 0 _ 2 (by simp [nearlyTwo, ofParts]) rfl, by decide +kernel,
    within 1 _ 1 (by simp [nearlyTwo, ofParts]) rfl⟩

end Model

end Milp
