import Milp.Proofs.Solve.History

/-!
# Committing a solution

What a solve finds depends on what it is asked only: definitions, names, constraints and objective, not
on the values that the model holds. A solution has one value for each variable in the order of the
variables, so that assigning it fills the model and forgets what was there before.

Results:
1. `Result.valueOf?_eq`: the value of a name is the value at the first place of the name.
2. `Revalued.solve_eq`, `Revalued.assignAll_eq`: solving and assigning do not see the values before.
3. `fst_optimise`: optimising assigns the values of the result, whether it has a solution or not.
4. `optimise_commits`: what optimising changes, and that doing it again changes nothing.
-/

namespace Milp

variable {K L : Type}

/-! ## Values by name -/

theorem lookup_zip {α : Type} (names : List String) (values : List α) (name : String) :
    (names.zip values).lookup name =
      (names.findIdx? (· == name)).bind fun i => values[i]? := by
  induction names generalizing values with
  | nil => simp
  | cons first names ih =>
    cases values with
    | nil => simp
    | cons x values =>
      rw [List.zip_cons_cons, List.lookup_cons, List.findIdx?_cons]
      by_cases here : first = name
      · simp [here]
      · have other : (name == first) = false := by simpa using Ne.symm here
        rw [other, ih, if_neg (by simpa using here), Option.bind_map]
        rfl

/-- The value of a name is the value at the first place of the name, if there is one for it. -/
theorem Result.valueOf?_eq (r : Result K L) (name : String) :
    r.valueOf? name = (r.names.findIdx? (· == name)).bind fun i => r.values[i]? :=
  lookup_zip ..

namespace Model

variable {m m₂ : Model K L}

/-- The index finds the first place of a name, since it is the only one. -/
theorem Coherent.variableNamed?_eq (h : m.Coherent) (name : String) :
    m.variableNamed? name = (m.names.findIdx? (· == name)).map Variable.mk := by
  cases first : m.names.findIdx? (· == name) with
  | none =>
    rw [Option.map_none, h.variableNamed?_eq_none_iff]
    rw [List.findIdx?_eq_none_iff] at first
    intro taken
    have other := first name (Array.mem_toList_iff.mpr taken)
    simp at other
  | some i =>
    obtain ⟨inside, here, -⟩ := List.findIdx?_eq_some_iff_getElem.mp first
    have label : m.labels[i]? = some name := by
      rw [← Array.getElem?_toList]
      exact (List.getElem?_eq_getElem inside).trans (congrArg some (by simpa using here))
    exact (h.named name ⟨i⟩).mpr label

theorem Coherent.index_lt (h : m.Coherent) {name : String} {v : Variable}
    (found : m.variableNamed? name = some v) : v.index < m.definitions.size :=
  h.labels ▸ (Array.getElem?_eq_some_iff.mp ((h.named name v).mp found)).1

/-! ## Assigning a list of values -/

theorem getElem?_assignAll (m : Model K L) (values : List K) (i : Nat) :
    (m.assignAll values).assigned[i]? = m.assigned[i]?.map values[i]?.or := by
  simp [assignAll]

theorem assignAll_nil (m : Model K L) : m.assignAll [] = m := by
  have same : m.assigned.mapIdx (fun _ value => value) = m.assigned :=
    Array.ext (by simp) (by simp)
  simpa [assignAll] using congrArg (fun assigned => { m with assigned }) same

/-- Enough values leave no variable without one. -/
theorem isSome_of_mem_assignAll {values : List K} (enough : values.length = m.assigned.size) :
    ∀ x ∈ (m.assignAll values).assigned, x.isSome = true := by
  intro x hx
  obtain ⟨i, here⟩ := Array.mem_iff_getElem?.mp hx
  rw [getElem?_assignAll, Option.map_eq_some_iff] at here
  obtain ⟨before, found, rfl⟩ := here
  have inside : i < values.length := enough ▸ (Array.getElem?_eq_some_iff.mp found).1
  simp [List.getElem?_eq_getElem inside]

/-- Enough values are the values of the variables. -/
theorem value?_assignAll [Scalar K] {values : List K} (enough : values.length = m.assigned.size)
    (v : Variable) : (m.assignAll values).value? v = values[v.index]? := by
  rw [value?, getElem?_assignAll]
  by_cases inside : v.index < m.assigned.size
  · simp [inside, enough]
  · rw [Array.getElem?_eq_none (Nat.le_of_not_lt inside),
      List.getElem?_eq_none (enough ▸ Nat.le_of_not_lt inside)]
    rfl

theorem Revalued.symm (same : m.Revalued m₂) : m₂.Revalued m := by
  obtain ⟨same, size⟩ := same
  refine ⟨?_, size.symm⟩
  rw [same]

/-- Enough values do away with the values before. -/
theorem Revalued.assignAll_eq (same : m.Revalued m₂) {values : List K}
    (enough : values.length = m.assigned.size) : m₂.assignAll values = m.assignAll values := by
  have assigned : (m₂.assignAll values).assigned = (m.assignAll values).assigned := by
    refine Array.ext (by simp [assignAll, same.size]) fun i inside₂ inside => ?_
    have inside : i < values.length := by
      rw [enough]
      simpa [assignAll] using inside
    simp [assignAll, List.getElem?_eq_getElem inside]
  have rest : m₂.assignAll values = { m.assignAll values with
      assigned := (m₂.assignAll values).assigned } := by
    conv_lhs => rw [assignAll, same.same]
    rfl
  rw [rest, assigned]

end Model

/-! ## Solving -/

section Solving

variable [Scalar K] [Limits L K]

namespace Model

variable {m m₂ : Model K L}

theorem hasSolution_solve (m : Model K L) (direction : Direction) (c : Config K) :
    (m.solve direction c).status.hasSolution = (m.solve direction c).solution.isSome :=
  SearchTask.hasSolution_result ..

/-- A solution has one value for each variable. -/
theorem length_values_solve {direction : Direction} {c : Config K}
    (solved : (m.solve direction c).solution.isSome = true) :
    (m.solve direction c).values.length = m.definitions.size :=
  have promised := (hasSolution_solve m direction c).trans solved
  ((SearchTask.result_solution _ m.names).1 promised).2

/-- Without a solution there are no values. -/
theorem values_of_unsolved {direction : Direction} {c : Config K}
    (unsolved : (m.solve direction c).solution = none) : (m.solve direction c).values = [] :=
  SearchTask.values_of_unsolved unsolved

/-- What a solve finds does not depend on the values of the model. -/
theorem Revalued.solve_eq (same : m.Revalued m₂) (direction : Direction) (c : Config K) :
    m₂.solve direction c = m.solve direction c := by
  rw [same.same]
  rfl

/-! ## Optimising -/

theorem snd_optimise (m : Model K L) (direction : Direction) (c : Config K) :
    (m.optimise direction c).2 = m.solve direction c :=
  rfl

/-- Optimising assigns the values of the result: without a solution there are none to assign. -/
theorem fst_optimise (m : Model K L) (direction : Direction) (c : Config K) :
    (m.optimise direction c).1 = m.assignAll (m.solve direction c).values := by
  rw [optimise]
  split
  · rfl
  · rename_i unsolved
    rw [hasSolution_solve, Option.not_isSome_iff_eq_none] at unsolved
    rw [values_of_unsolved unsolved, assignAll_nil]

/-- One model is another to which a result was committed: only the values changed, and they are those
of the solution, or those from before where there is none. -/
structure Committed (m : Model K L) (r : Result K L) (m' : Model K L) : Prop where
  same : m.Revalued m'
  kept : r.solution = none → m' = m
  assigned : r.solution.isSome = true → ∀ x ∈ m'.assigned, x.isSome = true
  value : r.solution.isSome = true → ∀ name,
    (m'.variableNamed? name).bind m'.value? = r.valueOf? name
  named : r.solution.isSome = true → ∀ name, r.valueOf? name = none ↔ name ∉ m.names

theorem committed_optimise (h : m.Coherent) (direction : Direction) (c : Config K) :
    m.Committed (m.optimise direction c).2 (m.optimise direction c).1 := by
  have same := revalued_assignAll m (m.solve direction c).values
  have length (solved : (m.solve direction c).solution.isSome = true) :
      (m.solve direction c).values.length = m.assigned.size :=
    (length_values_solve solved).trans h.assigned.symm
  have none (unsolved : (m.solve direction c).solution = none) := values_of_unsolved unsolved
  have names : (m.solve direction c).names = m.names := rfl
  rw [snd_optimise, fst_optimise]
  generalize m.solve direction c = r at same length none names ⊢
  have valueOf (name : String) :
      r.valueOf? name = (m.variableNamed? name).bind fun v => r.values[v.index]? := by
    rw [Result.valueOf?_eq, h.variableNamed?_eq, names, Option.bind_map]
    rfl
  refine ⟨same, fun unsolved => ?_, fun solved => ?_, fun solved name => ?_, fun solved name => ?_⟩
  · rw [none unsolved, assignAll_nil]
  · exact isSome_of_mem_assignAll (length solved)
  · have found : (m.assignAll r.values).variableNamed? name = m.variableNamed? name := rfl
    rw [valueOf, found, funext (value?_assignAll (length solved))]
  · rw [valueOf, Model.names, Array.mem_toList_iff, ← h.variableNamed?_eq_none_iff]
    cases found : m.variableNamed? name with
    | none => simp
    | some v =>
      have inside : v.index < r.values.length :=
        length solved ▸ h.assigned ▸ h.index_lt found
      simp [List.getElem?_eq_getElem inside]

/-- Optimising changes the values only, to those of the solution if there is one. Neither the result nor
the values of a solution depend on the values before, and so optimising again changes nothing. -/
theorem optimise_commits (built : m.Built) (direction : Direction) (c : Config K) :
    let m' := (m.optimise direction c).1
    let r := (m.optimise direction c).2
    r.status.hasSolution = r.solution.isSome ∧
    m.Committed r m' ∧
    (∀ m₂, m.Revalued m₂ → (m₂.optimise direction c).2 = r ∧
      (r.solution.isSome = true → (m₂.optimise direction c).1 = m')) ∧
    m'.optimise direction c = (m', r) := by
  intro m' r
  have coherent := built.wellFormed.coherent
  have committed : m.Committed r m' := committed_optimise coherent direction c
  have again (m₂) (same : m.Revalued m₂) : (m₂.optimise direction c).2 = r ∧
      (r.solution.isSome = true → (m₂.optimise direction c).1 = m') := by
    refine ⟨same.solve_eq direction c, fun solved => ?_⟩
    rw [fst_optimise, same.solve_eq]
    have enough := (length_values_solve solved).trans coherent.assigned.symm
    exact (same.assignAll_eq enough).trans (fst_optimise ..).symm
  refine ⟨hasSolution_solve .., committed, again, ?_⟩
  obtain ⟨result, model⟩ := again m' committed.same
  refine Prod.ext ?_ result
  cases solved : r.solution with
  | some solution => exact model (by simp [solved])
  | none =>
    -- nothing was committed, so that this is the same call again
    have unchanged : m' = m := committed.kept solved
    rw [unchanged]
    exact unchanged

/-- A model whose first variable has a value that is out of its bounds. -/
def stale : Model Rat ExtendedRat :=
  { knapsack with assigned := knapsack.assigned.setIfInBounds 0 (some 7) }

/-- The value from before is written over, and the model that held none ends the same. -/
theorem optimise_commits_stale :
    stale.Built ∧ stale.values = [7, 0] ∧ knapsack.Revalued stale ∧
    ∃ m' r, stale.optimise .maximise .standard = (m', r) ∧ r.solution.isSome = true ∧
      m'.values = [1, 2] ∧ r.valueOf? "y" = some 2 ∧ stale.Committed r m' ∧
      knapsack.optimise .maximise .standard = (m', r) ∧
      m'.optimise .maximise .standard = (m', r) := by
  have assigned : knapsack.assign? ⟨0⟩ 7 = some stale := if_pos (by decide +kernel)
  have built : stale.Built := built_knapsack.assign assigned
  obtain ⟨status, committed, same, again⟩ := optimise_commits built .maximise .standard
  have solved : (stale.optimise .maximise .standard).2.status.hasSolution = true := by
    decide +kernel
  have values : (stale.optimise .maximise .standard).1.values = [1, 2] := by decide +kernel
  have value : (stale.optimise .maximise .standard).2.valueOf? "y" = some 2 := by decide +kernel
  have revalued : knapsack.Revalued stale := revalued_assign assigned
  obtain ⟨result, model⟩ := same knapsack revalued.symm
  exact ⟨built, by decide +kernel, revalued, _, _, rfl, status ▸ solved, values, value, committed,
    Prod.ext (model (status ▸ solved)) result, again⟩

end Model

end Solving

end Milp
