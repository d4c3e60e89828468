import Milp.Proofs.Search.Incumbent
import Milp.Proofs.Search.Lineage

/-!
# Incumbents lie within bounds

Results:
1. `Closing.offers`: what a node is closed with is an answer of the solver, unchanged, within the
   bounds of the node and with integers in the integer columns.
2. `answers_of_reached`: at every moment the incumbent is such an answer for the bounds of a node.
3. `proper_of_reached`: at every moment the incumbent lies within the root's bounds, with integers in
   the integer columns.
-/

namespace Milp.SearchTask

variable {K L : Type} [Scalar K] [Limits L K] [Readable L K] {n m : Nat} {k : SearchTask K L n m}
  {f : Moment K L n} {i : Nat} {x : Node L n} {box bounds : Box L n} {objective objective' : K}
  {values values' : Vector K n} {z : Vector Rat n}

/-- The values stand for a point of a box, with integers in the integer columns. -/
structure Proper (k : SearchTask K L n m) (box : Box L n) (values : Vector K n)
    (z : Vector Rat n) : Prop where
  stands : Stands L values z
  inside : box.reading.Holds z
  integral : ∀ j, k.isInteger j = true → ∃ i : Int, z[j] = i

theorem Proper.snap (h : k.Proper box values z) : k.snap values = values :=
  snap_of_integral h.stands h.integral

/-! ## Fixed columns -/

omit [Scalar K] [Limits L K] [Readable L K] in
/-- Where the limits of integer columns are integers, rounding values leaves them within. -/
theorem admits_round {box : Box ExtendedRat n} (whole : k.Whole box) {j : Fin n}
    (hj : k.isInteger j = true) {v : Rat} (h : box.Admits j v) : box.Admits j (Scalar.round v) := by
  refine ⟨((whole j hj).1.le_floor h.1).trans ?_, le_trans ?_ ((whole j hj).2.ceil_le h.2)⟩
  · exact ExtendedRat.finite_le_finite.mpr (Exact.floor_le_round v)
  · exact ExtendedRat.finite_le_finite.mpr (Exact.round_le_ceil v)

/-- A box that is fixed at rounded values lies within the box. -/
theorem inside_fixAt (whole : k.Whole box.reading) (stands : Stands L values z)
    (inside : box.reading.Holds z) : (k.fixAt box values).reading.Inside box.reading := by
  intro j
  rw [(reading_fixAt stands k box j).1, (reading_fixAt stands k box j).2]
  split
  · exact admits_round whole ‹_› (inside j)
  · exact ⟨le_rfl, le_rfl⟩

theorem roomy_fixAt (stands : Stands L values z) {j : Fin n} (roomy : box.reading.Roomy j) :
    (k.fixAt box values).reading.Roomy j := by
  rw [Box.Roomy, (reading_fixAt stands k box j).1, (reading_fixAt stands k box j).2]
  split
  · exact ⟨ExtendedRat.noConfusion, ExtendedRat.noConfusion⟩
  · exact roomy

/-! ## Room -/

omit [Scalar K] [Limits L K] [Readable L K] in
theorem ceil_ne_above {a b : ExtendedRat} (below : a ≤ b) (room : b ≠ .above) :
    (Limits.ceil a : ExtendedRat) ≠ .above := by
  cases a with
  | above => exact absurd (le_antisymm (ExtendedRat.le_above _) below) room
  | below | finite => nofun

omit [Scalar K] [Limits L K] [Readable L K] in
theorem floor_ne_below {a b : ExtendedRat} (above : b ≤ a) (room : b ≠ .below) :
    (Limits.floor a : ExtendedRat) ≠ .below := by
  cases a with
  | below => exact absurd (le_antisymm above (ExtendedRat.below_le _)) room
  | above | finite => nofun

/-- Moving the limits of integer columns inwards up to a tolerance leaves room where there was room. -/
theorem roomy_box {j : Fin n} (roomy : k.relaxation.box.reading.Roomy j) : k.box.reading.Roomy j := by
  rw [Box.Roomy, (Box.getElem_reading _ j).1, (Box.getElem_reading _ j).2] at roomy ⊢
  simp only [SearchTask.box, Vector.getElem_coordinate, Vector.getElem_ofFn, Fin.eta] at roomy ⊢
  split
  · rw [Readable.lower_ceil, Readable.upper_floor]
    exact ⟨ceil_ne_above (Readable.lower_sub _ _) roomy.1, floor_ne_below (Readable.upper_add _ _) roomy.2⟩
  · exact roomy

/-! ## What is offered -/

/-- The answers about a node with some bounds stand for points of the boxes that are solved. -/
def AnswersWithin (k : SearchTask K L n m) (bounds : Box L n) : Prop :=
  ∀ box objective values, k.Asks bounds box → (k.solver box).verdict = .optimal objective values →
    ∃ z, Stands L values z ∧ box.reading.Holds z

theorem answersWithin_of_clamps (clamps : k.solver.Clamps) (finite : k.Finite)
    (roomy : ∀ j, k.box.reading.Roomy j) (reached : k.Reached f) (here : f.node? i = some x) :
    k.AnswersWithin (f.search.tree.bounds i k.box) := by
  intro box objective values asks optimal
  obtain ⟨z, stands⟩ := finite f i x box objective values reached here asks optimal
  refine ⟨z, stands, clamps.holds optimal (fun j => ?_) stands⟩
  have room := roomy_of_reached finite (roomy j) reached here
  cases asks with
  | relaxed => exact room
  | fixed relaxed =>
    obtain ⟨y, stands⟩ := finite f i x _ _ _ reached here .relaxed relaxed
    exact roomy_fixAt stands room

/-- Values answer for a node with some bounds: for the bounds, or for these with the integer columns
fixed. -/
structure Answers (k : SearchTask K L n m) (bounds : Box L n) (values : Vector K n) : Prop where
  optimal : ∃ box objective, k.Asks bounds box ∧ (k.solver box).verdict = .optimal objective values
  proper : ∃ z, k.Proper bounds values z

section Answers

variable (within : k.AnswersWithin bounds)
  (optimal : (k.solver bounds).verdict = .optimal objective values)
include within optimal

/-- An optimum without a furthest column has integers already. -/
theorem answers_of_furthestColumn_eq_none (none : k.furthestColumn values = none) :
    k.Answers bounds values := by
  obtain ⟨z, stands, inside⟩ := within _ _ _ .relaxed optimal
  exact ⟨⟨bounds, objective, .relaxed, optimal⟩, z, stands, inside,
    fun _ hj => integral_of_furthestColumn_eq_none stands none hj⟩

/-- An optimum with the integer columns fixed has integers within the bounds. -/
theorem answers_of_fixAt (whole : k.Whole bounds.reading)
    (again : (k.solver (k.fixAt bounds values)).verdict = .optimal objective' values') :
    k.Answers bounds values' := by
  obtain ⟨y, stands, inside⟩ := within _ _ _ .relaxed optimal
  obtain ⟨z, stands', fixed⟩ := within _ _ _ (.fixed optimal) again
  refine ⟨⟨_, objective', .fixed optimal, again⟩, z, stands', fun j => ?_, fun j hj => ?_⟩
  · exact (inside_fixAt whole stands inside).admits (fixed j)
  · exact integral_of_holds_fixAt stands fixed hj

end Answers

/-- What closes a node is offered as it is: an answer of the solver, for the bounds of the node or for
these fixed at rounded values, that lies within the bounds and has integers in the integer columns. -/
theorem Closing.offers (within : k.AnswersWithin bounds) (whole : k.Whole bounds.reading)
    {incumbent kept : Option (Incumbent K n)} {bound : L} {state : NodeState}
    (why : Closing k incumbent bounds x (k.solver bounds).verdict bound state kept) :
    (kept = incumbent ∧ state ≠ .integral) ∨
      ∃ values, k.Answers bounds values ∧ kept = k.offered incumbent values := by
  generalize verdict : (k.solver bounds).verdict = v at why
  cases why with
  | infeasible | rootUnbounded | unbounded | failed | dominated => exact .inl ⟨rfl, nofun⟩
  | @settled objective values integral =>
    exact .inr ⟨values, answers_of_furthestColumn_eq_none within verdict integral, rfl⟩
  | @rounded objective values j objective' values' tolerated away again =>
    exact .inr ⟨values', answers_of_fixAt within verdict whole again, rfl⟩

/-- At every moment the incumbent answers for the bounds of a node, at the cost of its values. -/
theorem answers_of_reached
    (within : ∀ f i x, k.Reached f → f.node? i = some x →
      k.AnswersWithin (f.search.tree.bounds i k.box))
    (reached : k.Reached f) {i : Incumbent K n} (found : f.search.incumbent = some i) :
    ∃ f' id x, k.Reached f' ∧ f'.node? id = some x ∧
      k.Answers (f'.search.tree.bounds id k.box) i.values ∧
      i.cost = k.relaxation.costOf i.values.toList := by
  refine reached.invariant (motive := fun f => ∀ i, f.search.incumbent = some i →
    ∃ f' id x, k.Reached f' ∧ f'.node? id = some x ∧
      k.Answers (f'.search.tree.bounds id k.box) i.values ∧
      i.cost = k.relaxation.costOf i.values.toList) (fun _ none => nomatch none) ?_ i found
  intro f f' reached' ih change i found
  cases change with
  | kept tree incumbent => exact ih i (incumbent ▸ found)
  | split here pending optimal fractional after => exact ih i (after.incumbent ▸ found)
  | @closed id x bound state incumbent here pending why after =>
    rw [after.incumbent] at found
    cases why with
    | stale => exact ih i found
    | processed why =>
      rcases why.offers (within f id x reached' here) (whole_of_reached reached' here) with
        ⟨same, -⟩ | ⟨values, answers, kept⟩
      · exact ih i (same ▸ found)
      · rw [kept, offered] at found
        split at found
        · obtain ⟨z, proper⟩ := answers.proper
          cases found
          dsimp only
          rw [proper.snap]
          exact ⟨f, id, x, reached', here, answers, rfl⟩
        · exact ih i found

theorem Answers.proper_root (answers : k.Answers (f.search.tree.bounds i k.box) values)
    (reached : k.Reached f) (here : f.node? i = some x) : ∃ z, k.Proper k.box values z := by
  obtain ⟨z, proper⟩ := answers.proper
  exact ⟨z, proper.stands, fun j => (inside_of_reached reached here).admits (proper.inside j),
    proper.integral⟩

/-- At every moment the incumbent is proper. -/
theorem proper_of_reached (clamps : k.solver.Clamps) (finite : k.Finite)
    (roomy : ∀ j, k.box.reading.Roomy j) (reached : k.Reached f) {i : Incumbent K n}
    (found : f.search.incumbent = some i) : ∃ z, k.Proper k.box i.values z := by
  obtain ⟨f', id, x, reached', here, answers, -⟩ := answers_of_reached
    (fun f i x reached here => answersWithin_of_clamps clamps finite roomy reached here) reached found
  exact answers.proper_root reached' here

/-! ## Exact numbers -/

/-- Exact numbers are rational. -/
theorem finite_exact (k : SearchTask Rat ExtendedRat n m) : k.Finite :=
  fun _ _ _ _ _ values _ _ _ _ => ⟨values, stands_exact.mpr rfl⟩

/-! ## Finite limits -/

/-- Fixing integer columns leaves finite limits. -/
theorem limits_fixAt (limits : box.reading.Finite) (stands : Stands L values z) :
    (k.fixAt box values).reading.Finite := by
  intro j
  rw [(reading_fixAt stands k box j).1, (reading_fixAt stands k box j).2]
  split
  · exact ⟨rfl, rfl⟩
  · exact limits j

/-- So does a split. -/
theorem SplitsBy.limits {c : BoundChange L n} (splits : k.SplitsBy box c) (clamps : k.solver.Clamps)
    (limits : box.reading.Finite) : (Tree.tighten box.reading c.reading).Finite := by
  intro j
  obtain ⟨q, side | side⟩ := splits.finite fun _ _ optimal => clamps.exists_stands optimal limits
  all_goals
    rw [(Tree.tighten_limits _ _ j).1, (Tree.tighten_limits _ _ j).2, side, limits.lower, limits.upper]
    split
  · rw [max_eq_left (ExtendedRat.below_le _), ← Exact.finite_min]
    exact ⟨rfl, rfl⟩
  · exact ⟨rfl, rfl⟩
  · rw [min_eq_left (ExtendedRat.le_above _), ← Exact.finite_max]
    exact ⟨rfl, rfl⟩
  · exact ⟨rfl, rfl⟩

/-- Between finite limits the answers are rational. -/
theorem finite_of_limits (clamps : k.solver.Clamps) (limits : k.box.reading.Finite) : k.Finite := by
  intro f i x box objective values reached here asks optimal
  have limits : (f.search.tree.bounds i k.box).reading.Finite :=
    bounds_induction limits (fun _ _ _ _ h splits => splits.limits clamps h) reached here
  refine clamps.exists_stands optimal ?_
  cases asks with
  | relaxed => exact limits
  | fixed relaxed =>
    obtain ⟨y, stands⟩ := clamps.exists_stands relaxed limits
    exact limits_fixAt limits stands

end Milp.SearchTask
