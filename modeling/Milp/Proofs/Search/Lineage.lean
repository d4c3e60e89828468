import Milp.Proofs.Search.Cover

/-!
# Where nodes come from

Every node but the root is a side of a split of an older node, at a value that the solver gave for
that node. So what a split keeps holds of the bounds of every node.

Results:
1. `origin_of_reached`, `bounds_induction`: where the bounds of a node come from.
2. `whole_of_reached`, `inside_of_reached`: the limits of integer columns are integers or infinite,
   and lie within those of the root.
3. `Ranged.side`: if the values of the solver are moved into finite limits, a side of a split has
   integers in every integer column, and fewer in the column of the split.
-/

namespace Milp

open Reading (read? lower upper)

variable {n m : Nat}

/-! ## Limits at integers -/

namespace ExtendedRat

/-- The limit is an integer or infinite. -/
def IsWhole (x : ExtendedRat) : Prop :=
  ∀ q, x = .finite q → ∃ i : Int, q = i

theorem isWhole_below : IsWhole below := fun _ h => nomatch h

theorem isWhole_above : IsWhole above := fun _ h => nomatch h

theorem isWhole_intCast (i : Int) : IsWhole (finite i) := by
  rintro q h
  cases h
  exact ⟨i, rfl⟩

theorem IsWhole.max {x y : ExtendedRat} (hx : x.IsWhole) (hy : y.IsWhole) :
    IsWhole (Max.max x y) := by
  rcases max_choice x y with h | h <;> rwa [h]

theorem IsWhole.min {x y : ExtendedRat} (hx : x.IsWhole) (hy : y.IsWhole) :
    IsWhole (Min.min x y) := by
  rcases min_choice x y with h | h <;> rwa [h]

theorem isWhole_floor (x : ExtendedRat) : IsWhole (Limits.floor x) := by
  cases x with
  | below => exact isWhole_below
  | finite q => exact isWhole_intCast ⌊q⌋
  | above => exact isWhole_above

theorem isWhole_ceil (x : ExtendedRat) : IsWhole (Limits.ceil x) := by
  cases x with
  | below => exact isWhole_below
  | finite q => exact isWhole_intCast q.ceil
  | above => exact isWhole_above

/-- An integer limit below a number is below the integers around it. -/
theorem IsWhole.le_floor {x : ExtendedRat} {v : Rat} (hx : x.IsWhole) (h : x ≤ finite v) :
    x ≤ finite (Scalar.floor v) := by
  cases x with
  | below => exact below_le _
  | finite q =>
    obtain ⟨i, rfl⟩ := hx q rfl
    rw [finite_le_finite] at h ⊢
    rw [Exact.floor_eq, Int.cast_le]
    exact Int.le_floor.mpr h
  | above => exact absurd h (not_above_le_finite v)

theorem IsWhole.ceil_le {x : ExtendedRat} {v : Rat} (hx : x.IsWhole) (h : finite v ≤ x) :
    finite (Scalar.ceil v) ≤ x := by
  cases x with
  | below => exact absurd h (not_finite_le_below v)
  | finite q =>
    obtain ⟨i, rfl⟩ := hx q rfl
    rw [finite_le_finite] at h ⊢
    rw [Exact.ceil_eq, Int.cast_le]
    exact Int.ceil_le.mpr h
  | above => exact le_above _

end ExtendedRat

namespace SearchTask

/-! ## Splits -/

section Splits

variable {K L : Type} [Scalar K] [Limits L K]

/-- A node with these bounds may be split, and the change makes one of the sides. -/
def SplitsBy (k : SearchTask K L n m) (box : Box L n) (c : BoundChange L n) : Prop :=
  ∃ (objective : K) (values : Vector K n) (j : Fin n),
    (k.solver box).verdict = .optimal objective values ∧ k.Fractional values j ∧
      (c = .atMost j values[j] ∨ c = .atLeast j values[j])

/-- A node is the root, or it is a side of a split of an older node. -/
inductive Origin (k : SearchTask K L n m) (t : Tree L n) (i : Nat) (x : Node L n) : Prop
  | root (first : i = 0) (parent : x.parent = none) (change : x.change = none)
  | side {p : Nat} {c : BoundChange L n} (older : p < i) (parent : x.parent = some p)
    (change : x.change = some c) (splits : k.SplitsBy (t.bounds p k.box) c)

variable {k : SearchTask K L n m} {f f' : Moment K L n} {i : Nat} {x : Node L n}

theorem Origin.of_link {t : Tree L n} {y : Node L n} (h : k.Origin t i x)
    (same : y.link = x.link) : k.Origin t i y := by
  obtain ⟨parent, change⟩ := Prod.mk.inj same
  cases h with
  | root first p c => exact .root first (parent.trans p) (change.trans c)
  | side older p c splits => exact .side older (parent.trans p) (change.trans c) splits

/-- The origin of a node stays what it is. -/
theorem Origin.next (h : k.Origin f.search.tree i x) (change : k.Change f f')
    (hi : i < f.search.tree.nodes.size) : k.Origin f'.search.tree i x := by
  cases h with
  | root first parent made => exact .root first parent made
  | side older parent made splits =>
    refine .side older parent made ?_
    rwa [change.bounds (older.trans hi)]

/-- At every moment every node is the root or a side of a split. -/
theorem origin_of_reached (reached : k.Reached f) (here : f.node? i = some x) :
    k.Origin f.search.tree i x := by
  refine reached.node_invariant (motive := fun f => k.Origin f.search.tree) ?_ ?_ here
  · intro x here
    cases here
    exact .root rfl rfl rfl
  · intro f f' i x ih change became
    have same {y : Node L n} (old : f.node? i = some y) : k.Origin f'.search.tree i y :=
      (ih i y old).next change (Tree.lt_size_of_some old)
    cases became with
    | kept old => exact same old
    | closed old => exact (same old).of_link rfl
    | split old => exact (same old).of_link rfl
    | @side id y objective values j c there optimal fractional after new =>
      have older : id < f.search.tree.nodes.size := Tree.lt_size_of_some there
      refine .side (by omega) rfl rfl ⟨objective, values, j, ?_, fractional, ?_⟩
      · rwa [change.bounds older]
      · exact new.imp And.right And.right

/-- At every moment there is a root, and its bounds are those of the search. -/
theorem root_of_reached (reached : k.Reached f) :
    0 < f.search.tree.nodes.size ∧ f.search.tree.bounds 0 k.box = k.box := by
  have size : 0 < f.search.tree.nodes.size :=
    reached.invariant (motive := fun f => 0 < f.search.tree.nodes.size) Nat.one_pos
      fun _ _ _ h change => h.trans_le change.size_le
  refine ⟨size, ?_⟩
  have here : f.node? 0 = some f.search.tree.nodes[0] := Array.getElem?_eq_getElem size
  cases origin_of_reached reached here with
  | root first parent change =>
    rw [Tree.bounds, Tree.path_eq_of_some here, parent, change]
    rfl
  | side older => cases older

end Splits

/-! ## Bounds -/

variable {K L : Type} [Scalar K] [Limits L K] [Readable L K] {k : SearchTask K L n m}
  {f : Moment K L n} {i : Nat} {x : Node L n} {box : Box L n} {c : BoundChange L n}

/-- What holds of the root's bounds and is kept by the sides of a split holds of the bounds of every
node, up to what they stand for. -/
theorem bounds_induction {motive : Box ExtendedRat n → Prop} (root : motive k.box.reading)
    (side : ∀ p y c, f.node? p = some y → motive (f.search.tree.bounds p k.box).reading →
      k.SplitsBy (f.search.tree.bounds p k.box) c →
      motive (Tree.tighten (f.search.tree.bounds p k.box).reading c.reading))
    (reached : k.Reached f) (here : f.node? i = some x) :
    motive (f.search.tree.bounds i k.box).reading := by
  induction i using Nat.strongRecOn generalizing x with
  | ind i ih =>
    cases origin_of_reached reached here with
    | root first =>
      rw [first, (root_of_reached reached).2]
      exact root
    | @side p c older parent change splits =>
      rw [Tree.bounds_of_parent here parent older change]
      have before : p < f.search.tree.nodes.size := older.trans (Tree.lt_size_of_some here)
      have there : f.node? p = some f.search.tree.nodes[p] := Array.getElem?_eq_getElem before
      exact side p _ c there (ih p older there) splits

theorem SplitsBy.spec (h : k.SplitsBy box c) :
    ∃ objective values j, (k.solver box).verdict = .optimal objective values ∧
      k.isInteger j = true ∧
      (∀ i : Int, read? (Limits.ofScalar values[j] : L) ≠ some (.finite i)) ∧
      (c = .atMost j values[j] ∨ c = .atLeast j values[j]) := by
  obtain ⟨objective, values, j, optimal, fractional, side⟩ := h
  exact ⟨objective, values, j, optimal, fractional.spec.1, fractional.spec.2, side⟩

section Sides

variable (j : Fin n) (v : K)

theorem reading_atMost : (.atMost j v : BoundChange L n).reading =
    ⟨j, .below, Limits.floor (upper (Limits.ofScalar v : L))⟩ := by
  simp [BoundChange.reading, BoundChange.atMost, Readable.upper_floor_scalar]

theorem reading_atLeast : (.atLeast j v : BoundChange L n).reading =
    ⟨j, Limits.ceil (lower (Limits.ofScalar v : L)), .above⟩ := by
  simp [BoundChange.reading, BoundChange.atLeast, Readable.lower_ceil_scalar]

end Sides

/-- The new limits of a side are integers or infinite. -/
theorem SplitsBy.whole (h : k.SplitsBy box c) :
    c.reading.lower.IsWhole ∧ c.reading.upper.IsWhole := by
  obtain ⟨_, values, j, -, -, -, rfl | rfl⟩ := h.spec
  · rw [reading_atMost]
    exact ⟨ExtendedRat.isWhole_below, ExtendedRat.isWhole_floor _⟩
  · rw [reading_atLeast]
    exact ⟨ExtendedRat.isWhole_ceil _, ExtendedRat.isWhole_above⟩

omit [Readable L K] in
/-- The limits of integer columns are integers or infinite. -/
def Whole (k : SearchTask K L n m) (box : Box ExtendedRat n) : Prop :=
  ∀ j, k.isInteger j = true → box.lower[j].IsWhole ∧ box.upper[j].IsWhole

theorem whole_box (k : SearchTask K L n m) : k.Whole k.box.reading := by
  intro j hj
  rw [(Box.getElem_reading _ j).1, (Box.getElem_reading _ j).2]
  simp only [SearchTask.box, Vector.getElem_coordinate, Vector.getElem_ofFn, Fin.eta, hj, if_true,
    Readable.lower_ceil, Readable.upper_floor]
  exact ⟨ExtendedRat.isWhole_ceil _, ExtendedRat.isWhole_floor _⟩

theorem Whole.side (h : k.Whole box.reading) (splits : k.SplitsBy box c) :
    k.Whole (Tree.tighten box.reading c.reading) := by
  intro j hj
  obtain ⟨lower, upper⟩ := splits.whole
  rw [(Tree.tighten_limits box.reading c.reading j).1, (Tree.tighten_limits box.reading c.reading j).2]
  split
  · exact ⟨(h j hj).1.max lower, (h j hj).2.min upper⟩
  · exact h j hj

/-- At every moment the limits of integer columns are integers or infinite in every node. -/
theorem whole_of_reached (reached : k.Reached f) (here : f.node? i = some x) :
    k.Whole (f.search.tree.bounds i k.box).reading :=
  bounds_induction k.whole_box (fun _ _ _ _ h splits => h.side splits) reached here

/-- At every moment the limits of every node lie within those of the root. -/
theorem inside_of_reached (reached : k.Reached f) (here : f.node? i = some x) :
    (f.search.tree.bounds i k.box).reading.Inside k.box.reading :=
  bounds_induction (motive := fun inner => inner.Inside k.box.reading) (.refl _)
    (fun _ _ _ _ h _ => (Tree.inside_tighten _ _).trans h) reached here

/-! ## Rational answers -/

/-- The boxes that are solved for a node with some bounds: these, and these with the integer columns
fixed where the optimum is, up to rounding. -/
inductive Asks (k : SearchTask K L n m) (bounds : Box L n) : Box L n → Prop
  | relaxed : k.Asks bounds bounds
  | fixed {objective : K} {values : Vector K n}
    (optimal : (k.solver bounds).verdict = .optimal objective values) :
    k.Asks bounds (k.fixAt bounds values)

/-- The optima that the solver gives for nodes are rational. -/
def Finite (k : SearchTask K L n m) : Prop :=
  ∀ f i x box objective values, k.Reached f → f.node? i = some x →
    k.Asks (f.search.tree.bounds i k.box) box →
    (k.solver box).verdict = .optimal objective values → ∃ z, Stands L values z

/-- A change at a value that is a rational sets a rational limit. -/
theorem SplitsBy.finite (splits : k.SplitsBy box c)
    (finite : ∀ objective values, (k.solver box).verdict = .optimal objective values →
      ∃ z, Stands L values z) :
    ∃ q : Rat, c.reading = ⟨c.column, .below, .finite q⟩ ∨ c.reading = ⟨c.column, .finite q, .above⟩ := by
  obtain ⟨_, values, i, optimal, -, -, side⟩ := splits.spec
  obtain ⟨z, stands⟩ := finite _ _ optimal
  rcases side with rfl | rfl
  · refine ⟨⌊z[i]⌋, .inl ?_⟩
    rw [reading_atMost, upper, stands i, Option.getD_some, Exact.floor_finite]
    rfl
  · refine ⟨⌈z[i]⌉, .inr ?_⟩
    rw [reading_atLeast, lower, stands i, Option.getD_some, Exact.ceil_finite]
    rfl

/-- A side of a split leaves room where there was room. -/
theorem SplitsBy.roomy (splits : k.SplitsBy box c)
    (finite : ∀ objective values, (k.solver box).verdict = .optimal objective values →
      ∃ z, Stands L values z) {j : Fin n} (h : box.reading.Roomy j) :
    (Tree.tighten box.reading c.reading).Roomy j := by
  have new : c.reading.lower ≠ .above ∧ c.reading.upper ≠ .below := by
    obtain ⟨q, side | side⟩ := splits.finite finite
    all_goals
      rw [side]
      exact ⟨nofun, nofun⟩
  rw [Box.Roomy, (Tree.tighten_limits box.reading c.reading j).1,
    (Tree.tighten_limits box.reading c.reading j).2]
  split
  · refine ⟨?_, ?_⟩
    · rcases max_choice box.reading.lower[j] c.reading.lower with larger | larger <;> rw [larger]
      exacts [h.1, new.1]
    · rcases min_choice box.reading.upper[j] c.reading.upper with smaller | smaller <;> rw [smaller]
      exacts [h.2, new.2]
  · exact h

theorem roomy_of_reached (finite : k.Finite) {j : Fin n} (root : k.box.reading.Roomy j)
    (reached : k.Reached f) (here : f.node? i = some x) :
    (f.search.tree.bounds i k.box).reading.Roomy j :=
  bounds_induction (motive := fun box => box.Roomy j) root
    (fun p y _ there h splits => splits.roomy
      (fun objective values => finite f p y _ objective values reached there .relaxed) h) reached here

/-! ## Finite limits -/

omit [Readable L K] in
/-- The limits of integer columns are integers that are not crossed. -/
def Ranged (k : SearchTask K L n m) (box : Box ExtendedRat n) : Prop :=
  ∀ j, k.isInteger j = true →
    ∃ a b : Int, a ≤ b ∧ box.lower[j] = .finite a ∧ box.upper[j] = .finite b

/-- A value that was moved between integers lies between them, if it is none. -/
theorem Ranged.between (ranged : k.Ranged box.reading) (clamps : k.solver.Clamps) {objective : K}
    {values : Vector K n} (optimal : (k.solver box).verdict = .optimal objective values) {j : Fin n}
    (hj : k.isInteger j = true)
    (fraction : ∀ i : Int, read? (Limits.ofScalar values[j] : L) ≠ some (.finite i)) :
    ∃ (a b : Int) (q : Rat), box.reading.lower[j] = .finite a ∧ box.reading.upper[j] = .finite b ∧
      read? (Limits.ofScalar values[j] : L) = some (.finite q) ∧ a < q ∧ q < b := by
  obtain ⟨a, b, -, lower, upper⟩ := ranged j hj
  obtain ⟨q, read, above, below⟩ := clamps.between_finite optimal lower upper
  refine ⟨a, b, q, lower, upper, read, lt_of_le_of_ne above ?_, lt_of_le_of_ne below ?_⟩
  · exact fun same => fraction a (same ▸ read)
  · exact fun same => fraction b (same ▸ read)

omit [Scalar K] [Limits L K] [Readable L K] in
/-- Integers are left in every column, if they are in the one that is tightened. -/
theorem Ranged.tighten {box : Box ExtendedRat n} {c : BoundChange ExtendedRat n}
    (ranged : k.Ranged box) {a b : Int} (order : a ≤ b)
    (lower : max box.lower[c.column] c.lower = .finite a)
    (upper : min box.upper[c.column] c.upper = .finite b) : k.Ranged (Tree.tighten box c) := by
  intro i hi
  rw [(Tree.tighten_limits box c i).1, (Tree.tighten_limits box c i).2]
  split
  · rename_i same
    subst same
    exact ⟨a, b, order, lower, upper⟩
  · exact ranged i hi

/-- A side of a split at a value between integers has integers in every integer column, and fewer in
the column of the split. -/
theorem Ranged.side (ranged : k.Ranged box.reading) (clamps : k.solver.Clamps)
    (splits : k.SplitsBy box c) :
    k.isInteger c.reading.column = true ∧ k.Ranged (Tree.tighten box.reading c.reading) ∧
      (box.reading.lower[c.reading.column] <
          (Tree.tighten box.reading c.reading).lower[c.reading.column] ∨
        (Tree.tighten box.reading c.reading).upper[c.reading.column] <
          box.reading.upper[c.reading.column]) := by
  obtain ⟨objective, values, j, optimal, integer, fraction, side⟩ := splits.spec
  obtain ⟨a, b, q, lower', upper', read, above, below⟩ :=
    ranged.between clamps optimal integer fraction
  have limits := Tree.tighten_limits box.reading c.reading c.reading.column
  rw [if_pos rfl, if_pos rfl] at limits
  rw [limits.1, limits.2]
  rcases side with rfl | rfl
  · have new : (.atMost j values[j] : BoundChange L n).reading = ⟨j, .below, .finite ⌊q⌋⟩ := by
      rw [reading_atMost, upper, read, Option.getD_some, Exact.floor_finite]
    have low : a ≤ ⌊q⌋ := Int.le_floor.mpr above.le
    have less : (⌊q⌋ : Rat) < b := (Int.floor_le q).trans_lt below
    rw [new]
    refine ⟨integer, ranged.tighten low ?_ ?_, .inr ?_⟩
    · exact (max_eq_left (ExtendedRat.below_le _)).trans lower'
    · rw [upper']
      exact min_eq_right (ExtendedRat.finite_le_finite.mpr less.le)
    · rw [upper']
      exact (min_le_right _ _).trans_lt (ExtendedRat.finite_lt_finite.mpr less)
  · have new : (.atLeast j values[j] : BoundChange L n).reading = ⟨j, .finite ⌈q⌉, .above⟩ := by
      rw [reading_atLeast, lower, read, Option.getD_some, Exact.ceil_finite]
    have high : ⌈q⌉ ≤ b := Int.ceil_le.mpr below.le
    have more : (a : Rat) < ⌈q⌉ := above.trans_le (Int.le_ceil q)
    rw [new]
    refine ⟨integer, ranged.tighten high ?_ ?_, .inl ?_⟩
    · rw [lower']
      exact max_eq_right (ExtendedRat.finite_le_finite.mpr more.le)
    · exact (min_eq_left (ExtendedRat.le_above _)).trans upper'
    · rw [lower']
      exact (ExtendedRat.finite_lt_finite.mpr more).trans_le (le_max_right _ _)

end SearchTask

end Milp
