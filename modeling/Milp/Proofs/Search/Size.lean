import Mathlib.Algebra.BigOperators.Group.Finset.Piecewise
import Mathlib.Data.Fintype.BigOperators
import Mathlib.Data.Int.ConditionallyCompleteOrder
import Mathlib.Data.Int.Interval
import Milp.Proofs.Search.Ledger
import Milp.Proofs.Search.Lineage

/-!
# The size of a search tree

Every node that is not split has integers of its own for the integer columns. So a tree has no more
such nodes than there are integers within the root's bounds, if there are any.

Results:
1. `Bounded.defined`: where the root's limits of integer columns are finite, values are defined.
2. `size_le_points`: a tree has at most two nodes for every such choice of integers, but one.
-/

namespace Milp

variable {n m : Nat}

/-- The number of integers between two limits that are integers. -/
def ExtendedRat.span (lower upper : ExtendedRat) : Nat :=
  ⌊upper.toRat - lower.toRat + 1⌋.toNat

namespace SearchTask

variable {K L : Type} [Scalar K] [Limits L K] [Readable L K]

/-- The number of ways to give integers within the root's bounds to the integer columns; none where
limits are crossed. -/
def points (k : SearchTask K L n m) : Nat :=
  let box := k.box.reading
  if box.Ordered then ∏ j with k.isInteger j = true, box.lower[j].span box.upper[j] else 0

omit [Readable L K] in
/-- The root's limits of integer columns are finite. -/
def Bounded (k : SearchTask K L n m) : Prop :=
  ∀ j, k.isInteger j = true →
    Limits.isFinite k.box.lower[j] = true ∧ Limits.isFinite k.box.upper[j] = true

omit [Readable L K] in
instance (k : SearchTask K L n m) : Decidable k.Bounded :=
  Nat.decidableForallFin _

variable {k : SearchTask K L n m} {f : Moment K L n} {i : Nat} {x : Node L n}
  {box : Box ExtendedRat n}

/-- Over exact numbers, limits that are declared finite are finite. -/
theorem bounded_exact {k : SearchTask Rat ExtendedRat n m}
    (finite : ∀ j, k.isInteger j = true → Limits.isFinite k.relaxation.box.lower[j] = true ∧
      Limits.isFinite k.relaxation.box.upper[j] = true) : k.Bounded := by
  intro j hj
  obtain ⟨lower, upper⟩ := finite j hj
  obtain ⟨l, hl⟩ := Exact.isFinite_iff.mp lower
  obtain ⟨u, hu⟩ := Exact.isFinite_iff.mp upper
  simp only [Vector.getElem_coordinate] at hl hu
  simp only [SearchTask.box, Vector.getElem_coordinate, Vector.getElem_ofFn, Fin.eta, hj, if_true,
    hl, hu]
  exact ⟨rfl, rfl⟩

/-! ## Integers within bounds -/

theorem Bounded.limits (bounded : k.Bounded) {j : Fin n} (hj : k.isInteger j = true) :
    ∃ a b : Int, k.box.reading.lower[j] = .finite a ∧ k.box.reading.upper[j] = .finite b := by
  obtain ⟨lower, upper⟩ := bounded j hj
  obtain ⟨l, hl⟩ := Readable.isFinite_iff.mp lower
  obtain ⟨u, hu⟩ := Readable.isFinite_iff.mp upper
  have lower : k.box.reading.lower[j] = .finite l := by
    rw [(Box.getElem_reading _ j).1, Reading.lower, hl, Option.getD_some]
  have upper : k.box.reading.upper[j] = .finite u := by
    rw [(Box.getElem_reading _ j).2, Reading.upper, hu, Option.getD_some]
  obtain ⟨a, rfl⟩ := (k.whole_box j hj).1 l lower
  obtain ⟨b, rfl⟩ := (k.whole_box j hj).2 u upper
  exact ⟨a, b, lower, upper⟩

theorem Bounded.ranged (bounded : k.Bounded) (ordered : k.box.reading.Ordered) :
    k.Ranged k.box.reading := by
  intro j hj
  obtain ⟨a, b, lower, upper⟩ := bounded.limits hj
  have order := ordered j
  rw [lower, upper, ExtendedRat.finite_le_finite, Int.cast_le] at order
  exact ⟨a, b, order, lower, upper⟩

omit [Scalar K] [Limits L K] [Readable L K] in
/-- The integers at the lower limits of the integer columns. -/
def corner (k : SearchTask K L n m) (box : Box ExtendedRat n) (j : Fin n) : Int :=
  if k.isInteger j then ⌊box.lower[j].toRat⌋ else 0

/-- The choices of integers for the integer columns within the root's bounds. -/
noncomputable def choices (k : SearchTask K L n m) : Finset (Fin n → Int) :=
  let box := k.box.reading
  Fintype.piFinset fun j =>
    if k.isInteger j then Finset.Icc ⌊box.lower[j].toRat⌋ ⌊box.upper[j].toRat⌋ else {0}

omit [Scalar K] [Limits L K] [Readable L K] in
theorem span_intCast (a b : Int) :
    ExtendedRat.span (.finite a) (.finite b) = (b + 1 - a).toNat := by
  have whole : (b : Rat) - a + 1 = ((b + 1 - a : Int) : Rat) := by
    push_cast
    ring
  show ⌊(b : Rat) - a + 1⌋.toNat = _
  rw [whole, Int.floor_intCast]

theorem Bounded.card_choices (bounded : k.Bounded) (ordered : k.box.reading.Ordered) :
    k.choices.card = k.points := by
  unfold choices points
  dsimp only
  rw [if_pos ordered, Fintype.card_piFinset, Finset.prod_filter]
  refine Finset.prod_congr rfl ?_
  intro j _
  split
  · rename_i hj
    obtain ⟨a, b, lower, upper⟩ := bounded.limits hj
    rw [lower, upper, span_intCast, Int.card_Icc]
    simp [ExtendedRat.toRat]
  · exact Finset.card_singleton 0

omit [Scalar K] [Limits L K] [Readable L K] in
theorem Ranged.corner_admits (ranged : k.Ranged box) {j : Fin n} (hj : k.isInteger j = true) :
    box.Admits j (k.corner box j) := by
  obtain ⟨a, b, order, lower, upper⟩ := ranged j hj
  have here : (k.corner box j : Rat) = a := by
    simp [corner, hj, lower, ExtendedRat.toRat]
  rw [Box.Admits, here, lower, upper, ExtendedRat.finite_le_finite, ExtendedRat.finite_le_finite]
  exact ⟨le_rfl, Int.cast_le.mpr order⟩

theorem Bounded.corner_mem (bounded : k.Bounded) (inside : box.Inside k.box.reading)
    (ranged : k.Ranged box) : k.corner box ∈ k.choices := by
  unfold choices
  dsimp only
  rw [Fintype.mem_piFinset]
  intro j
  split
  · rename_i hj
    obtain ⟨a, b, lower, upper⟩ := bounded.limits hj
    have admits := inside.admits (ranged.corner_admits hj)
    rw [Box.Admits, lower, upper, ExtendedRat.finite_le_finite, ExtendedRat.finite_le_finite,
      Int.cast_le, Int.cast_le] at admits
    rw [lower, upper]
    simpa [ExtendedRat.toRat] using admits
  · rename_i hj
    exact Finset.mem_singleton.mpr (if_neg hj)

/-! ## Nodes that are not split -/

section Leaves

omit [Scalar K] [Limits L K] [Readable L K]

/-- The nodes that are not split. -/
def leaves (t : Tree L n) : Finset Nat :=
  Finset.range t.nodes.size \ t.nodesIn .branched

theorem mem_leaves {t : Tree L n} :
    i ∈ leaves t ↔ ∃ x, t.nodes[i]? = some x ∧ x.state ≠ .branched := by
  rw [leaves, Finset.mem_sdiff, Finset.mem_range, Tree.mem_nodesIn]
  constructor
  · rintro ⟨hi, unsplit⟩
    exact ⟨_, Array.getElem?_eq_getElem hi, fun h => unsplit ⟨_, Array.getElem?_eq_getElem hi, h⟩⟩
  · rintro ⟨x, here, unsplit⟩
    refine ⟨Tree.lt_size_of_some here, ?_⟩
    rintro ⟨y, hy, split⟩
    obtain rfl := Option.some.inj (here.symm.trans hy)
    exact unsplit split

/-- There is one more node that is not split than there are nodes that are. -/
theorem size_eq_leaves (ledger : f.search.Ledger) :
    f.search.tree.nodes.size + 1 = 2 * (leaves f.search.tree).card := by
  have among : f.search.tree.nodesIn .branched ⊆ Finset.range f.search.tree.nodes.size :=
    Finset.filter_subset _ _
  have size := ledger.size
  rw [leaves, Finset.card_sdiff_of_subset among, Finset.card_range]
  omega

end Leaves

/-- At every moment every node has integers for all integer columns, if the limits of the root are
not crossed. -/
theorem ranged_of_reached (clamps : k.solver.Clamps) (bounded : k.Bounded)
    (ordered : k.box.reading.Ordered) (reached : k.Reached f) (here : f.node? i = some x) :
    k.Ranged (f.search.tree.bounds i k.box).reading :=
  bounds_induction (bounded.ranged ordered) (fun _ _ _ _ ranged splits => (ranged.side clamps splits).2.1)
    reached here

/-- The values for integer columns are defined, as they lie between limits that are finite. -/
theorem Bounded.defined (clamps : k.solver.Clamps) (bounded : k.Bounded)
    (ordered : k.box.reading.Ordered) : k.Defined := by
  intro f id x objective values reached here optimal j hj
  obtain ⟨a, b, -, lower, upper⟩ := ranged_of_reached clamps bounded ordered reached here j hj
  exact clamps.defined optimal (by simp [Box.Roomy, lower, upper]) (by simp [lower])

/-- A node that is not split is known by the integers at its lower limits. -/
theorem card_leaves_le (clamps : k.solver.Clamps) (bounded : k.Bounded)
    (ordered : k.box.reading.Ordered) (reached : k.Reached f) :
    (leaves f.search.tree).card ≤ k.points := by
  have ranged {i : Nat} (hi : i ∈ leaves f.search.tree) :
      k.Ranged (f.search.tree.bounds i k.box).reading :=
    (mem_leaves.mp hi).elim fun _ h => ranged_of_reached clamps bounded ordered reached h.1
  have inside {i : Nat} (hi : i ∈ leaves f.search.tree) :
      (f.search.tree.bounds i k.box).reading.Inside k.box.reading :=
    (mem_leaves.mp hi).elim fun _ h => inside_of_reached reached h.1
  rw [← bounded.card_choices ordered]
  refine Finset.card_le_card_of_injOn (fun i => k.corner (f.search.tree.bounds i k.box).reading)
    (fun i hi => bounded.corner_mem (inside hi) (ranged hi)) ?_
  intro i hi i' hi' same
  -- the integers of both nodes are one point, and that has only one node that is not split
  let z : Vector Rat n := .ofFn fun j => (k.corner (f.search.tree.bounds i k.box).reading j : Rat)
  have leaf {l : Nat} (hl : l ∈ leaves f.search.tree)
      (corner : k.corner (f.search.tree.bounds l k.box).reading =
        k.corner (f.search.tree.bounds i k.box).reading) :
      f.search.tree.LeafFor k.box (fun j => k.isInteger j = true) z l := by
    obtain ⟨x, here, unsplit⟩ := mem_leaves.mp hl
    refine ⟨x, here, unsplit, ?_⟩
    intro j hj
    have admits := (ranged hl).corner_admits hj
    rw [corner] at admits
    simpa [z] using admits
  exact unique_leaf_of_reached (bounded.defined clamps ordered) (fun _ hj => hj) reached (leaf hi rfl)
    (leaf hi' same.symm)

/-- A tree with more than its root comes from limits that are not crossed. -/
theorem ordered_of_size (clamps : k.solver.Clamps) (reached : k.Reached f)
    (more : 1 < f.search.tree.nodes.size) : k.box.reading.Ordered := by
  have here : f.node? 1 = some f.search.tree.nodes[1] := Array.getElem?_eq_getElem more
  cases origin_of_reached reached here with
  | root first => cases first
  | @side p c older parent change splits =>
    obtain rfl := Nat.lt_one_iff.mp older
    obtain ⟨objective, values, j, optimal, -, -, -⟩ := splits.spec
    rw [(root_of_reached reached).2] at optimal
    exact clamps.ordered optimal

/-- A tree has at most two nodes for every choice of integers for the integer columns, but one. -/
theorem size_le_points (clamps : k.solver.Clamps) (bounded : k.Bounded) (reached : k.Reached f) :
    f.search.tree.nodes.size ≤ 2 * max 1 k.points - 1 := by
  rcases Nat.lt_or_ge 1 f.search.tree.nodes.size with more | one
  · -- limits that are crossed admit no optimum, so the root would not have been split
    have few := card_leaves_le clamps bounded (ordered_of_size clamps reached more) reached
    have size := size_eq_leaves (ledger_of_reached reached)
    omega
  · omega

end SearchTask

end Milp
