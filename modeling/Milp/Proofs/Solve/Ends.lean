import Milp.Proofs.Binary64.Reading
import Milp.Proofs.Config
import Milp.Proofs.Search.Termination
import Milp.Proofs.Solve

/-!
# Solving comes to an end

Result: `Model.search_ends`, the search for a model ends if its root has finite limits in integer
columns, and its tree has at most two nodes for every choice of integers, but one.
-/

namespace Milp

variable {n m : Nat}

namespace SearchTask

variable {K L : Type} [Scalar K] [Limits L K] [Readable L K] {k : SearchTask K L n m}
  {f : Moment K L n} {i p : Nat} {x : Node L n}

omit [Scalar K] [Limits L K] [Readable L K] in
/-- A box has integers for all integer columns, all of them in another box, and fewer in a column. -/
structure Narrows (k : SearchTask K L n m) (inner outer : Box ExtendedRat n) (j : Fin n) : Prop where
  integer : k.isInteger j = true
  ranged : k.Ranged inner
  inside : inner.Inside outer
  smaller : outer.lower[j] < inner.lower[j] ∨ inner.upper[j] < outer.upper[j]

/-- At every moment the bounds of a child are narrower than those of its parent in the column of its
change. -/
theorem narrows_of_reached (clamps : k.solver.Clamps) (bounded : k.Bounded) (reached : k.Reached f)
    (here : f.node? i = some x) (parent : x.parent = some p) :
    ∃ change, x.change = some change ∧
      k.Narrows (f.search.tree.bounds i k.box).reading (f.search.tree.bounds p k.box).reading
        change.column := by
  cases origin_of_reached reached here with
  | root _ none =>
    rw [none] at parent
    cases parent
  | @side p' c older parent' change splits =>
    obtain rfl := Option.some.inj (parent.symm.trans parent')
    have child := Tree.lt_size_of_some here
    have above : f.node? p = some f.search.tree.nodes[p] :=
      Array.getElem?_eq_getElem (older.trans child)
    have ordered : k.box.reading.Ordered := ordered_of_size clamps reached (by omega)
    obtain ⟨integer, ranged, smaller⟩ :=
      (ranged_of_reached clamps bounded ordered reached above).side clamps splits
    refine ⟨c, change, ?_⟩
    rw [Tree.bounds_of_parent here parent older change]
    exact ⟨integer, ranged, Tree.inside_tighten _ _, smaller⟩

end SearchTask

namespace Model

open SearchTask

variable {K L : Type} [Scalar K] [Limits L K] [Readable L K]

/-- Whatever values the solver answers with, if only it moves them into the bounds it is given, as the
simplex method does: the search for a model ends where the bounds of the root are finite in integer
columns, its tree has at most two nodes for every choice of integers within these bounds, but one, and
every child has integers of its parent for all integer columns, and fewer in the column of its
split. A search without integer columns has one node. -/
theorem search_ends (m : Model K L) (direction : Direction) {c : Config K} (built : c.Built)
    (clock : Nat → Duration) (bounded : ((m.relaxation direction).task c clock).Bounded) :
    ((m.relaxation direction).solver c).Clamps ∧
    ∀ solver : Solver K L m.definitions.size, solver.Clamps →
      let k := { (m.relaxation direction).task c clock with solver }
      let limit := 2 * max 1 k.points - 1
      (∃ s stop, stop ≠ .outOfRounds ∧
        ∀ roundLimit, limit ≤ roundLimit → k.rounds roundLimit .start = (s, stop)) ∧
      (∀ roundLimit, (k.run roundLimit).1.statistics.nodesCreated ≤ limit) ∧
      (∀ f i x p, k.Reached f → f.node? i = some x → x.parent = some p →
        ∃ change, x.change = some change ∧
          k.Narrows (f.search.tree.bounds i k.box).reading (f.search.tree.bounds p k.box).reading
            change.column) := by
  refine ⟨(m.relaxation direction).clamps_solver c, ?_⟩
  intro solver clamps k limit
  have bounded : k.Bounded := bounded
  have small (f : Moment K L m.definitions.size) (reached : k.Reached f) :
      f.search.tree.nodes.size ≤ limit :=
    size_le_points clamps bounded reached
  refine ⟨exists_end built.threads_pos small, ?_, ?_⟩
  · intro roundLimit
    have reached := k.rounds_reached roundLimit
    exact (ledger_of_reached reached).created.trans_le (small _ reached)
  · intro f i x p reached here parent
    exact narrows_of_reached clamps bounded reached here parent

/-- Twice an integer from 0 to 1 is 1. -/
def half : Model Float Float :=
  .ofParts #[⟨"x", ⟨some "x", .integer, 0, 1⟩, none⟩] #[⟨⟨[(⟨0⟩, 2)], 0⟩, 1, 1, none⟩] ⟨[(⟨0⟩, 1)], 0⟩

/-- The bound is sharp: both integers from 0 to 1 have a node that is not split. -/
theorem search_ends_half :
    (Config.standard : Config Float).Built ∧
    ((half.relaxation .minimise).task .standard fun _ => ⟨0⟩).Bounded ∧
    ((half.relaxation .minimise).task .standard fun _ => ⟨0⟩).points = 2 ∧
    (((half.relaxation .minimise).task .standard fun _ => ⟨0⟩).run 3).1.statistics.nodesCreated = 3 ∧
    (((half.relaxation .minimise).task .standard fun _ => ⟨0⟩).run 3).1.statistics.nodesCreated ≤
      2 * max 1 ((half.relaxation .minimise).task .standard fun _ => ⟨0⟩).points - 1 := by
  have bounded : ((half.relaxation .minimise).task .standard fun _ => ⟨0⟩).Bounded := by
    decide +kernel
  obtain ⟨clamps, ends⟩ := search_ends half .minimise .standard (fun _ => ⟨0⟩) bounded
  exact ⟨.standard, bounded, by decide +kernel, by decide +kernel, (ends _ clamps).2.1 3⟩

/-- Limits that are declared finite are no finite limits of the root where the tolerance they are moved
by is infinite. -/
example : ¬ ((half.relaxation .minimise).task (Config.standard.withIntegrality ⟨7, -400⟩)
    fun _ => ⟨0⟩).Bounded := by
  decide +kernel

end Model

end Milp
