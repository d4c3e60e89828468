import Milp.Proofs.Binary64.Reading
import Milp.Proofs.Search.Size
import Milp.Proofs.Simplex.Verdict
import Milp.Solve

/-!
# No integer point is lost

Results:
1. `one_leaf_for_integers`: at every moment integers within the root's bounds belong to exactly one
   node that is not split, and that node has ended when the search is exhausted.
2. `bound_of_leaf_undefined`: a node may be given up with a bound that is undefined, and is then not
   at least anything.
-/

namespace Milp.SearchTask

variable {K L : Type} [Scalar K] [Limits L K] [Readable L K] {n m : Nat}

/-- Giving up the nodes that wait moves no point. -/
theorem leafFor_abandon {s : Search K L n} {batch : List Nat} {box : Box L n} {P : Fin n → Prop}
    {z : Vector Rat n} (h : (⟨s, batch⟩ : Moment K L n).Frontier) (i : Nat) :
    s.abandon.tree.LeafFor box P z i ↔ s.tree.LeafFor box P z i := by
  unfold Tree.LeafFor
  rw [Search.bounds_abandon, Search.nodes_abandon]
  by_cases waits : i ∈ s.queue.toList.map (·.node)
  · obtain ⟨x, hx, pending⟩ := h.mem_of_waits (List.mem_append_left _ waits)
    have hx' : s.tree.nodes[i]? = some x := hx
    simp [waits, hx', pending]
  · rw [if_neg waits]

/-- No integer point is lost and none is doubled. At every moment of a search, and in the tree that
the search ends with, integers for the integer columns that lie in the root's bounds lie in the
bounds of exactly one node that is not split; and when the search is exhausted that node has ended. The
values that the solver gives integer columns are defined, as they are where they lie within bounds. -/
theorem one_leaf_for_integers (k : SearchTask K L n m) (defined : k.Defined) (z : Vector Int n)
    (inside : k.box.reading.HoldsOn (fun j => k.isInteger j = true) (z.map Int.cast)) :
    (∀ f, k.Reached f →
      ∃! i, f.search.tree.LeafFor k.box (fun j => k.isInteger j = true) (z.map Int.cast) i) ∧
    (∀ roundLimit,
      k.Reached ⟨(k.rounds roundLimit .start).1, []⟩ ∧
      ∃! i, (k.run roundLimit).1.tree.LeafFor k.box (fun j => k.isInteger j = true)
        (z.map Int.cast) i) ∧
    (∀ roundLimit s i, k.rounds roundLimit .start = (s, .exhausted) →
      s.tree.LeafFor k.box (fun j => k.isInteger j = true) (z.map Int.cast) i → k.Ended s i) := by
  have integral (j : Fin n) (_ : k.isInteger j = true) :
      ∃ i : Int, (z.map Int.cast : Vector Rat n)[j] = i := ⟨z[j], by simp⟩
  have moments (f : Moment K L n) (reached : k.Reached f) :=
    leaf_of_reached defined (fun _ hj => hj) integral inside reached
  refine ⟨moments, ?_, ?_⟩
  · intro roundLimit
    have reached := k.rounds_reached roundLimit
    refine ⟨reached, ?_⟩
    have abandoned (i : Nat) : (k.rounds roundLimit .start).1.abandon.tree.LeafFor k.box
        (fun j => k.isInteger j = true) (z.map Int.cast) i ↔ _ :=
      leafFor_abandon reached.frontier i
    have tree : (k.run roundLimit).1.tree = (k.rounds roundLimit .start).1.abandon.tree := rfl
    simp only [tree, abandoned]
    exact moments _ reached
  · intro roundLimit s i exhausted leaf
    obtain ⟨x, here, unsplit, -⟩ := leaf
    exact ended_of_exhausted exhausted here unsplit

/-- Twice an integer from 0 to 3 is at least 1: the relaxation ends halfway between two integers. -/
def halves : SearchTask Float Float 1 1 :=
  Relaxation.task
    { columns := .replicate 1 [(Fin.last 0, 2)]
      rows := ⟨.replicate 1 1, .replicate 1 (1 / 0)⟩
      cost := .replicate 1 1
      box := ⟨.replicate 1 0, .replicate 1 3⟩
      integer := .replicate 1 true
      direction := .minimise
      constant := 0 }
    .standard fun _ => ⟨0⟩

theorem one_leaf_for_halves :
    halves.Defined ∧
    halves.box.reading.HoldsOn (fun j => halves.isInteger j = true) (#v[1].map Int.cast) ∧
    (halves.rounds 5 .start).2 = .exhausted ∧ (halves.rounds 5 .start).1.tree.nodes.size = 3 ∧
    (∃! i, (halves.run 5).1.tree.LeafFor halves.box (fun j => halves.isInteger j = true)
      (#v[1].map Int.cast) i) ∧
    ∀ i, (halves.rounds 5 .start).1.tree.LeafFor halves.box
      (fun j => halves.isInteger j = true) (#v[1].map Int.cast) i →
        halves.Ended (halves.rounds 5 .start).1 i := by
  have defined : halves.Defined :=
    Bounded.defined (halves.relaxation.clamps_solveWithin _ _) (by decide +kernel) (by decide +kernel)
  have inside : halves.box.reading.Holds (#v[1].map Int.cast) := by decide +kernel
  have stop : (halves.rounds 5 .start).2 = .exhausted := by decide +kernel
  obtain ⟨-, ends, ended⟩ := one_leaf_for_integers halves defined #v[1] fun j _ => inside j
  exact ⟨defined, fun j _ => inside j, stop, by decide +kernel, (ends 5).2,
    fun i => ended 5 _ i (Prod.ext rfl stop)⟩

/-- An integer from 0 to 1 and a number above two lines that cross at a half, with an undefined constant
in the objective: the relaxation ends where the lines cross. -/
def crossing : SearchTask Float Float 2 2 :=
  Relaxation.task
    { columns := #v[[(⟨0, Nat.two_pos⟩, 2), (.last 1, -1)], [(⟨0, Nat.two_pos⟩, 1), (.last 1, 1)]]
      rows := ⟨#v[1, -0.5], .replicate 2 (1 / 0)⟩
      cost := #v[0, 1]
      box := ⟨#v[0, 0], #v[1, 2]⟩
      integer := #v[true, false]
      direction := .minimise
      constant := 0 / 0 }
    .standard fun _ => ⟨0⟩

/-- The half with 0 has an incumbent, and the half with 1 is given up although it has an optimum. All
costs are defined, but none of them is at most its bound. -/
theorem bound_of_leaf_undefined :
    let s := (crossing.rounds 3 .start).1
    crossing.Defined ∧ (crossing.rounds 3 .start).2 = .exhausted ∧
      s.tree.LeafFor crossing.box (fun j => crossing.isInteger j = true) (#v[1, 0].map Int.cast) 2 ∧
      (∃ objective values,
        (crossing.solver (s.tree.bounds 2 crossing.box)).verdict = .optimal objective values) ∧
      ∃ x, s.tree.nodes[2]? = some x ∧ x.state = .dominated ∧ ∀ cutoff, ¬ cutoff ≤ x.bound := by
  intro s
  have defined : crossing.Defined :=
    Bounded.defined (crossing.relaxation.clamps_solveWithin _ _) (by decide +kernel)
      (by decide +kernel)
  have inside : (s.tree.bounds 2 crossing.box).reading.Holds (#v[1, 0].map Int.cast) := by
    decide +kernel
  have solved : (crossing.solver (s.tree.bounds 2 crossing.box)).verdict =
      .optimal (0 / 0) #v[1, 0.5] := by
    decide +kernel
  have dominated : s.tree.nodes[2]?.map (fun x => (x.state, x.bound)) =
      some (.dominated, 0 / 0) := by
    decide +kernel
  obtain ⟨x, here, same⟩ := Option.map_eq_some_iff.mp dominated
  obtain ⟨state, bound⟩ := Prod.mk.inj same
  refine ⟨defined, by decide +kernel, ⟨x, here, by simp [state], fun j _ => inside j⟩,
    ⟨_, _, solved⟩, x, here, state, ?_⟩
  intro cutoff most
  rw [bound] at most
  obtain ⟨-, q, -, read, -⟩ := (Readable.le_iff_read (L := Float)).mp most
  cases read

end Milp.SearchTask
