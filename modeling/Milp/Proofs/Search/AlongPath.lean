import Mathlib.Order.OrderDual
import Milp.Proofs.Binary64.Extremes
import Milp.Proofs.Search.Growth

/-!
# Bounds along the path, over doubles

The bounds of a node are rebuilt on the walk from the node up to the root, against the order in which
the changes were made. Where the limits of a box of doubles stand is a join of what the changes
demand, so the order makes no difference, up to the signs of zeros. Equality of doubles does not see
these.

Results:
1. `places_tighten`, `places_foldl_of_perm`: where the limits of a box stand after a change, and after
   changes in any order.
2. `Tree.bounds_along_path`: the bounds of the nodes of a tree that has grown from a root.
-/

namespace Milp

open scoped List
open Binary64

variable {n : Nat}

/-! ## Boxes of doubles -/

namespace Box

variable {a b : Box Float n}

/-- No limit of a box is undefined. -/
def Defined (box : Box Float n) : Prop :=
  ∀ j : Fin n, box.lower[j].isNaN = false ∧ box.upper[j].isNaN = false

instance (box : Box Float n) : Decidable box.Defined :=
  inferInstanceAs (Decidable (∀ _, _))

/-- Two boxes have equal limits. Zeros are equal, whatever their signs. -/
def Equals (a b : Box Float n) : Prop :=
  ∀ j : Fin n, (a.lower[j] == b.lower[j]) = true ∧ (a.upper[j] == b.upper[j]) = true

instance (a b : Box Float n) : Decidable (a.Equals b) :=
  inferInstanceAs (Decidable (∀ _, _))

/-- The limits of a box lie within those of another. -/
def Within (inner outer : Box Float n) : Prop :=
  ∀ j : Fin n, outer.lower[j] ≤ inner.lower[j] ∧ inner.upper[j] ≤ outer.upper[j]

/-- Where the limits of a box stand; higher is narrower. -/
def places (box : Box Float n) (j : Fin n) : WithBot Int × (WithTop Int)ᵒᵈ :=
  (lowerPlace box.lower[j], .toDual (upperPlace box.upper[j]))

theorem Defined.of_places_le (h : a.Defined) (le : a.places ≤ b.places) : b.Defined := by
  intro j
  obtain ⟨lower, upper⟩ := le j
  constructor
  · refine (nan_or_defined _).resolve_left fun nan => ?_
    have none : lowerPlace a.lower[j] ≤ ⊥ := lower.trans_eq (congrArg lowerPlace nan)
    rw [lowerPlace_of_defined (h j).1] at none
    exact WithBot.not_coe_le_bot _ none
  · refine (nan_or_defined _).resolve_left fun nan => ?_
    have none : ⊤ ≤ upperPlace a.upper[j] := (congrArg upperPlace nan).symm.trans_le upper
    rw [upperPlace_of_defined (h j).2] at none
    exact WithTop.not_top_le_coe _ none

theorem within_of_places_le (h : a.Defined) (le : a.places ≤ b.places) : b.Within a := by
  have defined := h.of_places_le le
  exact fun j => ⟨(lowerPlace_le (h j).1 (defined j).1).mp (le j).1,
    (upperPlace_le (defined j).2 (h j).2).mp (le j).2⟩

theorem equals_of_places_eq (h : a.Defined) (same : a.places = b.places) : a.Equals b := by
  have inside := within_of_places_le h same.le
  have outside := within_of_places_le (h.of_places_le same.le) same.ge
  exact fun j => ⟨beq_iff_le.mpr ⟨(inside j).1, (outside j).1⟩,
    beq_iff_le.mpr ⟨(outside j).2, (inside j).2⟩⟩

end Box

/-! ## Changes -/

/-- Where a change demands that limits stand. -/
def BoundChange.demand (c : BoundChange Float n) : Fin n → WithBot Int × (WithTop Int)ᵒᵈ :=
  Function.update ⊥ c.column (lowerPlace c.lower, .toDual (upperPlace c.upper))

namespace Tree

variable {box : Box Float n}

/-- A change moves limits to where it demands them, unless they are there already. -/
theorem places_tighten (box : Box Float n) (c : BoundChange Float n) :
    (tighten box c).places = box.places ⊔ c.demand := by
  funext j
  rw [Box.places, (getElem_tighten box c j).1, (getElem_tighten box c j).2, Pi.sup_apply,
    BoundChange.demand]
  by_cases hj : c.column = j
  · subst hj
    rw [if_pos rfl, if_pos rfl, Function.update_self]
    exact Prod.ext (lowerPlace_max _ _) (congrArg OrderDual.toDual (upperPlace_min _ _))
  · rw [if_neg hj, if_neg hj, Function.update_of_ne (Ne.symm hj), Pi.bot_apply, sup_bot_eq]
    rfl

theorem places_foldl (cs : List (BoundChange Float n)) (box : Box Float n) :
    (cs.foldl tighten box).places = cs.foldl (fun v c => v ⊔ c.demand) box.places := by
  induction cs generalizing box with
  | nil => rfl
  | cons c cs ih => rw [List.foldl_cons, List.foldl_cons, ih, places_tighten]

/-- It does not matter in which order changes are made. -/
theorem places_foldl_of_perm {cs ds : List (BoundChange Float n)} (same : cs ~ ds)
    (box : Box Float n) : (cs.foldl tighten box).places = (ds.foldl tighten box).places := by
  rw [places_foldl, places_foldl]
  exact same.foldl_eq' (fun c _ d _ v => sup_right_comm v c.demand d.demand) _

/-- Changes move limits inwards only. -/
theorem places_le_foldl (cs : List (BoundChange Float n)) (box : Box Float n) :
    box.places ≤ (cs.foldl tighten box).places := by
  induction cs generalizing box with
  | nil => exact le_rfl
  | cons c cs ih =>
    have first : box.places ≤ (tighten box c).places := by
      rw [places_tighten]
      exact le_sup_left
    exact first.trans (ih _)

theorem defined_foldl (h : box.Defined) (cs : List (BoundChange Float n)) :
    (cs.foldl tighten box).Defined :=
  h.of_places_le (places_le_foldl cs box)

/-- A change that is made first may be made last. -/
theorem equals_foldl_cons (h : box.Defined) (c : BoundChange Float n)
    (cs : List (BoundChange Float n)) :
    ((c :: cs).foldl tighten box).Equals (tighten (cs.foldl tighten box) c) := by
  refine Box.equals_of_places_eq (defined_foldl h _) ?_
  rw [places_foldl_of_perm (List.perm_append_singleton c cs).symm, List.foldl_append]
  rfl

/-- More changes lead further inwards, wherever they stand among the others. -/
theorem within_foldl_append (h : box.Defined) (cs ds : List (BoundChange Float n)) :
    ((cs ++ ds).foldl tighten box).Within (ds.foldl tighten box) := by
  refine Box.within_of_places_le (defined_foldl h ds) ?_
  rw [places_foldl_of_perm List.perm_append_comm, List.foldl_append]
  exact places_le_foldl cs _

/-! ## Trees -/

/-- Of a tree that has grown from a root: every node is numbered by its place and made after its
parent, so the walk from a node by way of parents ends; it is as long as the node is deep. The bounds
of the node are those of the root with the changes on this walk, in any order, and lie within the
bounds of every node on it. A child has the bounds of its parent, but for the column of its change:
there the higher of two lower limits counts, and the lower of two upper ones. Whatever becomes of the
tree later, the bounds of a node stay as they are. -/
theorem bounds_along_path {t : Tree Float n} (grown : t.Grown) {box : Box Float n}
    (defined : box.Defined) :
    (∀ i x, t.nodes[i]? = some x →
      x.sequence = i ∧ (∀ p, x.parent = some p → p < i) ∧
      ∃ ids, t.Ascent (some i) ids ∧ ids.getLast? = some rootId ∧ ids.length = x.depth + 1 ∧
        t.bounds i box = (ids.filterMap t.changeAt).foldl tighten box ∧
        (∀ cs, cs ~ ids.filterMap t.changeAt → (cs.foldl tighten box).Equals (t.bounds i box)) ∧
        ∀ a ∈ ids, (t.bounds i box).Within (t.bounds a box)) ∧
    (∀ p c, p < t.nodes.size → ∀ j : Fin n,
      let old := t.bounds p box
      let new := (t.child p c).1.bounds (t.child p c).2 box
      (new.lower[j] == if c.column = j then Double.max old.lower[j] c.lower else old.lower[j]) ∧
        (new.upper[j] == if c.column = j then Double.min old.upper[j] c.upper else old.upper[j])) ∧
    ∀ t', t.Grows t' → ∀ i < t.nodes.size, t'.bounds i box = t.bounds i box := by
  refine ⟨?_, ?_, ?_⟩
  · intro i x here
    obtain ⟨sequence, placed⟩ := placed_of_grown grown here
    obtain ⟨ids, ascent, last, length, path, parts⟩ := exists_ascent grown here
    refine ⟨sequence, fun p => placed.parent_lt, ids, ascent, last, length, by rw [bounds, path],
      ?_, ?_⟩
    · intro cs same
      refine Box.equals_of_places_eq (defined_foldl defined cs) ?_
      rw [places_foldl_of_perm same, bounds, path]
    · intro a ha
      obtain ⟨later, split⟩ := parts a ha
      rw [bounds, bounds, ← split]
      exact within_foldl_append defined later _
  · intro p c there j old new
    have equal : new.Equals (tighten old c) := by
      show ((t.child p c).1.bounds t.nodes.size box).Equals _
      rw [bounds, path_child t c there]
      exact equals_foldl_cons defined c (t.path p)
    have limits := getElem_tighten old c j
    exact ⟨limits.1 ▸ (equal j).1, limits.2 ▸ (equal j).2⟩
  · intro t' grows i there
    exact bounds_congr (grows.path_eq there)

/-- Below a lower limit of negative zero stand one of positive zero and an undefined upper limit. Made
one after the other the changes leave negative zero, and positive zero on the walk up; the limits are
equal. -/
theorem bounds_along_path_zeros :
    let first : BoundChange Float 2 := ⟨0, -0, Limits.above⟩
    let second : BoundChange Float 2 := ⟨0, 0, .nan⟩
    let box : Box Float 2 := ⟨#v[-1, 0], #v[10, 10]⟩
    let t := ((root.child 0 first).1.child 1 second).1
    t.Grown ∧ box.Defined ∧ t.bounds 2 box = ⟨#v[0, 0], #v[10, 10]⟩ ∧
      tighten (tighten box first) second = ⟨#v[-0, 0], #v[10, 10]⟩ ∧
      (tighten (tighten box first) second).Equals (t.bounds 2 box) := by
  intro first second box t
  have grown : t.Grown := .tail (.single (.child _ Nat.one_pos first)) (.child _ (by decide) second)
  have defined : box.Defined := by decide
  obtain ⟨-, -, ids, ascent, -, -, walk, reordered, -⟩ :=
    (bounds_along_path grown defined).1 2 _ rfl
  obtain rfl : ids = [2, 1, 0] := by
    cases ascent with | up leaf above =>
    cases leaf
    cases above with | up middle above =>
    cases middle
    cases above with | up top above =>
    cases top
    cases above
    rfl
  exact ⟨grown, defined, walk.trans (by decide), by decide, reordered [first, second] (.swap ..)⟩

end Tree

end Milp
