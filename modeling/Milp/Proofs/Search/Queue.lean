import Mathlib.Data.List.Perm.Basic
import Milp.Proofs.Reading
import Milp.Search.Queue

/-!
# Entries of a queue

Adding and taking entries neither loses nor doubles any.

Results:
1. `toList_add`, `toList_of_pop?`: the entries after an addition, and before a taking, up to their
   order.
2. `lowestBound_lt_iff`: the lowest bound of a queue is less than what the bound of an entry is less than.
-/

namespace Milp.Queue

open scoped List

variable {K L : Type}

theorem length_toList (q : Queue L) : q.toList.length = q.size := by
  induction q with
  | empty => rfl
  | node top left right ihl ihr =>
    simp only [toList, size, List.length_cons, List.length_append, ihl, ihr]

theorem toList_eq_nil_iff {q : Queue L} : q.toList = [] ↔ q.isEmpty := by
  cases q <;> simp [toList, isEmpty]

/-- Adding an entry adds that entry. -/
theorem toList_add [Limits L K] (e : QueueEntry L) (q : Queue L) :
    (q.add e).toList ~ e :: q.toList := by
  induction q generalizing e with
  | empty => exact .refl _
  | node top left right _ ih =>
    rw [add]
    split
    · calc e :: ((add top right).toList ++ left.toList)
        _ ~ e :: (top :: right.toList ++ left.toList) := ((ih top).append_right _).cons e
        _ ~ e :: top :: (left.toList ++ right.toList) := (List.perm_append_comm.cons top).cons e
    · calc top :: ((add e right).toList ++ left.toList)
        _ ~ top :: (e :: right.toList ++ left.toList) := ((ih e).append_right _).cons top
        _ ~ top :: e :: (left.toList ++ right.toList) := (List.perm_append_comm.cons e).cons top
        _ ~ e :: top :: (left.toList ++ right.toList) := .swap e top _

/-- The queue with two children of a bound, made as the nodes of two numbers. -/
def addPair [Limits L K] (q : Queue L) (bound : L) (first : Nat) : Queue L :=
  (q.add ⟨bound, first, first⟩).add ⟨bound, first + 1, first + 1⟩

theorem toList_addPair [Limits L K] (q : Queue L) (bound : L) (first : Nat) :
    (q.addPair bound first).toList ~
      ⟨bound, first + 1, first + 1⟩ :: ⟨bound, first, first⟩ :: q.toList :=
  (toList_add _ _).trans ((toList_add _ _).cons _)

theorem size_addPair [Limits L K] (q : Queue L) (bound : L) (first : Nat) :
    (q.addPair bound first).size = q.size + 2 := by
  rw [← length_toList, (toList_addPair q bound first).length_eq, ← length_toList]
  rfl

theorem toList_of_removeLast? {q rest : Queue L} {e : QueueEntry L}
    (h : q.removeLast? = some (e, rest)) : q.toList ~ e :: rest.toList := by
  fun_induction removeLast? q generalizing e rest with
  | case1 => simp at h
  | case2 top left right hl _ =>
    simp only [Option.some.injEq, Prod.mk.injEq] at h
    obtain ⟨rfl, rfl⟩ := h
    simp [eq_empty_of_removeLast? hl, toList]
  | case3 top left right last left' hl ih =>
    simp only [Option.some.injEq, Prod.mk.injEq] at h
    obtain ⟨rfl, rfl⟩ := h
    calc top :: (left.toList ++ right.toList)
      _ ~ top :: (last :: left'.toList ++ right.toList) := ((ih hl).append_right _).cons top
      _ ~ last :: top :: (left'.toList ++ right.toList) := .swap last top _
      _ ~ last :: top :: (right.toList ++ left'.toList) := (List.perm_append_comm.cons top).cons last

theorem perm_exchange {e t a : QueueEntry L} {xs ys : List (QueueEntry L)}
    (zs : List (QueueEntry L)) (h : a :: xs ~ e :: ys) :
    t :: a :: (xs ++ zs) ~ e :: t :: (ys ++ zs) :=
  ((h.append_right zs).cons t).trans (.swap e t _)

/-- Moving another entry down from the top puts it in the place of the top. -/
theorem toList_replaceTop [Limits L K] {e t : QueueEntry L} {q : Queue L} (h : q.top? = some t) :
    t :: (replaceTop e q).toList ~ e :: q.toList := by
  fun_induction replaceTop e q generalizing t with
  | case1 => simp [top?] at h
  -- the entry at the left or the one at the right goes up, or the new entry stays at the top
  | case2 top left right a b _ ha _ _ ih | case6 top left right a _ ha _ ih =>
    cases h
    exact perm_exchange right.toList (ih ha)
  | case4 top left right a b hb _ _ _ ih | case8 top left right b hb _ _ ih =>
    cases h
    calc top :: b :: (left.toList ++ (replaceTop e right).toList)
      _ ~ top :: b :: ((replaceTop e right).toList ++ left.toList) :=
        (List.perm_append_comm.cons b).cons top
      _ ~ e :: top :: (right.toList ++ left.toList) := perm_exchange left.toList (ih hb)
      _ ~ e :: top :: (left.toList ++ right.toList) := (List.perm_append_comm.cons top).cons e
  | case3 | case5 | case7 | case9 | case10 =>
    cases h
    exact .swap e _ _

/-- Taking an entry leaves the others. -/
theorem toList_of_pop? [Limits L K] {q rest : Queue L} {e : QueueEntry L}
    (h : q.pop? = some (e, rest)) : q.toList ~ e :: rest.toList := by
  cases q with
  | empty => simp [pop?] at h
  | node top left right =>
    rw [pop?] at h
    split at h
    · rename_i hl
      simp only [Option.some.injEq, Prod.mk.injEq] at h
      obtain ⟨rfl, rfl⟩ := h
      simp [eq_empty_of_removeLast? hl, toList]
    · rename_i last left' hl
      simp only [Option.some.injEq, Prod.mk.injEq] at h
      obtain ⟨rfl, rfl⟩ := h
      have below : left.toList ++ right.toList ~ last :: (right.toList ++ left'.toList) :=
        ((toList_of_removeLast? hl).append_right _).trans (List.perm_append_comm.cons last)
      calc top :: (left.toList ++ right.toList)
        _ ~ top :: last :: (right.toList ++ left'.toList) := below.cons top
        _ ~ last :: top :: (right.toList ++ left'.toList) := .swap last top _
        _ ~ top :: (replaceTop last (node top right left')).toList :=
          (toList_replaceTop (q := node top right left') rfl).symm

/-- A queue in which something waits has an entry to take. -/
theorem pop?_eq_none_iff [Limits L K] {q : Queue L} : q.pop? = none ↔ q.isEmpty := by
  cases q with
  | empty => simp [pop?, isEmpty]
  | node top left right =>
    rw [pop?]
    split <;> simp [isEmpty]

section Lowest

variable [Scalar K] [Limits L K] [Readable L K]

theorem foldl_min_lt (es : List (QueueEntry L)) (b c : L) :
    es.foldl (fun best e => min best e.bound) b < c ↔ b < c ∨ ∃ e ∈ es, e.bound < c := by
  induction es generalizing b with
  | nil => simp
  | cons e es ih => simp [ih, Readable.min_lt, or_assoc]

/-- The lowest bound of a queue is less than what the bound of an entry is less than. -/
theorem lowestBound_lt_iff {q : Queue L} {c : L} :
    (∃ b, q.lowestBound = some b ∧ b < c) ↔ ∃ e ∈ q.toList, e.bound < c := by
  unfold lowestBound
  cases q.toList with
  | nil => simp
  | cons e es => simp [foldl_min_lt]

end Lowest

end Milp.Queue
