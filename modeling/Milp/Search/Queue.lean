import Milp.Number.Scalar

/-!
# Queues of nodes

The nodes that wait: the lowest bound is taken first, and of equal bounds the oldest node. A queue is
a binary tree in which no entry has one below it that is taken before it. An addition goes down the
right side and the sides then change places, so both stay of one size, up to one entry, and no way
down is long. `size_of_pop?` says that taking an entry leaves a smaller queue.
-/

namespace Milp

/-- A node that waits. -/
structure QueueEntry (L : Type) where
  bound : L
  sequence : Nat
  node : Nat

namespace QueueEntry

variable {K L : Type} [Limits L K]

/-- The order of entries by importance: both keys are reversed, so that the greatest entry is the one
with the lowest bound, and of these the oldest. -/
def compare (a b : QueueEntry L) : Ordering :=
  (Limits.compare b.bound a.bound).then (Ord.compare b.sequence a.sequence)

/-- Whether an entry is taken before another. The greatest entry is taken first. -/
def isBefore (a b : QueueEntry L) : Bool :=
  a.compare b == .gt

end QueueEntry

/-- A queue, as a tree with the entry that is taken next at its top. -/
inductive Queue (L : Type)
  | empty
  | node (top : QueueEntry L) (left right : Queue L)

namespace Queue

variable {K L : Type}

/-! ## Reading -/

/-- Whether nothing waits. -/
def isEmpty : Queue L → Bool
  | empty => true
  | node .. => false

/-- The number of entries. -/
def size : Queue L → Nat
  | empty => 0
  | node _ left right => left.size + right.size + 1

/-- The entry that is taken next. -/
def top? : Queue L → Option (QueueEntry L)
  | empty => none
  | node top .. => some top

/-- The entries, each before those below it. -/
def toList : Queue L → List (QueueEntry L)
  | empty => []
  | node top left right => top :: (left.toList ++ right.toList)

/-- The lowest bound in a queue. -/
def lowestBound [Limits L K] (q : Queue L) : Option L :=
  match q.toList with
  | [] => none
  | e :: es => some (es.foldl (fun best f => min best f.bound) e.bound)

/-! ## Adding -/

/-- The queue with an entry added. -/
def add [Limits L K] (e : QueueEntry L) : Queue L → Queue L
  | empty => node e empty empty
  | node top left right =>
    if e.isBefore top then node e (add top right) left else node top (add e right) left

/-! ## Taking -/

/-- A queue without the entry at the end of its left side, and that entry. -/
def removeLast? : Queue L → Option (QueueEntry L × Queue L)
  | empty => none
  | node top left right =>
    match left.removeLast? with
    | none => some (top, right)
    | some (last, left) => some (last, node top right left)

/-- Whether the top of a queue is taken before an entry. -/
def leads [Limits L K] (q : Queue L) (e : QueueEntry L) : Bool :=
  q.top?.any (·.isBefore e)

/-- A queue with another entry in place of its top. The new one goes down, past the earlier of the two
entries below, until neither is taken before it. -/
def replaceTop [Limits L K] (e : QueueEntry L) : Queue L → Queue L
  | empty => empty
  | node _ left right =>
    match left.top?, right.top? with
    | some a, some b =>
      if a.isBefore b then
        if a.isBefore e then node a (replaceTop e left) right else node e left right
      else
        if b.isBefore e then node b left (replaceTop e right) else node e left right
    | some a, none => if a.isBefore e then node a (replaceTop e left) right else node e left right
    | none, some b => if b.isBefore e then node b left (replaceTop e right) else node e left right
    | none, none => node e left right

/-- The entry that is taken next, and the queue of the others. -/
def pop? [Limits L K] : Queue L → Option (QueueEntry L × Queue L)
  | empty => none
  | node top left right =>
    match left.removeLast? with
    | none => some (top, right)
    | some (last, left) => some (top, replaceTop last (node top right left))

/-! ## Sizes -/

theorem size_replaceTop [Limits L K] (e : QueueEntry L) (q : Queue L) :
    (replaceTop e q).size = q.size := by
  fun_induction replaceTop e q <;> simp_all [size]

theorem eq_empty_of_removeLast? {q : Queue L} (h : q.removeLast? = none) : q = empty := by
  cases q with
  | empty => rfl
  | node top left right =>
    rw [removeLast?] at h
    split at h <;> simp at h

theorem size_of_removeLast? {q rest : Queue L} {e : QueueEntry L}
    (h : q.removeLast? = some (e, rest)) : rest.size + 1 = q.size := by
  fun_induction removeLast? q generalizing e rest with
  | case1 => simp at h
  | case2 top left right hl _ =>
    simp only [Option.some.injEq, Prod.mk.injEq] at h
    simp [eq_empty_of_removeLast? hl, size, ← h.2]
  | case3 top left right last left' hl ih =>
    simp only [Option.some.injEq, Prod.mk.injEq] at h
    rw [← h.2, size, size, ← ih hl]
    omega

/-- Taking an entry leaves one entry less. -/
theorem size_of_pop? [Limits L K] {q rest : Queue L} {e : QueueEntry L}
    (h : q.pop? = some (e, rest)) : rest.size + 1 = q.size := by
  cases q with
  | empty => simp [pop?] at h
  | node top left right =>
    rw [pop?] at h
    split at h
    · rename_i hl
      simp only [Option.some.injEq, Prod.mk.injEq] at h
      simp [eq_empty_of_removeLast? hl, size, ← h.2]
    · rename_i last left' hl
      simp only [Option.some.injEq, Prod.mk.injEq] at h
      rw [← h.2, size_replaceTop, size, size, ← size_of_removeLast? hl]
      omega

theorem size_lt_of_pop? [Limits L K] {q rest : Queue L} {e : QueueEntry L}
    (h : q.pop? = some (e, rest)) : rest.size < q.size :=
  Nat.lt_of_succ_le (Nat.le_of_eq (size_of_pop? h))

end Queue

end Milp
