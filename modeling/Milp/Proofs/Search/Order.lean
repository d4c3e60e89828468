import Mathlib.Data.List.Nodup
import Milp.Proofs.Search.Queue

/-!
# The order of a queue

No entry of a queue has one below it that is taken before it, and whatever is added or taken, this
stays so. What is taken is therefore first among all entries, and which entry that is does not depend
on how they lie in the tree.

Results:
1. `Ordered.add`, `Ordered.pop?`: additions and takings keep a queue in order.
2. `isBefore_of_pop?`, `pop?_of_perm`: what is taken comes before all that is left, and it is the same
   for queues of the same entries.
3. `drain_ofList`: entries that are put into a queue are taken once each and in order.
-/

namespace Milp

open scoped List

variable {K L : Type} [Limits L K]

/-! ## The order of entries -/

namespace QueueEntry

/-- The order in which entries are taken: by their bounds, and of equal bounds the older one first. -/
def order : QueueEntry L → QueueEntry L → Ordering :=
  compareLex (fun a b => Limits.compare a.bound b.bound) (compareOn sequence)

/-- An entry may be taken before another, which is not to be taken before it. -/
def NotAfter (a b : QueueEntry L) : Prop :=
  b.isBefore a = false

variable {a b c : QueueEntry L}

variable [Std.TransCmp (Limits.compare : L → L → Ordering)]

/-- The order by importance is the order of taking, reversed. -/
theorem compare_eq_swap (a b : QueueEntry L) : a.compare b = (order a b).swap := by
  have bounds : Limits.compare b.bound a.bound = (Limits.compare a.bound b.bound).swap :=
    Std.OrientedCmp.eq_swap
  rw [QueueEntry.compare, order, compareLex, compareOn, Ordering.swap_then, bounds,
    ← Nat.compare_swap]

/-- The greatest of some entries is the least in the order of taking. -/
theorem isBefore_iff : a.isBefore b = true ↔ order a b = .lt := by
  rw [isBefore, compare_eq_swap]
  cases order a b <;> decide

instance : Std.TransCmp fun a b : QueueEntry L => Limits.compare a.bound b.bound where
  eq_swap := Std.OrientedCmp.eq_swap
  isLE_trans := Std.TransCmp.isLE_trans

instance : Std.TransCmp (order : QueueEntry L → QueueEntry L → Ordering) :=
  inferInstanceAs (Std.TransCmp (compareLex _ _))

theorem notAfter_iff : a.NotAfter b ↔ (order a b).isLE = true := by
  have swapped : order a b = .gt ↔ order b a = .lt := Std.OrientedCmp.gt_iff_lt
  rw [NotAfter, ← Bool.not_eq_true, isBefore_iff, ← swapped]
  cases order a b <;> simp

theorem NotAfter.of_isBefore (h : a.isBefore b = true) : a.NotAfter b := by
  rw [notAfter_iff, isBefore_iff.mp h]
  rfl

theorem NotAfter.trans (hab : a.NotAfter b) (hbc : b.NotAfter c) : a.NotAfter c :=
  notAfter_iff.mpr (Std.TransCmp.isLE_trans (notAfter_iff.mp hab) (notAfter_iff.mp hbc))

theorem NotAfter.refl (a : QueueEntry L) : a.NotAfter a := by
  have same : order a a = .eq := Std.ReflCmp.compare_self
  rw [notAfter_iff, same]
  rfl

omit [Std.TransCmp (Limits.compare : L → L → Ordering)] in
theorem NotAfter.of_not_isBefore (h : ¬ b.isBefore a = true) : a.NotAfter b :=
  Bool.eq_false_iff.mpr h

omit [Std.TransCmp (Limits.compare : L → L → Ordering)] in
theorem sequence_eq_of_order (h : order a b = .eq) : a.sequence = b.sequence := by
  unfold order compareLex at h
  exact Nat.compare_eq_eq.mp (Ordering.then_eq_eq.mp h).2

/-- Of two entries with different numbers one is before the other. -/
theorem NotAfter.isBefore (h : a.NotAfter b) (ne : a.sequence ≠ b.sequence) :
    a.isBefore b = true := by
  rw [notAfter_iff] at h
  rw [isBefore_iff]
  cases compared : order a b with
  | lt => rfl
  | eq => exact absurd (sequence_eq_of_order compared) ne
  | gt => simp [compared] at h

/-- An entry is not after any entry of a queue. -/
def Heads (e : QueueEntry L) (q : Queue L) : Prop :=
  ∀ f ∈ q.toList, e.NotAfter f

end QueueEntry

namespace Queue

/-! ## Queues in order -/

/-- No entry has one below it that is taken before it. -/
inductive Ordered : Queue L → Prop
  | empty : Ordered .empty
  | node {top : QueueEntry L} {left right : Queue L} (leads_left : top.Heads left)
    (leads_right : top.Heads right) (hl : left.Ordered) (hr : right.Ordered) :
    Ordered (.node top left right)

variable {q rest left right : Queue L} {e f t : QueueEntry L}

theorem eq_empty_of_top? (h : q.top? = none) : q = .empty := by
  cases q with
  | empty => rfl
  | node => cases h

theorem heads_empty (e : QueueEntry L) : e.Heads .empty :=
  nofun

theorem heads_of_top?_none (none : q.top? = none) (e : QueueEntry L) : e.Heads q :=
  eq_empty_of_top? none ▸ heads_empty e

theorem heads_add (first : e.NotAfter f) (h : e.Heads q) : e.Heads (q.add f) := by
  intro g hg
  rcases List.mem_cons.mp ((toList_add f q).mem_iff.mp hg) with rfl | hg
  · exact first
  · exact h g hg

theorem heads_removeLast? (h : e.Heads q) (taken : q.removeLast? = some (f, rest)) :
    e.NotAfter f ∧ e.Heads rest := by
  have entries : q.toList ~ f :: rest.toList := toList_of_removeLast? taken
  exact ⟨h f (entries.mem_iff.mpr (List.mem_cons_self ..)),
    fun g hg => h g (entries.mem_iff.mpr (List.mem_cons_of_mem f hg))⟩

theorem heads_replaceTop (h : e.Heads q) (top : q.top? = some t) (first : e.NotAfter f) :
    e.Heads (replaceTop f q) := by
  intro g hg
  rcases List.mem_cons.mp ((toList_replaceTop top).mem_iff.mp (List.mem_cons_of_mem t hg)) with
    rfl | hg
  · exact first
  · exact h g hg

namespace Ordered

theorem removeLast? (h : q.Ordered) (taken : q.removeLast? = some (e, rest)) : rest.Ordered := by
  induction h generalizing e rest with
  | empty => cases taken
  | @node top left right leads_left leads_right hl hr ihl _ =>
    rw [Queue.removeLast?] at taken
    split at taken
    · cases taken
      exact hr
    · rename_i last left' below
      cases taken
      exact .node leads_right (heads_removeLast? leads_left below).2 hr (ihl below)

variable [Std.TransCmp (Limits.compare : L → L → Ordering)]

/-- What is not after the top of a queue in order is not after any of its entries. -/
theorem heads (h : q.Ordered) (top : q.top? = some t) (first : e.NotAfter t) : e.Heads q := by
  intro f hf
  cases h with
  | empty => cases top
  | node leads_left leads_right =>
    cases top
    rcases List.mem_cons.mp hf with rfl | hf
    · exact first
    · rcases List.mem_append.mp hf with hf | hf
      · exact first.trans (leads_left f hf)
      · exact first.trans (leads_right f hf)

theorem add (h : q.Ordered) (e : QueueEntry L) : (q.add e).Ordered := by
  induction h generalizing e with
  | empty => exact .node (heads_empty e) (heads_empty e) .empty .empty
  | @node top left right leads_left leads_right hl hr _ ih =>
    rw [Queue.add]
    split
    · rename_i before
      have before := QueueEntry.NotAfter.of_isBefore before
      exact .node (heads_add before fun f hf => before.trans (leads_right f hf))
        (fun f hf => before.trans (leads_left f hf)) (ih top) hl
    · rename_i after
      exact .node (heads_add (QueueEntry.NotAfter.of_not_isBefore after) leads_right) leads_left
        (ih e) hl

/-- A new entry goes down on the side of the earlier top, so what goes up is not after the other. -/
theorem replaceTop (h : q.Ordered) (e : QueueEntry L) : (replaceTop e q).Ordered := by
  fun_induction Queue.replaceTop e q with
  | case1 => exact .empty
  | case2 top left right a b hb ha between before ih =>
    cases h with | node _ _ hl hr =>
    exact .node (heads_replaceTop (hl.heads ha (.refl a)) ha (.of_isBefore before))
      (hr.heads hb (.of_isBefore between)) (ih hl) hr
  | case3 top left right a b hb ha between after =>
    cases h with | node _ _ hl hr =>
    have first : e.NotAfter a := .of_not_isBefore after
    exact .node (hl.heads ha first) (hr.heads hb (first.trans (.of_isBefore between))) hl hr
  | case4 top left right a b hb ha between before ih =>
    cases h with | node _ _ hl hr =>
    exact .node (hl.heads ha (.of_not_isBefore between))
      (heads_replaceTop (hr.heads hb (.refl b)) hb (.of_isBefore before)) hl (ih hr)
  | case5 top left right a b hb ha between after =>
    cases h with | node _ _ hl hr =>
    have first : e.NotAfter b := .of_not_isBefore after
    exact .node (hl.heads ha (first.trans (.of_not_isBefore between))) (hr.heads hb first) hl hr
  | case6 top left right a hb ha before ih =>
    cases h with | node _ _ hl hr =>
    exact .node (heads_replaceTop (hl.heads ha (.refl a)) ha (.of_isBefore before))
      (heads_of_top?_none hb a) (ih hl) hr
  | case7 top left right a hb ha after =>
    cases h with | node _ _ hl hr =>
    exact .node (hl.heads ha (.of_not_isBefore after)) (heads_of_top?_none hb e) hl hr
  | case8 top left right b hb ha before ih =>
    cases h with | node _ _ hl hr =>
    exact .node (heads_of_top?_none ha b)
      (heads_replaceTop (hr.heads hb (.refl b)) hb (.of_isBefore before)) hl (ih hr)
  | case9 top left right b hb ha after =>
    cases h with | node _ _ hl hr =>
    exact .node (heads_of_top?_none ha e) (hr.heads hb (.of_not_isBefore after)) hl hr
  | case10 top left right hb ha =>
    cases h with | node _ _ hl hr =>
    exact .node (heads_of_top?_none ha e) (heads_of_top?_none hb e) hl hr

/-- What is taken from a queue in order is not after anything that is left, and that is in order. -/
theorem pop? (h : q.Ordered) (taken : q.pop? = some (e, rest)) : e.Heads rest ∧ rest.Ordered := by
  have entries : q.toList ~ e :: rest.toList := toList_of_pop? taken
  cases h with
  | empty => cases taken
  | @node top left right leads_left leads_right hl hr =>
    have ordered : e = top ∧ rest.Ordered := by
      rw [Queue.pop?] at taken
      split at taken
      · cases taken
        exact ⟨rfl, hr⟩
      · rename_i last left' below
        cases taken
        exact ⟨rfl, replaceTop (.node leads_right (heads_removeLast? leads_left below).2 hr
          (hl.removeLast? below)) last⟩
    obtain ⟨rfl, ordered⟩ := ordered
    refine ⟨fun f hf => ?_, ordered⟩
    have below : left.toList ++ right.toList ~ rest.toList := entries.cons_inv
    rcases List.mem_append.mp (below.mem_iff.mpr hf) with hf | hf
    · exact leads_left f hf
    · exact leads_right f hf

end Ordered

/-! ## Queues of the same entries -/

/-- The numbers of the entries are distinct. -/
def Distinct (es : List (QueueEntry L)) : Prop :=
  (es.map (·.sequence)).Nodup

omit [Limits L K] in
theorem Distinct.perm {es es' : List (QueueEntry L)} (h : Distinct es) (same : es ~ es') :
    Distinct es' :=
  (same.map _).nodup_iff.mp h

omit [Limits L K] in
theorem Distinct.of_cons {es : List (QueueEntry L)} (h : Distinct (e :: es)) : Distinct es :=
  (List.nodup_cons.mp h).2

variable [Std.TransCmp (Limits.compare : L → L → Ordering)] {q' : Queue L}

/-- Entries of which neither is after the other are one entry. -/
theorem Distinct.eq_of_notAfter {es : List (QueueEntry L)} (h : Distinct es) (he : e ∈ es)
    (hf : f ∈ es) (hef : e.NotAfter f) (hfe : f.NotAfter e) : e = f := by
  refine List.inj_on_of_nodup_map h he hf (by_contra fun ne => ?_)
  exact Bool.false_ne_true (hfe.symm.trans (hef.isBefore ne))

/-- Which entry is taken does not depend on how the entries lie. -/
theorem pop?_of_perm (h : q.Ordered) (h' : q'.Ordered) (distinct : Distinct q.toList)
    (same : q.toList ~ q'.toList) (taken : q.pop? = some (e, rest)) :
    ∃ rest', q'.pop? = some (e, rest') ∧ rest'.Ordered ∧ rest.toList ~ rest'.toList := by
  have entries : q.toList ~ e :: rest.toList := toList_of_pop? taken
  obtain ⟨⟨e', rest'⟩, taken'⟩ : ∃ r, q'.pop? = some r := by
    refine Option.ne_none_iff_exists'.mp fun none => ?_
    rw [pop?_eq_none_iff, ← toList_eq_nil_iff] at none
    rw [none] at same
    exact List.cons_ne_nil _ _ (same.symm.trans entries).nil_eq.symm
  have entries' : q'.toList ~ e' :: rest'.toList := toList_of_pop? taken'
  have he : e ∈ q.toList := entries.mem_iff.mpr (List.mem_cons_self ..)
  have he' : e' ∈ q.toList := (same.trans entries').mem_iff.mpr (List.mem_cons_self ..)
  have first {t t' : QueueEntry L} {left : Queue L} (heads : t.Heads left)
      (ht' : t' ∈ t :: left.toList) : t.NotAfter t' := by
    rcases List.mem_cons.mp ht' with rfl | ht'
    · exact .refl _
    · exact heads t' ht'
  obtain rfl : e = e' := distinct.eq_of_notAfter he he'
    (first (h.pop? taken).1 (entries.mem_iff.mp he'))
    (first (h'.pop? taken').1 ((same.trans entries').mem_iff.mp he))
  exact ⟨rest', taken', (h'.pop? taken').2, (entries.symm.trans (same.trans entries')).cons_inv⟩

/-- What is taken comes before all that is left. -/
theorem isBefore_of_pop? (h : q.Ordered) (distinct : Distinct q.toList)
    (taken : q.pop? = some (e, rest)) : ∀ f ∈ rest.toList, e.isBefore f = true := by
  intro f hf
  refine ((h.pop? taken).1 f hf).isBefore fun same => ?_
  have distinct : Distinct (e :: rest.toList) := distinct.perm (toList_of_pop? taken)
  exact (List.nodup_cons.mp distinct).1 (List.mem_map.mpr ⟨f, hf, same.symm⟩)

/-! ## Emptying a queue -/

/-- The queue of some entries, which are put into it one after the other. -/
def ofList (es : List (QueueEntry L)) : Queue L :=
  es.foldl (fun q e => q.add e) .empty

/-- The entries of a queue, in the order in which they are taken. -/
def drain (q : Queue L) : List (QueueEntry L) :=
  match _taken : q.pop? with
  | none => []
  | some (e, rest) => e :: drain rest
termination_by q.size
decreasing_by exact size_lt_of_pop? _taken

omit [Std.TransCmp (Limits.compare : L → L → Ordering)] in
/-- What is taken from a queue until it is empty are its entries. -/
theorem drain_perm (q : Queue L) : q.drain ~ q.toList := by
  fun_induction drain q with
  | case1 q taken => rw [toList_eq_nil_iff.mpr (pop?_eq_none_iff.mp taken)]
  | case2 q e rest taken ih => exact (ih.cons e).trans (toList_of_pop? taken).symm

/-- Entries are taken in their order. -/
theorem pairwise_drain (h : q.Ordered) (distinct : Distinct q.toList) :
    q.drain.Pairwise fun e f => e.isBefore f = true := by
  fun_induction drain q with
  | case1 => exact .nil
  | case2 q e rest taken ih =>
    have left : Distinct rest.toList := (distinct.perm (toList_of_pop? taken)).of_cons
    refine .cons (fun f hf => ?_) (ih (h.pop? taken).2 left)
    exact isBefore_of_pop? h distinct taken f ((drain_perm rest).mem_iff.mp hf)

/-- Two queues of the same entries are emptied in one order. -/
theorem drain_eq_of_perm (h : q.Ordered) (h' : q'.Ordered) (distinct : Distinct q.toList)
    (same : q.toList ~ q'.toList) : q.drain = q'.drain := by
  have entries : q.drain ~ q'.drain := (drain_perm q).trans (same.trans (drain_perm q').symm)
  have taken := pairwise_drain h distinct
  have taken' := pairwise_drain h' (distinct.perm same)
  refine entries.eq_of_pairwise (fun e f he hf before after => ?_) taken taken'
  exact absurd after (Bool.eq_false_iff.mp (QueueEntry.NotAfter.of_isBefore before))

theorem foldl_add (es : List (QueueEntry L)) (h : q.Ordered) :
    (es.foldl (fun q e => q.add e) q).Ordered ∧
      (es.foldl (fun q e => q.add e) q).toList ~ es ++ q.toList := by
  induction es generalizing q with
  | nil => exact ⟨h, .refl _⟩
  | cons e es ih =>
    obtain ⟨ordered, entries⟩ := ih (h.add e)
    exact ⟨ordered, entries.trans (((toList_add e q).append_left es).trans List.perm_middle)⟩

theorem ordered_ofList (es : List (QueueEntry L)) : (ofList es).Ordered :=
  (foldl_add es .empty).1

theorem toList_ofList (es : List (QueueEntry L)) : (ofList es).toList ~ es :=
  (foldl_add es .empty).2.trans (List.Perm.of_eq (List.append_nil es))

/-- Entries that are put into a queue are taken once each and in order, whichever way they were put
in. -/
theorem drain_ofList {es : List (QueueEntry L)} (distinct : Distinct es) :
    (ofList es).drain ~ es ∧ ((ofList es).drain.Pairwise fun e f => e.isBefore f = true) ∧
      ∀ es', es' ~ es → (ofList es').drain = (ofList es).drain := by
  have within : Distinct (ofList es).toList := distinct.perm (toList_ofList es).symm
  refine ⟨(drain_perm _).trans (toList_ofList es), pairwise_drain (ordered_ofList es) within, ?_⟩
  intro es' same
  refine (drain_eq_of_perm (ordered_ofList es) (ordered_ofList es') within ?_).symm
  exact (toList_ofList es).trans (same.symm.trans (toList_ofList es').symm)

end Queue

end Milp
