import Mathlib.Data.List.TakeWhile
import Milp.Text.Blank

/-!
# Blanks, lines and words of texts that are put together

Results:
1. `trimEnd_append_blank`, `trimEnd_append`: what is taken off the end of a text.
2. `words_blank_append`, `words_dense_append`: the words of a text from the front.
3. `words_trimEnd`: blanks at the end do not make words.
4. `lines_joined`: lines that are put together are the lines of the text.
5. `Returned.map_trimEnd_lines`: carriage returns before line feeds do not change lines that are
   trimmed.
-/

namespace Milp.Text

variable {p r s w : List Char}

/-- A text of blanks. -/
def Blank (s : List Char) : Prop := ∀ c ∈ s, isBlank c = true

instance (s : List Char) : Decidable (Blank s) := List.decidableBAll (isBlank · = true) s

/-- A text without blanks. -/
def Dense (s : List Char) : Prop := ∀ c ∈ s, isBlank c = false

instance (s : List Char) : Decidable (Dense s) := List.decidableBAll (isBlank · = false) s

theorem blank_replicate (n : Nat) : Blank (List.replicate n ' ') := by
  intro c hc
  rw [List.eq_of_mem_replicate hc]
  rfl

theorem Blank.append (hp : Blank p) (hr : Blank r) : Blank (p ++ r) := fun c hc =>
  (List.mem_append.mp hc).elim (hp c) (hr c)

/-- A text with something but blanks in it is no text of blanks. -/
theorem not_blank_of_dense (hw : Dense w) (some : w ≠ []) : ¬ Blank w := by
  obtain ⟨c, w, rfl⟩ := List.exists_cons_of_ne_nil some
  intro blank
  have := hw c (List.mem_cons_self ..)
  rw [blank c (List.mem_cons_self ..)] at this
  cases this

/-- A word stays within its line. -/
theorem Dense.whole (hw : Dense w) : '\n' ∉ w := fun mem => by
  have := hw _ mem
  revert this
  decide

/-! ## Ends of texts -/

theorem trimEnd_append_blank (hp : Blank p) : trimEnd (s ++ p) = trimEnd s := by
  have front : ∀ c ∈ p.reverse, isBlank c = true := fun c hc => hp c (List.mem_reverse.mp hc)
  rw [trimEnd, List.reverse_append, List.dropWhile_append_of_pos front]
  rfl

/-- What does not end in blanks only is trimmed at its own end. -/
theorem trimEnd_append (hr : ¬ Blank r) : trimEnd (s ++ r) = s ++ trimEnd r := by
  have left : (r.reverse.dropWhile isBlank).isEmpty = false := by
    rw [Bool.eq_false_iff, ne_eq, List.isEmpty_iff, List.dropWhile_eq_nil_iff]
    exact fun blank => hr fun c hc => blank c (List.mem_reverse.mpr hc)
  rw [trimEnd, List.reverse_append, List.dropWhile_append, left]
  simp [trimEnd]

theorem trimEnd_dense (hw : Dense w) : trimEnd w = w := by
  have kept : w.reverse.dropWhile isBlank = w.reverse := by
    rw [List.dropWhile_eq_self_iff]
    intro some
    simpa using hw _ (List.mem_reverse.mp (List.getElem_mem some))
  rw [trimEnd, kept, List.reverse_reverse]

theorem trimEnd_eq_nil_iff : trimEnd s = [] ↔ Blank s := by
  rw [trimEnd, List.reverse_eq_nil_iff, List.dropWhile_eq_nil_iff]
  exact ⟨fun blank c hc => blank c (List.mem_reverse.mpr hc),
    fun blank c hc => blank c (List.mem_reverse.mp hc)⟩

/-- A text is what is left of it without the blanks that end it, and these. -/
theorem exists_blank_end (s : List Char) : ∃ p, Blank p ∧ s = trimEnd s ++ p := by
  refine ⟨(s.reverse.takeWhile isBlank).reverse, fun c hc => ?_, ?_⟩
  · exact List.all_eq_true.mp List.all_takeWhile c (List.mem_reverse.mp hc)
  · rw [trimEnd, ← List.reverse_append, List.takeWhile_append_dropWhile, List.reverse_reverse]

theorem trimEnd_cons (c : Char) (s : List Char) : trimEnd (c :: s) = trimEnd (c :: trimEnd s) := by
  obtain ⟨p, blank, parts⟩ := exists_blank_end s
  calc trimEnd (c :: s) = trimEnd ((c :: trimEnd s) ++ p) := by rw [List.cons_append, ← parts]
    _ = trimEnd (c :: trimEnd s) := trimEnd_append_blank blank

/-- What starts with no blank keeps its first character. -/
theorem trimEnd_cons_of_not_blank {c : Char} (dense : isBlank c = false) (s : List Char) :
    trimEnd (c :: s) = c :: trimEnd s := by
  by_cases blank : Blank s
  · rw [trimEnd_cons, trimEnd_eq_nil_iff.mpr blank]
    exact trimEnd_dense fun b hb => List.mem_singleton.mp hb ▸ dense
  · exact trimEnd_append (s := [c]) blank

theorem trimEnd_trimEnd (s : List Char) : trimEnd (trimEnd s) = trimEnd s := by
  obtain ⟨p, blank, parts⟩ := exists_blank_end s
  exact (trimEnd_append_blank blank).symm.trans (congrArg trimEnd parts.symm)

theorem mem_of_mem_trimEnd {c : Char} (hc : c ∈ trimEnd s) : c ∈ s := by
  obtain ⟨p, -, parts⟩ := exists_blank_end s
  exact parts ▸ List.mem_append_left p hc

theorem trim_dense (hw : Dense w) : trim w = w := by
  have kept : w.dropWhile isBlank = w := by
    rw [List.dropWhile_eq_self_iff]
    intro some
    simpa using hw _ (List.getElem_mem some)
  rw [trim, kept, trimEnd_dense hw]

theorem trim_append_blank (hp : Blank p) : trim (s ++ p) = trim s := by
  rw [trim, trim, List.dropWhile_append]
  split
  · rename_i none
    rw [List.isEmpty_iff.mp none, List.dropWhile_eq_nil_iff.mpr hp]
  · exact trimEnd_append_blank hp

theorem trim_trimEnd (s : List Char) : trim (trimEnd s) = trim s := by
  obtain ⟨p, blank, parts⟩ := exists_blank_end s
  exact (trim_append_blank blank).symm.trans (congrArg trim parts.symm)

/-! ## Words -/

theorem words_nil : words [] = [] := by
  rw [words.eq_def]

theorem words_cons (c : Char) (s : List Char) : words (c :: s) =
    if isBlank c then words s
    else (c :: s.takeWhile (!isBlank ·)) :: words (s.dropWhile (!isBlank ·)) := by
  rw [words.eq_def]

theorem words_blank_append (hp : Blank p) : words (p ++ s) = words s := by
  induction p with
  | nil => rfl
  | cons c p ih =>
    rw [List.cons_append, words_cons, if_pos (hp c (List.mem_cons_self ..))]
    exact ih fun c hc => hp c (List.mem_cons_of_mem _ hc)

theorem words_blank (hp : Blank p) : words p = [] := by
  have none := words_blank_append (s := []) hp
  rwa [List.append_nil, words_nil] at none

/-- The first word of a text ends before the first blank. -/
theorem words_dense_append (hw : Dense w) (some : w ≠ []) (ends : ∀ c ∈ r.head?, isBlank c = true) :
    words (w ++ r) = w :: words r := by
  obtain ⟨c, w, rfl⟩ := List.exists_cons_of_ne_nil some
  have rest : ∀ c ∈ w, (!isBlank c) = true := fun c hc => by
    rw [hw c (List.mem_cons_of_mem _ hc)]
    rfl
  have stop : r.takeWhile (!isBlank ·) = [] ∧ r.dropWhile (!isBlank ·) = r := by
    cases r with
    | nil => exact ⟨rfl, rfl⟩
    | cons b r =>
      have blank : isBlank b = true := ends b rfl
      constructor <;> simp [blank]
  rw [List.cons_append, words_cons, if_neg (by simp [hw c (List.mem_cons_self ..)]),
    List.takeWhile_append_of_pos rest, List.dropWhile_append_of_pos rest, stop.1, stop.2,
    List.append_nil]

theorem words_append_blank (hp : Blank p) : words (s ++ p) = words s := by
  fun_induction words s with
  | case1 => exact words_blank hp
  | case2 c s blank ih => rw [List.cons_append, words_cons, if_pos blank, ih]
  | case3 c s dense ih =>
    have parts : c :: s ++ p =
        (c :: s.takeWhile (!isBlank ·)) ++ (s.dropWhile (!isBlank ·) ++ p) := by
      rw [List.cons_append, List.cons_append, ← List.append_assoc, List.takeWhile_append_dropWhile]
    have word : Dense (c :: s.takeWhile (!isBlank ·)) := by
      intro b hb
      rcases List.mem_cons.mp hb with rfl | hb
      · simpa using dense
      · simpa using List.all_eq_true.mp List.all_takeWhile b hb
    have ends : ∀ b ∈ (s.dropWhile (!isBlank ·) ++ p).head?, isBlank b = true := by
      intro b hb
      have stop := List.head?_dropWhile_not (!isBlank ·) s
      cases rest : s.dropWhile (!isBlank ·) with
      | nil => exact hp b (List.mem_of_mem_head? (by simpa [rest] using hb))
      | cons d rest' =>
        rw [rest] at hb stop
        cases hb
        simpa using stop
    rw [parts, words_dense_append word (by simp) ends, ih]

theorem words_trimEnd (s : List Char) : words (trimEnd s) = words s := by
  obtain ⟨p, blank, parts⟩ := exists_blank_end s
  exact (words_append_blank blank).symm.trans (congrArg words parts.symm)

/-! ## Lines -/

/-- A text of lines, each with its line feed. -/
def joined (ls : List (List Char)) : List Char :=
  ls.flatMap (· ++ ['\n'])

theorem lines_append {l : List Char} (whole : '\n' ∉ l) (s : List Char) :
    lines (l ++ '\n' :: s) = l :: lines s := by
  induction l with
  | nil => simp [lines]
  | cons c l ih =>
    obtain ⟨other, whole⟩ := List.ne_and_not_mem_of_not_mem_cons whole
    have rest := ih whole
    unfold lines at rest ⊢
    rw [List.cons_append, List.foldr_cons, rest, if_neg other.symm]

/-- Lines that are put together are the lines of the text. -/
theorem lines_joined {ls : List (List Char)} (whole : ∀ l ∈ ls, '\n' ∉ l) :
    lines (joined ls) = ls := by
  induction ls with
  | nil => rfl
  | cons l ls ih =>
    have rest := ih fun l hl => whole l (List.mem_cons_of_mem _ hl)
    rw [joined, List.flatMap_cons, List.append_assoc, List.singleton_append,
      lines_append (whole l (List.mem_cons_self ..))]
    exact congrArg _ rest

theorem lines_cons (c : Char) (s : List Char) : lines (c :: s) =
    if c = '\n' then [] :: lines s
    else match lines s with
      | [] => [[c]]
      | l :: ls => (c :: l) :: ls := rfl

/-- What is appended to a text after a line feed makes further lines. -/
theorem lines_append_line (s r : List Char) : ∃ more, lines (s ++ '\n' :: r) = lines s ++ more := by
  induction s with
  | nil => exact ⟨_, rfl⟩
  | cons c s ih =>
    obtain ⟨more, parts⟩ := ih
    rw [List.cons_append, lines_cons, lines_cons]
    by_cases feed : c = '\n'
    · rw [if_pos feed, if_pos feed, parts]
      exact ⟨more, rfl⟩
    · rw [if_neg feed, if_neg feed]
      cases s with
      | nil => exact ⟨lines r, by simp [lines]⟩
      | cons b s =>
        rw [parts]
        cases first : lines (b :: s) with
        | nil =>
          rw [lines_cons] at first
          split at first
          · cases first
          · split at first <;> cases first
        | cons l ls => exact ⟨more, rfl⟩

/-- A text, and the same text with carriage returns before some of its line feeds. -/
inductive Returned : List Char → List Char → Prop
  | nil : Returned [] []
  | same {s s' : List Char} (c : Char) (rest : Returned s s') : Returned (c :: s) (c :: s')
  | feed {s s' : List Char} (rest : Returned s s') : Returned ('\n' :: s) ('\r' :: '\n' :: s')

/-- Carriage returns before line feeds are blanks at the ends of lines. -/
theorem Returned.map_trimEnd_lines {s s' : List Char} (returned : Returned s s') :
    (lines s').map trimEnd = (lines s).map trimEnd := by
  induction returned with
  | nil => rfl
  | @same s s' c rest ih =>
    rw [lines_cons, lines_cons]
    split
    · rw [List.map_cons, List.map_cons, ih]
    · cases first : lines s with
      | nil =>
        rw [first] at ih
        rw [List.map_eq_nil_iff.mp ih]
      | cons l ls =>
        rw [first] at ih
        obtain ⟨l', ls', parts, line, others⟩ := List.map_eq_cons_iff.mp ih
        rw [parts]
        dsimp only
        rw [List.map_cons, List.map_cons, trimEnd_cons, line, ← trimEnd_cons, others]
  | @feed s s' rest ih =>
    have blank : trimEnd ['\r'] = trimEnd [] := by decide
    have lines' : lines ('\r' :: '\n' :: s') = ['\r'] :: lines s' := rfl
    rw [lines', lines_cons, if_pos rfl, List.map_cons, List.map_cons, blank, ih]

end Milp.Text
