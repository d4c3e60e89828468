import Milp.Proofs.Mps.Field
import Milp.Proofs.Mps.Lines

/-!
# Cards

A card has six slots at fixed columns. It can be written with each slot at its columns, or as the
filled slots with a space between them.

Results:
1. `Card.fields_fixed`, `Card.fields_free`: either way the fields are the filled slots.
2. `CardLine.line_fixed`: a line does the same to a draft whichever way it is written.
3. `read_fixed_eq_read_free`: so a file of cards reads the same in both formats.
-/

namespace Milp.Mps

/-- The columns of the slots of a card: the byte each starts at, and its width. -/
def slotColumns : List (Nat × Nat) :=
  [(1, 2), (4, 8), (14, 8), (24, 12), (39, 8), (49, 12)]

/-- A card: what its slots hold. Each is empty, or a word that fits its width. -/
structure Card where
  slots : List (List Char)
  fits : List.Forall₂ (fun c w => Text.Dense w ∧ byteSize w ≤ c.2) slotColumns slots

/-- Words at their columns, each padded with spaces to its width, in a line of which some bytes are
filled. -/
def placed (bytes : Nat) : List (Nat × Nat) → List (List Char) → List Char
  | c :: cs, w :: ws =>
    List.replicate (c.1 - bytes) ' ' ++
      ((w ++ List.replicate (c.2 - byteSize w) ' ') ++ placed (c.1 + c.2) cs ws)
  | _, _ => []

namespace Card

/-- The slots that hold something. -/
def filled (c : Card) : List (List Char) := c.slots.filter (!·.isEmpty)

/-- The line of a card with its slots at their columns. -/
def fixed (c : Card) : List Char := placed 0 slotColumns c.slots

/-- The line of a card with its filled slots one space apart, after some spaces. -/
def free (c : Card) (indent : Nat) : List Char :=
  List.replicate (indent + 1) ' ' ++ [' '].intercalate c.filled

theorem dense_of_fits {cs : List (Nat × Nat)} {ws : List (List Char)}
    (fits : List.Forall₂ (fun c w => Text.Dense w ∧ byteSize w ≤ c.2) cs ws) :
    ∀ w ∈ ws, Text.Dense w := by
  induction fits with
  | nil => simp
  | cons first _ ih => simpa using ⟨first.1, ih⟩

theorem dense_slots (c : Card) : ∀ w ∈ c.slots, Text.Dense w := dense_of_fits c.fits

theorem filled_word (c : Card) {w : List Char} (hw : w ∈ c.filled) : Text.Dense w ∧ w ≠ [] := by
  obtain ⟨mem, some⟩ := List.mem_filter.mp hw
  exact ⟨c.dense_slots w mem, by simpa using some⟩

/-! ## Slots at their columns -/

/-- Columns that do not overlap, after some bytes. -/
def Apart (bytes : Nat) : List (Nat × Nat) → Prop
  | [] => True
  | c :: cs => bytes ≤ c.1 ∧ Apart (c.1 + c.2) cs

/-- Words at columns that do not overlap are found there, whatever stands before the columns. -/
theorem fields_placed {cs : List (Nat × Nat)} {ws : List (List Char)}
    (fits : List.Forall₂ (fun c w => Text.Dense w ∧ byteSize w ≤ c.2) cs ws) (a : List Char)
    (apart : Apart (byteSize a) cs) :
    (cs.map fun c => (c.1, c.1 + c.2)).filterMap
        (fieldAt? (Text.trimEnd (a ++ placed (byteSize a) cs ws))) =
      ws.filter (!·.isEmpty) := by
  induction fits generalizing a with
  | nil => rfl
  | @cons c w cs ws first _ ih =>
    obtain ⟨after, apart⟩ := apart
    let gap := List.replicate (c.1 - byteSize a) ' '
    let pad := List.replicate (c.2 - byteSize w) ' '
    have start : byteSize (a ++ gap) = c.1 := by simp [gap]; omega
    have width : byteSize (w ++ pad) = c.2 := by simp [pad]; omega
    have next : byteSize (a ++ gap ++ (w ++ pad)) = c.1 + c.2 := by
      rw [byteSize_append, start, width]
    have here := fieldAt?_trimEnd (a := a ++ gap) (p := List.replicate (c.2 - byteSize w) ' ')
      (r := placed (c.1 + c.2) cs ws) first.1 (Text.blank_replicate _) (by rw [start, width])
    have others := ih (a ++ gap ++ (w ++ pad)) (next ▸ apart)
    rw [start] at here
    rw [next, List.append_assoc (a ++ gap)] at others
    rw [placed, ← List.append_assoc a, List.map_cons, List.filterMap_cons, here, others]
    cases w <;> simp

theorem fields_fixed (c : Card) : fixedFields (Text.trimEnd c.fixed) = c.filled := by
  have columns : fixedColumns = slotColumns.map fun c => (c.1, c.1 + c.2) := rfl
  rw [fixedFields_eq, columns]
  exact fields_placed c.fits [] (by simp [slotColumns, Apart])

theorem blank_placed (bytes : Nat) (cs : List (Nat × Nat)) {ws : List (List Char)}
    (empty : ∀ w ∈ ws, w = []) : Text.Blank (placed bytes cs ws) := by
  induction ws generalizing bytes cs with
  | nil => cases cs <;> simp [placed, Text.Blank]
  | cons w ws ih =>
    cases cs with
    | nil => simp [placed, Text.Blank]
    | cons c cs =>
      have rest := ih (c.1 + c.2) cs fun w hw => empty w (List.mem_cons_of_mem _ hw)
      rw [placed, empty w (List.mem_cons_self ..), List.nil_append]
      exact (Text.blank_replicate _).append ((Text.blank_replicate _).append rest)

/-- Only a card without filled slots is a blank line. -/
theorem blank_fixed_iff (c : Card) : Text.Blank c.fixed ↔ c.filled = [] := by
  constructor
  · intro blank
    rw [← c.fields_fixed, Text.trimEnd_eq_nil_iff.mpr blank]
    rfl
  · intro none
    refine blank_placed 0 _ fun w hw => ?_
    simpa using List.filter_eq_nil_iff.mp none w hw

/-! ## Slots a space apart -/

theorem words_intercalate {ws : List (List Char)} (words : ∀ w ∈ ws, Text.Dense w ∧ w ≠ []) :
    Text.words ([' '].intercalate ws) = ws := by
  induction ws with
  | nil => exact Text.words_nil
  | cons w ws ih =>
    obtain ⟨dense, some⟩ := words w (List.mem_cons_self ..)
    have rest := ih fun w hw => words w (List.mem_cons_of_mem _ hw)
    cases ws with
    | nil => simpa [Text.words_nil] using Text.words_dense_append dense some (r := []) (by simp)
    | cons v ws =>
      rw [List.intercalate_cons_cons, List.append_assoc,
        Text.words_dense_append dense some (by simp [Text.isBlank])]
      rw [Text.words_blank_append (by simp [Text.Blank, Text.isBlank]), rest]

theorem fields_free (c : Card) (indent : Nat) : Text.words (c.free indent) = c.filled := by
  rw [free, Text.words_blank_append (Text.blank_replicate _)]
  exact words_intercalate fun w hw => c.filled_word hw

theorem blank_free_iff (c : Card) (indent : Nat) :
    Text.Blank (c.free indent) ↔ c.filled = [] := by
  constructor
  · intro blank
    rw [← c.fields_free indent, ← Text.words_trimEnd, Text.trimEnd_eq_nil_iff.mpr blank]
    exact Text.words_nil
  · intro none
    rw [free, none]
    simpa using Text.blank_replicate (indent + 1)

end Card

/-! ## Lines and files -/

/-- A line of a file of cards. -/
inductive CardLine
  /-- A line that starts flush left, such as the header of a section or a comment. -/
  | flush (text : List Char) (whole : '\n' ∉ text) (first : ∀ c ∈ text.head?, Text.isBlank c = false)
  /-- A card. At its columns the spaces that end its line may be cut; otherwise it is indented by a
  space and some more. -/
  | card (c : Card) (cut : Bool) (indent : Nat)

namespace CardLine

/-- The line with slots at their columns. -/
def fixed : CardLine → List Char
  | flush text _ _ => text
  | card c cut _ => if cut then Text.trimEnd c.fixed else c.fixed

/-- The line with filled slots a space apart. -/
def free : CardLine → List Char
  | flush text _ _ => text
  | card c _ indent => c.free indent

end CardLine

variable {K L : Type} [Scalar K] [Limits L K] [OfNumeral K] [OfNumeral L]

/-- Blanks at the end of a line do nothing. -/
theorem Draft.line_trimEnd (d : Draft K L) (format : Format) (n : Nat) (s : List Char) :
    d.line format n (Text.trimEnd s) = d.line format n s := by
  unfold Draft.line
  rw [Text.trimEnd_trimEnd]

/-- A line that starts flush left is no data line in either format. -/
theorem Draft.line_flush (d : Draft K L) (n : Nat) {s : List Char}
    (first : ∀ c ∈ s.head?, Text.isBlank c = false) : d.line .fixed n s = d.line .free n s := by
  unfold Draft.line
  obtain ⟨p, -, parts⟩ := Text.exists_blank_end s
  cases ends : Text.trimEnd s with
  | nil => rfl
  | cons c r =>
    rw [ends] at parts
    have dense : Text.isBlank c = false := first c (by rw [parts]; rfl)
    simp [isHeader, dense]

theorem Draft.line_card_fixed (d : Draft K L) (n : Nat) (c : Card) :
    d.line .fixed n c.fixed = if c.filled = [] then .ok (some d)
      else (d.dataLine n (c.filled.map String.ofList)).map some := by
  have fields : Format.fixed.fields (Text.trimEnd c.fixed) = c.filled.map String.ofList :=
    congrArg _ c.fields_fixed
  have empty := c.blank_fixed_iff
  obtain ⟨s, line⟩ : ∃ s, c.fixed = ' ' :: s := by
    obtain ⟨ws, fits⟩ := c
    cases fits with
    | cons => exact ⟨_, rfl⟩
  rw [line] at fields empty ⊢
  exact d.line_of_fields .fixed n rfl empty fields

theorem Draft.line_card_free (d : Draft K L) (n : Nat) (c : Card) (indent : Nat) :
    d.line .free n (c.free indent) = if c.filled = [] then .ok (some d)
      else (d.dataLine n (c.filled.map String.ofList)).map some := by
  have fields : Format.free.fields (Text.trimEnd (c.free indent)) = c.filled.map String.ofList := by
    rw [Format.fields, Text.words_trimEnd, c.fields_free]
  have empty := c.blank_free_iff indent
  rw [Card.free, List.replicate_succ, List.cons_append] at fields empty ⊢
  exact d.line_of_fields .free n rfl empty fields

/-- A line does the same to a draft whichever way it is written. -/
theorem CardLine.line_fixed (l : CardLine) (d : Draft K L) (n : Nat) :
    d.line .fixed n l.fixed = d.line .free n l.free := by
  cases l with
  | flush text whole first => exact d.line_flush n first
  | card c cut indent =>
    have uncut : d.line .fixed n (CardLine.card c cut indent).fixed = d.line .fixed n c.fixed := by
      cases cut with
      | true => exact d.line_trimEnd .fixed n c.fixed
      | false => rfl
    rw [uncut, d.line_card_fixed]
    exact (d.line_card_free n c indent).symm

theorem readLines_fixed_eq_free (ls : List CardLine) (d : Draft K L) (before : Nat) :
    readLines .fixed d before (ls.map CardLine.fixed) =
      readLines .free d before (ls.map CardLine.free) := by
  induction ls generalizing d before with
  | nil => rfl
  | cons l ls ih =>
    rw [List.map_cons, List.map_cons, readLines_cons, readLines_cons, l.line_fixed]
    split
    · rfl
    · rfl
    · exact ih _ _

/-! ## Texts -/

theorem Card.whole_placed (bytes : Nat) (cs : List (Nat × Nat)) {ws : List (List Char)}
    (dense : ∀ w ∈ ws, Text.Dense w) : '\n' ∉ placed bytes cs ws := by
  induction ws generalizing bytes cs with
  | nil => cases cs <;> simp [placed]
  | cons w ws ih =>
    cases cs with
    | nil => simp [placed]
    | cons c cs =>
      have word := (dense w (List.mem_cons_self ..)).whole
      have rest := ih (c.1 + c.2) cs fun w hw => dense w (List.mem_cons_of_mem _ hw)
      simp [placed, word, rest]

theorem CardLine.whole_fixed (l : CardLine) : '\n' ∉ l.fixed := by
  cases l with
  | flush text whole first => exact whole
  | card c cut indent =>
    have placed : '\n' ∉ c.fixed := Card.whole_placed 0 slotColumns c.dense_slots
    cases cut with
    | true => exact fun mem => placed (Text.mem_of_mem_trimEnd mem)
    | false => exact placed

theorem whole_intercalate {ws : List (List Char)} (dense : ∀ w ∈ ws, Text.Dense w) :
    '\n' ∉ [' '].intercalate ws := by
  induction ws with
  | nil => simp
  | cons w ws ih =>
    have word := (dense w (List.mem_cons_self ..)).whole
    have rest := ih fun w hw => dense w (List.mem_cons_of_mem _ hw)
    cases ws with
    | nil => simpa using word
    | cons v ws =>
      rw [List.intercalate_cons_cons]
      simp [word, rest]

theorem CardLine.whole_free (l : CardLine) : '\n' ∉ l.free := by
  cases l with
  | flush text whole first => exact whole
  | card c cut indent =>
    have words := whole_intercalate fun w hw => (c.filled_word hw).1
    simp [CardLine.free, Card.free, words]

/-- A file of cards reads the same in both formats: the same problem, or the same error at the same
line. -/
theorem read_fixed_eq_read_free (ls : List CardLine) :
    read .fixed (.ofList (Text.joined (ls.map CardLine.fixed))) =
      (read .free (.ofList (Text.joined (ls.map CardLine.free))) :
        Except (Error L) (File K L)) := by
  have fixed : ∀ l ∈ ls.map CardLine.fixed, '\n' ∉ l := by
    simpa using fun l _ => l.whole_fixed
  have free : ∀ l ∈ ls.map CardLine.free, '\n' ∉ l := by
    simpa using fun l _ => l.whole_free
  rw [read, read, String.toList_ofList, String.toList_ofList, Text.lines_joined fixed,
    Text.lines_joined free]
  exact readLines_fixed_eq_free ls .empty 0

end Milp.Mps
