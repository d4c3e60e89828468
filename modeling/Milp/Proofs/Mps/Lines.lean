import Milp.Mps.Read
import Milp.Proofs.Text

/-!
# Reading line by line

Results:
1. `readLines_cons`: what is read is what the first line makes of the draft, and then the rest.
2. `readLines_append`: lines that a draft takes lead from one draft to another.
3. `Reading.of_readLines`: the ways in which reading ends.
4. `line_of_indented`, `line_of_fields`: an indented line is a data line, if it is not blank.
-/

namespace Milp.Mps

variable {K L : Type} [Scalar K] [Limits L K] [OfNumeral K] [OfNumeral L]

/-- What a line makes of a draft: a draft, or none where the file ends. -/
def Draft.line (d : Draft K L) (format : Format) (n : Nat) (raw : List Char) :
    Except (Error L) (Option (Draft K L)) :=
  let line := Text.trimEnd raw
  if !counts line then .ok (some d)
  else if isHeader line then d.header n line
  else (d.dataLine n (format.fields line)).map some

/-- The fields of a data line; none for other lines. -/
def dataFields? (format : Format) (raw : List Char) : Option (List String) :=
  let line := Text.trimEnd raw
  if counts line ∧ isHeader line = false then some (format.fields line) else none

/-- A line does not count, or is a header line, or a data line. -/
inductive LineKind (d : Draft K L) (format : Format) (n : Nat) (raw : List Char) :
    Option (List String) → Except (Error L) (Option (Draft K L)) → Prop
  | skipped (skipped : counts (Text.trimEnd raw) = false) : LineKind d format n raw none (.ok (some d))
  | header (flush : isHeader (Text.trimEnd raw) = true) :
    LineKind d format n raw none (d.header n (Text.trimEnd raw))
  | data (fields : List String) : LineKind d format n raw (some fields) ((d.dataLine n fields).map some)

theorem Draft.line_kind (d : Draft K L) (format : Format) (n : Nat) (raw : List Char) :
    LineKind d format n raw (dataFields? format raw) (d.line format n raw) := by
  unfold Draft.line dataFields?
  dsimp only
  cases counted : counts (Text.trimEnd raw) with
  | false => exact .skipped counted
  | true =>
    cases flush : isHeader (Text.trimEnd raw) with
    | true => exact .header flush
    | false => exact .data _

theorem readLines_cons (format : Format) (d : Draft K L) (before : Nat) (raw : List Char)
    (rest : List (List Char)) :
    readLines format d before (raw :: rest) =
      match d.line format (before + 1) raw with
      | .error e => .error e
      | .ok none => d.finish
      | .ok (some d) => readLines format d (before + 1) rest := by
  rw [readLines, Draft.line]
  split
  · rfl
  · split
    · rfl
    · cases d.dataLine (before + 1) (format.fields (Text.trimEnd raw)) <;> rfl

/-- A draft takes lines, given the number of lines before them, and another draft comes of it. -/
inductive Draft.Takes (format : Format) :
    Draft K L → Nat → List (List Char) → Draft K L → Prop
  | nil (d : Draft K L) (before : Nat) : Takes format d before [] d
  | cons {d d' d'' : Draft K L} {before : Nat} {raw : List Char} {rest : List (List Char)}
    (first : d.line format (before + 1) raw = .ok (some d'))
    (others : Takes format d' (before + 1) rest d'') : Takes format d before (raw :: rest) d''

namespace Draft.Takes

variable {format : Format} {d d' d'' : Draft K L} {before : Nat} {ls rest : List (List Char)}

theorem append (takes : Takes format d before ls d')
    (more : Takes format d' (before + ls.length) rest d'') :
    Takes format d before (ls ++ rest) d'' := by
  induction takes with
  | nil => simpa using more
  | cons first others ih =>
    refine .cons first (ih ?_)
    rwa [List.length_cons, ← Nat.add_assoc, Nat.add_right_comm] at more

/-- Lines that are taken lead from one draft to the other. -/
theorem readLines_append (takes : Takes format d before ls d') (rest : List (List Char)) :
    readLines format d before (ls ++ rest) = readLines format d' (before + ls.length) rest := by
  induction takes with
  | nil => rfl
  | cons first others ih =>
    rw [List.cons_append, readLines_cons, first]
    dsimp only
    rw [ih, List.length_cons, ← Nat.add_assoc, Nat.add_right_comm]

end Draft.Takes

/-- How reading ends: at a line that is refused, at the line that ends the file, or after the last
line. -/
inductive Reading (format : Format) (d : Draft K L) (before : Nat) :
    List (List Char) → Except (Error L) (File K L) → Prop
  | refused {ls rest : List (List Char)} {raw : List Char} {d' : Draft K L} {e : Error L}
    (taken : d.Takes format before ls d')
    (refused : d'.line format (before + ls.length + 1) raw = .error e) :
    Reading format d before (ls ++ raw :: rest) (.error e)
  | ended {ls rest : List (List Char)} {raw : List Char} {d' : Draft K L}
    (taken : d.Takes format before ls d')
    (ended : d'.line format (before + ls.length + 1) raw = .ok none) :
    Reading format d before (ls ++ raw :: rest) d'.finish
  | unended {ls : List (List Char)} {d' : Draft K L} (taken : d.Takes format before ls d') :
    Reading format d before ls (.error (.format (before + ls.length) .missingEnd))

theorem Reading.of_readLines (format : Format) (d : Draft K L) (before : Nat)
    (ls : List (List Char)) : Reading format d before ls (readLines format d before ls) := by
  induction ls generalizing d before with
  | nil => exact .unended (.nil d before)
  | cons raw rest ih =>
    have none : d.Takes format before [] d := .nil d before
    rw [readLines_cons]
    cases made : d.line format (before + 1) raw with
    | error e => exact .refused none made
    | ok ended =>
      cases ended with
      | none => exact .ended none made
      | some d' =>
        have later := ih d' (before + 1)
        have count (ls : List (List Char)) :
            before + 1 + ls.length = before + (raw :: ls).length := by
          rw [List.length_cons]
          omega
        dsimp only
        generalize readLines format d' (before + 1) rest = r at later ⊢
        cases later with
        | refused taken refused => exact .refused (.cons made taken) (count _ ▸ refused)
        | ended taken ended => exact .ended (.cons made taken) (count _ ▸ ended)
        | unended taken => exact count _ ▸ .unended (.cons made taken)

/-! ## Indented lines -/

omit [Scalar K] [Limits L K] [OfNumeral K] [OfNumeral L] in
theorem counts_indented {b : Char} {s : List Char} (blank : Text.isBlank b = true) :
    counts (b :: s) = true := by
  have other : b ≠ '*' := by
    rintro rfl
    exact absurd blank (by decide)
  simpa [counts] using other

/-- An indented line is skipped where it is blank, and is a data line otherwise. -/
theorem Draft.line_of_indented (d : Draft K L) (format : Format) (n : Nat) {b : Char}
    {s : List Char} (blank : Text.isBlank b = true) :
    d.line format n (b :: s) = if Text.Blank s then .ok (some d)
      else (d.dataLine n (format.fields (b :: Text.trimEnd s))).map some := by
  unfold Draft.line
  by_cases none : Text.Blank s
  · have all : Text.Blank (b :: s) := fun c hc => (List.mem_cons.mp hc).elim (· ▸ blank) (none c)
    rw [Text.trimEnd_eq_nil_iff.mpr all, if_pos none]
    rfl
  · have ends : Text.trimEnd (b :: s) = b :: Text.trimEnd s := Text.trimEnd_append (s := [b]) none
    rw [ends, if_neg none]
    simp [counts_indented blank, isHeader, blank]

/-- An indented line that has words for its fields, and is blank only where it has none. -/
theorem Draft.line_of_fields (d : Draft K L) (format : Format) (n : Nat) {b : Char} {s : List Char}
    {ws : List (List Char)} (blank : Text.isBlank b = true) (empty : Text.Blank (b :: s) ↔ ws = [])
    (fields : format.fields (Text.trimEnd (b :: s)) = ws.map String.ofList) :
    d.line format n (b :: s) = if ws = [] then .ok (some d)
      else (d.dataLine n (ws.map String.ofList)).map some := by
  have rest : Text.Blank (b :: s) ↔ Text.Blank s := by simp [Text.Blank, blank]
  rw [d.line_of_indented format n blank]
  by_cases none : ws = []
  · rw [if_pos none, if_pos (rest.mp (empty.mpr none))]
  · have some : ¬ Text.Blank s := fun h => none (empty.mp (rest.mpr h))
    have ends : Text.trimEnd (b :: s) = b :: Text.trimEnd s := Text.trimEnd_append (s := [b]) some
    rw [if_neg none, if_neg some, ← ends, fields]

end Milp.Mps
