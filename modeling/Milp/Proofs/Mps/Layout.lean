import Milp.Number.Unrounded
import Milp.Proofs.Mps.Lines

/-!
# Layout

Blank lines, lines that start with an asterisk, blanks at the ends of lines and whatever follows the
end of the file say nothing. A text that differs from another in these says the same problem, or is
refused for the same reason; only the numbers of lines move.

Results:
1. `Draft.located_line`: a line does the same wherever it stands; where it is refused, the error has
   the number of the line or none.
2. `readLines_relaid`: reading lines that are laid out again, from any draft.
3. `read_layout`: reading a text that is laid out again.
-/

namespace Milp.Mps

variable {K L : Type}

/-! ## Numbers of lines -/

/-- An error of a line, for each number that the line may have. -/
inductive Refusal : (Nat → Error L) → Prop
  | format {fault : Fault} (other : fault ≠ .missingEnd) : Refusal fun n => .format n fault
  | unknownColumn (name : String) : Refusal fun n => .unknownColumn n name
  | unknownRow (name : String) : Refusal fun n => .unknownRow n name
  | model (cause : ModelError L) : Refusal fun _ => .model cause

/-- A line, for each number that it may have: it does the same, or is refused for the same reason. -/
inductive Located {α : Type} (x : Nat → Except (Error L) α) : Prop
  | ok (a : α) (same : ∀ n, x n = .ok a)
  | refused {e : Nat → Error L} (refusal : Refusal e) (same : ∀ n, x n = .error (e n))

namespace Located

variable {α β : Type} {x : Nat → Except (Error L) α}

theorem pure (a : α) : Located (L := L) fun _ => .ok a := .ok a fun _ => rfl

theorem fault {f : Fault} (other : f ≠ .missingEnd) :
    Located (α := α) (L := L) fun n => .error (.format n f) := .refused (.format other) fun _ => rfl

theorem bind (hx : Located x) {f : Nat → α → Except (Error L) β}
    (hf : ∀ a, Located fun n => f n a) :
    Located fun n => x n >>= f n := by
  cases hx with
  | refused refusal same => exact .refused refusal fun n => by rw [same]; rfl
  | ok a same =>
    have later : (fun n => x n >>= f n) = fun n => f n a := funext fun n => by rw [same]; rfl
    rw [later]
    exact hf a

theorem map (hx : Located x) (f : α → β) : Located fun n => (x n).map f := by
  cases hx with
  | refused refusal same => exact .refused refusal fun n => by rw [same]; rfl
  | ok a same => exact .ok (f a) fun n => by rw [same]; rfl

theorem foldlM {f : Nat → β → α → Except (Error L) β} (hf : ∀ b a, Located fun n => f n b a)
    (as : List α) (b : β) : Located fun n => as.foldlM (f n) b := by
  induction as generalizing b with
  | nil => exact pure b
  | cons a as ih => exact (hf b a).bind ih

theorem number [OfNumeral α] (field : String) :
    Located (L := L) fun n => (Mps.number n field : Except (Error L) α) := by
  unfold Mps.number
  split
  · exact pure _
  · exact fault (by simp)

theorem sense (word : String) : Located (L := L) fun n => Mps.sense n word := by
  unfold Mps.sense
  dsimp only
  split
  · exact pure _
  · split
    · exact pure _
    · exact fault (by simp)

variable (d : Draft K L)

theorem header (text : List Char) : Located fun n => d.header n text := by
  unfold Draft.header
  dsimp only
  split <;> try exact pure _
  · split
    · exact pure _
    · exact (sense _).bind fun _ => pure _
  · exact fault (by simp)

theorem senseLine (fields : List String) : Located fun n => d.senseLine n fields := by
  unfold Draft.senseLine
  split
  · exact (sense _).bind fun _ => pure _
  · exact fault (by simp)

theorem rowKind (word : String) : Located (L := L) fun n => Draft.rowKind n word := by
  unfold Draft.rowKind
  split
  all_goals first
    | exact pure _
    | exact fault (by simp)

theorem slot (name : String) : Located fun n => d.slot n name := by
  unfold Draft.slot
  split
  · exact pure _
  · exact .refused (.unknownRow name) fun _ => rfl

theorem forPairs [OfNumeral K] (fields : List String)
    (change : Draft K L → RowSlot → K → Draft K L) :
    Located fun n => d.forPairs n fields change :=
  foldlM (fun d _ => (number _).bind fun _ => (slot d _).bind fun _ => pure _) _ _

theorem pairLine [OfNumeral K] (fields : List String)
    (change : Draft K L → RowSlot → K → Draft K L) :
    Located fun n => d.pairLine n fields change := by
  unfold Draft.pairLine
  dsimp only
  split
  · exact fault (by simp)
  · exact forPairs d _ change

theorem rowLine [Scalar K] (fields : List String) : Located fun n => d.rowLine n fields := by
  unfold Draft.rowLine
  split
  · refine (rowKind _).bind fun kind => ?_
    split
    · exact .refused (.model _) fun _ => rfl
    · exact pure _
  · exact fault (by simp)

variable [Scalar K] [Limits L K]

theorem columnLine [OfNumeral K] (fields : List String) :
    Located fun n => d.columnLine n fields := by
  unfold Draft.columnLine
  split
  · split
    all_goals first
      | exact pure _
      | exact fault (by simp)
  · split
    · exact forPairs _ _ _
    · exact fault (by simp)
  · exact fault (by simp)

theorem boundFields (kind : String) (rest : List String) :
    Located (L := L) fun n => Draft.boundFields n kind rest := by
  unfold Draft.boundFields
  split <;> split <;> try split
  all_goals first
    | exact pure _
    | exact fault (by simp)

theorem boundLine [OfNumeral L] (fields : List String) : Located fun n => d.boundLine n fields := by
  unfold Draft.boundLine
  split
  · exact fault (by simp)
  · refine (boundFields _ _).bind fun p => ?_
    dsimp only
    split
    · exact .refused (.unknownColumn _) fun _ => rfl
    · have value : Located (L := L) fun n =>
          (p.2.mapM (Mps.number n) : Except (Error L) (Option L)) := by
        cases p.2 with
        | none => exact pure _
        | some field => exact (number field).map some
      refine value.bind fun v => ?_
      split
      · exact pure _
      · exact fault (by simp)

theorem dataLine [OfNumeral K] [OfNumeral L] (fields : List String) :
    Located fun n => d.dataLine n fields := by
  unfold Draft.dataLine
  split
  · exact fault (by simp)
  · exact fault (by simp)
  · exact senseLine d fields
  · exact rowLine d fields
  · exact columnLine d fields
  · exact pairLine d fields _
  · exact pairLine d fields _
  · exact boundLine d fields

end Located

/-! ## The end of the file -/

/-- Whatever it is refused for, the model refuses it. -/
def ModelOnly {α : Type} (x : Except (Error L) α) : Prop :=
  ∀ e, x = .error e → ∃ cause, e = .model cause

namespace ModelOnly

variable {α β : Type} {x : Except (Error L) α}

theorem ok (a : α) : ModelOnly (L := L) (.ok a) := nofun

theorem lift (x : Except (ModelError L) α) : ModelOnly (x.mapError Error.model) := by
  rintro e refused
  cases x with
  | ok a => cases refused
  | error cause => exact ⟨cause, by cases refused; rfl⟩

theorem bind (hx : ModelOnly x) {f : α → Except (Error L) β} (hf : ∀ a, ModelOnly (f a)) :
    ModelOnly (x >>= f) := by
  cases x with
  | ok a => exact hf a
  | error e =>
    rintro e' refused
    cases refused
    exact hx e rfl

theorem foldlM {f : β → α → Except (Error L) β} (hf : ∀ b a, ModelOnly (f b a)) (as : List α)
    (b : β) : ModelOnly (as.foldlM f b) := by
  induction as generalizing b with
  | nil => exact ok b
  | cons a as ih => exact (hf b a).bind ih

end ModelOnly

/-- The end of the file has no number: what is refused there is a missing objective, or refused by
the model. -/
theorem Draft.finish_error [Scalar K] [Limits L K] {d : Draft K L} {e : Error L}
    (refused : d.finish = .error e) :
    e = .format 0 .noObjective ∨ ∃ cause, e = .model cause := by
  unfold finish at refused
  cases named : d.objectiveName with
  | none =>
    rw [named] at refused
    cases refused
    exact .inl rfl
  | some name =>
    rw [named] at refused
    refine .inr (ModelOnly.bind ?_ (fun m => ?_) e refused)
    · exact .foldlM (fun _ _ => (ModelOnly.lift _).bind fun _ => .ok _) _ _
    · refine (ModelOnly.lift _).bind fun m =>
        (ModelOnly.foldlM (fun _ _ => ?_) _ _).bind fun m => .ok _
      exact (ModelOnly.lift _).bind fun _ => .ok _

/-! ## Lines that are laid out again -/

/-- A line that says nothing: it is blank, or starts with an asterisk. -/
def Idle (l : List Char) : Prop := Text.Blank l ∨ l.head? = some '*'

instance (l : List Char) : Decidable (Idle l) := inferInstanceAs (Decidable (_ ∨ _))

theorem Idle.counts {l : List Char} (idle : Idle l) : counts (Text.trimEnd l) = false := by
  rcases idle with blank | star
  · rw [Text.trimEnd_eq_nil_iff.mpr blank]
    rfl
  · obtain ⟨s, rfl⟩ := List.head?_eq_some_iff.mp star
    rw [Text.trimEnd_cons_of_not_blank (by decide)]
    rfl

/-- A line that ends the file: a header line with the word for it. -/
def Ends (l : List Char) : Prop :=
  isHeader l = true ∧ (Text.words l).head? = some "ENDATA".toList

instance (l : List Char) : Decidable (Ends l) := inferInstanceAs (Decidable (_ ∧ _))

/-- Lines, and the same lines laid out again. -/
inductive Relaid : List (List Char) → List (List Char) → Type
  | nil : Relaid [] []
  /-- A line that says nothing is inserted. -/
  | insert {ls ls' : List (List Char)} (l : List Char) (idle : Idle l) (rest : Relaid ls ls') :
    Relaid ls (l :: ls')
  /-- A line is kept, with blanks at its end. -/
  | keep {ls ls' : List (List Char)} (l p : List Char) (blank : Text.Blank p)
    (rest : Relaid ls ls') : Relaid (l :: ls) ((l ++ p) :: ls')
  /-- The line that ends the file is kept; anything may follow it. -/
  | ended {l p : List Char} (ends : Ends l) (blank : Text.Blank p) (ls ls' : List (List Char)) :
    Relaid (l :: ls) ((l ++ p) :: ls')

/-- The number of lines that are inserted before the line of a number. There is no line zero. -/
def Relaid.inserted {ls ls' : List (List Char)} : Relaid ls ls' → Nat → Nat
  | _, 0 => 0
  | nil, _ + 1 => 0
  | insert _ _ rest, n + 1 => rest.inserted (n + 1) + 1
  | keep _ _ _ rest, n + 1 => rest.inserted n
  | ended .., _ + 1 => 0

/-- The error with the number of its line moved up. A missing end is reported at the last line. -/
def Error.moved (inserted : Nat → Nat) (last : Nat) : Error L → Error L
  | .format _ .missingEnd => .format last .missingEnd
  | .format n fault => .format (n + inserted n) fault
  | .unknownColumn n name => .unknownColumn (n + inserted n) name
  | .unknownRow n name => .unknownRow (n + inserted n) name
  | e => e

theorem Refusal.moved {e : Nat → Error L} (refusal : Refusal e) (inserted : Nat → Nat)
    (last n : Nat) : (e n).moved inserted last = e (n + inserted n) := by
  cases refusal with
  | @format fault other => cases fault <;> first | rfl | exact absurd rfl other
  | _ => rfl

/-- What comes of the end of the file does not move. -/
theorem Draft.finish_moved [Scalar K] [Limits L K] (d : Draft K L) {inserted : Nat → Nat}
    (none : inserted 0 = 0)
    (last : Nat) : d.finish.mapError (Error.moved inserted last) = d.finish := by
  cases made : d.finish with
  | ok f => rfl
  | error e =>
    rcases finish_error made with rfl | ⟨cause, rfl⟩
    · simp [Except.mapError, Error.moved, none]
    · rfl

variable [Scalar K] [Limits L K] [OfNumeral K] [OfNumeral L]

/-- A line does the same wherever it stands; an error has the number of the line, or none. -/
theorem Draft.located_line (d : Draft K L) (format : Format) (raw : List Char) :
    Located fun n => d.line format n raw := by
  unfold Draft.line
  dsimp only
  split
  · exact .pure _
  · split
    · exact .header d _
    · exact (Located.dataLine d _).map some

theorem Draft.line_append_blank (d : Draft K L) (format : Format) (n : Nat) (l : List Char)
    {p : List Char} (blank : Text.Blank p) : d.line format n (l ++ p) = d.line format n l := by
  unfold Draft.line
  rw [Text.trimEnd_append_blank blank]

theorem Draft.line_idle (d : Draft K L) (format : Format) (n : Nat) {l : List Char} (idle : Idle l) :
    d.line format n l = .ok (some d) := by
  unfold Draft.line
  simp [idle.counts]

/-- What a header line does depends on its first word. -/
theorem Draft.line_of_header (d : Draft K L) (format : Format) (n : Nat) {l w : List Char}
    (flush : isHeader l = true) (word : (Text.words l).head? = some w) (star : w.head? ≠ some '*') :
    d.line format n l = d.header n (Text.trimEnd l) ∧
      ((Text.words (Text.trimEnd l)).map String.ofList).headD "" = String.ofList w := by
  refine ⟨?_, ?_⟩
  · cases l with
    | nil => cases flush
    | cons c s =>
      have dense : Text.isBlank c = false := by simpa [isHeader] using flush
      have counted : counts (c :: Text.trimEnd s) = true := by
        -- the line starts with the first letter of its first word
        rw [Text.words_cons, dense] at word
        cases word
        simpa [counts] using star
      unfold Draft.line
      rw [Text.trimEnd_cons_of_not_blank dense]
      simp [counted, isHeader, dense]
  · rw [Text.words_trimEnd, List.headD_eq_head?_getD, List.head?_map, word]
    rfl

theorem Draft.line_ends (d : Draft K L) (format : Format) (n : Nat) {l : List Char} (ends : Ends l) :
    d.line format n l = .ok none := by
  obtain ⟨line, word⟩ := d.line_of_header format n ends.1 ends.2 (by decide)
  rw [line]
  unfold header
  simp only [word, String.ofList_toList]

/-- Reading lines that are laid out again, from a draft: the same comes of it, at the lines that the
numbers have moved to. -/
theorem readLines_relaid (format : Format) {ls ls' : List (List Char)} (relaid : Relaid ls ls')
    (d : Draft K L) (before before' : Nat) {inserted : Nat → Nat} (none : inserted 0 = 0)
    (moved : ∀ n, before + (n + 1) + inserted (before + (n + 1)) =
      before' + (n + 1 + relaid.inserted (n + 1))) :
    readLines format d before' ls' = (readLines format d before ls).mapError
      (Error.moved inserted (before' + ls'.length)) := by
  induction relaid generalizing d before before' with
  | nil => rfl
  | @insert ls ls' l idle rest ih =>
    have count : before' + 1 + ls'.length = before' + (l :: ls').length := by
      rw [List.length_cons]
      omega
    rw [readLines_cons, d.line_idle format _ idle]
    dsimp only
    rw [ih d before (before' + 1) fun n => ?_, count]
    have here := moved n
    rw [Relaid.inserted] at here
    omega
  | @keep ls ls' l p blank rest ih =>
    have count : before' + 1 + ls'.length = before' + ((l ++ p) :: ls').length := by
      rw [List.length_cons]
      omega
    have first : before + 1 + inserted (before + 1) = before' + 1 := by
      simpa [Relaid.inserted] using moved 0
    rw [readLines_cons, readLines_cons, d.line_append_blank format _ l blank]
    cases d.located_line format l with
    | refused refusal same =>
      rw [same, same]
      dsimp only [Except.mapError]
      rw [refusal.moved, first]
    | ok made same =>
      rw [same, same]
      cases made with
      | none => exact (d.finish_moved none _).symm
      | some d' =>
        dsimp only
        rw [ih d' (before + 1) (before' + 1) fun n => ?_, count]
        have here := moved (n + 1)
        rw [Relaid.inserted] at here
        rw [Nat.add_assoc before 1, Nat.add_comm 1 (n + 1)]
        omega
  | @ended l p ends blank ls ls' =>
    rw [readLines_cons, readLines_cons, d.line_append_blank format _ l blank, d.line_ends _ _ ends,
      d.line_ends _ _ ends]
    exact (d.finish_moved none _).symm

/-! ## Texts that are laid out again -/

/-- Reading depends on lines up to the blanks that end them. -/
theorem readLines_congr {ls ls' : List (List Char)}
    (same : ls.map Text.trimEnd = ls'.map Text.trimEnd) (format : Format) (d : Draft K L)
    (before : Nat) : readLines format d before ls = readLines format d before ls' := by
  induction ls generalizing d before ls' with
  | nil =>
    obtain rfl := List.map_eq_nil_iff.mp same.symm
    rfl
  | cons l ls ih =>
    obtain ⟨l', ls', rfl, first, rest⟩ := List.map_eq_cons_iff.mp same.symm
    have line : d.line format (before + 1) l' = d.line format (before + 1) l := by
      unfold Draft.line
      rw [first]
    rw [readLines_cons, readLines_cons, line]
    cases d.line format (before + 1) l with
    | error e => rfl
    | ok made =>
      cases made with
      | none => rfl
      | some d' => exact ih rest.symm d' (before + 1)

/-- Nothing that follows an accepted file is read. -/
theorem readLines_append_of_ok {ls : List (List Char)} {format : Format} {d : Draft K L}
    {before : Nat} {f : File K L} (accepted : readLines format d before ls = .ok f)
    (more : List (List Char)) : readLines format d before (ls ++ more) = .ok f := by
  induction ls generalizing d before with
  | nil => cases accepted
  | cons l ls ih =>
    rw [readLines_cons] at accepted
    rw [List.cons_append, readLines_cons]
    cases made : d.line format (before + 1) l with
    | error e =>
      rw [made] at accepted
      cases accepted
    | ok ended =>
      rw [made] at accepted
      cases ended with
      | none => exact accepted
      | some d' => exact ih accepted

/-- The result of reading a text is not changed by its layout: by lines that say nothing, by blanks at
the ends of lines, and by what follows the end of the file, where the numbers of lines move with the
lines; nor by carriage returns before some line feeds; nor, where the text is accepted, by anything
that is appended on new lines. -/
theorem read_layout (format : Format) (text : String) :
    (∀ (text' : String) (relaid : Relaid (Text.lines text.toList) (Text.lines text'.toList)),
      (read format text' : Except (Error L) (File K L)) = (read format text).mapError
        (Error.moved relaid.inserted (Text.lines text'.toList).length)) ∧
    (∀ text' : String, Text.Returned text.toList text'.toList →
      (read format text' : Except (Error L) (File K L)) = read format text) ∧
    ∀ (f : File K L) (rest : String), read format text = .ok f →
      read format (text ++ "\n" ++ rest) = .ok f := by
  refine ⟨fun text' relaid => ?_, fun text' returned => ?_, fun f rest accepted => ?_⟩
  · have start : relaid.inserted 0 = 0 := by
      unfold Relaid.inserted
      rfl
    have moved := readLines_relaid format relaid (.empty : Draft K L) 0 0 start fun n => by simp
    rwa [Nat.zero_add] at moved
  · exact readLines_congr returned.map_trimEnd_lines format .empty 0
  · obtain ⟨more, parts⟩ := Text.lines_append_line text.toList rest.toList
    have all : (text ++ "\n" ++ rest).toList = text.toList ++ '\n' :: rest.toList := by simp
    unfold read
    rw [all, parts]
    exact readLines_append_of_ok accepted more

theorem exists_of_isOk {ε α : Type} {x : Except ε α} (accepted : x.isOk = true) :
    ∃ a, x = .ok a := by
  cases x with
  | error e => cases accepted
  | ok a => exact ⟨a, rfl⟩

/-- A file without columns. -/
def bare : List (List Char) :=
  ["ROWS", " N cost", "ENDATA"].map String.toList

/-- The same with a comment, a blank line, blanks and something after the end. -/
def spacious : List (List Char) :=
  ["* no columns", "ROWS \t", "", " N cost  ", "ENDATA ", "LATER"].map String.toList

def bareRelaid : Relaid bare spacious :=
  .insert _ (.inr rfl) (.keep "ROWS".toList " \t".toList (by decide)
    (.insert _ (.inl (by decide)) (.keep " N cost".toList "  ".toList (by decide)
      (.ended (l := "ENDATA".toList) (p := [' ']) (by decide +kernel) (by decide) [] _))))

def bareText : String := .ofList (Text.joined bare)

def spaciousText : String := .ofList (Text.joined spacious)

def returnedText : String := .ofList (Text.joined (bare.map (· ++ ['\r'])))

theorem read_layout_bare : ∃ f : File Unrounded Unrounded, read .free bareText = .ok f ∧
    read .free spaciousText = .ok f ∧ read .free returnedText = .ok f ∧
      read .free (bareText ++ "\n" ++ "LATER") = .ok f := by
  have lines : Text.lines bareText.toList = bare := by
    rw [bareText, String.toList_ofList, Text.lines_joined (by decide +kernel)]
  have lines' : Text.lines spaciousText.toList = spacious := by
    rw [spaciousText, String.toList_ofList, Text.lines_joined (by decide +kernel)]
  have returned : Text.Returned bareText.toList returnedText.toList := by
    rw [bareText, returnedText, String.toList_ofList, String.toList_ofList]
    repeat constructor
  obtain ⟨f, made⟩ : ∃ f : File Unrounded Unrounded, read .free bareText = .ok f :=
    exists_of_isOk (by decide +kernel)
  obtain ⟨relaid, returns, appended⟩ := read_layout (K := Unrounded) (L := Unrounded) .free bareText
  rw [lines] at relaid
  have again := relaid spaciousText
  rw [lines'] at again
  have laid := again bareRelaid
  rw [made] at laid
  exact ⟨f, made, laid, (returns returnedText returned).trans made, appended f "LATER" made⟩

end Milp.Mps
