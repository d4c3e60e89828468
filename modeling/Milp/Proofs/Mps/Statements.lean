import Milp.Proofs.Mps.Draft
import Milp.Proofs.Mps.Problem

/-!
# What statements do to drafts

Results:
1. `line_written`: a line of words is a data line with these words as fields.
2. `rowLine_statement`, `columnLine_statement`, `pairLine_statement`, `boundLine_statement`: what each
   kind of statement makes of a draft that knows the rows and the column that it names.
3. `takes_section`: what every statement of a section keeps, the section keeps.
-/

namespace Milp.Mps

/-! ## Lines of words -/

theorem Word.not_blank (w : Word) : ¬ Text.Blank w.chars :=
  Text.not_blank_of_dense w.dense w.ne_nil

theorem Word.capitals_text (w : Word) :
    Text.capitals w.text = .ofList (w.chars.map Char.toUpper) := by
  rw [Text.capitals, Word.text, String.toList_ofList]

theorem Written.head_blank {ws : List Word} {l : List Char} (written : Written ws l) :
    ∀ b ∈ l.head?, Text.isBlank b = true := by
  cases written with
  | nil blank => exact fun b hb => blank b (List.mem_of_mem_head? hb)
  | @cons gap rest w ws blank some others =>
    obtain ⟨c, gap, rfl⟩ := List.exists_cons_of_ne_nil some
    rintro b ⟨⟩
    exact blank c (List.mem_cons_self ..)

theorem Written.words {ws : List Word} {l : List Char} (written : Written ws l) :
    Text.words l = ws.map (·.chars) := by
  induction written with
  | nil blank => exact Text.words_blank blank
  | @cons gap rest w ws blank some others ih =>
    rw [Text.words_blank_append blank, Text.words_dense_append w.dense w.ne_nil others.head_blank, ih,
      List.map_cons]

theorem Written.blank_iff {ws : List Word} {l : List Char} (written : Written ws l) :
    Text.Blank l ↔ ws.map (·.chars) = [] := by
  cases written with
  | nil blank => simpa using blank
  | @cons gap rest w ws blank some others =>
    have dense : ¬ Text.Blank (gap ++ (w.chars ++ rest)) := fun all =>
      w.not_blank fun c hc => all c (List.mem_append_right _ (List.mem_append_left _ hc))
    simpa using dense

theorem Written.exists_cons {w : Word} {ws : List Word} {l : List Char}
    (written : Written (w :: ws) l) : ∃ b s, Text.isBlank b = true ∧ l = b :: s := by
  have head := written.head_blank
  cases written with
  | @cons gap rest w ws blank some others =>
    obtain ⟨b, gap, rfl⟩ := List.exists_cons_of_ne_nil some
    exact ⟨b, _, head b rfl, rfl⟩

variable {K L : Type} [Scalar K] [Limits L K] [OfNumeral K] [OfNumeral L]

omit [Scalar K] in
theorem PairStatement.fields_ne_nil (s : PairStatement K) : s.fields ≠ [] := by
  simp [PairStatement.fields, PairStatement.pairs, pairFields]

namespace Draft

/-- A line of words is a data line with these words as fields. -/
theorem line_written (d : Draft K L) (n : Nat) {w : Word} {ws : List Word} {l : List Char}
    (written : Written (w :: ws) l) :
    d.line .free n l = (d.dataLine n ((w :: ws).map (·.text))).map some := by
  have fields : Format.free.fields (Text.trimEnd l) =
      ((w :: ws).map (·.chars)).map String.ofList := by
    rw [Format.fields, Text.words_trimEnd, written.words]
  have empty := written.blank_iff
  obtain ⟨b, s, blank, rfl⟩ := written.exists_cons
  rw [d.line_of_fields .free n blank empty fields, if_neg (by simp), List.map_map]
  rfl

/-! ## Headers -/

/-- A flush line of words, the first of which begins no comment, is a header line. -/
theorem line_words (d : Draft K L) (n : Nat) {w : Word} (other : w.chars.head? ≠ some '*')
    {ws : List Word} {l : List Char} (written : Written ws l) :
    d.line .free n (w.chars ++ l) = d.header n (Text.trimEnd (w.chars ++ l)) ∧
      Text.words (Text.trimEnd (w.chars ++ l)) = w.chars :: ws.map (·.chars) := by
  obtain ⟨rest, kept⟩ : ∃ rest, Text.trimEnd (w.chars ++ l) = w.chars ++ rest := by
    by_cases blank : Text.Blank l
    · rw [Text.trimEnd_append_blank blank, Text.trimEnd_dense w.dense]
      exact ⟨[], (List.append_nil _).symm⟩
    · exact ⟨_, Text.trimEnd_append blank⟩
  obtain ⟨c, r, parts⟩ := List.exists_cons_of_ne_nil w.ne_nil
  have dense : Text.isBlank c = false := w.dense c (by simp [parts])
  have counted : c ≠ '*' := by
    rintro rfl
    simp [parts] at other
  constructor
  · unfold line
    rw [kept, parts]
    simp [counts, counted, isHeader, dense]
  · rw [Text.words_trimEnd, Text.words_dense_append w.dense w.ne_nil written.head_blank, written.words]

theorem line_alone (d : Draft K L) (n : Nat) {w : Word} (other : w.chars.head? ≠ some '*') :
    d.line .free n w.chars = d.header n w.chars ∧ Text.words w.chars = [w.chars] := by
  have flush := d.line_words n other (Written.nil (fun c hc => by cases hc) : Written [] [])
  rwa [List.append_nil, Text.trimEnd_dense w.dense] at flush

/-- The header of a section enters it. -/
theorem line_header (d : Draft K L) (n : Nat) {w : Word} {s : Section}
    (named : (w, s) ∈ [(senseHeader, Section.sense), (rowsHeader, .rows), (columnsHeader, .columns),
      (rightHandSidesHeader, .rightHandSides), (rangesHeader, .ranges), (boundsHeader, .bounds)]) :
    d.line .free n w.chars = .ok (some { d with current := s }) := by
  simp only [List.mem_cons, Prod.mk.injEq, List.not_mem_nil, or_false] at named
  rcases named with ⟨rfl, rfl⟩ | ⟨rfl, rfl⟩ | ⟨rfl, rfl⟩ | ⟨rfl, rfl⟩ | ⟨rfl, rfl⟩ | ⟨rfl, rfl⟩ <;>
    rw [(line_alone _ _ (by decide)).1, header, (line_alone d n (by decide)).2] <;> rfl

/-- The header that ends a file. -/
theorem line_end (d : Draft K L) (n : Nat) : d.line .free n endHeader.chars = .ok none := by
  rw [(d.line_alone n (by decide)).1, header, (line_alone d n (by decide)).2]
  rfl

/-- The header that names a problem. -/
theorem line_name (d : Draft K L) (n : Nat) (name : List Char) :
    d.line .free n ("NAME ".toList ++ name) =
      .ok (some { d with current := .name, name := .ofList (Text.trim name) }) := by
  obtain ⟨rest, ends, head, trimmed⟩ : ∃ rest,
      Text.trimEnd ("NAME ".toList ++ name) = "NAME".toList ++ rest ∧
      (∀ c ∈ rest.head?, Text.isBlank c = true) ∧ Text.trim rest = Text.trim name := by
    have parts : "NAME ".toList ++ name = "NAME".toList ++ ' ' :: name := rfl
    by_cases blank : Text.Blank name
    · have all : Text.Blank (' ' :: name) := fun c hc =>
        (List.mem_cons.mp hc).elim (· ▸ rfl) (blank c)
      refine ⟨[], ?_, by simp, ?_⟩
      · rw [parts, Text.trimEnd_append_blank all]
        decide
      · exact (Text.trim_append_blank (s := []) blank).symm
    · refine ⟨' ' :: Text.trimEnd name, ?_, ?_, Text.trim_trimEnd name⟩
      · exact Text.trimEnd_append blank
      · rintro c ⟨⟩
        rfl
  have words : Text.words ("NAME".toList ++ rest) = "NAME".toList :: Text.words rest :=
    Text.words_dense_append (by decide) (by decide) head
  unfold line
  rw [ends]
  show d.header n ("NAME".toList ++ rest) = _
  unfold header
  rw [words]
  show Except.ok (some { d with current := .name, name := .ofList (Text.trim rest) }) = _
  rw [trimmed]

/-! ## The direction of the objective -/

omit [Scalar K] [Limits L K] [OfNumeral K] [OfNumeral L] in
theorem sense_word (n : Nat) (s : SenseStatement) :
    (sense n s.word.text : Except (Error L) Direction) = .ok s.direction := by
  obtain ⟨word, direction, spells, inHeader⟩ := s
  unfold sense
  cases direction with
  | maximise =>
    have capitals : ["MAX", "MAXIMIZE", "MAXIMISE"].contains (Text.capitals word.text) = true :=
      List.contains_iff_mem.mpr spells
    rw [if_pos capitals]
  | minimise =>
    have other : ["MAX", "MAXIMIZE", "MAXIMISE"].contains (Text.capitals word.text) = false := by
      have spells : Text.capitals word.text ∈ ["MIN", "MINIMIZE", "MINIMISE"] := spells
      revert spells
      generalize Text.capitals word.text = capitals
      simp only [List.mem_cons, List.not_mem_nil, or_false]
      rintro (rfl | rfl | rfl) <;> decide
    have capitals : ["MIN", "MINIMIZE", "MINIMISE"].contains (Text.capitals word.text) = true :=
      List.contains_iff_mem.mpr spells
    rw [if_neg (Bool.eq_false_iff.mp other), if_pos capitals]

/-- The lines for the direction of the objective set it. -/
theorem takes_sense {o : Option SenseStatement} {ls : List (List Char)} (lines : WrittenSense o ls)
    (d : Draft K L) (n : Nat) :
    ∃ current, d.Takes .free n ls
      { d with current, direction := (o.map (·.direction)).getD d.direction } := by
  cases lines with
  | omitted => exact ⟨d.current, .nil d n⟩
  | @inHeader s _ l written =>
    have flush := d.line_words (n + 1) (w := senseHeader) (by decide) written
    have line : d.line .free (n + 1) (senseHeader.chars ++ l) =
        .ok (some { d with current := .sense, direction := s.direction }) := by
      rw [flush.1, header, flush.2]
      show sense (n + 1) s.word.text >>= _ = _
      rw [sense_word]
      rfl
    exact ⟨.sense, .cons line (.nil _ _)⟩
  | @below s _ l written =>
    let entered : Draft K L := { d with current := .sense }
    have header : d.line .free (n + 1) senseHeader.chars = .ok (some entered) :=
      d.line_header (n + 1) (by simp)
    have line : entered.line .free (n + 1 + 1) l =
        .ok (some { d with current := .sense, direction := s.direction }) := by
      rw [entered.line_written (n + 1 + 1) written]
      show (sense (n + 1 + 1) s.word.text >>= _).map some = _
      rw [sense_word]
      rfl
    exact ⟨.sense, .cons header (.cons line (.nil _ _))⟩

/-! ## Rows -/

omit [Scalar K] [Limits L K] [OfNumeral K] [OfNumeral L] in
theorem rowKind_word (n : Nat) (s : RowStatement) :
    (rowKind n s.kindWord.text : Except (Error L) _) = .ok s.kind := by
  obtain ⟨kind, name⟩ := s
  rw [rowKind, Word.capitals_text]
  rcases kind with _ | _ | _ | _ <;> rfl

omit [Scalar K] [Limits L K] [OfNumeral K] [OfNumeral L] in
theorem lookup_of_not_mem_keys {d : Draft K L} {name : String} (fresh : name ∉ d.keys) :
    d.slots.lookup name = none := by
  rw [List.lookup_eq_none_iff]
  intro p hp
  have differ : p.1 ≠ name := fun same => fresh (same ▸ List.mem_map_of_mem hp)
  simpa using differ.symm

omit [Limits L K] [OfNumeral K] [OfNumeral L] in
theorem rowLine_statement {d : Draft K L} (n : Nat) {s : RowStatement} (fresh : s.name.text ∉ d.keys) :
    d.rowLine n (s.fields.map (·.text)) = .ok (d.declareRow s.kind s.name.text) := by
  show (rowKind n s.kindWord.text >>= _) = _
  rw [rowKind_word, ok_bind, lookup_of_not_mem_keys fresh]
  rfl

/-! ## Pairs -/

omit [Scalar K] [Limits L K] [OfNumeral K] [OfNumeral L] in
/-- What a row of a name stands for. -/
def slotOf (d : Draft K L) (name : String) : RowSlot := (d.slots.lookup name).getD .ignored

omit [Scalar K] [Limits L K] [OfNumeral K] [OfNumeral L] in
theorem slotOf_eq_iff {d : Draft K L} {name : String} {slot : RowSlot} (kept : slot ≠ .ignored) :
    d.slotOf name = slot ↔ d.slots.lookup name = some slot := by
  unfold slotOf
  cases d.slots.lookup name <;> simp [kept.symm]

omit [Scalar K] [Limits L K] [OfNumeral K] [OfNumeral L] in
theorem lookup_of_mem_keys {d : Draft K L} {name : String} (known : name ∈ d.keys) :
    d.slots.lookup name = some (d.slotOf name) := by
  cases found : d.slots.lookup name with
  | some slot => rw [slotOf, found, Option.getD_some]
  | none =>
    obtain ⟨p, hp, rfl⟩ := List.mem_map.mp known
    simpa using List.lookup_eq_none_iff.mp found p hp

omit [Scalar K] [Limits L K] [OfNumeral L] in
/-- Pairs of known rows are taken one by one. -/
theorem forPairs_pairs {d : Draft K L} (n : Nat) (change : Draft K L → RowSlot → K → Draft K L)
    (keeps : ∀ (d : Draft K L) (slot : RowSlot) (x : K), (change d slot x).slots = d.slots)
    (ps : List (Pair K)) (known : ∀ p ∈ ps, p.row.text ∈ d.keys) :
    d.forPairs n ((pairFields ps).map (·.text)) change =
      .ok (ps.foldl (fun e p => change e (d.slotOf p.row.text) p.figure.value) d) := by
  induction ps generalizing d with
  | nil => rfl
  | cons p ps ih =>
    have first : (d.slot n p.row.text : Except (Error L) _) = .ok (d.slotOf p.row.text) := by
      rw [slot, lookup_of_mem_keys (known p (List.mem_cons_self ..))]
    have figure : (number n p.figure.word.text : Except (Error L) K) = .ok p.figure.value := by
      rw [number, p.figure.reads]
    let next := change d (d.slotOf p.row.text) p.figure.value
    have same : next.slots = d.slots := keeps d (d.slotOf p.row.text) p.figure.value
    have rest := ih (d := next) fun q hq => by
      rw [keys, same]
      exact known q (List.mem_cons_of_mem _ hq)
    have slots : next.slotOf = d.slotOf := by
      funext name
      rw [slotOf, slotOf, same]
    rw [slots] at rest
    show ((number n p.figure.word.text >>= fun value => d.slot n p.row.text >>= _) >>= _) = _
    rw [figure, ok_bind, first]
    exact rest

/-! ## Columns -/

/-- The draft after coefficients of a column. -/
def addPairs (d : Draft K L) (column : String) (ps : List (Pair K)) : Draft K L :=
  ps.foldl (fun e p => e.addCoefficient (d.column column).2 (d.slotOf p.row.text) p.figure.value)
    (d.column column).1

omit [OfNumeral L] in
theorem columnLine_marker_statement (d : Draft K L) (n : Nat) (label : Word) (begins : Bool) :
    d.columnLine n ((ColumnStatement.marker label begins : ColumnStatement K).fields.map (·.text)) =
      .ok { d with inIntegers := begins } := by
  show d.columnLine n [label.text, "'MARKER'", (blockWord begins).text] = _
  rw [columnLine_marker]
  cases begins <;> rfl

omit [OfNumeral L] in
theorem columnLine_entries_statement {d : Draft K L} (n : Nat) (column : Word) {first : Pair K}
    {second : Option (Pair K)} (unmarked : first.row.text ≠ markerWord.text)
    (known : ∀ p ∈ first :: second.toList, p.row.text ∈ d.keys) :
    d.columnLine n ((ColumnStatement.entries column first second).fields.map (·.text)) =
      .ok (d.addPairs column.text (first :: second.toList)) := by
  have slots := d.slots_column column.text
  have sizes : ((pairFields (first :: second.toList)).map (·.text)).length = 2 ∨
      ((pairFields (first :: second.toList)).map (·.text)).length = 4 := by
    cases second <;> simp [pairFields]
  have others : ∀ word, (pairFields (first :: second.toList)).map (·.text) ≠ ["'MARKER'", word] := by
    intro word same
    exact unmarked (List.cons.inj same).1
  have pairs := forPairs_pairs (d := (d.column column.text).1) n
    (fun e slot x => e.addCoefficient (d.column column.text).2 slot x)
    (fun e slot x => e.slots_addCoefficient _ slot x) (first :: second.toList) (by
      rw [keys, slots]
      exact known)
  simp only [slotOf, slots] at pairs
  show d.columnLine n (column.text :: (pairFields (first :: second.toList)).map (·.text)) = _
  rw [columnLine_column others, if_pos sizes]
  exact pairs

/-! ## Right-hand sides and ranges -/

omit [Scalar K] [Limits L K] [OfNumeral L] in
theorem withoutSetName_fields (s : PairStatement K) :
    withoutSetName (s.fields.map (·.text)) = (pairFields s.pairs).map (·.text) := by
  obtain ⟨set, first, second⟩ := s
  cases set <;> cases second <;>
    simp [withoutSetName, PairStatement.fields, PairStatement.pairs, pairFields]

omit [Scalar K] [Limits L K] [OfNumeral L] in
theorem pairLine_statement {d : Draft K L} (n : Nat) {change : Draft K L → RowSlot → K → Draft K L}
    (keeps : ∀ (d : Draft K L) (slot : RowSlot) (x : K), (change d slot x).slots = d.slots)
    {s : PairStatement K} (known : ∀ p ∈ s.pairs, p.row.text ∈ d.keys) :
    d.pairLine n (s.fields.map (·.text)) change =
      .ok (s.pairs.foldl (fun e p => change e (d.slotOf p.row.text) p.figure.value) d) := by
  have sizes : (((pairFields s.pairs).map (·.text)).isEmpty ||
      decide (4 < ((pairFields s.pairs).map (·.text)).length)) = false := by
    obtain ⟨set, first, second⟩ := s
    cases second <;> rfl
  unfold pairLine
  rw [withoutSetName_fields]
  dsimp only
  rw [sizes]
  exact forPairs_pairs n change keeps s.pairs known

/-! ## Bounds -/

end Draft

/-- A column after a change of its bounds. -/
def BoundChange.apply {K L : Type} [Scalar K] [Limits L K] [OfNumeral L] (b : BoundChange L)
    (c : Column K L) : Column K L :=
  { c with
    integer := c.integer || b.isInteger
    binary := c.binary || b.isBinary
    lower := (b.bounds (c.lower, c.upper)).1
    upper := (b.bounds (c.lower, c.upper)).2 }

omit [OfNumeral K] in
theorem Column.withBound?_words (c : Column K L) (b : BoundChange L) :
    c.withBound? (Text.capitals b.words.1.text) (b.words.2.map (·.value)) = some (b.apply c) := by
  rw [Word.capitals_text]
  cases b <;> simp only [BoundChange.apply, BoundChange.isInteger, BoundChange.isBinary,
    Bool.or_false, Bool.or_true] <;> rfl

namespace Draft

omit [Scalar K] [Limits L K] [OfNumeral K] in
theorem boundFields_words (n : Nat) (s : BoundStatement L) :
    (boundFields n (Text.capitals s.change.words.1.text)
        ((s.set.toList ++ s.column :: (s.change.words.2.map (·.word)).toList).map (·.text)) :
      Except (Error L) _) = .ok (s.column.text, s.change.words.2.map (·.word.text)) := by
  rw [Word.capitals_text]
  obtain ⟨change, set, column⟩ := s
  cases set <;> cases change <;> rfl

omit [OfNumeral K] in
theorem boundLine_statement {d : Draft K L} (n : Nat) {s : BoundStatement L} {i : Nat}
    {c : Column K L} (found : d.places.lookup s.column.text = some i)
    (here : d.columns[i]? = some c) :
    d.boundLine n (s.fields.map (·.text)) =
      .ok { d with columns := d.columns.setIfInBounds i (s.change.apply c) } := by
  have figure : ((s.change.words.2.map (·.word.text)).mapM (number n) : Except (Error L) (Option L)) =
      .ok (s.change.words.2.map (·.value)) := by
    cases s.change.words.2 with
    | none => rfl
    | some x =>
      show (number n x.word.text : Except (Error L) L).map some = _
      rw [number, x.reads]
      rfl
  show (boundFields n (Text.capitals s.change.words.1.text) _ >>= _) = _
  rw [boundFields_words, ok_bind]
  dsimp only
  rw [found]
  dsimp only
  rw [figure, ok_bind, here, Option.bind_some, Column.withBound?_words]
  rfl

/-! ## Sections -/

/-- What the statements of a section keep step by step holds after the section. It may speak of the
statements so far, and does not depend on the section that the reader is in. -/
theorem takes_section {σ : Type} {fields : σ → List Word} {motive : List σ → Draft K L → Prop}
    {header : Word} {entered : Section} {statements : List σ} {ls : List (List Char)}
    (lines : WrittenSection header (statements.map fields) ls)
    (enter : ∀ (d : Draft K L) n, d.line .free n header.chars = .ok (some { d with current := entered }))
    (nonempty : ∀ s ∈ statements, fields s ≠ [])
    (current : ∀ d s, motive [] d → motive [] { d with current := s })
    (step : ∀ before s after, statements = before ++ s :: after → ∀ (d : Draft K L) n,
      d.current = entered → motive before d → ∃ d' : Draft K L,
        d.dataLine n ((fields s).map (·.text)) = .ok d' ∧ d'.current = entered ∧ motive (before ++ [s]) d')
    {d : Draft K L} (start : motive [] d) (n : Nat) :
    ∃ d' : Draft K L, d.Takes .free n ls d' ∧ motive statements d' := by
  have body (rest : List σ) : ∀ (before : List σ) (ls : List (List Char)) (d : Draft K L) (n : Nat),
      statements = before ++ rest → List.Forall₂ Written (rest.map fields) ls → d.current = entered →
        motive before d → ∃ d' : Draft K L, d.Takes .free n ls d' ∧ motive statements d' := by
    induction rest with
    | nil =>
      intro before ls d n all written _ holds
      cases written
      rw [List.append_nil] at all
      exact ⟨d, .nil d n, all ▸ holds⟩
    | cons s rest ih =>
      intro before ls d n all written inside holds
      cases written with
      | @cons _ l _ ls first others =>
        obtain ⟨next, made, inside, holds⟩ := step before s rest all d (n + 1) inside holds
        obtain ⟨w, ws, words⟩ := List.exists_cons_of_ne_nil
          (nonempty s (all ▸ List.mem_append_right _ (List.mem_cons_self ..)))
        have line : d.line .free (n + 1) l = .ok (some next) := by
          rw [words] at first made
          rw [d.line_written (n + 1) first, made]
          rfl
        obtain ⟨d', takes, holds⟩ := ih (before ++ [s]) ls next (n + 1) (by simp [all]) others inside holds
        exact ⟨d', .cons line takes, holds⟩
  generalize given : statements.map fields = fs at lines
  cases lines with
  | omitted =>
    rw [List.map_eq_nil_iff] at given
    exact ⟨d, .nil d n, given ▸ start⟩
  | lines written =>
    rw [← given] at written
    obtain ⟨d', takes, holds⟩ := body statements [] _ { d with current := entered } (n + 1) rfl written rfl
      (current d entered start)
    exact ⟨d', .cons (enter d (n + 1)) takes, holds⟩

end Draft

end Milp.Mps
