import Milp.Proofs.Mps.Edits

/-!
# Sections after the columns

The sections of right-hand sides, ranges and bounds may come in any order, and so may the lines of a
section, as long as no two lines that name one row or one column trade places.

Results:
1. `takes_blocks`: blocks are accepted where all their lines are, and then make the edits of these.
2. `read_rearranged`: an accepted file with its blocks and their lines rearranged says the same.
3. `read_swapped_ne`: where two blocks of one section name a row, the last one counts.
-/

namespace Milp.Mps

/-! ## Blocks -/

/-- A line that is no header line: it says nothing, or starts with a blank. -/
def Inside (l : List Char) : Prop := Idle l ∨ isHeader l = false

instance (l : List Char) : Decidable (Inside l) := inferInstanceAs (Decidable (_ ∨ _))

/-- A section after the columns: its header line, and the lines up to the next one. -/
structure Block where
  part : Trailing
  header : List Char
  flush : isHeader header = true
  word : (Text.words header).head? = some part.word.toList
  body : List (List Char)
  inside : ∀ l ∈ body, Inside l

/-- The names of rows, or the name of the column, on a line of a section. -/
def Trailing.lineNames (part : Trailing) (format : Format) (l : List Char) : List String :=
  ((dataFields? format l).map part.names).getD []

namespace Block

/-- All lines of a block. -/
def lines (b : Block) : List (List Char) := b.header :: b.body

/-- The lines of a block that name a row or a column, if the block is of the section. -/
def naming (format : Format) (part : Trailing) (name : String) (b : Block) : List (List Char) :=
  if b.part = part then b.body.filter (name ∈ part.lineNames format ·) else []

/-- A block of the same section with the same lines, in some order. -/
def Shuffled (b b' : Block) : Prop :=
  b'.part = b.part ∧ b'.header = b.header ∧ b.body.Perm b'.body

end Block

/-- Blocks in another order, each with its lines in another order. Lines of one section that name one
row or one column stay in their order. -/
structure Rearranged (format : Format) (bs bs' : List Block) : Prop where
  moved : ∃ middle, bs.Perm middle ∧ List.Forall₂ Block.Shuffled middle bs'
  order : ∀ part name,
    bs.flatMap (·.naming format part name) = bs'.flatMap (·.naming format part name)

/-! ## Lines of blocks -/

variable {K L : Type}

/-- The edits of a line; a line that says nothing has none. -/
def Trailing.lineEdits? [OfNumeral K] [OfNumeral L] (part : Trailing) (format : Format)
    (l : List Char) : Option (List (Edit K L)) :=
  match dataFields? format l with
  | none => some []
  | some fields => part.edits? fields

/-- The edits of a line, if it has any. -/
def Trailing.lineEdits [OfNumeral K] [OfNumeral L] (part : Trailing) (format : Format)
    (l : List Char) : List (Edit K L) :=
  (part.lineEdits? format l).getD []

/-- A line with edits that are known. -/
def Trailing.Accepts [Scalar K] [Limits L K] [OfNumeral K] [OfNumeral L] (part : Trailing)
    (format : Format) (d : Draft K L) (l : List Char) : Prop :=
  ∃ es, part.lineEdits? format l = some es ∧ ∀ e ∈ es, e.Known d

section Names

variable [OfNumeral K] [OfNumeral L] {format : Format}

/-- The edits of a line are in its section, and of the names on it. -/
theorem Trailing.lineEdits_about {part : Trailing} {l : List Char} {e : Edit K L}
    (he : e ∈ part.lineEdits format l) : e.part = part ∧ e.name ∈ part.lineNames format l := by
  unfold lineEdits lineEdits? at he
  unfold lineNames
  cases fields : dataFields? format l with
  | none =>
    rw [fields] at he
    cases he
  | some fs =>
    rw [fields] at he
    dsimp only at he
    cases made : (part.edits? fs : Option (List (Edit K L))) with
    | none =>
      rw [made] at he
      cases he
    | some es =>
      rw [made] at he
      exact edits?_about made e he

/-- The edits of a block. -/
def Block.edits (format : Format) (b : Block) : List (Edit K L) :=
  b.body.flatMap (b.part.lineEdits format)

/-- The edits for one name are those of the lines that name it. -/
theorem Block.filter_edits (b : Block) (part : Trailing) (name : String) :
    (b.edits format : List (Edit K L)).filter (·.isAbout part name) =
      (b.naming format part name).flatMap fun l =>
        (part.lineEdits format l).filter (·.isAbout part name) := by
  unfold edits naming
  rw [List.filter_flatMap]
  split
  · rename_i same
    subst same
    induction b.body with
    | nil => rfl
    | cons l ls ih =>
      rw [List.flatMap_cons, ih, List.filter_cons]
      split
      · rfl
      · rename_i absent
        have none : (b.part.lineEdits format l : List (Edit K L)).filter
            (·.isAbout b.part name) = [] := by
          refine List.filter_eq_nil_iff.mpr fun e he about => absent ?_
          obtain ⟨-, here⟩ := Trailing.lineEdits_about he
          simp only [Edit.isAbout, Bool.and_eq_true, decide_eq_true_eq] at about
          simpa [about.2] using here
        rw [none, List.nil_append]
  · rename_i other
    refine List.flatMap_eq_nil_iff.mpr fun l _ => ?_
    refine List.filter_eq_nil_iff.mpr fun e he about => other ?_
    obtain ⟨here, -⟩ := Trailing.lineEdits_about he
    simp only [Edit.isAbout, Bool.and_eq_true, decide_eq_true_eq] at about
    exact here.symm.trans about.1

/-- Rearranged blocks have the same edits for one name, in the same order. -/
theorem Rearranged.filter_edits {bs bs' : List Block} (rearranged : Rearranged format bs bs')
    (part : Trailing) (name : String) :
    (bs.flatMap (·.edits format) : List (Edit K L)).filter (·.isAbout part name) =
      (bs'.flatMap (·.edits format)).filter (·.isAbout part name) := by
  have lines (bs : List Block) :
      (bs.flatMap (·.edits format) : List (Edit K L)).filter (·.isAbout part name) =
        (bs.flatMap (·.naming format part name)).flatMap fun l =>
          (part.lineEdits format l).filter (·.isAbout part name) := by
    rw [List.filter_flatMap, List.flatMap_assoc]
    simp only [Block.filter_edits]
  rw [lines, lines, rearranged.order]

end Names

theorem exists_of_mem_right {α β : Type} {r : α → β → Prop} {as : List α} {bs : List β}
    (related : List.Forall₂ r as bs) {b : β} (hb : b ∈ bs) : ∃ a ∈ as, r a b := by
  induction related with
  | nil => cases hb
  | cons first _ ih =>
    rcases List.mem_cons.mp hb with rfl | hb
    · exact ⟨_, List.mem_cons_self .., first⟩
    · obtain ⟨a, ha, here⟩ := ih hb
      exact ⟨a, List.mem_cons_of_mem _ ha, here⟩

/-- Every line of a rearranged block was a line of a block of its section. -/
theorem Rearranged.exists_block {format : Format} {bs bs' : List Block}
    (rearranged : Rearranged format bs bs') {b' : Block} (hb' : b' ∈ bs') {l : List Char}
    (hl : l ∈ b'.body) : ∃ b ∈ bs, b.part = b'.part ∧ l ∈ b.body := by
  obtain ⟨middle, moved, shuffled⟩ := rearranged.moved
  obtain ⟨b, hb, part, -, body⟩ := exists_of_mem_right shuffled hb'
  exact ⟨b, moved.mem_iff.mpr hb, part.symm, body.mem_iff.mpr hl⟩

variable [Scalar K] [Limits L K] [OfNumeral K] [OfNumeral L] {format : Format} {d d' : Draft K L}
  {n : Nat}

omit [Scalar K] [Limits L K] [OfNumeral K] [OfNumeral L] in
theorem Inside.counts {l : List Char} (inside : Inside l) :
    counts (Text.trimEnd l) = false ∨ isHeader (Text.trimEnd l) = false := by
  rcases inside with idle | indented
  · exact .inl idle.counts
  · cases l with
    | nil => exact .inr rfl
    | cons c s =>
      by_cases blank : Text.Blank (c :: s)
      · rw [Text.trimEnd_eq_nil_iff.mpr blank]
        exact .inr rfl
      · have kept : ¬ Text.Blank s := fun rest => blank fun b hb => by
          rcases List.mem_cons.mp hb with rfl | hb
          · simpa [isHeader] using indented
          · exact rest b hb
        have trimmed : Text.trimEnd (c :: s) = c :: Text.trimEnd s :=
          Text.trimEnd_append (s := [c]) kept
        rw [trimmed]
        exact .inr indented

/-- A line of a block is accepted where its edits are known, and then makes them. -/
theorem Trailing.line_edits (part : Trailing) (h : d.Sound) (current : d.current = part.current)
    {l : List Char} (inside : Inside l) {made : Option (Draft K L)} :
    d.line format n l = .ok made ↔
      part.Accepts format d l ∧ made = some ((part.lineEdits format l).foldl Draft.edit d) := by
  unfold Accepts lineEdits lineEdits? dataFields? Draft.line
  dsimp only
  cases counted : counts (Text.trimEnd l) with
  | false =>
    simp only [Bool.not_false, if_true, Bool.false_eq_true, false_and, if_false]
    constructor
    · intro same
      cases same
      exact ⟨⟨[], rfl, nofun⟩, rfl⟩
    · rintro ⟨-, rfl⟩
      rfl
  | true =>
    have flush : isHeader (Text.trimEnd l) = false :=
      inside.counts.resolve_left (by simp [counted])
    rw [flush]
    generalize format.fields (Text.trimEnd l) = fields
    simp only [Bool.not_true, Bool.false_eq_true, if_false, and_self, if_true]
    constructor
    · intro accepted
      cases line : d.dataLine n fields with
      | error e =>
        rw [line] at accepted
        cases accepted
      | ok d' =>
        rw [line] at accepted
        cases accepted
        obtain ⟨es, edits, known, rfl⟩ := (part.dataLine_edits h current).mp line
        exact ⟨⟨es, edits, known⟩, by rw [edits]; rfl⟩
    · rintro ⟨⟨es, edits, known⟩, rfl⟩
      rw [(part.dataLine_edits h current).mpr ⟨es, edits, known, rfl⟩, edits]
      rfl

theorem Trailing.accepts_foldl_edit {part : Trailing} {l : List Char} (es : List (Edit K L)) :
    part.Accepts format (es.foldl Draft.edit d) l ↔ part.Accepts format d l := by
  simp only [Accepts, Edit.known_foldl_edit]

/-! ## Runs over blocks -/

theorem Draft.takes_cons {l : List Char} {ls : List (List Char)} :
    d.Takes format n (l :: ls) d' ↔
      ∃ middle, d.line format (n + 1) l = .ok (some middle) ∧ middle.Takes format (n + 1) ls d' :=
  ⟨fun | .cons first others => ⟨_, first, others⟩, fun ⟨_, first, others⟩ => .cons first others⟩

theorem Draft.takes_append {ls rest : List (List Char)} :
    d.Takes format n (ls ++ rest) d' ↔
      ∃ middle, d.Takes format n ls middle ∧ middle.Takes format (n + ls.length) rest d' := by
  refine ⟨fun takes => ?_, fun ⟨_, takes, more⟩ => takes.append more⟩
  induction ls generalizing d n with
  | nil => exact ⟨d, .nil d n, takes⟩
  | cons l ls ih =>
    obtain ⟨next, first, takes⟩ := takes_cons.mp takes
    obtain ⟨middle, others, more⟩ := ih takes
    rw [Nat.add_assoc, Nat.add_comm 1] at more
    exact ⟨middle, .cons first others, more⟩

/-- Lines of a section are accepted where each is, and then make all their edits. -/
theorem Trailing.takes_body (part : Trailing) (h : d.Sound) (current : d.current = part.current)
    {body : List (List Char)} (inside : ∀ l ∈ body, Inside l) :
    d.Takes format n body d' ↔ (∀ l ∈ body, part.Accepts format d l) ∧
      d' = (body.flatMap (part.lineEdits format)).foldl Draft.edit d := by
  induction body generalizing d n with
  | nil =>
    constructor
    · intro takes
      cases takes
      exact ⟨nofun, rfl⟩
    · rintro ⟨-, rfl⟩
      exact .nil ..
  | cons l body ih =>
    obtain ⟨here, others⟩ := List.forall_mem_cons.mp inside
    let next := (part.lineEdits format l).foldl Draft.edit d
    have sound : next.Sound := h.foldl_edit _
    have same : next.current = part.current := by
      rw [← current]
      simp only [next, Draft.foldl_edit]
    have later := ih (n := n + 1) sound same others
    simp only [next, accepts_foldl_edit] at later
    rw [Draft.takes_cons, List.forall_mem_cons, List.flatMap_cons, List.foldl_append]
    constructor
    · rintro ⟨middle, first, takes⟩
      obtain ⟨accepted, made⟩ := (part.line_edits h current here).mp first
      cases made
      obtain ⟨all, rfl⟩ := later.mp takes
      exact ⟨⟨accepted, all⟩, rfl⟩
    · rintro ⟨⟨accepted, all⟩, rfl⟩
      exact ⟨next, (part.line_edits h current here).mpr ⟨accepted, rfl⟩, later.mpr ⟨all, rfl⟩⟩

/-- A draft after a block. -/
def Draft.after (format : Format) (d : Draft K L) (b : Block) : Draft K L :=
  { (b.edits format).foldl Draft.edit d with current := b.part.current }

omit [OfNumeral K] [OfNumeral L] in
theorem Draft.foldl_edit_current (es : List (Edit K L)) (d : Draft K L) (current : Section) :
    es.foldl Draft.edit { d with current } = { es.foldl Draft.edit d with current } := by
  rw [foldl_edit, foldl_edit]

theorem Block.line_header (b : Block) :
    d.line format n b.header = .ok (some { d with current := b.part.current }) := by
  have star : b.part.word.toList.head? ≠ some '*' := by cases b.part <;> decide
  obtain ⟨line, word⟩ := d.line_of_header format n b.flush b.word star
  rw [String.ofList_toList] at word
  rw [line]
  unfold Draft.header
  cases part : b.part <;> simp only [word, part, Trailing.word, Trailing.current]

theorem Draft.Sound.after (h : d.Sound) (format : Format) (b : Block) : (d.after format b).Sound :=
  have edited := h.foldl_edit (b.edits format)
  edited.of_names rfl rfl rfl rfl rfl edited.entries

theorem Trailing.accepts_after {part : Trailing} {l : List Char} (b : Block) :
    part.Accepts format (d.after format b) l ↔ part.Accepts format d l := by
  rw [← part.accepts_foldl_edit (d := d) (b.edits format)]
  simp only [Accepts]
  rfl

/-- A block is accepted where all its lines are. -/
theorem Block.takes (b : Block) (h : d.Sound) :
    d.Takes format n b.lines d' ↔
      (∀ l ∈ b.body, b.part.Accepts format d l) ∧ d' = d.after format b := by
  let entered : Draft K L := { d with current := b.part.current }
  have sound : entered.Sound := h.of_names rfl rfl rfl rfl rfl h.entries
  have accepts (l : List Char) :
      b.part.Accepts format entered l ↔ b.part.Accepts format d l := .rfl
  have body : entered.Takes format (n + 1) b.body d' ↔ _ := b.part.takes_body sound rfl b.inside
  have after : (b.edits format).foldl Draft.edit entered = d.after format b :=
    Draft.foldl_edit_current _ d _
  rw [lines, Draft.takes_cons, b.line_header]
  constructor
  · rintro ⟨middle, first, takes⟩
    cases first
    obtain ⟨all, made⟩ := body.mp takes
    exact ⟨all, made.trans after⟩
  · rintro ⟨all, rfl⟩
    exact ⟨entered, rfl, body.mpr ⟨all, after.symm⟩⟩

/-- Blocks are accepted where all their lines are. -/
theorem takes_blocks (h : d.Sound) (bs : List Block) :
    d.Takes format n (bs.flatMap Block.lines) d' ↔
      (∀ b ∈ bs, ∀ l ∈ b.body, b.part.Accepts format d l) ∧
        d' = bs.foldl (Draft.after format) d := by
  induction bs generalizing d n with
  | nil =>
    constructor
    · intro takes
      cases takes
      exact ⟨nofun, rfl⟩
    · rintro ⟨-, rfl⟩
      exact .nil ..
  | cons b bs ih =>
    have later := ih (n := n + b.lines.length) (h.after format b)
    simp only [Trailing.accepts_after] at later
    rw [List.flatMap_cons, Draft.takes_append, List.forall_mem_cons]
    constructor
    · rintro ⟨middle, first, others⟩
      obtain ⟨all, rfl⟩ := (b.takes h).mp first
      obtain ⟨rest, made⟩ := later.mp others
      exact ⟨⟨all, rest⟩, made⟩
    · rintro ⟨⟨all, rest⟩, made⟩
      exact ⟨_, (b.takes h).mpr ⟨all, rfl⟩, later.mpr ⟨rest, made⟩⟩

/-- What blocks make of a draft are their edits, up to the section that is read last. -/
theorem foldl_after (format : Format) (bs : List Block) (d : Draft K L) : ∃ current,
    bs.foldl (Draft.after format) d =
      { (bs.flatMap (·.edits format)).foldl Draft.edit d with current } := by
  induction bs generalizing d with
  | nil => exact ⟨d.current, rfl⟩
  | cons b bs ih =>
    obtain ⟨current, made⟩ := ih (d.after format b)
    refine ⟨current, ?_⟩
    rw [List.foldl_cons, made, List.flatMap_cons, List.foldl_append, Draft.after,
      Draft.foldl_edit_current]

/-! ## Rearranged files -/

/-- Lines that are accepted and do not end the file lead to a draft. -/
theorem Draft.takes_of_ok {ls rest : List (List Char)} {f : File K L}
    (goesOn : ∀ l ∈ ls, ∀ (d : Draft K L) n, d.line format n l ≠ .ok none)
    (accepted : readLines format d n (ls ++ rest) = .ok f) : ∃ d', d.Takes format n ls d' := by
  induction ls generalizing d n with
  | nil => exact ⟨d, .nil d n⟩
  | cons l ls ih =>
    rw [List.cons_append, readLines_cons] at accepted
    cases made : d.line format (n + 1) l with
    | error e =>
      rw [made] at accepted
      cases accepted
    | ok ended =>
      rw [made] at accepted
      cases ended with
      | none => exact absurd made (goesOn l (List.mem_cons_self ..) d (n + 1))
      | some next =>
        obtain ⟨d', others⟩ := ih (fun l hl => goesOn l (List.mem_cons_of_mem _ hl)) accepted
        exact ⟨d', .cons made others⟩

/-- Lines lead to a draft, or nothing after them counts. -/
theorem Draft.takes_or_settled (format : Format) (d : Draft K L) (n : Nat) (ls : List (List Char)) :
    (∃ d', d.Takes format n ls d') ∨
      ∀ rest rest', readLines format d n (ls ++ rest) = readLines format d n (ls ++ rest') := by
  induction ls generalizing d n with
  | nil => exact .inl ⟨d, .nil d n⟩
  | cons l ls ih =>
    cases made : d.line format (n + 1) l with
    | error e =>
      refine .inr fun rest rest' => ?_
      rw [List.cons_append, List.cons_append, readLines_cons, readLines_cons, made]
    | ok ended =>
      cases ended with
      | none =>
        refine .inr fun rest rest' => ?_
        rw [List.cons_append, List.cons_append, readLines_cons, readLines_cons, made]
      | some next =>
        rcases ih next (n + 1) with ⟨d', others⟩ | settled
        · exact .inl ⟨d', .cons made others⟩
        · refine .inr fun rest rest' => ?_
          rw [List.cons_append, List.cons_append, readLines_cons, readLines_cons, made]
          exact settled rest rest'

theorem Inside.line_ne_end {l : List Char} (inside : Inside l) (d : Draft K L) (n : Nat) :
    d.line format n l ≠ .ok none := by
  unfold Draft.line
  dsimp only
  rcases inside.counts with skipped | flush
  · simp [skipped]
  · rw [flush]
    split
    · simp
    · cases d.dataLine n (format.fields (Text.trimEnd l)) <;> simp [Except.map]

theorem Block.line_ne_end (b : Block) {l : List Char} (hl : l ∈ b.lines) (d : Draft K L) (n : Nat) :
    d.line format n l ≠ .ok none := by
  rcases List.mem_cons.mp hl with rfl | hl
  · rw [b.line_header]
    simp
  · exact (b.inside l hl).line_ne_end d n

/-- A file that is accepted says the same with the blocks after its columns rearranged. -/
theorem read_rearranged {text text' : String} {front rest : List (List Char)} {bs bs' : List Block}
    {fin : List Char} {f : File K L}
    (written : Text.lines text.toList = front ++ (bs.flatMap Block.lines ++ fin :: rest))
    (written' : Text.lines text'.toList = front ++ (bs'.flatMap Block.lines ++ fin :: rest))
    (ends : Ends fin) (rearranged : Rearranged format bs bs') (accepted : read format text = .ok f) :
    read format text' = .ok f := by
  unfold read at accepted ⊢
  rw [written] at accepted
  rw [written']
  rcases Draft.takes_or_settled format (.empty : Draft K L) 0 front with ⟨d, takes⟩ | settled
  · have sound : d.Sound := takes.sound .empty
    rw [takes.readLines_append] at accepted ⊢
    obtain ⟨e, blocks⟩ := Draft.takes_of_ok (fun l hl => by
      obtain ⟨b, -, hl⟩ := List.mem_flatMap.mp hl
      exact b.line_ne_end hl) accepted
    rw [blocks.readLines_append, readLines_cons, e.line_ends _ _ ends] at accepted
    obtain ⟨all, rfl⟩ := (takes_blocks sound bs).mp blocks
    have blocks' : d.Takes format (0 + front.length) (bs'.flatMap Block.lines)
        (bs'.foldl (Draft.after format) d) := by
      refine (takes_blocks sound bs').mpr ⟨fun b' hb' l hl => ?_, rfl⟩
      obtain ⟨b, hb, part, hl⟩ := rearranged.exists_block hb' hl
      rw [← part]
      exact all b hb l hl
    rw [blocks'.readLines_append, readLines_cons, Draft.line_ends _ _ _ ends]
    obtain ⟨current, made⟩ := foldl_after format bs d
    obtain ⟨current', made'⟩ := foldl_after format bs' d
    -- the section that is read last is no part of what a file says
    rw [made] at accepted
    rw [made', ← Draft.foldl_edit_congr rearranged.filter_edits]
    exact accepted
  · exact (settled _ _).trans accepted

/-! ## A file and its rearrangements -/

/-- The lines of a file up to its columns. -/
def plot : List (List Char) :=
  ["ROWS", " N cost", " L land", " G barns", "COLUMNS", " wheat cost 1 land 1",
    " wheat barns 1"].map String.toList

def plotText (bs : List Block) : String :=
  .ofList (Text.joined (plot ++ (bs.flatMap Block.lines ++ ["ENDATA".toList])))

def landLine : List Char := " land 4".toList

def barnsLine : List Char := " barns 1".toList

def landFirst : Block :=
  ⟨.rightHandSides, "RHS".toList, by decide, by decide +kernel, [landLine, barnsLine], by decide⟩

def barnsFirst : Block :=
  ⟨.rightHandSides, "RHS".toList, by decide, by decide +kernel, [barnsLine, landLine], by decide⟩

def landRange : Block :=
  ⟨.ranges, "RANGES".toList, by decide, by decide +kernel,
    [" land 2", "* no more"].map String.toList,
    by decide⟩

def wheatBounds : Block :=
  ⟨.bounds, "BOUNDS".toList, by decide, by decide +kernel,
    [" FR b wheat", " UP b wheat 3"].map String.toList,
    by decide⟩

theorem rearranged_plot :
    Rearranged .free [landFirst, landRange, wheatBounds] [wheatBounds, barnsFirst, landRange] where
  moved := by
    refine ⟨[wheatBounds, landFirst, landRange],
      (List.perm_append_comm : ([landFirst, landRange] ++ [wheatBounds]).Perm _), ?_⟩
    exact .cons ⟨rfl, rfl, .refl _⟩ (.cons ⟨rfl, rfl, .swap ..⟩ (.cons ⟨rfl, rfl, .refl _⟩ .nil))
  order part name := by
    have land : Trailing.rightHandSides.lineNames .free landLine = ["land"] := by decide +kernel
    have barns : Trailing.rightHandSides.lineNames .free barnsLine = ["barns"] := by decide +kernel
    cases part with
    | rightHandSides =>
      -- no name is on both lines
      by_cases first : name = "land"
      · simp [Block.naming, landFirst, barnsFirst, landRange, wheatBounds, land, barns, first]
      · simp [Block.naming, landFirst, barnsFirst, landRange, wheatBounds, land, first,
          List.filter_cons]
    | ranges => simp [Block.naming, landFirst, barnsFirst, landRange, wheatBounds]
    | bounds => simp [Block.naming, landFirst, barnsFirst, landRange, wheatBounds]

theorem lines_plotText {bs : List Block} (whole : ∀ l ∈ bs.flatMap Block.lines, '\n' ∉ l) :
    Text.lines (plotText bs).toList = plot ++ (bs.flatMap Block.lines ++ ["ENDATA".toList]) := by
  rw [plotText, String.toList_ofList, Text.lines_joined fun l hl => ?_]
  have front : ∀ l ∈ plot, '\n' ∉ l := by decide
  rcases List.mem_append.mp hl with hl | hl
  · exact front l hl
  · rcases List.mem_append.mp hl with hl | hl
    · exact whole l hl
    · rw [List.mem_singleton.mp hl]
      decide

theorem read_rearranged_plot : ∃ f : File Unrounded Unrounded,
    read .free (plotText [landFirst, landRange, wheatBounds]) = .ok f ∧
      read .free (plotText [wheatBounds, barnsFirst, landRange]) = .ok f := by
  obtain ⟨f, made⟩ : ∃ f : File Unrounded Unrounded,
      read .free (plotText [landFirst, landRange, wheatBounds]) = .ok f :=
    exists_of_isOk (by decide +kernel)
  exact ⟨f, made, read_rearranged (lines_plotText (by decide)) (lines_plotText (by decide))
    (by decide +kernel) rearranged_plot made⟩

/-! ## Two blocks of one section -/

def landOnce : Block :=
  ⟨.rightHandSides, "RHS".toList, by decide, by decide +kernel, [landLine], by decide⟩

def landTwice : Block :=
  ⟨.rightHandSides, "RHS".toList, by decide, by decide +kernel, [" land 5".toList], by decide⟩

/-- Two blocks of one section that name a row may not trade places, even if each keeps its lines in
order: the last right-hand side counts. -/
theorem read_swapped_ne :
    [landOnce, landTwice].Perm [landTwice, landOnce] ∧
      Text.lines (plotText [landOnce, landTwice]).toList =
        plot ++ ([landOnce, landTwice].flatMap Block.lines ++ ["ENDATA".toList]) ∧
      Text.lines (plotText [landTwice, landOnce]).toList =
        plot ++ ([landTwice, landOnce].flatMap Block.lines ++ ["ENDATA".toList]) ∧
      (read .free (plotText [landOnce, landTwice]) :
        Except (Error Unrounded) (File Unrounded Unrounded)).isOk = true ∧
      (read .free (plotText [landTwice, landOnce]) :
        Except (Error Unrounded) (File Unrounded Unrounded)) ≠
          read .free (plotText [landOnce, landTwice]) := by
  refine ⟨.swap .., lines_plotText (by decide), lines_plotText (by decide), by decide +kernel, ?_⟩
  intro same
  have limits := congrArg (fun r : Except (Error Unrounded) (File Unrounded Unrounded) =>
    r.toOption.map fun f => f.model.constraints.toList.map (·.upper)) same
  revert limits
  decide +kernel

end Milp.Mps
