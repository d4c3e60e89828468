import Milp.Mps.Read
import Milp.Proofs.Model
import Milp.Proofs.Terms
import Milp.Proofs.Text

/-!
# What files state, and what it means

A file states the rows of a problem, then statement by statement their coefficients, right-hand sides
and ranges, and the bounds of columns. `Content.meaning` says what problem that is, without regard to
the order in which a reader gets to know it: coefficients add up, the last of several right-hand sides
or ranges holds, and bounds change one after the other. `Renders` says how the statements are written
in the free format.
-/

namespace Milp.Mps

open Expression (total?)

/-! ## Statements -/

/-- Something without blanks, such as a name. -/
structure Word where
  chars : List Char
  dense : Text.Dense chars
  ne_nil : chars ≠ []

/-- A word as a string. -/
def Word.text (w : Word) : String := .ofList w.chars

/-- A number and the word it is written as. -/
structure Figure (α : Type) [OfNumeral α] where
  word : Word
  value : α
  reads : readNumber? word.text = some value

/-- A number for a row. -/
structure Pair (K : Type) [OfNumeral K] where
  row : Word
  figure : Figure K

/-- The direction of the objective, and whether it stands in the header of its section. -/
structure SenseStatement where
  word : Word
  direction : Direction
  spells : Text.capitals word.text ∈
    match direction with
    | .maximise => ["MAX", "MAXIMIZE", "MAXIMISE"]
    | .minimise => ["MIN", "MINIMIZE", "MINIMISE"]
  inHeader : Bool

/-- A row and how it limits its body; a free row does not. -/
structure RowStatement where
  kind : Option RowKind
  name : Word

/-- The beginning or the end of a block of integers, or coefficients of a column. -/
inductive ColumnStatement (K : Type) [OfNumeral K]
  | marker (label : Word) (begins : Bool)
  | entries (column : Word) (first : Pair K) (second : Option (Pair K))

/-- Right-hand sides or ranges of rows. -/
structure PairStatement (K : Type) [OfNumeral K] where
  set : Option Word
  first : Pair K
  second : Option (Pair K)

/-- What a statement about bounds changes. -/
inductive BoundChange (L : Type) [OfNumeral L]
  | upper (x : Figure L)
  | lower (x : Figure L)
  | both (x : Figure L)
  | integerLower (x : Figure L)
  | integerUpper (x : Figure L)
  | neither
  | noLower
  | noUpper
  | binary

/-- A change of the bounds of a column. -/
structure BoundStatement (L : Type) [OfNumeral L] where
  change : BoundChange L
  set : Option Word
  column : Word

/-! ## Fields -/

section Fields

variable {K L : Type} [OfNumeral K] [OfNumeral L]

/-- The word for a kind of row. -/
def RowStatement.kindWord (s : RowStatement) : Word :=
  match s.kind with
  | none => ⟨['N'], by decide, by decide⟩
  | some .less => ⟨['L'], by decide, by decide⟩
  | some .greater => ⟨['G'], by decide, by decide⟩
  | some .equal => ⟨['E'], by decide, by decide⟩

/-- The words for a change of bounds: its kind, and its number if it has one. -/
def BoundChange.words : BoundChange L → Word × Option (Figure L)
  | upper x => (⟨['U', 'P'], by decide, by decide⟩, some x)
  | lower x => (⟨['L', 'O'], by decide, by decide⟩, some x)
  | both x => (⟨['F', 'X'], by decide, by decide⟩, some x)
  | integerLower x => (⟨['L', 'I'], by decide, by decide⟩, some x)
  | integerUpper x => (⟨['U', 'I'], by decide, by decide⟩, some x)
  | neither => (⟨['F', 'R'], by decide, by decide⟩, none)
  | noLower => (⟨['M', 'I'], by decide, by decide⟩, none)
  | noUpper => (⟨['P', 'L'], by decide, by decide⟩, none)
  | binary => (⟨['B', 'V'], by decide, by decide⟩, none)

/-- The word that makes a line of the section of columns a marker. -/
def markerWord : Word := ⟨"'MARKER'".toList, by decide, by decide⟩

/-- The word for what a marker does. -/
def blockWord (begins : Bool) : Word :=
  if begins then ⟨"'INTORG'".toList, by decide, by decide⟩
  else ⟨"'INTEND'".toList, by decide, by decide⟩

/-- The fields of pairs. -/
def pairFields (ps : List (Pair K)) : List Word :=
  ps.flatMap fun p => [p.row, p.figure.word]

def RowStatement.fields (s : RowStatement) : List Word := [s.kindWord, s.name]

/-- The pairs of a statement about columns; a marker has none. -/
def ColumnStatement.pairs : ColumnStatement K → List (Pair K)
  | marker _ _ => []
  | entries _ first second => first :: second.toList

def ColumnStatement.fields : ColumnStatement K → List Word
  | marker label begins => [label, markerWord, blockWord begins]
  | entries column first second => column :: pairFields (first :: second.toList)

/-- The pairs of a statement. -/
def PairStatement.pairs (s : PairStatement K) : List (Pair K) := s.first :: s.second.toList

def PairStatement.fields (s : PairStatement K) : List Word := s.set.toList ++ pairFields s.pairs

def BoundStatement.fields (s : BoundStatement L) : List Word :=
  s.change.words.1 :: (s.set.toList ++ s.column :: (s.change.words.2.map (·.word)).toList)

end Fields

/-! ## Contents -/

/-- What a file states. -/
structure Content (K L : Type) [OfNumeral K] [OfNumeral L] where
  name : List Char
  sense : Option SenseStatement
  rows : List RowStatement
  columns : List (ColumnStatement K)
  rightHandSides : List (PairStatement K)
  ranges : List (PairStatement K)
  bounds : List (BoundStatement L)

/-- The column that a statement is about; none for a marker. -/
def ColumnStatement.column? {K : Type} [OfNumeral K] : ColumnStatement K → Option String
  | marker _ _ => none
  | entries column _ _ => some column.text

/-- The numbers that pairs give to a row, in order. -/
def numbersOf {K : Type} [OfNumeral K] (ps : List (Pair K)) (row : String) : List K :=
  (ps.filter fun p => p.row.text = row).map (·.figure.value)

/-- Whether a column is in a block of integers where it first appears. -/
def startsInBlock {K : Type} [OfNumeral K] (column : String) : Bool → List (ColumnStatement K) → Bool
  | inside, [] => inside
  | _, .marker _ begins :: r => startsInBlock column begins r
  | inside, .entries c _ _ :: r => if c.text = column then inside else startsInBlock column inside r

/-- The limits of a row with a right-hand side and a range. A range reaches down from the right-hand
side of a row that limits from above, up from that of one that limits from below, and to the side of
its sign for an equation. -/
def limitsOf {K L : Type} [Scalar K] [Limits L K] (kind : RowKind) (rhs : K) (range : Option K) :
    L × L :=
  match kind, range with
  | .less, none => (Limits.below, Limits.ofScalar rhs)
  | .less, some r => (Limits.ofScalar (rhs - Scalar.abs r), Limits.ofScalar rhs)
  | .greater, none => (Limits.ofScalar rhs, Limits.above)
  | .greater, some r => (Limits.ofScalar rhs, Limits.ofScalar (rhs + Scalar.abs r))
  | .equal, none => (Limits.ofScalar rhs, Limits.ofScalar rhs)
  | .equal, some r =>
    if 0 ≤ r then (Limits.ofScalar rhs, Limits.ofScalar (rhs + r))
    else (Limits.ofScalar (rhs + r), Limits.ofScalar rhs)

namespace BoundChange

variable {K L : Type} [Scalar K] [Limits L K] [OfNumeral L]

/-- The bounds after a change. A negative upper bound takes away a lower bound of zero. -/
def bounds : BoundChange L → L × L → L × L
  | upper x, (l, _) =>
    (if x.value < Limits.ofScalar (0 : K) && l == Limits.ofScalar (0 : K) then Limits.below else l, x.value)
  | lower x, (_, u) => (x.value, u)
  | both x, _ => (x.value, x.value)
  | integerLower x, (_, u) => (x.value, u)
  | integerUpper x, (l, _) => (l, x.value)
  | neither, _ => (Limits.below, Limits.above)
  | noLower, (_, u) => (Limits.below, u)
  | noUpper, (l, _) => (l, Limits.above)
  | binary, _ => (Limits.ofScalar (0 : K), Limits.ofScalar (1 : K))

omit [Scalar K] [Limits L K] in
/-- Whether a change makes a column binary. -/
def isBinary : BoundChange L → Bool
  | binary => true
  | _ => false

omit [Scalar K] [Limits L K] in
/-- Whether a change makes a column an integer. -/
def isInteger : BoundChange L → Bool
  | integerLower _ => true
  | integerUpper _ => true
  | binary => true
  | _ => false

end BoundChange

namespace Content

variable {K L : Type} [OfNumeral K] [OfNumeral L]

/-- The columns in the order in which they first appear. -/
def columnNames (q : Content K L) : List String := (q.columns.filterMap (·.column?)).eraseDups

/-- The pairs for a column, in the order of the file. -/
def pairsOf (q : Content K L) (column : String) : List (Pair K) :=
  (q.columns.filter fun s => s.column? = some column).flatMap (·.pairs)

/-- The coefficients given to a column in a row, in the order of the file. -/
def coefficients (q : Content K L) (column row : String) : List K :=
  numbersOf (q.pairsOf column) row

/-- The rows that limit their bodies. -/
def constraintRows (q : Content K L) : List (String × RowKind) :=
  q.rows.filterMap fun r => r.kind.map (Prod.mk r.name.text)

/-- The first free row. -/
def objectiveName? (q : Content K L) : Option String :=
  (q.rows.find? (·.kind.isNone)).map (·.name.text)

/-- The last right-hand side of a row. -/
def rightHandSide? (q : Content K L) (row : String) : Option K :=
  (numbersOf (q.rightHandSides.flatMap (·.pairs)) row).getLast?

/-- The last range of a row. -/
def range? (q : Content K L) (row : String) : Option K :=
  (numbersOf (q.ranges.flatMap (·.pairs)) row).getLast?

/-- The changes of the bounds of a column, in the order of the file. -/
def changes (q : Content K L) (column : String) : List (BoundChange L) :=
  (q.bounds.filter fun s => s.column.text = column).map (·.change)

/-- The set a column ranges over. -/
def domain (q : Content K L) (column : String) : Domain :=
  if (q.changes column).any (·.isBinary) then .binary
  else if startsInBlock column false q.columns || (q.changes column).any (·.isInteger) then .integer
  else .continuous

variable [Scalar K] [Limits L K]

/-- The bounds of a column: what the changes make of zero and no upper bound. -/
def boundsOf (q : Content K L) (column : String) : L × L :=
  (q.changes column).foldl (fun b change => change.bounds b) (Limits.ofScalar (0 : K), Limits.above)

/-- The variable of a column. -/
def variableOf (q : Content K L) (column : String) : Entry K L where
  name := column
  definition :=
    { name := some column
      domain := q.domain column
      lower := (q.boundsOf column).1
      upper := (q.boundsOf column).2 }
  value := none

/-- The constraint of a row: a term for each column that occurs in it, with the sum of its
coefficients. -/
def constraintOf (q : Content K L) (row : String × RowKind) : Constraint K L :=
  let limits : L × L := limitsOf row.2 ((q.rightHandSide? row.1).getD 0) (q.range? row.1)
  -- the constant of a body, which is zero, is taken from the limits
  { body :=
      { terms := q.columnNames.zipIdx.filterMap fun c =>
          (total? (q.coefficients c.1 row.1)).map (Prod.mk ⟨c.2⟩)
        constant := 0 }
    lower := Limits.sub limits.1 (0 : K)
    upper := Limits.sub limits.2 (0 : K)
    name := some row.1 }

/-- The objective of a row: a term for each column, with the sum of its coefficients, and the
right-hand side with its sign changed. -/
def objectiveOf (q : Content K L) (row : String) : Expression K where
  -- zero is added where the terms are made and where they are copied; it only makes a negative zero
  -- a positive one
  terms := q.columnNames.zipIdx.map fun c =>
    (⟨c.2⟩, 0 + (0 + (q.coefficients c.1 row).foldl (· + ·) 0))
  constant := 0 + (0 + ((q.rightHandSide? row).map (- ·)).getD 0)

/-- The problem that is stated. It is refused for the first column whose bounds are out of order, or
else for the first row whose limits are. -/
def meaning (q : Content K L) (objectiveName : String) : Except (Error L) (File K L) :=
  let entries := q.columnNames.map q.variableOf
  let constraints := q.constraintRows.map q.constraintOf
  match entries.find? fun e => !Limits.isOrdered e.definition.lower e.definition.upper with
  | some e =>
    .error (.model (.invalidVariableBounds e.name e.definition.lower e.definition.upper))
  | none =>
    match constraints.find? fun k => !Limits.isOrdered k.lower k.upper with
    | some k => .error (.model (.invalidConstraintLimits k.lower k.upper))
    | none => .ok
      { model := .ofParts entries.toArray constraints.toArray (q.objectiveOf objectiveName)
        name := .ofList (Text.trim q.name)
        objectiveName
        direction := (q.sense.map (·.direction)).getD .minimise }

end Content

/-- A problem that is stated properly: rows have distinct names, none of which is that of markers, one
of them is the objective, and statements are about rows and columns of the problem. -/
structure Problem (K L : Type) [OfNumeral K] [OfNumeral L] extends Content K L where
  objective : String
  distinct : (rows.map (·.name.text)).Nodup
  unmarked : ∀ r ∈ rows, r.name.text ≠ markerWord.text
  free : toContent.objectiveName? = some objective
  columnRows : ∀ s ∈ columns, ∀ p ∈ s.pairs, p.row.text ∈ rows.map (·.name.text)
  rightHandSideRows : ∀ s ∈ rightHandSides, ∀ p ∈ s.pairs, p.row.text ∈ rows.map (·.name.text)
  rangeRows : ∀ s ∈ ranges, ∀ p ∈ s.pairs, p.row.text ∈ rows.map (·.name.text)
  boundColumns : ∀ s ∈ bounds, s.column.text ∈ toContent.columnNames

/-! ## Lines -/

/-- A line of words, each after some blanks, with or without blanks at its end. -/
inductive Written : List Word → List Char → Prop
  | nil {last : List Char} (blank : Text.Blank last) : Written [] last
  | cons {gap rest : List Char} {w : Word} {ws : List Word} (blank : Text.Blank gap)
    (some : gap ≠ []) (others : Written ws rest) : Written (w :: ws) (gap ++ (w.chars ++ rest))

/-- The lines of a section: its header and a line for each statement. A section without statements
may be left out. -/
inductive WrittenSection (header : Word) : List (List Word) → List (List Char) → Prop
  | omitted : WrittenSection header [] []
  | lines {statements : List (List Word)} {ls : List (List Char)}
    (written : List.Forall₂ Written statements ls) :
    WrittenSection header statements (header.chars :: ls)

/-- The headers of sections. -/
def senseHeader : Word := ⟨"OBJSENSE".toList, by decide, by decide⟩
def rowsHeader : Word := ⟨"ROWS".toList, by decide, by decide⟩
def columnsHeader : Word := ⟨"COLUMNS".toList, by decide, by decide⟩
def rightHandSidesHeader : Word := ⟨"RHS".toList, by decide, by decide⟩
def rangesHeader : Word := ⟨"RANGES".toList, by decide, by decide⟩
def boundsHeader : Word := ⟨"BOUNDS".toList, by decide, by decide⟩

/-- The header that ends a file. -/
def endHeader : Word := ⟨"ENDATA".toList, by decide, by decide⟩

/-- The lines for the direction of the objective. -/
inductive WrittenSense : Option SenseStatement → List (List Char) → Prop
  | omitted : WrittenSense none []
  | inHeader {s : SenseStatement} (inHeader : s.inHeader = true) {l : List Char}
    (written : Written [s.word] l) : WrittenSense (some s) [senseHeader.chars ++ l]
  | below {s : SenseStatement} (below : s.inHeader = false) {l : List Char}
    (written : Written [s.word] l) : WrittenSense (some s) [senseHeader.chars, l]

/-- The lines of a file in the free format. -/
inductive Content.Renders {K L : Type} [OfNumeral K] [OfNumeral L] (q : Content K L) :
    List (List Char) → Prop
  | lines {s r c h g b : List (List Char)}
    (sense : WrittenSense q.sense s)
    (rows : WrittenSection rowsHeader (q.rows.map (·.fields)) r)
    (columns : WrittenSection columnsHeader (q.columns.map (·.fields)) c)
    (rightHandSides : WrittenSection rightHandSidesHeader (q.rightHandSides.map (·.fields)) h)
    (ranges : WrittenSection rangesHeader (q.ranges.map (·.fields)) g)
    (bounds : WrittenSection boundsHeader (q.bounds.map (·.fields)) b) :
    Renders q
      (("NAME ".toList ++ q.name) :: (s ++ (r ++ (c ++ (h ++ (g ++ (b ++ [endHeader.chars])))))))

/-! ## Plain lines -/

/-- Words with a space before each. -/
def spaced (ws : List Word) : List Char := ws.flatMap fun w => ' ' :: w.chars

theorem written_spaced (ws : List Word) : Written ws (spaced ws) := by
  induction ws with
  | nil => exact .nil (fun c hc => by cases hc)
  | cons w ws ih => exact .cons (Text.blank_replicate 1) (by decide) ih

/-- A section in plain lines. -/
def sectionLines (header : Word) (statements : List (List Word)) : List (List Char) :=
  header.chars :: statements.map spaced

theorem writtenSection_lines (header : Word) (statements : List (List Word)) :
    WrittenSection header statements (sectionLines header statements) := by
  refine .lines ?_
  induction statements with
  | nil => exact .nil
  | cons ws statements ih => exact .cons (written_spaced ws) ih

/-- The direction of the objective in plain lines. -/
def senseLines : Option SenseStatement → List (List Char)
  | none => []
  | some s =>
    if s.inHeader then [senseHeader.chars ++ spaced [s.word]] else [senseHeader.chars, spaced [s.word]]

theorem writtenSense_lines (s : Option SenseStatement) : WrittenSense s (senseLines s) := by
  cases s with
  | none => exact .omitted
  | some s =>
    by_cases inHeader : s.inHeader = true
    · simpa [senseLines, inHeader] using WrittenSense.inHeader inHeader (written_spaced [s.word])
    · simpa [senseLines, inHeader] using
        WrittenSense.below (by simpa using inHeader) (written_spaced [s.word])

/-- What a file states in plain lines. -/
def Content.lines {K L : Type} [OfNumeral K] [OfNumeral L] (q : Content K L) : List (List Char) :=
  ("NAME ".toList ++ q.name) :: (senseLines q.sense ++
    (sectionLines rowsHeader (q.rows.map (·.fields)) ++
    (sectionLines columnsHeader (q.columns.map (·.fields)) ++
    (sectionLines rightHandSidesHeader (q.rightHandSides.map (·.fields)) ++
    (sectionLines rangesHeader (q.ranges.map (·.fields)) ++
    (sectionLines boundsHeader (q.bounds.map (·.fields)) ++ [endHeader.chars]))))))

/-- Every content has lines in the free format. -/
theorem Content.renders_lines {K L : Type} [OfNumeral K] [OfNumeral L] (q : Content K L) :
    q.Renders q.lines :=
  .lines (writtenSense_lines q.sense) (writtenSection_lines rowsHeader _)
    (writtenSection_lines columnsHeader _) (writtenSection_lines rightHandSidesHeader _)
    (writtenSection_lines rangesHeader _) (writtenSection_lines boundsHeader _)

end Milp.Mps
