import Milp.Mps.Error
import Milp.Mps.Field
import Milp.Number.Numeral
import Milp.Relaxation

/-!
# Drafts

A draft is what the lines read so far say: the rows and columns that are declared, with their
numbers. Each line changes the draft or is refused. Rows and columns are found by name, in lists that
are kept beside them; a row stands for a constraint, for the objective, or for nothing where it is a
free row after the first.
-/

namespace Milp.Mps

/-- A section of a file, begun by a header line. -/
inductive Section
  | start
  | name
  | sense
  | rows
  | columns
  | rightHandSides
  | ranges
  | bounds
deriving DecidableEq, Repr

/-- How a row limits its body. -/
inductive RowKind
  | less
  | greater
  | equal
deriving DecidableEq, Repr

/-- What a declared row stands for. -/
inductive RowSlot
  | objective
  | ignored
  /-- The constraint at a place. -/
  | constraint (index : Nat)
deriving DecidableEq, Repr

/-- A row that becomes a constraint. -/
structure Row (K : Type) where
  name : String
  kind : RowKind
  rightHandSide : K
  range : Option K

/-- A column that becomes a variable. -/
structure Column (K L : Type) where
  name : String
  integer : Bool
  binary : Bool
  objective : K
  /-- Coefficients in constraints, in the order of the file. -/
  entries : List (Nat × K)
  lower : L
  upper : L

/-- What the lines read so far say. -/
structure Draft (K L : Type) where
  current : Section
  name : String
  direction : Direction
  objectiveName : Option String
  objectiveConstant : K
  rows : Array (Row K)
  /-- Every declared row with what it stands for. -/
  slots : List (String × RowSlot)
  columns : Array (Column K L)
  /-- The name of every column with its place. -/
  places : List (String × Nat)
  /-- Whether columns that appear now are integers. -/
  inIntegers : Bool

/-- The limits of a row. A range reaches away from the right-hand side, and for an equation to the
side of its sign. -/
def Row.limits {K L : Type} [Scalar K] [Limits L K] (r : Row K) : L × L :=
  let limit : K → L := Limits.ofScalar
  let rhs := r.rightHandSide
  match r.kind, r.range with
  | .less, none => (Limits.below, limit rhs)
  | .greater, none => (limit rhs, Limits.above)
  | .equal, none => (limit rhs, limit rhs)
  | .less, some x => (limit (rhs - Scalar.abs x), limit rhs)
  | .greater, some x => (limit rhs, limit (rhs + Scalar.abs x))
  | .equal, some x => if 0 ≤ x then (limit rhs, limit (rhs + x)) else (limit (rhs + x), limit rhs)

/-- A column with a bound of a kind; none for an unknown kind. A negative upper bound takes away a
lower bound of zero. -/
def Column.withBound? {K L : Type} [Limits L K] [Scalar K] (c : Column K L) (kind : String)
    (value : Option L) : Option (Column K L) :=
  match kind, value with
  | "UP", some v =>
    let zero : L := Limits.ofScalar 0
    some { c with lower := if v < zero && c.lower == zero then Limits.below else c.lower, upper := v }
  | "LO", some v => some { c with lower := v }
  | "FX", some v => some { c with lower := v, upper := v }
  | "FR", _ => some { c with lower := Limits.below, upper := Limits.above }
  | "MI", _ => some { c with lower := Limits.below }
  | "PL", _ => some { c with upper := Limits.above }
  | "BV", _ =>
    some { c with
      integer := true
      binary := true
      lower := Limits.ofScalar 0
      upper := Limits.ofScalar 1 }
  | "LI", some v => some { c with integer := true, lower := v }
  | "UI", some v => some { c with integer := true, upper := v }
  | _, _ => none

/-- The draft before the first line. -/
def Draft.empty {K L : Type} [Scalar K] : Draft K L where
  current := .start
  name := ""
  direction := .minimise
  objectiveName := none
  objectiveConstant := 0
  rows := #[]
  slots := []
  columns := #[]
  places := []
  inIntegers := false

/-! ## Parts of a line -/

/-- The number that a field spells. -/
def number {α L : Type} [OfNumeral α] (line : Nat) (field : String) : Except (Error L) α :=
  match readNumber? field with
  | some x => .ok x
  | none => .error (.format line (.invalidNumber field))

/-- The direction that a word asks for. -/
def sense {L : Type} (line : Nat) (word : String) : Except (Error L) Direction :=
  let capitals := Text.capitals word
  if ["MAX", "MAXIMIZE", "MAXIMISE"].contains capitals then .ok .maximise
  else if ["MIN", "MINIMIZE", "MINIMISE"].contains capitals then .ok .minimise
  else .error (.format line (.invalidSense word))

/-- Neighbouring fields as pairs. -/
def pairs : List String → List (String × String)
  | a :: b :: r => (a, b) :: pairs r
  | _ => []

/-- The fields of a line without the name of a set, which is there where their number is odd. -/
def withoutSetName (fields : List String) : List String :=
  if fields.length % 2 = 1 then fields.drop 1 else fields

namespace Draft

variable {K L : Type} [Scalar K] [Limits L K] [OfNumeral K] [OfNumeral L]

/-! ## Lines -/

/-- What a row of a name stands for. -/
def slot (d : Draft K L) (line : Nat) (name : String) : Except (Error L) RowSlot :=
  match d.slots.lookup name with
  | some slot => .ok slot
  | none => .error (.unknownRow line name)

/-- The draft after a header line, or none at the end of the file. -/
def header (d : Draft K L) (line : Nat) (text : List Char) :
    Except (Error L) (Option (Draft K L)) :=
  let words := (Text.words text).map String.ofList
  let enter (s : Section) : Except (Error L) (Option (Draft K L)) := .ok (some { d with current := s })
  match words.headD "" with
  | "NAME" => .ok (some { d with current := .name, name := .ofList (Text.trim (text.drop 4)) })
  | "OBJSENSE" =>
    match words[1]? with
    | none => enter .sense
    | some word => do
      let direction ← sense line word
      return some { d with current := .sense, direction }
  | "ROWS" => enter .rows
  | "COLUMNS" => enter .columns
  | "RHS" => enter .rightHandSides
  | "RANGES" => enter .ranges
  | "BOUNDS" => enter .bounds
  | "ENDATA" => .ok none
  | word => .error (.format line (.unknownSection word))

/-- The kind of row that a word asks for; none for a free row. -/
def rowKind (line : Nat) (word : String) : Except (Error L) (Option RowKind) :=
  match Text.capitals word with
  | "N" => .ok none
  | "L" => .ok (some .less)
  | "G" => .ok (some .greater)
  | "E" => .ok (some .equal)
  | other => .error (.format line (.invalidRowType other))

/-- The draft with one more row. -/
def declareRow (d : Draft K L) (kind : Option RowKind) (name : String) : Draft K L :=
  let declare (d : Draft K L) (slot : RowSlot) := { d with slots := d.slots ++ [(name, slot)] }
  match kind with
  | some kind =>
    declare { d with rows := d.rows.push ⟨name, kind, 0, none⟩ } (.constraint d.rows.size)
  | none =>
    if d.objectiveName.isNone then declare { d with objectiveName := some name } .objective
    else declare d .ignored

/-- The draft after a line of the section of rows. -/
def rowLine (d : Draft K L) (line : Nat) (fields : List String) : Except (Error L) (Draft K L) :=
  match fields with
  | [word, name] => do
    let kind ← rowKind line word
    if (d.slots.lookup name).isSome then throw (.model (.duplicateName name))
    return d.declareRow kind name
  | _ => .error (.format line .rowFields)

/-- The draft with a column of a name, and its place. A new column is an integer inside a block of
integers, and is not negative. -/
def column (d : Draft K L) (name : String) : Draft K L × Nat :=
  match d.places.lookup name with
  | some i => (d, i)
  | none =>
    let column : Column K L :=
      { name
        integer := d.inIntegers
        binary := false
        objective := 0
        entries := []
        lower := Limits.ofScalar 0
        upper := Limits.above }
    let places := d.places ++ [(name, d.columns.size)]
    ({ d with columns := d.columns.push column, places }, d.columns.size)

/-- The draft with a coefficient added to a column. -/
def addCoefficient (d : Draft K L) (i : Nat) (slot : RowSlot) (value : K) : Draft K L :=
  match slot with
  | .objective =>
    { d with columns := d.columns.modify i fun c => { c with objective := c.objective + value } }
  | .ignored => d
  | .constraint row =>
    { d with columns := d.columns.modify i fun c => { c with entries := c.entries ++ [(row, value)] } }

/-- A draft changed for every pair of a row's name and a number, in order. -/
def forPairs (d : Draft K L) (line : Nat) (fields : List String)
    (change : Draft K L → RowSlot → K → Draft K L) : Except (Error L) (Draft K L) :=
  (pairs fields).foldlM
    (fun d p => do
      let value ← number line p.2
      let slot ← d.slot line p.1
      return change d slot value) d

/-- The draft after a line of the section of columns. -/
def columnLine (d : Draft K L) (line : Nat) (fields : List String) :
    Except (Error L) (Draft K L) :=
  match fields with
  | [_, "'MARKER'", word] =>
    match word with
    | "'INTORG'" => .ok { d with inIntegers := true }
    | "'INTEND'" => .ok { d with inIntegers := false }
    | _ => .error (.format line (.invalidMarker word))
  | name :: rest =>
    if rest.length = 2 ∨ rest.length = 4 then
      let (d, i) := d.column name
      d.forPairs line rest fun d slot value => d.addCoefficient i slot value
    else .error (.format line .columnFields)
  | [] => .error (.format line .columnFields)

/-- The draft with the right-hand side of a row set. That of the objective is its constant with the
sign changed. -/
def setRightHandSide (d : Draft K L) (slot : RowSlot) (value : K) : Draft K L :=
  match slot with
  | .objective => { d with objectiveConstant := -value }
  | .ignored => d
  | .constraint row =>
    { d with rows := d.rows.modify row fun r => { r with rightHandSide := value } }

/-- The draft with the range of a row set. -/
def setRange (d : Draft K L) (slot : RowSlot) (value : K) : Draft K L :=
  match slot with
  | .constraint row => { d with rows := d.rows.modify row fun r => { r with range := some value } }
  | _ => d

/-- The draft after a line of pairs, with the name of a set or without. -/
def pairLine (d : Draft K L) (line : Nat) (fields : List String)
    (change : Draft K L → RowSlot → K → Draft K L) : Except (Error L) (Draft K L) :=
  let fields := withoutSetName fields
  if fields.isEmpty || 4 < fields.length then .error (.format line .pairFields)
  else d.forPairs line fields change

/-- The column and the number that a line of the section of bounds names. -/
def boundFields (line : Nat) (kind : String) (rest : List String) :
    Except (Error L) (String × Option String) :=
  if ["UP", "LO", "FX", "LI", "UI"].contains kind then
    match rest with
    | [_, column, value] => .ok (column, some value)
    | [column, value] => .ok (column, some value)
    | _ => .error (.format line (.invalidBound kind))
  else
    match rest with
    | [_, column, value] =>
      if kind = "BV" then .ok (column, some value) else .error (.format line (.invalidBound kind))
    | [_, column] => .ok (column, none)
    | [column] => .ok (column, none)
    | _ => .error (.format line (.invalidBound kind))

/-- The draft after a line of the section of bounds. -/
def boundLine (d : Draft K L) (line : Nat) (fields : List String) : Except (Error L) (Draft K L) :=
  match fields with
  | [] => .error (.format line .emptyBound)
  | word :: rest => do
    let kind := Text.capitals word
    let (name, field) ← boundFields line kind rest
    match d.places.lookup name with
    | none => throw (.unknownColumn line name)
    | some i =>
      let value ← field.mapM (number line)
      match (d.columns[i]?).bind fun c => c.withBound? kind value with
      | some c => return { d with columns := d.columns.setIfInBounds i c }
      | none => throw (.format line (.unknownBoundType kind))

/-- The draft after a line of the section of the objective's direction. -/
def senseLine (d : Draft K L) (line : Nat) (fields : List String) : Except (Error L) (Draft K L) :=
  match fields with
  | [word] => do
    let direction ← sense line word
    return { d with direction }
  | _ => .error (.format line .senseExpected)

/-- The draft after a data line. -/
def dataLine (d : Draft K L) (line : Nat) (fields : List String) : Except (Error L) (Draft K L) :=
  match d.current with
  | .start => .error (.format line .outsideSection)
  | .name => .error (.format line .outsideSection)
  | .sense => d.senseLine line fields
  | .rows => d.rowLine line fields
  | .columns => d.columnLine line fields
  | .rightHandSides => d.pairLine line fields setRightHandSide
  | .ranges => d.pairLine line fields setRange
  | .bounds => d.boundLine line fields

end Draft

end Milp.Mps
