import Milp.Mps.Draft
import Milp.Solve

/-!
# Reading files

A file is read line by line into a draft, and the draft is turned into a model where the file ends.
Blank lines and lines that start with an asterisk do not count; nothing counts after the end.
-/

namespace Milp.Mps

/-- A problem read from a file. -/
structure File (K L : Type) where
  model : Model K L
  name : String
  objectiveName : String
  direction : Direction

/-- The definition of a column's variable. -/
def Column.definition {K L : Type} [Scalar K] [Limits L K] (c : Column K L) : Definition L :=
  let d : Definition L := Definition.free.named c.name
  let d := if c.binary then d.binary else if c.integer then d.integer else d
  (d.withLower c.lower).withUpper c.upper

namespace Draft

variable {K L : Type} [Scalar K] [Limits L K]

/-- The objective: a term for each column, and the constant. -/
def objective (d : Draft K L) : Expression K :=
  ((d.columns.toList.zipIdx).foldl
    (fun (e : Expression K) c => e.addTerm ⟨c.2⟩ c.1.objective) .zero).addConstant
    d.objectiveConstant

/-- The body of the constraint at a place. -/
def body (d : Draft K L) (row : Nat) : Expression K :=
  (d.columns.toList.zipIdx).foldl
    (fun e c => (c.1.entries.filter fun t => t.1 = row).foldl
      (fun (e : Expression K) t => e.addTerm ⟨c.2⟩ t.2) e) .zero

/-- The constraint of a row at a place. -/
def constraint (d : Draft K L) (r : Row K) (row : Nat) : Constraint K L :=
  let limits : L × L := r.limits
  (Constraint.range (.expression (d.body row)) limits.1 limits.2).named r.name

/-- The problem that a draft says, at the end of the file. -/
def finish (d : Draft K L) : Except (Error L) (File K L) := do
  let some objectiveName := d.objectiveName | throw (.format 0 .noObjective)
  let lift {α : Type} (x : Except (ModelError L) α) : Except (Error L) α := x.mapError .model
  let m ← d.columns.toList.foldlM
    (fun m c => do return (← lift (m.addVariable c.definition)).1) Model.empty
  let m ← lift (m.setObjective (.expression d.objective))
  let m ← d.rows.toList.zipIdx.foldlM
    (fun m r => do return (← lift (m.addConstraint (d.constraint r.1 r.2))).1) m
  return ⟨m, d.name, objectiveName, d.direction⟩

end Draft

variable {K L : Type} [Scalar K] [Limits L K] [OfNumeral K] [OfNumeral L]

/-- Whether a line, without the blanks that end it, counts. -/
def counts (line : List Char) : Bool :=
  match line with
  | [] => false
  | c :: _ => c != '*'

/-- Whether a line is a header line: it does not start with a blank. -/
def isHeader (line : List Char) : Bool :=
  match line with
  | [] => false
  | c :: _ => !Text.isBlank c

/-- Reads lines into a draft, given the number of lines before them. -/
def readLines (format : Format) (d : Draft K L) (before : Nat) :
    List (List Char) → Except (Error L) (File K L)
  | [] => .error (.format before .missingEnd)
  | raw :: rest =>
    let line := Text.trimEnd raw
    if !counts line then readLines format d (before + 1) rest
    else if isHeader line then
      match d.header (before + 1) line with
      | .error e => .error e
      | .ok none => d.finish
      | .ok (some d) => readLines format d (before + 1) rest
    else
      match d.dataLine (before + 1) (format.fields line) with
      | .error e => .error e
      | .ok d => readLines format d (before + 1) rest

/-- The problem that a text says. -/
def read (format : Format) (text : String) : Except (Error L) (File K L) :=
  readLines format .empty 0 (Text.lines text.toList)

/-- The problem that the bytes of a file say. -/
def readBytes (format : Format) (bytes : ByteArray) : Except (Error L) (File K L) :=
  match String.fromUTF8? bytes with
  | some text => read format text
  | none => .error .notText

/-- Solves the problem of a file in its own direction, and commits the solution. -/
def File.optimise (f : File K L) (c : Config K) : File K L × Result K L :=
  let (model, r) := f.model.optimise f.direction c
  ({ f with model }, r)

/-- Solves the problem of a file and commits the solution; none where the configuration cannot be
run. -/
def File.optimise? (f : File K L) (c : Config K) : Option (File K L × Result K L) :=
  if c.isRunnable then some (f.optimise c) else none

end Milp.Mps
