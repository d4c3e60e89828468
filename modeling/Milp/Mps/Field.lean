import Milp.Text.Blank

/-!
# Fields of a line

In the free format the fields of a line are its words. In the fixed format they stand at fixed
columns, counted in bytes, and may hold blanks inside; a field that is cut inside a character, or
starts past the end of the line, is dropped.
-/

namespace Milp.Mps

/-- How the fields of a line are found. -/
inductive Format
  | free
  | fixed
deriving DecidableEq, Repr

/-- The number of bytes of a text. -/
def byteSize (s : List Char) : Nat :=
  s.foldl (fun n c => n + c.utf8Size) 0

/-- A text without its first bytes; none where these end inside a character or past the end. -/
def dropBytes? : List Char → Nat → Option (List Char)
  | s, 0 => some s
  | [], _ + 1 => none
  | c :: r, n + 1 => if c.utf8Size ≤ n + 1 then dropBytes? r (n + 1 - c.utf8Size) else none

/-- The first bytes of a text; none where they end inside a character or past the end. -/
def takeBytes? : List Char → Nat → Option (List Char)
  | _, 0 => some []
  | [], _ + 1 => none
  | c :: r, n + 1 =>
    if c.utf8Size ≤ n + 1 then (takeBytes? r (n + 1 - c.utf8Size)).map (c :: ·) else none

/-- The bytes of a text from `start` to `stop`, or to the end where that comes first. -/
def slice? (s : List Char) (start stop : Nat) : Option (List Char) :=
  let stop := min stop (byteSize s)
  if stop < start then none
  else (dropBytes? s start).bind fun r => takeBytes? r (stop - start)

/-- The byte columns of the fields in the fixed format. -/
def fixedColumns : List (Nat × Nat) :=
  [(1, 3), (4, 12), (14, 22), (24, 36), (39, 47), (49, 61)]

/-- The fields of a line in the fixed format; empty ones do not count. -/
def fixedFields (line : List Char) : List (List Char) :=
  ((fixedColumns.filterMap fun c => slice? line c.1 c.2).map Text.trim).filter (!·.isEmpty)

/-- The fields of a line. -/
def Format.fields (format : Format) (line : List Char) : List String :=
  (match format with
    | .free => Text.words line
    | .fixed => fixedFields line).map String.ofList

end Milp.Mps
