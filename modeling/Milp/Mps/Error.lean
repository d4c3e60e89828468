import Milp.Model.Error

/-!
# What a file is refused for
-/

namespace Milp.Mps

/-- What is wrong with a line. -/
inductive Fault
  | missingEnd
  | unknownSection (word : String)
  | outsideSection
  | senseExpected
  | invalidSense (word : String)
  | rowFields
  | invalidRowType (word : String)
  | columnFields
  | invalidMarker (word : String)
  | pairFields
  | emptyBound
  | invalidBound (kind : String)
  | unknownBoundType (kind : String)
  | invalidNumber (word : String)
  | noObjective
deriving DecidableEq

/-- The text of a fault. -/
def Fault.text : Fault → String
  | missingEnd => "missing ENDATA"
  | unknownSection word => "unknown section " ++ Text.quoted word
  | outsideSection => "data outside of a section"
  | senseExpected => "expected MAX or MIN"
  | invalidSense word => "invalid objective sense " ++ Text.quoted word
  | rowFields => "a row needs a type and a name"
  | invalidRowType word => "invalid row type " ++ Text.quoted word
  | columnFields => "expected a column name and one or two (row, value) pairs"
  | invalidMarker word => "invalid marker " ++ Text.quoted word
  | pairFields => "expected one or two (row, value) pairs"
  | emptyBound => "empty bound"
  | invalidBound kind => "invalid " ++ kind ++ " bound"
  | unknownBoundType kind => "unknown bound type " ++ Text.quoted kind
  | invalidNumber word => "invalid number " ++ Text.quoted word
  | noObjective => "no objective row (type N) declared"

/-- Why a file is refused. -/
inductive Error (L : Type)
  | format (line : Nat) (fault : Fault)
  | unknownColumn (line : Nat) (name : String)
  | unknownRow (line : Nat) (name : String)
  | model (cause : ModelError L)
  /-- The bytes of the file are no text. -/
  | notText

namespace Error

variable {L : Type} [Spelled L]

/-- The message of the error that caused this one, if there is one. -/
def cause? : Error L → Option String
  | model cause => some cause.message
  | notText => some "stream did not contain valid UTF-8"
  | _ => none

/-- The message of an error. -/
def message (e : Error L) : String :=
  match e with
  | format line fault => s!"line {line}: " ++ fault.text
  | unknownColumn line name => s!"line {line}: unknown column " ++ Text.quoted name
  | unknownRow line name => s!"line {line}: unknown row " ++ Text.quoted name
  | model cause => "invalid model: " ++ cause.message
  | notText => "cannot read the file: " ++ e.cause?.getD ""

end Error

end Milp.Mps
