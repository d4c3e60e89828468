import Milp.Number.Shortest

/-!
# Durations

Spans of time to the nanosecond, and their text in the largest unit that they fill.
-/

namespace Milp

/-- A span of time. -/
structure Duration where
  /-- Its length in nanoseconds. -/
  nanoseconds : Nat
deriving DecidableEq, Repr

namespace Duration

/-- The nanoseconds of a second. -/
def perSecond : Nat := 1000000000

/-- The span of some seconds and nanoseconds; none where its whole seconds do not fit in a word. -/
def ofParts? (seconds nanoseconds : Nat) : Option Duration :=
  if seconds + nanoseconds / perSecond < Nat.pow 2 64 then
    some ⟨seconds * perSecond + nanoseconds⟩
  else none

/-- Whole seconds of a span. -/
def seconds (d : Duration) : Nat := d.nanoseconds / perSecond

/-- Nanoseconds beyond the whole seconds of a span. -/
def subsecond (d : Duration) : Nat := d.nanoseconds % perSecond

/-- Whether a span is at least as long as a limit, if there is one. -/
def reaches (d : Duration) (limit : Option Duration) : Bool :=
  limit.any fun l => l.nanoseconds ≤ d.nanoseconds

/-- A span in units of `10 ^ places` nanoseconds, with the exact fraction. -/
def inUnit (d : Duration) (places : Nat) (unit : String) : String :=
  String.ofList (positional d.nanoseconds (-places)) ++ unit

/-- The text of a span, in the largest of the units `s`, `ms`, `µs`, `ns` that it fills. -/
def text (d : Duration) : String :=
  if perSecond ≤ d.nanoseconds then d.inUnit 9 "s"
  else if 1000000 ≤ d.nanoseconds then d.inUnit 6 "ms"
  else if 1000 ≤ d.nanoseconds then d.inUnit 3 "µs"
  else d.inUnit 0 "ns"

end Duration

end Milp
