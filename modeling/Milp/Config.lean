import Milp.Tolerance
import Milp.Duration

/-!
# Configurations

What one run of the solver is asked for: tolerances, limits and the number of relaxations that are
solved side by side. A configuration is a plain value, changed by functions that refuse what makes
no sense.
-/

namespace Milp

/-- The options of a run. -/
structure Config (K : Type) where
  /-- Ignore the integrality of variables. -/
  relax : Bool
  /-- A solution found after this time is good enough. -/
  sufficeAfter : Option Duration
  /-- The run ends after this time. -/
  abortAfter : Option Duration
  /-- The share of the objective within which a solution counts as optimal. -/
  gap : Option K
  /-- How closely constraints hold. -/
  feasibility : Tolerance
  /-- How closely integer variables are integers. -/
  integrality : Tolerance
  /-- The number of nodes that may be explored. -/
  nodeLimit : Option Nat
  /-- The number of simplex iterations for one relaxation. -/
  iterationLimit : Nat
  /-- The number of nodes that are taken from the queue together. -/
  threads : Nat
deriving BEq

/-- Why a configuration is refused. -/
inductive ConfigError
  | negativeGap
  | infiniteGap
  | abortBeforeSufficiency (suffice abort : Duration)
deriving DecidableEq

/-- The message of an error. -/
def ConfigError.message : ConfigError → String
  | negativeGap => "The MIP gap cannot be negative"
  | infiniteGap => "The MIP gap cannot be infinite"
  | abortBeforeSufficiency suffice abort =>
    s!"The abort time ({abort.text}) must not be shorter than the sufficiency time ({suffice.text})"

namespace Config

variable {K : Type}

/-- The configuration of a run that asks for nothing in particular. -/
def standard : Config K where
  relax := false
  sufficeAfter := none
  abortAfter := none
  gap := none
  feasibility := ⟨12, 9⟩
  integrality := ⟨12, 6⟩
  nodeLimit := none
  iterationLimit := 50000
  threads := 1

/-- Sets whether integrality is ignored. -/
def withRelaxation (c : Config K) (relax : Bool) : Config K :=
  { c with relax }

/-- Sets both time limits; the run may not end before its solution can suffice. -/
def withTimeLimits (c : Config K) (suffice abort : Duration) : Except ConfigError (Config K) :=
  if abort.nanoseconds < suffice.nanoseconds then .error (.abortBeforeSufficiency suffice abort)
  else .ok { c with sufficeAfter := some suffice, abortAfter := some abort }

/-- Sets the time at which the run ends, and moves an earlier limit that lies behind it. -/
def withTimeAbort (c : Config K) (abort : Duration) : Config K :=
  { c with
    abortAfter := some abort
    sufficeAfter := c.sufficeAfter.map fun suffice =>
      if abort.nanoseconds < suffice.nanoseconds then abort else suffice }

/-- Sets the gap, which is neither negative nor infinite. Minus zero counts as negative, and so does
an undefined gap that is `signed`: written with a minus sign. -/
def withGap [Scalar K] (c : Config K) (gap : K) (signed : Bool := false) :
    Except ConfigError (Config K) :=
  if signed || (!Scalar.isUndefined gap && Scalar.sign gap == -1) then .error .negativeGap
  else if !Scalar.isUndefined gap && !Scalar.isFinite gap then .error .infiniteGap
  else .ok { c with gap := some gap }

/-- Sets how closely constraints hold. -/
def withFeasibility (c : Config K) (t : Tolerance) : Config K :=
  { c with feasibility := t }

/-- Sets how closely integer variables are integers. -/
def withIntegrality (c : Config K) (t : Tolerance) : Config K :=
  { c with integrality := t }

/-- Sets the number of nodes that may be explored. -/
def withNodeLimit (c : Config K) (nodes : Nat) : Config K :=
  { c with nodeLimit := some nodes }

/-- Sets the number of simplex iterations for one relaxation. -/
def withIterationLimit (c : Config K) (iterations : Nat) : Config K :=
  { c with iterationLimit := iterations }

/-- Sets the number of nodes that are taken together, at least one. -/
def withThreads (c : Config K) (threads : Nat) : Config K :=
  { c with threads := max threads 1 }

/-- Whether memory can address the nodes of one batch, at eight bytes a node. -/
def isRunnable (c : Config K) : Bool :=
  c.threads * 8 < Nat.pow 2 63

end Config

end Milp
