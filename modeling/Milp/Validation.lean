import Milp.Model.Basic
import Milp.Tolerance

/-!
# Validation

An assignment is checked against every constraint, every bound and, unless integrality is relaxed,
every integer requirement. Checking never fails: it lists the requirements that do not hold, the
constraints first, then for each variable its bounds and its integrality.
-/

namespace Milp

/-- A requirement that does not hold, with the value that breaks it. The value is missing where the
assignment gives none. -/
inductive Violation (K L : Type)
  | constraint (index : Nat) (name : Option String) (activity : Option K) (lower upper : L)
  | bound (index : Nat) (name : String) (value : Option K) (lower upper : L)
  | integrality (index : Nat) (name : String) (value : Option K)

namespace Violation

variable {K L : Type} [Spelled K] [Spelled L]

/-- The text of a value that may be missing. -/
def valueText : Option K → String
  | some x => spell x
  | none => "NaN"

/-- A value outside an interval. -/
def outside (value : Option K) (lower upper : L) : String :=
  valueText value ++ " not in [" ++ spell lower ++ ", " ++ spell upper ++ "]"

/-- The text of a violation. -/
def text : Violation K L → String
  | constraint index name activity lower upper =>
    let subject := match name with
      | some name => "constraint " ++ Text.quoted name
      | none => s!"constraint #{index}"
    subject ++ ": " ++ outside activity lower upper
  | bound _ name value lower upper =>
    "variable " ++ Text.quoted name ++ ": " ++ outside value lower upper
  | integrality _ name value =>
    "variable " ++ Text.quoted name ++ ": " ++ valueText value ++ " is not integral"

end Violation

/-- The text of a list of violations. -/
def violationsText {K L : Type} [Spelled K] [Spelled L] (vs : List (Violation K L)) : String :=
  if vs.isEmpty then "valid"
  else s!"{vs.length} violation(s)" ++ String.join (vs.map fun v => "\n  " ++ v.text)

namespace Model

variable {K L : Type} [Scalar K] [Limits L K]

/-- Whether a value, if there is one, lies between two limits. -/
def isBetween (t : Tolerance) (lower : L) (value : Option K) (upper : L) : Bool :=
  value.any fun x => t.isBetween lower x upper

/-- What an assignment does to one constraint. -/
def constraintViolations (t : Tolerance) (value : Variable → Option K) (c : Constraint K L)
    (index : Nat) : List (Violation K L) :=
  let activity := c.body.eval? value
  if isBetween t c.lower activity c.upper then []
  else [.constraint index c.name activity c.lower c.upper]

/-- What an assignment does to the bounds of one variable. -/
def boundViolations (t : Tolerance) (value : Variable → Option K) (e : Entry K L)
    (index : Nat) : List (Violation K L) :=
  let x := value ⟨index⟩
  if isBetween t e.definition.lower x e.definition.upper then []
  else [.bound index e.name x e.definition.lower e.definition.upper]

/-- What an assignment does to the integrality of one variable. -/
def integralityViolations (t : Tolerance) (value : Variable → Option K) (e : Entry K L)
    (index : Nat) : List (Violation K L) :=
  let x := value ⟨index⟩
  if e.definition.domain.isInteger && !x.any t.isIntegral then [.integrality index e.name x] else []

/-- The requirements of a model that an assignment does not meet. -/
def violations (m : Model K L) (t : Tolerance) (checkIntegrality : Bool)
    (value : Variable → Option K) : List (Violation K L) :=
  m.constraints.toList.zipIdx.flatMap (fun p => constraintViolations t value p.1 p.2)
    ++ m.entries.toList.zipIdx.flatMap fun p =>
      boundViolations t value p.1 p.2
        ++ if checkIntegrality then integralityViolations t value p.1 p.2 else []

/-- Whether the values assigned in a model meet all its requirements. -/
def isValid (m : Model K L) (t : Tolerance) : Bool :=
  (m.violations t true m.value?).isEmpty

/-- Whether the values assigned in a model meet its requirements other than integrality. -/
def isValidRelaxed (m : Model K L) (t : Tolerance) : Bool :=
  (m.violations t false m.value?).isEmpty

/-- Whether an assignment gives every variable of a model a value. -/
def isAssignedBy (m : Model K L) (value : Variable → Option K) : Bool :=
  (List.range m.definitions.size).all fun i => (value ⟨i⟩).isSome

end Model

end Milp
