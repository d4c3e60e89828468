import Milp.Constraint
import Milp.Model.Error
import Milp.Variable

/-!
# Models

A model is a list of variables, a list of constraints and an objective, together with the values that
are assigned to the variables at the moment. What is known of the variables stands in lists beside each
other, and variables and constraints are found by name in indexes of their own. Names are distinct among
variables and among constraints. A change that is refused leaves the model as it was; a list of changes
is carried out up to the first that is refused.
-/

namespace Milp

/-- A variable of a model: its name, its definition and the value assigned to it. -/
structure Entry (K L : Type) where
  name : String
  definition : Definition L
  value : Option K

/-- An optimisation problem and an assignment of its variables. -/
structure Model (K L : Type) where
  definitions : Array (Definition L)
  /-- The name of each variable. -/
  labels : Array String
  /-- The variable of each name. -/
  variableIndex : List (String × Variable)
  constraints : Array (Constraint K L)
  /-- The place of the constraint of each name. -/
  constraintIndex : List (String × Nat)
  objective : Expression K
  /-- The value assigned to each variable, if there is one. -/
  assigned : Array (Option K)

namespace Model

variable {K L : Type} [Scalar K] [Limits L K]

/-- The model without variables, with objective zero. -/
def empty : Model K L where
  definitions := #[]
  labels := #[]
  variableIndex := []
  constraints := #[]
  constraintIndex := []
  objective := .zero
  assigned := #[]

instance : Inhabited (Model K L) := ⟨empty⟩

/-! ## Looking up -/

/-- The variable of a name. -/
def variableNamed? (m : Model K L) (name : String) : Option Variable :=
  m.variableIndex.lookup name

/-- The place of the constraint of a name. -/
def constraintNamed? (m : Model K L) (name : String) : Option Nat :=
  m.constraintIndex.lookup name

/-- A variable's entry, if the model has it. -/
def entry? (m : Model K L) (v : Variable) : Option (Entry K L) := do
  let definition ← m.definitions[v.index]?
  let name ← m.labels[v.index]?
  let value ← m.assigned[v.index]?
  return { name, definition, value }

/-- The entries of all variables. -/
def entries (m : Model K L) : Array (Entry K L) :=
  m.definitions.zipWith (fun definition e => ⟨e.1, definition, e.2⟩) (m.labels.zip m.assigned)

/-- The value of a variable of the model; zero until one is assigned. -/
def value? (m : Model K L) (v : Variable) : Option K :=
  m.assigned[v.index]?.map (·.getD 0)

/-- The values of all variables. -/
def values (m : Model K L) : List K :=
  m.assigned.toList.map (·.getD 0)

/-- The names of all variables. -/
def names (m : Model K L) : List String :=
  m.labels.toList

/-- Whether some variable has to be an integer. -/
def hasIntegers (m : Model K L) : Bool :=
  m.definitions.any (·.domain.isInteger)

/-- The first variable of an expression that the model does not have. -/
def checkExpression (m : Model K L) (e : Expression K) : Except (ModelError L) Unit :=
  match e.terms.find? fun t => m.definitions.size ≤ t.1.index with
  | some t => .error (.unknownVariable t.1)
  | none => .ok ()

/-- The name that a definition gives to the next variable. -/
def nextName (m : Model K L) (d : Definition L) : String :=
  d.name.getD s!"x{m.definitions.size}"

/-! ## Changes -/

end Model

/-- A change of a model, or the reason why it is refused. What was changed before the refusal stays
so. -/
abbrev Change (K L : Type) := EStateM (ModelError L) (Model K L)

namespace Change

variable {K L α β : Type}

/-- The model that a change makes and what it yields, or the reason why it is refused. -/
def result (change : Change K L α) (m : Model K L) : Except (ModelError L) (Model K L × α) :=
  match change m with
  | .ok a m => .ok (m, a)
  | .error e _ => .error e

/-- The model that a change leaves behind, and what it yields or the reason why it is refused. -/
def outcome (change : Change K L α) (m : Model K L) : Model K L × Except (ModelError L) α :=
  match change m with
  | .ok a m => (m, .ok a)
  | .error e m => (m, .error e)

/-- One change for every element of a list. -/
def forEach (change : α → Change K L β) : List α → Change K L (List β)
  | [] => return []
  | a :: as => do
    let b ← change a
    let bs ← forEach change as
    return b :: bs

/-- Whether the model has every variable of an expression. -/
def checkExpression (e : Expression K) : Change K L Unit := do
  match (← get).checkExpression e with
  | .ok () => return
  | .error e => throw e

/-- Another objective. -/
def setObjective [Scalar K] (objective : Operand K) : Change K L Unit := do
  let e := objective.copy
  checkExpression e
  modify fun m => { m with objective := e }

variable [Limits L K]

/-- One more variable. -/
def addVariable (d : Definition L) : Change K L Variable := do
  let v : Variable := ⟨(← get).definitions.size⟩
  let name := (← get).nextName d
  if ((← get).variableNamed? name).isSome then throw (.duplicateName name)
  if !Limits.isOrdered d.lower d.upper then throw (.invalidVariableBounds name d.lower d.upper)
  modify fun m => { m with variableIndex := m.variableIndex ++ [(name, v)] }
  modify fun m => { m with labels := m.labels.push name }
  modify fun m => { m with definitions := m.definitions.push d }
  modify fun m => { m with assigned := m.assigned.push none }
  return v

/-- Variables of one definition, named by a common start and a number that counts up from `first`. A
refusal ends a count of any size. -/
def addNumbered (start : String) (d : Definition L) : Nat → Nat → Change K L (List Variable)
  | _, 0 => return []
  | first, count + 1 => do
    let v ← addVariable (d.named s!"{start}{first}")
    let vs ← addNumbered start d (first + 1) count
    return v :: vs

/-- Variables of one definition, named by a common start and a number. -/
def addVector (start : String) (d : Definition L) (count : Nat) : Change K L (List Variable) :=
  addNumbered start d 0 count

/-- One more constraint. -/
def addConstraint (c : Constraint K L) : Change K L Nat := do
  if !Limits.isOrdered c.lower c.upper then throw (.invalidConstraintLimits c.lower c.upper)
  checkExpression c.body
  let i := (← get).constraints.size
  if let some name := c.name then
    if ((← get).constraintNamed? name).isSome then throw (.duplicateName name)
    modify fun m => { m with constraintIndex := m.constraintIndex ++ [(name, i)] }
  modify fun m => { m with constraints := m.constraints.push c }
  return i

/-- Some more constraints. -/
def addConstraints (cs : List (Constraint K L)) : Change K L (List Nat) :=
  forEach addConstraint cs

end Change

namespace Model

variable {K L : Type} [Scalar K] [Limits L K]

/-! ## Building -/

/-- The model with one more variable. -/
def addVariable (m : Model K L) (d : Definition L) :
    Except (ModelError L) (Model K L × Variable) :=
  (Change.addVariable d).result m

/-- The model with variables of one definition, named by a common start and a number. -/
def addVector (m : Model K L) (start : String) (d : Definition L) (count : Nat) :
    Model K L × Except (ModelError L) (List Variable) :=
  (Change.addVector start d count).outcome m

/-- The model with one more constraint, and the place of that. -/
def addConstraint (m : Model K L) (c : Constraint K L) :
    Except (ModelError L) (Model K L × Nat) :=
  (Change.addConstraint c).result m

/-- The model with some more constraints. -/
def addConstraints (m : Model K L) (cs : List (Constraint K L)) :
    Model K L × Except (ModelError L) (List Nat) :=
  (Change.addConstraints cs).outcome m

/-- The model with another objective. -/
def setObjective (m : Model K L) (objective : Operand K) : Except (ModelError L) (Model K L) :=
  ((Change.setObjective objective).result m).map (·.1)

/-! ## Assigning -/

/-- The model with a value assigned to a variable that it has. -/
def assign? (m : Model K L) (v : Variable) (value : K) : Option (Model K L) :=
  if v.index < m.assigned.size then
    some { m with assigned := m.assigned.setIfInBounds v.index (some value) }
  else none

/-- The model with a value assigned to the variable of a name. -/
def setValue? (m : Model K L) (name : String) (value : K) : Option (Model K L) :=
  (m.variableNamed? name).bind fun v => m.assign? v value

/-- The model without assigned values. -/
def clearValues (m : Model K L) : Model K L :=
  { m with assigned := m.assigned.map fun _ => none }

/-- The model with the values of a list assigned to its variables in order. -/
def assignAll (m : Model K L) (values : List K) : Model K L :=
  { m with assigned := m.assigned.mapIdx fun i value => values[i]?.or value }

end Model

end Milp
