import Milp.Proofs.Mps.Field
import Milp.Proofs.Mps.Finish

/-!
# Reading with every access checked

`Checked.read` reads as `read` does, but gives no result at all where something is looked up that is
not there: a byte past the end of a line or inside a character, a field that a line lacks, a number
without its partner, a row or a column outside those declared, an objective that the model refuses.
It follows the order in which a program looks things up; in particular it adds up the bodies of all
rows in one pass over the columns.

Results:
1. `header_eq`, `dataLine_eq`, `finish_eq`: on sound drafts each access finds what it looks for.
2. `read_eq`: so reading always gives a result, the one of `read`.
-/

namespace Milp.Mps.Checked

variable {K L α β : Type}

/-- Something that no access is needed for. -/
def plain (x : Except (Error L) α) : ExceptT (Error L) Option α := ExceptT.mk (some x)

/-- What an access finds. -/
def found (x : Option α) : ExceptT (Error L) Option α := ExceptT.mk (x.map .ok)

theorem plain_ok_bind (a : α) (f : α → ExceptT (Error L) Option β) :
    (plain (.ok a) >>= f) = f a := rfl

theorem plain_bind_pure (x : Except (Error L) α) (f : α → β) :
    (plain x >>= fun a => pure (f a)) = plain (x >>= fun a => pure (f a)) := by
  cases x <;> rfl

theorem found_some_bind (a : α) (f : α → ExceptT (Error L) Option β) :
    (found (some a) >>= f) = f a := rfl

/-! ## Parts of a line -/

/-- The fields of a line without the name of a set. -/
def withoutSetName (fields : List String) : Option (List String) :=
  if fields.length % 2 = 1 then fields.tail? else some fields

/-- Neighbouring fields as pairs, none of which is incomplete. -/
def pairs : List String → Option (List (String × String))
  | [] => some []
  | [_] => none
  | a :: b :: r => (pairs r).map ((a, b) :: ·)

theorem withoutSetName_eq (fields : List String) :
    withoutSetName fields = some (Mps.withoutSetName fields) := by
  unfold withoutSetName Mps.withoutSetName
  split
  · rename_i odd
    cases fields with
    | nil => simp at odd
    | cons first rest => rfl
  · rfl

theorem length_withoutSetName (fields : List String) :
    (Mps.withoutSetName fields).length % 2 = 0 := by
  unfold Mps.withoutSetName
  split
  · rw [List.length_drop]
    omega
  · omega

theorem pairs_eq {fields : List String} (even : fields.length % 2 = 0) :
    pairs fields = some (Mps.pairs fields) := by
  fun_induction pairs fields with
  | case1 => rfl
  | case2 => simp at even
  | case3 a b r ih =>
    rw [List.length_cons, List.length_cons, Nat.add_assoc, Nat.add_mod_right] at even
    rw [ih even]
    rfl

/-! ## Lines -/

/-- The draft after a header line, or none at the end of the file. -/
def header (d : Draft K L) (line : Nat) (text : List Char) :
    ExceptT (Error L) Option (Option (Draft K L)) :=
  match ((Text.words text).map String.ofList).headD "" with
  | "NAME" => do
    let rest ← found (dropBytes? text 4)
    return some { d with current := .name, name := .ofList (Text.trim rest) }
  | _ => plain (d.header line text)

/-- A draft changed for every pair of a row's name and a number, in order. -/
def forPairs [OfNumeral K] (d : Draft K L) (line : Nat) (fields : List String)
    (change : Draft K L → RowSlot → K → Option (Draft K L)) :
    ExceptT (Error L) Option (Draft K L) := do
  let ps ← found (pairs fields)
  ps.foldlM
    (fun d p => do
      let value ← plain (number line p.2)
      let slot ← plain (d.slot line p.1)
      found (change d slot value)) d

/-- The draft with a coefficient added to a column. -/
def addCoefficient [Scalar K] (d : Draft K L) (i : Nat) (slot : RowSlot) (value : K) : Option (Draft K L) :=
  match slot with
  | .ignored => some d
  | _ => if i < d.columns.size then some (d.addCoefficient i slot value) else none

/-- The draft with a number of a row set. -/
def setRow (change : Draft K L → RowSlot → K → Draft K L) (d : Draft K L) (slot : RowSlot)
    (value : K) : Option (Draft K L) :=
  match slot with
  | .constraint row => if row < d.rows.size then some (change d slot value) else none
  | _ => some (change d slot value)

/-- Whether a line of the section of columns is a marker. -/
def isMarker (fields : List String) : Option Bool :=
  if fields.length = 3 then (fields[1]?).map (· == "'MARKER'") else some false

/-- The draft after a line of the section of columns. -/
def columnLine [Scalar K] [Limits L K] [OfNumeral K] (d : Draft K L) (line : Nat)
    (fields : List String) : ExceptT (Error L) Option (Draft K L) := do
  if ← found (isMarker fields) then
    let inside ← plain (Draft.marker line (← found fields[2]?))
    return { d with inIntegers := inside }
  else if fields.length = 3 ∨ fields.length = 5 then
    let name ← found fields[0]?
    let rest ← found fields.tail?
    let (d, i) := d.column name
    forPairs d line rest fun d slot value => addCoefficient d i slot value
  else throw (.format line .columnFields)

/-- The draft after a line of pairs, with the name of a set or without. -/
def pairLine [OfNumeral K] (d : Draft K L) (line : Nat) (fields : List String)
    (change : Draft K L → RowSlot → K → Draft K L) : ExceptT (Error L) Option (Draft K L) := do
  let fields ← found (withoutSetName fields)
  if fields.isEmpty || 4 < fields.length then throw (.format line .pairFields)
  else forPairs d line fields (setRow change)

/-- The draft after a line of the section of bounds. -/
def boundLine [Scalar K] [Limits L K] [OfNumeral L] (d : Draft K L) (line : Nat)
    (fields : List String) : ExceptT (Error L) Option (Draft K L) :=
  match fields with
  | [] => throw (.format line .emptyBound)
  | word :: rest => do
    let kind := Text.capitals word
    let (name, field) ← plain (Draft.boundFields line kind rest)
    match d.places.lookup name with
    | none => throw (.unknownColumn line name)
    | some i =>
      let value ← plain (field.mapM (number line))
      let c ← found d.columns[i]?
      match c.withBound? kind value with
      | some c => return { d with columns := d.columns.setIfInBounds i c }
      | none => throw (.format line (.unknownBoundType kind))

/-- The draft after a data line. -/
def dataLine [Scalar K] [Limits L K] [OfNumeral K] [OfNumeral L] (d : Draft K L) (line : Nat)
    (fields : List String) : ExceptT (Error L) Option (Draft K L) :=
  match d.current with
  | .columns => columnLine d line fields
  | .rightHandSides => pairLine d line fields Draft.setRightHandSide
  | .ranges => pairLine d line fields Draft.setRange
  | .bounds => boundLine d line fields
  | _ => plain (d.dataLine line fields)

/-! ## The end of the file -/

/-- What the columns up to some one make: a model, its objective, and a body for each row. -/
structure Parts (K L : Type) where
  model : Model K L
  objective : Expression K
  bodies : Array (Expression K)

/-- The parts with the variable of one more column. -/
def Parts.add [Scalar K] [Limits L K] (p : Parts K L) (c : Column K L) : ExceptT (Error L) Option (Parts K L) := do
  let (model, v) ← plain ((p.model.addVariable c.definition).mapError .model)
  let bodies ← c.entries.foldlM
    (fun bodies t => found
      (if t.1 < bodies.size then some (bodies.modify t.1 (·.addTerm v t.2)) else none)) p.bodies
  return ⟨model, p.objective.addTerm v c.objective, bodies⟩

/-- The problem that a draft says, at the end of the file. -/
def finish [Scalar K] [Limits L K] (d : Draft K L) : ExceptT (Error L) Option (File K L) := do
  let some objectiveName := d.objectiveName | throw (.format 0 .noObjective)
  let p ← d.columns.toList.foldlM Parts.add ⟨.empty, .zero, Array.replicate d.rows.size .zero⟩
  let m ← found
    (p.model.setObjective (.expression (p.objective.addConstant d.objectiveConstant))).toOption
  let m ← (d.rows.toList.zip p.bodies.toList).foldlM
    (fun m r => do
      let limits : L × L := r.1.limits
      let c := (Constraint.range (.expression r.2) limits.1 limits.2).named r.1.name
      return (← plain ((m.addConstraint c).mapError .model)).1) m
  return ⟨m, d.name, objectiveName, d.direction⟩

/-! ## Texts -/

section Texts

variable [Scalar K] [Limits L K] [OfNumeral K] [OfNumeral L]

/-- Reads lines into a draft, given the number of lines before them. -/
def readLines (format : Format) (d : Draft K L) (before : Nat) :
    List (List Char) → ExceptT (Error L) Option (File K L)
  | [] => throw (.format before .missingEnd)
  | raw :: rest =>
    let line := Text.trimEnd raw
    if !counts line then readLines format d (before + 1) rest
    else if isHeader line then do
      match ← header d (before + 1) line with
      | none => finish d
      | some d => readLines format d (before + 1) rest
    else do
      let d ← dataLine d (before + 1) (format.fields line)
      readLines format d (before + 1) rest

/-- The problem that a text says. -/
def read (format : Format) (text : String) : ExceptT (Error L) Option (File K L) :=
  readLines format .empty 0 (Text.lines text.toList)

end Texts

/-! ## Every access finds something -/

/-- A header line with the first word `NAME` starts with its four bytes. -/
theorem dropBytes?_name {text : List Char} (flush : isHeader text = true)
    (name : ((Text.words text).map String.ofList).headD "" = "NAME") :
    dropBytes? text 4 = some (text.drop 4) := by
  cases text with
  | nil => cases flush
  | cons c r =>
    have dense : Text.isBlank c = false := by simpa [isHeader] using flush
    rw [Text.words_cons, if_neg (by simp [dense])] at name
    have word : c :: r.takeWhile (!Text.isBlank ·) = ['N', 'A', 'M', 'E'] :=
      String.ofList_injective name
    have parts : c :: r = ['N', 'A', 'M', 'E'] ++ r.dropWhile (!Text.isBlank ·) := by
      rw [← word, List.cons_append, List.takeWhile_append_dropWhile]
    rw [parts]
    exact dropBytes?_append ['N', 'A', 'M', 'E'] _

theorem header_eq (d : Draft K L) (line : Nat) {text : List Char} (flush : isHeader text = true) :
    header d line text = plain (d.header line text) := by
  unfold header
  split
  · rename_i name
    rw [dropBytes?_name flush name, Draft.header]
    dsimp only
    rw [name]
    rfl
  · rfl

theorem forPairs_eq [OfNumeral K] {motive : Draft K L → Prop} {d : Draft K L} {n : Nat}
    {fields : List String} {change? : Draft K L → RowSlot → K → Option (Draft K L)}
    {change : Draft K L → RowSlot → K → Draft K L}
    (step : ∀ (d : Draft K L) (name : String) (slot : RowSlot) (value : K), motive d →
      d.slots.lookup name = some slot →
        change? d slot value = some (change d slot value) ∧ motive (change d slot value))
    (start : motive d) (even : fields.length % 2 = 0) :
    forPairs d n fields change? = plain (d.forPairs n fields change) := by
  unfold forPairs Draft.forPairs
  rw [pairs_eq even]
  show (Mps.pairs fields).foldlM _ d = plain ((Mps.pairs fields).foldlM _ d)
  generalize Mps.pairs fields = ps
  induction ps generalizing d with
  | nil => rfl
  | cons p ps ih =>
    rw [List.foldlM_cons, List.foldlM_cons]
    cases (number n p.2 : Except (Error L) K) with
    | error e => rfl
    | ok value =>
      cases named : d.slot n p.1 with
      | error e => rfl
      | ok slot =>
        obtain ⟨here, next⟩ := step d p.1 slot value start (Draft.slot_ok named)
        show found (change? d slot value) >>= _ = _
        rw [here]
        exact ih next

theorem addCoefficient_eq [Scalar K] {d : Draft K L} {i : Nat} (inside : i < d.columns.size)
    (slot : RowSlot) (value : K) :
    addCoefficient d i slot value = some (d.addCoefficient i slot value) := by
  unfold addCoefficient
  split
  · rfl
  · exact if_pos inside

theorem size_addCoefficient [Scalar K] (d : Draft K L) (i : Nat) (slot : RowSlot) (value : K) :
    (d.addCoefficient i slot value).columns.size = d.columns.size := by
  cases slot <;> simp [Draft.addCoefficient]

theorem setRow_eq {d : Draft K L} (h : d.Sound) {change : Draft K L → RowSlot → K → Draft K L}
    {name : String} {slot : RowSlot} (named : d.slots.lookup name = some slot) (value : K) :
    setRow change d slot value = some (change d slot value) := by
  cases slot with
  | constraint i => exact if_pos (h.inside named)
  | objective => rfl
  | ignored => rfl

/-- The place that a column is given is one of the columns. -/
theorem column_inside [Scalar K] [Limits L K] {d : Draft K L} (h : d.Sound) (name : String) :
    (d.column name).2 < (d.column name).1.columns.size := by
  unfold Draft.column
  split
  · rename_i i found
    exact h.place_inside found
  · simp

theorem isMarker_eq (fields : List String) :
    isMarker fields = some (match fields with | [_, "'MARKER'", _] => true | _ => false) := by
  unfold isMarker
  split
  · rename_i three
    obtain ⟨a, b, c, rfl⟩ := List.length_eq_three.mp three
    by_cases marker : b = "'MARKER'" <;> simp [marker]
  · rename_i other
    split
    · exact absurd rfl other
    · rfl

theorem columnLine_eq [Scalar K] [Limits L K] [OfNumeral K] {d : Draft K L} (h : d.Sound) (n : Nat)
    (fields : List String) : columnLine d n fields = plain (d.columnLine n fields) := by
  unfold columnLine
  rw [isMarker_eq, found_some_bind]
  split
  · rename_i head word
    rw [if_pos rfl, show [head, "'MARKER'", word][2]? = some word from rfl, found_some_bind,
      Draft.columnLine_marker]
    cases (Draft.marker n word : Except (Error L) Bool) <;> rfl
  · rename_i other
    rw [if_neg Bool.false_ne_true]
    cases fields with
    | nil => rfl
    | cons name rest =>
      have sizes : (name :: rest).length = 3 ∨ (name :: rest).length = 5 ↔
          rest.length = 2 ∨ rest.length = 4 := by
        rw [List.length_cons]
        omega
      rw [Draft.columnLine_column fun word marker => other _ _ (congrArg _ marker), if_congr sizes rfl rfl]
      split
      · rename_i even
        exact forPairs_eq (motive := fun e => e.Sound ∧ (d.column name).2 < e.columns.size)
          (fun e _ slot value h named => ⟨addCoefficient_eq h.2 slot value,
            h.1.addCoefficient named _ value, (size_addCoefficient e _ slot value).symm ▸ h.2⟩)
          ⟨h.column name, column_inside h name⟩ (by omega)
      · rfl

theorem pairLine_eq [OfNumeral K] {d : Draft K L} (h : d.Sound)
    {change : Draft K L → RowSlot → K → Draft K L}
    (keeps : ∀ (d : Draft K L) (slot : RowSlot) (value : K), d.Sound → (change d slot value).Sound)
    (n : Nat) (fields : List String) :
    pairLine d n fields change = plain (d.pairLine n fields change) := by
  unfold pairLine Draft.pairLine
  rw [withoutSetName_eq]
  dsimp only
  show (if _ then _ else _) = plain (if _ then _ else _)
  split
  · rfl
  · exact forPairs_eq (fun d name slot value h named => ⟨setRow_eq h named value, keeps d slot value h⟩)
      h (length_withoutSetName fields)

theorem boundLine_eq [Scalar K] [Limits L K] [OfNumeral L] {d : Draft K L} (h : d.Sound) (n : Nat)
    (fields : List String) : boundLine d n fields = plain (d.boundLine n fields) := by
  unfold boundLine Draft.boundLine
  cases fields with
  | nil => rfl
  | cons word rest =>
    dsimp only
    cases Draft.boundFields (L := L) n (Text.capitals word) rest with
    | error e => rfl
    | ok named =>
      obtain ⟨name, field⟩ := named
      show (match d.places.lookup name with | none => _ | some i => _) =
        plain (match d.places.lookup name with | none => _ | some i => _)
      cases here : d.places.lookup name with
      | none => rfl
      | some i =>
        have inside := h.place_inside here
        cases (field.mapM (number n) : Except (Error L) (Option L)) with
        | error e => rfl
        | ok value =>
          dsimp only
          rw [plain_ok_bind, Array.getElem?_eq_getElem inside, found_some_bind, ok_bind,
            Option.bind_some]
          cases d.columns[i].withBound? (Text.capitals word) value <;> rfl

theorem dataLine_eq [Scalar K] [Limits L K] [OfNumeral K] [OfNumeral L] {d : Draft K L} (h : d.Sound)
    (n : Nat) (fields : List String) : dataLine d n fields = plain (d.dataLine n fields) := by
  unfold dataLine
  split <;> rename_i current
  · rw [columnLine_eq h, Draft.dataLine, current]
  · rw [pairLine_eq h fun _ slot value h => h.setRightHandSide slot value, Draft.dataLine, current]
  · rw [pairLine_eq h fun _ slot value h => h.setRange slot value, Draft.dataLine, current]
  · rw [boundLine_eq h, Draft.dataLine, current]
  · rfl

/-! ## The pass over the columns -/

theorem mapIdx_same (xs : Array α) : xs.mapIdx (fun _ x => x) = xs :=
  Array.ext (by simp) fun _ _ _ => Array.getElem_mapIdx ..

theorem foldlM_plain {f : β → α → Except (Error L) β} {g : β → α → ExceptT (Error L) Option β}
    (same : ∀ b a, g b a = plain (f b a)) (as : List α) (b : β) :
    as.foldlM g b = plain (as.foldlM f b) := by
  induction as generalizing b with
  | nil => rfl
  | cons a as ih =>
    rw [List.foldlM_cons, List.foldlM_cons, same]
    cases f b a with
    | error e => rfl
    | ok b => exact ih b

/-- The body of a row with the coefficients of a column added. -/
def addEntries [Scalar K] (v : Variable) (entries : List (Nat × K)) (row : Nat) (e : Expression K) :
    Expression K :=
  (entries.filter fun t => t.1 = row).foldl (fun e t => e.addTerm v t.2) e

/-- Entries that refer to rows each find theirs, and reach no other. -/
theorem foldlM_entries [Scalar K] (v : Variable) (entries : List (Nat × K))
    (bodies : Array (Expression K)) (inside : ∀ t ∈ entries, t.1 < bodies.size) :
    (entries.foldlM (fun bodies t => found
        (if t.1 < bodies.size then some (bodies.modify t.1 (·.addTerm v t.2)) else none)) bodies :
      ExceptT (Error L) Option _) =
      plain (.ok (bodies.mapIdx fun row e => addEntries v entries row e)) := by
  induction entries generalizing bodies with
  | nil => exact congrArg (fun bodies => plain (.ok bodies)) (mapIdx_same bodies).symm
  | cons t entries ih =>
    rw [List.foldlM_cons, if_pos (inside t (List.mem_cons_self ..)), found_some_bind, ih]
    · congr 2
      refine Array.ext (by simp) fun i hi hi' => ?_
      rw [Array.getElem_mapIdx, Array.getElem_mapIdx, Array.getElem_modify, addEntries, addEntries,
        List.filter_cons]
      by_cases here : t.1 = i <;> simp [here]
    · intro u hu
      rw [Array.size_modify]
      exact inside u (List.mem_cons_of_mem _ hu)

/-- One pass over the columns adds their variables, and makes the objective and every body. -/
theorem foldlM_add [Scalar K] [Limits L K] (cs : List (Column K L)) (p : Parts K L)
    (inside : ∀ c ∈ cs, ∀ t ∈ c.entries, t.1 < p.bodies.size) :
    cs.foldlM Parts.add p =
      plain ((cs.foldlM (fun (m : Model K L) (c : Column K L) => do
          return (← (m.addVariable c.definition).mapError Error.model).1) p.model).map fun m =>
        { model := m
          objective := (cs.zipIdx p.model.definitions.size).foldl
            (fun e (c : Column K L × Nat) => e.addTerm ⟨c.2⟩ c.1.objective) p.objective
          bodies := p.bodies.mapIdx fun row e => (cs.zipIdx p.model.definitions.size).foldl
            (fun e (c : Column K L × Nat) => addEntries ⟨c.2⟩ c.1.entries row e) e }) := by
  induction cs generalizing p with
  | nil =>
    exact congrArg (fun bodies => plain (.ok { p with bodies })) (mapIdx_same p.bodies).symm
  | cons c cs ih =>
    rw [List.foldlM_cons, List.foldlM_cons, Parts.add]
    cases added : p.model.addVariable c.definition with
    | error e => rfl
    | ok made =>
      obtain ⟨m, v⟩ := made
      obtain ⟨-, -, rfl, rfl⟩ := Model.addVariable_eq_ok.mp added
      have size : (p.model.withVariable (p.model.nextName c.definition) c.definition).definitions.size =
          p.model.definitions.size + 1 := Array.size_push _
      rw [Except.mapError, plain_ok_bind]
      dsimp only
      rw [foldlM_entries _ _ _ (inside c (List.mem_cons_self ..)), plain_ok_bind]
      refine (ih _ fun b hb t ht => ?_).trans ?_
      · simpa using inside b (List.mem_cons_of_mem _ hb) t ht
      · dsimp only
        rw [size, List.zipIdx_cons, Array.mapIdx_mapIdx]
        rfl

/-- The bodies that one pass makes are those of the rows, each of which is a pass of its own. -/
theorem zip_bodies [Scalar K] (d : Draft K L) :
    d.rows.toList.zip ((Array.replicate d.rows.size Expression.zero).mapIdx fun row e =>
        d.columns.toList.zipIdx.foldl (fun e c => addEntries ⟨c.2⟩ c.1.entries row e) e).toList =
      d.rows.toList.zipIdx.map fun r => (r.1, d.body r.2) := by
  refine List.ext_getElem (by simp) fun i hi hi' => ?_
  simp
  rfl

theorem finish_eq [Scalar K] [Limits L K] {d : Draft K L} (h : d.Sound) :
    finish d = plain d.finish := by
  have empty : (Model.empty : Model K L) = .ofParts #[] #[] .zero := by
    simp [Model.empty, Model.ofParts]
  have added := foldlM_addVariable #[] .zero d.columns.toList #[] h.nodup_columns
    (by simp [Model.variableNamed?, Model.ofParts])
  have pass := foldlM_add d.columns.toList
    ⟨.empty, .zero, Array.replicate d.rows.size .zero⟩ fun c hc t ht => by
      simpa using h.entries c (Array.mem_toList_iff.mp hc) t ht
  rw [show (Model.empty : Model K L).definitions.size = 0 from rfl] at pass
  unfold finish Draft.finish
  cases d.objectiveName with
  | none => rfl
  | some objectiveName =>
    dsimp only at pass ⊢
    rw [pass, empty, added]
    cases d.columns.toList.find? (!·.isOrdered) with
    | some c => rfl
    | none =>
      let m : Model K L :=
        .ofParts (#[] ++ (d.columns.toList.map Column.entry).toArray) #[] .zero
      have set : m.setObjective (.expression d.objective) = .ok _ :=
        Model.setObjective_eq_ok.mpr
          ⟨by simpa [m, Model.ofParts] using d.covers_objective, rfl⟩
      dsimp only
      rw [ok_bind, Except.map, plain_ok_bind]
      show found (m.setObjective (.expression d.objective)).toOption >>= _ =
        plain ((m.setObjective (.expression d.objective)).mapError Error.model >>= _)
      rw [set, Except.mapError, ok_bind, Except.toOption, found_some_bind]
      dsimp only
      rw [zip_bodies, List.foldlM_map, foldlM_plain (f := fun m (r : Row K × Nat) => do
        return (← (m.addConstraint (d.constraint r.1 r.2)).mapError Error.model).1) fun m r => ?_]
      · exact plain_bind_pure _ _
      · exact plain_bind_pure _ _

theorem readLines_eq [Scalar K] [Limits L K] [OfNumeral K] [OfNumeral L] (format : Format)
    {d : Draft K L} (h : d.Sound) (before : Nat) (ls : List (List Char)) :
    readLines format d before ls = plain (Mps.readLines format d before ls) := by
  induction ls generalizing d before with
  | nil => rfl
  | cons raw rest ih =>
    unfold readLines Mps.readLines
    dsimp only
    split
    · exact ih h _
    · split
      · rename_i flush
        rw [header_eq d _ flush]
        cases made : d.header (before + 1) (Text.trimEnd raw) with
        | error e => rfl
        | ok next =>
          cases next with
          | none => exact finish_eq h
          | some d' => exact ih (h.header made) _
      · rename_i indented
        rw [dataLine_eq h]
        cases made : d.dataLine (before + 1) (format.fields (Text.trimEnd raw)) with
        | error e => rfl
        | ok d' => exact ih (h.dataLine made) _

/-- Every access finds what it looks for, whatever the text. -/
theorem read_eq [Scalar K] [Limits L K] [OfNumeral K] [OfNumeral L] (format : Format)
    (text : String) : (read format text : ExceptT (Error L) Option (File K L)) =
      plain (Mps.read format text) :=
  readLines_eq format Draft.Sound.empty 0 _

end Milp.Mps.Checked
