import Milp.Proofs.Mps.Layout
import Milp.Proofs.Mps.Says

/-!
# Edits

A data line of the sections of right-hand sides, ranges and bounds sets numbers of rows and of
columns that are there. Whether it is accepted depends on what is declared and not on the numbers
that lines before it have set; and a row or a column has the numbers that the last lines set which
name it.

Results:
1. `Trailing.dataLine_edits`: a data line is accepted where it is a list of known edits, and then
   makes these.
2. `Draft.foldl_edit`: what edits, one by one, make of a draft.
3. `Draft.foldl_edit_congr`: only the order of the edits of one number matters.
-/

namespace Milp.Mps

/-- A section that may stand after the columns. -/
inductive Trailing
  | rightHandSides
  | ranges
  | bounds
deriving DecidableEq, Repr

/-- The word that begins a section. -/
def Trailing.word : Trailing → String
  | rightHandSides => "RHS"
  | ranges => "RANGES"
  | bounds => "BOUNDS"

/-- The section. -/
def Trailing.current : Trailing → Section
  | rightHandSides => .rightHandSides
  | ranges => .ranges
  | bounds => .bounds

/-- The column and the number that a line of bounds names; none where it is malformed. -/
def boundFields? (kind : String) (rest : List String) : Option (String × Option String) :=
  (Draft.boundFields 0 kind rest : Except (Error Unit) _).toOption

/-- The names of rows, or the name of the column, on a data line. -/
def Trailing.names (part : Trailing) (fields : List String) : List String :=
  match part, fields with
  | bounds, [] => []
  | bounds, word :: rest => ((boundFields? (Text.capitals word) rest).map (·.1)).toList
  | _, fields => (pairs (withoutSetName fields)).map (·.1)

/-- A number that a data line sets. -/
inductive Edit (K L : Type)
  | rightHandSide (row : String) (x : K)
  | range (row : String) (x : K)
  | bound (column kind : String) (value : Option L)

variable {K L : Type}

namespace Edit

/-- The section of the line. -/
def part : Edit K L → Trailing
  | rightHandSide .. => .rightHandSides
  | range .. => .ranges
  | bound .. => .bounds

/-- The row or the column that is named. -/
def name : Edit K L → String
  | rightHandSide row _ => row
  | range row _ => row
  | bound column _ _ => column

/-- Whether it is in a section and names a row or a column. -/
def isAbout (e : Edit K L) (part : Trailing) (name : String) : Bool :=
  e.part = part && e.name = name

/-- The right-hand side that is set for a row. -/
def rightHandSide? (row : String) : Edit K L → Option K
  | rightHandSide row' x => if row' = row then some x else none
  | _ => none

/-- The range that is set for a row. -/
def range? (row : String) : Edit K L → Option K
  | range row' x => if row' = row then some x else none
  | _ => none

end Edit

/-- A row after an edit. -/
def Row.edit (r : Row K) (e : Edit K L) : Row K :=
  { r with
    rightHandSide := (e.rightHandSide? r.name).getD r.rightHandSide
    range := (e.range? r.name).or r.range }

/-- A column after an edit. -/
def Column.edit [Scalar K] [Limits L K] (c : Column K L) : Edit K L → Column K L
  | .bound column kind value => if c.name = column then (c.withBound? kind value).getD c else c
  | _ => c

/-- The constant of an objective after an edit. -/
def Edit.constant [Scalar K] (e : Edit K L) (objective : Option String) (constant : K) : K :=
  ((objective.bind fun name => e.rightHandSide? name).map (- ·)).getD constant

/-- A draft after an edit. -/
def Draft.edit [Scalar K] [Limits L K] (d : Draft K L) (e : Edit K L) : Draft K L :=
  { d with
    rows := d.rows.map (·.edit e)
    columns := d.columns.map (·.edit e)
    objectiveConstant := e.constant d.objectiveName d.objectiveConstant }

/-- An edit of what is declared. -/
def Edit.Known [Scalar K] [Limits L K] (d : Draft K L) : Edit K L → Prop
  | rightHandSide row _ => (d.slots.lookup row).isSome
  | range row _ => (d.slots.lookup row).isSome
  | bound column kind value =>
    ∃ c ∈ d.columns, c.name = column ∧ (c.withBound? kind value).isSome

/-! ## Several edits -/

section Several

variable {r : Row K} {e : Edit K L}

/-- The last that is written stays. -/
theorem getLast?_filterMap_cons {α β : Type} (write : α → Option β) (a : α) (as : List α) :
    ((a :: as).filterMap write).getLast? = ((as.filterMap write).getLast?).or (write a) := by
  cases here : write a with
  | none => simp [here]
  | some b =>
    rw [List.filterMap_cons_some here, List.getLast?_cons]
    cases (as.filterMap write).getLast? <;> rfl

theorem Row.foldl_edit (es : List (Edit K L)) (r : Row K) : es.foldl Row.edit r =
    { r with
      rightHandSide := ((es.filterMap (·.rightHandSide? r.name)).getLast?).getD r.rightHandSide
      range := ((es.filterMap (·.range? r.name)).getLast?).or r.range } := by
  induction es generalizing r with
  | nil => rfl
  | cons e es ih =>
    rw [List.foldl_cons, ih, getLast?_filterMap_cons, getLast?_filterMap_cons, Option.getD_or,
      Option.or_assoc]
    rfl

theorem Edit.foldl_constant [Scalar K] (es : List (Edit K L)) (objective : Option String)
    (constant : K) :
    es.foldl (fun constant e => e.constant objective constant) constant =
      ((objective.bind fun name => (es.filterMap (·.rightHandSide? name)).getLast?).map
        (- ·)).getD constant := by
  induction es generalizing constant with
  | nil => cases objective <;> rfl
  | cons e es ih =>
    rw [List.foldl_cons, ih]
    cases objective with
    | none => rfl
    | some name =>
      simp only [Option.bind_some, getLast?_filterMap_cons, Option.map_or, Option.getD_or]
      rfl

theorem Edit.filterMap_rightHandSide? (es : List (Edit K L)) (row : String) :
    es.filterMap (·.rightHandSide? row) =
      (es.filter (·.isAbout .rightHandSides row)).filterMap (·.rightHandSide? row) := by
  rw [List.filterMap_filter]
  congr 1
  funext e
  cases e with
  | rightHandSide row' x =>
    by_cases here : row' = row <;> simp [rightHandSide?, isAbout, part, name, here]
  | _ => simp [rightHandSide?]

theorem Edit.filterMap_range? (es : List (Edit K L)) (row : String) :
    es.filterMap (·.range? row) =
      (es.filter (·.isAbout .ranges row)).filterMap (·.range? row) := by
  rw [List.filterMap_filter]
  congr 1
  funext e
  cases e with
  | range row' x => by_cases here : row' = row <;> simp [range?, isAbout, part, name, here]
  | _ => simp [range?]

variable [Scalar K] [Limits L K] {d : Draft K L}

theorem Column.edit_same (c : Column K L) (e : Edit K L) :
    (c.edit e).name = c.name ∧ (c.edit e).entries = c.entries := by
  cases e with
  | bound column kind value =>
    by_cases here : c.name = column
    · have edited : c.edit (.bound column kind value) = (c.withBound? kind value).getD c :=
        if_pos here
      rw [edited]
      cases bounded : c.withBound? kind value with
      | none => exact ⟨rfl, rfl⟩
      | some c' => exact Column.withBound?_same bounded
    · have edited : c.edit (.bound column kind value) = c := if_neg here
      rw [edited]
      exact ⟨rfl, rfl⟩
  | _ => exact ⟨rfl, rfl⟩

/-- Only the edits of a column change it. -/
theorem Column.foldl_edit (es : List (Edit K L)) (c : Column K L) :
    es.foldl Column.edit c = (es.filter (·.isAbout .bounds c.name)).foldl Column.edit c := by
  induction es generalizing c with
  | nil => rfl
  | cons e es ih =>
    have name : (c.edit e).name = c.name := (c.edit_same e).1
    rw [List.foldl_cons, ih, name, List.filter_cons]
    split
    · rfl
    · rename_i other
      have kept : c.edit e = c := by
        cases e with
        | bound column kind value =>
          refine if_neg fun here => other ?_
          simp [Edit.isAbout, Edit.part, Edit.name, here]
        | _ => rfl
      rw [kept]

/-- What edits, one by one, make of a draft. -/
theorem Draft.foldl_edit (es : List (Edit K L)) (d : Draft K L) : es.foldl Draft.edit d =
    { d with
      rows := d.rows.map fun r => es.foldl Row.edit r
      columns := d.columns.map fun c => es.foldl Column.edit c
      objectiveConstant :=
        es.foldl (fun constant e => e.constant d.objectiveName constant) d.objectiveConstant } := by
  induction es generalizing d with
  | nil => simp
  | cons e es ih =>
    rw [List.foldl_cons, ih]
    simp [edit, Function.comp_def]

/-- Edits make the same of a draft where those in one section that name one row or column are the
same, in the same order. -/
theorem Draft.foldl_edit_congr {es es' : List (Edit K L)}
    (same : ∀ part name, es.filter (·.isAbout part name) = es'.filter (·.isAbout part name))
    (d : Draft K L) : es.foldl Draft.edit d = es'.foldl Draft.edit d := by
  have row (r : Row K) : es.foldl Row.edit r = es'.foldl Row.edit r := by
    rw [Row.foldl_edit, Row.foldl_edit, Edit.filterMap_rightHandSide? es,
      Edit.filterMap_rightHandSide? es', Edit.filterMap_range? es, Edit.filterMap_range? es', same,
      same]
  have column (c : Column K L) : es.foldl Column.edit c = es'.foldl Column.edit c := by
    rw [Column.foldl_edit es, Column.foldl_edit es', same]
  have constant : es.foldl (fun constant e => e.constant d.objectiveName constant)
      d.objectiveConstant = es'.foldl (fun constant e => e.constant d.objectiveName constant)
        d.objectiveConstant := by
    rw [Edit.foldl_constant, Edit.foldl_constant]
    cases d.objectiveName with
    | none => rfl
    | some name =>
      dsimp only [Option.bind_some]
      rw [Edit.filterMap_rightHandSide? es, Edit.filterMap_rightHandSide? es', same]
  rw [Draft.foldl_edit, Draft.foldl_edit, constant]
  simp only [row, column]

/-! ## What edits keep -/

theorem Draft.Sound.edit (h : d.Sound) (e : Edit K L) : (d.edit e).Sound := by
  refine h.of_names rfl rfl ?_ ?_ rfl fun c hc t ht => ?_
  · simp [Draft.edit, Row.edit, Function.comp_def]
  · simp [Draft.edit, Column.edit_same, Function.comp_def]
  · obtain ⟨b, hb, rfl⟩ := Array.mem_map.mp hc
    rw [(b.edit_same e).2] at ht
    exact h.entries b hb t ht

theorem Draft.Sound.foldl_edit (h : d.Sound) (es : List (Edit K L)) :
    (es.foldl Draft.edit d).Sound :=
  List.foldlRecOn (motive := Draft.Sound) es _ h fun _ h e _ => h.edit e

/-- Which bounds there are depends on the kind and on the number. -/
theorem Column.isSome_withBound? (c c' : Column K L) (kind : String) (value : Option L) :
    (c.withBound? kind value).isSome = (c'.withBound? kind value).isSome := by
  unfold withBound?
  split <;> rfl

/-- Whether an edit is known depends on what is declared. -/
theorem Edit.known_congr {d d' : Draft K L} (slots : d'.slots = d.slots)
    (columns : d'.columns.map (·.name) = d.columns.map (·.name)) (e : Edit K L) :
    e.Known d' ↔ e.Known d := by
  have known {d d' : Draft K L} (columns : d'.columns.map (·.name) = d.columns.map (·.name))
      {column kind : String} {value : Option L}
      (here : ∃ c ∈ d.columns, c.name = column ∧ (c.withBound? kind value).isSome) :
      ∃ c ∈ d'.columns, c.name = column ∧ (c.withBound? kind value).isSome := by
    obtain ⟨c, hc, name, bounded⟩ := here
    have named : column ∈ d'.columns.map (·.name) := by
      rw [columns, ← name]
      exact Array.mem_map_of_mem hc
    obtain ⟨c', hc', name'⟩ := Array.mem_map.mp named
    exact ⟨c', hc', name', (c'.isSome_withBound? c kind value).trans bounded⟩
  cases e with
  | rightHandSide row x => rw [Known, Known, slots]
  | range row x => rw [Known, Known, slots]
  | bound column kind value => exact ⟨known columns.symm, known columns⟩

theorem Edit.known_edit (e e' : Edit K L) : e.Known (d.edit e') ↔ e.Known d := by
  have slots : (d.edit e').slots = d.slots := rfl
  have columns : (d.edit e').columns.map (·.name) = d.columns.map (·.name) := by
    simp [Draft.edit, Column.edit_same, Function.comp_def]
  exact known_congr slots columns e

theorem Edit.known_foldl_edit (e : Edit K L) (es : List (Edit K L)) :
    e.Known (es.foldl Draft.edit d) ↔ e.Known d :=
  List.foldlRecOn (motive := fun d' : Draft K L => e.Known d' ↔ e.Known d) es _ .rfl
    fun _ same e' _ => (e.known_edit e').trans same

end Several

/-! ## Edits of rows and columns in their places -/

theorem boundFields_eq_ok {n : Nat} {kind : String} {rest : List String}
    {p : String × Option String} :
    (Draft.boundFields n kind rest : Except (Error L) _) = .ok p ↔
      boundFields? kind rest = some p := by
  unfold boundFields? Draft.boundFields
  split <;> split <;> try split
  all_goals simp [Except.toOption]

namespace Draft.Sound

variable {d : Draft K L} {name : String} {slot : RowSlot}

theorem edit_row (h : d.Sound) (found : d.slots.lookup name = some slot) {e : Edit K L}
    {f : Row K → Row K} (row : ∀ r : Row K, r.edit e = if r.name = name then f r else r) :
    d.rows.map (·.edit e) = d.modifyRow slot f := by
  refine Array.toList_inj.mp ?_
  rw [h.modifyRow_eq found, Array.toList_map]
  simp only [row]

variable [Scalar K] [Limits L K]

theorem setRightHandSide_eq (h : d.Sound) (found : d.slots.lookup name = some slot) (x : K) :
    d.setRightHandSide slot x = d.edit (.rightHandSide name x) := by
  have rows : d.rows.map (·.edit (.rightHandSide name x : Edit K L)) =
      d.modifyRow slot fun r => { r with rightHandSide := x } := by
    refine h.edit_row found fun r => ?_
    by_cases here : name = r.name
    · simp [Row.edit, Edit.rightHandSide?, Edit.range?, here]
    · simp [Row.edit, Edit.rightHandSide?, Edit.range?, here, Ne.symm here]
  have columns : d.columns.map (·.edit (.rightHandSide name x)) = d.columns := by
    simp [Column.edit]
  have objective : slot = .objective ↔ d.objectiveName = some name := by
    rw [← h.objective, found, Option.some_inj]
  have constant : (Edit.rightHandSide name x : Edit K L).constant d.objectiveName
      d.objectiveConstant =
      if slot = .objective then -x else d.objectiveConstant := by
    by_cases here : slot = .objective
    · rw [objective.mp here, if_pos here]
      simp [Edit.constant, Edit.rightHandSide?]
    · rw [if_neg here]
      cases named : d.objectiveName with
      | none => rfl
      | some other =>
        have differ : name ≠ other := by
          rintro rfl
          exact here (objective.mpr named)
        simp [Edit.constant, Edit.rightHandSide?, differ]
  rw [Draft.edit, rows, columns, constant]
  cases slot <;> rfl

theorem setRange_eq (h : d.Sound) (found : d.slots.lookup name = some slot) (x : K) :
    d.setRange slot x = d.edit (.range name x) := by
  have rows : d.rows.map (·.edit (.range name x : Edit K L)) =
      d.modifyRow slot fun r => { r with range := some x } := by
    refine h.edit_row found fun r => ?_
    by_cases here : name = r.name
    · simp [Row.edit, Edit.rightHandSide?, Edit.range?, here]
    · simp [Row.edit, Edit.rightHandSide?, Edit.range?, here, Ne.symm here]
  have columns : d.columns.map (·.edit (.range name x)) = d.columns := by simp [Column.edit]
  have constant : (Edit.range name x : Edit K L).constant d.objectiveName d.objectiveConstant =
      d.objectiveConstant := by
    cases named : d.objectiveName <;> rfl
  rw [Draft.edit, rows, columns, constant]
  cases slot <;> rfl

/-- A column at its place is replaced by what a bound makes of it. -/
theorem setBound_eq (h : d.Sound) {i : Nat}
    (found : d.places.lookup name = some i) {kind : String}
    {value : Option L} {c c' : Column K L} (here : d.columns[i]? = some c)
    (bounded : c.withBound? kind value = some c') :
    { d with columns := d.columns.setIfInBounds i c' } = d.edit (.bound name kind value) := by
  have place := setIfInBounds_eq_modify here fun c => (c.withBound? kind value).getD c
  rw [bounded, Option.getD_some] at place
  have columns : d.columns.map (·.edit (.bound name kind value)) = d.columns.setIfInBounds i c' := by
    refine Array.toList_inj.mp ?_
    rw [place, h.modifyColumn_eq found, Array.toList_map]
    rfl
  have rows : d.rows.map (·.edit (.bound name kind value : Edit K L)) = d.rows := by
    simp [Row.edit, Edit.rightHandSide?, Edit.range?]
  have constant : (Edit.bound name kind value : Edit K L).constant d.objectiveName
      d.objectiveConstant = d.objectiveConstant := by
    cases named : d.objectiveName <;> rfl
  rw [Draft.edit, rows, columns, constant]

end Draft.Sound

/-! ## Data lines -/

/-- The edits of a line of pairs. -/
def pairEdits? [OfNumeral K] (make : String → K → Edit K L) (fields : List String) :
    Option (List (Edit K L)) :=
  let fields := withoutSetName fields
  if fields.isEmpty || 4 < fields.length then none
  else (pairs fields).mapM fun p => (readNumber? p.2).map (make p.1)

/-- The edits of a data line, if its fields are what they should be. -/
def Trailing.edits? [OfNumeral K] [OfNumeral L] (part : Trailing) (fields : List String) :
    Option (List (Edit K L)) :=
  match part, fields with
  | rightHandSides, fields => pairEdits? .rightHandSide fields
  | ranges, fields => pairEdits? .range fields
  | bounds, [] => none
  | bounds, word :: rest => do
    let (name, field) ← boundFields? (Text.capitals word) rest
    let value ← field.mapM readNumber?
    return [.bound name (Text.capitals word) value]

theorem exists_of_mem_mapM {α β : Type} {f : α → Option β} {as : List α} {bs : List β}
    (made : as.mapM f = some bs) {b : β} (hb : b ∈ bs) : ∃ a ∈ as, f a = some b := by
  induction as generalizing bs with
  | nil =>
    cases made
    cases hb
  | cons a as ih =>
    rw [List.mapM_cons] at made
    obtain ⟨first, here, made⟩ := Option.bind_eq_some_iff.mp made
    obtain ⟨others, rest, made⟩ := Option.bind_eq_some_iff.mp made
    cases made
    rcases List.mem_cons.mp hb with rfl | hb
    · exact ⟨a, List.mem_cons_self .., here⟩
    · obtain ⟨a', ha', made⟩ := ih rest hb
      exact ⟨a', List.mem_cons_of_mem _ ha', made⟩

section Lines

variable [OfNumeral K] {fields : List String} {es : List (Edit K L)}

theorem pairEdits?_about (make : String → K → Edit K L) (part : Trailing)
    (about : ∀ name x, (make name x).part = part ∧ (make name x).name = name)
    (made : pairEdits? make fields = some es) :
    ∀ e ∈ es, e.part = part ∧ e.name ∈ (pairs (withoutSetName fields)).map (·.1) := by
  unfold pairEdits? at made
  dsimp only at made
  split at made
  · cases made
  · intro e he
    obtain ⟨p, hp, edit⟩ := exists_of_mem_mapM made he
    obtain ⟨x, -, rfl⟩ := Option.map_eq_some_iff.mp edit
    rw [(about p.1 x).2]
    exact ⟨(about p.1 x).1, List.mem_map_of_mem hp⟩

/-- The edits of a data line are in its section, and of the names on it. -/
theorem Trailing.edits?_about [OfNumeral L] {part : Trailing}
    (made : part.edits? fields = some es) :
    ∀ e ∈ es, e.part = part ∧ e.name ∈ part.names fields := by
  cases part with
  | rightHandSides =>
    exact pairEdits?_about .rightHandSide .rightHandSides (fun _ _ => ⟨rfl, rfl⟩) made
  | ranges => exact pairEdits?_about .range .ranges (fun _ _ => ⟨rfl, rfl⟩) made
  | bounds =>
    cases fields with
    | nil => cases made
    | cons word rest =>
      obtain ⟨⟨name, field⟩, parts, made⟩ := Option.bind_eq_some_iff.mp made
      obtain ⟨value, -, made⟩ := Option.bind_eq_some_iff.mp made
      cases made
      intro e he
      obtain rfl := List.mem_singleton.mp he
      exact ⟨rfl, by simp [names, parts, Edit.name]⟩

variable [Scalar K] [Limits L K] {d d' : Draft K L} {n : Nat}

/-- A line of pairs is accepted where its edits are known, and then makes them. -/
theorem Draft.pairLine_edits (h : d.Sound) {change : Draft K L → RowSlot → K → Draft K L}
    {make : String → K → Edit K L}
    (known : ∀ (d : Draft K L) name x, (make name x).Known d ↔ (d.slots.lookup name).isSome)
    (same : ∀ {d : Draft K L} {name slot}, d.Sound → d.slots.lookup name = some slot →
      ∀ x, change d slot x = d.edit (make name x)) :
    d.pairLine n fields change = .ok d' ↔ ∃ es, pairEdits? make fields = some es ∧
      (∀ e ∈ es, e.Known d) ∧ d' = es.foldl Draft.edit d := by
  unfold pairLine pairEdits?
  dsimp only
  split
  · simp
  · unfold forPairs
    generalize pairs (withoutSetName fields) = ps
    induction ps generalizing d with
    | nil => simp [pure, Except.pure, eq_comm]
    | cons p ps ih =>
      rw [List.foldlM_cons, List.mapM_cons]
      constructor
      · intro accepted
        obtain ⟨d₁, first, rest⟩ := bind_eq_ok accepted
        obtain ⟨x, read, first⟩ := bind_eq_ok first
        obtain ⟨slot, found, first⟩ := bind_eq_ok first
        cases first
        rw [same h (slot_ok found)] at rest
        obtain ⟨es, made, all, rfl⟩ := (ih (h.edit _)).mp rest
        refine ⟨make p.1 x :: es, ?_, List.forall_mem_cons.mpr ⟨?_, fun e he => ?_⟩, rfl⟩
        · rw [number_ok read, made]
          rfl
        · rw [known, slot_ok found]
          rfl
        · exact (e.known_edit _).mp (all e he)
      · rintro ⟨es, made, all, rfl⟩
        obtain ⟨e, single, made⟩ := Option.bind_eq_some_iff.mp made
        obtain ⟨x, numeral, rfl⟩ := Option.map_eq_some_iff.mp single
        obtain ⟨es, rest, made⟩ := Option.bind_eq_some_iff.mp made
        cases made
        obtain ⟨first, others⟩ := List.forall_mem_cons.mp all
        obtain ⟨slot, found⟩ := Option.isSome_iff_exists.mp ((known d p.1 x).mp first)
        have read : (number n p.2 : Except (Error L) K) = .ok x := by rw [number, numeral]
        have place : d.slot n p.1 = .ok slot := by rw [Draft.slot, found]
        have later := (ih (h.edit (make p.1 x))).mpr
          ⟨es, rest, fun e he => (e.known_edit _).mpr (others e he), rfl⟩
        rw [read, ok_bind, place, ok_bind, same h found]
        exact later

variable [OfNumeral L]

theorem mapM_number_eq_ok {field : Option String} {value : Option L} :
    (field.mapM (number n) : Except (Error L) (Option L)) = .ok value ↔
      field.mapM readNumber? = some value := by
  cases field with
  | none => simp [pure, Except.pure]
  | some word =>
    simp only [Option.mapM_some, number]
    cases (readNumber? word : Option L) with
    | none => simp [Functor.map, Except.map]
    | some x => simp [Functor.map, Except.map]

/-- A line of bounds is accepted where its edit is known, and then makes it. -/
theorem Draft.boundLine_edits (h : d.Sound) :
    d.boundLine n fields = .ok d' ↔ ∃ es, Trailing.bounds.edits? fields = some es ∧
      (∀ e ∈ es, e.Known d) ∧ d' = es.foldl Draft.edit d := by
  cases fields with
  | nil => simp [boundLine, Trailing.edits?]
  | cons word rest =>
    rw [Draft.boundLine_eq_ok]
    constructor
    · rintro ⟨name, field, value, i, c, c', parts, found, read, here, bounded, rfl⟩
      refine ⟨[.bound name (Text.capitals word) value], ?_, ?_, h.setBound_eq found here bounded⟩
      · simp [Trailing.edits?, boundFields_eq_ok.mp parts, mapM_number_eq_ok.mp read]
      · have named : c.name = name := by
          have place := (h.columns name i).mp found
          rw [Array.getElem?_map, here] at place
          exact Option.some.inj place
        rintro e he
        obtain rfl := List.mem_singleton.mp he
        exact ⟨c, Array.mem_of_getElem? here, named, by rw [bounded]; rfl⟩
    · rintro ⟨es, made, all, rfl⟩
      obtain ⟨⟨name, field⟩, parts, made⟩ := Option.bind_eq_some_iff.mp made
      obtain ⟨value, read, made⟩ := Option.bind_eq_some_iff.mp made
      cases made
      obtain ⟨b, hb, named, bounded⟩ := all _ (List.mem_singleton_self _)
      obtain ⟨i, c, found, here⟩ := h.exists_place
        (List.mem_map.mpr ⟨b, Array.mem_toList_iff.mpr hb, named⟩)
      rw [b.isSome_withBound? c] at bounded
      obtain ⟨c', bounded⟩ := Option.isSome_iff_exists.mp bounded
      exact ⟨name, field, value, i, c, c', boundFields_eq_ok.mpr parts, found,
        mapM_number_eq_ok.mpr read, here, bounded, (h.setBound_eq found here bounded).symm⟩

/-- A data line is accepted where its edits are known, and then makes them. -/
theorem Trailing.dataLine_edits (part : Trailing) (h : d.Sound)
    (current : d.current = part.current) :
    d.dataLine n fields = .ok d' ↔ ∃ es, part.edits? fields = some es ∧
      (∀ e ∈ es, e.Known d) ∧ d' = es.foldl Draft.edit d := by
  unfold Draft.dataLine
  rw [current]
  cases part with
  | rightHandSides =>
    exact Draft.pairLine_edits h (fun _ _ _ => .rfl) fun h found => h.setRightHandSide_eq found
  | ranges => exact Draft.pairLine_edits h (fun _ _ _ => .rfl) fun h found => h.setRange_eq found
  | bounds => exact Draft.boundLine_edits h

end Lines

end Milp.Mps
