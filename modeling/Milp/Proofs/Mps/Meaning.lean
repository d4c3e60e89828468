import Milp.Number.Unrounded
import Milp.Proofs.Mps.Says

/-!
# What is read is what is stated

Results:
1. `Says.finish`: a draft that says what is stated in full turns into the problem that it means.
2. `takes_rows`, `takes_columns`, `takes_rightHandSides`, `takes_ranges`, `takes_bounds`: a draft
   takes the lines of each section, and says more.
3. `read_rendering`: reading the lines of a problem gives what the problem means.
-/

namespace Milp.Mps

open Expression (total?)

variable {K L : Type} [OfNumeral K] [OfNumeral L] [Scalar K] [Limits L K]

/-! ## The end of the file -/

namespace Content

/-- The variable of a column is what is stated about it. -/
theorem entry_columnOf (q : Content K L) (slotOf : String → RowSlot) (column : String) :
    (q.columnOf slotOf column).entry = q.variableOf column := by
  rw [columnOf_eq]
  rfl

theorem coefficients_columnOf (q : Content K L) {slotOf : String → RowSlot} {row : String} {i : Nat}
    (place : ∀ name, slotOf name = .constraint i ↔ name = row) (column : String) :
    (q.columnOf slotOf column).coefficients i = q.coefficients column row := by
  rw [columnOf_eq]
  show ((([] ++ List.filterMap _ (q.pairsOf column)).filter _).map _) = _
  unfold coefficients numbersOf
  induction q.pairsOf column with
  | nil => rfl
  | cons p ps ih =>
    by_cases here : p.row.text = row
    · have slot := (place row).mpr rfl
      simpa [slot, here] using ih
    · have other := mt (place _).mp here
      cases slot : slotOf p.row.text with
      | constraint j =>
        have differ : j ≠ i := fun same => other (same ▸ slot)
        simpa [slot, here, differ] using ih
      | objective => simpa [slot, here] using ih
      | ignored => simpa [slot, here] using ih

theorem limits_rowOf (q : Content K L) (row : String × RowKind) :
    (q.rowOf row).limits =
      (limitsOf row.2 ((q.rightHandSide? row.1).getD 0) (q.range? row.1) : L × L) := by
  unfold Row.limits limitsOf rowOf
  cases row.2 <;> cases q.range? row.1 <;> rfl

theorem objective_columnOf (q : Content K L) {slotOf : String → RowSlot} {row : String}
    (place : ∀ name, slotOf name = .objective ↔ name = row) (column : String) :
    (q.columnOf slotOf column).objective = (q.coefficients column row).foldl (· + ·) 0 := by
  rw [columnOf_eq]
  show ((List.filter _ _).map _).foldl _ _ = _
  simp only [place]
  rfl

end Content

namespace Draft.Says

variable {d : Draft K L} {q : Content K L}

/-- The terms of a row, column by column. -/
theorem body (h : d.Says q) {row : String} {i : Nat}
    (place : ∀ name, d.slotOf name = .constraint i ↔ name = row) :
    d.body i = ⟨q.columnNames.zipIdx.filterMap fun c =>
      (total? (q.coefficients c.1 row)).map (Prod.mk ⟨c.2⟩), 0⟩ := by
  rw [body_eq, h.columns, List.zipIdx_map, List.filterMap_map]
  simp only [Function.comp_def, Prod.map_fst, Prod.map_snd, id, q.coefficients_columnOf place]

theorem constraints (h : d.Says q) : d.constraints = q.constraintRows.map q.constraintOf := by
  have rows : q.constraintRows.map q.constraintOf =
      q.constraintRows.zipIdx.map fun r => q.constraintOf r.1 := by
    show _ = q.constraintRows.zipIdx.map (q.constraintOf ∘ Prod.fst)
    rw [← List.map_map, List.zipIdx_map_fst]
  rw [rows, Draft.constraints, h.rows, List.zipIdx_map, List.map_map]
  refine List.map_congr_left fun r hr => ?_
  have body := h.body (h.place_row (List.mem_zipIdx_iff_getElem?.mp hr))
  show Constraint.named (.range (.expression (d.body r.2)) (q.rowOf r.1).limits.1
    (q.rowOf r.1).limits.2) r.1.1 = _
  rw [body, q.limits_rowOf r.1]
  rfl

theorem objective (h : d.Says q) {objective : String} (free : q.objectiveName? = some objective) :
    (Operand.expression d.objective).copy = q.objectiveOf objective := by
  have constant := h.objectiveConstant
  rw [free, Option.bind_some] at constant
  rw [copy_objective, h.columns, List.zipIdx_map, List.map_map, constant]
  simp only [Function.comp_def, Prod.map_fst, Prod.map_snd, id,
    q.objective_columnOf (h.place_objective free)]
  rfl

/-- A draft that says what is stated turns into the problem that it means. -/
theorem finish (h : d.Says q) {objective : String} (free : q.objectiveName? = some objective) :
    d.finish = q.meaning objective := by
  have entries : q.columnNames.map q.variableOf = d.columns.toList.map Column.entry := by
    rw [h.columns, List.map_map]
    exact List.map_congr_left fun c _ => (q.entry_columnOf d.slotOf c).symm
  have first : (q.columnNames.map q.variableOf).find?
      (fun e => !Limits.isOrdered e.definition.lower e.definition.upper) =
        (d.columns.toList.find? (!·.isOrdered)).map Column.entry := by
    rw [entries, List.find?_map]
    rfl
  rw [finish_eq h.sound, h.objectiveName, free]
  unfold Content.meaning
  dsimp only
  rw [first, ← h.constraints, ← h.objective free, ← h.name, ← h.direction, entries]
  cases d.columns.toList.find? (!·.isOrdered) with
  | some c => rfl
  | none =>
    cases d.constraints.find? fun k => !Limits.isOrdered k.lower k.upper with
    | some k => rfl
    | none =>
      rw [← Array.toList_map, Array.toArray_toList]
      rfl

end Draft.Says

/-! ## Sections -/

namespace Problem

variable (p : Problem K L) {d : Draft K L}

theorem takes_sense {ls : List (List Char)} (lines : WrittenSense p.sense ls)
    (h : d.Says ⟨p.name, none, [], [], [], [], []⟩) (n : Nat) :
    ∃ d' : Draft K L, d.Takes .free n ls d' ∧ d'.Says ⟨p.name, p.sense, [], [], [], [], []⟩ := by
  obtain ⟨current, taken⟩ := Draft.takes_sense lines d n
  rw [h.direction] at taken
  exact ⟨_, taken, ⟨h.sound.keys, h.sound.objective, h.sound.rows, h.sound.columns, h.sound.places, h.sound.entries⟩,
    h.name, rfl, h.keys, h.objectiveName, h.objectiveConstant, h.rows, h.columns, h.block⟩

theorem takes_rows {ls : List (List Char)}
    (lines : WrittenSection rowsHeader (p.rows.map (·.fields)) ls)
    (h : d.Says ⟨p.name, p.sense, [], [], [], [], []⟩) (n : Nat) :
    ∃ d' : Draft K L, d.Takes .free n ls d' ∧ d'.Says ⟨p.name, p.sense, p.rows, [], [], [], []⟩ := by
  refine Draft.takes_section (motive := fun before d => d.Says ⟨p.name, p.sense, before, [], [], [], []⟩)
    lines (fun d n => d.line_header n (s := .rows) (by simp)) (by simp [RowStatement.fields])
    (fun d s h => h.current s) ?_ h n
  intro before s after all d n inside h
  have fresh : s.name.text ∉ before.map (·.name.text) := by
    have distinct := p.distinct
    rw [all, List.map_append, List.nodup_append] at distinct
    exact fun mem => distinct.2.2 _ mem _ (List.mem_cons_self ..) rfl
  have made := Draft.rowLine_statement n (h.keys ▸ fresh)
  refine ⟨_, ?_, ?_, h.row rfl rfl rfl fresh⟩
  · rw [Draft.dataLine, inside]
    exact made
  · obtain ⟨rows, slots, objectiveName, shape⟩ := d.declareRow_shape s.kind s.name.text
    rw [shape]
    exact inside

theorem takes_columns {ls : List (List Char)}
    (lines : WrittenSection columnsHeader (p.columns.map (·.fields)) ls)
    (h : d.Says ⟨p.name, p.sense, p.rows, [], [], [], []⟩) (n : Nat) :
    ∃ d' : Draft K L, d.Takes .free n ls d' ∧
      d'.Says ⟨p.name, p.sense, p.rows, p.columns, [], [], []⟩ := by
  refine Draft.takes_section
    (motive := fun before d => d.Says ⟨p.name, p.sense, p.rows, before, [], [], []⟩)
    lines (fun d n => d.line_header n (s := .columns) (by simp)) ?_ (fun d s h => h.current s) ?_ h n
  · intro s hs
    cases s <;> simp [ColumnStatement.fields]
  · intro before s after all d n inside h
    cases s with
    | marker label begins =>
      refine ⟨{ d with inIntegers := begins }, ?_, inside, h.marker label begins⟩
      refine Eq.trans ?_ (d.columnLine_marker_statement n label begins)
      rw [Draft.dataLine, inside]
    | entries column first second =>
      have known : ∀ r ∈ first :: second.toList, r.row.text ∈ p.rows.map (·.name.text) :=
        p.columnRows (.entries column first second) (by simp [all])
      have unmarked : first.row.text ≠ markerWord.text := by
        obtain ⟨r, hr, same⟩ := List.mem_map.mp (known first (List.mem_cons_self ..))
        exact same ▸ p.unmarked r hr
      refine ⟨_, ?_, ?_, h.entries rfl known⟩
      · rw [Draft.dataLine, inside]
        exact Draft.columnLine_entries_statement n column unmarked (h.keys ▸ known)
      · obtain ⟨columns, places, shape⟩ := d.addPairs_shape column.text (first :: second.toList)
        rw [shape]
        exact inside

theorem takes_rightHandSides {ls : List (List Char)}
    (lines : WrittenSection rightHandSidesHeader (p.rightHandSides.map (·.fields)) ls)
    (h : d.Says ⟨p.name, p.sense, p.rows, p.columns, [], [], []⟩) (n : Nat) :
    ∃ d' : Draft K L, d.Takes .free n ls d' ∧
      d'.Says ⟨p.name, p.sense, p.rows, p.columns, p.rightHandSides, [], []⟩ := by
  refine Draft.takes_section
    (motive := fun before d => d.Says ⟨p.name, p.sense, p.rows, p.columns, before, [], []⟩)
    lines (fun d n => d.line_header n (s := .rightHandSides) (by simp)) (fun s _ => s.fields_ne_nil)
    (fun d s h => h.current s) ?_ h n
  intro before s after all d n inside h
  have known := p.rightHandSideRows s (by simp [all])
  refine ⟨_, ?_, ?_, h.rightHandSide p.free known⟩
  · rw [Draft.dataLine, inside]
    exact Draft.pairLine_statement n Draft.slots_setRightHandSide (h.keys ▸ known)
  · obtain ⟨rows, constant, shape⟩ := Draft.foldl_setRightHandSide_shape d.slotOf s.pairs d
    rw [shape]
    exact inside

theorem takes_ranges {ls : List (List Char)}
    (lines : WrittenSection rangesHeader (p.ranges.map (·.fields)) ls)
    (h : d.Says ⟨p.name, p.sense, p.rows, p.columns, p.rightHandSides, [], []⟩) (n : Nat) :
    ∃ d' : Draft K L, d.Takes .free n ls d' ∧
      d'.Says ⟨p.name, p.sense, p.rows, p.columns, p.rightHandSides, p.ranges, []⟩ := by
  refine Draft.takes_section
    (motive := fun before d => d.Says ⟨p.name, p.sense, p.rows, p.columns, p.rightHandSides, before, []⟩)
    lines (fun d n => d.line_header n (s := .ranges) (by simp)) (fun s _ => s.fields_ne_nil)
    (fun d s h => h.current s) ?_ h n
  intro before s after all d n inside h
  have known := p.rangeRows s (by simp [all])
  refine ⟨_, ?_, ?_, h.range known⟩
  · rw [Draft.dataLine, inside]
    exact Draft.pairLine_statement n Draft.slots_setRange (h.keys ▸ known)
  · obtain ⟨rows, shape⟩ := Draft.foldl_setRange_shape d.slotOf s.pairs d
    rw [shape]
    exact inside

theorem takes_bounds {ls : List (List Char)}
    (lines : WrittenSection boundsHeader (p.bounds.map (·.fields)) ls)
    (h : d.Says ⟨p.name, p.sense, p.rows, p.columns, p.rightHandSides, p.ranges, []⟩) (n : Nat) :
    ∃ d' : Draft K L, d.Takes .free n ls d' ∧ d'.Says p.toContent := by
  refine Draft.takes_section
    (motive := fun before d =>
      d.Says ⟨p.name, p.sense, p.rows, p.columns, p.rightHandSides, p.ranges, before⟩)
    lines (fun d n => d.line_header n (s := .bounds) (by simp)) (by simp [BoundStatement.fields])
    (fun d s h => h.current s) ?_ h n
  intro before s after all d n inside h
  have known : s.column.text ∈ d.columns.toList.map (·.name) := by
    rw [h.names]
    exact p.boundColumns s (by simp [all])
  obtain ⟨i, c, found, here⟩ := h.sound.exists_place known
  refine ⟨{ d with columns := d.columns.setIfInBounds i (s.change.apply c) }, ?_, inside,
    h.bound found here⟩
  refine Eq.trans ?_ (Draft.boundLine_statement n found here)
  rw [Draft.dataLine, inside]

end Problem

/-- The draft that knows a name only. -/
theorem Draft.Says.start (name : List Char) :
    ({ (Draft.empty : Draft K L) with current := .name, name := .ofList (Text.trim name) }).Says
      ⟨name, none, [], [], [], [], []⟩ where
  sound := by
    have empty : (Draft.empty : Draft K L).Sound := .empty
    exact ⟨empty.keys, empty.objective, empty.rows, empty.columns, empty.places, empty.entries⟩
  name := rfl
  direction := rfl
  keys := rfl
  objectiveName := rfl
  objectiveConstant := rfl
  rows := rfl
  columns := rfl
  block := fun _ _ => rfl

/-- Reading the lines of a problem gives what the problem means. -/
theorem read_rendering (p : Problem K L) {text : String} (renders : p.Renders (Text.lines text.toList)) :
    read .free text = p.meaning p.objective := by
  unfold read
  generalize Text.lines text.toList = ls at renders
  obtain @⟨s, r, c, h, g, b, sense, rows, columns, rightHandSides, ranges, bounds⟩ := renders
  rw [readLines_cons, Draft.line_name]
  dsimp only
  obtain ⟨d, taken, stated⟩ := p.takes_sense sense (.start p.name) (0 + 1)
  rw [taken.readLines_append]
  generalize 0 + 1 + s.length = n
  obtain ⟨d, taken, stated⟩ := p.takes_rows rows stated n
  rw [taken.readLines_append]
  generalize n + r.length = n
  obtain ⟨d, taken, stated⟩ := p.takes_columns columns stated n
  rw [taken.readLines_append]
  generalize n + c.length = n
  obtain ⟨d, taken, stated⟩ := p.takes_rightHandSides rightHandSides stated n
  rw [taken.readLines_append]
  generalize n + h.length = n
  obtain ⟨d, taken, stated⟩ := p.takes_ranges ranges stated n
  rw [taken.readLines_append]
  generalize n + g.length = n
  obtain ⟨d, taken, stated⟩ := p.takes_bounds bounds stated n
  rw [taken.readLines_append, readLines_cons, d.line_end]
  exact stated.finish p.free

/-- A problem whose columns are named again and again, one of them in a block of integers. -/
def farm : Problem Unrounded Unrounded :=
  let profit : Word := ⟨"profit".toList, by decide, by decide⟩
  let land : Word := ⟨"land".toList, by decide, by decide⟩
  let spare : Word := ⟨"spare".toList, by decide, by decide⟩
  let wheat : Word := ⟨"wheat".toList, by decide, by decide⟩
  let barns : Word := ⟨"barns".toList, by decide, by decide⟩
  let one : Figure Unrounded := ⟨⟨"1".toList, by decide, by decide⟩, .finite 1, by decide +kernel⟩
  let half : Figure Unrounded := ⟨⟨"0.5".toList, by decide, by decide⟩, .finite (1 / 2), by decide +kernel⟩
  let less : Figure Unrounded := ⟨⟨"-2e1".toList, by decide, by decide⟩, .finite (-20), by decide +kernel⟩
  { name := "farm".toList
    sense := some ⟨⟨"max".toList, by decide, by decide⟩, .maximise, by decide, false⟩
    rows := [⟨none, profit⟩, ⟨some .less, land⟩, ⟨none, spare⟩]
    columns := [.entries wheat ⟨profit, one⟩ (some ⟨land, one⟩), .marker land true,
      .entries barns ⟨land, half⟩ none, .entries wheat ⟨land, half⟩ (some ⟨spare, one⟩)]
    rightHandSides := [⟨some land, ⟨land, one⟩, some ⟨profit, less⟩⟩, ⟨none, ⟨land, half⟩, none⟩]
    ranges := [⟨none, ⟨land, one⟩, none⟩]
    bounds := [⟨.upper less, none, wheat⟩, ⟨.noUpper, some land, wheat⟩]
    objective := "profit"
    distinct := by decide +kernel
    unmarked := by decide +kernel
    free := by decide +kernel
    columnRows := by decide +kernel
    rightHandSideRows := by decide +kernel
    rangeRows := by decide +kernel
    boundColumns := by decide +kernel }

def farmLines : List String :=
  ["NAME farm", "OBJSENSE", " max", "ROWS", " N profit", " L land", " N spare", "COLUMNS",
    " wheat profit 1 land 1", " land 'MARKER' 'INTORG'", " barns land 0.5", " wheat land 0.5 spare 1",
    "RHS", " land land 1 profit -2e1", " land 0.5", "RANGES", " land 1",
    "BOUNDS", " UP wheat -2e1", " PL land wheat", "ENDATA"]

def farmText : String := .ofList (Text.joined (farmLines.map String.toList))

theorem read_rendering_farm : farm.Renders (Text.lines farmText.toList) ∧
    read .free farmText = farm.meaning "profit" ∧ (farm.meaning "profit").isOk = true :=
  have lines : Text.lines farmText.toList = farm.lines := by
    rw [farmText, String.toList_ofList, Text.lines_joined (by decide +kernel)]
    decide +kernel
  have renders : farm.Renders (Text.lines farmText.toList) := lines ▸ farm.renders_lines
  ⟨renders, read_rendering farm renders, by decide +kernel⟩

end Milp.Mps
