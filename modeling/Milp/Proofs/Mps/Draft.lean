import Mathlib.Data.List.Nodup
import Milp.Proofs.Model
import Milp.Proofs.Mps.Lines

/-!
# What holds of drafts

Whatever the lines of a file say, the names in a draft lead to the rows and columns they name.
`Draft.Sound` says so, and every line keeps it.

Results:
1. `rowLine_ok`, `columnLine_ok`, `pairLine_ok`, `boundLine_ok`: what a line does that is accepted.
2. `Sound.line`: an accepted line keeps a draft sound.
3. `Takes.sound`, `Takes.keys`: after any lines the draft is sound, with one key for each row that
   they declare.
-/

namespace Milp.Mps

variable {K L : Type}

theorem ok_bind {ε α β : Type} (a : α) (f : α → Except ε β) : (Except.ok a >>= f) = f a := rfl

theorem bind_eq_ok {ε α β : Type} {x : Except ε α} {f : α → Except ε β} {b : β}
    (h : x >>= f = .ok b) : ∃ a, x = .ok a ∧ f a = .ok b := by
  cases x with
  | error e => cases h
  | ok a => exact ⟨a, rfl, h⟩

theorem map_eq_some {ε α : Type} {x : Except ε α} {a : α} (h : x.map some = .ok (some a)) :
    x = .ok a := by
  cases x with
  | error e => cases h
  | ok b => cases h; rfl

/-- A bound changes neither the name nor the entries of a column. -/
theorem Column.withBound?_same [Scalar K] [Limits L K] {c c' : Column K L} {kind : String}
    {value : Option L} (bounded : c.withBound? kind value = some c') :
    c'.name = c.name ∧ c'.entries = c.entries := by
  unfold Column.withBound? at bounded
  split at bounded <;> cases bounded <;> exact ⟨rfl, rfl⟩

namespace Draft

variable {d d' : Draft K L}

/-! ## Accepted lines -/

section Accepted

variable {n : Nat} {fields : List String} {change : Draft K L → RowSlot → K → Draft K L}

theorem header_ok {text : List Char} (accepted : d.header n text = .ok (some d')) :
    ∃ current name direction, d' = { d with current, name, direction } := by
  unfold header at accepted
  dsimp only at accepted
  split at accepted
  · cases accepted
    exact ⟨_, _, _, rfl⟩
  · split at accepted
    · cases accepted
      exact ⟨_, _, _, rfl⟩
    · obtain ⟨direction, -, accepted⟩ := bind_eq_ok accepted
      cases accepted
      exact ⟨_, _, _, rfl⟩
  all_goals cases accepted
  all_goals exact ⟨_, _, _, rfl⟩

theorem senseLine_ok (accepted : d.senseLine n fields = .ok d') :
    ∃ direction, d' = { d with direction } := by
  unfold senseLine at accepted
  split at accepted
  · obtain ⟨direction, -, accepted⟩ := bind_eq_ok accepted
    cases accepted
    exact ⟨direction, rfl⟩
  · cases accepted

theorem rowLine_ok [Scalar K] (accepted : d.rowLine n fields = .ok d') :
    ∃ word name kind, fields = [word, name] ∧ d.slots.lookup name = none ∧
      d' = d.declareRow kind name := by
  unfold rowLine at accepted
  split at accepted
  · rename_i word name
    obtain ⟨kind, -, accepted⟩ := bind_eq_ok accepted
    split at accepted
    · cases accepted
    · rename_i fresh
      cases accepted
      exact ⟨word, name, kind, rfl, by rwa [Option.not_isSome_iff_eq_none] at fresh, rfl⟩
  · cases accepted

theorem slot_ok {name : String} {slot : RowSlot} (found : d.slot n name = .ok slot) :
    d.slots.lookup name = some slot := by
  unfold Draft.slot at found
  split at found <;> cases found
  assumption

theorem number_ok {α : Type} [OfNumeral α] {field : String} {x : α}
    (read : (number n field : Except (Error L) α) = .ok x) : readNumber? field = some x := by
  unfold number at read
  split at read <;> cases read
  assumption

/-- What every change for a pair keeps, a line of pairs keeps. -/
theorem forPairs_induction [OfNumeral K] {motive : Draft K L → Prop}
    (step : ∀ (d : Draft K L) (p : String × String) (slot : RowSlot) (value : K),
      p ∈ pairs fields → readNumber? p.2 = some value → d.slots.lookup p.1 = some slot →
        motive d → motive (change d slot value))
    (start : motive d) (accepted : d.forPairs n fields change = .ok d') : motive d' := by
  unfold forPairs at accepted
  generalize pairs fields = ps at accepted step
  induction ps generalizing d with
  | nil =>
    cases accepted
    exact start
  | cons p ps ih =>
    obtain ⟨d₁, first, rest⟩ := bind_eq_ok accepted
    obtain ⟨value, read, first⟩ := bind_eq_ok first
    obtain ⟨slot, found, first⟩ := bind_eq_ok first
    cases first
    exact ih (step d p slot value (List.mem_cons_self ..) (number_ok read) (slot_ok found) start)
      rest fun d q slot value hq => step d q slot value (List.mem_cons_of_mem _ hq)

theorem pairLine_ok [OfNumeral K] (accepted : d.pairLine n fields change = .ok d') :
    d.forPairs n (withoutSetName fields) change = .ok d' := by
  unfold pairLine at accepted
  dsimp only at accepted
  split at accepted
  · cases accepted
  · exact accepted

variable [Scalar K] [Limits L K]

/-- Whether a marker begins a block of integers or ends one. -/
def marker (line : Nat) (word : String) : Except (Error L) Bool :=
  match word with
  | "'INTORG'" => .ok true
  | "'INTEND'" => .ok false
  | _ => .error (.format line (.invalidMarker word))

theorem columnLine_marker [OfNumeral K] (d : Draft K L) (n : Nat) (head word : String) :
    d.columnLine n [head, "'MARKER'", word] =
      (marker n word).map fun inside => { d with inIntegers := inside } := by
  unfold marker
  show (match word with | "'INTORG'" => _ | "'INTEND'" => _ | _ => _) = _
  split <;> rfl

theorem columnLine_column [OfNumeral K] {name : String} {rest : List String}
    (other : ∀ word, rest ≠ ["'MARKER'", word]) :
    d.columnLine n (name :: rest) =
      if rest.length = 2 ∨ rest.length = 4 then
        (d.column name).1.forPairs n rest
          fun e slot value => e.addCoefficient (d.column name).2 slot value
      else .error (.format n .columnFields) := by
  unfold columnLine
  split
  · rename_i marker
    cases marker
    exact absurd rfl (other _)
  · rename_i same
    cases same
    rfl
  · contradiction

theorem columnLine_ok [OfNumeral K] (accepted : d.columnLine n fields = .ok d') :
    (∃ inside, d' = { d with inIntegers := inside }) ∨
      ∃ name rest, fields = name :: rest ∧ (d.column name).1.forPairs n rest
        (fun e slot value => e.addCoefficient (d.column name).2 slot value) = .ok d' := by
  unfold columnLine at accepted
  split at accepted
  · split at accepted <;> cases accepted
    · exact .inl ⟨true, rfl⟩
    · exact .inl ⟨false, rfl⟩
  · split at accepted
    · exact .inr ⟨_, _, rfl, accepted⟩
    · cases accepted
  · cases accepted

/-- A line of bounds is accepted where it names a column that takes the bound. -/
theorem boundLine_eq_ok [OfNumeral L] {word : String} {rest : List String} :
    d.boundLine n (word :: rest) = .ok d' ↔
      ∃ (name : String) (field : Option String) (value : Option L) (i : Nat) (c c' : Column K L),
        (boundFields n (Text.capitals word) rest : Except (Error L) _) = .ok (name, field) ∧
        d.places.lookup name = some i ∧
        (field.mapM (number n) : Except (Error L) (Option L)) = .ok value ∧
        d.columns[i]? = some c ∧ c.withBound? (Text.capitals word) value = some c' ∧
        d' = { d with columns := d.columns.setIfInBounds i c' } := by
  constructor
  · intro accepted
    obtain ⟨⟨name, field⟩, parts, accepted⟩ := bind_eq_ok accepted
    dsimp only at accepted
    split at accepted
    · cases accepted
    · rename_i i found
      obtain ⟨value, read, accepted⟩ := bind_eq_ok accepted
      split at accepted
      · rename_i c' bounded
        cases accepted
        obtain ⟨c, here, bounded⟩ := Option.bind_eq_some_iff.mp bounded
        exact ⟨name, field, value, i, c, c', parts, found, read, here, bounded, rfl⟩
      · cases accepted
  · rintro ⟨name, field, value, i, c, c', parts, found, read, here, bounded, rfl⟩
    unfold boundLine
    dsimp only
    rw [parts, ok_bind]
    dsimp only
    rw [found]
    dsimp only
    rw [read, ok_bind, here, Option.bind_some, bounded]
    rfl

theorem boundLine_ok [OfNumeral L] (accepted : d.boundLine n fields = .ok d') :
    ∃ (i : Nat) (c c' : Column K L), d.columns[i]? = some c ∧ c'.name = c.name ∧
      c'.entries = c.entries ∧ d' = { d with columns := d.columns.setIfInBounds i c' } := by
  cases fields with
  | nil => cases accepted
  | cons word rest =>
    obtain ⟨_, _, _, i, c, c', -, -, -, here, bounded, rfl⟩ := boundLine_eq_ok.mp accepted
    obtain ⟨name, entries⟩ := Column.withBound?_same bounded
    exact ⟨i, c, c', here, name, entries, rfl⟩

end Accepted

/-! ## Names and places -/

/-- The names in a draft lead to what they name: keys to rows and names to columns, one to one and each
once, and entries to rows. -/
structure Sound (d : Draft K L) : Prop where
  keys : (d.slots.map (·.1)).Nodup
  objective : ∀ name, d.slots.lookup name = some .objective ↔ d.objectiveName = some name
  rows : ∀ name i,
    d.slots.lookup name = some (.constraint i) ↔ (d.rows.map (·.name))[i]? = some name
  columns : ∀ name i, d.places.lookup name = some i ↔ (d.columns.map (·.name))[i]? = some name
  places : (d.places.map (·.1)).Nodup
  entries : ∀ c ∈ d.columns, ∀ t ∈ c.entries, t.1 < d.rows.size

namespace Sound

theorem empty [Scalar K] : (Draft.empty : Draft K L).Sound where
  keys := List.nodup_nil
  objective := by simp [Draft.empty]
  rows := by simp [Draft.empty]
  columns := by simp [Draft.empty]
  places := List.nodup_nil
  entries := by simp [Draft.empty]

/-- Only names and entries matter. -/
theorem of_names (h : d.Sound) (slots : d'.slots = d.slots)
    (objective : d'.objectiveName = d.objectiveName)
    (rows : d'.rows.map (·.name) = d.rows.map (·.name))
    (columns : d'.columns.map (·.name) = d.columns.map (·.name)) (places : d'.places = d.places)
    (entries : ∀ c ∈ d'.columns, ∀ t ∈ c.entries, t.1 < d.rows.size) : d'.Sound where
  keys := slots ▸ h.keys
  objective := by rw [slots, objective]; exact h.objective
  rows := by rw [slots, rows]; exact h.rows
  columns := by rw [places, columns]; exact h.columns
  places := places ▸ h.places
  entries := by
    have size : d'.rows.size = d.rows.size := by simpa using congrArg Array.size rows
    exact size ▸ entries

/-- The row of a slot is there. -/
theorem inside (h : d.Sound) {name : String} {i : Nat}
    (found : d.slots.lookup name = some (.constraint i)) : i < d.rows.size := by
  have here := (h.rows name i).mp found
  obtain ⟨inside, -⟩ := Array.getElem?_eq_some_iff.mp here
  simpa using inside

/-- The column of a place is there. -/
theorem place_inside (h : d.Sound) {name : String} {i : Nat}
    (found : d.places.lookup name = some i) : i < d.columns.size := by
  have here := (h.columns name i).mp found
  obtain ⟨inside, -⟩ := Array.getElem?_eq_some_iff.mp here
  simpa using inside

/-! ## Rows -/

theorem declareRow [Scalar K] (h : d.Sound) {name : String} (fresh : d.slots.lookup name = none)
    (kind : Option RowKind) : (d.declareRow kind name).Sound := by
  have keys (slot : RowSlot) := nodup_declared h.keys fresh slot
  cases kind with
  | some kind =>
    refine ⟨keys _, fun other => ?_, fun other i => ?_, h.columns, h.places, fun c hc t ht => ?_⟩
    · refine (lookup_declared fresh _ other _).trans ?_
      show _ ↔ d.objectiveName = some other
      rw [h.objective]
      simp
    · refine (lookup_declared fresh _ other _).trans ?_
      show _ ↔ ((d.rows.push _).map _)[i]? = _
      rw [h.rows, Array.map_push, Array.getElem?_push, Array.size_map]
      split
      · rename_i last
        simp [last, eq_comm]
      · rename_i before
        simp [Ne.symm before]
    · show t.1 < (d.rows.push _).size
      rw [Array.size_push]
      exact (h.entries c hc t ht).trans (Nat.lt_succ_self _)
  | none =>
    unfold Draft.declareRow
    dsimp only
    split
    · rename_i first
      refine ⟨keys _, fun other => ?_, fun other i => ?_, h.columns, h.places, h.entries⟩
      · rw [lookup_declared fresh, h.objective, Option.isNone_iff_eq_none.mp first]
        simp [eq_comm]
      · rw [lookup_declared fresh, h.rows]
        simp
    · refine ⟨keys _, fun other => ?_, fun other i => ?_, h.columns, h.places, h.entries⟩
      · rw [lookup_declared fresh, h.objective]
        simp
      · rw [lookup_declared fresh, h.rows]
        simp

theorem setRow (h : d.Sound) (i : Nat) {f : Row K → Row K} (name : ∀ r, (f r).name = r.name) :
    ({ d with rows := d.rows.modify i f } : Draft K L).Sound := by
  refine h.of_names rfl rfl ?_ rfl rfl h.entries
  refine Array.ext (by simp) fun j hj hj' => ?_
  rw [Array.getElem_map, Array.getElem_map, Array.getElem_modify]
  split
  · exact name _
  · rfl

/-! ## Columns -/

theorem column [Scalar K] [Limits L K] (h : d.Sound) (name : String) :
    (d.column name).1.Sound := by
  unfold Draft.column
  split
  · exact h
  · rename_i fresh
    refine ⟨h.keys, h.objective, h.rows, fun other i => ?_, nodup_declared h.places fresh _,
      fun c hc t ht => ?_⟩
    · refine (lookup_declared fresh _ other i).trans ?_
      show _ ↔ ((d.columns.push _).map _)[i]? = _
      rw [h.columns, Array.map_push, Array.getElem?_push, Array.size_map]
      split
      · rename_i last
        simp [last, eq_comm]
      · rename_i before
        simp [Ne.symm before]
    · rcases Array.mem_push.mp hc with hc | rfl
      · exact h.entries c hc t ht
      · simp at ht

/-- A column may be replaced by one of its name, with entries that refer to rows. -/
theorem setColumn (h : d.Sound) {i : Nat} {c c' : Column K L} (here : d.columns[i]? = some c)
    (name : c'.name = c.name) (entries : ∀ t ∈ c'.entries, t.1 < d.rows.size) :
    ({ d with columns := d.columns.setIfInBounds i c' } : Draft K L).Sound := by
  refine h.of_names rfl rfl rfl ?_ rfl fun b hb => ?_
  · obtain ⟨inside, rfl⟩ := Array.getElem?_eq_some_iff.mp here
    refine Array.ext (by simp) fun j hj hj' => ?_
    rw [Array.getElem_map, Array.getElem_map, Array.getElem_setIfInBounds]
    split
    · rename_i same
      subst same
      exact name
    · rfl
  · rcases Array.mem_or_eq_of_mem_setIfInBounds hb with hb | rfl
    · exact h.entries b hb
    · exact entries

theorem modifyColumn (h : d.Sound) (i : Nat) {f : Column K L → Column K L}
    (name : ∀ c, (f c).name = c.name)
    (entries : ∀ c ∈ d.columns, ∀ t ∈ (f c).entries, t.1 < d.rows.size) :
    ({ d with columns := d.columns.modify i f } : Draft K L).Sound := by
  refine h.of_names rfl rfl rfl ?_ rfl fun b hb => ?_
  · refine Array.ext (by simp) fun j hj hj' => ?_
    rw [Array.getElem_map, Array.getElem_map, Array.getElem_modify]
    split
    · exact name _
    · rfl
  · obtain ⟨j, hj, rfl⟩ := Array.mem_iff_getElem.mp hb
    rw [Array.getElem_modify]
    split
    · exact entries _ (Array.getElem_mem _)
    · exact h.entries _ (Array.getElem_mem _)

theorem addCoefficient [Scalar K] (h : d.Sound) {name : String} {slot : RowSlot}
    (found : d.slots.lookup name = some slot) (i : Nat) (value : K) :
    (d.addCoefficient i slot value).Sound := by
  unfold Draft.addCoefficient
  split
  · exact h.modifyColumn i (fun _ => rfl) h.entries
  · exact h
  · refine h.modifyColumn i (fun _ => rfl) fun c hc t ht => ?_
    rcases List.mem_append.mp ht with ht | ht
    · exact h.entries c hc t ht
    · rw [List.mem_singleton.mp ht]
      exact h.inside found

/-! ## Lines -/

theorem columnLine [Scalar K] [Limits L K] [OfNumeral K] {n : Nat} {fields : List String}
    (h : d.Sound) (accepted : d.columnLine n fields = .ok d') : d'.Sound := by
  rcases columnLine_ok accepted with ⟨inside, rfl⟩ | ⟨name, rest, -, accepted⟩
  · exact ⟨h.keys, h.objective, h.rows, h.columns, h.places, h.entries⟩
  · exact forPairs_induction (fun _ _ _ value _ _ found h => h.addCoefficient found _ value)
      (h.column name) accepted

theorem setRightHandSide [Scalar K] (h : d.Sound) (slot : RowSlot) (value : K) :
    (d.setRightHandSide slot value).Sound := by
  cases slot with
  | objective => exact ⟨h.keys, h.objective, h.rows, h.columns, h.places, h.entries⟩
  | ignored => exact h
  | constraint i => exact h.setRow i fun _ => rfl

theorem setRange (h : d.Sound) (slot : RowSlot) (value : K) : (d.setRange slot value).Sound := by
  cases slot with
  | objective => exact h
  | ignored => exact h
  | constraint i => exact h.setRow i fun _ => rfl

theorem pairLine [OfNumeral K] {n : Nat} {fields : List String}
    {change : Draft K L → RowSlot → K → Draft K L} (h : d.Sound)
    (keeps : ∀ (d : Draft K L) (slot : RowSlot) (value : K), d.Sound → (change d slot value).Sound)
    (accepted : d.pairLine n fields change = .ok d') : d'.Sound :=
  forPairs_induction (fun d _ slot value _ _ _ h => keeps d slot value h) h (pairLine_ok accepted)

theorem boundLine [Scalar K] [Limits L K] [OfNumeral L] {n : Nat} {fields : List String}
    (h : d.Sound) (accepted : d.boundLine n fields = .ok d') : d'.Sound := by
  obtain ⟨i, c, c', here, name, entries, rfl⟩ := boundLine_ok accepted
  refine h.setColumn here name fun t ht => ?_
  rw [entries] at ht
  exact h.entries c (Array.mem_of_getElem? here) t ht

variable [Scalar K] [Limits L K] [OfNumeral K] [OfNumeral L]

theorem dataLine {n : Nat} {fields : List String} (h : d.Sound)
    (accepted : d.dataLine n fields = .ok d') : d'.Sound := by
  unfold Draft.dataLine at accepted
  split at accepted
  · cases accepted
  · cases accepted
  · obtain ⟨direction, rfl⟩ := senseLine_ok accepted
    exact ⟨h.keys, h.objective, h.rows, h.columns, h.places, h.entries⟩
  · obtain ⟨word, name, kind, -, fresh, rfl⟩ := rowLine_ok accepted
    exact h.declareRow fresh kind
  · exact h.columnLine accepted
  · exact h.pairLine (fun _ slot value h => h.setRightHandSide slot value) accepted
  · exact h.pairLine (fun _ slot value h => h.setRange slot value) accepted
  · exact h.boundLine accepted

omit [Scalar K] [Limits L K] [OfNumeral K] [OfNumeral L] in
theorem header {n : Nat} {text : List Char} (h : d.Sound)
    (accepted : d.header n text = .ok (some d')) : d'.Sound := by
  obtain ⟨current, name, direction, rfl⟩ := header_ok accepted
  exact ⟨h.keys, h.objective, h.rows, h.columns, h.places, h.entries⟩

/-- An accepted line keeps a draft sound. -/
theorem line {format : Format} {n : Nat} {raw : List Char} (h : d.Sound)
    (accepted : d.line format n raw = .ok (some d')) : d'.Sound := by
  have kind := d.line_kind format n raw
  rw [accepted] at kind
  generalize dataFields? format raw = fields?, made : Except.ok (some d') = r at kind
  cases kind with
  | skipped => cases made; exact h
  | header => exact h.header made.symm
  | data fields => exact h.dataLine (map_eq_some made.symm)

end Sound

/-! ## Keys and declared rows -/

/-- The row that a line declares, if it declares one. -/
def declares? (d : Draft K L) (format : Format) (raw : List Char) : Option String :=
  if d.current = .rows then
    match dataFields? format raw with
    | some [_, name] => some name
    | _ => none
  else none

/-- The keys of a draft, in the order of the file. -/
def keys (d : Draft K L) : List String := d.slots.map (·.1)

section Keys

variable {n : Nat} {fields : List String}

theorem slots_forPairs [OfNumeral K] {change : Draft K L → RowSlot → K → Draft K L}
    (keeps : ∀ (d : Draft K L) (slot : RowSlot) (value : K), (change d slot value).slots = d.slots)
    (accepted : d.forPairs n fields change = .ok d') : d'.slots = d.slots :=
  forPairs_induction (motive := fun e => e.slots = d.slots)
    (fun e _ slot value _ _ _ same => (keeps e slot value).trans same) rfl accepted

theorem slots_addCoefficient [Scalar K] (d : Draft K L) (i : Nat) (slot : RowSlot) (value : K) :
    (d.addCoefficient i slot value).slots = d.slots := by
  cases slot <;> rfl

theorem slots_setRightHandSide [Scalar K] (d : Draft K L) (slot : RowSlot) (value : K) :
    (d.setRightHandSide slot value).slots = d.slots := by
  cases slot <;> rfl

theorem slots_setRange (d : Draft K L) (slot : RowSlot) (value : K) :
    (d.setRange slot value).slots = d.slots := by
  cases slot <;> rfl

theorem keys_declareRow [Scalar K] (d : Draft K L) (kind : Option RowKind) (name : String) :
    (d.declareRow kind name).keys = d.keys ++ [name] := by
  unfold declareRow keys
  cases kind with
  | some kind => simp
  | none =>
    dsimp only
    split <;> simp

variable [Scalar K] [Limits L K]

theorem slots_column (d : Draft K L) (name : String) : (d.column name).1.slots = d.slots := by
  unfold column
  split <;> rfl

variable [OfNumeral K] [OfNumeral L]

/-- Only the section of rows declares rows. -/
theorem slots_dataLine (elsewhere : d.current ≠ .rows) (accepted : d.dataLine n fields = .ok d') :
    d'.slots = d.slots := by
  unfold dataLine at accepted
  split at accepted
  · cases accepted
  · cases accepted
  · obtain ⟨direction, rfl⟩ := senseLine_ok accepted
    rfl
  · rename_i rows
    exact absurd rows elsewhere
  · rcases columnLine_ok accepted with ⟨inside, rfl⟩ | ⟨name, rest, -, accepted⟩
    · rfl
    · exact (slots_forPairs (fun d => d.slots_addCoefficient _) accepted).trans (d.slots_column name)
  · exact slots_forPairs slots_setRightHandSide (pairLine_ok accepted)
  · exact slots_forPairs slots_setRange (pairLine_ok accepted)
  · obtain ⟨i, c, c', -, -, -, rfl⟩ := boundLine_ok accepted
    rfl

/-- An accepted line adds the key of the row that it declares, and no other. -/
theorem keys_line {format : Format} {raw : List Char}
    (accepted : d.line format n raw = .ok (some d')) :
    d'.keys = d.keys ++ (d.declares? format raw).toList := by
  have kind := d.line_kind format n raw
  unfold declares?
  rw [accepted] at kind
  generalize dataFields? format raw = fields?, made : Except.ok (some d') = r at kind ⊢
  cases kind with
  | skipped =>
    cases made
    simp
  | header =>
    obtain ⟨current, name, direction, rfl⟩ := header_ok made.symm
    simp [keys]
  | data fields =>
    have accepted := map_eq_some made.symm
    by_cases rows : d.current = .rows
    · rw [dataLine, rows] at accepted
      obtain ⟨word, name, kind, rfl, -, rfl⟩ := rowLine_ok accepted
      rw [keys_declareRow]
      simp [rows]
    · have same := slots_dataLine rows accepted
      simp [keys, same, rows]

end Keys

section Takes

variable [Scalar K] [Limits L K] [OfNumeral K] [OfNumeral L]

/-- The rows that lines declare, in the order of the file. -/
def declared (format : Format) : Draft K L → Nat → List (List Char) → List String
  | _, _, [] => []
  | d, before, raw :: rest =>
    match d.line format (before + 1) raw with
    | .ok (some d') => (d.declares? format raw).toList ++ declared format d' (before + 1) rest
    | _ => []

variable {format : Format} {before : Nat} {ls : List (List Char)}

/-- Whatever the lines, the draft is sound after them. -/
theorem Takes.sound (takes : d.Takes format before ls d') (h : d.Sound) : d'.Sound := by
  induction takes with
  | nil => exact h
  | cons first _ ih => exact ih (h.line first)

/-- There is one key for each row that was declared. -/
theorem Takes.keys (takes : d.Takes format before ls d') :
    d'.keys = d.keys ++ d.declared format before ls := by
  induction takes with
  | nil => simp [declared]
  | cons first _ ih =>
    rw [ih, keys_line first, declared, first, List.append_assoc]

end Takes

end Draft

end Milp.Mps
