import Milp.Proofs.Mps.Finish
import Milp.Proofs.Mps.Statements

/-!
# Drafts that say what was stated so far

`Draft.Says` is what a draft holds after some statements, in closed form: for every row the last of
its right-hand sides, for every column the sums of its coefficients, and so on.

Results:
1. `toList_modify`, `Sound.modifyRow_eq`, `Sound.modifyColumn_eq`: a change at a place is a change for
   a name.
2. `Says.row`, `Says.marker`, `Says.entries`, `Says.rightHandSide`, `Says.range`, `Says.bound`: each
   statement adds to what the draft says.
-/

namespace Milp.Mps

variable {K L : Type}

/-- A change at the place of a name is a change of what has the name. -/
theorem toList_modify {α : Type} {xs : Array α} {name : α → String} {n : String} {i : Nat}
    (place : ∀ j x, xs[j]? = some x → (name x = n ↔ j = i)) (f : α → α) :
    (xs.modify i f).toList = xs.toList.map fun x => if name x = n then f x else x := by
  refine List.ext_getElem (by simp) fun j hj hj' => ?_
  have inside : j < xs.size := by simpa using hj
  have here := place j xs[j] (Array.getElem?_eq_getElem inside)
  rw [Array.getElem_toList, Array.getElem_modify, List.getElem_map, Array.getElem_toList]
  simp only [here, eq_comm]

theorem modify_same {α : Type} (xs : Array α) (i : Nat) {f : α → α} (same : ∀ x, f x = x) :
    xs.modify i f = xs := by
  refine Array.ext (by simp) fun j hj hj' => ?_
  rw [Array.getElem_modify, same, ite_self]

theorem modify_modify {α : Type} (xs : Array α) (i : Nat) (f g : α → α) :
    (xs.modify i f).modify i g = xs.modify i fun x => g (f x) := by
  refine Array.ext (by simp) fun j hj hj' => ?_
  simp only [Array.getElem_modify]
  split <;> rfl

theorem setIfInBounds_eq_modify {α : Type} {xs : Array α} {i : Nat} {x : α} (here : xs[i]? = some x)
    (f : α → α) : xs.setIfInBounds i (f x) = xs.modify i f := by
  obtain ⟨inside, rfl⟩ := Array.getElem?_eq_some_iff.mp here
  refine Array.ext (by simp) fun j hj hj' => ?_
  rw [Array.getElem_setIfInBounds, Array.getElem_modify]
  split
  · rename_i same
    subst same
    rfl
  · rfl

/-! ## Changes of rows and columns -/

/-- A column that appears first. -/
def Column.new [Scalar K] [Limits L K] (name : String) (integer : Bool) : Column K L where
  name
  integer
  binary := false
  objective := 0
  entries := []
  lower := Limits.ofScalar 0
  upper := Limits.above

namespace Draft

variable {d : Draft K L}

theorem declareRow_shape [Scalar K] (d : Draft K L) (kind : Option RowKind) (name : String) :
    ∃ rows slots objectiveName,
      d.declareRow kind name = { d with rows, slots, objectiveName } := by
  unfold declareRow
  cases kind with
  | some kind => exact ⟨_, _, _, rfl⟩
  | none =>
    dsimp only
    split <;> exact ⟨_, _, _, rfl⟩

theorem rows_declareRow [Scalar K] (d : Draft K L) (kind : Option RowKind) (name : String) :
    (d.declareRow kind name).rows.toList =
      d.rows.toList ++ (kind.map fun k => (⟨name, k, 0, none⟩ : Row K)).toList := by
  unfold declareRow
  cases kind with
  | some kind => exact Array.toList_push ..
  | none =>
    dsimp only
    split <;> simp

theorem objectiveName_declareRow [Scalar K] (d : Draft K L) (kind : Option RowKind) (name : String) :
    (d.declareRow kind name).objectiveName =
      d.objectiveName.or (if kind.isNone then some name else none) := by
  unfold declareRow
  cases kind with
  | some kind => simp
  | none => cases first : d.objectiveName <;> simp [first]

/-- Rows with the one of a slot changed. -/
def modifyRow (d : Draft K L) (slot : RowSlot) (f : Row K → Row K) : Array (Row K) :=
  match slot with
  | .constraint i => d.rows.modify i f
  | _ => d.rows

theorem rows_setRightHandSide [Scalar K] (d : Draft K L) (slot : RowSlot) (x : K) :
    (d.setRightHandSide slot x).rows = d.modifyRow slot fun r => { r with rightHandSide := x } := by
  cases slot <;> rfl

theorem rows_setRange (d : Draft K L) (slot : RowSlot) (x : K) :
    (d.setRange slot x).rows = d.modifyRow slot fun r => { r with range := some x } := by
  cases slot <;> rfl

theorem Sound.modifyRow_eq (h : d.Sound) {name : String} {slot : RowSlot}
    (found : d.slots.lookup name = some slot) (f : Row K → Row K) :
    (d.modifyRow slot f).toList = d.rows.toList.map fun r => if r.name = name then f r else r := by
  have place (j : Nat) (r : Row K) (here : d.rows[j]? = some r) :
      r.name = name ↔ slot = .constraint j := by
    have names := h.rows r.name j
    rw [Array.getElem?_map, here] at names
    have named : d.slots.lookup r.name = some (.constraint j) := names.mpr rfl
    constructor
    · intro same
      rw [same] at named
      exact Option.some.inj (found.symm.trans named)
    · rintro rfl
      have other := (h.rows name j).mp found
      rw [Array.getElem?_map, here] at other
      exact Option.some.inj other
  have unchanged (none : ∀ j, slot ≠ .constraint j) :
      d.rows.toList = d.rows.toList.map fun r => if r.name = name then f r else r := by
    refine (List.map_id _).symm.trans (List.map_congr_left fun r hr => ?_)
    obtain ⟨j, hj, rfl⟩ := List.getElem_of_mem hr
    have here : d.rows[j]? = some d.rows.toList[j] := by
      rw [← Array.getElem?_toList]
      exact List.getElem?_eq_getElem hj
    rw [if_neg fun same => none j ((place j _ here).mp same)]
    rfl
  cases slot with
  | objective => exact unchanged (by simp)
  | ignored => exact unchanged (by simp)
  | constraint i =>
    refine toList_modify (fun j r here => ?_) f
    rw [place j r here]
    exact ⟨fun same => (RowSlot.constraint.inj same).symm, fun same => same ▸ rfl⟩

theorem Sound.modifyColumn_eq (h : d.Sound) {name : String} {i : Nat}
    (found : d.places.lookup name = some i) (f : Column K L → Column K L) :
    (d.columns.modify i f).toList =
      d.columns.toList.map fun c => if c.name = name then f c else c := by
  refine toList_modify (fun j c here => ?_) f
  have names := h.columns c.name j
  rw [Array.getElem?_map, here] at names
  have named := names.mpr rfl
  constructor
  · intro same
    rw [same, found] at named
    exact (Option.some.inj named).symm
  · rintro rfl
    have other := (h.columns name j).mp found
    rw [Array.getElem?_map, here] at other
    exact Option.some.inj other

/-- The draft with a column of a name has it at the place that it gives. -/
theorem Sound.place_column [Scalar K] [Limits L K] (h : d.Sound) (name : String) :
    (d.column name).1.places.lookup name = some (d.column name).2 := by
  rw [(h.column name).columns]
  unfold Draft.column
  cases found : d.places.lookup name with
  | some i => exact (h.columns name i).mp found
  | none =>
    show ((d.columns.push _).map _)[d.columns.size]? = _
    rw [Array.map_push, Array.getElem?_push, Array.size_map, if_pos rfl]

theorem Sound.exists_place (h : d.Sound) {name : String} (known : name ∈ d.columns.toList.map (·.name)) :
    ∃ i c, d.places.lookup name = some i ∧ d.columns[i]? = some c := by
  obtain ⟨i, inside, here⟩ := List.getElem_of_mem known
  have inside : i < d.columns.size := by simpa using inside
  refine ⟨i, d.columns[i], (h.columns name i).mpr ?_, Array.getElem?_eq_getElem inside⟩
  rw [Array.getElem?_map, Array.getElem?_eq_getElem inside]
  simpa using here

theorem Sound.columns_column [Scalar K] [Limits L K] (h : d.Sound) (name : String) :
    (d.column name).1.columns.toList = d.columns.toList ++
      if name ∈ d.columns.toList.map (·.name) then [] else [Column.new name d.inIntegers] := by
  unfold Draft.column
  cases found : d.places.lookup name with
  | some i =>
    have here : name ∈ d.columns.map (·.name) := Array.mem_of_getElem? ((h.columns name i).mp found)
    rw [if_pos (by simpa using here), List.append_nil]
  | none =>
    have absent : name ∉ d.columns.toList.map (·.name) := fun known => by
      obtain ⟨i, c, here, -⟩ := h.exists_place known
      cases found.symm.trans here
    rw [if_neg absent]
    exact Array.toList_push ..

end Draft

/-! ## Several pairs -/

section Pairs

variable [OfNumeral K]

theorem numbersOf_cons (p : Pair K) (ps : List (Pair K)) (row : String) :
    numbersOf (p :: ps) row =
      if p.row.text = row then p.figure.value :: numbersOf ps row else numbersOf ps row := by
  unfold numbersOf
  rw [List.filter_cons]
  by_cases here : p.row.text = row <;> simp [here]

theorem numbersOf_append (ps rs : List (Pair K)) (row : String) :
    numbersOf (ps ++ rs) row = numbersOf ps row ++ numbersOf rs row := by
  simp [numbersOf]

/-- The column with pairs added, given what the rows stand for. -/
def Column.addPairs [Scalar K] (slotOf : String → RowSlot) (ps : List (Pair K)) (c : Column K L) : Column K L :=
  { c with
    objective := ((ps.filter fun p => slotOf p.row.text = .objective).map (·.figure.value)).foldl
      (· + ·) c.objective
    entries := c.entries ++ ps.filterMap fun p =>
      match slotOf p.row.text with
      | .constraint i => some (i, p.figure.value)
      | _ => none }

theorem Column.addPairs_cons [Scalar K] (slotOf : String → RowSlot) (p : Pair K) (ps : List (Pair K))
    (c : Column K L) : c.addPairs slotOf (p :: ps) = (c.addPairs slotOf [p]).addPairs slotOf ps := by
  unfold addPairs
  cases here : slotOf p.row.text <;> simp [here]

theorem Column.addPairs_append [Scalar K] (slotOf : String → RowSlot) (ps rs : List (Pair K))
    (c : Column K L) : c.addPairs slotOf (ps ++ rs) = (c.addPairs slotOf ps).addPairs slotOf rs := by
  simp [addPairs]

namespace Draft

variable {d : Draft K L}

theorem foldl_addCoefficient [Scalar K] (d : Draft K L) (i : Nat) (slotOf : String → RowSlot)
    (ps : List (Pair K)) :
    ps.foldl (fun e p => e.addCoefficient i (slotOf p.row.text) p.figure.value) d =
      { d with columns := d.columns.modify i fun c => c.addPairs slotOf ps } := by
  induction ps generalizing d with
  | nil => rw [modify_same _ _ fun c => by simp [Column.addPairs], List.foldl_nil]
  | cons p ps ih =>
    have first : d.addCoefficient i (slotOf p.row.text) p.figure.value =
        { d with columns := d.columns.modify i fun c => c.addPairs slotOf [p] } := by
      cases here : slotOf p.row.text with
      | objective => simp [addCoefficient, Column.addPairs, here]
      | constraint row => simp [addCoefficient, Column.addPairs, here]
      | ignored => rw [modify_same _ _ fun c => by simp [Column.addPairs, here]]; rfl
    rw [List.foldl_cons, first, ih, modify_modify]
    congr 2
    funext c
    exact (c.addPairs_cons slotOf p ps).symm

theorem addPairs_shape [Scalar K] [Limits L K] (d : Draft K L) (column : String) (ps : List (Pair K)) :
    ∃ columns places, d.addPairs column ps = { d with columns, places } := by
  unfold addPairs Draft.column
  rw [foldl_addCoefficient]
  split <;> exact ⟨_, _, rfl⟩

/-- Pairs of known rows keep a draft sound. -/
theorem Sound.addPairs [Scalar K] [Limits L K] (h : d.Sound) (column : String) (ps : List (Pair K))
    (known : ∀ p ∈ ps, p.row.text ∈ d.keys) : (d.addPairs column ps).Sound := by
  unfold Draft.addPairs
  refine (List.foldlRecOn (motive := fun e : Draft K L => e.Sound ∧ e.slots = d.slots) ps _
    ⟨h.column column, d.slots_column column⟩ fun e ⟨sound, same⟩ p hp => ?_).1
  have found : e.slots.lookup p.row.text = some (d.slotOf p.row.text) := by
    rw [same]
    exact lookup_of_mem_keys (known p hp)
  exact ⟨sound.addCoefficient found _ _, (e.slots_addCoefficient _ _ _).trans same⟩

/-- Numbers for rows are put into the rows that have their names, one after the other. -/
theorem rows_foldl (h : d.Sound) (change : Draft K L → RowSlot → K → Draft K L)
    (set : K → Row K → Row K) (name : ∀ x r, (set x r).name = r.name)
    (rows : ∀ (d : Draft K L) slot x, (change d slot x).rows = d.modifyRow slot (set x))
    (slots : ∀ (d : Draft K L) slot x, (change d slot x).slots = d.slots)
    (sound : ∀ (d : Draft K L) slot x, d.Sound → (change d slot x).Sound)
    (ps : List (Pair K)) (known : ∀ p ∈ ps, p.row.text ∈ d.keys) :
    (ps.foldl (fun e p => change e (d.slotOf p.row.text) p.figure.value) d).rows.toList =
      d.rows.toList.map fun r => (numbersOf ps r.name).foldl (fun r x => set x r) r := by
  induction ps generalizing d with
  | nil => simp [numbersOf]
  | cons p ps ih =>
    let next := change d (d.slotOf p.row.text) p.figure.value
    have same : next.slotOf = d.slotOf := by
      funext name
      rw [slotOf, slotOf, slots]
    have others := ih (sound d _ _ h : next.Sound) fun q hq => by
      rw [keys, slots]
      exact known q (List.mem_cons_of_mem _ hq)
    rw [same] at others
    rw [List.foldl_cons, others, rows,
      h.modifyRow_eq (lookup_of_mem_keys (known p (List.mem_cons_self ..))), List.map_map]
    refine List.map_congr_left fun r _ => ?_
    rw [Function.comp_apply, numbersOf_cons]
    by_cases here : r.name = p.row.text
    · rw [if_pos here, if_pos here.symm, name]
      rfl
    · rw [if_neg here, if_neg (Ne.symm here)]

theorem foldl_setRightHandSide_shape [Scalar K] (slotOf : String → RowSlot) (ps : List (Pair K))
    (d : Draft K L) : ∃ rows constant,
      ps.foldl (fun e p => e.setRightHandSide (slotOf p.row.text) p.figure.value) d =
        { d with rows, objectiveConstant := constant } := by
  induction ps generalizing d with
  | nil => exact ⟨d.rows, d.objectiveConstant, rfl⟩
  | cons p ps ih =>
    obtain ⟨rows, constant, others⟩ := ih (d.setRightHandSide (slotOf p.row.text) p.figure.value)
    refine ⟨rows, constant, others.trans ?_⟩
    cases slotOf p.row.text <;> rfl

theorem foldl_setRange_shape (slotOf : String → RowSlot) (ps : List (Pair K)) (d : Draft K L) :
    ∃ rows, ps.foldl (fun e p => e.setRange (slotOf p.row.text) p.figure.value) d =
      { d with rows } := by
  induction ps generalizing d with
  | nil => exact ⟨d.rows, rfl⟩
  | cons p ps ih =>
    obtain ⟨rows, others⟩ := ih (d.setRange (slotOf p.row.text) p.figure.value)
    refine ⟨rows, others.trans ?_⟩
    cases slotOf p.row.text <;> rfl

/-- The last right-hand side of the objective is its constant with the sign changed. -/
theorem objectiveConstant_foldl [Scalar K] (slotOf : String → RowSlot) {objective : String}
    (found : ∀ name, slotOf name = .objective ↔ name = objective) (ps : List (Pair K))
    (d : Draft K L) :
    (ps.foldl (fun e p => e.setRightHandSide (slotOf p.row.text) p.figure.value) d).objectiveConstant =
      ((numbersOf ps objective).getLast?.map (- ·)).getD d.objectiveConstant := by
  induction ps generalizing d with
  | nil => simp [numbersOf]
  | cons p ps ih =>
    rw [List.foldl_cons, ih, numbersOf_cons]
    by_cases here : p.row.text = objective
    · rw [if_pos here, (found _).mpr here, List.getLast?_cons]
      cases (numbersOf ps objective).getLast? <;> rfl
    · have other : slotOf p.row.text ≠ .objective := fun is => here ((found _).mp is)
      rw [if_neg here]
      cases slot : slotOf p.row.text with
      | objective => exact absurd slot other
      | ignored => rfl
      | constraint i => rfl

end Draft

end Pairs

/-! ## What a draft says -/

section Says

variable [OfNumeral K] [OfNumeral L] [Scalar K] [Limits L K]

section Block

variable {column : String} {before : List (ColumnStatement K)}

omit [Scalar K] in
/-- Only the first statement about a column matters. -/
theorem startsInBlock_append_of_mem (known : some column ∈ before.map (·.column?)) {inside : Bool}
    (after : List (ColumnStatement K)) :
    startsInBlock column inside (before ++ after) = startsInBlock column inside before := by
  induction before generalizing inside with
  | nil => cases known
  | cons s before ih =>
    cases s with
    | marker label begins =>
      refine ih ?_
      simpa [ColumnStatement.column?] using known
    | entries c first second =>
      rw [List.cons_append, startsInBlock, startsInBlock]
      split
      · rfl
      · rename_i other
        refine ih ?_
        simpa [ColumnStatement.column?, Ne.symm other] using known

omit [Scalar K] in
theorem startsInBlock_append_of_not_mem (unknown : some column ∉ before.map (·.column?)) {inside : Bool}
    (after : List (ColumnStatement K)) :
    startsInBlock column inside (before ++ after) =
      startsInBlock column (startsInBlock column inside before) after := by
  induction before generalizing inside with
  | nil => rfl
  | cons s before ih =>
    rw [List.map_cons, List.mem_cons, not_or] at unknown
    cases s with
    | marker label begins => exact ih unknown.2
    | entries c first second =>
      have other : c.text ≠ column := fun same => unknown.1 (congrArg some same.symm)
      rw [List.cons_append, startsInBlock, startsInBlock, if_neg other, if_neg other, ih unknown.2]

end Block

namespace Content

omit [Scalar K] [Limits L K] in
theorem mem_columnNames {q : Content K L} {column : String} :
    column ∈ q.columnNames ↔ some column ∈ q.columns.map (·.column?) := by
  simp [columnNames, List.mem_eraseDups]

omit [Limits L K] in
/-- A row with its numbers. -/
def rowOf (q : Content K L) (row : String × RowKind) : Row K where
  name := row.1
  kind := row.2
  rightHandSide := (q.rightHandSide? row.1).getD 0
  range := q.range? row.1

/-- A column with its coefficients and bounds, given what the rows stand for. -/
def columnOf (q : Content K L) (slotOf : String → RowSlot) (column : String) : Column K L :=
  (q.changes column).foldl (fun c b => b.apply c)
    ((Column.new column (startsInBlock column false q.columns)).addPairs slotOf (q.pairsOf column))

/-- The column of a content, part by part. -/
theorem columnOf_eq (q : Content K L) (slotOf : String → RowSlot) (column : String) :
    q.columnOf slotOf column =
      { (Column.new column (startsInBlock column false q.columns) : Column K L).addPairs slotOf
          (q.pairsOf column) with
        integer := startsInBlock column false q.columns || (q.changes column).any (·.isInteger)
        binary := (q.changes column).any (·.isBinary)
        lower := (q.boundsOf column).1
        upper := (q.boundsOf column).2 } := by
  have kept (bs : List (BoundChange L)) (c : Column K L) : bs.foldl (fun c b => b.apply c) c =
      { c with
        integer := c.integer || bs.any (·.isInteger)
        binary := c.binary || bs.any (·.isBinary)
        lower := (bs.foldl (fun x b => b.bounds x) (c.lower, c.upper)).1
        upper := (bs.foldl (fun x b => b.bounds x) (c.lower, c.upper)).2 } := by
    induction bs generalizing c with
    | nil => simp
    | cons b bs ih =>
      rw [List.foldl_cons, ih]
      simp [BoundChange.apply, Bool.or_assoc]
  unfold columnOf boundsOf
  rw [kept]
  rfl

/-- Without changes of bounds, a column is as it appears, with its coefficients. -/
theorem columnOf_unbounded {q : Content K L} (bounds : q.bounds = []) (slotOf : String → RowSlot)
    (column : String) : q.columnOf slotOf column =
      (Column.new column (startsInBlock column false q.columns)).addPairs slotOf (q.pairsOf column) := by
  rw [columnOf, changes, bounds]
  rfl

omit [Limits L K] in
/-- Without right-hand sides and ranges, a row is as it is declared. -/
theorem rowOf_declared {q : Content K L} (rightHandSides : q.rightHandSides = [])
    (ranges : q.ranges = []) (row : String × RowKind) : q.rowOf row = ⟨row.1, row.2, 0, none⟩ := by
  simp [rowOf, rightHandSide?, range?, rightHandSides, ranges, numbersOf]

omit [Scalar K] [Limits L K] in
/-- The columns with one more statement about one of them. -/
theorem columnNames_entries (q : Content K L) (column : Word) (first : Pair K)
    (second : Option (Pair K)) :
    columnNames { q with columns := q.columns ++ [.entries column first second] } =
      q.columnNames ++ if column.text ∈ q.columnNames then [] else [column.text] := by
  unfold columnNames
  rw [List.filterMap_append, List.eraseDups_append]
  show _ ++ (List.removeAll [column.text] _).eraseDups = _
  by_cases here : column.text ∈ q.columns.filterMap (·.column?)
  · rw [if_pos (List.mem_eraseDups.mpr here), List.removeAll,
      List.filter_cons_of_neg (by simpa using here)]
    rfl
  · rw [if_neg (mt List.mem_eraseDups.mp here), List.removeAll,
      List.filter_cons_of_pos (by simpa using here)]
    rfl

omit [Scalar K] [Limits L K] in
theorem pairsOf_of_not_mem {q : Content K L} {column : String} (unknown : column ∉ q.columnNames) :
    q.pairsOf column = [] := by
  rw [mem_columnNames, List.mem_map, not_exists] at unknown
  rw [pairsOf, List.filter_eq_nil_iff.mpr fun s hs => by simpa using not_and.mp (unknown s) hs]
  rfl

omit [Scalar K] [Limits L K] in
theorem pairsOf_entries (q : Content K L) (column : Word) (first : Pair K)
    (second : Option (Pair K)) (c : String) :
    pairsOf { q with columns := q.columns ++ [.entries column first second] } c =
      q.pairsOf c ++ if c = column.text then first :: second.toList else [] := by
  unfold pairsOf
  rw [List.filter_append, List.flatMap_append]
  by_cases here : c = column.text
  · simp [ColumnStatement.column?, ColumnStatement.pairs, here]
  · simp [ColumnStatement.column?, here, Ne.symm here]

end Content

namespace Draft

/-- A draft says what was stated so far. -/
structure Says (d : Draft K L) (q : Content K L) : Prop where
  sound : d.Sound
  name : d.name = .ofList (Text.trim q.name)
  direction : d.direction = (q.sense.map (·.direction)).getD .minimise
  keys : d.keys = q.rows.map (·.name.text)
  objectiveName : d.objectiveName = q.objectiveName?
  objectiveConstant : d.objectiveConstant =
    ((q.objectiveName?.bind q.rightHandSide?).map (- ·)).getD 0
  rows : d.rows.toList = q.constraintRows.map q.rowOf
  columns : d.columns.toList = q.columnNames.map (q.columnOf d.slotOf)
  /-- A column that appears now is an integer where the last marker began a block. -/
  block : ∀ c ∉ q.columnNames, startsInBlock c false q.columns = d.inIntegers

namespace Says

variable {d : Draft K L} {q : Content K L}

/-- The section that is read does not matter. -/
theorem current (h : d.Says q) (s : Section) : ({ d with current := s } : Draft K L).Says q :=
  ⟨⟨h.sound.keys, h.sound.objective, h.sound.rows, h.sound.columns, h.sound.places, h.sound.entries⟩, h.name,
    h.direction, h.keys, h.objectiveName, h.objectiveConstant, h.rows, h.columns, h.block⟩

theorem names (h : d.Says q) : d.columns.toList.map (·.name) = q.columnNames := by
  rw [h.columns, List.map_map]
  refine (List.map_congr_left fun c _ => ?_).trans (List.map_id _)
  rw [Function.comp_apply, Content.columnOf_eq]
  rfl

theorem place_objective (h : d.Says q) {objective : String} (free : q.objectiveName? = some objective)
    (name : String) : d.slotOf name = .objective ↔ name = objective := by
  rw [slotOf_eq_iff (by simp), h.sound.objective, h.objectiveName, free, Option.some.injEq, eq_comm]

theorem place_row (h : d.Says q) {row : String × RowKind} {i : Nat}
    (here : q.constraintRows[i]? = some row) (name : String) :
    d.slotOf name = .constraint i ↔ name = row.1 := by
  have named : (d.rows.map (·.name))[i]? = some row.1 := by
    rw [Array.getElem?_map, ← Array.getElem?_toList, h.rows, List.getElem?_map, here]
    rfl
  rw [slotOf_eq_iff (by simp), h.sound.rows, named, Option.some.injEq, eq_comm]

/-- One more row, before there are numbers. -/
theorem row (h : d.Says q) (columns : q.columns = []) (rightHandSides : q.rightHandSides = [])
    (ranges : q.ranges = []) {s : RowStatement} (fresh : s.name.text ∉ q.rows.map (·.name.text)) :
    (d.declareRow s.kind s.name.text).Says { q with rows := q.rows ++ [s] } := by
  have unknown := lookup_of_not_mem_keys (h.keys ▸ fresh)
  obtain ⟨rs, slots, objectiveName, shape⟩ := d.declareRow_shape s.kind s.name.text
  have objective := d.objectiveName_declareRow s.kind s.name.text
  have sound := h.sound.declareRow unknown s.kind
  have keys := d.keys_declareRow s.kind s.name.text
  have rowsOf := d.rows_declareRow s.kind s.name.text
  rw [shape] at objective sound keys rowsOf ⊢
  have noConstant (q : Content K L) (none : q.rightHandSides = []) :
      ((q.objectiveName?.bind q.rightHandSide?).map (- ·)).getD 0 = 0 := by
    have none (row : String) : q.rightHandSide? row = .none := by
      simp [Content.rightHandSide?, none, numbersOf]
    cases q.objectiveName? <;> simp [none]
  refine ⟨sound, h.name, h.direction, ?_, ?_, ?_, ?_, ?_, ?_⟩
  · rw [keys, h.keys, List.map_append]
    rfl
  · rw [objective, h.objectiveName]
    unfold Content.objectiveName?
    rw [List.find?_append]
    obtain ⟨kind, word⟩ := s
    cases q.rows.find? (·.kind.isNone) <;> cases kind <;> rfl
  · rw [noConstant { q with rows := q.rows ++ [s] } rightHandSides]
    exact h.objectiveConstant.trans (noConstant q rightHandSides)
  · refine rowsOf.trans ?_
    rw [h.rows, funext (Content.rowOf_declared rightHandSides ranges),
      funext (Content.rowOf_declared (q := { q with rows := q.rows ++ [s] }) rightHandSides ranges)]
    unfold Content.constraintRows
    rw [List.filterMap_append, List.map_append]
    obtain ⟨kind, word⟩ := s
    cases kind <;> rfl
  · have none := h.columns
    unfold Content.columnNames at none ⊢
    rw [columns] at none ⊢
    exact none
  · exact h.block

/-- A marker begins or ends a block of integers for the columns that follow. -/
theorem marker (h : d.Says q) (label : Word) (begins : Bool) :
    ({ d with inIntegers := begins } : Draft K L).Says
      { q with columns := q.columns ++ [.marker label begins] } := by
  have names : Content.columnNames { q with columns := q.columns ++ [.marker label begins] } =
      q.columnNames := by
    simp [Content.columnNames, ColumnStatement.column?]
  have pairs (c : String) : Content.pairsOf { q with columns := q.columns ++ [.marker label begins] } c =
      q.pairsOf c := by
    simp [Content.pairsOf, ColumnStatement.column?]
  refine ⟨⟨h.sound.keys, h.sound.objective, h.sound.rows, h.sound.columns, h.sound.places, h.sound.entries⟩, h.name,
    h.direction, h.keys, h.objectiveName, h.objectiveConstant, h.rows, ?_, fun c hc => ?_⟩
  · refine h.columns.trans ?_
    rw [names]
    refine List.map_congr_left fun c hc => ?_
    unfold Content.columnOf
    rw [pairs, startsInBlock_append_of_mem (Content.mem_columnNames.mp hc)]
    rfl
  · rw [names, Content.mem_columnNames] at hc
    exact startsInBlock_append_of_not_mem hc [.marker label begins]

section Entries

variable (h : d.Says q) (bounds : q.bounds = []) {column : Word} {first : Pair K}
  {second : Option (Pair K)}
include h bounds

/-- Where a column is named, all columns are there with their old coefficients. -/
theorem columns_named : (d.column column.text).1.columns.toList =
    (Content.columnNames { q with columns := q.columns ++ [.entries column first second] }).map
      fun c => (Column.new c (startsInBlock c false (q.columns ++ [.entries column first second]))).addPairs
        d.slotOf (q.pairsOf c) := by
  have old : ∀ c ∈ q.columnNames, q.columnOf d.slotOf c =
      (Column.new c (startsInBlock c false (q.columns ++ [.entries column first second]))).addPairs
        d.slotOf (q.pairsOf c) := by
    intro c hc
    rw [Content.columnOf_unbounded bounds, startsInBlock_append_of_mem (Content.mem_columnNames.mp hc)]
  rw [h.sound.columns_column, h.names, h.columns, Content.columnNames_entries, List.map_append,
    List.map_congr_left old]
  split
  · rfl
  · rename_i unknown
    have block : startsInBlock column.text false (q.columns ++ [.entries column first second]) =
        d.inIntegers := by
      rw [startsInBlock_append_of_not_mem (mt Content.mem_columnNames.mpr unknown), startsInBlock,
        if_pos rfl]
      exact h.block _ unknown
    rw [List.map_singleton, block, Content.pairsOf_of_not_mem unknown]
    rfl

theorem columns_addPairs :
    (d.addPairs column.text (first :: second.toList)).columns.toList =
      (Content.columnNames { q with columns := q.columns ++ [.entries column first second] }).map
        (Content.columnOf { q with columns := q.columns ++ [.entries column first second] } d.slotOf) := by
  unfold addPairs
  rw [foldl_addCoefficient]
  show ((d.column column.text).1.columns.modify _ _).toList = _
  rw [(h.sound.column column.text).modifyColumn_eq (h.sound.place_column column.text),
    h.columns_named bounds, List.map_map]
  refine List.map_congr_left fun c hc => ?_
  rw [Function.comp_apply,
    Content.columnOf_unbounded (q := { q with columns := q.columns ++ [.entries column first second] })
      bounds, Content.pairsOf_entries]
  show (if c = column.text then _ else _) = _
  split
  · exact (Column.addPairs_append ..).symm
  · rw [List.append_nil]

/-- One more statement about a column, which may be new. -/
theorem entries (known : ∀ p ∈ first :: second.toList, p.row.text ∈ q.rows.map (·.name.text)) :
    (d.addPairs column.text (first :: second.toList)).Says
      { q with columns := q.columns ++ [.entries column first second] } := by
  obtain ⟨columns, places, shape⟩ := d.addPairs_shape column.text (first :: second.toList)
  have sound := h.sound.addPairs column.text (first :: second.toList) (h.keys ▸ known)
  have after : (d.addPairs column.text (first :: second.toList)).columns.toList = _ :=
    h.columns_addPairs bounds
  rw [shape] at sound after ⊢
  refine ⟨sound, h.name, h.direction, h.keys, h.objectiveName, h.objectiveConstant, h.rows, after,
    fun c hc => ?_⟩
  rw [Content.columnNames_entries, List.mem_append, not_or] at hc
  have other : column.text ≠ c := by
    rintro rfl
    split at hc
    · exact hc.1 ‹_›
    · exact hc.2 (List.mem_singleton_self _)
  show startsInBlock c false (q.columns ++ _) = d.inIntegers
  rw [startsInBlock_append_of_not_mem (mt Content.mem_columnNames.mpr hc.1), h.block c hc.1,
    startsInBlock, if_neg other]
  rfl

end Entries

/-- Right-hand sides replace those that were there. -/
theorem rightHandSide (h : d.Says q) {objective : String} (free : q.objectiveName? = some objective)
    {s : PairStatement K} (known : ∀ p ∈ s.pairs, p.row.text ∈ q.rows.map (·.name.text)) :
    (s.pairs.foldl (fun e p => e.setRightHandSide (d.slotOf p.row.text) p.figure.value) d).Says
      { q with rightHandSides := q.rightHandSides ++ [s] } := by
  have numbers (row : String) :
      Content.rightHandSide? { q with rightHandSides := q.rightHandSides ++ [s] } row =
        (numbersOf s.pairs row).getLast?.or (q.rightHandSide? row) := by
    rw [Content.rightHandSide?, List.flatMap_append, List.flatMap_singleton, numbersOf_append,
      List.getLast?_append]
    rfl
  have last (xs : List K) (r : Row K) : xs.foldl (fun r x => { r with rightHandSide := x }) r =
      { r with rightHandSide := xs.getLast?.getD r.rightHandSide } := by
    induction xs generalizing r with
    | nil => rfl
    | cons x xs ih => rw [List.foldl_cons, ih, List.getLast?_cons]; rfl
  have constant := objectiveConstant_foldl d.slotOf (h.place_objective free) s.pairs d
  have rows := rows_foldl h.sound setRightHandSide (fun x r => { r with rightHandSide := x })
    (fun _ _ => rfl) rows_setRightHandSide slots_setRightHandSide
    (fun _ slot x h => h.setRightHandSide slot x) s.pairs (h.keys ▸ known)
  have sound :
      (s.pairs.foldl (fun e p => e.setRightHandSide (d.slotOf p.row.text) p.figure.value) d).Sound :=
    List.foldlRecOn s.pairs _ h.sound fun e sound p _ => sound.setRightHandSide _ _
  obtain ⟨rs, c, shape⟩ := foldl_setRightHandSide_shape d.slotOf s.pairs d
  rw [shape] at constant rows sound ⊢
  refine ⟨sound, h.name, h.direction, h.keys, h.objectiveName, constant.trans ?_, rows.trans ?_,
    h.columns, h.block⟩
  · have constant := h.objectiveConstant
    rw [free] at constant
    show _ = ((q.objectiveName?.bind _).map _).getD 0
    rw [free, Option.bind_some, numbers, Option.map_or, Option.getD_or, constant]
    rfl
  · rw [h.rows, List.map_map]
    refine List.map_congr_left fun row _ => ?_
    rw [Function.comp_apply, last]
    show _ = (⟨_, _, _, _⟩ : Row K)
    rw [numbers, Option.getD_or]
    rfl

/-- Ranges replace those that were there. -/
theorem range (h : d.Says q) {s : PairStatement K}
    (known : ∀ p ∈ s.pairs, p.row.text ∈ q.rows.map (·.name.text)) :
    (s.pairs.foldl (fun e p => e.setRange (d.slotOf p.row.text) p.figure.value) d).Says
      { q with ranges := q.ranges ++ [s] } := by
  have numbers (row : String) : Content.range? { q with ranges := q.ranges ++ [s] } row =
      (numbersOf s.pairs row).getLast?.or (q.range? row) := by
    rw [Content.range?, List.flatMap_append, List.flatMap_singleton, numbersOf_append,
      List.getLast?_append]
    rfl
  have last (xs : List K) (r : Row K) : xs.foldl (fun r x => { r with range := some x }) r =
      { r with range := xs.getLast?.or r.range } := by
    induction xs generalizing r with
    | nil => rfl
    | cons x xs ih => rw [List.foldl_cons, ih, List.getLast?_cons]; cases xs.getLast? <;> rfl
  have rows := rows_foldl h.sound setRange (fun x r => { r with range := some x }) (fun _ _ => rfl)
    rows_setRange slots_setRange (fun _ slot x h => h.setRange slot x) s.pairs (h.keys ▸ known)
  have sound : (s.pairs.foldl (fun e p => e.setRange (d.slotOf p.row.text) p.figure.value) d).Sound :=
    List.foldlRecOn s.pairs _ h.sound fun e sound p _ => sound.setRange _ _
  obtain ⟨rs, shape⟩ := foldl_setRange_shape d.slotOf s.pairs d
  rw [shape] at rows sound ⊢
  refine ⟨sound, h.name, h.direction, h.keys, h.objectiveName, h.objectiveConstant, rows.trans ?_,
    h.columns, h.block⟩
  rw [h.rows, List.map_map]
  refine List.map_congr_left fun row _ => ?_
  rw [Function.comp_apply, last]
  show _ = (⟨_, _, _, _⟩ : Row K)
  rw [numbers]
  rfl

/-- One more change of the bounds of a column. -/
theorem bound (h : d.Says q) {s : BoundStatement L} {i : Nat} {c : Column K L}
    (found : d.places.lookup s.column.text = some i)
    (here : d.columns[i]? = some c) :
    ({ d with columns := d.columns.setIfInBounds i (s.change.apply c) } : Draft K L).Says
      { q with bounds := q.bounds ++ [s] } := by
  have changes (column : String) : Content.changes { q with bounds := q.bounds ++ [s] } column =
      q.changes column ++ if column = s.column.text then [s.change] else [] := by
    rw [Content.changes, List.filter_append, List.map_append]
    by_cases same : column = s.column.text
    · simp [Content.changes, same]
    · simp [Content.changes, same, Ne.symm same]
  have sound := h.sound.setColumn here (rfl : (s.change.apply c).name = c.name)
    (h.sound.entries c (Array.mem_of_getElem? here))
  refine ⟨sound, h.name, h.direction, h.keys, h.objectiveName, h.objectiveConstant, h.rows, ?_, h.block⟩
  show (d.columns.setIfInBounds i _).toList = _
  rw [setIfInBounds_eq_modify here, h.sound.modifyColumn_eq found, h.columns, List.map_map]
  refine List.map_congr_left fun column _ => ?_
  have named : (q.columnOf d.slotOf column).name = column := by
    rw [Content.columnOf_eq]
    rfl
  rw [Function.comp_apply, named]
  unfold Content.columnOf
  rw [changes, List.foldl_append]
  split <;> rfl

end Says

end Draft

end Says

end Milp.Mps
