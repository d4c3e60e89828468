import Milp.Proofs.Binary64.Doubles
import Milp.Proofs.Mps.Checked

/-!
# What a file is refused for

A file that says more than its format does not ask for trouble: the model that is built of it refuses
neither a variable nor the name of a column, and limits only where a number is infinite or undefined.

Results:
1. `line_error_model`: of all lines, only one that repeats the name of a row is refused by the model.
2. `finish_error_model`: at the end only bounds and limits are, that are out of order.
3. `Row.Finite.isOrdered`: limits made of finite numbers are in order, however sums are rounded.
4. `readsSafely_double`: so for every text, with the sums of doubles.
-/

namespace Milp.Mps

variable {K L : Type}

/-! ## Lines -/

/-- Whatever it is, it is not refused by the model. -/
def PassesModel {α : Type} (x : Except (Error L) α) : Prop :=
  ∀ e, x ≠ .error (.model e)

namespace PassesModel

variable {α β : Type} {x : Except (Error L) α}

theorem ok (a : α) : PassesModel (.ok a : Except (Error L) α) := by
  rintro e ⟨⟩

theorem bind (hx : PassesModel x) {f : α → Except (Error L) β} (hf : ∀ a, PassesModel (f a)) :
    PassesModel (x >>= f) := by
  cases x with
  | ok a => exact hf a
  | error e =>
    rintro e' same
    cases same
    exact hx e' rfl

theorem map (hx : PassesModel x) (f : α → β) : PassesModel (x.map f) := by
  cases x with
  | ok a => exact ok (f a)
  | error e =>
    rintro e' same
    cases same
    exact hx e' rfl

theorem foldlM {f : β → α → Except (Error L) β} (hf : ∀ b a, PassesModel (f b a)) (as : List α)
    (b : β) : PassesModel (as.foldlM f b) := by
  induction as generalizing b with
  | nil => exact ok b
  | cons a as ih => exact (hf b a).bind ih

theorem number [OfNumeral α] (n : Nat) (field : String) :
    PassesModel (Mps.number n field : Except (Error L) α) := by
  unfold Mps.number
  split <;> rintro e ⟨⟩

theorem sense (n : Nat) (word : String) : PassesModel (Mps.sense n word : Except (Error L) _) := by
  unfold Mps.sense
  dsimp only
  split
  · exact ok _
  · split <;> rintro e ⟨⟩

variable {d : Draft K L}

theorem header (n : Nat) (text : List Char) : PassesModel (d.header n text) := by
  unfold Draft.header
  dsimp only
  split <;> try exact ok _
  · split
    · exact ok _
    · exact (sense n _).bind fun _ => ok _
  · rintro e ⟨⟩

theorem senseLine (n : Nat) (fields : List String) : PassesModel (d.senseLine n fields) := by
  unfold Draft.senseLine
  split
  · exact (sense n _).bind fun _ => ok _
  · rintro e ⟨⟩

theorem rowKind (n : Nat) (word : String) :
    PassesModel (Draft.rowKind n word : Except (Error L) _) := by
  unfold Draft.rowKind
  split <;> rintro e ⟨⟩

theorem slot (n : Nat) (name : String) : PassesModel (d.slot n name) := by
  unfold Draft.slot
  split <;> rintro e ⟨⟩

theorem forPairs [OfNumeral K] (n : Nat) (fields : List String)
    (change : Draft K L → RowSlot → K → Draft K L) : PassesModel (d.forPairs n fields change) :=
  foldlM (fun _ _ => (number n _).bind fun _ => (slot n _).bind fun _ => ok _) _ _

theorem pairLine [OfNumeral K] (n : Nat) (fields : List String)
    (change : Draft K L → RowSlot → K → Draft K L) : PassesModel (d.pairLine n fields change) := by
  unfold Draft.pairLine
  dsimp only
  split
  · rintro e ⟨⟩
  · exact forPairs n _ change

variable [Scalar K] [Limits L K]

theorem columnLine [OfNumeral K] (n : Nat) (fields : List String) :
    PassesModel (d.columnLine n fields) := by
  unfold Draft.columnLine
  split
  · split <;> rintro e ⟨⟩
  · split
    · exact forPairs n _ _
    · rintro e ⟨⟩
  · rintro e ⟨⟩

theorem boundFields (n : Nat) (kind : String) (rest : List String) :
    PassesModel (Draft.boundFields n kind rest : Except (Error L) _) := by
  unfold Draft.boundFields
  split <;> split <;> try split
  all_goals rintro e ⟨⟩

theorem boundLine [OfNumeral L] (n : Nat) (fields : List String) :
    PassesModel (d.boundLine n fields) := by
  unfold Draft.boundLine
  split
  · rintro e ⟨⟩
  · refine (boundFields n _ _).bind fun p => ?_
    dsimp only
    split
    · rintro e ⟨⟩
    · have value : PassesModel (p.2.mapM (Mps.number n) : Except (Error L) (Option L)) := by
        cases p.2 with
        | none => exact ok _
        | some field => exact (number n field).map some
      refine value.bind fun v => ?_
      split <;> rintro e ⟨⟩

end PassesModel

section Lines

variable [Scalar K] [Limits L K] [OfNumeral K] [OfNumeral L] {d : Draft K L} {n : Nat}

omit [Scalar K] [Limits L K] [OfNumeral K] [OfNumeral L] in
theorem Draft.mem_keys {name : String} (known : (d.slots.lookup name).isSome) : name ∈ d.keys := by
  obtain ⟨slot, found⟩ := Option.isSome_iff_exists.mp known
  obtain ⟨before, after, parts, -⟩ := List.lookup_eq_some_iff.mp found
  simp [Draft.keys, parts]

/-- Of all lines, only one that repeats the name of a row is refused by the model. -/
theorem Draft.line_error_model {format : Format} {raw : List Char} {e : ModelError L}
    (refused : d.line format n raw = .error (.model e)) :
    ∃ name, e = .duplicateName name ∧ d.declares? format raw = some name ∧ name ∈ d.keys := by
  have kind := d.line_kind format n raw
  unfold declares?
  rw [refused] at kind
  generalize dataFields? format raw = fields?, made : Except.error (Error.model e) = r at kind ⊢
  cases kind with
  | skipped => cases made
  | header => exact absurd made.symm (PassesModel.header n _ e)
  | data fields =>
    have refused : d.dataLine n fields = .error (.model e) := by
      cases line : d.dataLine n fields with
      | ok d' => rw [line] at made; cases made
      | error e' => rw [line] at made; cases made; rfl
    unfold dataLine at refused
    split at refused <;> rename_i current
    · cases refused
    · cases refused
    · exact absurd refused (PassesModel.senseLine n _ e)
    · unfold rowLine at refused
      split at refused
      · rename_i word name
        cases kind : (rowKind n word : Except (Error L) _) with
        | error e' =>
          rw [kind] at refused
          cases refused
          exact absurd kind (PassesModel.rowKind n word e)
        | ok kind' =>
          rw [kind, ok_bind] at refused
          split at refused
          · rename_i known
            cases refused
            exact ⟨name, rfl, by simp [current], mem_keys known⟩
          · cases refused
      · cases refused
    · exact absurd refused (PassesModel.columnLine n _ e)
    · exact absurd refused (PassesModel.pairLine n _ _ e)
    · exact absurd refused (PassesModel.pairLine n _ _ e)
    · exact absurd refused (PassesModel.boundLine n _ e)

end Lines

/-! ## The end of the file -/

/-- At the end of the file the model refuses bounds and limits only, that are out of order. -/
theorem Draft.finish_error_model [Scalar K] [Limits L K] {d : Draft K L} (h : d.Sound)
    {e : ModelError L} (refused : d.finish = .error (.model e)) :
    (∃ c ∈ d.columns, c.isOrdered = false ∧ e = .invalidVariableBounds c.name c.lower c.upper) ∨
      ∃ k ∈ d.constraints, Limits.isOrdered k.lower k.upper = false ∧
        e = .invalidConstraintLimits k.lower k.upper := by
  rw [finish_eq h] at refused
  split at refused
  · cases refused
  · split at refused
    · rename_i c first
      cases refused
      exact .inl ⟨c, Array.mem_toList_iff.mp (List.mem_of_find?_eq_some first),
        by simpa using List.find?_some first, rfl⟩
    · split at refused
      · rename_i k first
        cases refused
        exact .inr ⟨k, List.mem_of_find?_eq_some first, by simpa using List.find?_some first, rfl⟩
      · cases refused

/-! ## Finite numbers -/

/-- Sums that may be rounded: adding a number moves to the side of its sign, or not at all. -/
structure RoundedSums (K L : Type) [Scalar K] [Limits L K] : Prop where
  finite_zero : Scalar.isFinite (0 : K) = true
  finite_abs : ∀ x : K, Scalar.isFinite x = true → Scalar.isFinite (Scalar.abs x) = true
  abs_nonneg : ∀ x : K, Scalar.isFinite x = true → 0 ≤ Scalar.abs x
  le_refl : ∀ x : K, Scalar.isFinite x = true → x ≤ x
  le_add : ∀ x y : K, Scalar.isFinite x = true → Scalar.isFinite y = true → 0 ≤ y → x ≤ x + y
  add_le : ∀ x y : K, Scalar.isFinite x = true → Scalar.isFinite y = true → ¬ 0 ≤ y → x + y ≤ x
  sub_le : ∀ x y : K, Scalar.isFinite x = true → Scalar.isFinite y = true → 0 ≤ y → x - y ≤ x
  /-- Order of scalars is order of limits, and nothing is lost where nothing is taken away. -/
  ordered : ∀ x y : K, x ≤ y →
    Limits.isOrdered (Limits.sub (Limits.ofScalar x : L) (0 : K)) (Limits.sub (Limits.ofScalar y) 0)
  ordered_below : ∀ x : K, Scalar.isFinite x = true →
    Limits.isOrdered (Limits.sub (Limits.below : L) (0 : K)) (Limits.sub (Limits.ofScalar x) 0)
  ordered_above : ∀ x : K, Scalar.isFinite x = true →
    Limits.isOrdered (Limits.sub (Limits.ofScalar x : L) (0 : K)) (Limits.sub Limits.above 0)

/-- A row with finite numbers. -/
structure Row.Finite [Scalar K] (r : Row K) : Prop where
  rightHandSide : Scalar.isFinite r.rightHandSide = true
  range : ∀ x ∈ r.range, Scalar.isFinite x = true

/-- The limits of a row with finite numbers are in order. -/
theorem Row.Finite.isOrdered [Scalar K] [Limits L K] (laws : RoundedSums K L) {r : Row K}
    (h : r.Finite) :
    Limits.isOrdered (Limits.sub (r.limits (L := L)).1 (0 : K)) (Limits.sub (r.limits (L := L)).2 0) := by
  have rhs := h.rightHandSide
  have size (x : K) (hx : r.range = some x) := laws.finite_abs x (h.range x hx)
  unfold Row.limits
  dsimp only
  split
  · exact laws.ordered_below _ rhs
  · exact laws.ordered_above _ rhs
  · exact laws.ordered _ _ (laws.le_refl _ rhs)
  · rename_i x _ range
    exact laws.ordered _ _ (laws.sub_le _ _ rhs (size x range) (laws.abs_nonneg x (h.range x range)))
  · rename_i x _ range
    exact laws.ordered _ _ (laws.le_add _ _ rhs (size x range) (laws.abs_nonneg x (h.range x range)))
  · rename_i x _ range
    split
    · rename_i up
      exact laws.ordered _ _ (laws.le_add _ _ rhs (h.range x range) up)
    · rename_i down
      exact laws.ordered _ _ (laws.add_le _ _ rhs (h.range x range) down)

namespace Draft

variable {d d' : Draft K L}

/-- A draft whose rows have finite numbers. -/
def Finite [Scalar K] (d : Draft K L) : Prop := ∀ r ∈ d.rows, r.Finite

/-- A line gives finite numbers to rows, if it gives any. -/
def GivesFinite [Scalar K] [OfNumeral K] (d : Draft K L) (format : Format) (raw : List Char) : Prop :=
  d.current = .rightHandSides ∨ d.current = .ranges →
    ∀ fields ∈ dataFields? format raw, ∀ p ∈ pairs (withoutSetName fields),
      ∀ x : K, readNumber? p.2 = some x → Scalar.isFinite x = true

namespace Finite

variable [Scalar K]

theorem modify (h : d.Finite) (i : Nat) {f : Row K → Row K} (keeps : ∀ r, r.Finite → (f r).Finite) :
    ({ d with rows := d.rows.modify i f } : Draft K L).Finite := by
  intro r hr
  obtain ⟨j, hj, rfl⟩ := Array.mem_iff_getElem.mp hr
  rw [Array.getElem_modify]
  split
  · exact keeps _ (h _ (Array.getElem_mem _))
  · exact h _ (Array.getElem_mem _)

theorem setRightHandSide (h : d.Finite) (slot : RowSlot) {x : K} (hx : Scalar.isFinite x = true) :
    (d.setRightHandSide slot x).Finite := by
  cases slot with
  | constraint i => exact h.modify i fun r hr => ⟨hx, hr.range⟩
  | objective => exact h
  | ignored => exact h

theorem setRange (h : d.Finite) (slot : RowSlot) {x : K} (hx : Scalar.isFinite x = true) :
    (d.setRange slot x).Finite := by
  cases slot with
  | constraint i =>
    refine h.modify i fun r hr => ⟨hr.rightHandSide, fun y hy => ?_⟩
    cases hy
    exact hx
  | objective => exact h
  | ignored => exact h

theorem declareRow (h : d.Finite) (zero : Scalar.isFinite (0 : K) = true) (kind : Option RowKind)
    (name : String) : (d.declareRow kind name).Finite := by
  cases kind with
  | some kind =>
    intro r hr
    rcases Array.mem_push.mp hr with hr | rfl
    · exact h r hr
    · exact ⟨zero, by simp⟩
  | none =>
    unfold Draft.declareRow
    dsimp only
    split <;> exact h

theorem addCoefficient (h : d.Finite) (i : Nat) (slot : RowSlot) (x : K) :
    (d.addCoefficient i slot x).Finite := by
  cases slot <;> exact h

variable [Limits L K]

theorem column (h : d.Finite) (name : String) : (d.column name).1.Finite := by
  unfold Draft.column
  split <;> exact h

variable [OfNumeral K] [OfNumeral L] {n : Nat}

/-- A line that gives finite numbers keeps them finite. -/
theorem line (h : d.Finite) (zero : Scalar.isFinite (0 : K) = true) {format : Format}
    {raw : List Char} (finite : d.GivesFinite format raw)
    (accepted : d.line format n raw = .ok (some d')) : d'.Finite := by
  have kind := d.line_kind format n raw
  unfold GivesFinite at finite
  rw [accepted] at kind
  generalize dataFields? format raw = fields?, made : Except.ok (some d') = r at kind finite
  cases kind with
  | skipped => cases made; exact h
  | header =>
    obtain ⟨current, name, direction, rfl⟩ := header_ok made.symm
    exact h
  | data fields =>
    have accepted := map_eq_some made.symm
    unfold dataLine at accepted
    split at accepted <;> rename_i current
    · cases accepted
    · cases accepted
    · obtain ⟨direction, rfl⟩ := senseLine_ok accepted
      exact h
    · obtain ⟨word, name, kind, -, -, rfl⟩ := rowLine_ok accepted
      exact h.declareRow zero kind name
    · rcases columnLine_ok accepted with ⟨inside, rfl⟩ | ⟨name, rest, -, accepted⟩
      · exact h
      · exact forPairs_induction (fun _ _ slot x _ _ _ h => h.addCoefficient _ slot x)
          (h.column name) accepted
    · exact forPairs_induction
        (fun _ p slot x hp read _ h =>
          h.setRightHandSide slot (finite (.inl current) fields rfl p hp x read))
        h (pairLine_ok accepted)
    · exact forPairs_induction
        (fun _ p slot x hp read _ h => h.setRange slot (finite (.inr current) fields rfl p hp x read))
        h (pairLine_ok accepted)
    · obtain ⟨i, c, c', -, -, -, rfl⟩ := boundLine_ok accepted
      exact h

theorem takes (h : d.Finite) (zero : Scalar.isFinite (0 : K) = true) {format : Format}
    {before : Nat} {ls : List (List Char)} (takes : d.Takes format before ls d')
    (finite : ∀ (pre : List (List Char)) (raw : List Char) (post : List (List Char))
      (e : Draft K L), ls = pre ++ raw :: post → d.Takes format before pre e → e.GivesFinite format raw) :
    d'.Finite := by
  induction takes with
  | nil => exact h
  | @cons d _ _ before raw rest first _ ih =>
    refine ih (h.line zero (finite [] raw rest d rfl (.nil d before)) first) ?_
    rintro pre next post e rfl taken
    exact finite (raw :: pre) next post e rfl (.cons first taken)

end Finite

end Draft

/-! ## Texts -/

section Texts

variable [Scalar K] [Limits L K] [OfNumeral K] [OfNumeral L]

/-- The lines of a text up to some place lead to a draft. -/
def Reaches (format : Format) (text : String) (ls rest : List (List Char)) (d : Draft K L) : Prop :=
  Text.lines text.toList = ls ++ rest ∧ (Draft.empty : Draft K L).Takes format 0 ls d

variable (K L) in
/-- Every number that a text gives as a right-hand side or as a range is finite. -/
def FiniteRows (format : Format) (text : String) : Prop :=
  ∀ ls raw rest (d : Draft K L), Reaches format text ls (raw :: rest) d → d.GivesFinite format raw

variable (K L) in
/-- Reading keeps its account of names and finds what it looks for, and the model that it builds
refuses nothing but what the text says twice or the wrong way round. -/
structure ReadsSafely (format : Format) (text : String) : Prop where
  /-- At any line the names lead to what they name, with one key for each row declared so far. -/
  sound : ∀ ls rest (d : Draft K L), Reaches format text ls rest d →
    d.Sound ∧ d.keys = (Draft.empty : Draft K L).declared format 0 ls
  /-- Every access finds what it looks for. -/
  found : (Checked.read format text : ExceptT (Error L) Option (File K L)) =
    Checked.plain (read format text)
  known : ∀ v, (read format text : Except (Error L) (File K L)) ≠ .error (.model (.unknownVariable v))
  /-- A name that is taken is that of a row, and a line declares the row once more. -/
  repeated : ∀ name, (read format text : Except (Error L) (File K L)) =
      .error (.model (.duplicateName name)) →
    ∃ ls raw rest, ∃ d : Draft K L, Reaches format text ls (raw :: rest) d ∧
      d.declares? format raw = some name ∧ name ∈ (Draft.empty : Draft K L).declared format 0 ls

variable {format : Format} {text : String}

/-- Where the model refuses something, it is at a line or at the end of the file. -/
theorem read_error_model {e : ModelError L}
    (refused : (read format text : Except (Error L) (File K L)) = .error (.model e)) :
    (∃ ls raw rest, ∃ d : Draft K L, Reaches format text ls (raw :: rest) d ∧
      d.line format (0 + ls.length + 1) raw = .error (.model e)) ∨
    ∃ ls rest, ∃ d : Draft K L, Reaches format text ls rest d ∧ d.finish = .error (.model e) := by
  have reading := Reading.of_readLines (K := K) (L := L) format .empty 0 (Text.lines text.toList)
  unfold read at refused
  rw [refused] at reading
  generalize lines : Text.lines text.toList = ls, ends : Except.error (Error.model e) = r at reading
  cases reading with
  | refused taken refused =>
    cases ends
    exact .inl ⟨_, _, _, _, ⟨lines, taken⟩, refused⟩
  | ended taken _ => exact .inr ⟨_, _, _, ⟨lines, taken⟩, rfl⟩
  | unended => cases ends

theorem Reaches.sound {ls rest : List (List Char)} {d : Draft K L}
    (reaches : Reaches format text ls rest d) : d.Sound :=
  reaches.2.sound .empty

theorem Reaches.keys {ls rest : List (List Char)} {d : Draft K L}
    (reaches : Reaches format text ls rest d) :
    d.keys = (Draft.empty : Draft K L).declared format 0 ls :=
  reaches.2.keys

theorem Reaches.finite {ls rest : List (List Char)} {d : Draft K L}
    (reaches : Reaches format text ls rest d) (zero : Scalar.isFinite (0 : K) = true)
    (finite : FiniteRows K L format text) : d.Finite := by
  refine Draft.Finite.takes (by simp [Draft.Finite, Draft.empty]) zero reaches.2 ?_
  rintro pre raw post e rfl taken
  exact finite pre raw (post ++ rest) e ⟨by rw [reaches.1]; simp, taken⟩

/-- Reading is safe for every text. -/
theorem readsSafely (format : Format) (text : String) : ReadsSafely K L format text := by
  refine ⟨fun ls rest d reaches => ⟨reaches.sound, reaches.keys⟩, Checked.read_eq format text,
    fun v refused => ?_, fun name refused => ?_⟩
  · rcases read_error_model refused with ⟨ls, raw, rest, d, -, refused⟩ | ⟨ls, rest, d, reaches, refused⟩
    · obtain ⟨name, ⟨⟩, -⟩ := Draft.line_error_model refused
    · rcases Draft.finish_error_model reaches.sound refused with ⟨c, -, -, ⟨⟩⟩ | ⟨k, -, -, ⟨⟩⟩
  · rcases read_error_model refused with
      ⟨ls, raw, rest, d, reaches, refused⟩ | ⟨ls, rest, d, reaches, refused⟩
    · obtain ⟨name, ⟨⟩, declares, known⟩ := Draft.line_error_model refused
      exact ⟨ls, raw, rest, d, reaches, declares, reaches.keys ▸ known⟩
    · rcases Draft.finish_error_model reaches.sound refused with ⟨c, -, -, ⟨⟩⟩ | ⟨k, -, -, ⟨⟩⟩

/-- Limits that are out of order come of numbers that are not finite. -/
theorem read_ne_invalidConstraintLimits (laws : RoundedSums K L) (finite : FiniteRows K L format text)
    (lower upper : L) : (read format text : Except (Error L) (File K L)) ≠
      .error (.model (.invalidConstraintLimits lower upper)) := by
  intro refused
  rcases read_error_model refused with ⟨ls, raw, rest, d, -, refused⟩ | ⟨ls, rest, d, reaches, refused⟩
  · obtain ⟨name, ⟨⟩, -⟩ := Draft.line_error_model refused
  · rcases Draft.finish_error_model reaches.sound refused with ⟨c, -, -, ⟨⟩⟩ | ⟨k, hk, unordered, -⟩
    obtain ⟨r, hr, rfl⟩ := List.mem_map.mp hk
    have row : r.1 ∈ d.rows := Array.mem_toList_iff.mp (List.fst_mem_of_mem_zipIdx hr)
    have ordered := (reaches.finite laws.finite_zero finite _ row).isOrdered laws
    have constant : (d.body r.2).constant = 0 := by rw [Draft.body_eq]
    rw [← constant] at ordered
    exact Bool.false_ne_true (unordered.symm.trans ordered)

/-- Numbers are finite where every field that could be one is. -/
theorem FiniteRows.of_fields
    (finite : ∀ raw ∈ Text.lines text.toList, ∀ fields ∈ dataFields? format raw,
      ∀ p ∈ pairs (withoutSetName fields), (readNumber? p.2 : Option K).all Scalar.isFinite) :
    FiniteRows K L format text := by
  rintro ls raw rest d ⟨lines, -⟩ - fields hfields p hp x read
  have here : raw ∈ Text.lines text.toList := by simp [lines]
  simpa [read] using finite raw here fields hfields p hp

end Texts

/-! ## Doubles -/

/-- Sums of doubles are rounded, and obey the laws. -/
theorem roundedSums_double : RoundedSums Float Float where
  finite_zero := congrArg Float.Model.UnpackedFloat.isFinite Binary64.parts_zero
  finite_abs _ := Binary64.isFinite_abs
  abs_nonneg _ := Binary64.zero_le_abs
  le_refl _ := Binary64.le_refl
  le_add _ _ := Binary64.le_add
  add_le _ _ := Binary64.add_le
  sub_le _ _ := Binary64.sub_le
  ordered _ _ le := Binary64.isOrdered_of_le (Binary64.sub_zero_le_sub_zero le)
  ordered_below _ finite :=
    Binary64.isOrdered_of_le (Binary64.sub_zero_le_sub_zero (Binary64.below_le finite))
  ordered_above _ finite :=
    Binary64.isOrdered_of_le (Binary64.sub_zero_le_sub_zero (Binary64.le_above finite))

/-- Reading doubles is safe for every text. Where each of them is finite, limits are in order. -/
theorem readsSafely_double (format : Format) (text : String) :
    ReadsSafely Float Float format text ∧
      (FiniteRows Float Float format text → ∀ lower upper,
        (read format text : Except (Error Float) (File Float Float)) ≠
          .error (.model (.invalidConstraintLimits lower upper))) :=
  ⟨readsSafely format text, read_ne_invalidConstraintLimits roundedSums_double⟩

/-- A problem with a range to either side. -/
def rangedLines : List String :=
  ["ROWS", " N cost", " L most", " E even", "COLUMNS", " x cost 1 most 1", " x even 2", "RHS",
    " rhs most 4 even 3", "RANGES", " rng most 2 even -1", "ENDATA"]

def rangedText : String := .ofList (Text.joined (rangedLines.map String.toList))

theorem lines_rangedText : Text.lines rangedText.toList = rangedLines.map String.toList := by
  rw [rangedText, String.toList_ofList, Text.lines_joined (by decide +kernel)]

theorem readsSafely_double_ranged :
    FiniteRows Float Float .free rangedText ∧
      (read .free rangedText : Except (Error Float) (File Float Float)).isOk = true ∧
      ∀ lower upper, (read .free rangedText : Except (Error Float) (File Float Float)) ≠
        .error (.model (.invalidConstraintLimits lower upper)) :=
  have finite : FiniteRows Float Float .free rangedText := by
    refine FiniteRows.of_fields ?_
    rw [lines_rangedText]
    decide +kernel
  have accepted : (read .free rangedText : Except (Error Float) (File Float Float)).isOk := by
    rw [read, lines_rangedText]
    decide +kernel
  ⟨finite, accepted, (readsSafely_double .free rangedText).2 finite⟩

end Milp.Mps
