import Mathlib.Data.List.Basic
import Milp.Mps.Field
import Milp.Proofs.Text

/-!
# Fields at fixed columns

Results:
1. `slice?_append`, `slice?_eq_none`: what stands between two bytes of a line.
2. `fixedFields_eq`: the fields of a line are looked up column by column.
3. `fieldAt?_trimEnd`: a word at a column is found in a line whatever of the line's end is trimmed.
-/

namespace Milp.Mps

variable {a m r s w p : List Char}

/-! ## Bytes -/

@[simp] theorem byteSize_nil : byteSize [] = 0 := rfl

private theorem foldl_bytes (s : List Char) (n : Nat) :
    s.foldl (fun n c => n + c.utf8Size) n = n + byteSize s := by
  induction s generalizing n with
  | nil => rfl
  | cons c s ih =>
    have first : byteSize (c :: s) = 0 + c.utf8Size + byteSize s := ih (0 + c.utf8Size)
    rw [List.foldl_cons, ih, first, Nat.zero_add, Nat.add_assoc]

@[simp] theorem byteSize_cons (c : Char) (s : List Char) :
    byteSize (c :: s) = c.utf8Size + byteSize s := by
  rw [byteSize, List.foldl_cons, foldl_bytes]
  omega

@[simp] theorem byteSize_append (s r : List Char) :
    byteSize (s ++ r) = byteSize s + byteSize r := by
  induction s with
  | nil => simp
  | cons c s ih => rw [List.cons_append, byteSize_cons, byteSize_cons, ih, Nat.add_assoc]

@[simp] theorem byteSize_spaces (n : Nat) : byteSize (List.replicate n ' ') = n := by
  induction n with
  | zero => rfl
  | succ n ih =>
    rw [List.replicate_succ, byteSize_cons, ih]
    exact Nat.add_comm 1 n

/-- The first character takes a byte at least. -/
theorem exists_byteSize_cons (c : Char) (s : List Char) : ∃ n, byteSize (c :: s) = n + 1 :=
  Nat.exists_eq_add_one.mpr (by simpa using Nat.add_pos_left c.utf8Size_pos _)

/-! ## Slices -/

theorem dropBytes?_append (s r : List Char) : dropBytes? (s ++ r) (byteSize s) = some r := by
  induction s with
  | nil => rw [byteSize_nil, dropBytes?, List.nil_append]
  | cons c s ih =>
    obtain ⟨n, size⟩ := exists_byteSize_cons c s
    rw [size, List.cons_append, dropBytes?, ← size, byteSize_cons, if_pos (Nat.le_add_right ..),
      Nat.add_sub_cancel_left, ih]

theorem takeBytes?_append (s r : List Char) : takeBytes? (s ++ r) (byteSize s) = some s := by
  induction s with
  | nil => rw [byteSize_nil, takeBytes?]
  | cons c s ih =>
    obtain ⟨n, size⟩ := exists_byteSize_cons c s
    rw [size, List.cons_append, takeBytes?, ← size, byteSize_cons, if_pos (Nat.le_add_right ..),
      Nat.add_sub_cancel_left, ih]
    rfl

/-- What stands between two bytes, the later one clipped to the end of the line. -/
theorem slice?_append {stop : Nat}
    (ends : min stop (byteSize (a ++ (m ++ r))) = byteSize a + byteSize m) :
    slice? (a ++ (m ++ r)) (byteSize a) stop = some m := by
  unfold slice?
  rw [ends, if_neg (by omega), dropBytes?_append, Nat.add_sub_cancel_left]
  exact takeBytes?_append m r

/-- Nothing stands past the end of the line. -/
theorem slice?_eq_none {start : Nat} (past : byteSize s < start) (stop : Nat) :
    slice? s start stop = none := by
  unfold slice?
  exact if_pos (by omega)

/-! ## Fields -/

/-- The field at a column, if the line has one there. -/
def fieldAt? (line : List Char) (c : Nat × Nat) : Option (List Char) :=
  ((slice? line c.1 c.2).map Text.trim).filter (!·.isEmpty)

theorem fixedFields_eq (line : List Char) :
    fixedFields line = fixedColumns.filterMap (fieldAt? line) := by
  rw [fixedFields, List.map_filterMap, List.filter_filterMap]
  rfl

theorem fieldAt?_of_slice? {line : List Char} {c : Nat × Nat}
    (found : slice? line c.1 c.2 = some m) (trimmed : Text.trim m = w) :
    fieldAt? line c = if w.isEmpty then none else some w := by
  unfold fieldAt?
  cases w <;> simp [found, trimmed]

/-- A text keeps its bytes where trimming takes none away. -/
theorem trimEnd_of_byteSize_le (long : byteSize s ≤ byteSize (Text.trimEnd s)) :
    Text.trimEnd s = s := by
  obtain ⟨q, -, parts⟩ := Text.exists_blank_end s
  cases q with
  | nil => rw [List.append_nil] at parts; exact parts.symm
  | cons c q =>
    have sizes := congrArg byteSize parts
    obtain ⟨n, size⟩ := exists_byteSize_cons c q
    rw [byteSize_append] at sizes
    omega

/-- A word at a column, and nothing but blanks after it up to the next column, is the field of that
column. How much of the line is trimmed at its end depends on what follows, but does not matter. -/
theorem fieldAt?_trimEnd {stop : Nat} (hw : Text.Dense w) (hp : Text.Blank p)
    (fits : byteSize a + byteSize (w ++ p) = stop) :
    fieldAt? (Text.trimEnd (a ++ ((w ++ p) ++ r))) (byteSize a, stop) =
      if w.isEmpty then none else some w := by
  have ends : byteSize a + byteSize w ≤ stop := by
    rw [byteSize_append] at fits
    omega
  by_cases rest : Text.Blank r
  · rw [List.append_assoc, ← List.append_assoc a, Text.trimEnd_append_blank (hp.append rest)]
    cases w with
    | cons c w =>
      have kept : Text.trimEnd (a ++ c :: w) = a ++ (c :: w ++ []) := by
        rw [Text.trimEnd_append (Text.not_blank_of_dense hw (by simp)), Text.trimEnd_dense hw,
          List.append_nil]
      rw [kept]
      exact fieldAt?_of_slice? (slice?_append (by simp at ends ⊢; omega)) (Text.trim_dense hw)
    | nil =>
      -- the column is past the end of the trimmed line, or starts just there
      rw [List.append_nil]
      rcases Nat.lt_or_ge (byteSize (Text.trimEnd a)) (byteSize a) with short | long
      · rw [fieldAt?, slice?_eq_none short]
        rfl
      · have nothing : slice? (a ++ ([] ++ [])) (byteSize a) stop = some [] :=
          slice?_append (by simp at ends ⊢; omega)
        rw [List.append_nil, List.append_nil] at nothing
        rw [trimEnd_of_byteSize_le long]
        exact fieldAt?_of_slice? nothing rfl
  · have some : ¬ Text.Blank ((w ++ p) ++ r) := fun blank =>
      rest fun c hc => blank c (List.mem_append_right _ hc)
    rw [Text.trimEnd_append some, Text.trimEnd_append rest]
    exact fieldAt?_of_slice? (slice?_append (by rw [byteSize_append, byteSize_append]; omega))
      ((Text.trim_append_blank hp).trans (Text.trim_dense hw))

end Milp.Mps
