import Mathlib.Algebra.BigOperators.Ring.Finset
import Mathlib.Data.Fintype.Basic
import Milp.Proofs.Simplex.Inverse

/-!
# The equations of the working problem

The rows of the working problem as one system of equations in the values of all columns.

Results:
1. `imbalance_eq`: how far a row is from balance, in terms of the activity of the row.
2. `system_mul_ray`: when a column enters, the basic columns move so that no row changes.
3. `cell_modify`, `cell_foldl_modify`: what is read of a state after cells are changed.
-/

namespace Milp

open BasisInverse (entryAt entryAt_nil entryAt_cons)

variable {n m : Nat}

/-! ## Sums over columns -/

namespace Column

theorem nodup_all (n m : Nat) : (all n m).Nodup := by
  refine List.nodup_append'.mpr ⟨List.nodup_append'.mpr ⟨?_, ?_, ?_⟩, ?_, ?_⟩
  · exact (List.nodup_finRange n).map fun _ _ h => by cases h; rfl
  · exact (List.nodup_finRange m).map fun _ _ h => by cases h; rfl
  · simp [List.disjoint_left]
  · exact (List.nodup_finRange m).map fun _ _ h => by cases h; rfl
  · simp only [List.disjoint_left, List.mem_append, List.mem_map]
    rintro _ (⟨_, -, rfl⟩ | ⟨_, -, rfl⟩) ⟨_, -, same⟩ <;> cases same

instance : Fintype (Column n m) :=
  ⟨⟨all n m, nodup_all n m⟩, mem_all⟩

theorem sum_all (f : Column n m → Rat) : ((all n m).map f).sum = ∑ c, f c :=
  rfl

/-- A sum over all columns, by their kinds. -/
theorem sum_kinds (f : Column n m → Rat) :
    ∑ c, f c = ∑ j, f (.structural j) + ∑ i, f (.logical i) + ∑ i, f (.artificial i) := by
  rw [← sum_all, all, List.map_append, List.map_append, List.sum_append, List.sum_append,
    Fin.sum_univ_def, Fin.sum_univ_def, Fin.sum_univ_def, List.map_map, List.map_map, List.map_map]
  rfl

end Column

namespace SimplexState

variable {p : Relaxation Rat ExtendedRat n m} {s : SimplexState Rat ExtendedRat n m}

/-! ## Coefficients -/

/-- The coefficients of all columns in all rows. -/
def system (p : Relaxation Rat ExtendedRat n m) (s : SimplexState Rat ExtendedRat n m) :
    Matrix (Fin m) (Column n m) Rat :=
  fun i c => entryAt (s.entries p c) i

/-- The coefficients of the basic columns. -/
def basis (p : Relaxation Rat ExtendedRat n m) (s : SimplexState Rat ExtendedRat n m) :
    Matrix (Fin m) (Fin m) Rat :=
  fun i k => s.system p i s.basic[k]

theorem system_structural (i : Fin m) (j : Fin n) :
    s.system p i (.structural j) = entryAt p.columns[j] i :=
  rfl

theorem system_logical (i k : Fin m) : s.system p i (.logical k) = if k = i then -1 else 0 := by
  simp [system, entries]

theorem system_artificial (i k : Fin m) :
    s.system p i (.artificial k) = if k = i then (s.signs[k]).getD 0 else 0 := by
  unfold system entries
  dsimp only
  split
  · rename_i sign some
    rw [some, entryAt_cons, entryAt_nil, add_zero]
    rfl
  · rename_i none
    rw [none, entryAt_nil]
    exact (ite_self _).symm

theorem entries_congr {s' : SimplexState Rat ExtendedRat n m} (signs : s'.signs = s.signs) :
    s'.entries p = s.entries p := by
  funext c
  cases c <;> simp [entries, signs]

theorem system_congr {s' : SimplexState Rat ExtendedRat n m} (signs : s'.signs = s.signs) :
    s'.system p = s.system p := by
  unfold system
  rw [entries_congr signs]

theorem ofColumns_basic : BasisInverse.ofColumns (s.basic.map (s.entries p)) = s.basis p := by
  ext i k
  simp [BasisInverse.ofColumns, basis, system]

/-- The basis undoes its inverse. -/
theorem basis_mul_inverse {inverse : BasisInverse Rat m} (inverts : inverse.matrix * s.basis p = 1)
    (v : Fin m → Rat) (i : Fin m) :
    ∑ k, s.basis p i k * ∑ l, inverse.matrix k l * v l = v i := by
  have right : s.basis p * inverse.matrix = 1 := mul_eq_one_comm.mp inverts
  have undone : (s.basis p).mulVec (inverse.matrix.mulVec v) = v := by
    rw [Matrix.mulVec_mulVec, right, Matrix.one_mulVec]
  exact congrFun undone i

/-- The rows of the system, by kinds of columns. -/
theorem system_mul_eq (s : SimplexState Rat ExtendedRat n m) (v : Column n m → Rat) (i : Fin m) :
    ∑ c, s.system p i c * v c =
      (activities p (.ofFn fun j => v (.structural j)))[i] - v (.logical i)
        + (s.signs[i]).getD 0 * v (.artificial i) := by
  rw [Column.sum_kinds, activities_eq_sum]
  simp only [system_structural, system_logical, system_artificial, ite_mul, zero_mul,
    Finset.sum_ite_eq', Finset.mem_univ, if_true, neg_one_mul]
  simp [sub_eq_add_neg]

/-! ## Balance -/

/-- The value of a column. -/
def value (s : SimplexState Rat ExtendedRat n m) (c : Column n m) : Rat :=
  (s.cell c).value

/-- How far a row is from balance. -/
def imbalance (p : Relaxation Rat ExtendedRat n m) (s : SimplexState Rat ExtendedRat n m)
    (i : Fin m) : Rat :=
  ∑ c, s.system p i c * s.value c

/-- All rows are in balance. -/
def Balanced (p : Relaxation Rat ExtendedRat n m) (s : SimplexState Rat ExtendedRat n m) : Prop :=
  ∀ i, s.imbalance p i = 0

theorem structuralValues_eq : s.structuralValues = .ofFn fun j => s.value (.structural j) := by
  ext j hj
  simp [structuralValues, value, cell, Table.get]

/-- A row is in balance when its activity is the value of its logical column, less what the
artificial column makes up for. -/
theorem imbalance_eq (i : Fin m) :
    s.imbalance p i = (activities p s.structuralValues)[i] - s.value (.logical i)
      + (s.signs[i]).getD 0 * s.value (.artificial i) := by
  rw [imbalance, system_mul_eq, structuralValues_eq]

theorem imbalance_congr {s' : SimplexState Rat ExtendedRat n m} (signs : s'.signs = s.signs)
    (values : ∀ c, s'.value c = s.value c) (i : Fin m) : s'.imbalance p i = s.imbalance p i := by
  unfold imbalance
  rw [system_congr signs]
  exact Finset.sum_congr rfl fun c _ => by rw [values c]

/-! ## Rays -/

/-- Values of the basic positions as values of all columns. -/
def spread (s : SimplexState Rat ExtendedRat n m) (v : Vector Rat m) (c : Column n m) : Rat :=
  ∑ k : Fin m, if s.basic[k] = c then v[k] else 0

theorem spread_other (v : Vector Rat m) {c : Column n m} (nonbasic : ∀ k : Fin m, s.basic[k] ≠ c) :
    s.spread v c = 0 :=
  Finset.sum_eq_zero fun k _ => if_neg (nonbasic k)

theorem spread_basic (distinct : ∀ i k : Fin m, s.basic[i] = s.basic[k] → i = k) (v : Vector Rat m)
    (i : Fin m) : s.spread v s.basic[i] = v[i] := by
  have only (k : Fin m) : (if s.basic[k] = s.basic[i] then v[k] else 0) =
      if k = i then v[k] else 0 := by
    by_cases same : k = i
    · rw [if_pos same, same, if_pos rfl]
    · rw [if_neg same, if_neg fun h => same (distinct k i h)]
  simp only [spread, only, Finset.sum_ite_eq', Finset.mem_univ, if_true]

theorem system_mul_spread (v : Vector Rat m) (i : Fin m) :
    ∑ c, s.system p i c * s.spread v c = ∑ k : Fin m, s.basis p i k * v[k] := by
  simp only [spread, Finset.mul_sum, mul_ite, mul_zero]
  rw [Finset.sum_comm]
  exact Finset.sum_congr rfl fun k _ => by simp [basis]

/-- How the columns move while one enters: the basic ones make up for it. -/
def ray (s : SimplexState Rat ExtendedRat n m) (entering : Column n m) (direction : Rat)
    (alpha : Vector Rat m) (c : Column n m) : Rat :=
  (if c = entering then direction else 0) - direction * s.spread alpha c

variable {entering : Column n m} {direction : Rat} {alpha : Vector Rat m}

theorem ray_entering (nonbasic : ∀ k : Fin m, s.basic[k] ≠ entering) :
    s.ray entering direction alpha entering = direction := by
  rw [ray, if_pos rfl, spread_other alpha nonbasic, mul_zero, sub_zero]

theorem ray_other {c : Column n m} (other : c ≠ entering) (nonbasic : ∀ k : Fin m, s.basic[k] ≠ c) :
    s.ray entering direction alpha c = 0 := by
  rw [ray, if_neg other, spread_other alpha nonbasic, mul_zero, sub_zero]

theorem ray_basic (distinct : ∀ i k : Fin m, s.basic[i] = s.basic[k] → i = k)
    (nonbasic : ∀ k : Fin m, s.basic[k] ≠ entering) (i : Fin m) :
    s.ray entering direction alpha s.basic[i] = -(direction * alpha[i]) := by
  rw [ray, if_neg (nonbasic i), spread_basic distinct, zero_sub]

/-- A ray changes no row. -/
theorem system_mul_ray (product : ∀ i : Fin m, ∑ k : Fin m, s.basis p i k * alpha[k] =
    s.system p i entering) (i : Fin m) :
    ∑ c, s.system p i c * s.ray entering direction alpha c = 0 := by
  calc ∑ c, s.system p i c * s.ray entering direction alpha c
    _ = ∑ c, ((if c = entering then s.system p i c * direction else 0)
          - direction * (s.system p i c * s.spread alpha c)) := by
      refine Finset.sum_congr rfl ?_
      intro c _
      unfold ray
      split <;> ring
    _ = s.system p i entering * direction - direction * ∑ k : Fin m, s.basis p i k * alpha[k] := by
      rw [Finset.sum_sub_distrib, ← Finset.mul_sum, system_mul_spread]
      simp
    _ = 0 := by rw [product i, mul_comm, sub_self]

/-! ## Changed cells -/

theorem cell_modify (s : SimplexState Rat ExtendedRat n m) (c d : Column n m)
    (f : Cell Rat ExtendedRat → Cell Rat ExtendedRat) :
    (s.modify c f).cell d = if c = d then f (s.cell c) else s.cell d :=
  Table.get_set _ _ _ _

/-- The state with the cells of the basic columns changed, each by its own function. -/
def modifyBasics (s : SimplexState Rat ExtendedRat n m)
    (f : Fin m → Cell Rat ExtendedRat → Cell Rat ExtendedRat) (positions : List (Fin m)) :
    SimplexState Rat ExtendedRat n m :=
  positions.foldl (fun s i => s.modify s.basic[i] (f i)) s

theorem modifyBasics_frame (f : Fin m → Cell Rat ExtendedRat → Cell Rat ExtendedRat)
    (positions : List (Fin m)) :
    (s.modifyBasics f positions).signs = s.signs ∧
      (s.modifyBasics f positions).basic = s.basic ∧
      (s.modifyBasics f positions).inverse = s.inverse := by
  induction positions generalizing s with
  | nil => exact ⟨rfl, rfl, rfl⟩
  | cons i positions ih => exact ih (s := s.modify s.basic[i] (f i))

/-- Each basic column is changed once, by its own function, and no other column. -/
theorem cell_modifyBasics (distinct : ∀ i k : Fin m, s.basic[i] = s.basic[k] → i = k)
    (f : Fin m → Cell Rat ExtendedRat → Cell Rat ExtendedRat) {positions : List (Fin m)}
    (once : positions.Nodup) :
    (∀ i ∈ positions, (s.modifyBasics f positions).cell s.basic[i] = f i (s.cell s.basic[i])) ∧
      ∀ c, (∀ i ∈ positions, s.basic[i] ≠ c) → (s.modifyBasics f positions).cell c = s.cell c := by
  induction positions generalizing s with
  | nil => exact ⟨fun _ h => absurd h (List.not_mem_nil), fun _ _ => rfl⟩
  | cons i positions ih =>
    obtain ⟨new, once⟩ := List.nodup_cons.mp once
    obtain ⟨changed, kept⟩ := ih (s := s.modify s.basic[i] (f i)) distinct once
    refine ⟨?_, ?_⟩
    · intro k hk
      rcases List.mem_cons.mp hk with rfl | hk
      · have skipped := kept s.basic[k] fun l hl same => new (distinct l k same ▸ hl)
        rw [cell_modify, if_pos rfl] at skipped
        exact skipped
      · have this := changed k hk
        have apart : s.basic[i] ≠ s.basic[k] := fun same => new (distinct i k same ▸ hk)
        rw [show (s.modify s.basic[i] (f i)).basic = s.basic from rfl, cell_modify,
          if_neg apart] at this
        exact this
    · intro c other
      have this := kept c fun k hk => other k (List.mem_cons_of_mem i hk)
      rw [cell_modify, if_neg (other i (List.mem_cons_self ..))] at this
      exact this

end SimplexState

end Milp
