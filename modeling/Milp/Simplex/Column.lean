import Milp.Coordinate

/-!
# Columns of the working problem

Every row `L ≤ a · x ≤ U` becomes the equation `a · x - s + σ t = 0`. The logical column `s` carries
the limits of the row. The artificial column `t` is there for a row that the starting point breaks,
and is fixed at zero for any other.

Result: `Table.get_set` says what is read after a write.
-/

namespace Milp

/-- A column of the working problem of `n` columns and `m` rows. -/
inductive Column (n m : Nat)
  | structural (j : Fin n)
  | logical (i : Fin m)
  | artificial (i : Fin m)
deriving DecidableEq, Repr

namespace Column

variable {n m : Nat}

/-- The place of a column in their common order. -/
def rank : Column n m → Nat
  | structural j => j
  | logical i => n + i
  | artificial i => n + m + i

/-- All columns in order. -/
def all (n m : Nat) : List (Column n m) :=
  (List.finRange n).map structural ++ (List.finRange m).map logical
    ++ (List.finRange m).map artificial

theorem mem_all (c : Column n m) : c ∈ all n m := by
  cases c <;> simp [all]

end Column

/-- Something for every column. -/
structure Table (α : Type) (n m : Nat) where
  structural : Vector α n
  logical : Vector α m
  artificial : Vector α m

namespace Table

variable {α : Type} {n m : Nat}

/-- What a table holds for a column. -/
def get (t : Table α n m) : Column n m → α
  | .structural j => t.structural[j]
  | .logical i => t.logical[i]
  | .artificial i => t.artificial[i]

/-- A table with something else for one column. -/
def set (t : Table α n m) (c : Column n m) (a : α) : Table α n m :=
  match c with
  | .structural j => { t with structural := t.structural.put j a }
  | .logical i => { t with logical := t.logical.put i a }
  | .artificial i => { t with artificial := t.artificial.put i a }

/-- A table with what it holds for one column changed. -/
def modify (t : Table α n m) (c : Column n m) (f : α → α) : Table α n m :=
  t.set c (f (t.get c))

theorem get_set (t : Table α n m) (c d : Column n m) (a : α) :
    (t.set c a).get d = if c = d then a else t.get d := by
  cases c <;> cases d <;> simp [set, get, Vector.getElem_set, Fin.ext_iff]

end Table

end Milp
