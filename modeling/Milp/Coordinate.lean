/-!
# Coordinates

A position of type `Fin n` carries its own bound, so a vector of length `n` is read and written
there with no side condition.
-/

namespace Vector

variable {α : Type} {n : Nat}

instance instGetElemCoordinate : GetElem (Vector α n) (Fin n) α (fun _ _ => True) where
  getElem v j _ := getElem v j.val j.isLt

/-- A vector with something else at one coordinate. -/
def put (v : Vector α n) (j : Fin n) (a : α) : Vector α n :=
  v.set j.val a j.isLt

@[simp]
theorem getElem_coordinate (v : Vector α n) (j : Fin n) : v[j] = getElem v j.val j.isLt :=
  rfl

@[simp]
theorem put_eq_set (v : Vector α n) (j : Fin n) (a : α) : v.put j a = v.set j.val a j.isLt :=
  rfl

end Vector
