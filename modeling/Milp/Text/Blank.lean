/-!
# Blanks, lines and words

Blanks are the characters with the property White_Space, twenty-five of them. A text is cut into
lines at line feeds, and a line into words at blanks.
-/

namespace Milp.Text

/-- The characters with the property White_Space. -/
def isBlank (c : Char) : Bool :=
  let n := c.toNat
  (9 ≤ n && n ≤ 13) || n = 0x20 || n = 0x85 || n = 0xA0 || n = 0x1680
    || (0x2000 ≤ n && n ≤ 0x200A) || n = 0x2028 || n = 0x2029 || n = 0x202F || n = 0x205F
    || n = 0x3000

/-- The lines of a text. A line feed ends a line, and nothing follows the last one. -/
def lines (s : List Char) : List (List Char) :=
  s.foldr (fun c ls =>
    if c = '\n' then [] :: ls
    else match ls with
      | [] => [[c]]
      | l :: ls => (c :: l) :: ls) []

/-- A text without the blanks that end it. -/
def trimEnd (s : List Char) : List Char :=
  (s.reverse.dropWhile isBlank).reverse

/-- A text without the blanks around it. -/
def trim (s : List Char) : List Char :=
  trimEnd (s.dropWhile isBlank)

/-- The longest pieces of a text without blanks. -/
def words : List Char → List (List Char)
  | [] => []
  | c :: r =>
    if isBlank c then words r
    else (c :: r.takeWhile (!isBlank ·)) :: words (r.dropWhile (!isBlank ·))
termination_by s => s.length
decreasing_by
  · simp
  · exact Nat.lt_succ_of_le (List.dropWhile_sublist _).length_le

/-- A text in capitals; only the letters of ASCII have one. -/
def capitals (s : String) : String :=
  String.ofList (s.toList.map Char.toUpper)

end Milp.Text
