/-!
# Blanks

The characters that carry Unicode's `White_Space` property, and trimming by them.
-/

namespace SubspaceEigen.Text

/-- Whether a character has the property `White_Space`. -/
def isBlank (c : Char) : Bool :=
  let n := c.toNat
  (9 ≤ n && n ≤ 13) || n == 0x20 || n == 0x85 || n == 0xA0 || n == 0x1680 ||
    (0x2000 ≤ n && n ≤ 0x200A) || n == 0x2028 || n == 0x2029 || n == 0x202F || n == 0x205F ||
    n == 0x3000

/-- A text without the blanks at its two ends. -/
def trim (s : List Char) : List Char :=
  ((s.dropWhile isBlank).reverse.dropWhile isBlank).reverse

/-- A text without the blanks at its ends and with the letters `A` to `Z` made small. -/
def folded (s : String) : List Char :=
  (trim s.toList).map Char.toLower

end SubspaceEigen.Text
