/-!
# Blank characters

The twenty-nine characters that count as white space at the ends of a
name: the separators of Unicode, and the control characters that move to a
new place on the page. A zero-width space is not one of them.
-/

namespace OutOfOrder.Text

/-- The blank characters, as ranges of code points, both ends included. -/
def blankRanges : List (Nat × Nat) :=
  [(0x09, 0x0d), (0x1c, 0x20), (0x85, 0x85), (0xa0, 0xa0), (0x1680, 0x1680),
    (0x2000, 0x200a), (0x2028, 0x2029), (0x202f, 0x202f), (0x205f, 0x205f), (0x3000, 0x3000)]

/-- A character that is dropped from the ends of a name. -/
def isBlank (c : Char) : Bool :=
  blankRanges.any fun r => r.1 ≤ c.toNat && c.toNat ≤ r.2

/-- The text between its first and its last character that is not blank. -/
def strip (s : String) : String :=
  String.ofList (((s.toList.dropWhile isBlank).reverse.dropWhile isBlank).reverse)

end OutOfOrder.Text
