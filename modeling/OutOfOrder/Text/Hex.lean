/-!
# Hexadecimal numbers

Lower-case hexadecimal digits, with leading zeros up to a least number of
digits.
-/

namespace OutOfOrder.Text

/-- At least `digits` hexadecimal digits of a number. -/
def hex (digits : Nat) (n : Nat) : String :=
  let ds := Nat.toDigits 16 n
  String.ofList (List.replicate (digits - ds.length) '0' ++ ds)

/-- A word as it is shown in listings: `0x` and at least four digits. -/
def hexWord (n : Nat) : String := "0x" ++ hex 4 n

end OutOfOrder.Text
