/-!
# Decimal places

A rate is a quotient of two counts. It is kept as the nearest number with
fifty-three binary digits and shown with six decimal places, and both
roundings send a half to the even neighbour. The arithmetic is exact, on
natural numbers.
-/

namespace OutOfOrder.Text

/-- A quotient rounded to the nearest natural number, a half to the even
neighbour. -/
def roundDiv (num den : Nat) : Nat :=
  let q := num / den
  let r := num % den
  if 2 * r < den then q else if den < 2 * r then q + 1 else q + q % 2

/-- How many binary places a quotient is kept with, to have fifty-three
digits. -/
def binaryPlaces (num den : Nat) : Nat :=
  let s := 53 + den.log2 - num.log2
  if 1 <<< 53 ≤ (num <<< s) / den then s - 1 else s

/-- **The nearest number with fifty-three binary digits**, to one that is not
negative. -/
def binaryFraction (q : Rat) : Rat :=
  let s := binaryPlaces q.num.toNat q.den
  mkRat (roundDiv (q.num.toNat <<< s) q.den) (1 <<< s)

/-- A number that is not negative, with six decimal places. -/
def sixPlaces (q : Rat) : String :=
  let millionths := roundDiv (q.num.toNat * 1000000) q.den
  let places := (Nat.toDigits 10 (1000000 + millionths % 1000000)).drop 1
  toString (millionths / 1000000) ++ "." ++ String.ofList places

end OutOfOrder.Text
