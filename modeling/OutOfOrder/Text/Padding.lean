/-!
# Padding

Columns of a table are padded with spaces to a width counted in
characters. A text longer than its column is left as it is.
-/

namespace OutOfOrder.Text

/-- Spaces before the text, up to the width. -/
def padLeft (width : Nat) (s : String) : String :=
  String.ofList (List.replicate (width - s.length) ' ') ++ s

/-- Spaces after the text, up to the width. -/
def padRight (width : Nat) (s : String) : String :=
  s ++ String.ofList (List.replicate (width - s.length) ' ')

end OutOfOrder.Text
