import OutOfOrder.Text.Quoted
/-!
# Designations

Operations and functional units are designated by name, by number, or not
at all. What a designation stands for is decided where it is used; a
message that refuses one shows it as it was given.
-/

namespace OutOfOrder

/-- What a caller gives where an operation or a unit is wanted. -/
inductive Designation where
  | name (s : String)
  | number (n : Int)
  | absent
deriving DecidableEq, Repr

/-- A designation as a message shows it: a name in quotes. -/
def Designation.text : Designation → String
  | .name s => Text.quoted s
  | .number n => toString n
  | .absent => "None"

end OutOfOrder
