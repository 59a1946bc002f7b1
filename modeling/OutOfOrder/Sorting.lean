/-!
# Sorting

Lists are sorted by insertion. Elements that the order does not tell apart
stay in the order they had.
-/

namespace OutOfOrder

variable {α : Type}

/-- Puts an element before the first that is not to stand ahead of it. -/
def insertSorted (le : α → α → Bool) (a : α) : List α → List α
  | [] => [a]
  | b :: l => if le a b then a :: b :: l else b :: insertSorted le a l

/-- The list in order. -/
def sortBy (le : α → α → Bool) : List α → List α
  | [] => []
  | a :: l => insertSorted le a (sortBy le l)

end OutOfOrder
