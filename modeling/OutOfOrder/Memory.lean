import OutOfOrder.Fault
/-!
# Memory

Code and data share one memory of 65536 words, addressed by words. `get`
and `set` work on addresses; `read` and `write` take any integer and refuse
one that is no address. A block is written whole or not at all.
-/

namespace OutOfOrder

/-- The contents of the memory. -/
structure Memory where
  words : Vector Word 65536
deriving DecidableEq

namespace Memory

/-- The number of words. -/
def size : Nat := 65536

/-- How many words a listing shows unless it is told otherwise. -/
def listingSize : Int := 16

/-- A memory of zeros. -/
def empty : Memory := ⟨Vector.replicate 65536 0⟩

/-- The word at an address. -/
def get (m : Memory) (a : Address) : Word := m.words[a]

/-- Replaces the word at an address. -/
def set (m : Memory) (a : Address) (w : Word) : Memory := ⟨m.words.set a w⟩

/-- An integer as an address. -/
def address (a : Int) : Except Fault Address :=
  if h : 0 ≤ a ∧ a < 65536 then .ok ⟨a.toNat, toNat_lt_of_inRange h⟩ else .error (.memoryAddress a)

/-- Reads the word at an address. -/
def read (m : Memory) (a : Int) : Except Fault Int :=
  (address a).map fun a => (m.get a).toInt

/-- Writes the low sixteen bits of a value at an address. -/
def write (m : Memory) (a v : Int) : Except Fault Memory :=
  (address a).map fun a => m.set a (Word.ofInt v)

/-- Writes pairs of address and value one after the other, up to the first
that is refused. -/
def writePairs (m : Memory) : List (Int × Int) → Except (Fault × Memory) Memory
  | [] => .ok m
  | (a, v) :: rest =>
    match m.write a v with
    | .ok m => m.writePairs rest
    | .error fault => .error (fault, m)

/-- Puts values at consecutive addresses; what would lie beyond the last
address is dropped. -/
def setBlock (m : Memory) (a : Nat) : List Int → Memory
  | [] => m
  | v :: rest =>
    if h : a < 65536 then (m.set ⟨a, h⟩ (Word.ofInt v)).setBlock (a + 1) rest else m

/-- **Writes a block.** Nothing is written unless both ends of the block
are addresses. An empty block is accepted anywhere. -/
def writeBlock (m : Memory) (a : Int) (values : List Int) : Except Fault Memory :=
  match values with
  | [] => .ok m
  | values => do
    let first ← address a
    let _ ← address (a + values.length - 1)
    pure (m.setBlock first values)

/-- The words at `count` addresses from `first` on, with their addresses. -/
def slice (m : Memory) (first count : Nat) : List (Int × Int) :=
  (List.range' first count).filterMap fun (a : Nat) =>
    if h : a < 65536 then some ((a : Int), (m.get ⟨a, h⟩).toInt) else none

/-- A listing of the memory from an address on. It ends with the last
address, and is empty for a count below one. -/
def dump (m : Memory) (start count : Int) : Except Fault (List (Int × Int)) := do
  let first ← address start
  pure (m.slice first (min (start + count) 65536 - start).toNat)

/-- The words that are not zero, with their addresses. -/
def nonZero (m : Memory) : List (Int × Int) :=
  (List.finRange 65536).filterMap fun a =>
    if m.get a = 0 then none else some ((a.val : Int), (m.get a).toInt)

/-- A summary of the memory on one line. -/
def text (m : Memory) : String :=
  s!"Memory(65536 words, {m.nonZero.length} non-zero entries)"

end Memory

end OutOfOrder
