import OutOfOrder.Operand
import OutOfOrder.Text.Hex
/-!
# Registers and their status

The register file holds eight words and, for each register, its status: the
tag of the station that will write it next, or nothing when its value is
committed. Register 0 reads zero, is never written and never waits.

The functions on a `Reg` are the file as the machine uses it. The functions
on an integer are the same ones for callers who number registers
themselves; they refuse a number that is no register.
-/

namespace OutOfOrder

/-- For each register the station that will write it next, if any. -/
abbrev StatusTable := Vector (Option Tag) 8

/-- The register file with its status table. -/
structure Registers where
  values : Vector Word 8
  status : StatusTable
deriving DecidableEq

namespace Registers

/-- The number of registers. -/
def count : Nat := 8

/-- All registers zero and committed. -/
def empty : Registers := ⟨Vector.replicate 8 0, Vector.replicate 8 none⟩

/-- The committed value of a register. -/
def get (f : Registers) (r : Reg) : Int := if r = 0 then 0 else (f.values.get r).toInt

/-- Writes the low sixteen bits of a value. -/
def set (f : Registers) (r : Reg) (v : Int) : Registers :=
  if r = 0 then f else { f with values := f.values.set r (Word.ofInt v) }

/-- The station that will write a register next, if any. -/
def tag (f : Registers) (r : Reg) : Option Tag := if r = 0 then none else f.status.get r

/-- Makes a station the next writer of a register. -/
def rename (f : Registers) (r : Reg) (t : Tag) : Registers :=
  if r = 0 then f else { f with status := f.status.set r (some t) }

/-- Marks the value of a register as committed. -/
def commit (f : Registers) (r : Reg) : Registers :=
  { f with status := f.status.set r none }

/-- A register as a source: its value, or the station to wait for. -/
def operand (f : Registers) (r : Reg) : Operand :=
  match f.tag r with
  | some t => .waiting t
  | none => .value (f.get r)

/-- The eight committed values. -/
def snapshot (f : Registers) : List Int := (List.finRange 8).map f.get

/-- Puts a saved status table back. Register 0 stays committed. -/
def restore (f : Registers) (saved : StatusTable) : Registers :=
  { f with status := saved.set 0 none }

/-- The registers whose value a broadcast replaces: those that wait for the
tag, and those listed. -/
def hears (f : Registers) (tag : Tag) (through : List Int) (r : Reg) : Bool :=
  r ≠ 0 && (f.status.get r = some tag || (r.val : Int) ∈ through)

/-- **A result reaches the registers.** Those that wait for its tag take
the value and are committed. Those in `through` take it and keep their
status, since a younger instruction is to write them. -/
def broadcast (f : Registers) (tag : Tag) (v : Int) (through : List Int) : Registers :=
  { values := Vector.ofFn fun r =>
      if f.hears tag through r then Word.ofInt v else f.values.get r
    status := Vector.ofFn fun r =>
      if r ≠ 0 ∧ f.status.get r = some tag then none else f.status.get r }

/-- The registers that a broadcast updates, in ascending order. -/
def updatedBy (f : Registers) (tag : Tag) (through : List Int) : List Reg :=
  (List.finRange 8).filter (f.hears tag through)

/-- Gives the registers from 0 on new values. Register 0 keeps its own. -/
def load (f : Registers) (values : List Int) : Except Fault Registers :=
  if 8 < values.length then .error (.registerCount values.length)
  else .ok { f with values := Vector.ofFn fun r =>
    match values[r.val]? with
    | some v => if r = 0 then f.values.get r else Word.ofInt v
    | none => f.values.get r }

/-! ## Registers by number -/

/-- An integer as a register. -/
def index (i : Int) : Except Fault Reg :=
  if h : 0 ≤ i ∧ i < 8 then .ok ⟨i.toNat, by omega⟩ else .error (.registerIndex i)

/-- The value of a register given by its number. -/
def read (f : Registers) (i : Int) : Except Fault Int := (index i).map f.get

/-- Writes a register given by its number. -/
def write (f : Registers) (i v : Int) : Except Fault Registers :=
  (index i).map fun r => f.set r v

/-- The status of a register given by its number. -/
def readTag (f : Registers) (i : Int) : Except Fault (Option Tag) := (index i).map f.tag

/-- Makes a register given by its number wait for a station. The tag must
be there and not be negative, except that register 0 takes any. -/
def writeTag (f : Registers) (i : Int) (t : Option Tag) : Except Fault Registers := do
  let r ← index i
  if r = 0 then pure f
  else match t with
    | some t => if t < 0 then throw (.renameTag i (some t)) else pure (f.rename r t)
    | none => throw (.renameTag i none)

/-- Commits a register given by its number. -/
def clearTag (f : Registers) (i : Int) : Except Fault Registers := (index i).map f.commit

/-- A register given by its number, as a source. -/
def readOperand (f : Registers) (i : Int) : Except Fault Operand := (index i).map f.operand

/-- Writes pairs of register and value one after the other, up to the first
that is refused. -/
def writePairs (f : Registers) : List (Int × Int) → Except (Fault × Registers) Registers
  | [] => .ok f
  | (i, v) :: rest =>
    match f.write i v with
    | .ok f => f.writePairs rest
    | .error fault => .error (fault, f)

/-- Puts back a status table given as a list, which must have eight
entries. -/
def restoreList (f : Registers) (saved : List (Option Tag)) : Except Fault Registers :=
  if h : saved.length = 8 then .ok (f.restore ⟨saved.toArray, by simpa using h⟩)
  else .error (.checkpointSize saved.length)

/-! ## The file as text -/

/-- One register on one line: its value in hexadecimal and in decimal, and
the station it waits for. -/
def line (f : Registers) (r : Reg) : String :=
  let pending := match f.tag r with
    | some t => s!" (Pending: RS#{t})"
    | none => ""
  s!"{r.text}: {Text.hex 4 (f.get r).toNat} ({f.get r})" ++ pending

/-- The register file on nine lines. -/
def text (f : Registers) : String :=
  "RegisterFile:\n  " ++ "\n  ".intercalate ((List.finRange 8).map f.line)

end Registers

end OutOfOrder
