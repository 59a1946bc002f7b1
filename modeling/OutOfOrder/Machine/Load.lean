import OutOfOrder.Instruction.Codec
import OutOfOrder.Machine.Basic
/-!
# Loading

Programs, data and register values are put into a machine before it runs,
or between cycles. An instruction is checked where it is placed: its
address, its offset if offsets are checked, and the address a branch or
call would move to.

A list of instructions is placed one by one. If one of them is refused, the
ones before it have been placed, and the trap shows the machine with them.
-/

namespace OutOfOrder

/-- The address that a branch, when taken, or a call moves to from its
place. Where a return goes is known only when it runs. -/
def Instruction.jumpTarget? (i : Instruction) (relative : Bool) (address : Int) : Option Int :=
  match i with
  | beq _ _ offset => some (address + 1 + offset)
  | call label => some (if relative then address + 1 + label.val else label.val)
  | _ => none

/-- An offset that five bits hold, or no offset. -/
def Instruction.offsetFits (i : Instruction) : Bool :=
  i.offset?.all fun o => -16 ≤ o && o ≤ 15

namespace Machine

/-- Enters an instruction under its address, in ascending order. -/
def insertLoaded (a : Nat) (i : Instruction) :
    List (Nat × Instruction) → List (Nat × Instruction)
  | [] => [(a, i)]
  | (b, j) :: rest =>
    if a < b then (a, i) :: (b, j) :: rest
    else if a = b then (a, i) :: rest
    else (b, j) :: insertLoaded a i rest

/-- The target of an instruction, checked where it has one. -/
def checkTarget (m : Machine) (i : Instruction) (a : Int) : Except Fault Unit :=
  match i.jumpTarget? m.relativeCalls a with
  | some t => if 0 ≤ t ∧ t < 65536 then .ok () else .error (.jumpTarget t i a)
  | none => .ok ()

/-- **Places an instruction.** Its word is written to memory. -/
def addInstruction (m : Machine) (i : Instruction) (a : Int) : Except Fault Machine := do
  let place ← address .instruction a
  if m.offsetsChecked && !i.offsetFits then throw (.instructionOffset i)
  m.checkTarget i a
  pure { m with
    memory := m.memory.set place i.encode
    loaded := insertLoaded place i m.loaded }

/-- Places instructions at consecutive addresses, up to the first that is
refused. -/
def placeAll (m : Machine) (a : Int) : List Instruction → Outcome
  | [] => .ok m
  | i :: rest =>
    match m.addInstruction i a with
    | .ok m => m.placeAll (a + 1) rest
    | .error fault => m.trap fault

/-- Places a list of instructions. Before the first is placed both ends of
the list must be addresses. -/
def addInstructions (m : Machine) (instrs : List Instruction) (a : Int) : Outcome :=
  match instrs with
  | [] => .ok m
  | instrs => do
    let _ ← m.guard (address .instruction a)
    let _ ← m.guard (address .instruction (a + instrs.length - 1))
    m.placeAll a instrs

/-- Writes a block of data. -/
def addData (m : Machine) (values : List Int) (a : Int) : Except Fault Machine :=
  (m.memory.writeBlock a values).map fun mem => { m with memory := mem }

/-- Writes one register. -/
def setRegister (m : Machine) (i v : Int) : Except Fault Machine :=
  (m.registers.write i v).map fun f => { m with registers := f }

/-- Writes the registers from 0 on. -/
def setRegisters (m : Machine) (values : List Int) : Except Fault Machine :=
  (m.registers.load values).map fun f => { m with registers := f }

/-- Writes data words given with their addresses, up to the first that is
refused. -/
def setWords (m : Machine) (pairs : List (Int × Int)) : Outcome :=
  match m.memory.writePairs pairs with
  | .ok mem => .ok { m with memory := mem }
  | .error (fault, mem) => trap { m with memory := mem } fault

/-- Writes registers given with their numbers, up to the first that is
refused. -/
def setRegisterPairs (m : Machine) (pairs : List (Int × Int)) : Outcome :=
  match m.registers.writePairs pairs with
  | .ok f => .ok { m with registers := f }
  | .error (fault, f) => trap { m with registers := f } fault

/-- **Loads a program.** Its instructions are placed from an address on,
memory and registers get their first values, and the program counter is
set to the first instruction. -/
def loadProgram (m : Machine) (instrs : List Instruction) (start : Int)
    (memory registers : List (Int × Int)) : Outcome := do
  let m ← m.addInstructions instrs start
  let m ← m.setWords memory
  let m ← m.setRegisterPairs registers
  m.jumpTo start

/-- Issues an instruction by hand to the station of a name, past the Issue
stage: no register is renamed, nothing enters the histories, and the
program counter stays. -/
def issueByHand (m : Machine) (name : String) (issue : Station → Except Fault Station) :
    Except Fault Machine :=
  match m.stations.findIdx? fun s => s.name = name with
  | none => .error (.noStation name)
  | some n =>
    match m.stations[n]? with
    | none => .error (.noStation name)
    | some s => (issue s).map fun s => m.setStation n s

end Machine

end OutOfOrder
