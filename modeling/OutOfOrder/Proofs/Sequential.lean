import OutOfOrder.Instruction.Codec
import OutOfOrder.Memory
/-!
# The sequential machine

The machine as its programs see it: eight registers, a memory and a program
counter, and one instruction after the other. It has no stations, no tags
and no cycles. What the pipelined machine does is measured against it.

`execute` performs one given instruction; `fetch` finds the instruction at
the program counter, and a machine that finds none has halted. `after` is
the state that so many instructions lead to.
-/

namespace OutOfOrder

/-- An operation on sixteen bits. -/
def AluOp.onBits : AluOp → BitVec 16 → BitVec 16 → BitVec 16
  | add, a, b => a + b
  | sub, a, b => a - b
  | nor, a, b => ~~~(a ||| b)
  | mul, a, b => a * b

/-- An operation on words. -/
def AluOp.onWords (op : AluOp) (a b : Word) : Word :=
  (op.onBits (BitVec.ofFin a) (BitVec.ofFin b)).toFin

namespace Sequential

/-- The state of the sequential machine. -/
@[ext]
structure State where
  registers : Reg → Word
  memory : Memory
  pc : Int

namespace State

variable (relative : Bool) (s : State)

/-- The value of a register. Register 0 reads zero. -/
def read (r : Reg) : Word := if r = 0 then 0 else s.registers r

/-- Writes a register. Writes to register 0 are discarded. -/
def write (r : Reg) (w : Word) : State :=
  if r = 0 then s else { s with registers := fun x => if x = r then w else s.registers x }

/-- The address that a base register and an offset stand for. -/
def effective (base : Reg) (offset : Int) : Address :=
  Word.ofInt ((s.read base).toInt + offset)

/-- **One instruction.** The instruction is performed at once, at the
program counter of the state. -/
def execute : Instruction → State
  | .load rA rB offset =>
    { s.write rA (s.memory.get (s.effective rB offset)) with pc := s.pc + 1 }
  | .store rA rB offset =>
    { s with memory := s.memory.set (s.effective rB offset) (s.read rA), pc := s.pc + 1 }
  | .beq rA rB offset =>
    { s with pc := if s.read rA = s.read rB then s.pc + 1 + offset else s.pc + 1 }
  | .call label =>
    { s.write Reg.link (Word.ofInt (s.pc + 1)) with
      pc := if relative then s.pc + 1 + label.val else label.val }
  | .ret => { s with pc := (s.read Reg.link).toInt }
  | .alu op rA rB rC => { s.write rA (op.onWords (s.read rB) (s.read rC)) with pc := s.pc + 1 }
  | .undefined .. => s

/-- The instruction at the program counter. There is none outside memory,
in an empty word, or where the opcode is one of 9 to 15. -/
def fetch : Option Instruction :=
  if h : 0 ≤ s.pc ∧ s.pc < 65536 then
    let w := s.memory.get ⟨s.pc.toNat, by omega⟩
    if w = 0 ∨ 9 ≤ w.val / 4096 then none else some (Instruction.decode w)
  else none

/-- The state after one instruction, unless the machine has halted. -/
def step? : Option State := s.fetch.map (s.execute relative)

/-- **The state after so many instructions**, if there were so many. -/
def after : Nat → State → Option State
  | 0, s => some s
  | n + 1, s => (after n s).bind (step? relative)

/-- The machine halts after exactly `n` instructions, in the state `t`. -/
def HaltsAfter (n : Nat) (t : State) : Prop := s.after relative n = some t ∧ t.fetch = none

/-- The value that an instruction leaves in the register it writes. -/
def result : Instruction → Word
  | .load _ rB offset => s.memory.get (s.effective rB offset)
  | .alu op _ rB rC => op.onWords (s.read rB) (s.read rC)
  | .call _ => Word.ofInt (s.pc + 1)
  | _ => 0

/-- The address and the value that a store writes. -/
def stores? : Instruction → Option (Address × Word)
  | .store rA rB offset => some (s.effective rB offset, s.read rA)
  | _ => none

/-- The address that a load or store accesses. -/
def accesses? : Instruction → Option Address
  | .load _ rB offset | .store _ rB offset => some (s.effective rB offset)
  | _ => none

/-- The operands of a branch are equal. -/
def branches : Instruction → Bool
  | .beq rA rB _ => s.read rA = s.read rB
  | _ => false

/-! ## Runs of the sequential machine -/

/-- The run performs an instruction in a state. -/
def Performs (t : State) (i : Instruction) : Prop :=
  ∃ n, s.after relative n = some t ∧ t.fetch = some i

/-- The run stores to an address. -/
def Stored (a : Address) : Prop :=
  ∃ t i w, s.Performs relative t i ∧ t.stores? i = some (a, w)

/-- The run fetches from an address, or halts there. -/
def Visited (a : Address) : Prop := ∃ n t, s.after relative n = some t ∧ t.pc = Word.toInt a

/-- **The run does not write to its own code.** No store of the run is to an
address that the run fetches from or halts at. -/
def KeepsCode : Prop := ∀ a, s.Stored relative a → ¬ s.Visited relative a

/-- The instruction is a call or a branch that is taken. -/
def leaps : Instruction → Bool
  | .call _ => true
  | i => s.branches i

/-- **The run stays inside memory.** Its calls and the branches it takes
lead to addresses. -/
def StaysInside : Prop :=
  ∀ t i, s.Performs relative t i → t.leaps i →
    0 ≤ (t.execute relative i).pc ∧ (t.execute relative i).pc < 65536

end State

end Sequential

end OutOfOrder
