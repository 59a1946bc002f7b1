import OutOfOrder.Word
/-!
# Instructions

The nine operations, the seven kinds of functional unit that carry them
out, and the instructions. An instruction has the fields of its format and
no others, so `Instruction` has a constructor for each operation that moves
data or control, one for the four that compute, and one for the words whose
opcode names no operation.

Registers and labels are in range by their types. An offset need not be:
where offsets are not checked an instruction may hold any integer, and
only encoding reduces it.
-/

namespace OutOfOrder

/-- The operations of the machine. -/
inductive OpCode where
  | load | store | beq | call | ret | add | sub | nor | mul
deriving DecidableEq, Repr

namespace OpCode

/-- All operations, in the order of their codes. -/
def all : List OpCode := [load, store, beq, call, ret, add, sub, nor, mul]

/-- The four-bit code of an operation. -/
def code : OpCode → Nat
  | load => 0
  | store => 1
  | beq => 2
  | call => 3
  | ret => 4
  | add => 5
  | sub => 6
  | nor => 7
  | mul => 8

/-- The name of an operation, as programs write it. -/
def name : OpCode → String
  | load => "LOAD"
  | store => "STORE"
  | beq => "BEQ"
  | call => "CALL"
  | ret => "RET"
  | add => "ADD"
  | sub => "SUB"
  | nor => "NOR"
  | mul => "MUL"

/-- The operation with a given code. -/
def ofCode? (n : Int) : Option OpCode := all.find? fun op => op.code = n

/-- The operation with exactly this name. -/
def ofName? (s : String) : Option OpCode := all.find? fun op => op.name = s

end OpCode

/-- The kinds of functional unit. A reservation station belongs to one. -/
inductive UnitKind where
  | load | store | beq | callRet | addSub | nor | mul
deriving DecidableEq, Repr

namespace UnitKind

/-- All kinds, in the order in which a pool lists them. -/
def all : List UnitKind := [load, store, beq, callRet, addSub, nor, mul]

/-- The name of a kind. -/
def name : UnitKind → String
  | load => "LOAD"
  | store => "STORE"
  | beq => "BEQ"
  | callRet => "CALL_RET"
  | addSub => "ADD_SUB"
  | nor => "NOR"
  | mul => "MUL"

/-- The kind with exactly this name. -/
def ofName? (s : String) : Option UnitKind := all.find? fun k => k.name = s

/-- The kinds whose stations access memory. -/
def isMemory : UnitKind → Bool
  | load | store => true
  | _ => false

/-- The kinds whose results go out on the bus. The others finish in the
Execute stage. -/
def usesBus : UnitKind → Bool
  | load | addSub | nor | mul => true
  | _ => false

end UnitKind

/-- The kind of unit an operation needs. -/
def OpCode.unit : OpCode → UnitKind
  | load => .load
  | store => .store
  | beq => .beq
  | call | ret => .callRet
  | add | sub => .addSub
  | nor => .nor
  | mul => .mul

/-- The operations that compute a result from two registers. -/
inductive AluOp where
  | add | sub | nor | mul
deriving DecidableEq, Repr

namespace AluOp

/-- A computing operation among all operations. -/
def opCode : AluOp → OpCode
  | add => .add
  | sub => .sub
  | nor => .nor
  | mul => .mul

/-- **What an operation computes.** The result is a word whatever the
operands are. NOR works on the sixteen bits of its operands, so it is what
is left of 65535 when every bit set in either is taken away. -/
def eval : AluOp → Int → Int → Int
  | add, a, b => wrap (a + b)
  | sub, a, b => wrap (a - b)
  | nor, a, b => 65535 - (((wrap a).toNat ||| (wrap b).toNat : Nat) : Int)
  | mul, a, b => wrap (a * b)

end AluOp

/-- The label of a CALL: seven bits, read in two's complement. -/
abbrev Label := { l : Int // -64 ≤ l ∧ l ≤ 63 }

/-- A machine instruction.

The seven opcodes from 9 to 15 name no operation. A word with such an
opcode is kept in the layout of a computing instruction, and `code` counts
from 9. -/
inductive Instruction where
  | load (rA rB : Reg) (offset : Int)
  | store (rA rB : Reg) (offset : Int)
  | beq (rA rB : Reg) (offset : Int)
  | call (label : Label)
  | ret
  | alu (op : AluOp) (rA rB rC : Reg)
  | undefined (code : Fin 7) (rA rB rC : Reg)
deriving DecidableEq

namespace Instruction

/-- The operation, unless the opcode names none. -/
def opCode? : Instruction → Option OpCode
  | load .. => some .load
  | store .. => some .store
  | beq .. => some .beq
  | call .. => some .call
  | ret => some .ret
  | alu op .. => some op.opCode
  | undefined .. => none

/-- The four bits of the opcode. -/
def opcode : Instruction → Nat
  | load .. => 0
  | store .. => 1
  | beq .. => 2
  | call .. => 3
  | ret => 4
  | alu op .. => op.opCode.code
  | undefined code .. => code + 9

/-- The first register field, in the formats that have it. -/
def rA? : Instruction → Option Reg
  | load rA .. | store rA .. | beq rA .. | alu _ rA .. | undefined _ rA .. => some rA
  | call .. | ret => none

/-- The second register field. -/
def rB? : Instruction → Option Reg
  | load _ rB _ | store _ rB _ | beq _ rB _ | alu _ _ rB _ | undefined _ _ rB _ => some rB
  | call .. | ret => none

/-- The third register field. -/
def rC? : Instruction → Option Reg
  | alu _ _ _ rC | undefined _ _ _ rC => some rC
  | _ => none

/-- The offset field. -/
def offset? : Instruction → Option Int
  | load _ _ o | store _ _ o | beq _ _ o => some o
  | _ => none

/-- The label field. -/
def label? : Instruction → Option Int
  | call l => some l.val
  | _ => none

/-- The register that the instruction writes through the bus. -/
def destination? : Instruction → Option Reg
  | load rA .. | alu _ rA .. => some rA
  | _ => none

/-- The registers that the instruction reads, in the order of its two
operands: the base before the stored value, and RET reads the link
register. -/
def sources : Instruction → Option Reg × Option Reg
  | load _ rB _ => (some rB, none)
  | store rA rB _ => (some rB, some rA)
  | beq rA rB _ => (some rA, some rB)
  | call _ => (none, none)
  | ret => (some Reg.link, none)
  | alu _ _ rB rC | undefined _ _ rB rC => (some rB, some rC)

/-- The kind of unit the instruction needs. No unit carries out an
undefined opcode. -/
def unit? (i : Instruction) : Option UnitKind := i.opCode?.map OpCode.unit

end Instruction

end OutOfOrder
