import OutOfOrder.Instruction.Codec
import OutOfOrder.Machine.Basic
/-!
# The Issue stage

Each cycle issues at most one instruction, the one at the program counter,
in program order. It goes to the first free station of its kind. Its
sources are read from the registers or, where an earlier instruction is
still to write one, become the tag of that instruction's station; then its
own destination is renamed to its station.

Nothing is issued while a jump is pending, since the next address is not
known, or at an empty word or an undefined opcode. After a branch the
machine goes on with the next address, and the status table is saved with
the branch in case that was wrong.
-/

namespace OutOfOrder

namespace Instruction

/-- A conditional branch. -/
def isBranch (i : Instruction) : Bool := i.opCode? = some .beq

/-- A call or a return. -/
def isJump (i : Instruction) : Bool := i.opCode? = some .call || i.opCode? = some .ret

end Instruction

/-- What is found at the program counter. -/
inductive Fetched where
  /-- An empty word, or no word at all past the end of memory. -/
  | nothing
  /-- A word whose opcode names no operation. -/
  | undefined (w : Word)
  /-- An instruction for a kind of unit. -/
  | instruction (i : Instruction) (kind : UnitKind)

namespace Machine

/-- Reads the word at the program counter. -/
def fetch (m : Machine) : Fetched :=
  if h : m.pc < 65536 then
    let w := m.memory.get ⟨m.pc, h⟩
    if w = 0 then .nothing
    else
      let i := Instruction.decode w
      match i.unit? with
      | some kind => .instruction i kind
      | none => .undefined w
  else .nothing

/-- The first free station of a kind, with its position in the pool. -/
def freeStation? (m : Machine) (kind : UnitKind) : Option (Station × Nat) :=
  m.stations.zipIdx.find? fun (s, _) => s.kind = kind && !s.busy

/-- A source of an instruction as an operand. -/
def source (m : Machine) : Option Reg → Operand
  | some r => m.registers.operand r
  | none => .unused

/-- What an instruction carries besides its operands: its offset, or where
it jumps to as far as that is known. -/
def immediate (m : Machine) : Instruction → Option Int
  | .load _ _ o | .store _ _ o | .beq _ _ o => some o
  | .call l => some (if m.relativeCalls then l.val + (m.pc + 1) else l.val)
  | .ret => (m.source (some Reg.link)).value?
  | .alu .. | .undefined .. => none

/-- The registers after an instruction was issued to the station with this
tag. -/
def renamed (m : Machine) (i : Instruction) (tag : Tag) : Registers :=
  match i.destination? with
  | some r => m.registers.rename r tag
  | none => m.registers

/-- Issues an instruction to the station at a position of the pool. -/
def issueTo (m : Machine) (i : Instruction) (s : Station) (n : Nat) : Outcome :=
  let seq := m.nextSeq
  let m := { m with nextSeq := seq + 1 }
  match s.issue i m.pc seq (m.source i.sources.1) (m.source i.sources.2) (m.immediate i) with
  | .error fault => m.trap fault
  | .ok s =>
    let s := if i.isBranch then s.saveStatus m.registers.status else s
    .ok { m with
      stations := m.stations.set n s
      registers := m.renamed i s.tag
      issued := m.issued ++ [⟨i, m.cycle, s.name, s.tag, m.pc, seq⟩]
      pc := m.pc + 1
      issuedAfterBranch := m.issuedAfterBranch + (if m.branchPending then 1 else 0)
      branchPending := m.branchPending || i.isBranch
      branches := m.branches + (if i.isBranch then 1 else 0)
      jumpPending := m.jumpPending || i.isJump }

/-- **The Issue stage.** -/
def issue (m : Machine) : Outcome :=
  if m.jumpPending then .ok m
  else
    match m.fetch with
    | .instruction i kind =>
      match m.freeStation? kind with
      | some (s, n) => m.issueTo i s n
      | none => .ok m
    | _ => .ok m

end Machine

end OutOfOrder
