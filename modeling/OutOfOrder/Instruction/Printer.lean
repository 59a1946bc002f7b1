import OutOfOrder.Instruction.Basic
/-!
# Instructions as text

The assembly text of an instruction, and the longer form that lists its
fields by name. Memory instructions write the offset before the base
register, in brackets.
-/

namespace OutOfOrder

/-- A register by its number. -/
def Reg.text (r : Reg) : String := s!"R{r.val}"

namespace Instruction

/-- The name of the operation; an undefined opcode is named by its number. -/
def name (i : Instruction) : String :=
  match i.opCode? with
  | some op => op.name
  | none => s!"UNDEFINED({i.opcode})"

/-- The instruction in assembly. -/
def text (i : Instruction) : String :=
  match i with
  | load rA rB o | store rA rB o => s!"{i.name} {rA.text}, {o}({rB.text})"
  | beq rA rB o => s!"{i.name} {rA.text}, {rB.text}, {o}"
  | call l => s!"{i.name} {l.val}"
  | ret => i.name
  | alu _ rA rB rC | undefined _ rA rB rC => s!"{i.name} {rA.text}, {rB.text}, {rC.text}"

/-- The instruction as a list of its fields. -/
def details (i : Instruction) : String :=
  let reg (field : String) (r? : Option Reg) := r?.map fun r => s!"{field}:{r.text}"
  let num (field : String) (n? : Option Int) := n?.map fun n => s!"{field}:{n}"
  let fields := [some s!"Op:{i.name}", reg "rA" i.rA?, reg "rB" i.rB?, reg "rC" i.rC?,
    num "Offset" i.offset?, num "Label" i.label?]
  "<Instruction " ++ ", ".intercalate (fields.filterMap id) ++ ">"

end Instruction

end OutOfOrder
