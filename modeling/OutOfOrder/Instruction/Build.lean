import OutOfOrder.Fault
import OutOfOrder.Text.Capitals
/-!
# Building instructions from drafts

`Draft.build` accepts a draft whose operation is known, which gives only
fields of the operation's format, and whose fields are in range. Fields the
draft leaves out are zero. Offsets are checked only when the caller asks
for it. Of several things wrong with a draft the fault reports the first:
the operation, then fields that do not belong, then the values.
-/

namespace OutOfOrder

/-- The operation a designation stands for. Names are read in capitals. -/
def Designation.opCode? : Designation → Option OpCode
  | .name s => OpCode.ofName? (Text.capitals s)
  | .number n => OpCode.ofCode? n
  | .absent => none

/-- A register field of a draft, zero when left out. -/
def regOfField (field : Field) (given : Option Int) : Except Fault Reg :=
  let n := given.getD 0
  if h : 0 ≤ n ∧ n < 8 then .ok ⟨n.toNat, by omega⟩ else .error (.registerField field n)

/-- The offset of a draft. -/
def offsetOfField (checked : Bool) (given : Option Int) : Except Fault Int :=
  let n := given.getD 0
  if checked && !(-16 ≤ n && n ≤ 15) then .error (.offsetField n) else .ok n

/-- The label of a draft. -/
def labelOfField (given : Option Int) : Except Fault Label :=
  let n := given.getD 0
  if h : -64 ≤ n ∧ n ≤ 63 then .ok ⟨n, h⟩ else .error (.labelField n)

namespace Draft

/-- The first field that is given although the operation has no such
field. -/
def strayField? (d : Draft) (op : OpCode) : Option (Field × Int) :=
  Field.all.findSome? fun f => if f ∈ op.fields then none else (d.field f).map fun v => (f, v)

/-- The fields of an instruction that moves data between a register and
memory, or compares two registers. -/
def offsetFields (d : Draft) (checked : Bool) : Except Fault (Reg × Reg × Int) := do
  let rA ← regOfField .rA d.rA
  let rB ← regOfField .rB d.rB
  let offset ← offsetOfField checked d.offset
  pure (rA, rB, offset)

/-- A computing instruction with the fields of a draft. -/
def computing (d : Draft) (op : AluOp) : Except Fault Instruction := do
  let rA ← regOfField .rA d.rA
  let rB ← regOfField .rB d.rB
  let rC ← regOfField .rC d.rC
  pure (.alu op rA rB rC)

/-- The instruction of a known operation with the fields of a draft. -/
def fill (d : Draft) (checked : Bool) : OpCode → Except Fault Instruction
  | .load => (d.offsetFields checked).map fun (rA, rB, o) => .load rA rB o
  | .store => (d.offsetFields checked).map fun (rA, rB, o) => .store rA rB o
  | .beq => (d.offsetFields checked).map fun (rA, rB, o) => .beq rA rB o
  | .call => (labelOfField d.label).map .call
  | .ret => .ok .ret
  | .add => d.computing .add
  | .sub => d.computing .sub
  | .nor => d.computing .nor
  | .mul => d.computing .mul

/-- **The instruction a draft describes.** With `checked`, offsets must fit
five bits. -/
def build (d : Draft) (checked : Bool) : Except Fault Instruction :=
  match d.opcode.opCode? with
  | none => .error (.undefinedOpcode d.opcode)
  | some op =>
    match d.strayField? op with
    | some (field, given) => .error (.strayField op field given)
    | none => d.fill checked op

end Draft

end OutOfOrder
