import OutOfOrder.Fault
/-!
# Instruction words

The sixteen bits of an instruction: four for the opcode, three for each
register field, five for an offset, seven for a label. Encoding keeps the
low bits of an offset; decoding reads them in two's complement. Every word
decodes, those with an undefined opcode included.
-/

namespace OutOfOrder.Instruction

/-- The bits of the fields, below the opcode. -/
def fieldBits : Instruction → Nat
  | load rA rB o | store rA rB o | beq rA rB o => rA * 512 + rB * 64 + (o % 32).toNat
  | call l => (l.val % 128).toNat
  | ret => 0
  | alu _ rA rB rC | undefined _ rA rB rC => rA * 512 + rB * 64 + rC * 8

theorem fieldBits_lt (i : Instruction) : i.fieldBits < 4096 := by
  cases i <;> simp only [fieldBits] <;> omega

theorem opcode_lt (i : Instruction) : i.opcode < 16 := by
  cases i with
  | alu op => cases op <;> simp [opcode, AluOp.opCode, OpCode.code]
  | undefined code => simp only [opcode]; omega
  | _ => simp [opcode]

/-- The word of an instruction. -/
def encode (i : Instruction) : Word :=
  ⟨i.opcode * 4096 + i.fieldBits, by
    have := i.fieldBits_lt
    have := i.opcode_lt
    omega⟩

/-- Three bits of a word, from the given power of two on. -/
def regField (w : Word) (unit : Nat) : Reg := ⟨w / unit % 8, by omega⟩

/-- The label field of a word. -/
def labelField (w : Word) : Label :=
  ⟨signExtend w.toInt 7, by
    have h : -64 ≤ signExtend w.toInt 7 ∧ signExtend w.toInt 7 < 64 :=
      signExtend_bounds w.toInt 6
    omega⟩

/-- The instruction a word stands for. -/
def decode (w : Word) : Instruction :=
  let rA := regField w 512
  let rB := regField w 64
  let rC := regField w 8
  let offset := signExtend w.toInt 5
  match h : w.val / 4096 with
  | 0 => load rA rB offset
  | 1 => store rA rB offset
  | 2 => beq rA rB offset
  | 3 => call (labelField w)
  | 4 => ret
  | 5 => alu .add rA rB rC
  | 6 => alu .sub rA rB rC
  | 7 => alu .nor rA rB rC
  | 8 => alu .mul rA rB rC
  | n + 9 => undefined ⟨n, by omega⟩ rA rB rC

/-- The instruction an integer stands for, if it is a word. -/
def decode? (v : Int) : Except Fault Instruction :=
  if 0 ≤ v ∧ v ≤ 65535 then .ok (decode (Word.ofInt v)) else .error (.notAWord v)

end OutOfOrder.Instruction
