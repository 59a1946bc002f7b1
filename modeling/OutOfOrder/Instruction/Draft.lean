import OutOfOrder.Designation
import OutOfOrder.Instruction.Basic
/-!
# Drafts of instructions

A draft is an instruction as a caller describes it: an operation, and for
each field an integer or nothing. `Draft.build` in `Instruction.Build`
decides which drafts are instructions.
-/

namespace OutOfOrder

/-- The fields an instruction may have. -/
inductive Field where
  | rA | rB | rC | offset | label
deriving DecidableEq, Repr

namespace Field

/-- All fields, in the order in which a draft is checked. -/
def all : List Field := [rA, rB, rC, offset, label]

/-- The name of a field. -/
def name : Field → String
  | rA => "rA"
  | rB => "rB"
  | rC => "rC"
  | offset => "offset"
  | label => "label"

end Field

/-- The fields in the format of an operation. -/
def OpCode.fields : OpCode → List Field
  | .load | .store | .beq => [.rA, .rB, .offset]
  | .call => [.label]
  | .ret => []
  | .add | .sub | .nor | .mul => [.rA, .rB, .rC]

/-- An instruction as a caller describes it. A field that is left out
counts as zero where the format has it. -/
structure Draft where
  opcode : Designation
  rA : Option Int := none
  rB : Option Int := none
  rC : Option Int := none
  offset : Option Int := none
  label : Option Int := none
deriving DecidableEq

/-- What a draft gives for a field. -/
def Draft.field (d : Draft) : Field → Option Int
  | .rA => d.rA
  | .rB => d.rB
  | .rC => d.rC
  | .offset => d.offset
  | .label => d.label

end OutOfOrder
