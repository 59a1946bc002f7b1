import OutOfOrder.Instruction.Draft
import OutOfOrder.Instruction.Printer
/-!
# Faults

A fault is the cause for which an operation is refused or a cycle of the
machine stops. `Fault.message` words each of them, and nothing else does.

The last three causes cannot arise on a machine that issues its
instructions itself: they are met only by an instruction that was placed in
a station by hand, past the Issue stage.
-/

namespace OutOfOrder

/-- What an address was given for. -/
inductive AddressUse where
  | instruction | programCounter
deriving DecidableEq, Repr

/-- The words that open a message about such an address. -/
def AddressUse.text : AddressUse → String
  | instruction => "Instruction address"
  | programCounter => "Program counter"

/-- The two operands of a station. -/
inductive Side where
  | j | k
deriving DecidableEq, Repr

/-- The letter that names an operand. -/
def Side.letter : Side → String
  | j => "j"
  | k => "k"

/-- The settings a pool table may lack. -/
inductive Setting where
  | stationCount | latency
deriving DecidableEq, Repr

/-- A setting as the table names it. -/
def Setting.key : Setting → String
  | stationCount => "rs_count"
  | latency => "latency"

/-- Why an operation is refused or a cycle stops. -/
inductive Fault where
  /-- No operation has this name or code. -/
  | undefinedOpcode (given : Designation)
  /-- The format of the operation has no such field. -/
  | strayField (op : OpCode) (field : Field) (given : Int)
  /-- A register field outside 0 to 7. -/
  | registerField (field : Field) (given : Int)
  /-- An offset outside five bits. -/
  | offsetField (given : Int)
  /-- A label outside seven bits. -/
  | labelField (given : Int)
  /-- An integer that is no word was to be decoded. -/
  | notAWord (given : Int)
  /-- A field of less than one bit was to be read. -/
  | negativeShift
  /-- No unit kind and no operation has this name. -/
  | unknownUnit (given : Designation)
  /-- An address outside the memory. -/
  | memoryAddress (address : Int)
  /-- A register number outside 0 to 7. -/
  | registerIndex (index : Int)
  /-- More values than there are registers. -/
  | registerCount (count : Nat)
  /-- A register was to wait for no station, or for a negative one. -/
  | renameTag (index : Int) (tag : Option Int)
  /-- A saved status table of the wrong length. -/
  | checkpointSize (size : Nat)
  /-- A latency below one cycle. -/
  | latency (station : String) (given : Int)
  /-- An address latency for a kind that computes no address. -/
  | addressLatencyKind (station : String) (kind : UnitKind)
  /-- An address latency outside 0 to the total latency. -/
  | addressLatency (station : String) (total given : Int)
  /-- Address and memory latency that miss the total latency. -/
  | latencySum (station : String) (address memory total : Int)
  /-- An instruction was to be issued to a station in use. -/
  | stationBusy (station : String)
  /-- An operand with a value and a tag at once. -/
  | operandTwice (station : String) (side : Side)
  /-- A station was to be added after the first cycle. -/
  | stationsFixed
  /-- A second station of one name. -/
  | duplicateStation (name : String)
  /-- No station has this name. -/
  | noStation (name : String)
  /-- A pool table without a setting that is needed. -/
  | missingSetting (setting : Setting)
  /-- An instruction address or a program counter outside the memory. -/
  | outOfBounds (use : AddressUse) (address : Int)
  /-- An instruction whose offset does not fit the machine word. -/
  | instructionOffset (instr : Instruction)
  /-- An instruction that would jump out of the memory. -/
  | jumpTarget (target : Int) (instr : Instruction) (address : Int)
  /-- A computing unit holds an operation that computes nothing. -/
  | cannotCompute (station : String) (instr : Instruction)
  /-- An operand, or the immediate field, has no value when it is used. -/
  | missingOperand (station : String)
  /-- A branch has no saved status table. -/
  | missingCheckpoint (station : String)
  /-- A branch that resolves is not in the history of issues. -/
  | notIssued (station : String)
deriving DecidableEq

namespace Fault

/-- An operation as it is shown by a unit that cannot compute it. -/
def operationText (i : Instruction) : String :=
  match i.opCode? with
  | some op => "OpCode." ++ op.name
  | none => toString i.opcode

/-- A tag as a message shows it. -/
def tagText : Option Int → String
  | some tag => toString tag
  | none => "None"

/-- The wording of a fault. -/
def message : Fault → String
  | undefinedOpcode given => s!"Undefined opcode: {given.text}"
  | strayField op field given => s!"{op.name} does not take a {field.name} field (got {given})"
  | registerField field given =>
    s!"Invalid register number for {field.name}: {given} (must be 0-7)"
  | offsetField given => s!"Offset must be a 5-bit signed value (-16 to 15), got {given}"
  | labelField given => s!"Label must be a 7-bit signed value (-64 to 63), got {given}"
  | notAWord given => s!"Encoded instruction must be a 16-bit word, got {given}"
  | negativeShift => "negative shift count"
  | unknownUnit given => s!"Unknown functional unit kind: {given.text}"
  | memoryAddress address =>
    s!"Memory access error: Address {address} is out of bounds (0-65535)."
  | registerIndex index => s!"Invalid register index: {index} (must be 0-7)"
  | registerCount count => s!"Expected at most 8 register values, got {count}"
  | renameTag index tag => s!"Cannot rename R{index} to station {tagText tag}"
  | checkpointSize size => s!"Checkpoint must have 8 entries, got {size}"
  | latency station given => s!"Latency of {station} must be at least 1 cycle, got {given}"
  | addressLatencyKind station kind =>
    s!"Only LOAD/STORE stations take an address latency ({station} is {kind.name})"
  | addressLatency station total given =>
    s!"Address latency of {station} must be between 0 and {total}, got {given}"
  | latencySum station address memory total =>
    s!"Address ({address}) and memory ({memory}) latencies of {station} "
      ++ s!"must add up to the total latency {total}"
  | stationBusy station => s!"Cannot issue to already busy RS: {station}"
  | operandTwice station side =>
    s!"{station}: operand {side.letter} cannot have both a value and a tag"
  | stationsFixed => "Reservation stations cannot be added once the simulation has started."
  | duplicateStation name => s!"Duplicate reservation station name: '{name}'"
  | noStation name => Text.quoted name
  | missingSetting setting => Text.quoted setting.key
  | outOfBounds use address => s!"{use.text} {address} is out of bounds (0-65535)."
  | instructionOffset instr => s!"Offset of '{instr.text}' must be between -16 and 15"
  | jumpTarget target instr address =>
    s!"Target {target} of '{instr.text}' at address {address} is out of bounds (0-65535)."
  | cannotCompute station instr =>
    s!"{station} cannot compute a result for {operationText instr}"
  | missingOperand station => s!"{station} uses an operand that has no value"
  | missingCheckpoint station => s!"{station} has no saved status table"
  | notIssued station => s!"{station} resolves a branch that was not issued"

end Fault

/-- The low `bits` bits of an integer, read in two's complement. A field
has at least one bit. -/
def signExtend? (value bits : Int) : Except Fault Int :=
  if 0 < bits then .ok (signExtend value bits.toNat) else .error .negativeShift

end OutOfOrder
