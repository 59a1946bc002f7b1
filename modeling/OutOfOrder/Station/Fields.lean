import OutOfOrder.Station.Printer
/-!
# The fields of a station

A station as a flat record. There are fourteen fields, and each is set and
reset on its own: an issue sets all of them, and so does freeing the station.
A field that was left out there would show in a later instruction what an
earlier one had left in it.

`Station` keeps the same in an occupant that is there or is not, so that
nothing can be left behind but the result.
-/

namespace OutOfOrder

/-- **What a station holds**, each field with the value it is made with. -/
structure Fields where
  busy : Bool := false
  instr : Option Instruction := none
  /-- The number of the operation. -/
  op : Option Nat := none
  vj : Option Int := none
  vk : Option Int := none
  qj : Option Tag := none
  qk : Option Tag := none
  imm : Option Int := none
  addressReady : Bool := false
  result : Option Int := none
  pc : Option Int := none
  seq : Option Int := none
  cycles : Nat := 0
  checkpoint : Option StatusTable := none
deriving DecidableEq

namespace Fields

/-- The fields of a station that has just been made. -/
def fresh : Fields := {}

/-- **Issues an instruction**, each operand as a value or as a tag. -/
def issue (f : Fields) (name : String) (instr : Instruction) (pc seq : Int)
    (vj : Option Int) (qj : Option Tag) (vk : Option Int) (qk : Option Tag)
    (imm : Option Int) : Except Fault Fields :=
  if f.busy then .error (.stationBusy name)
  else if vj.isSome && qj.isSome then .error (.operandTwice name .j)
  else if vk.isSome && qk.isSome then .error (.operandTwice name .k)
  else .ok { f with
    busy := true
    instr := some instr
    op := some instr.opcode
    pc := some pc
    seq := some seq
    vj := vj
    qj := qj
    vk := vk
    qk := qk
    imm := imm
    addressReady := false
    result := none
    cycles := 0
    checkpoint := none }

/-- **Frees the station.** -/
def clear (f : Fields) : Fields :=
  { f with
    busy := false
    instr := none
    op := none
    vj := none
    vk := none
    qj := none
    qk := none
    imm := none
    addressReady := false
    result := none
    pc := none
    seq := none
    cycles := 0
    checkpoint := none }

/-- No tag is left to wait for. -/
def operandsReady (f : Fields) : Bool := f.qj.isNone && f.qk.isNone

/-- **One cycle of the timer**, with whether it moved. -/
def advance (f : Fields) (latency : Nat) : Bool × Fields :=
  if !f.busy || !f.operandsReady then (false, f)
  else if f.cycles < latency || f.result.isSome then (true, { f with cycles := f.cycles + 1 })
  else (false, f)

/-- The cycles of the address computation have gone by. -/
def addressPhaseDone (f : Fields) (addressLatency : Nat) : Bool :=
  f.busy && addressLatency ≤ f.cycles

/-- All cycles of the operation have gone by. -/
def latencyElapsed (f : Fields) (latency : Nat) : Bool := f.busy && latency ≤ f.cycles

/-- A result is held and the timer has gone past the latency. -/
def readyForBus (f : Fields) (latency : Nat) : Bool :=
  f.busy && f.result.isSome && latency < f.cycles

/-- The first operand hears a result. -/
def hearJ (f : Fields) (tag : Tag) (v : Int) : Fields :=
  if f.qj = some tag then { f with vj := some v, qj := none } else f

/-- The second operand hears a result. -/
def hearK (f : Fields) (tag : Tag) (v : Int) : Fields :=
  if f.qk = some tag then { f with vk := some v, qk := none } else f

/-- **The station hears a result**, with whether it waited for it. -/
def hear (f : Fields) (tag : Tag) (v : Int) : Bool × Fields :=
  if f.busy then (f.qj = some tag || f.qk = some tag, (f.hearJ tag v).hearK tag v)
  else (false, f)

/-- Sets the result. -/
def setResult (f : Fields) (v : Int) : Fields := { f with result := some v }

/-- Sets the effective address. -/
def setAddress (f : Fields) (a : Int) : Fields := { f with imm := some a, addressReady := true }

/-- Saves a status table. -/
def save (f : Fields) (table : StatusTable) : Fields := { f with checkpoint := some table }

/-- An operand of a value or a tag, as text. -/
def operandText (v : Option Int) : Option Tag → String
  | none => s!"Val:{Station.optionText v}"
  | some t => s!"Tag:#{t}"

/-- The operation, by name. -/
def opText (f : Fields) : String :=
  ((f.op.bind fun n => OpCode.ofCode? n).map OpCode.name).getD "N/A"

/-- The instruction as text. -/
def instrText (f : Fields) : String := (f.instr.map Instruction.text).getD "None"

/-- The timer and the result on the line of a station. -/
def timing (f : Fields) (slot : Slot) : String :=
  let result := match f.result with
    | some v => s!", Result:{v}"
    | none => ""
  s!", Cycles:{f.cycles}/{slot.latency}" ++ result

/-- The first operand as text, -/
def jText (f : Fields) : String := operandText f.vj f.qj

/-- and the second. -/
def kText (f : Fields) : String := operandText f.vk f.qk

open Station (optionText)

/-- The station on one line. -/
def text (f : Fields) (slot : Slot) : String :=
  if !f.busy then s!"RS({slot.name}, FU: {slot.kind.name}): Free"
  else
    s!"RS({slot.name}, FU: {slot.kind.name}, Busy: True, Op: {f.opText}, "
      ++ s!"Instr: '{f.instrText}', PC: {optionText f.pc}, "
      ++ s!"Vj: {f.jText}, Vk: {f.kText}, A: {optionText f.imm}{f.timing slot})"

end Fields

end OutOfOrder
