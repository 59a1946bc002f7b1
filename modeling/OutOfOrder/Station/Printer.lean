import OutOfOrder.Station.Basic
/-!
# Stations as text

One line for a station. An operand shows its value, or the number of the
station it waits for.
-/

namespace OutOfOrder

/-- An integer that may be missing. -/
def Station.optionText : Option Int → String
  | some v => toString v
  | none => "None"

/-- An operand on the line of its station. -/
def Operand.text : Operand → String
  | waiting t => s!"Tag:#{t}"
  | o => s!"Val:{Station.optionText o.value?}"

namespace Station

/-- The operation of an occupant, by name. -/
def operationName (o : Occupant) : String := (o.instr.opCode?.map OpCode.name).getD "N/A"

/-- The timer and the result on the line of a station. -/
def timing (s : Station) : String :=
  let result := match s.result with
    | some v => s!", Result:{v}"
    | none => ""
  s!", Cycles:{s.cycles}/{s.latency}" ++ result

/-- The station on one line. -/
def text (s : Station) : String :=
  match s.occupant with
  | none => s!"RS({s.name}, FU: {s.kind.name}): Free"
  | some o =>
    s!"RS({s.name}, FU: {s.kind.name}, Busy: True, Op: {operationName o}, "
      ++ s!"Instr: '{o.instr.text}', PC: {o.pc}, "
      ++ s!"Vj: {o.j.text}, Vk: {o.k.text}, A: {optionText o.imm}{s.timing})"

end Station

end OutOfOrder
