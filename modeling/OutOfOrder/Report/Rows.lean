import OutOfOrder.Instruction.Printer
import OutOfOrder.Machine.Basic
/-!
# State as tables

The rows of the tables that show a machine: its stations, its registers and
a piece of its memory. Stations that are waited for are shown by name. A
row reads the machine and changes nothing.
-/

namespace OutOfOrder

/-- A station as a row. -/
structure StationRow where
  name : String
  kind : UnitKind
  busy : Bool
  op : Option String
  instruction : Option String
  vj : Option Int
  vk : Option Int
  qj : Option String
  qk : Option String
  immediate : Option Int
  result : Option Int
  pc : Option Int
  cyclesNeeded : Nat
  cyclesPassed : Nat

/-- A register as a row. -/
structure RegisterRow where
  register : String
  value : Int
  status : Option String

namespace Machine

/-- One station as a row. -/
def stationRow (m : Machine) (s : Station) : StationRow where
  name := s.name
  kind := s.kind
  busy := s.busy
  op := s.occupant.bind fun o => o.instr.opCode?.map OpCode.name
  instruction := s.occupant.map fun o => o.instr.text
  vj := s.occupant.bind fun o => o.j.value?
  vk := s.occupant.bind fun o => o.k.value?
  qj := s.occupant.bind fun o => o.j.tag?.bind m.stationName?
  qk := s.occupant.bind fun o => o.k.tag?.bind m.stationName?
  immediate := s.occupant.bind fun o => o.imm
  result := s.result
  pc := s.occupant.map fun o => o.pc
  cyclesNeeded := s.latency
  cyclesPassed := s.cycles

/-- The stations in pool order. -/
def stationRows (m : Machine) : List StationRow := m.stations.map m.stationRow

/-- The registers in order. -/
def registerRows (m : Machine) : List RegisterRow :=
  (List.finRange 8).map fun r =>
    { register := r.text
      value := m.registers.get r
      status := (m.registers.status.get r).bind m.stationName? }

/-- A piece of memory, as addresses and values. -/
def memoryRows (m : Machine) (start count : Int) : Except Fault (List (Int × Int)) :=
  m.memory.dump start count

end Machine

end OutOfOrder
