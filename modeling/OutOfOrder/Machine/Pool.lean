import OutOfOrder.Machine.Basic
import OutOfOrder.Text.Blank
import OutOfOrder.Text.Capitals
/-!
# The pool of stations

A pool table says for each kind of unit how many stations it has and how
long they take. A machine is built from a table by adding the stations of
its rows in order. A station's tag is its position in the pool, and no two
stations have one name; so a tag and a name each find one station.

A kind may be named by itself or by an operation it carries out.
-/

namespace OutOfOrder

/-- The kind of unit a designation stands for: the kind of that name, or
the kind that carries out the operation of that name. White space around
the name is dropped and the name is read in capitals. -/
def Designation.unitKind (d : Designation) : Except Fault UnitKind :=
  match d with
  | .name s =>
    let name := Text.capitals (Text.strip s)
    match UnitKind.ofName? name, OpCode.ofName? name with
    | some kind, _ => .ok kind
    | none, some op => .ok op.unit
    | none, none => .error (.unknownUnit d)
  | _ => .error (.unknownUnit d)

/-- What the names of a kind's stations begin with. -/
def UnitKind.stationStem : UnitKind → String
  | load => "Load"
  | store => "Store"
  | beq => "BEQ"
  | callRet => "CallRet"
  | addSub => "Add"
  | nor => "Nor"
  | mul => "Mul"

/-- The row of a pool table for one kind of unit. -/
structure PoolRow where
  stationCount : Option Int
  latency : Option Int
  addressLatency : Option Int := none
  memoryLatency : Option Int := none
deriving DecidableEq

/-- For each kind of unit, under a name for it, its stations. -/
abbrev PoolTable := List (String × PoolRow)

namespace PoolTable

/-- Sets the row of a name. A row that the name had before is replaced and
keeps its place. -/
def insert (t : PoolTable) (name : String) (row : PoolRow) : PoolTable :=
  if t.any fun r => r.1 = name then t.map fun r => if r.1 = name then (name, row) else r
  else t ++ [(name, row)]

/-- The table with the given rows, entered one after the other. -/
def ofRows (rows : List (String × PoolRow)) : PoolTable :=
  rows.foldl (fun t r => t.insert r.1 r.2) []

/-- The table a machine has if none is given. -/
def standard : PoolTable :=
  [(UnitKind.load.name, { stationCount := some 2, latency := some 6, addressLatency := some 2 }),
    (UnitKind.store.name, { stationCount := some 2, latency := some 6, addressLatency := some 2 }),
    (UnitKind.beq.name, { stationCount := some 2, latency := some 1 }),
    (UnitKind.callRet.name, { stationCount := some 1, latency := some 1 }),
    (UnitKind.addSub.name, { stationCount := some 4, latency := some 2 }),
    (UnitKind.nor.name, { stationCount := some 2, latency := some 1 }),
    (UnitKind.mul.name, { stationCount := some 2, latency := some 10 })]

end PoolTable

namespace Machine

/-- Whether offsets are checked unless a machine is told otherwise. -/
def checksOffsets : Bool := true

/-- Whether labels of calls are relative unless a machine is told
otherwise. -/
def callsRelative : Bool := false

/-- Adds a station of a known kind at the end of the pool. -/
def addStationOfKind (m : Machine) (name : String) (kind : Except Fault UnitKind) (latency : Int)
    (address memory : Option Int) : Except Fault Machine :=
  if 0 < m.cycle then .error .stationsFixed
  else if m.stations.any fun s => s.name = name then .error (.duplicateStation name)
  else do
    let slot ← Slot.make name (← kind) latency address memory m.stations.length
    pure { m with stations := m.stations ++ [Station.ofSlot slot] }

/-- **Adds a station.** Possible until the first cycle, under a name that no
station has yet. -/
def addStation (m : Machine) (name : String) (kind : Designation) (latency : Int)
    (address memory : Option Int) : Except Fault Machine :=
  m.addStationOfKind name kind.unitKind latency address memory

/-- Adds one of the stations that a row asks for, numbered from 1. -/
def addNumbered (kind : UnitKind) (row : PoolRow) (m : Machine) (n : Nat) :
    Except Fault Machine :=
  match row.latency with
  | none => .error (.missingSetting .latency)
  | some latency =>
    m.addStationOfKind s!"{kind.stationStem}{n + 1}" (.ok kind) latency
      row.addressLatency row.memoryLatency

/-- Adds so many of the stations that a row asks for, of which `made` are
there already. The first that cannot be made ends it, however many were
still to come. -/
def addCounted (kind : UnitKind) (row : PoolRow) : Nat → Nat → Machine → Except Fault Machine
  | 0, _, m => .ok m
  | more + 1, made, m =>
    match addNumbered kind row m made with
    | .ok m => addCounted kind row more (made + 1) m
    | .error f => .error f

/-- Adds the stations of one row of a table. The latency is looked at only
when there is a station to make. -/
def addRow (m : Machine) (row : String × PoolRow) : Except Fault Machine := do
  let kind ← (Designation.name row.1).unitKind
  match row.2.stationCount with
  | none => throw (.missingSetting .stationCount)
  | some count => addCounted kind row.2 count.toNat 0 m

/-- **The machine with the pool of a table.** Memory and registers are
zero, and the program counter is 0. -/
def ofTable (table : PoolTable) (offsetsChecked relativeCalls : Bool) : Except Fault Machine :=
  table.foldlM addRow { offsetsChecked := offsetsChecked, relativeCalls := relativeCalls }

end Machine

end OutOfOrder
