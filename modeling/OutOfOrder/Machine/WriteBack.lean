import OutOfOrder.Machine.Basic
/-!
# The Writeback stage

Each cycle at most one result goes out on the bus: that of the oldest
instruction that has one, is past its latency and is not speculative. All
who wait for its tag take the value: registers, operands, and the status
tables saved with pending branches.

A saved table is not the table in use. A register that the result was
meant for when a branch was issued may since have been renamed by a
speculative instruction. The result is then written through to the
register, and the register keeps waiting for the younger writer; if the
branch is taken after all, the register holds what it should.
-/

namespace OutOfOrder

namespace Station

/-- A pending branch whose saved table has a register wait for this tag. -/
def savedTag (s : Station) (tag : Tag) (r : Reg) : Bool :=
  s.kind = .beq && s.occupant.any fun o => o.checkpoint.any fun saved => saved.get r = some tag

/-- A pending branch without a saved table. -/
def unsaved (s : Station) : Bool :=
  s.kind = .beq && s.occupant.any fun o => o.checkpoint.isNone

/-- A status table after the result of this tag has been written. -/
def settled (tag : Tag) (saved : StatusTable) : StatusTable :=
  saved.map fun t => if t = some tag then none else t

/-- A pending branch hears that the result of this tag has been written. -/
def settle (s : Station) (tag : Tag) : Station :=
  if s.kind = .beq then
    { s with occupant := s.occupant.map fun o =>
      { o with checkpoint := o.checkpoint.map (settled tag) } }
  else s

end Station

/-- A station that may send its result, with its position in the pool. -/
structure Sender where
  position : Nat
  station : Station
  occupant : Occupant
  value : Int

namespace Machine

/-- The station that holds the instruction of an entry, if its result can
go out. -/
def sender? (m : Machine) (e : Entry) : Option Sender :=
  match m.occupied? e.tag.toNat with
  | none => none
  | some (s, o) =>
    match s.result with
    | none => none
    | some v =>
      if o.seq = e.seq && s.kind.usesBus && s.latency < o.cycles then
        some ⟨e.tag.toNat, s, o, v⟩
      else none

/-- **Who sends.** The first instruction in the history of issues, up to
the barrier, whose result can go out. -/
def nextSender? (m : Machine) : Option Sender :=
  let barrier := m.barrier
  (m.issued.takeWhile fun e => !speculative barrier e.seq).findSome? m.sender?

/-- The registers that a pending branch would have wait for a tag if it
were taken. -/
def writeThrough (m : Machine) (tag : Tag) : List Int :=
  ((List.finRange 8).filter fun r => m.stations.any fun s => s.savedTag tag r).map
    fun r => (r.val : Int)

/-- **A result goes out.** Registers, saved tables and operands take it,
and its station is free. -/
def deliver (m : Machine) (x : Sender) : Machine :=
  let tag := x.station.tag
  { m with
    registers := m.registers.broadcast tag x.value (m.writeThrough tag)
    writtenBack := m.writtenBack ++ [m.entry x.station x.occupant]
    stations := m.stations.mapIdx fun i s =>
      if i = x.position then s.clear else (s.settle tag).hear tag x.value }

/-- **The Writeback stage.** -/
def writeBack (m : Machine) : Outcome :=
  match m.nextSender? with
  | none => .ok m
  | some x =>
    let m := { m with
      onBus := some (x.station.tag, x.value)
      broadcasts := m.broadcasts + 1 }
    match m.stations.find? Station.unsaved with
    | some s => m.trap (.missingCheckpoint s.name)
    | none => .ok (m.deliver x)

end Machine

end OutOfOrder
