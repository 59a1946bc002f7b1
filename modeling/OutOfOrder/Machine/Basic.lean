import OutOfOrder.Memory
import OutOfOrder.Station.Basic
import OutOfOrder.Text.Decimal
/-!
# The state of the machine

A machine has a memory, a register file with its status table, a pool of
stations, a program counter and three histories: which instructions were
issued, executed and written back, and in which cycle. An instruction that
is issued gets the next sequence number; by it the histories and the
stations refer to the same instruction.

A branch that has not resolved yet is *pending*. What was issued after the
oldest pending branch is *speculative*: it may run its timers and hear
results, but it executes nothing and broadcasts nothing.

A cycle can stop on a fault. What it did up to that point stays done, so
the outcome of a cycle is a machine either way, and a `Trap` is the machine
as the fault left it.
-/

namespace OutOfOrder

/-- One line of a history. -/
structure Entry where
  instr : Instruction
  cycle : Nat
  station : String
  tag : Tag
  pc : Int
  seq : Int
deriving DecidableEq

/-- The whole state of the machine. -/
structure Machine where
  /-- Offsets of instructions must fit five bits. -/
  offsetsChecked : Bool
  /-- The label of a CALL counts from the instruction after it. -/
  relativeCalls : Bool
  memory : Memory := Memory.empty
  registers : Registers := Registers.empty
  /-- The instructions placed in memory, by ascending address. -/
  loaded : List (Nat × Instruction) := []
  pc : Nat := 0
  cycle : Nat := 0
  branchPending : Bool := false
  jumpPending : Bool := false
  /-- The instructions issued since the oldest pending branch. -/
  issuedAfterBranch : Nat := 0
  branches : Nat := 0
  mispredictions : Nat := 0
  issued : List Entry := []
  executed : List Entry := []
  writtenBack : List Entry := []
  /-- The result broadcast in the last cycle, under its tag. -/
  onBus : Option (Tag × Int) := none
  broadcasts : Nat := 0
  nextSeq : Int := 0
  stations : List Station := []
deriving DecidableEq

/-- A fault, and the machine as it was left. -/
structure Trap where
  fault : Fault
  machine : Machine

namespace Machine

/-- What comes of an operation that may stop halfway. -/
abbrev Outcome := Except Trap Machine

/-- Stops on a fault. -/
def trap (m : Machine) (fault : Fault) : Outcome := .error ⟨fault, m⟩

/-- Stops on a fault of one of the machine's parts, if there is one. -/
def guard {α : Type} (m : Machine) : Except Fault α → Except Trap α
  | .ok a => .ok a
  | .error fault => .error ⟨fault, m⟩

/-! ## Stations -/

/-- The station at a position of the pool, with its occupant, if there is
one. -/
def occupied? (m : Machine) (n : Nat) : Option (Station × Occupant) :=
  m.stations[n]?.bind fun s => s.occupant.map fun o => (s, o)

/-- Replaces the station at a position of the pool. -/
def setStation (m : Machine) (n : Nat) (s : Station) : Machine :=
  { m with stations := m.stations.set n s }

/-- The station of a name. -/
def station? (m : Machine) (name : String) : Option Station :=
  m.stations.find? fun s => s.name = name

/-- The name of the station with a tag. A negative tag counts from the end
of the pool. -/
def stationName? (m : Machine) (tag : Tag) : Option String :=
  let n := if tag < 0 then tag + m.stations.length else tag
  if n < 0 then none else m.stations[n.toNat]?.map fun s => s.name

/-- The status table by station names. -/
def registerStatus (m : Machine) : List (Option String) :=
  m.registers.status.toList.map fun t => t.bind m.stationName?

/-- What a history says of an occupant. -/
def entry (m : Machine) (s : Station) (o : Occupant) : Entry :=
  ⟨o.instr, m.cycle, s.name, s.tag, o.pc, o.seq⟩

/-! ## Pending branches -/

/-- The sequence number of a branch that waits in a station. -/
def pendingSeq? (s : Station) : Option Int :=
  if s.kind = .beq then s.occupant.map Occupant.seq else none

/-- **The barrier.** The sequence number of the oldest pending branch, if
one is pending. -/
def barrier (m : Machine) : Option Int := (m.stations.filterMap pendingSeq?).min?

/-- An instruction beyond the barrier is speculative. -/
def speculative (barrier : Option Int) (seq : Int) : Bool := barrier.any fun b => b < seq

/-! ## The program counter -/

/-- An integer as an address that is used in the given way. -/
def address (use : AddressUse) (a : Int) : Except Fault Address :=
  if h : 0 ≤ a ∧ a < 65536 then .ok ⟨a.toNat, toNat_lt_of_inRange h⟩
  else .error (.outOfBounds use a)

/-- Moves the program counter to an address. -/
def jumpTo (m : Machine) (a : Int) : Outcome :=
  (m.guard (address .programCounter a)).map fun a => { m with pc := a.val }

/-! ## Statistics -/

/-- The share of the issued branches that were taken after all; zero if
there was no branch. -/
def mispredictionRate (m : Machine) : Rat := (m.mispredictions : Rat) / (m.branches : Rat)

/-- This share as it is reported, with fifty-three binary digits. -/
def roundedRate (m : Machine) : Rat := Text.binaryFraction m.mispredictionRate

end Machine

end OutOfOrder
