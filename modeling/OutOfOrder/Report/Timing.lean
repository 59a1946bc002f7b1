import OutOfOrder.Instruction.Printer
import OutOfOrder.Machine.Basic
import OutOfOrder.Sorting
/-!
# Timing

When each instruction was issued, executed and written back. A row stands
for an entry in the history of issues; the cycles of the other two
histories are found by its sequence number. So several issues of one
address are kept apart, and rows of one address come in the order of their
cycles.
-/

namespace OutOfOrder

/-- What is known of the timing of one issue. -/
structure TimingRow where
  address : Int
  instruction : String
  station : String
  issued : Nat
  executed : Option Nat
  writtenBack : Option Nat
  latency : Option Int
  repeated : Bool
deriving DecidableEq

/-- The counts of a machine. -/
structure Summary where
  cycle : Nat
  pc : Nat
  branchPending : Bool
  jumpPending : Bool
  branches : Nat
  mispredictions : Nat
  mispredictionRate : Rat
  issued : Nat
  executed : Nat
  writtenBack : Nat

namespace Machine

/-- The last cycle that a history has for a sequence number. -/
def cycleOf? (history : List Entry) (seq : Int) : Option Nat :=
  (history.findRev? fun e => e.seq = seq).map Entry.cycle

/-- How often an address was issued. -/
def issueCount (m : Machine) (a : Int) : Nat := m.issued.countP fun e => e.pc = a

/-- The issued addresses, ascending and each once. -/
def issuedAddresses (m : Machine) : List Int :=
  (sortBy (fun a b => a ≤ b) (m.issued.map Entry.pc)).eraseReps

/-- The addresses that were issued more than once: bodies of loops, and
routines called again. -/
def loopAddresses (m : Machine) : List Int := m.issuedAddresses.filter fun a => 1 < m.issueCount a

/-- Rows are in the order of addresses, and of cycles at one address. -/
def rowOrder (a b : Entry) : Bool := a.pc < b.pc || (a.pc = b.pc && a.cycle ≤ b.cycle)

/-- The row of an issue. -/
def timingRow (m : Machine) (e : Entry) : TimingRow :=
  let writtenBack := cycleOf? m.writtenBack e.seq
  { address := e.pc
    instruction := e.instr.text
    station := e.station
    issued := e.cycle
    executed := cycleOf? m.executed e.seq
    writtenBack := writtenBack
    latency := writtenBack.map fun c => (c : Int) - e.cycle
    repeated := 1 < m.issueCount e.pc }

/-- **The timing of a run**, of all issues or of those of one address. -/
def timingRows (m : Machine) (address : Option Int) : List TimingRow :=
  let entries := m.issued.filter fun e => address.all fun a => e.pc = a
  (sortBy rowOrder entries).map m.timingRow

/-- The counts of a machine. -/
def summary (m : Machine) : Summary where
  cycle := m.cycle
  pc := m.pc
  branchPending := m.branchPending
  jumpPending := m.jumpPending
  branches := m.branches
  mispredictions := m.mispredictions
  mispredictionRate := m.roundedRate
  issued := m.issued.length
  executed := m.executed.length
  writtenBack := m.writtenBack.length

end Machine

end OutOfOrder
