import OutOfOrder.Registers
/-!
# Reservation stations

A station belongs to a kind of functional unit and holds at most one
instruction, its occupant, from the cycle it is issued until it has
finished. What never changes about a station is its `Slot`; what belongs to
the instruction it holds is its `Occupant`. The result stands beside the
occupant, because it may be set while the station is free.

The timer of a station counts one for each cycle in which both operands
are there. It stops at the latency and goes on once there is a result, so
that a result leaves the station only in a cycle after the one that
produced it.
-/

namespace OutOfOrder

/-- What is fixed when a station is made. `latency` counts all cycles of
the operation; `addressLatency` those of them that compute the effective
address. -/
structure Slot where
  name : String
  kind : UnitKind
  tag : Tag
  latency : Nat
  addressLatency : Nat
  latency_pos : 1 ≤ latency
  addressLatency_le : addressLatency ≤ latency
deriving DecidableEq

namespace Slot

/-- The cycles of a memory operation that are left for the access. -/
def memoryLatency (s : Slot) : Nat := s.latency - s.addressLatency

/-- The address latency that two optional settings stand for: the one
given, or what the memory latency leaves of the total. -/
def addressSetting (latency : Int) (address memory : Option Int) : Option Int :=
  match address, memory with
  | some a, _ => some a
  | none, some m => some (latency - m)
  | none, none => none

theorem one_le_toNat {latency : Int} (h : ¬ latency < 1) : 1 ≤ latency.toNat := by omega

/-- **Makes a slot.** The latency is at least one cycle. Only a kind that
accesses memory may split it, into parts that are not negative and add up
to the whole. Without a split all of it counts as address latency. -/
def make (name : String) (kind : UnitKind) (latency : Int) (address memory : Option Int)
    (tag : Tag) : Except Fault Slot :=
  if hl : latency < 1 then .error (.latency name latency)
  else
    match addressSetting latency address memory with
    | none =>
      .ok ⟨name, kind, tag, latency.toNat, latency.toNat, one_le_toNat hl, Nat.le_refl _⟩
    | some a =>
      if kind.isMemory then
        if ha : 0 ≤ a ∧ a ≤ latency then
          let slot : Slot :=
            ⟨name, kind, tag, latency.toNat, a.toNat, one_le_toNat hl,
              Int.toNat_le_toNat ha.2⟩
          match memory with
          | some m => if a + m = latency then .ok slot else .error (.latencySum name a m latency)
          | none => .ok slot
        else .error (.addressLatency name latency a)
      else .error (.addressLatencyKind name kind)

end Slot

/-- An instruction in a station.

`imm` is its offset at first, then the effective address or the jump
target; `cycles` is the timer; `checkpoint` is, for a branch, the status
table to go back to if the branch is taken. -/
structure Occupant where
  instr : Instruction
  pc : Int
  seq : Int
  j : Operand
  k : Operand
  imm : Option Int
  addressReady : Bool := false
  cycles : Nat := 0
  checkpoint : Option StatusTable := none
deriving DecidableEq

namespace Occupant

/-- Both operands are there. -/
def ready (o : Occupant) : Bool := o.j.ready && o.k.ready

/-- Both operands hear a result. -/
def hear (o : Occupant) (tag : Tag) (v : Int) : Occupant :=
  { o with j := o.j.hear tag v, k := o.k.hear tag v }

end Occupant

/-- A reservation station. -/
structure Station extends Slot where
  result : Option Int := none
  occupant : Option Occupant := none
deriving DecidableEq

namespace Station

/-- A station as it is made: free, without a result. -/
def ofSlot (s : Slot) : Station := { toSlot := s }

/-- The station holds an instruction. -/
def busy (s : Station) : Bool := s.occupant.isSome

/-- The timer, zero in a free station. -/
def cycles (s : Station) : Nat := (s.occupant.map Occupant.cycles).getD 0

/-- Nothing is waited for. A free station waits for nothing. -/
def operandsReady (s : Station) : Bool := s.occupant.all Occupant.ready

/-- The next cycle moves the timer. -/
def advances (s : Station) : Bool :=
  match s.occupant with
  | some o => o.ready && (o.cycles < s.latency || s.result.isSome)
  | none => false

/-- **One cycle of the timer.** -/
def advance (s : Station) : Station :=
  if s.advances then
    { s with occupant := s.occupant.map fun o => { o with cycles := o.cycles + 1 } }
  else s

/-- The cycles of the address computation have gone by. -/
def addressPhaseDone (s : Station) : Bool := s.busy && s.addressLatency ≤ s.cycles

/-- All cycles of the operation have gone by. -/
def latencyElapsed (s : Station) : Bool := s.busy && s.latency ≤ s.cycles

/-- A result is held and the timer has gone past the latency. -/
def readyForBus (s : Station) : Bool := s.busy && s.result.isSome && s.latency < s.cycles

/-- An operand of the station waits for this tag. -/
def awaits (s : Station) (tag : Tag) : Bool :=
  match s.occupant with
  | some o => o.j.tag? = some tag || o.k.tag? = some tag
  | none => false

/-- The station hears a result. -/
def hear (s : Station) (tag : Tag) (v : Int) : Station :=
  { s with occupant := s.occupant.map fun o => o.hear tag v }

/-- Sets the result, whether or not the station holds an instruction. -/
def withResult (s : Station) (v : Int) : Station := { s with result := some v }

/-- Saves a status table with the occupant. -/
def saveStatus (s : Station) (table : StatusTable) : Station :=
  { s with occupant := s.occupant.map fun o => { o with checkpoint := some table } }

/-- Frees the station. -/
def clear (s : Station) : Station := { s with result := none, occupant := none }

/-- **Issues an instruction to a free station.** The timer starts at zero
and nothing of an earlier occupant remains. -/
def issue (s : Station) (instr : Instruction) (pc seq : Int) (j k : Operand)
    (imm : Option Int) : Except Fault Station :=
  if s.busy then .error (.stationBusy s.name)
  else .ok { s with
    result := none
    occupant := some { instr := instr, pc := pc, seq := seq, j := j, k := k, imm := imm } }

/-- Issues an instruction whose operands are given by value and tag. An
operand with both is refused. -/
def issueParts (s : Station) (instr : Instruction) (pc seq : Int)
    (vj : Option Int) (qj : Option Tag) (vk : Option Int) (qk : Option Tag)
    (imm : Option Int) : Except Fault Station :=
  if s.busy then .error (.stationBusy s.name)
  else
    match Operand.ofParts? vj qj, Operand.ofParts? vk qk with
    | some j, some k => s.issue instr pc seq j k imm
    | none, _ => .error (.operandTwice s.name .j)
    | _, none => .error (.operandTwice s.name .k)

end Station

end OutOfOrder
