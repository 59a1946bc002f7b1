import OutOfOrder.Machine.Basic
import OutOfOrder.Sorting
/-!
# The Execute stage

The stations in use take their turns in the order in which their
instructions were issued. A turn does nothing for a speculative
instruction, or before the timer has reached the latency; then the unit of
the station acts:

* a load or store first computes its effective address, as soon as its
  base is there and the cycles for it have gone by. It accesses memory
  when the latency has elapsed and no older access is in its way;
* a branch that is taken moves the program counter, drops everything that
  was issued after it and puts its saved status table back;
* a call writes the link register, and a call or return moves the program
  counter;
* any other unit computes its result.

Stores, branches, calls and returns have no result for the bus: they count
as written back at once and leave their station.

The barrier is taken once, before the first turn. So a branch that becomes
the oldest one during the stage has to wait for the next cycle.
-/

namespace OutOfOrder

/-- A base is there, and the cycles of the address computation have gone
by. -/
def Station.addressDue (s : Station) (o : Occupant) : Bool :=
  !o.addressReady && o.j.ready && s.addressLatency ≤ o.cycles

/-- The station with its effective address known. -/
def Station.withAddress (s : Station) (a : Int) : Station :=
  { s with occupant := s.occupant.map fun o => { o with imm := some a, addressReady := true } }

/-- The station when a branch with this sequence number is taken: freed, if
its instruction was issued later. -/
def Station.squash (seq : Int) (s : Station) : Station :=
  if s.occupant.any fun o => seq < o.seq then s.clear else s

/-- The kinds of older access that an access has to wait for. -/
def UnitKind.waitsFor : UnitKind → List UnitKind
  | load => [.store]
  | store => [.load, .store]
  | _ => []

namespace Machine

/-! ## Leaving a station without the bus -/

/-- The occupant of a station is executed and written back in one, and its
station is free. -/
def finish (m : Machine) (n : Nat) (s : Station) (o : Occupant) : Machine :=
  { m with
    executed := m.executed ++ [m.entry s o]
    writtenBack := m.writtenBack ++ [m.entry s o]
    stations := m.stations.set n s.clear }

/-! ## Memory accesses -/

/-- Computes the effective address of the station at a position, if it is
due. -/
def computeAddress (m : Machine) (n : Nat) : Outcome :=
  match m.occupied? n with
  | none => .ok m
  | some (s, o) =>
    if s.addressDue o then
      match o.j.value?, o.imm with
      | some base, some offset =>
        .ok (m.setStation n (s.withAddress (wrap (base + offset))))
      | _, _ => m.trap (.missingOperand s.name)
    else .ok m

/-- An access of another station that an access has to wait for: an older
one of a kind it waits for, to the same address or to one not known yet. A
load that has its result is past its access. -/
def blocks (s : Station) (o : Occupant) (other : Station) : Bool :=
  other.occupant.any fun p =>
    other.kind ∈ s.kind.waitsFor && p.seq ≤ o.seq
      && !(other.kind = .load && other.result.isSome)
      && (!p.addressReady || p.imm = o.imm)

/-- The first station in pool order whose access has to come before that of
the station at a position. -/
def hazard? (m : Machine) (n : Nat) (s : Station) (o : Occupant) : Option Station :=
  (m.stations.zipIdx.find? fun (other, i) => i ≠ n && blocks s o other).map Prod.fst

/-- Reads memory into the result of a station. -/
def performLoad (m : Machine) (n : Nat) (s : Station) (o : Occupant) : Outcome :=
  match o.imm with
  | none => m.trap (.missingOperand s.name)
  | some a => do
    let v ← m.guard (m.memory.read a)
    pure { m with
      stations := m.stations.set n (s.withResult v)
      executed := m.executed ++ [m.entry s o] }

/-- Writes the second operand of a station to memory. -/
def performStore (m : Machine) (n : Nat) (s : Station) (o : Occupant) : Outcome :=
  match o.imm, o.k.value? with
  | some a, some v => do
    let mem ← m.guard (m.memory.write a v)
    pure (finish { m with memory := mem } n s o)
  | _, _ => m.trap (.missingOperand s.name)

/-- The address is known, the latency has elapsed, and the access has not
been made. -/
def accessDue (s : Station) (o : Occupant) : Bool :=
  o.addressReady && s.result.isNone && s.latency ≤ o.cycles

/-- Accesses memory for the station at a position, if it is due and nothing
is in its way. -/
def access (m : Machine) (n : Nat) : Outcome :=
  match m.occupied? n with
  | none => .ok m
  | some (s, o) =>
    if accessDue s o && (m.hazard? n s o).isNone then
      if s.kind = .load then m.performLoad n s o else m.performStore n s o
    else .ok m

/-! ## Branches and jumps -/

/-- **A branch is taken.** The program counter moves, and what was issued
after the branch is dropped from the stations, from the history of issues
and from the status table. -/
def takeBranch (m : Machine) (s : Station) (o : Occupant) : Outcome :=
  match o.imm with
  | none => m.trap (.missingOperand s.name)
  | some offset => do
    let m ← m.jumpTo (o.pc + 1 + offset)
    let m := { m with mispredictions := m.mispredictions + 1 }
    match m.issued.findIdx? fun e => e.seq = o.seq with
    | none => m.trap (.notIssued s.name)
    | some i =>
      let m := { m with
        issued := m.issued.take (i + 1)
        stations := m.stations.map (Station.squash o.seq) }
      match o.checkpoint with
      | none => m.trap (.missingCheckpoint s.name)
      | some saved => pure { m with registers := m.registers.restore saved }

/-- The pending flags, and the count of what was issued since the oldest
pending branch, as the stations show them. -/
def refreshFlags (m : Machine) : Machine :=
  { m with
    branchPending := m.barrier.isSome
    issuedAfterBranch := m.issued.countP fun e => speculative m.barrier e.seq
    jumpPending := m.stations.any fun s => s.busy && s.kind = .callRet }

/-- A branch compares equal. -/
def taken (o : Occupant) : Bool := o.j.value? = o.k.value?

/-- **A branch resolves.** -/
def resolveBranch (m : Machine) (n : Nat) (s : Station) (o : Occupant) : Outcome := do
  let m ← if taken o then m.takeBranch s o else pure m
  pure (m.finish n s o).refreshFlags

/-- The machine when a jump sets out, and the address it goes to. A call
has written its return address by then; a return goes to the value of its
operand. -/
def departure (m : Machine) (n : Nat) (s : Station) (o : Occupant) : Machine × Option Int :=
  if o.instr.opCode? = some .call then
    ({ m with registers := (m.registers.set Reg.link (o.pc + 1)).commit Reg.link }, o.imm)
  else
    let s := { s with occupant := some { o with imm := o.j.value? } }
    (m.setStation n s, o.j.value?)

/-- **A call or return resolves.** -/
def resolveJump (m : Machine) (n : Nat) (s : Station) (o : Occupant) : Outcome :=
  match m.departure n s o with
  | (m, none) => m.trap (.missingOperand s.name)
  | (m, some target) => do
    let m ← m.jumpTo target
    pure (finish { m with jumpPending := false } n s o)

/-! ## Computing units -/

/-- **A unit computes its result.** -/
def compute (m : Machine) (n : Nat) (s : Station) (o : Occupant) : Outcome :=
  match o.instr with
  | .alu op .. =>
    match o.j.value?, o.k.value? with
    | some a, some b =>
      .ok { m with
        stations := m.stations.set n (s.withResult (op.eval a b))
        executed := m.executed ++ [m.entry s o] }
    | _, _ => m.trap (.missingOperand s.name)
  | i => m.trap (.cannotCompute s.name i)

/-! ## The stage -/

/-- The turn of the station at a position. -/
def turn (barrier : Option Int) (m : Machine) (n : Nat) : Outcome :=
  match m.occupied? n with
  | none => .ok m
  | some (s, o) =>
    if speculative barrier o.seq then .ok m
    else
      match s.kind with
      | .load | .store => do
        let m ← m.computeAddress n
        m.access n
      | .beq => if s.latency ≤ o.cycles then m.resolveBranch n s o else .ok m
      | .callRet => if s.latency ≤ o.cycles then m.resolveJump n s o else .ok m
      | .addSub | .nor | .mul =>
        if s.result.isNone && s.latency ≤ o.cycles then m.compute n s o else .ok m

/-- The sequence number of the instruction in a station, and the station's
position. -/
def turnKey? (p : Station × Nat) : Option (Int × Nat) :=
  p.1.occupant.map fun o => (o.seq, p.2)

/-- The positions of the stations in use, in the order of issue. -/
def inFlight (m : Machine) : List Nat :=
  (sortBy (fun a b => a.1 ≤ b.1) (m.stations.zipIdx.filterMap turnKey?)).map Prod.snd

/-- **The Execute stage.** A station that an earlier turn freed has none. -/
def execute (m : Machine) : Outcome := m.inFlight.foldlM (turn m.barrier) m

end Machine

end OutOfOrder
