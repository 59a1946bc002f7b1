import OutOfOrder.Log.Event
import OutOfOrder.Machine.Load
import OutOfOrder.Machine.Pool
import OutOfOrder.Machine.Run
/-!
# Narration

What a machine reports of an operation is told from the machine as it was
before. The narration of a stage asks the same questions as the stage and
goes through the same states; it never changes one. So a machine behaves
the same whether or not anybody listens, and its state has no room for a
log.

An operation that stops on a fault has reported what came before.
-/

namespace OutOfOrder.Machine

/-! ## The Issue stage -/

/-- Told when the word at the program counter is read. -/
def fetchEvents (m : Machine) : List Happening :=
  match m.fetch with
  | .undefined w => [.undefinedOpcode w m.pc]
  | _ => []

/-- Told of the Issue stage. -/
def issueEvents (m : Machine) : List Happening :=
  if m.jumpPending then [.issueBlocked]
  else
    match m.fetch with
    | .instruction i kind =>
      match m.freeStation? kind with
      | some (s, _) => [.issued i m.pc s.name]
      | none => [.noStation kind i]
    | _ => m.fetchEvents

/-! ## The Execute stage -/

/-- Told when an effective address may be computed. -/
def addressEvents (m : Machine) (n : Nat) : List Happening :=
  match m.occupied? n with
  | none => []
  | some (s, o) =>
    match o.j.value?, o.imm with
    | some base, some offset =>
      if s.addressDue o then [.addressComputed s.name (wrap (base + offset))] else []
    | _, _ => []

/-- Told when memory may be accessed. -/
def accessEvents (m : Machine) (n : Nat) : List Happening :=
  match m.occupied? n with
  | none => []
  | some (s, o) =>
    match accessDue s o, o.imm with
    | true, some a =>
      match m.hazard? n s o with
      | some older => [.waits s.name older.name a]
      | none =>
        if s.kind = .load then
          match m.memory.read a with
          | .ok v => [.loaded s.name v a]
          | .error _ => []
        else
          match o.k.value? with
          | some v => [.stored s.name v a]
          | none => []
    | _, _ => []

/-- Told of the stations that a taken branch frees. -/
def squashEvents (m : Machine) (seq : Int) : List Happening :=
  m.stations.filterMap fun s =>
    s.occupant.bind fun o => if seq < o.seq then some (.squashed s.name o.instr) else none

/-- Told when a branch resolves. -/
def branchEvents (m : Machine) (s : Station) (o : Occupant) : List Happening :=
  if taken o then
    match m.takeBranch s o with
    | .error _ => []
    | .ok after =>
      m.squashEvents o.seq
        ++ [.taken s.name after.pc (m.issued.length - after.issued.length)]
  else [.notTaken s.name m.pc]

/-- Told when a call or return resolves. -/
def jumpEvents (m : Machine) (n : Nat) (s : Station) (o : Occupant) : List Happening :=
  match m.resolveJump n s o with
  | .ok after => [.jumped o.instr after.pc]
  | .error _ => []

/-- Told when a unit computes. -/
def computeEvents (m : Machine) (n : Nat) (s : Station) (o : Occupant) : List Happening :=
  match m.compute n s o with
  | .ok after =>
    match after.stations[n]?.bind fun s => s.result with
    | some v => [.computed s.name o.instr v]
    | none => []
  | .error _ => []

/-- Told of the turn of the station at a position. -/
def turnEvents (barrier : Option Int) (m : Machine) (n : Nat) : List Happening :=
  match m.occupied? n with
  | none => []
  | some (s, o) =>
    if speculative barrier o.seq then []
    else
      match s.kind with
      | .load | .store =>
        match m.computeAddress n with
        | .ok after => m.addressEvents n ++ after.accessEvents n
        | .error _ => []
      | .beq => if s.latency ≤ o.cycles then m.branchEvents s o else []
      | .callRet => if s.latency ≤ o.cycles then m.jumpEvents n s o else []
      | .addSub | .nor | .mul =>
        if s.result.isNone && s.latency ≤ o.cycles then m.computeEvents n s o else []

/-- Told of the turns of the stations at the given positions. -/
def turnsEvents (barrier : Option Int) (m : Machine) : List Nat → List Happening
  | [] => []
  | n :: rest =>
    turnEvents barrier m n ++
      match turn barrier m n with
      | .ok after => turnsEvents barrier after rest
      | .error _ => []

/-- Told of the Execute stage. -/
def executeEvents (m : Machine) : List Happening := turnsEvents m.barrier m m.inFlight

/-! ## The Writeback stage -/

/-- Told of the Writeback stage. -/
def writeBackEvents (m : Machine) : List Happening :=
  match m.nextSender? with
  | none => []
  | some x =>
    let hearers := m.stations.zipIdx.filter fun (s, i) =>
      i ≠ x.position && s.awaits x.station.tag
    .broadcast x.station.name x.value x.occupant.instr ::
      hearers.map fun (s, _) => .heard s.name x.station.name x.value

/-! ## Cycles and runs -/

/-- Told of a stage, and of what follows it if it does not stop. -/
def andThen (now : List Happening) (after : Outcome) (next : Machine → List Happening) :
    List Happening :=
  now ++ match after with
    | .ok m => next m
    | .error _ => []

/-- Told of one cycle. -/
def stepEvents (m : Machine) : List Event :=
  let m := m.advance
  let told := andThen m.issueEvents m.issue fun m =>
    andThen m.executeEvents m.execute fun m => m.writeBackEvents
  told.map (.during m.cycle)

/-- Told when the machine is asked whether it is complete. -/
def completeEvents (m : Machine) : List Event :=
  if m.drained then m.fetchEvents.map (.during m.cycle) else []

/-- Told when a run ends. -/
def endEvents (m : Machine) (limit : Int) : List Event :=
  m.completeEvents ++ m.completeEvents ++
    [if m.complete then .runCompleted m.cycle else .runStopped limit]

/-- Told of at most so many cycles. -/
def runForEvents (limit : Int) : Nat → Machine → List Event
  | 0, m => m.endEvents limit
  | n + 1, m =>
    if m.complete then m.endEvents limit
    else m.completeEvents ++ m.stepEvents ++
      match m.step with
      | .ok after => runForEvents limit n after
      | .error _ => []

/-- Told of a run. -/
def runEvents (m : Machine) (limit : Int) : List Event :=
  .runStarted :: runForEvents limit (limit - m.cycle).toNat m

/-! ## Setting up -/

/-- Told when a station has been added. -/
def stationEvent (s : Station) : Event := .stationAdded s.name s.kind s.latency

/-- Told of a machine that has been built from a table. -/
def poolEvents (m : Machine) : List Event := m.stations.map stationEvent

/-- Told when a block of data has been written. -/
def dataEvents (values : List Int) (a : Int) : List Event :=
  if values.isEmpty then [] else [.blockWritten values.length a]

end OutOfOrder.Machine
