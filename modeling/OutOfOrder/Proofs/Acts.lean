import OutOfOrder.Machine.Run
/-!
# Acts

An act is what an instruction does that shows outside its station: a value
written to memory, a branch resolved one way or the other, a result sent on
the bus. `stepActs` lists the acts of a cycle in their order, told from the
machine as it was before, as a narration is.
-/

namespace OutOfOrder

/-- What an instruction, known by its number, does that others can see. -/
inductive Act where
  /-- A store writes memory. -/
  | write (seq a v : Int)
  /-- A branch resolves. -/
  | resolve (seq : Int) (taken : Bool)
  /-- A result goes out on the bus. -/
  | send (seq : Int) (tag : Tag) (v : Int)
deriving DecidableEq, Repr

namespace Act

/-- The memory after an act. -/
def onMemory (mem : Memory) : Act → Memory
  | write _ a v => mem.set (Word.ofInt a) (Word.ofInt v)
  | _ => mem

/-- What an act puts on the bus. -/
def sent? : Act → Option (Tag × Int)
  | send _ tag v => some (tag, v)
  | _ => none

/-- The act is a branch that is taken. -/
def isTaken : Act → Bool
  | resolve _ taken => taken
  | _ => false

end Act

namespace Machine

/-! ## Acts of a cycle -/

/-- The write of the access at a position, if it is a store that is due and
nothing is in its way. -/
def accessActs (m : Machine) (n : Nat) : List Act :=
  match m.occupied? n with
  | none => []
  | some (s, o) =>
    if s.kind ≠ .load && accessDue s o && (m.hazard? n s o).isNone then
      match o.imm, o.k.value? with
      | some a, some v => [.write o.seq a v]
      | _, _ => []
    else []

/-- The acts of a turn that may compute an address before the access. -/
def memoryActs (m : Machine) (n : Nat) : List Act :=
  match m.computeAddress n with
  | .ok after => after.accessActs n
  | .error _ => []

/-- The acts of the turn of the station at a position. -/
def turnActs (barrier : Option Int) (m : Machine) (n : Nat) : List Act :=
  match m.occupied? n with
  | none => []
  | some (s, o) =>
    if speculative barrier o.seq then []
    else
      match s.kind with
      | .load | .store => m.memoryActs n
      | .beq => if s.latency ≤ o.cycles then [.resolve o.seq (taken o)] else []
      | _ => []

/-- The acts of the turns of the stations at the given positions. -/
def turnsActs (barrier : Option Int) (m : Machine) : List Nat → List Act
  | [] => []
  | n :: rest =>
    turnActs barrier m n ++
      match turn barrier m n with
      | .ok after => turnsActs barrier after rest
      | .error _ => []

/-- The acts of the Execute stage. -/
def executeActs (m : Machine) : List Act := turnsActs m.barrier m m.inFlight

/-- The acts of the Writeback stage. -/
def writeBackActs (m : Machine) : List Act :=
  match m.nextSender? with
  | none => []
  | some x => [.send x.occupant.seq x.station.tag x.value]

/-- The acts of the stages after the Issue stage. -/
def finishActs (m : Machine) : List Act :=
  m.executeActs ++
    match m.execute with
    | .ok m => m.writeBackActs
    | .error _ => []

/-- **The acts of a cycle.** -/
def stepActs (m : Machine) : List Act :=
  match m.advance.issue with
  | .ok m => m.finishActs
  | .error _ => []

end Machine

end OutOfOrder
