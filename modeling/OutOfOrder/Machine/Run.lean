import OutOfOrder.Machine.Execute
import OutOfOrder.Machine.Issue
import OutOfOrder.Machine.WriteBack
/-!
# Cycles and runs

A cycle moves the timers and then goes through the three stages. A run
repeats cycles until the machine is complete or has reached a number of
cycles: it is complete when nothing is in flight or pending and there is no
instruction at the program counter.
-/

namespace OutOfOrder.Machine

/-- The timers move, and the bus is empty again. -/
def advance (m : Machine) : Machine :=
  { m with onBus := none, stations := m.stations.map Station.advance }

/-- **One cycle of the machine.** A cycle that stops on a fault is not
counted. -/
def step (m : Machine) : Outcome := do
  let m ← m.advance.issue
  let m ← m.execute
  let m ← m.writeBack
  pure { m with cycle := m.cycle + 1 }

/-- There is an instruction at the program counter. -/
def fetches (m : Machine) : Bool :=
  match m.fetch with
  | .instruction .. => true
  | _ => false

/-- No branch or jump is pending and no station is in use. -/
def drained (m : Machine) : Bool :=
  !m.branchPending && !m.jumpPending && m.stations.all fun s => !s.busy

/-- **The machine has nothing left to do.** -/
def complete (m : Machine) : Bool := m.drained && !m.fetches

/-- At most so many cycles, until the machine is complete. -/
def runFor : Nat → Machine → Outcome
  | 0, m => .ok m
  | n + 1, m => if m.complete then .ok m else m.step.bind (runFor n)

/-- The limit of a run unless it is told otherwise. -/
def runLimit : Int := 1000

/-- **Runs the machine** until it is complete or its cycle count has
reached `limit`. -/
def run (m : Machine) (limit : Int) : Outcome := runFor (limit - m.cycle).toNat m

end OutOfOrder.Machine
