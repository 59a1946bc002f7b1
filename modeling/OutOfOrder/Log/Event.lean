import OutOfOrder.Instruction.Printer
import OutOfOrder.Text.Hex
/-!
# Log events

What a machine can report while it is set up and while it runs. An event
has a level and a wording. Events of a cycle begin with its number.
-/

namespace OutOfOrder

/-- How much an event matters. -/
inductive Level where
  | debug | info | warning
deriving DecidableEq, Repr

/-- The name of a level. -/
def Level.name : Level → String
  | debug => "DEBUG"
  | info => "INFO"
  | warning => "WARNING"

/-- What happens to an instruction, or keeps it from happening. -/
inductive Happening where
  | undefinedOpcode (w : Word) (pc : Nat)
  | issueBlocked
  | noStation (kind : UnitKind) (instr : Instruction)
  | issued (instr : Instruction) (pc : Nat) (station : String)
  | addressComputed (station : String) (a : Int)
  | waits (station older : String) (a : Int)
  | loaded (station : String) (v a : Int)
  | stored (station : String) (v a : Int)
  | computed (station : String) (instr : Instruction) (v : Int)
  | squashed (station : String) (instr : Instruction)
  | taken (station : String) (target : Int) (dropped : Nat)
  | notTaken (station : String) (pc : Nat)
  | jumped (instr : Instruction) (target : Int)
  | broadcast (station : String) (v : Int) (instr : Instruction)
  | heard (station sender : String) (v : Int)

/-- The wording of what happens. -/
def Happening.text : Happening → String
  | undefinedOpcode w pc => s!"Undefined opcode in word {Text.hexWord w.val} at PC {pc}"
  | issueBlocked => "Issue blocked, jump pending"
  | noStation kind instr => s!"No free {kind.name} station for {instr.text}, stalling"
  | issued instr pc station => s!"Issued {instr.text} (PC {pc}) to {station}"
  | addressComputed station a => s!"{station} effective address {a}"
  | waits station older a => s!"{station} waits for older {older} (address {a})"
  | loaded station v a => s!"{station} read {v} from address {a}"
  | stored station v a => s!"{station} wrote {v} to address {a}"
  | computed station instr v => s!"{station} ({instr.text}) finished execution. Result: {v}"
  | squashed station instr => s!"Squashed {station} ({instr.text})"
  | taken station target dropped =>
    s!"{station} taken, PC -> {target}, {dropped} speculative instructions dropped"
  | notTaken station pc => s!"{station} not taken, continuing at PC {pc}"
  | jumped instr target => s!"{instr.text} jumps to {target}"
  | broadcast station v instr =>
    s!"CDB Broadcasting: {station} with result {v} ({instr.text})"
  | heard station sender v => s!"{station} snooped {sender} with value {v}"

/-- What a machine reports. -/
inductive Event where
  /-- A station was added to the pool. -/
  | stationAdded (name : String) (kind : UnitKind) (latency : Nat)
  /-- A block of data was written. -/
  | blockWritten (size : Nat) (a : Int)
  /-- A program was loaded. -/
  | programLoaded (size : Nat) (pc : Int)
  /-- A run begins. -/
  | runStarted
  /-- A run ends because the machine is complete. -/
  | runCompleted (cycles : Nat)
  /-- A run ends at its limit. -/
  | runStopped (limit : Int)
  /-- Something happens in a cycle. -/
  | during (cycle : Nat) (what : Happening)

namespace Event

/-- The level of an event. -/
def level : Event → Level
  | stationAdded .. | programLoaded .. | runStarted | runCompleted .. => .info
  | runStopped .. => .warning
  | blockWritten .. | during .. => .debug

/-- The wording of an event. -/
def message : Event → String
  | stationAdded name kind latency =>
    s!"Added reservation station {name} ({kind.name}, {latency} cycles)"
  | blockWritten size a => s!"Wrote {size} words at {a}"
  | programLoaded size pc => s!"Program loaded. {size} instructions. PC set to {pc}."
  | runStarted => "Starting simulation..."
  | runCompleted cycles => s!"Simulation completed in {cycles} cycles."
  | runStopped limit => s!"Simulation stopped at max cycles: {limit}"
  | during cycle what => s!"Cycle {cycle}: {what.text}"

end Event

end OutOfOrder
