import OutOfOrder.Log.Narration
import OutOfOrder.Report.Table
/-!
# A demonstration

A small machine with five stations runs a program of five instructions: a
load, two additions of which only one waits for the load, a multiplication
that waits for both, and a store of the product. The transcript has what
the machine holds at the end, the timing of the five, and the log of the
run.
-/

namespace OutOfOrder.Demo

/-- What the demonstration prints, and what it logs. -/
structure Transcript where
  output : String
  log : List Event

/-- The stations, with their latencies and address latencies. -/
def stations : List (String × UnitKind × Int × Option Int) :=
  [("Add1", .addSub, 2, none), ("Add2", .addSub, 2, none), ("Mul1", .mul, 3, none),
    ("Load1", .load, 2, some 1), ("Store1", .store, 2, some 1)]

/-- The first values of the registers. -/
def registers : List Int := [0, 10, 5, 3, 2, 1, 7, 100]

/-- Where the data is, and what it is. -/
def dataAddress : Int := 100

/-- The data. -/
def data : List Int := [42]

/-- The program. -/
def program : List Instruction :=
  [.load 1 7 0, .alu .add 2 1 3, .alu .add 4 5 6, .alu .mul 5 2 4, .store 5 7 1]

/-- The most cycles the program may take. -/
def limit : Int := 50

/-- The machine with its stations, its registers and its data. -/
def prepared : Except Fault Machine := do
  let bare : Machine := { offsetsChecked := Machine.checksOffsets, relativeCalls := false }
  let m ← stations.foldlM
    (fun m (name, kind, latency, address) =>
      m.addStationOfKind name (.ok kind) latency address (address.map fun a => latency - a)) bare
  let m ← m.setRegisters registers
  m.addData data dataAddress

/-- The machine ready to run. -/
def start : Except Fault Machine := do
  let m ← prepared
  match m.loadProgram program 0 [] [] with
  | .ok m => pure m
  | .error t => throw t.fault

/-- A piece of memory as one line. -/
def listing (ps : List (Int × Int)) : String :=
  "[" ++ ", ".intercalate (ps.map fun (a, v) => s!"({a}, {v})") ++ "]"

/-- What is shown of the machine at the end. -/
def output (m : Machine) : Except Fault String := do
  let words ← m.memory.dump dataAddress 2
  pure ("\n".intercalate
    [m.registers.text, s!"Memory[100..101]: {listing words}", m.timingTable, ""])

/-- **The demonstration.** -/
def transcript : Except Fault Transcript := do
  let m ← start
  let setUp := m.poolEvents ++ Machine.dataEvents data dataAddress
    ++ [.programLoaded program.length 0]
  match m.run limit with
  | .ok last => pure ⟨← output last, setUp ++ m.runEvents limit⟩
  | .error t => throw t.fault

/-- The log as text, one message on a line. -/
def Transcript.logText (t : Transcript) : String :=
  String.join (t.log.map fun e => e.message ++ "\n")

end OutOfOrder.Demo
