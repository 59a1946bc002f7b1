import OutOfOrder.Page.Session
import OutOfOrder.Report.Rows
import OutOfOrder.Report.Timing
import OutOfOrder.Text.Hex
import OutOfOrder.Text.Padding
/-!
# One run of the page

A run draws a screen: the form, the lists of the session, the messages of
the buttons, and the machine if there is one. The buttons are looked at
where they stand, from the top down, and all that is drawn below a button
shows what it did. A fault ends the run. What had been drawn by then is on
the screen, and what the buttons had done to the session is done.
-/

namespace OutOfOrder.Page

/-- The box that picks the address whose timing is shown. It offers all
addresses together and each one that was issued. -/
structure Filter where
  chosen : Option Int
  addresses : List Int
deriving DecidableEq

/-- What the box offers, as texts. -/
def Filter.options (f : Filter) : List String := "All" :: f.addresses.map toString

/-! ## The machine -/

/-- What is shown of a machine from its memory on. -/
structure Tables where
  memory : List (Int × Int)
  filter : Filter
  timing : List TimingRow
  caption : Option String
  finished : Bool

/-- What is shown of a machine. -/
structure Display where
  heading : String
  branches : String
  stations : List StationRow
  registers : List RegisterRow
  /-- The box for the first address of the memory listing. -/
  dumpBox : NumberBox
  /-- What stands below this box, or the fault of the listing. -/
  tables : Except Fault Tables

/-- The rows of the memory listing. -/
def dumpSize : Int := 40

/-- The line that counts mispredictions and names what is pending. -/
def branchLine (s : Summary) : String :=
  s!"Branch Mispredictions: {s.mispredictions}/{s.branches}"
    ++ (if s.branchPending then "  (Branch Pending)" else "")
    ++ (if s.jumpPending then "  (Jump Pending)" else "")

/-- The captions that stand above the tables of a machine. -/
def tableTitles : List String :=
  ["### Reservation Stations", "### Register File", "### Memory", "### Instruction Timing"]

/-- The tables of a machine below a listing of its memory. -/
def Tables.draw (a : Answers) (m : Machine) (finished : Bool) (memory : List (Int × Int)) :
    Tables :=
  let filter : Filter := ⟨a.filter m.issuedAddresses, m.issuedAddresses⟩
  let loops := m.loopAddresses
  { memory := memory
    filter := filter
    timing := m.timingRows filter.chosen
    caption := if loops.isEmpty then none
      else some s!"Loop Detection: {loops.length} instructions issued multiple times"
    finished := finished }

namespace Display

/-- **Shows a machine.** -/
def draw (a : Answers) (m : Machine) (finished : Bool) : Display :=
  let s := m.summary
  let box := a.askWord "Dump from address" 0
  { heading := s!"Cycle: {s.cycle}  PC: {s.pc}"
    branches := branchLine s
    stations := m.stationRows
    registers := m.registerRows
    dumpBox := box
    tables := (m.memoryRows box.value dumpSize).map (Tables.draw a m finished) }

/-- The fault of the memory listing. -/
def fault? (d : Display) : Option Fault :=
  match d.tables with
  | .ok _ => none
  | .error fault => some fault

/-- The rows of the memory listing. -/
def memory (d : Display) : List (Int × Int) := (d.tables.toOption.map Tables.memory).getD []

/-- The rows of the timing table. -/
def timing (d : Display) : List TimingRow := (d.tables.toOption.map Tables.timing).getD []

/-- The filter of the timing table. -/
def filter (d : Display) : Option Filter := d.tables.toOption.map Tables.filter

/-- The line about loops. -/
def caption (d : Display) : Option String := d.tables.toOption.bind Tables.caption

/-- The machine is said to have finished. -/
def finished (d : Display) : Bool := d.tables.toOption.any Tables.finished

/-- The captions that have been drawn. -/
def titles (d : Display) : List String :=
  if d.fault?.isSome then tableTitles.take 3 else tableTitles

end Display

/-! ## Screens -/

/-- What stands below the button that adds an instruction. -/
structure Body where
  program : List String
  words : List (Int × Int)
  display : Option Display

/-- What one run of the page shows. There is no body if a fault has ended the
run before it. -/
structure Screen where
  form : Form
  body : Option Body
  notices : List Notice

namespace Screen

/-- The lines of the program. -/
def program (s : Screen) : List String := (s.body.map Body.program).getD []

/-- The words of memory that have been entered. -/
def words (s : Screen) : List (Int × Int) := (s.body.map Body.words).getD []

/-- What is shown of a machine. -/
def display (s : Screen) : Option Display := s.body.bind Body.display

/-- All boxes for numbers, those of the page before those beside it. -/
def boxes (s : Screen) : List NumberBox :=
  s.form.fieldBoxes ++ (if s.body.isSome then s.form.entryBoxes else []) ++
    (s.display.map Display.dumpBox).toList ++ s.form.poolBoxes

/-- The filter, where the timing of a machine is shown. -/
def filter (s : Screen) : Option Filter := s.display.bind Display.filter

/-- The fault that ended the run. -/
def failure? (s : Screen) : Option Fault :=
  (s.notices.findSome? Notice.fault?).or (s.display.bind Display.fault?)

/-- The messages of success, in order. -/
def successes (s : Screen) : List String :=
  (if s.notices.any Notice.isReady then ["Simulation initialized."] else [])
  ++ (if s.display.any Display.finished then ["Simulation finished."] else [])

/-- The error messages. -/
def errors (s : Screen) : List String :=
  s.notices.filterMap fun
    | .cannotLoad f => some s!"Cannot load program: {f.message}"
    | _ => none

/-- The headings, in order. -/
def headings (s : Screen) : List String :=
  (if s.body.isSome then ["Initial Memory", "Initial Registers"] else [])
  ++ (s.display.map Display.heading).toList

/-- The texts around the tables of a machine, in order. -/
def texts (s : Screen) : List String :=
  match s.display with
  | some d => d.branches :: d.titles
  | none => []

end Screen

/-! ## The run -/

/-- A line of the program: the address, the instruction and its word. -/
def programLine (start : Int) (i : Instruction) (n : Nat) : String :=
  s!"{Text.padLeft 5 (toString (start + n))}: {i.text}  ({Text.hexWord i.encode.val})"

/-- What is drawn below the button that adds an instruction. The program is
listed before it is cleared, and the words of memory before the session is
reset. -/
def Body.draw (a : Answers) (start : Int) (program : List Instruction) (words : List (Int × Int))
    (s : Session) (failed : Bool) : Body where
  program := program.zipIdx.map fun (i, n) => programLine start i n
  words := words
  display := if failed then none else s.machine.map fun m => Display.draw a m s.finished

/-- The notices tell of a fault that stops the run. -/
def stopped (notices : List Notice) : Bool := (notices.findSome? Notice.fault?).isSome

/-- **One run of the page**, with what is stored of the session before it. In
the first run nothing is. -/
def script (stored : Option Session) (a : Answers) : Session × Screen :=
  let form := Form.ask a
  let (entered, notices) := (stored.getD {}).presses form a [.addInstruction]
  if stopped notices then (entered, { form := form, body := none, notices := notices })
  else
    let (listed, more) := entered.presses form a [.clearProgram, .addData]
    let (next, last) := listed.presses form a [.setUp, .step, .runToCompletion, .resetState]
    let body := Body.draw a form.start entered.program listed.words next (stopped last)
    (next, { form := form, body := some body, notices := notices ++ more ++ last })

end OutOfOrder.Page
