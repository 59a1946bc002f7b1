import OutOfOrder.Machine.Load
import OutOfOrder.Machine.Run
import OutOfOrder.Page.Form
/-!
# The session behind the page

What the page remembers between runs apart from its form: the program and
the memory words entered so far, the machine once there is one, and whether
that machine has finished. A button changes the session as the form stands
at that moment.

A machine that cannot load the program does not replace the one before. A
machine that stops on a fault in the middle of a cycle is kept as the fault
left it.
-/

namespace OutOfOrder.Page

/-- What the page remembers. -/
structure Session where
  machine : Option Machine := none
  program : List Instruction := []
  words : List (Int × Int) := []
  finished : Bool := false

/-- What a button press has to say. -/
inductive Notice where
  | ready
  | cannotLoad (fault : Fault)
  /-- The run of the page stops here. -/
  | failure (fault : Fault)

namespace Notice

/-- The fault that stops the run. -/
def fault? : Notice → Option Fault
  | failure fault => some fault
  | _ => none

/-- A machine has been set up. -/
def isReady : Notice → Bool
  | ready => true
  | _ => false

end Notice

namespace Session

/-- The machine that the form describes, before the program is loaded. -/
def bareMachine (f : Form) : Except Fault Machine := do
  let m ← Machine.ofTable f.pool Machine.checksOffsets f.relativeCalls
  m.setRegisters f.registers

/-- **Makes the machine of the form** and loads the program into it. -/
def setUp (s : Session) (f : Form) : Session × Option Notice :=
  match bareMachine f with
  | .error fault => (s, some (.failure fault))
  | .ok m =>
    match m.loadProgram s.program f.start s.words [] with
    | .ok m => ({ s with machine := some m, finished := false }, some .ready)
    | .error t => (s, some (.cannotLoad t.fault))

/-- Adds the instruction of the form to the program. -/
def addInstruction (s : Session) (f : Form) : Session × Option Notice :=
  match f.next.build Machine.checksOffsets with
  | .ok i => ({ s with program := s.program ++ [i] }, none)
  | .error fault => (s, some (.failure fault))

/-- Lets the machine go on, unless it has finished. -/
def proceed (s : Session) (go : Machine → Machine.Outcome) : Session × Option Notice :=
  match s.machine with
  | none => (s, none)
  | some m =>
    if s.finished then (s, none)
    else
      match go m with
      | .ok m => ({ s with machine := some m, finished := m.complete }, none)
      | .error t => ({ s with machine := some t.machine }, some (.failure t.fault))

/-- **What a button does.** -/
def press (s : Session) (f : Form) : Button → Session × Option Notice
  | .addInstruction => s.addInstruction f
  | .clearProgram => ({ s with program := [] }, none)
  | .addData => ({ s with words := s.words ++ [(f.address, f.value)] }, none)
  | .setUp => s.setUp f
  | .step => s.proceed Machine.step
  | .runToCompletion => s.proceed fun m => m.run Machine.runLimit
  | .resetState => ({}, none)

/-- **What a stretch of buttons does**, from the top down: each that was
pressed, up to the first that stops the run. -/
def presses (s : Session) (f : Form) (a : Answers) : List Button → Session × List Notice
  | [] => (s, [])
  | b :: rest =>
    if a.pressed b then
      match s.press f b with
      | (next, none) => next.presses f a rest
      | (next, some (.failure fault)) => (next, [.failure fault])
      | (next, some notice) =>
        let (last, more) := next.presses f a rest
        (last, notice :: more)
    else s.presses f a rest

end Session

end OutOfOrder.Page
