import OutOfOrder.Instruction.Basic
/-!
# What a run of the page is told

The page is a script. It is run from top to bottom when it is opened and
again after everything its user does. In a run it puts boxes and buttons on
the page and is told at once what they hold and whether they were pressed.

Who runs the script, shows the boxes and keeps what is entered in them is
no part of this library. All that a run gets to know of it are its
`Answers`.
-/

namespace OutOfOrder.Page

/-- The buttons of the page. -/
inductive Button where
  | addInstruction | clearProgram | addData | setUp | step | runToCompletion | resetState
deriving DecidableEq, Repr

namespace Button

/-- All buttons, from the top of the page down. -/
def all : List Button :=
  [addInstruction, clearProgram, addData, setUp, step, runToCompletion, resetState]

/-- What a button says. -/
def label : Button → String
  | addInstruction => "Add Instruction"
  | clearProgram => "Clear Program"
  | addData => "Add Data"
  | setUp => "Initialize/Reset"
  | step => "Step"
  | runToCompletion => "Run to Completion"
  | resetState => "Reset State"

/-- The button with this label. -/
def ofLabel? (s : String) : Option Button := all.find? fun b => b.label = s

end Button

/-- A box for a number, as the script asks for it. Some have no greatest
value. -/
structure Request where
  name : String
  default : Int
  least : Int
  most : Option Int
deriving DecidableEq

/-- A box on the page, with the number that it has handed to the script. -/
structure NumberBox extends Request where
  value : Int
deriving DecidableEq

/-- **What a run is told.** The box for the operation offers all of them, and
the box for an address those that are listed, or none of them. -/
structure Answers where
  opcode : OpCode
  relativeCalls : Bool
  number : Request → Int
  pressed : Button → Bool
  filter : List Int → Option Int

namespace Answers

/-- The box that comes of a request. -/
def ask (a : Answers) (q : Request) : NumberBox := { q with value := a.number q }

/-- A box for a word or an address. -/
def askWord (a : Answers) (name : String) (default : Int) : NumberBox :=
  a.ask ⟨name, default, 0, some 65535⟩

end Answers

end OutOfOrder.Page
