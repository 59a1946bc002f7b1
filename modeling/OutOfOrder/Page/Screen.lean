import OutOfOrder.Page.Framework
import OutOfOrder.Text.Blank
/-!
# The page of one user

A framework that keeps what is entered in the boxes. The user acts on a
screen; all of an action is done at once and then the script is run anew. It
is one framework of many: what is said of the page holds of every one that
does what the script relies on, and this one shows that there is one.

A box has its default when it first appears and keeps its number as long as
it is drawn. A run that is not ended by a fault settles what is kept: a box
that it passes over is forgotten. A run that a fault ends settles nothing
below the fault. A kept number that has become too large gives way to the
default. White space at both ends of a line is not shown.
-/

namespace OutOfOrder.Page

/-- What is kept of the user's entries: the boxes with their numbers and the
filter with its choice. -/
structure Kept where
  boxes : List NumberBox := []
  filter : Option Filter := none
deriving DecidableEq

namespace Kept

/-- The number that a box hands to the script. -/
def number (kept : Kept) (q : Request) : Int :=
  match kept.boxes.find? fun b => b.name = q.name with
  | some b => if q.most.any fun top => top < b.value then q.default else b.value
  | none => q.default

/-- The address that is chosen. The choice is kept as long as the same
addresses are offered. -/
def chosen (kept : Kept) (addresses : List Int) : Option Int :=
  match kept.filter with
  | some f => if f.addresses = addresses then f.chosen else none
  | none => none

end Kept

/-- A box of this name is on the screen. -/
def Screen.shows (s : Screen) (name : String) : Bool := s.boxes.any fun b => b.name = name

/-- **What is kept after a run.** `before` is what was kept until then, as the
user has left it. -/
def Screen.keep (s : Screen) (before : Kept) : Kept :=
  match s.failure? with
  | none => { boxes := s.boxes, filter := s.filter }
  | some _ =>
    { boxes := s.boxes ++ before.boxes.filter fun b => !s.shows b.name
      filter := before.filter }

/-- What the user does to a screen, all at once. -/
structure Action where
  opcode : Option OpCode := none
  relativeCalls : Option Bool := none
  numbers : List (String × Int) := []
  /-- The address to show the timing of, or all of them. -/
  filter : Option (Option Int) := none
  button : Option Button := none

namespace Action

/-- A box with the number that the user has entered in it. -/
def enter (a : Action) (b : NumberBox) : NumberBox :=
  match a.numbers.findRev? fun n => n.1 = b.name with
  | some n => { b with value := n.2 }
  | none => b

/-- The filter with the address that the user has chosen. -/
def choose (a : Action) (f : Filter) : Filter :=
  match a.filter with
  | some c => { f with chosen := c }
  | none => f

/-- What is kept, as the user leaves it. -/
def amend (a : Action) (kept : Kept) : Kept where
  boxes := kept.boxes.map a.enter
  filter := kept.filter.map a.choose

end Action

/-- The page as a user sees it, the session behind it, what its last run was
told, and the entries that are kept for the next one. -/
structure Visit where
  answers : Answers
  session : Session
  screen : Screen
  kept : Kept

namespace Visit

/-- The page after a run. -/
def ran (stored : Option Session) (before : Kept) (answers : Answers) : Visit :=
  let run := script stored answers
  ⟨answers, run.1, run.2.shown Text.strip, run.2.keep before⟩

/-- The page when it is opened. -/
def opened : Visit :=
  ran none {} {
    opcode := .load
    relativeCalls := Machine.callsRelative
    number := Kept.number {}
    pressed := fun _ => false
    filter := Kept.chosen {} }

/-- **The page after an action.** -/
def act (p : Visit) (a : Action) : Visit :=
  let before := a.amend p.kept
  ran (some p.session) before {
    opcode := a.opcode.getD p.answers.opcode
    relativeCalls := a.relativeCalls.getD p.answers.relativeCalls
    number := before.number
    pressed := fun b => a.button = some b
    filter := before.chosen }

/-- The screens of a user who does the given actions one after the other. -/
def screens (p : Visit) : List Action → List Screen
  | [] => [p.screen]
  | a :: rest => p.screen :: (p.act a).screens rest

/-- The framework that keeps what is entered. -/
def framework : Framework where
  State := Visit
  Action := Action
  opened := opened
  act := act
  answers := answers
  session := session
  screen := screen
  text := Text.strip

end Visit

end OutOfOrder.Page
