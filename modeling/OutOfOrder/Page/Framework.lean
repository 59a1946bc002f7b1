import OutOfOrder.Page.Script
/-!
# The framework under the page

The page is shown by a framework that is no part of this library. It keeps
what users enter, runs the script when the page is opened and after each of
their actions, hands it the answers, and stores the session. `Framework` is
whatever does so, and `Framework.Lawful` what the script relies on.
-/

namespace OutOfOrder.Page

/-- **A framework**, as one user meets it. Its states are those between two
actions, when the script has run. -/
structure Framework where
  State : Type
  Action : Type
  opened : State
  act : State → Action → State
  /-- What was handed to the last run, what it has left stored, and what is
  shown of it. -/
  answers : State → Answers
  session : State → Session
  screen : State → Screen
  /-- What is shown of a line of text. -/
  text : String → String

/-- A screen with each line of its program shown by `text`. -/
def Screen.shown (text : String → String) (s : Screen) : Screen :=
  { s with body := s.body.map fun b => { b with program := b.program.map text } }

namespace Framework

variable (F : Framework)

/-- **The script has been run once** with what was stored and the answers of
this state. The session is stored as the run has left it. The screen shows what
the run has drawn, so that the boxes show the numbers that were handed to it. -/
structure Ran (stored : Option Session) (p : F.State) : Prop where
  session : F.session p = (script stored (F.answers p)).1
  screen : F.screen p = (script stored (F.answers p)).2.shown F.text

/-- **What the script relies on.** -/
structure Lawful : Prop where
  /-- The page opens with a run for which nothing is stored, -/
  opened : F.Ran none F.opened
  /-- and no button is pressed by then. -/
  opened_unpressed : ∀ b, (F.answers F.opened).pressed b = false
  /-- Each action leads to one more run, on the session that is stored. -/
  act : ∀ p a, F.Ran (some (F.session p)) (F.act p a)
  /-- It presses one button at most. -/
  act_button : ∀ p a b b', (F.answers (F.act p a)).pressed b →
    (F.answers (F.act p a)).pressed b' → b = b'

end Framework

end OutOfOrder.Page
