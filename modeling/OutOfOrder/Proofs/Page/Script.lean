import OutOfOrder.Proofs.Page.Boxes
/-!
# A run with one button

The script looks at each button where it stands. Where one button at most is
pressed (`Answers.Presses`) the run does what this button does, and says what
it says (`script_of_presses`).

What is drawn follows the answers whatever is pressed (`drawnFrom_script`). A
fault of the first button alone ends the run before the body is drawn.
-/

namespace OutOfOrder.Page

/-- What a button does, or none. -/
def Session.after (s : Session) (f : Form) : Option Button → Session × Option Notice
  | some b => s.press f b
  | none => (s, none)

/-- **This button is pressed, and no other.** -/
def Answers.Presses (a : Answers) (button : Option Button) : Prop :=
  ∀ b, a.pressed b ↔ button = some b

variable {a : Answers} {stored : Option Session} {s : Session} {f : Form}
variable {b : Button} {button : Option Button} {bs : List Button}

namespace Session

theorem presses_of_none (h : ∀ b ∈ bs, a.pressed b = false) : s.presses f a bs = (s, []) := by
  induction bs with
  | nil => rfl
  | cons b rest ih =>
    obtain ⟨hb, hrest⟩ := List.forall_mem_cons.1 h
    rw [presses, hb, if_neg Bool.false_ne_true]
    exact ih hrest

/-- **A stretch does what the pressed button does**, if this is one of its. -/
theorem presses_eq (h : a.Presses button) (hnodup : bs.Nodup) : s.presses f a bs =
    if button ∈ bs.map some then ((s.after f button).1, (s.after f button).2.toList)
    else (s, []) := by
  induction bs with
  | nil => rfl
  | cons c rest ih =>
    obtain ⟨hc, hrest⟩ := List.nodup_cons.1 hnodup
    rw [presses, List.map_cons]
    by_cases hcb : button = some c
    · subst hcb
      have hnone : ∀ s : Session, s.presses f a rest = (s, []) := fun s =>
        presses_of_none fun d hd => Bool.eq_false_iff.2 fun hp =>
          hc (Option.some.inj ((h d).1 hp) ▸ hd)
      rw [if_pos ((h c).2 rfl), if_pos List.mem_cons_self, after]
      rcases s.press f c with ⟨next, - | (- | fault | fault)⟩ <;> simp [hnone]
    · rw [if_neg fun hp => hcb ((h c).1 hp), ih hrest]
      simp [hcb]

end Session

/-! ## The run -/

/-- **What a run can be**: it is stopped at the first button, or it goes through
three stretches of buttons and draws the body. -/
theorem script_cases (stored : Option Session) (a : Answers) :
    (∃ entered notices,
      (stored.getD {}).presses (Form.ask a) a [.addInstruction] = (entered, notices) ∧
      stopped notices ∧ script stored a = (entered, ⟨Form.ask a, none, notices⟩)) ∨
    ∃ entered notices listed more next last,
      (stored.getD {}).presses (Form.ask a) a [.addInstruction] = (entered, notices) ∧
      stopped notices = false ∧
      entered.presses (Form.ask a) a [.clearProgram, .addData] = (listed, more) ∧
      listed.presses (Form.ask a) a [.setUp, .step, .runToCompletion, .resetState] =
        (next, last) ∧
      script stored a = (next, ⟨Form.ask a,
        some (Body.draw a (Form.ask a).start entered.program listed.words next (stopped last)),
        notices ++ more ++ last⟩) := by
  rcases hfirst : (stored.getD {}).presses (Form.ask a) a [.addInstruction] with
    ⟨entered, notices⟩
  rcases hsecond : entered.presses (Form.ask a) a [.clearProgram, .addData] with ⟨listed, more⟩
  rcases hthird : listed.presses (Form.ask a) a [.setUp, .step, .runToCompletion, .resetState] with
    ⟨next, last⟩
  have heq : script stored a = if stopped notices then (entered, ⟨Form.ask a, none, notices⟩)
      else (next, ⟨Form.ask a,
        some (Body.draw a (Form.ask a).start entered.program listed.words next (stopped last)),
        notices ++ more ++ last⟩) := by
    unfold script
    simp only [hfirst, hsecond, hthird]
  rcases hstop : stopped notices with - | -
  · exact .inr ⟨_, _, _, _, _, _, rfl, hstop, hsecond, hthird, by rw [heq, hstop]; rfl⟩
  · exact .inl ⟨_, _, rfl, hstop, by rw [heq, hstop]; rfl⟩

/-- The machine that is shown is the one of the session. -/
theorem display_draw {start : Int} {program : List Instruction} {words : List (Int × Int)}
    {failed : Bool} {d : Display}
    (h : (Body.draw a start program words s failed).display = some d) :
    ∃ m, s.machine = some m ∧ d = Display.draw a m s.finished := by
  unfold Body.draw at h
  cases failed with
  | false =>
    obtain ⟨m, hm, rfl⟩ := Option.map_eq_some_iff.1 h
    exact ⟨m, hm, rfl⟩
  | true => cases h

/-- **What is drawn is drawn from the answers.** -/
theorem drawnFrom_script (stored : Option Session) (a : Answers) :
    (script stored a).2.DrawnFrom a := by
  rcases script_cases stored a with ⟨entered, notices, -, -, heq⟩ |
    ⟨entered, notices, listed, more, next, last, -, -, -, -, heq⟩ <;> rw [heq]
  · exact ⟨rfl, fun d hd => absurd hd (Option.not_mem_none d)⟩
  · refine ⟨rfl, fun d hd => ?_⟩
    obtain ⟨m, -, rfl⟩ := display_draw hd
    rfl

/-- The body is drawn, with the program as it was stored. -/
theorem body_of_presses (stored : Option Session) (h : a.Presses button)
    (hb : button ≠ some .addInstruction) :
    ∃ words failed, (script stored a).2.body = some (Body.draw a (Form.ask a).start
      (stored.getD {}).program words (script stored a).1 failed) := by
  rcases script_cases stored a with ⟨entered, notices, hfirst, hstop, heq⟩ |
    ⟨entered, notices, listed, more, next, last, hfirst, -, -, -, heq⟩ <;>
    rw [Session.presses_eq h (by decide), if_neg (by simpa using hb)] at hfirst <;>
    obtain ⟨rfl, rfl⟩ := Prod.mk.inj hfirst
  · cases hstop
  · exact ⟨_, _, by rw [heq]⟩

/-- **The run does what the button does**, and says what it says. -/
theorem script_of_presses (h : a.Presses button) :
    (script stored a).1 = ((stored.getD {}).after (Form.ask a) button).1 ∧
    (script stored a).2.notices = ((stored.getD {}).after (Form.ask a) button).2.toList := by
  rcases script_cases stored a with ⟨entered, notices, hfirst, hstop, heq⟩ |
    ⟨entered, notices, listed, more, next, last, hfirst, -, hsecond, hthird, heq⟩ <;>
    rw [heq] <;> dsimp only
  · rw [Session.presses_eq h (by decide)] at hfirst
    split at hfirst <;> cases hfirst
    · exact ⟨rfl, rfl⟩
    · cases hstop
  · rw [Session.presses_eq h (by decide)] at hfirst hsecond hthird
    rcases button with - | b
    · obtain ⟨rfl, rfl⟩ := Prod.mk.inj hfirst
      obtain ⟨rfl, rfl⟩ := Prod.mk.inj hsecond
      obtain ⟨rfl, rfl⟩ := Prod.mk.inj hthird
      exact ⟨rfl, rfl⟩
    · -- One of the stretches has the button, and the others leave all as it is.
      cases b <;>
        simp only [List.map_cons, List.map_nil, List.mem_cons, Option.some.injEq, reduceCtorEq,
          List.not_mem_nil, or_false, or_true, or_self, if_true, if_false, Prod.mk.injEq]
          at hfirst hsecond hthird <;>
        simp [← hfirst, ← hsecond, ← hthird]

end OutOfOrder.Page
