import Mathlib.Data.List.Induction
import OutOfOrder.Page.Screen
import OutOfOrder.Proofs.Page.Script
/-!
# The machine behind the page

A user acts on the page, and the script is run after each action. The machine
that is shown in the end is the one that was set up last, as the screen of that
moment asks for it, and the clicks since then have driven it
(`page_drives_machine`). This is so under any framework that does what the
script relies on (`Framework.Lawful`): numbers may change from one action to
the next in any way, whether they are kept, entered or forgotten.

`Effect` says once what an action can do: it sets up a machine, resets the
session, drives the machine, or leaves it as it is. All else is read off it.
A set-up that is refused is of the last kind, with the older machine still
there; so are entries in the boxes and the choice of what is shown. A machine
that is complete is not driven any more.

Which actions count is said of the list of actions. Either nothing has been
set up since the page was opened or reset (`Unset`), or there is a last
set-up (`LastSetUp`), and every list is of one of the two kinds
(`unset_or_lastSetUp`).
-/

namespace OutOfOrder.Page

/-- What a button makes the machine do. -/
def Button.drive? : Button → Option (Machine → Machine.Outcome)
  | .step => some Machine.step
  | .runToCompletion => some fun m => m.run Machine.runLimit
  | _ => none

/-- An action, with the page that it is done to. -/
structure Framework.Moment (F : Framework) where
  page : F.State
  action : F.Action

namespace Framework.Moment

variable {F : Framework} (x : F.Moment)

/-- The page after the action. -/
def after : F.State := F.act x.page x.action

/-- What the run after the action is told. -/
def answers : Answers := F.answers x.after

/-- The session before the action. -/
def before : Session := F.session x.page

/-- The session after the action. -/
def session : Session := F.session x.after

/-- The screen after the action. -/
def screen : Screen := F.screen x.after

/-- The action presses a button. -/
def clicks (b : Button) : Bool := x.answers.pressed b

/-- **The action sets up a machine.** -/
def setsUp : Bool := x.clicks .setUp && x.screen.notices.any Notice.isReady

/-- The action resets the session. -/
def resets : Bool := x.clicks .resetState

/-- **What the action makes the machine do**, unless the machine has
finished. -/
def drive? : Option (Machine → Machine.Outcome) :=
  if x.before.finished then none else (Button.all.find? x.clicks).bind Button.drive?

/-- **What an action can do to the machine.** -/
inductive Effect : Prop where
  | setUp {m : Machine} (up : x.setsUp)
      (makes : x.screen.Makes x.before.program x.before.words m)
      (machine : x.session.machine = some m) (finished : x.session.finished = false)
  | reset (reset : x.resets) (session : x.session = {})
  | drive {go : Machine → Machine.Outcome} {m m' : Machine} (drives : x.drive? = some go)
      (before : x.before.machine = some m) (ran : go m = .ok m')
      (machine : x.session.machine = some m') (finished : x.session.finished = m'.complete)
  | keep (up : x.setsUp = false) (reset : x.resets = false)
      (drives : x.drive? = none ∨ x.before.machine = none)
      (machine : x.session.machine = x.before.machine)
      (finished : x.session.finished = x.before.finished)

end Framework.Moment

/-- **What a click on a driving button does**, if it does not fail. -/
theorem Session.proceed_cases {s : Session} {go : Machine → Machine.Outcome}
    (hfail : ∀ f, (s.proceed go).2 ≠ some (.failure f)) :
    ((s.proceed go).1 = s ∧ (s.finished = true ∨ s.machine = none)) ∨
      ∃ m m', s.finished = false ∧ s.machine = some m ∧ go m = .ok m' ∧
        (s.proceed go).1 = { s with machine := some m', finished := m'.complete } := by
  rw [Session.proceed] at hfail ⊢
  rcases hm : s.machine with - | m <;> rw [hm] at hfail <;> dsimp only at hfail ⊢
  · exact .inl ⟨rfl, .inr rfl⟩
  · rcases hfin : s.finished with - | - <;> rw [hfin] at hfail
    · rcases hgo : go m with t | m' <;> rw [hgo] at hfail
      · exact absurd rfl (hfail t.fault)
      · exact .inr ⟨m, m', rfl, rfl, hgo, rfl⟩
    · exact .inl ⟨rfl, .inl rfl⟩

/-- A machine that has finished is left alone. -/
theorem Session.proceed_of_finished {s : Session} {go : Machine → Machine.Outcome}
    (h : s.finished = true) : s.proceed go = (s, none) := by
  rw [Session.proceed]
  split
  · rfl
  · rw [if_pos h]

/-- Adding an instruction leaves the machine as it is. -/
theorem Session.machine_addInstruction (s : Session) (f : Form) :
    (s.addInstruction f).1.machine = s.machine ∧ (s.addInstruction f).1.finished = s.finished := by
  unfold addInstruction
  split <;> exact ⟨rfl, rfl⟩

/-! ## One action -/

theorem Answers.exists_presses {a : Answers}
    (h : ∀ b b', a.pressed b → a.pressed b' → b = b') : ∃ button, a.Presses button := by
  by_cases hb : ∃ b, a.pressed b
  · obtain ⟨b, hb⟩ := hb
    refine ⟨some b, fun b' => ⟨fun hb' => congrArg some (h b b' hb hb'), fun heq => ?_⟩⟩
    cases heq
    exact hb
  · exact ⟨none, fun b => ⟨fun h => absurd ⟨b, h⟩ hb, nofun⟩⟩

namespace Framework.Moment

variable {F : Framework} {x : F.Moment} {b : Button} {button : Option Button}

theorem exists_presses (hF : F.Lawful) (x : F.Moment) : ∃ button, x.answers.Presses button :=
  Answers.exists_presses (hF.act_button x.page x.action)

theorem screen_eq (hF : F.Lawful) (x : F.Moment) :
    x.screen = (script (some x.before) x.answers).2.shown F.text :=
  (hF.act x.page x.action).screen

/-- What is drawn after an action is drawn from what the run has been told. -/
theorem drawnFrom (hF : F.Lawful) (x : F.Moment) : x.screen.DrawnFrom x.answers := by
  have hdrawn := drawnFrom_script (some x.before) x.answers
  rw [x.screen_eq hF]
  exact ⟨hdrawn.form, by rw [Screen.display_shown]; exact hdrawn.dumpBox⟩

theorem session_eq (hF : F.Lawful) (h : x.answers.Presses button) :
    x.session = (x.before.after (Form.ask x.answers) button).1 :=
  (hF.act x.page x.action).session.trans (script_of_presses h).1

theorem notices_eq (hF : F.Lawful) (h : x.answers.Presses button) :
    x.screen.notices = (x.before.after (Form.ask x.answers) button).2.toList := by
  rw [x.screen_eq hF]
  exact (script_of_presses h).2

/-- The body of the screen is drawn unless an instruction is to be added. -/
theorem isSome_body (hF : F.Lawful) (h : x.answers.Presses button)
    (hb : button ≠ some .addInstruction) : x.screen.body.isSome := by
  obtain ⟨words, failed, hbody⟩ := body_of_presses (some x.before) h hb
  rw [x.screen_eq hF, Screen.isSome_body_shown, hbody]
  rfl

/-- Nothing fails where no fault ends the run. -/
theorem ne_failure (hF : F.Lawful) (h : x.answers.Presses button)
    (hfail : x.screen.failure? = none) (f : Fault) :
    (x.before.after (Form.ask x.answers) button).2 ≠ some (.failure f) := by
  intro hf
  have hnotices : x.screen.notices = [.failure f] := by
    rw [notices_eq hF h, hf]
    rfl
  rw [Screen.failure?, hnotices] at hfail
  simp [Notice.fault?] at hfail

theorem clicks_iff (h : x.answers.Presses button) : x.clicks b ↔ button = some b := h b

theorem find?_clicks (h : x.answers.Presses button) : Button.all.find? x.clicks = button := by
  cases button with
  | none => exact List.find?_eq_none.2 fun b _ hb => nomatch (clicks_iff h).1 hb
  | some b =>
    have hclicks : x.clicks = fun c => decide (c = b) := funext fun c =>
      Bool.eq_iff_iff.2 ((clicks_iff h).trans
        ⟨fun heq => decide_eq_true (Option.some.inj heq).symm, fun heq => by simp_all⟩)
    rw [hclicks]
    cases b <;> rfl

theorem drive?_eq (h : x.answers.Presses button) :
    x.drive? = if x.before.finished then none else button.bind Button.drive? := by
  rw [drive?, find?_clicks h]

theorem setsUp_eq_false (h : x.answers.Presses button) (hb : button ≠ some .setUp) :
    x.setsUp = false := by
  rw [setsUp, Bool.eq_false_iff.2 fun hc => hb ((clicks_iff h).1 hc), Bool.false_and]

theorem resets_eq_false (h : x.answers.Presses button) (hb : button ≠ some .resetState) :
    x.resets = false :=
  Bool.eq_false_iff.2 fun hc => hb ((clicks_iff h).1 hc)

theorem session_of_resets (hF : F.Lawful) (h : x.resets) : x.session = {} := by
  obtain ⟨button, hpresses⟩ := exists_presses hF x
  obtain rfl := (clicks_iff hpresses).1 h
  exact session_eq hF hpresses

/-- An action whose button leaves the machine alone. -/
theorem effect_of_keep (h : x.answers.Presses button) (hup : x.setsUp = false)
    (hreset : button ≠ some .resetState) (hdrive : button.bind Button.drive? = none)
    (hsession : x.session.machine = x.before.machine ∧ x.session.finished = x.before.finished) :
    x.Effect :=
  .keep hup (resets_eq_false h hreset) (.inl (by rw [drive?_eq h, hdrive, ite_self])) hsession.1
    hsession.2

/-- A click that drives the machine. -/
theorem effect_of_drive (hF : F.Lawful) (h : x.answers.Presses button)
    (hfail : x.screen.failure? = none) (go : Machine → Machine.Outcome)
    (hgo : button.bind Button.drive? = some go)
    (hproceed : x.before.after (Form.ask x.answers) button = x.before.proceed go) : x.Effect := by
  have hsession := session_eq hF h
  have hne := ne_failure hF h hfail
  rw [hproceed] at hsession hne
  rcases Session.proceed_cases hne with
    ⟨heq, hstays⟩ | ⟨m, m', hfin, hm, hran, heq⟩ <;> rw [heq] at hsession
  · refine .keep (setsUp_eq_false h fun hb => ?_) (resets_eq_false h fun hb => ?_) ?_
      (by rw [hsession]) (by rw [hsession])
    · rw [hb] at hgo
      cases hgo
    · rw [hb] at hgo
      cases hgo
    · exact hstays.imp_left fun hfin => by rw [drive?, if_pos hfin]
  · refine .drive ?_ hm hran (by rw [hsession]) (by rw [hsession])
    rw [drive?_eq h, hfin, hgo]
    rfl

/-- A click that sets up a machine, or cannot load the program into it. -/
theorem effect_of_setUp (hF : F.Lawful) (h : x.answers.Presses (some .setUp))
    (hfail : x.screen.failure? = none) : x.Effect := by
  have hafter : x.before.after (Form.ask x.answers) (some .setUp) =
      x.before.setUp (Form.ask x.answers) := rfl
  have hsession := session_eq hF h
  have hnotices := notices_eq hF h
  have hne := ne_failure hF h hfail
  rw [hafter, Session.setUp] at hsession hnotices hne
  rcases hbare : Session.bareMachine (Form.ask x.answers) with fault | m <;>
    rw [hbare] at hsession hnotices hne
  · exact absurd rfl (hne fault)
  dsimp only at hsession hnotices
  rcases hload : m.loadProgram x.before.program (Form.ask x.answers).start x.before.words [] with
    t | m' <;> rw [hload] at hsession hnotices
  · refine effect_of_keep h ?_ nofun rfl (by simp [hsession])
    rw [setsUp, hnotices]
    exact Bool.and_false _
  · refine .setUp ?_ ((drawnFrom hF x).makes (isSome_body hF h nofun) hbare hload)
      (by rw [hsession]) (by rw [hsession])
    rw [setsUp, hnotices, (clicks_iff h).2 rfl]
    rfl

/-- **Every action does one of these**, unless a fault ends the run. -/
theorem effect (hF : F.Lawful) (hfail : x.screen.failure? = none) : x.Effect := by
  obtain ⟨button, h⟩ := exists_presses hF x
  have hsession := session_eq hF h
  rcases button with - | b
  · exact effect_of_keep h (setsUp_eq_false h nofun) nofun rfl (by rw [hsession]; exact ⟨rfl, rfl⟩)
  cases b with
  | step => exact effect_of_drive hF h hfail Machine.step rfl rfl
  | runToCompletion =>
    exact effect_of_drive hF h hfail (fun m => m.run Machine.runLimit) rfl rfl
  | resetState => exact .reset ((clicks_iff h).2 rfl) hsession
  | setUp => exact effect_of_setUp hF h hfail
  | addInstruction =>
    refine effect_of_keep h (setsUp_eq_false h nofun) nofun rfl ?_
    rw [hsession]
    exact x.before.machine_addInstruction (Form.ask x.answers)
  | clearProgram | addData =>
    refine effect_of_keep h (setsUp_eq_false h nofun) nofun rfl ?_
    rw [hsession]
    exact ⟨rfl, rfl⟩

end Framework.Moment

/-! ## Visits -/

namespace Framework

variable (F : Framework)

/-- The page after actions, one after the other. -/
def acts (p : F.State) (as : List F.Action) : F.State := as.foldl F.act p

/-- The actions of a visit, each with the page that it is done to. -/
def momentsFrom (p : F.State) : List F.Action → List F.Moment
  | [] => []
  | a :: rest => ⟨p, a⟩ :: momentsFrom (F.act p a) rest

/-- **The page after a visit.** -/
def pageAfter (as : List F.Action) : F.State := F.acts F.opened as

/-- The moments of a visit. -/
def moments (as : List F.Action) : List F.Moment := F.momentsFrom F.opened as

/-- What the user sees: the page that is opened, and the page after each
action. -/
def screens (as : List F.Action) : List Screen :=
  F.screen F.opened :: (F.moments as).map Moment.screen

variable {F} {p : F.State} {as before after : List F.Action} {a : F.Action} {x : F.Moment}

theorem acts_append : F.acts p (before ++ after) = F.acts (F.acts p before) after :=
  List.foldl_append ..

theorem momentsFrom_append : F.momentsFrom p (before ++ after) =
    F.momentsFrom p before ++ F.momentsFrom (F.acts p before) after := by
  induction before generalizing p with
  | nil => rfl
  | cons a rest ih => exact congrArg (_ :: ·) ih

/-- **What every action keeps a visit keeps.** -/
theorem acts_induction {P : F.State → Prop} (h : P p)
    (step : ∀ x ∈ F.momentsFrom p as, P x.page → P x.after) : P (F.acts p as) := by
  induction as generalizing p with
  | nil => exact h
  | cons a rest ih =>
    exact ih (step ⟨p, a⟩ List.mem_cons_self h)
      fun x hx => step x (List.mem_cons_of_mem _ hx)

/-- And what it keeps holds at each moment. -/
theorem momentsFrom_induction {P : F.State → Prop} (h : P p)
    (step : ∀ x ∈ F.momentsFrom p as, P x.page → P x.after) :
    ∀ x ∈ F.momentsFrom p as, P x.page := by
  induction as generalizing p with
  | nil => exact fun x hx => absurd hx List.not_mem_nil
  | cons a rest ih =>
    intro x hx
    rcases List.mem_cons.1 hx with rfl | hx
    · exact h
    · exact ih (step ⟨p, a⟩ List.mem_cons_self h)
        (fun y hy => step y (List.mem_cons_of_mem _ hy)) x hx

theorem mem_screens (hx : x ∈ F.moments as) : x.screen ∈ F.screens as :=
  List.mem_cons_of_mem _ (List.mem_map_of_mem hx)

theorem mem_moments (before : List F.Action) (a : F.Action) (after : List F.Action) :
    ⟨F.pageAfter before, a⟩ ∈ F.moments (before ++ a :: after) := by
  rw [moments, momentsFrom_append]
  exact List.mem_append_right _ List.mem_cons_self

end Framework

/-- Does one thing after the other, up to the first that stops on a fault. -/
def driven (m : Machine) (drives : List (Machine → Machine.Outcome)) : Machine.Outcome :=
  drives.foldlM (fun m go => go m) m

/-- A session that has finished has a complete machine. -/
def Session.Settled (s : Session) : Prop :=
  s.finished → ∃ m, s.machine = some m ∧ m.complete

namespace Framework.Moment

variable {F : Framework} {x : F.Moment}

theorem clicks_of_setsUp (h : x.setsUp) : x.clicks .setUp := (Bool.and_eq_true_iff.1 h).1

theorem Effect.settled (h : x.Effect) (hs : x.before.Settled) : x.session.Settled := by
  intro hfin
  cases h with
  | setUp _ _ _ finished =>
    rw [finished] at hfin
    cases hfin
  | reset _ session =>
    rw [session] at hfin
    cases hfin
  | @drive _ _ m' _ _ _ machine finished => exact ⟨m', machine, finished ▸ hfin⟩
  | keep _ _ _ machine finished =>
    rw [machine]
    exact hs (finished ▸ hfin)

/-- **A click that sets up leaves the machine that the screen asks for.** -/
theorem Effect.makes (hF : F.Lawful) (h : x.Effect) (hup : x.setsUp) : ∃ m,
    x.screen.Makes x.before.program x.before.words m ∧ x.session.machine = some m := by
  obtain ⟨button, hpresses⟩ := exists_presses hF x
  obtain rfl := (clicks_iff hpresses).1 (clicks_of_setsUp hup)
  cases h with
  | @setUp m _ makes machine _ => exact ⟨m, makes, machine⟩
  | reset reset _ => cases (clicks_iff hpresses).1 reset
  | drive drives =>
    rw [drive?_eq hpresses] at drives
    split at drives <;> cases drives
  | keep up =>
    rw [up] at hup
    cases hup

/-- Where nothing is set up there is no machine after the action if there was
none before it. -/
theorem Effect.machine_eq_none (h : x.Effect) (hup : x.setsUp = false)
    (hnone : x.before.machine = none) : x.session.machine = none := by
  cases h with
  | setUp up =>
    rw [up] at hup
    cases hup
  | reset _ session => rw [session]
  | drive _ before =>
    rw [hnone] at before
    cases before
  | keep _ _ _ machine => rw [machine, hnone]

/-- Where nothing is set up or reset the machine is driven, or stays as it
is. -/
theorem Effect.drives_or_keeps (h : x.Effect) (hup : x.setsUp = false)
    (hreset : x.resets = false) :
    (∃ go m m', x.drive? = some go ∧ x.before.machine = some m ∧ go m = .ok m' ∧
        x.session.machine = some m') ∨
      (x.drive? = none ∨ x.before.machine = none) ∧
        x.session.machine = x.before.machine ∧ x.session.finished = x.before.finished := by
  cases h with
  | setUp up =>
    rw [up] at hup
    cases hup
  | reset reset =>
    rw [reset] at hreset
    cases hreset
  | drive drives before ran machine => exact .inl ⟨_, _, _, drives, before, ran, machine⟩
  | keep _ _ drives machine finished => exact .inr ⟨drives, machine, finished⟩

/-- **The machine is driven**, if the action drives it. -/
theorem Effect.driven (h : x.Effect) (hup : x.setsUp = false) (hreset : x.resets = false)
    {m : Machine} (hm : x.before.machine = some m) :
    ∃ m', Page.driven m x.drive?.toList = .ok m' ∧ x.session.machine = some m' := by
  rcases h.drives_or_keeps hup hreset with
    ⟨go, m₀, m', drives, before, ran, machine⟩ | ⟨hnone | hnone, machine, -⟩
  · obtain rfl := Option.some.inj (before.symm.trans hm)
    rw [drives]
    exact ⟨m', by simp [Page.driven, ran], machine⟩
  · rw [hnone]
    exact ⟨m, rfl, machine.trans hm⟩
  · rw [hm] at hnone
    cases hnone

/-- **Other actions leave the machine as it is.** -/
theorem Effect.kept (h : x.Effect) (hup : x.setsUp = false) (hreset : x.resets = false)
    (hdrive : x.drive? = none ∨ x.before.machine = none) :
    x.session.machine = x.before.machine ∧ x.session.finished = x.before.finished := by
  rcases h.drives_or_keeps hup hreset with ⟨go, m, m', drives, before, -⟩ | ⟨-, hkept⟩
  · rw [drives, before] at hdrive
    rcases hdrive with hnone | hnone <;> cases hnone
  · exact hkept

/-- **A click after the machine has finished changes nothing.** -/
theorem session_of_finished (hF : F.Lawful) (hfin : x.before.finished)
    (hclick : x.clicks .step ∨ x.clicks .runToCompletion) : x.session = x.before := by
  obtain ⟨button, hpresses⟩ := exists_presses hF x
  rw [session_eq hF hpresses]
  rcases hclick with hclick | hclick <;> obtain rfl := (clicks_iff hpresses).1 hclick <;>
    exact congrArg Prod.fst (Session.proceed_of_finished hfin)

end Framework.Moment

/-! ## What has become of the machine -/

namespace Framework

section Histories

variable (F : Framework)

/-- **What a visit makes the machine do** from a page on: a cycle for each click
on Step and a run for each click on Run to Completion, where the machine had
not finished. -/
def drives (p : F.State) (as : List F.Action) : List (Machine → Machine.Outcome) :=
  (F.momentsFrom p as).filterMap Moment.drive?

/-- No fault ends a run. -/
def Faultless (as : List F.Action) : Prop := ∀ s ∈ F.screens as, s.failure? = none

/-- **No machine has been set up** since the page was opened or the session
reset. -/
def Unset (as : List F.Action) : Prop :=
  ∃ before after, as = before ++ after ∧
    (before = [] ∨ ∃ l a, before = l ++ [a] ∧ Moment.resets ⟨F.pageAfter l, a⟩) ∧
    ∀ x ∈ F.momentsFrom (F.pageAfter before) after, x.setsUp = false

/-- **The last set-up**: the action sets up a machine, and of those after it
none does and none resets the session. -/
structure LastSetUp (as before : List F.Action) (a : F.Action) (after : List F.Action) :
    Prop where
  split : as = before ++ a :: after
  setsUp : Moment.setsUp ⟨F.pageAfter before, a⟩
  later : ∀ x ∈ F.momentsFrom (F.pageAfter (before ++ [a])) after,
    x.setsUp = false ∧ x.resets = false

variable {F} {p : F.State} {as before after : List F.Action} {a : F.Action} {m : Machine}
variable {x : F.Moment}

theorem pageAfter_append : F.pageAfter (before ++ after) = F.acts (F.pageAfter before) after :=
  acts_append

theorem drives_cons :
    F.drives p (a :: after) = (Moment.mk p a).drive?.toList ++ F.drives (F.act p a) after := by
  rw [drives, momentsFrom, List.filterMap_cons]
  rcases (Moment.mk p a).drive? with - | go <;> rfl

theorem driven_append {l l' : List (Machine → Machine.Outcome)} :
    driven m (l ++ l') = driven m l >>= fun m => driven m l' := List.foldlM_append

/-- **Every visit is of one of the two kinds.** -/
theorem unset_or_lastSetUp (as : List F.Action) :
    F.Unset as ∨ ∃ before a after, F.LastSetUp as before a after := by
  induction as using List.reverseRecOn with
  | nil => exact .inl ⟨[], [], rfl, .inl rfl, fun _ hx => absurd hx List.not_mem_nil⟩
  | append_singleton as a ih =>
    -- The last action sets up, or resets, or leaves it at what it was.
    rcases hup : Moment.setsUp ⟨F.pageAfter as, a⟩ with - | -
    · rcases hreset : Moment.resets ⟨F.pageAfter as, a⟩ with - | -
      · rcases ih with ⟨before, after, rfl, hbefore, hafter⟩ | ⟨before, b, after, hlast⟩
        · refine .inl ⟨before, after ++ [a], List.append_assoc .., hbefore, fun x hx => ?_⟩
          rw [momentsFrom_append, List.mem_append] at hx
          rcases hx with hx | hx
          · exact hafter x hx
          · rw [← pageAfter_append] at hx
            rw [List.mem_singleton.1 hx, hup]
        · obtain ⟨rfl, hb, hafter⟩ := hlast
          refine .inr ⟨before, b, after ++ [a], List.append_assoc .., hb, fun x hx => ?_⟩
          rw [momentsFrom_append, List.mem_append] at hx
          rcases hx with hx | hx
          · exact hafter x hx
          · rw [← pageAfter_append, List.append_assoc] at hx
            rw [List.mem_singleton.1 hx]
            exact ⟨hup, hreset⟩
      · exact .inl ⟨as ++ [a], [], (List.append_nil _).symm, .inr ⟨as, a, rfl, hreset⟩,
          fun _ hx => absurd hx List.not_mem_nil⟩
    · exact .inr ⟨as, a, [], rfl, hup, fun _ hx => absurd hx List.not_mem_nil⟩

theorem Faultless.effect (hF : F.Lawful) (h : F.Faultless as) (hx : x ∈ F.moments as) :
    x.Effect :=
  Moment.effect hF (h _ (mem_screens hx))

/-- The machine is driven from where it is. -/
theorem machine_of_driven (heffect : ∀ x ∈ F.momentsFrom p as, x.Effect)
    (hlater : ∀ x ∈ F.momentsFrom p as, x.setsUp = false ∧ x.resets = false)
    (hm : (F.session p).machine = some m) :
    ∃ m', driven m (F.drives p as) = .ok m' ∧ (F.session (F.acts p as)).machine = some m' := by
  induction as generalizing p m with
  | nil => exact ⟨m, rfl, hm⟩
  | cons a rest ih =>
    obtain ⟨hup, hreset⟩ := hlater ⟨p, a⟩ List.mem_cons_self
    obtain ⟨m₁, hdriven, hm₁⟩ := (heffect _ List.mem_cons_self).driven hup hreset hm
    obtain ⟨m', hrest, hm'⟩ := ih (fun x hx => heffect x (List.mem_cons_of_mem _ hx))
      (fun x hx => hlater x (List.mem_cons_of_mem _ hx)) hm₁
    refine ⟨m', ?_, hm'⟩
    rw [drives_cons, driven_append, hdriven]
    exact hrest

/-- The page opens without a machine. -/
theorem Lawful.session_opened (hF : F.Lawful) : F.session F.opened = {} := by
  have hpresses : (F.answers F.opened).Presses none := fun b => by
    rw [hF.opened_unpressed b]
    exact ⟨nofun, nofun⟩
  exact hF.opened.session.trans (script_of_presses hpresses).1

/-- Where nothing has been set up there is no machine. -/
theorem Faultless.machine_of_unset (hF : F.Lawful) (h : F.Faultless as) (hunset : F.Unset as) :
    (F.session (F.pageAfter as)).machine = none := by
  obtain ⟨before, after, rfl, hbefore, hafter⟩ := hunset
  have hnone : (F.session (F.pageAfter before)).machine = none := by
    rcases hbefore with rfl | ⟨l, a, rfl, ha⟩
    · exact congrArg Session.machine hF.session_opened
    · rw [pageAfter_append]
      exact congrArg Session.machine (Moment.session_of_resets hF ha)
  rw [pageAfter_append]
  refine acts_induction (P := fun p => (F.session p).machine = none) hnone fun x hx => ?_
  have hmem : x ∈ F.moments (before ++ after) := by
    rw [moments, momentsFrom_append]
    exact List.mem_append_right _ hx
  exact (h.effect hF hmem).machine_eq_none (hafter x hx)

/-- **The last set-up makes the machine that its screen asks for, and the
clicks after it drive this machine.** -/
theorem Faultless.machine_of_lastSetUp (hF : F.Lawful) (h : F.Faultless as)
    (hlast : F.LastSetUp as before a after) :
    ∃ m m', (F.screen (F.pageAfter (before ++ [a]))).Makes
        (F.session (F.pageAfter before)).program (F.session (F.pageAfter before)).words m ∧
      driven m (F.drives (F.pageAfter (before ++ [a])) after) = .ok m' ∧
      (F.session (F.pageAfter as)).machine = some m' := by
  obtain ⟨rfl, hup, hlater⟩ := hlast
  have hpage : F.pageAfter (before ++ [a]) = Moment.after ⟨F.pageAfter before, a⟩ :=
    pageAfter_append
  obtain ⟨m, hmakes, hm⟩ := (h.effect hF (mem_moments before a after)).makes hF hup
  rw [List.append_cons before a after] at h ⊢
  obtain ⟨m', hdriven, hm'⟩ := machine_of_driven
    (fun x hx => h.effect hF (by
      rw [moments, momentsFrom_append]
      exact List.mem_append_right _ hx)) hlater
    (show (F.session (F.pageAfter (before ++ [a]))).machine = some m by rw [hpage]; exact hm)
  refine ⟨m, m', by rw [hpage]; exact hmakes, hdriven, ?_⟩
  rw [pageAfter_append]
  exact hm'

end Histories

/-- **The page shows the machine that the user has asked for and driven**, under
every framework that does what the script relies on. As long as no fault ends a
run: there is no machine if none has been set up since the page was opened or
reset. Else it is the machine that the screen of the last set-up asks for,
driven by the clicks since then that found it unfinished. No other action
changes it, and none of these clicks does once it has finished; it has finished
only if it is complete. -/
theorem page_drives_machine (F : Framework) (hF : F.Lawful) (as : List F.Action)
    (h : F.Faultless as) :
    (F.Unset as → (F.session (F.pageAfter as)).machine = none) ∧
    (∀ before a after, F.LastSetUp as before a after → ∃ m m',
      (F.screen (F.pageAfter (before ++ [a]))).Makes (F.session (F.pageAfter before)).program
        (F.session (F.pageAfter before)).words m ∧
      driven m (F.drives (F.pageAfter (before ++ [a])) after) = .ok m' ∧
      (F.session (F.pageAfter as)).machine = some m') ∧
    (F.Unset as ∨ ∃ before a after, F.LastSetUp as before a after) ∧
    (∀ x ∈ F.moments as, x.setsUp = false → x.resets = false →
      x.drive? = none ∨ x.before.machine = none →
        x.session.machine = x.before.machine ∧ x.session.finished = x.before.finished) ∧
    ((F.session (F.pageAfter as)).finished →
      ∃ m, (F.session (F.pageAfter as)).machine = some m ∧ m.complete) ∧
    ∀ x ∈ F.moments as, x.before.finished → x.clicks .step ∨ x.clicks .runToCompletion →
      x.session = x.before := by
  have hopened : (F.session F.opened).Settled := by
    rw [hF.session_opened]
    exact nofun
  have hsettled : (F.session (F.pageAfter as)).Settled :=
    acts_induction (P := fun p => (F.session p).Settled) hopened
      fun x hx => (h.effect hF hx).settled
  exact ⟨h.machine_of_unset hF, fun _ _ _ => h.machine_of_lastSetUp hF, unset_or_lastSetUp as,
    fun x hx => (h.effect hF hx).kept, hsettled,
    fun x _ => Moment.session_of_finished hF⟩

end Framework

/-! ## A framework -/

/-- **The framework that keeps what is entered does what the script relies
on.** -/
theorem Visit.lawful_framework : Visit.framework.Lawful where
  opened := ⟨rfl, rfl⟩
  opened_unpressed _ := rfl
  act _ _ := ⟨rfl, rfl⟩
  act_button _ _ _ _ hb hb' :=
    Option.some.inj ((of_decide_eq_true hb).symm.trans (of_decide_eq_true hb'))

/-- Two additions are entered. The machine is set up and goes through a cycle;
another set-up is refused, because the program would not fit behind the start
address; then the machine is run to its end and is asked for one more
cycle. -/
def sampleVisit : List Action :=
  [{ opcode := some .add, button := some .addInstruction }, { button := some .addInstruction },
    { button := some .setUp }, { button := some .step },
    { numbers := [("Start Address", 65535)], button := some .setUp },
    { button := some .runToCompletion }, { button := some .step }]

/-- The first set-up of the sample is the last one that counts, the machine
has been driven twice since, and it is complete. -/
theorem page_drives_machine_sampleVisit :
    Visit.framework.Lawful ∧ Visit.framework.Faultless sampleVisit ∧
    Visit.framework.LastSetUp sampleVisit (sampleVisit.take 2) { button := some .setUp }
      (sampleVisit.drop 3) ∧
    (Visit.framework.drives (Visit.framework.pageAfter (sampleVisit.take 3))
      (sampleVisit.drop 3)).length = 2 ∧
    ∃ m m', (Visit.framework.pageAfter (sampleVisit.take 3)).screen.Makes
        (Visit.framework.pageAfter (sampleVisit.take 2)).session.program
        (Visit.framework.pageAfter (sampleVisit.take 2)).session.words m ∧
      driven m (Visit.framework.drives (Visit.framework.pageAfter (sampleVisit.take 3))
        (sampleVisit.drop 3)) = .ok m' ∧
      (Visit.framework.pageAfter sampleVisit).session.machine = some m' ∧ m'.complete := by
  have hok : Visit.framework.Faultless sampleVisit := by
    have hall : (Visit.framework.screens sampleVisit).all fun s => s.failure?.isNone := by
      decide +kernel
    exact fun s hs => Option.isNone_iff_eq_none.1 (List.all_eq_true.1 hall s hs)
  have hlast : Visit.framework.LastSetUp sampleVisit (sampleVisit.take 2)
      { button := some .setUp } (sampleVisit.drop 3) := by
    have hall : (Visit.framework.momentsFrom (Visit.framework.pageAfter (sampleVisit.take 3))
        (sampleVisit.drop 3)).all fun x => !x.setsUp && !x.resets := by
      decide +kernel
    refine ⟨rfl, by decide +kernel, fun x hx => ?_⟩
    simpa using List.all_eq_true.1 hall x hx
  have hfinished : (Visit.framework.pageAfter sampleVisit).session.finished = true := by
    decide +kernel
  obtain ⟨-, hdriven, -, -, hcomplete, -⟩ :=
    Framework.page_drives_machine Visit.framework Visit.lawful_framework sampleVisit hok
  obtain ⟨m, m', hmakes, hran, hm'⟩ := hdriven _ _ _ hlast
  obtain ⟨m₁, hm₁, hdone⟩ := hcomplete hfinished
  obtain rfl := Option.some.inj (hm'.symm.trans hm₁)
  exact ⟨Visit.lawful_framework, hok, hlast, by decide +kernel, m, m', hmakes, hran, hm', hdone⟩

end OutOfOrder.Page
