import OutOfOrder.Proofs.Codec
import OutOfOrder.Proofs.Page.Visits
/-!
# Numbers within the bounds of their boxes

Where every box shows a number that it admits (`Screen.Fits`) the script goes
wrong in none of its own steps: each box is asked for with a default that it
admits as well, also the one whose bounds follow another box
(`admits_default`), and the instruction of the form can be built
(`exists_build`).

Over a visit within bounds (`Framework.WithinBounds`) the session then holds
what has been checked once: instructions with offsets that fit, and words with
addresses (`Framework.WithinBounds.checked`).
-/

namespace OutOfOrder.Page

/-! ## Boxes -/

/-- The box admits a value. -/
def Request.Admits (q : Request) (v : Int) : Prop := q.least ≤ v ∧ ∀ top ∈ q.most, v ≤ top

instance (q : Request) (v : Int) : Decidable (q.Admits v) :=
  inferInstanceAs (Decidable (_ ∧ ∀ top ∈ q.most, v ≤ top))

/-- **Every box shows a number that it admits.** -/
def Screen.Fits (s : Screen) : Prop := ∀ b ∈ s.boxes, b.Admits b.value

instance (s : Screen) : Decidable s.Fits :=
  inferInstanceAs (Decidable (∀ b ∈ s.boxes, b.Admits b.value))

variable {a : Answers} {s : Screen} {row : String × PoolRow}

/-- A box for a word admits words. -/
theorem admits_askWord_iff {name : String} {default v : Int} :
    (a.askWord name default).Admits v ↔ 0 ≤ v ∧ v < 65536 := by
  refine and_congr_right fun _ => ⟨fun h => ?_, fun h top ht => ?_⟩
  · have := h 65535 rfl
    omega
  · cases ht
    omega

namespace Screen.DrawnFrom

/-- An entry below the first button is a word. -/
theorem word (h : s.DrawnFrom a) (hfits : s.Fits) (hbody : s.body.isSome) {name : String}
    {default : Int} (hb : a.askWord name default ∈ (Form.ask a).entryBoxes) :
    0 ≤ (a.askWord name default).value ∧ (a.askWord name default).value < 65536 :=
  admits_askWord_iff.1 (hfits _ (h.mem_of_entry hbody hb))

theorem start (h : s.DrawnFrom a) (hfits : s.Fits) (hbody : s.body.isSome) :
    0 ≤ (Form.ask a).start ∧ (Form.ask a).start < 65536 :=
  h.word hfits hbody (by simp [Form.ask])

theorem address (h : s.DrawnFrom a) (hfits : s.Fits) (hbody : s.body.isSome) :
    0 ≤ (Form.ask a).address ∧ (Form.ask a).address < 65536 :=
  h.word hfits hbody (by simp [Form.ask])

theorem value (h : s.DrawnFrom a) (hfits : s.Fits) (hbody : s.body.isSome) :
    0 ≤ (Form.ask a).value ∧ (Form.ask a).value < 65536 :=
  h.word hfits hbody (by simp [Form.ask])

/-- The memory listing starts at an address. -/
theorem dump (h : s.DrawnFrom a) (hfits : s.Fits) {d : Display} (hd : d ∈ s.display) :
    0 ≤ d.dumpBox.value ∧ d.dumpBox.value < 65536 := by
  have hmem : d.dumpBox ∈ s.boxes := by
    refine List.mem_append_left _ (List.mem_append_right _ ?_)
    rw [Option.mem_toList, Option.mem_def.1 hd]
    rfl
  have hadmits := hfits _ hmem
  rw [h.dumpBox d hd] at hadmits ⊢
  exact admits_askWord_iff.1 hadmits

theorem poolRow (h : s.DrawnFrom a) (hfits : s.Fits) (hrow : row ∈ PoolTable.standard) :
    ∀ b ∈ (askPoolRow a row.1 row.2).1, b.Admits b.value :=
  fun b hb => hfits b (h.mem_of_poolRow hrow hb)

theorem field (h : s.DrawnFrom a) (hfits : s.Fits) {f : Field} (hf : f ∈ a.opcode.fields) :
    (askField a f).Admits (askField a f).value := by
  refine hfits _ ?_
  rw [boxes, List.append_assoc, List.append_assoc, h.form]
  exact List.mem_append_left _ (List.mem_map_of_mem hf)

end Screen.DrawnFrom

/-! ## Defaults -/

/-- The defaults of a pool row. -/
theorem defaults_pool : ∀ row ∈ PoolTable.standard, 1 ≤ row.2.stationCount.getD 1 ∧
    1 ≤ row.2.latency.getD 1 ∧ ∀ a ∈ row.2.addressLatency, 0 ≤ a := by
  decide +kernel

/-- The defaults of a pool row are admitted if the latency is. The bounds of the
address latency follow it. -/
theorem admits_default_poolRow (hrow : row ∈ PoolTable.standard)
    (hfits : ∀ b ∈ (askPoolRow a row.1 row.2).1, b.Admits b.value) :
    ∀ b ∈ (askPoolRow a row.1 row.2).1, b.Admits b.default := by
  obtain ⟨hcount, hlatency, haddress⟩ := defaults_pool row hrow
  have hnone : ∀ v : Int, ∀ top ∈ (none : Option Int), v ≤ top := fun v top ht =>
    absurd ht (Option.not_mem_none top)
  rw [askPoolRow] at hfits ⊢
  rcases ha : row.2.addressLatency with - | default <;> rw [ha] at hfits <;>
    simp only [List.forall_mem_cons] at hfits ⊢
  · exact ⟨⟨hcount, hnone _⟩, ⟨hlatency, hnone _⟩, fun _ hb => absurd hb List.not_mem_nil⟩
  · obtain ⟨-, ⟨hpos, -⟩, -⟩ := hfits
    refine ⟨⟨hcount, hnone _⟩, ⟨hlatency, hnone _⟩, ⟨?_, fun top ht => ?_⟩,
      fun _ hb => absurd hb List.not_mem_nil⟩
    · exact le_min (haddress default ha) (Int.le_trans (show (0 : Int) ≤ 1 by decide) hpos)
    · cases ht
      exact min_le_right _ _

theorem admits_default_field (f : Field) : (fieldRequest f).Admits (fieldRequest f).default := by
  cases f <;> decide

/-- **Each box is asked for with a default that it admits**, if the boxes show
numbers that they admit. -/
theorem Screen.DrawnFrom.admits_default (h : s.DrawnFrom a) (hfits : s.Fits) :
    ∀ b ∈ s.boxes, b.Admits b.default := by
  have hword : ∀ (name : String) (default : Int), 0 ≤ default ∧ default < 65536 →
      (a.askWord name default).Admits default := fun _ _ => admits_askWord_iff.2
  intro b hb
  rw [boxes, List.mem_append, List.mem_append, List.mem_append, h.form] at hb
  rcases hb with ((hb | hb) | hb) | hb
  · obtain ⟨f, -, rfl⟩ := List.mem_map.1 hb
    exact admits_default_field f
  · split at hb
    · simp only [Form.ask, List.mem_append, List.mem_map, List.mem_cons, List.not_mem_nil,
        or_false] at hb
      rcases hb with (rfl | rfl | rfl) | ⟨n, -, rfl⟩ <;> exact hword _ _ (by decide)
    · cases hb
  · rw [Option.mem_toList] at hb
    obtain ⟨d, hd, rfl⟩ := Option.map_eq_some_iff.1 hb
    rw [h.dumpBox d hd]
    exact hword _ _ (by decide)
  · simp only [Form.ask, askPool, List.flatMap_map, List.mem_flatMap] at hb
    obtain ⟨row, hrow, hb⟩ := hb
    exact admits_default_poolRow hrow (h.poolRow hfits hrow) b hb

/-! ## The next instruction -/

theorem opCode?_name (op : OpCode) : (Designation.name op.name).opCode? = some op := by
  cases op <;> decide +kernel

/-- Each field of the operation is there, and within the bounds of its box. -/
def DraftWithin (d : Draft) (op : OpCode) : Prop :=
  ∀ f ∈ op.fields, ∃ v, d.field f = some v ∧ (fieldBounds f).1 ≤ v ∧ v ≤ (fieldBounds f).2

namespace DraftWithin

variable {d : Draft} {op : OpCode}

/-- A box for a register names one. -/
theorem reg (h : DraftWithin d op) {f : Field} (hf : f ∈ op.fields)
    (hbounds : fieldBounds f = (0, 7)) : ∃ r, regOfField f (d.field f) = .ok r := by
  obtain ⟨v, hv, hlo, hhi⟩ := h f hf
  rw [hbounds] at hlo hhi
  rw [hv]
  exact ⟨_, dif_pos (show 0 ≤ v ∧ v < 8 by omega)⟩

theorem offsetFields (h : DraftWithin d op) (hA : .rA ∈ op.fields) (hB : .rB ∈ op.fields)
    (hO : .offset ∈ op.fields) : ∃ x, d.offsetFields true = .ok x := by
  obtain ⟨rA, hrA⟩ := h.reg hA rfl
  obtain ⟨rB, hrB⟩ := h.reg hB rfl
  obtain ⟨o, ho, hbounds⟩ := h .offset hO
  have hoffset : offsetOfField true d.offset = .ok o :=
    Instruction.offsetOfField_eq_ok_iff.2 ⟨by rw [show d.offset = some o from ho]; rfl,
      fun _ => hbounds⟩
  refine ⟨(rA, rB, o), ?_⟩
  rw [Draft.offsetFields, show regOfField .rA d.rA = .ok rA from hrA,
    show regOfField .rB d.rB = .ok rB from hrB, hoffset]
  rfl

theorem computing (h : DraftWithin d op) (hA : .rA ∈ op.fields) (hB : .rB ∈ op.fields)
    (hC : .rC ∈ op.fields) (alu : AluOp) : ∃ i, d.computing alu = .ok i := by
  obtain ⟨rA, hrA⟩ := h.reg hA rfl
  obtain ⟨rB, hrB⟩ := h.reg hB rfl
  obtain ⟨rC, hrC⟩ := h.reg hC rfl
  refine ⟨.alu alu rA rB rC, ?_⟩
  rw [Draft.computing, show regOfField .rA d.rA = .ok rA from hrA,
    show regOfField .rB d.rB = .ok rB from hrB, show regOfField .rC d.rC = .ok rC from hrC]
  rfl

/-- **Fields within their bounds** make an instruction. -/
theorem exists_fill (h : DraftWithin d op) : ∃ i, d.fill true op = .ok i := by
  cases op with
  | load | store | beq =>
    obtain ⟨x, hx⟩ := h.offsetFields (by decide) (by decide) (by decide)
    exact ⟨_, by rw [Draft.fill, hx]; rfl⟩
  | call =>
    obtain ⟨v, hv, hbounds⟩ := h .label (by decide)
    have hlabel : labelOfField (some v) = .ok ⟨v, hbounds⟩ := dif_pos hbounds
    refine ⟨.call ⟨v, hbounds⟩, ?_⟩
    rw [Draft.fill, show d.label = some v from hv, hlabel]
    rfl
  | ret => exact ⟨_, rfl⟩
  | add | sub | nor | mul => exact h.computing (by decide) (by decide) (by decide) _

end DraftWithin

/-- **The instruction of the form can be built**, with its offset checked. -/
theorem exists_build (h : ∀ f ∈ a.opcode.fields, (askField a f).Admits (askField a f).value) :
    ∃ i, (draft a).build true = .ok i := by
  have hvalue : ∀ f, (draft a).field f =
      if f ∈ a.opcode.fields then some (askField a f).value else none := by
    intro f
    cases f <;> rfl
  have hstray : (draft a).strayField? a.opcode = none := by
    refine List.findSome?_eq_none_iff.2 fun f _ => ?_
    rw [hvalue]
    split <;> rfl
  have hwithin : DraftWithin (draft a) a.opcode := fun f hf =>
    ⟨_, by rw [hvalue, if_pos hf], (h f hf).1, (h f hf).2 _ rfl⟩
  obtain ⟨i, hi⟩ := hwithin.exists_fill
  refine ⟨i, ?_⟩
  rw [Draft.build, show (draft a).opcode.opCode? = some a.opcode from opCode?_name a.opcode]
  dsimp only
  rw [hstray]
  exact hi

/-- So an instruction is added, and nothing is said. -/
theorem Session.notice_addInstruction (s : Session)
    (h : ∀ f ∈ a.opcode.fields, (askField a f).Admits (askField a f).value) :
    (s.addInstruction (Form.ask a)).2 = none := by
  obtain ⟨i, hi⟩ := exists_build h
  rw [addInstruction, show (Form.ask a).next.build Machine.checksOffsets = .ok i from hi]

/-! ## The lists of the session -/

namespace Session

/-- To set up a machine leaves the lists as they are. -/
theorem lists_setUp (s : Session) (f : Form) :
    (s.setUp f).1.program = s.program ∧ (s.setUp f).1.words = s.words := by
  rw [setUp]
  split
  · exact ⟨rfl, rfl⟩
  · split <;> exact ⟨rfl, rfl⟩

/-- And so does what the machine is driven to do. -/
theorem lists_proceed (s : Session) (go : Machine → Machine.Outcome) :
    (s.proceed go).1.program = s.program ∧ (s.proceed go).1.words = s.words := by
  rw [proceed]
  split
  · exact ⟨rfl, rfl⟩
  · split
    · exact ⟨rfl, rfl⟩
    · split <;> exact ⟨rfl, rfl⟩

/-- **What an action adds to the lists**: an instruction that has been built
with its offset checked, or the word in the form. -/
theorem lists_after (s : Session) (f : Form) (button : Option Button) :
    (∀ i ∈ (s.after f button).1.program, i ∈ s.program ∨ i.offsetFits) ∧
      ∀ w ∈ (s.after f button).1.words, w ∈ s.words ∨ w = (f.address, f.value) := by
  rcases button with - | button
  · exact ⟨fun _ => .inl, fun _ => .inl⟩
  cases button with
  | addInstruction =>
    change (∀ i ∈ (s.addInstruction f).1.program, _) ∧ ∀ w ∈ (s.addInstruction f).1.words, _
    unfold addInstruction
    rcases hbuild : f.next.build Machine.checksOffsets with fault | j
    · exact ⟨fun _ => .inl, fun _ => .inl⟩
    · refine ⟨fun i hi => (List.mem_append.1 hi).imp_right fun hi => ?_, fun _ => .inl⟩
      rw [List.mem_singleton.1 hi]
      exact Instruction.offsetFits_of_build hbuild
  | clearProgram => exact ⟨nofun, fun _ => .inl⟩
  | addData =>
    refine ⟨fun _ => .inl, fun w hw => ?_⟩
    exact (List.mem_append.1 hw).imp_right List.mem_singleton.1
  | setUp =>
    have hlists := s.lists_setUp f
    exact ⟨fun i hi => .inl (hlists.1 ▸ hi), fun w hw => .inl (hlists.2 ▸ hw)⟩
  | step =>
    have hlists := s.lists_proceed Machine.step
    exact ⟨fun i hi => .inl (hlists.1 ▸ hi), fun w hw => .inl (hlists.2 ▸ hw)⟩
  | runToCompletion =>
    have hlists := s.lists_proceed fun m => m.run Machine.runLimit
    exact ⟨fun i hi => .inl (hlists.1 ▸ hi), fun w hw => .inl (hlists.2 ▸ hw)⟩
  | resetState => exact ⟨nofun, nofun⟩

/-- **What has been checked of a session**: the offsets of its program, and the
addresses and words in its list. -/
structure Checked (s : Session) : Prop where
  program : ∀ i ∈ s.program, i.offsetFits
  words : ∀ w ∈ s.words, (0 ≤ w.1 ∧ w.1 < 65536) ∧ 0 ≤ w.2 ∧ w.2 < 65536

end Session

/-! ## Visits -/

namespace Framework

/-- **A visit within bounds**: at no time does a box show a number that it does
not admit. -/
def WithinBounds (F : Framework) (as : List F.Action) : Prop := ∀ s ∈ F.screens as, s.Fits

variable {F : Framework} {as : List F.Action} {x : F.Moment}

/-- **Within bounds every run gets as far as the body.** -/
theorem Moment.isSome_body_of_fits (hF : F.Lawful) (hfits : x.screen.Fits) :
    x.screen.body.isSome := by
  obtain ⟨button, h⟩ := Moment.exists_presses hF x
  by_cases hb : button = some .addInstruction
  · subst hb
    rcases script_cases (some x.before) x.answers with ⟨entered, notices, hfirst, hstop, -⟩ |
      ⟨entered, notices, listed, more, next, last, -, -, -, -, heq⟩
    · have hnone := x.before.notice_addInstruction fun f => (x.drawnFrom hF).field hfits
      rw [Session.presses_eq h (by decide), if_pos (by decide)] at hfirst
      obtain ⟨-, rfl⟩ := Prod.mk.inj hfirst
      have hafter : (Session.after x.before (Form.ask x.answers) (some .addInstruction)).2 =
        none := hnone
      rw [Option.getD_some, hafter] at hstop
      cases hstop
    · rw [x.screen_eq hF, Screen.isSome_body_shown, heq]
      rfl
  · exact Moment.isSome_body hF h hb

/-- **An action within bounds adds nothing that has not been checked.** -/
theorem Moment.checked (hF : F.Lawful) (hfits : x.screen.Fits) (h : x.before.Checked) :
    x.session.Checked := by
  obtain ⟨button, hpresses⟩ := Moment.exists_presses hF x
  have hdrawn := x.drawnFrom hF
  have hbody := Moment.isSome_body_of_fits hF hfits
  obtain ⟨hprogram, hwords⟩ := x.before.lists_after (Form.ask x.answers) button
  rw [Moment.session_eq hF hpresses]
  refine ⟨fun i hi => (hprogram i hi).elim (h.program i) id, fun w hw => ?_⟩
  rcases hwords w hw with hw | rfl
  · exact h.words w hw
  · exact ⟨hdrawn.address hfits hbody, hdrawn.value hfits hbody⟩

theorem WithinBounds.fits (h : F.WithinBounds as) (hx : x ∈ F.moments as) : x.screen.Fits :=
  h _ (mem_screens hx)

/-- **At each moment of a visit within bounds the session has been checked.** -/
theorem WithinBounds.checked (hF : F.Lawful) (h : F.WithinBounds as) (hx : x ∈ F.moments as) :
    x.before.Checked := by
  have hopened : (F.session F.opened).Checked := by
    rw [hF.session_opened]
    exact ⟨nofun, nofun⟩
  exact momentsFrom_induction (P := fun p => (F.session p).Checked) hopened
    (fun x hx => Moment.checked hF (h.fits hx)) x hx

end Framework

end OutOfOrder.Page
