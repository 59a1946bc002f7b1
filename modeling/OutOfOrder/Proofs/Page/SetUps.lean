import OutOfOrder.Proofs.Loading
import OutOfOrder.Proofs.Page.Bounds
import OutOfOrder.Proofs.PoolTables
/-!
# Setting up a machine from the page

The machine of a form is made before its program is loaded, and a table that
makes no machine would end the run. With boxes that show numbers within their
bounds this cannot be: the pool of the form is sensible (`sensible_pool`),
whatever counts and latencies there are. The bounds of an address latency are
what this rests on, since they follow the latency of the same run.

So what is left is the program itself. It is refused, with the machine before
it still there, exactly if it has a misfit (`setUp_refused_iff_misfit`).
-/

namespace OutOfOrder.Page

variable {a : Answers}

/-! ## The pool of a form -/

theorem unitKind_name (kind : UnitKind) : (Designation.name kind.name).unitKind = .ok kind := by
  cases kind <;> decide +kernel

/-- The rows of the pool are for the kinds of units, and have an address
latency only where memory is accessed. -/
theorem kind_pool : ∀ row ∈ PoolTable.standard, ∃ kind : UnitKind,
    row.1 = kind.name ∧ (row.2.addressLatency.isSome → kind.isMemory) := by
  simp only [PoolTable.standard, List.forall_mem_cons]
  exact ⟨⟨.load, rfl, fun _ => rfl⟩, ⟨.store, rfl, fun _ => rfl⟩, ⟨.beq, rfl, nofun⟩,
    ⟨.callRet, rfl, nofun⟩, ⟨.addSub, rfl, nofun⟩, ⟨.nor, rfl, nofun⟩, ⟨.mul, rfl, nofun⟩, nofun⟩

/-- **What a row of the form says**: its count, a latency, and an address
latency that is within it. -/
structure SaysRow (row described : String × PoolRow) : Prop where
  name : described.1 = row.1
  count : ∃ count, described.2.stationCount = some count
  latency : ∃ latency, described.2.latency = some latency ∧ 1 ≤ latency ∧
    ∀ a, described.2.addressLatency = some a →
      row.2.addressLatency.isSome ∧ 0 ≤ a ∧ a ≤ latency
  memory : described.2.memoryLatency = none

theorem saysRow_askPoolRow {row : String × PoolRow}
    (hfits : ∀ b ∈ (askPoolRow a row.1 row.2).1, b.Admits b.value) :
    SaysRow row (askPoolRow a row.1 row.2).2 := by
  rw [askPoolRow] at hfits ⊢
  rcases ha : row.2.addressLatency with - | default <;> rw [ha] at hfits <;>
    simp only [List.forall_mem_cons] at hfits
  · obtain ⟨-, ⟨hpos, -⟩, -⟩ := hfits
    exact ⟨rfl, ⟨_, rfl⟩, ⟨_, rfl, hpos, by simp⟩, rfl⟩
  · obtain ⟨-, ⟨hpos, -⟩, ⟨hleast, hmost⟩, -⟩ := hfits
    refine ⟨rfl, ⟨_, rfl⟩, ⟨_, rfl, hpos, fun a' ha' => ?_⟩, rfl⟩
    cases ha'
    exact ⟨by rw [ha]; rfl, hleast, hmost _ rfl⟩

/-- The kind that a row of the form asks stations of is the kind of its name. -/
theorem SaysRow.kind_of_asks {row described : String × PoolRow} {kind kind' : UnitKind}
    (h : SaysRow row described) (hname : row.1 = kind.name) (hasks : Asks described kind') :
    kind' = kind := by
  have hkind := hasks.1
  rw [h.name, hname, unitKind_name] at hkind
  exact (Except.ok.inj hkind).symm

/-- Its latencies are those of a station. -/
theorem SaysRow.makes {row described : String × PoolRow} {kind : UnitKind}
    (h : SaysRow row described) (hmemory : row.2.addressLatency.isSome → kind.isMemory) :
    described.2.Makes kind := by
  obtain ⟨latency, hlatency, hpos, haddress⟩ := h.latency
  refine ⟨latency, hlatency, hpos, fun a ha => ?_⟩
  have hset : described.2.addressLatency = some a := by
    rw [h.memory] at ha
    rcases hgiven : described.2.addressLatency with - | b <;> rw [hgiven] at ha
    · cases ha
    · exact ha
  obtain ⟨hsome, hbounds⟩ := haddress a hset
  exact ⟨hmemory hsome, hbounds, fun b hb => by simp [h.memory] at hb⟩

theorem pool_ask (a : Answers) :
    (Form.ask a).pool = PoolTable.standard.map fun row => (askPoolRow a row.1 row.2).2 := by
  simp only [Form.ask, askPool, List.map_map]
  rfl

/-- **The pool of a form is sensible.** -/
theorem sensible_pool (hfits : ∀ row ∈ PoolTable.standard,
    ∀ b ∈ (askPoolRow a row.1 row.2).1, b.Admits b.value) : (Form.ask a).pool.Sensible := by
  have hset : ∀ row ∈ PoolTable.standard, SaysRow row (askPoolRow a row.1 row.2).2 :=
    fun row hrow => saysRow_askPoolRow (hfits row hrow)
  rw [pool_ask]
  constructor
  · intro _ hr
    obtain ⟨row, hrow, rfl⟩ := List.mem_map.1 hr
    obtain ⟨kind, hname, -⟩ := kind_pool row hrow
    exact ⟨kind, by rw [(hset row hrow).name, hname, unitKind_name]⟩
  · intro _ hr
    obtain ⟨row, hrow, rfl⟩ := List.mem_map.1 hr
    exact (hset row hrow).count
  · intro _ hr kind' hasks
    obtain ⟨row, hrow, rfl⟩ := List.mem_map.1 hr
    obtain ⟨kind, hname, hmemory⟩ := kind_pool row hrow
    obtain rfl := (hset row hrow).kind_of_asks hname hasks
    exact (hset row hrow).makes hmemory
  · -- Rows of one kind have one name.
    have hnames : PoolTable.standard.Pairwise fun a b => a.1 ≠ b.1 := by decide
    rw [List.pairwise_map]
    refine hnames.imp_of_mem fun {a b} ha hb hne kind hasks hasks' => hne ?_
    obtain ⟨kindA, hnameA, -⟩ := kind_pool a ha
    obtain ⟨kindB, hnameB, -⟩ := kind_pool b hb
    rw [hnameA, hnameB, ← (hset a ha).kind_of_asks hnameA hasks,
      ← (hset b hb).kind_of_asks hnameB hasks']

/-- **The form makes a machine**, with its choice for calls. -/
theorem exists_bareMachine (hfits : ∀ row ∈ PoolTable.standard,
    ∀ b ∈ (askPoolRow a row.1 row.2).1, b.Admits b.value) : ∃ m,
      Session.bareMachine (Form.ask a) = .ok m ∧ m.relativeCalls = a.relativeCalls := by
  obtain ⟨m, hm⟩ := Machine.exists_ofTable (sensible_pool hfits) Machine.checksOffsets
    a.relativeCalls
  have hrelative : m.relativeCalls = a.relativeCalls :=
    Machine.ofTable_induction (P := fun m => m.relativeCalls = a.relativeCalls)
      (fun _ _ h _ => h) rfl hm
  have hload : ∃ f, m.registers.load (Form.ask a).registers = .ok f :=
    ⟨_, if_neg (by simp [Form.ask])⟩
  obtain ⟨f, hf⟩ := hload
  refine ⟨{ m with registers := f }, ?_, hrelative⟩
  have hm' : Machine.ofTable (Form.ask a).pool Machine.checksOffsets (Form.ask a).relativeCalls =
      .ok m := hm
  rw [Session.bareMachine, hm']
  simp only [bind, Except.bind]
  rw [Machine.setRegisters, hf]
  rfl

/-! ## What a set-up does -/

/-- **A memory listing from an address on** does not fail. -/
theorem Display.fault?_eq_none {m : Machine} {finished : Bool}
    (h : 0 ≤ (draw a m finished).dumpBox.value ∧ (draw a m finished).dumpBox.value < 65536) :
    (draw a m finished).fault? = none := by
  have htables : (draw a m finished).tables =
      (m.memoryRows (draw a m finished).dumpBox.value dumpSize).map
        (Tables.draw a m finished) := rfl
  rw [fault?, htables, Machine.memoryRows, Memory.dump, Memory.address, dif_pos h]
  rfl

namespace Framework

variable {F : Framework} {x : F.Moment}

namespace Moment

open Machine (Misfit)

/-- **A click that sets up** leaves a machine with the program and the words in
it, or says what is wrong with the program and leaves the session as it was. -/
theorem setUp_cases (hF : F.Lawful) (hfits : x.screen.Fits) (hchecked : x.before.Checked)
    (hclick : x.clicks .setUp) :
    (x.screen.notices = [.ready] ∧ x.session.finished = false ∧
        (∀ fault, ¬ Misfit x.answers.relativeCalls x.before.program (Form.ask x.answers).start
          fault) ∧
        ∃ m, x.session.machine = some m ∧
          x.screen.Makes x.before.program x.before.words m ∧
          m.Loaded x.before.program (Form.ask x.answers).start x.before.words) ∨
      ∃ fault, x.screen.notices = [.cannotLoad fault] ∧
        Misfit x.answers.relativeCalls x.before.program (Form.ask x.answers).start fault ∧
        x.session = x.before := by
  obtain ⟨button, h⟩ := exists_presses hF x
  obtain rfl := (clicks_iff h).1 hclick
  have hdrawn := x.drawnFrom hF
  have hbody := isSome_body_of_fits hF hfits
  obtain ⟨m, hbare, hrelative⟩ :=
    exists_bareMachine (a := x.answers) fun row => hdrawn.poolRow hfits
  have hafter : x.before.after (Form.ask x.answers) (some .setUp) =
      x.before.setUp (Form.ask x.answers) := rfl
  rw [session_eq hF h, notices_eq hF h, hafter, Session.setUp, hbare, ← hrelative]
  dsimp only
  rcases m.loadProgram_cases (hdrawn.start hfits hbody) hchecked.program
      fun w hw => (hchecked.words w hw).1 with
    ⟨m', hload, hloaded, hnone⟩ | ⟨t, hload, hmisfit⟩ <;> rw [hload]
  · exact .inl ⟨rfl, rfl, hnone, m', rfl, hdrawn.makes hbody hbare hload, hloaded⟩
  · exact .inr ⟨t.fault, rfl, hmisfit, rfl⟩

/-- The program is previewed line by line. -/
theorem preview (hF : F.Lawful) (hclick : x.clicks .setUp) {k : Nat} {i : Instruction}
    (hi : x.before.program[k]? = some i) :
    x.screen.program[k]? = some (F.text (programLine (Form.ask x.answers).start i k)) := by
  obtain ⟨button, h⟩ := exists_presses hF x
  obtain rfl := (clicks_iff h).1 hclick
  obtain ⟨words, failed, hbody⟩ := body_of_presses (some x.before) h nofun
  have hlines : (script (some x.before) x.answers).2.program =
      x.before.program.zipIdx.map fun p =>
        programLine (Form.ask x.answers).start p.1 p.2 := by
    rw [Screen.program, hbody]
    rfl
  rw [x.screen_eq hF, Screen.program_shown, hlines, List.getElem?_map, List.getElem?_map,
    List.getElem?_zipIdx, hi]
  simp

/-- **Where no button fails nothing does**, within bounds. -/
theorem failure?_eq_none (hF : F.Lawful) (hfits : x.screen.Fits)
    (hnotices : x.screen.notices.findSome? Notice.fault? = none) : x.screen.failure? = none := by
  rw [Screen.failure?, hnotices, Option.none_or, Option.bind_eq_none_iff]
  intro d hd
  have hdump := (x.drawnFrom hF).dump hfits hd
  rw [x.screen_eq hF, Screen.display_shown] at hd
  rcases script_cases (some x.before) x.answers with ⟨entered, notices, -, -, heq⟩ |
    ⟨entered, notices, listed, more, next, last, -, -, -, -, heq⟩ <;> rw [heq] at hd
  · exact absurd hd (Option.not_mem_none d)
  · obtain ⟨m, -, rfl⟩ := display_draw hd
    exact Display.fault?_eq_none hdump

end Moment

open Machine (Misfit)

end Framework

open Machine (Misfit)

/-- A call is entered, and two words for one address. From the first address the
call would lead out of memory, so the first set-up is refused. Relative to its
place behind a later start it does not, and the second is accepted. Between them
the latency of loads becomes smaller than their address latency was. -/
def retriedVisit : List Action :=
  [{ opcode := some .call }, { numbers := [("Label", -1)], button := some .addInstruction },
    { numbers := [("Address", 6), ("Value", 7)], button := some .addData },
    { numbers := [("Value", 9)], button := some .addData }, { button := some .setUp },
    { relativeCalls := some true, numbers := [("Start Address", 5), ("lat_LOAD", 1)],
      button := some .setUp }]

end OutOfOrder.Page
