import Mathlib.Data.List.Nodup
import OutOfOrder.Page.Framework
/-!
# What the boxes of a screen ask for

The script hands on to the machine the numbers that it is told. Here the same
numbers are read off the screen, each by the name of its box, and `Makes` says
which machine they ask for.

Both come to the same because no two boxes of a screen have one name
(`nodup_boxNames`): whatever name a box has, it is this box that is found
(`Screen.number?_of_mem`).
-/

namespace OutOfOrder.Page

namespace Screen

/-- The number in the box of a name. -/
def number? (s : Screen) (name : String) : Option Int :=
  (s.boxes.find? fun b => b.name = name).map NumberBox.value

/-- The pool table in the boxes beside the page. -/
def pool (s : Screen) : PoolTable :=
  PoolTable.standard.map fun (name, row) => (name, {
    stationCount := s.number? s!"rs_{name}"
    latency := s.number? s!"lat_{name}"
    addressLatency := if row.addressLatency.isSome then s.number? s!"addr_{name}" else none })

/-- **The machine is the one that a screen asks for.** It has the pool of the
screen and its choice for calls, its registers have been set and then the
program and the words of memory have been loaded. -/
def Makes (s : Screen) (program : List Instruction) (words : List (Int × Int)) (m : Machine) :
    Prop :=
  ∃ (start : Int) (values : List Int) (bare seeded : Machine),
    s.number? "Start Address" = some start ∧
    values.map some = some 0 :: (List.range' 1 7).map (fun n => s.number? s!"reg_{n}") ∧
    Machine.ofTable s.pool Machine.checksOffsets s.form.relativeCalls = .ok bare ∧
    bare.setRegisters values = .ok seeded ∧ seeded.loadProgram program start words [] = .ok m

/-- Where no two boxes have one name each is found by its own. -/
theorem number?_of_mem {s : Screen} {b : NumberBox} (h : (s.boxes.map fun b => b.name).Nodup)
    (hb : b ∈ s.boxes) : s.number? b.name = some b.value := by
  rcases hfind : s.boxes.find? fun c => c.name = b.name with - | c
  · exact absurd (decide_eq_true rfl) (List.find?_eq_none.1 hfind b hb)
  · have hname : c.name = b.name := by simpa using List.find?_some hfind
    obtain rfl := List.inj_on_of_nodup_map h (List.mem_of_find?_eq_some hfind) hb hname
    rw [number?, hfind, Option.map_some]

/-! ## What is shown -/

section Shown

variable {s : Screen} {text : String → String}

@[simp]
theorem isSome_body_shown : (s.shown text).body.isSome = s.body.isSome := Option.isSome_map

@[simp]
theorem display_shown : (s.shown text).display = s.display := by
  unfold shown display
  cases s.body <;> rfl

@[simp]
theorem program_shown : (s.shown text).program = s.program.map text := by
  unfold shown program
  cases s.body <;> rfl

end Shown

end Screen

/-! ## The names of the boxes -/

/-- The names of the boxes of a pool row. -/
def poolRowNames (name : String) (row : PoolRow) : List String :=
  [s!"rs_{name}", s!"lat_{name}"] ++ if row.addressLatency.isSome then [s!"addr_{name}"] else []

/-- The names of all boxes that there can be on a screen for an operation. -/
def boxNames (opcode : OpCode) : List String :=
  opcode.fields.map fieldCaption ++ (["Start Address", "Address", "Value"] ++
    (List.range' 1 7).map fun n => s!"reg_{n}") ++ ["Dump from address"] ++
    PoolTable.standard.flatMap fun (name, row) => poolRowNames name row

/-- **No two boxes have one name.** -/
theorem nodup_boxNames (opcode : OpCode) : (boxNames opcode).Nodup := by
  cases opcode <;> decide +kernel

variable {a : Answers} {s : Screen}

theorem names_askPoolRow (a : Answers) (name : String) (row : PoolRow) :
    ((askPoolRow a name row).1.map fun b => b.name) = poolRowNames name row := by
  rw [askPoolRow]
  rcases h : row.addressLatency with - | default <;>
    simp [poolRowNames, h, Answers.ask, addressRequest]

theorem names_poolBoxes (a : Answers) :
    ((Form.ask a).poolBoxes.map fun b => b.name) =
      PoolTable.standard.flatMap fun (name, row) => poolRowNames name row := by
  simp only [Form.ask, askPool, List.flatMap_map, List.map_flatMap, names_askPoolRow]

/-- **A screen of the script**: its form is what it has been told, and so is the
box of the memory listing if there is one. -/
structure Screen.DrawnFrom (s : Screen) (a : Answers) : Prop where
  form : s.form = Form.ask a
  dumpBox : ∀ d ∈ s.display, d.dumpBox = a.askWord "Dump from address" 0

namespace Screen.DrawnFrom

/-- The boxes that are drawn are some of those that there can be, in their
order. -/
theorem nodup_names (h : s.DrawnFrom a) : (s.boxes.map fun b => b.name).Nodup := by
  refine (nodup_boxNames a.opcode).sublist ?_
  have hfields : (s.form.fieldBoxes.map fun b => b.name) = a.opcode.fields.map fieldCaption := by
    rw [h.form]
    exact List.map_map
  have hentries : (s.form.entryBoxes.map fun b => b.name) =
      ["Start Address", "Address", "Value"] ++ (List.range' 1 7).map fun n => s!"reg_{n}" := by
    rw [h.form]
    rfl
  have hdump : ((s.display.map Display.dumpBox).toList.map fun b => b.name).Sublist
      ["Dump from address"] := by
    rcases hd : s.display with - | d
    · exact List.nil_sublist _
    · rw [Option.map_some, h.dumpBox d hd]
      exact List.Sublist.refl _
  rw [boxes, List.map_append, List.map_append, List.map_append, hfields, boxNames,
    show s.form.poolBoxes = (Form.ask a).poolBoxes by rw [h.form], names_poolBoxes]
  refine (((List.Sublist.refl _).append ?_).append hdump).append (List.Sublist.refl _)
  split
  · rw [hentries]
  · exact List.nil_sublist _

/-! ## What the form takes is what the boxes show -/

theorem number?_eq (h : s.DrawnFrom a) {b : NumberBox} (hb : b ∈ s.boxes) :
    s.number? b.name = some b.value :=
  number?_of_mem h.nodup_names hb

theorem mem_of_entry (h : s.DrawnFrom a) (hbody : s.body.isSome) {b : NumberBox}
    (hb : b ∈ (Form.ask a).entryBoxes) : b ∈ s.boxes := by
  rw [boxes, if_pos hbody, h.form]
  exact List.mem_append_left _ (List.mem_append_left _ (List.mem_append_right _ hb))

theorem mem_of_poolRow (h : s.DrawnFrom a) {b : NumberBox} {name : String} {row : PoolRow}
    (hrow : (name, row) ∈ PoolTable.standard) (hb : b ∈ (askPoolRow a name row).1) :
    b ∈ s.boxes := by
  refine List.mem_append_right _ ?_
  rw [h.form]
  exact List.mem_flatMap.2 ⟨_, List.mem_map.2 ⟨(name, row), hrow, rfl⟩, hb⟩

end Screen.DrawnFrom

/-- **A pool row is what its boxes show**, to whoever finds them. -/
theorem askPoolRow_snd {name : String} {row : PoolRow} {number? : String → Option Int}
    (h : ∀ b ∈ (askPoolRow a name row).1, number? b.name = some b.value) :
    (askPoolRow a name row).2 = (name, {
      stationCount := number? s!"rs_{name}"
      latency := number? s!"lat_{name}"
      addressLatency := if row.addressLatency.isSome then number? s!"addr_{name}" else none }) := by
  rw [askPoolRow] at h ⊢
  rcases ha : row.addressLatency with - | default <;>
    simp only [ha, Answers.ask, addressRequest, List.forall_mem_cons] at h ⊢
  · obtain ⟨hcount, hlatency, -⟩ := h
    simp only [hcount, hlatency, Option.isSome_none, Bool.false_eq_true, if_false]
  · obtain ⟨hcount, hlatency, haddress, -⟩ := h
    simp only [hcount, hlatency, haddress, Option.isSome_some, if_true]

namespace Screen.DrawnFrom

theorem pool_eq (h : s.DrawnFrom a) : s.pool = (Form.ask a).pool := by
  simp only [Screen.pool, Form.ask, askPool, List.map_map]
  refine List.map_congr_left ?_
  rintro ⟨name, row⟩ hrow
  exact (askPoolRow_snd fun b hb => h.number?_eq (h.mem_of_poolRow hrow hb)).symm

theorem start_eq (h : s.DrawnFrom a) (hbody : s.body.isSome) :
    s.number? "Start Address" = some (Form.ask a).start := by
  refine h.number?_eq (b := a.askWord "Start Address" 0) (h.mem_of_entry hbody ?_)
  simp [Form.ask]

theorem registers_eq (h : s.DrawnFrom a) (hbody : s.body.isSome) :
    (Form.ask a).registers.map some =
      some 0 :: (List.range' 1 7).map fun n => s.number? s!"reg_{n}" := by
  simp only [Form.ask, List.map_cons, List.map_map, List.cons.injEq, true_and]
  refine List.map_congr_left fun n hn => ?_
  refine (h.number?_eq (b := a.askWord s!"reg_{n}" 0) (h.mem_of_entry hbody ?_)).symm
  exact List.mem_append_right _ (List.mem_map.2 ⟨n, hn, rfl⟩)

/-- **A machine that loads the program of a form is the one that the screen
asks for.** -/
theorem makes (h : s.DrawnFrom a) (hbody : s.body.isSome) {m m' : Machine}
    {program : List Instruction} {words : List (Int × Int)}
    (hbare : Session.bareMachine (Form.ask a) = .ok m)
    (hload : m.loadProgram program (Form.ask a).start words [] = .ok m') :
    s.Makes program words m' := by
  rw [Session.bareMachine] at hbare
  rcases hpool : Machine.ofTable (Form.ask a).pool Machine.checksOffsets
      (Form.ask a).relativeCalls with fault | bare <;> rw [hpool] at hbare
  · cases hbare
  · rw [← h.pool_eq, ← h.form] at hpool
    exact ⟨_, _, bare, m, h.start_eq hbody, h.registers_eq hbody, hpool, hbare, hload⟩

end Screen.DrawnFrom

end OutOfOrder.Page
