import OutOfOrder.Proofs.Stations.Reuse
import OutOfOrder.Station.Fields
/-!
# Stations field by field

A station written out in its fields (`Station.fields`). Each operation on the
fields is the operation on the station, with the same answer, and the fields
show what the station shows (`fields_after`, `answer_fields`,
`reading_fields`). So a station can be read either way all along
(`fields_afterAll`, `trace_fields`), as long as an address or a saved table is
given to a station in use only.

Of the fields each is reset on its own. Nothing is left when the station is
freed (`clear_eq`), and an issue to a free station does not depend on any of
them (`take_of_free`); neither would hold if one field was forgotten. That a
station which is used again is as good as a new one (`used_again`) is carried
over from stations that cannot be told apart.
-/

namespace OutOfOrder

/-- The fields of an instruction in a station. -/
def Occupant.fields (o : Occupant) (result : Option Int) : Fields where
  busy := true
  instr := some o.instr
  op := some o.instr.opcode
  vj := o.j.value?
  vk := o.k.value?
  qj := o.j.tag?
  qk := o.k.tag?
  imm := o.imm
  addressReady := o.addressReady
  result := result
  pc := some o.pc
  seq := some o.seq
  cycles := o.cycles
  checkpoint := o.checkpoint

/-- **The fields of a station.** -/
def Station.fields (s : Station) : Fields :=
  match s.occupant with
  | none => { result := s.result }
  | some o => o.fields s.result

namespace Fields

/-- Issues an instruction. -/
def take (f : Fields) (slot : Slot) (x : Issuance) : Except Fault Fields :=
  f.issue slot.name x.instr x.pc x.seq x.vj x.qj x.vk x.qk x.imm

/-- The fields after a use. -/
def after (slot : Slot) (f : Fields) : Use → Fields
  | .issue x =>
    match f.take slot x with
    | .ok f' => f'
    | .error _ => f
  | .signal .cycle => (f.advance slot.latency).2
  | .signal (.result tag v) => (f.hear tag v).2
  | .result v => f.setResult v
  | .address a => f.setAddress a
  | .save table => f.save table
  | .clear => f.clear

/-- The fields after uses. -/
def afterAll (slot : Slot) (f : Fields) (uses : List Use) : Fields := uses.foldl (after slot) f

/-- What is answered to a use. -/
def answer (slot : Slot) (f : Fields) : Use → Answer
  | .issue x =>
    match f.take slot x with
    | .ok _ => .done
    | .error fault => .refused fault
  | .signal .cycle => .told (f.advance slot.latency).1
  | .signal (.result tag v) => .told (f.hear tag v).1
  | _ => .done

/-- What the fields show. -/
def reading (slot : Slot) (f : Fields) : Station.Reading where
  busy := f.busy
  cycles := f.cycles
  operandsReady := f.operandsReady
  addressPhaseDone := f.addressPhaseDone slot.addressLatency
  latencyElapsed := f.latencyElapsed slot.latency
  readyForBus := f.readyForBus slot.latency
  text := f.text slot

/-- What is answered to each of some uses, and shown after each. -/
def trace (slot : Slot) (f : Fields) : List Use → List (Answer × Station.Reading)
  | [] => []
  | u :: rest =>
    (f.answer slot u, (f.after slot u).reading slot) :: (f.after slot u).trace slot rest

/-- An address or a table is given to a station in use only. -/
def Suits (f : Fields) : Use → Prop
  | .address _ | .save _ => f.busy
  | _ => True

/-- And so it is with each of some uses. -/
def SuitsAll (slot : Slot) (f : Fields) : List Use → Prop
  | [] => True
  | u :: rest => f.Suits u ∧ (f.after slot u).SuitsAll slot rest

end Fields

/-! ## Operands -/

/-- **An operand that waits for the tag** has the value then, and any other is as
it was. -/
theorem Operand.parts_hear (p : Operand) (tag : Tag) (v : Int) :
    (p.hear tag v).value? = (if p.tag? = some tag then some v else p.value?) ∧
      (p.hear tag v).tag? = if p.tag? = some tag then none else p.tag? := by
  cases p with
  | unused => exact ⟨rfl, rfl⟩
  | value w => exact ⟨rfl, rfl⟩
  | waiting t => by_cases ht : t = tag <;> simp [hear, value?, tag?, ht]

namespace Occupant

variable {o : Occupant} {result : Option Int}

theorem operandsReady_fields : (o.fields result).operandsReady = o.ready := by
  rw [ready, o.j.ready_eq_isNone, o.k.ready_eq_isNone]
  rfl

/-- The number of the operation stands for its name. -/
theorem opText_fields : (o.fields result).opText = Station.operationName o := by
  have hundefined : ∀ code : Fin 7, OpCode.ofCode? (code.val + 9 : Nat) = none := by decide
  have hop : OpCode.ofCode? o.instr.opcode = o.instr.opCode? := by
    rcases o.instr with - | - | - | - | - | op | code
    case alu => cases op <;> rfl
    case undefined => exact hundefined code
    all_goals rfl
  rw [Station.operationName, ← hop]
  rfl

theorem jText_fields : (o.fields result).jText = o.j.text := by
  change Fields.operandText o.j.value? o.j.tag? = o.j.text
  cases o.j <;> rfl

theorem kText_fields : (o.fields result).kText = o.k.text := by
  change Fields.operandText o.k.value? o.k.tag? = o.k.text
  cases o.k <;> rfl

/-- A cycle moves the timer or does not. -/
theorem advance_fields (latency : Nat) {moves : Bool}
    (h : moves = (o.ready && (decide (o.cycles < latency) || result.isSome))) :
    (o.fields result).advance latency =
      (moves, (if moves then { o with cycles := o.cycles + 1 } else o).fields result) := by
  have hmore : (decide ((o.fields result).cycles < latency) || (o.fields result).result.isSome) =
      (decide (o.cycles < latency) || result.isSome) := rfl
  rw [Fields.advance, operandsReady_fields, hmore, h]
  cases o.ready <;> cases decide (o.cycles < latency) || result.isSome <;> rfl

/-- The first operand hears a result, -/
theorem hearJ_fields (tag : Tag) (v : Int) :
    (o.fields result).hearJ tag v = { o with j := o.j.hear tag v }.fields result := by
  obtain ⟨hvalue, htag⟩ := o.j.parts_hear tag v
  have hq : (o.fields result).qj = o.j.tag? := rfl
  rw [Fields.hearJ, hq]
  split <;> rename_i h
  · rw [if_pos h] at hvalue htag
    simp only [fields, hvalue, htag]
  · rw [if_neg h] at hvalue htag
    simp only [fields, hvalue, htag]

/-- and so does the second. -/
theorem hearK_fields (tag : Tag) (v : Int) :
    (o.fields result).hearK tag v = { o with k := o.k.hear tag v }.fields result := by
  obtain ⟨hvalue, htag⟩ := o.k.parts_hear tag v
  have hq : (o.fields result).qk = o.k.tag? := rfl
  rw [Fields.hearK, hq]
  split <;> rename_i h
  · rw [if_pos h] at hvalue htag
    simp only [fields, hvalue, htag]
  · rw [if_neg h] at hvalue htag
    simp only [fields, hvalue, htag]

end Occupant

/-! ## Operations -/

namespace Station

variable {s : Station} {o : Occupant} {u : Use}

theorem fields_of_free (h : s.occupant = none) : s.fields = { result := s.result } := by
  rw [fields, h]

theorem fields_of_busy (h : s.occupant = some o) : s.fields = o.fields s.result := by
  rw [fields, h]

theorem busy_fields (s : Station) : s.fields.busy = s.busy := by
  rcases ho : s.occupant with - | o
  · rw [fields_of_free ho, busy, ho]
    rfl
  · rw [fields_of_busy ho, busy, ho]
    rfl

/-- **An issue** gives the fields of the station that holds the instruction, or
ends with the same error. -/
theorem take_fields (s : Station) (x : Issuance) :
    s.fields.take s.toSlot x = (s.take x).map fields := by
  rw [take_eq, Fields.take, Fields.issue, busy_fields]
  obtain ⟨instr, pc, seq, vj, qj, vk, qk, imm⟩ := x
  cases s.busy with
  | true => rfl
  | false => cases vj <;> cases qj <;> cases vk <;> cases qk <;> rfl

/-- **A cycle** moves the timer or does not. -/
theorem advance_fields (s : Station) :
    s.fields.advance s.latency = (s.advances, s.advance.fields) := by
  rcases ho : s.occupant with - | o
  · rw [fields_of_free ho, fields_of_free (by rw [advance_occupant, ho, Option.map_none]),
      s.advance_toSlot.2, advances, ho]
    rfl
  · have hmoves : s.advances = (o.ready && (decide (o.cycles < s.latency) || s.result.isSome)) := by
      rw [advances, ho]
    rw [fields_of_busy ho, Occupant.advance_fields s.latency hmoves, fields_of_busy (o := s.tick o)
      (by rw [advance_occupant, ho, Option.map_some]), s.advance_toSlot.2, tick]

/-- **A result** is heard or is not. -/
theorem hear_fields (s : Station) (tag : Tag) (v : Int) :
    s.fields.hear tag v = (s.awaits tag, (s.hear tag v).fields) := by
  rcases ho : s.occupant with - | o
  · rw [fields_of_free ho, fields_of_free (by rw [hear, ho, Option.map_none]), awaits, ho]
    rfl
  · rw [fields_of_busy ho, fields_of_busy (o := o.hear tag v) (by rw [hear, ho, Option.map_some]),
      Fields.hear, Occupant.hearJ_fields, Occupant.hearK_fields, awaits, ho]
    rfl

/-- An address is given to a station in use, -/
theorem fields_withAddress (h : s.busy) (a : Int) :
    (s.withAddress a).fields = s.fields.setAddress a := by
  obtain ⟨o, ho⟩ := Option.isSome_iff_exists.1 h
  rw [fields_of_busy ho, fields_of_busy (withAddress_occupant ho)]
  rfl

/-- and so is a saved table. -/
theorem fields_saveStatus (h : s.busy) (table : StatusTable) :
    (s.saveStatus table).fields = s.fields.save table := by
  obtain ⟨o, ho⟩ := Option.isSome_iff_exists.1 h
  rw [fields_of_busy ho, fields_of_busy (o := { o with checkpoint := some table })
    (by rw [saveStatus, ho, Option.map_some])]
  rfl

theorem fields_withResult (s : Station) (v : Int) :
    (s.withResult v).fields = s.fields.setResult v := by
  rcases ho : s.occupant with - | o
  · rw [fields_of_free ho, fields_of_free (s := s.withResult v) ho]
    rfl
  · rw [fields_of_busy ho, fields_of_busy (s := s.withResult v) ho]
    rfl

/-- **Every operation on the fields is the operation on the station.** -/
theorem fields_after (h : s.fields.Suits u) : s.fields.after s.toSlot u = (s.after u).fields := by
  cases u with
  | issue x =>
    rw [Fields.after, take_fields, after_issue]
    rcases s.take x with fault | s' <;> rfl
  | signal c =>
    cases c with
    | cycle => exact congrArg Prod.snd s.advance_fields
    | result tag v => exact congrArg Prod.snd (s.hear_fields tag v)
  | result v => exact (s.fields_withResult v).symm
  | address a => exact (fields_withAddress (s.busy_fields ▸ h) a).symm
  | save table => exact (fields_saveStatus (s.busy_fields ▸ h) table).symm
  | clear => rfl

/-- It is answered alike. -/
theorem answer_fields (s : Station) (u : Use) : s.fields.answer s.toSlot u = s.answer u := by
  cases u with
  | issue x =>
    rw [Fields.answer, take_fields, answer_issue]
    rcases s.take x with fault | s' <;> rfl
  | signal c =>
    cases c with
    | cycle => exact congrArg (fun p => Answer.told p.1) s.advance_fields
    | result tag v => exact congrArg (fun p => Answer.told p.1) (s.hear_fields tag v)
  | _ => rfl

theorem text_fields (s : Station) : s.fields.text s.toSlot = s.text := by
  rcases ho : s.occupant with - | o
  · rw [fields_of_free ho, text, ho]
    rfl
  · rw [fields_of_busy ho, Fields.text, Occupant.opText_fields, Occupant.jText_fields,
      Occupant.kText_fields, text, timing, cycles, ho]
    rfl

/-- And the fields show what the station shows. -/
theorem reading_fields (s : Station) : s.fields.reading s.toSlot = s.reading := by
  have htext := s.text_fields
  rcases ho : s.occupant with - | o
  · rw [fields_of_free ho] at htext ⊢
    simp only [Fields.reading, htext, reading, busy, cycles, operandsReady, addressPhaseDone,
      latencyElapsed, readyForBus, ho]
    rfl
  · have hready : s.operandsReady = (o.fields s.result).operandsReady := by
      rw [operandsReady, ho, Occupant.operandsReady_fields]
      rfl
    rw [fields_of_busy ho] at htext ⊢
    simp only [Fields.reading, htext, reading, hready, busy, cycles, addressPhaseDone,
      latencyElapsed, readyForBus, ho]
    rfl

/-! ## Any number of uses -/

/-- **The station and its fields stay together**, whatever is done with them. -/
theorem fields_afterAll {uses : List Use} (h : s.fields.SuitsAll s.toSlot uses) :
    s.fields.afterAll s.toSlot uses = (s.afterAll uses).fields := by
  induction uses generalizing s with
  | nil => rfl
  | cons u rest ih =>
    obtain ⟨hu, hrest⟩ := h
    rw [fields_after hu, ← s.after_toSlot u] at hrest
    change (s.fields.after s.toSlot u).afterAll s.toSlot rest = _
    rw [fields_after hu, ← s.after_toSlot u]
    exact ih hrest

/-- **And so they answer and show the same.** -/
theorem trace_fields {uses : List Use} (h : s.fields.SuitsAll s.toSlot uses) :
    s.fields.trace s.toSlot uses = s.trace uses := by
  induction uses generalizing s with
  | nil => rfl
  | cons u rest ih =>
    obtain ⟨hu, hrest⟩ := h
    rw [fields_after hu, ← s.after_toSlot u] at hrest
    rw [Fields.trace, trace, answer_fields, fields_after hu, ← s.after_toSlot u, reading_fields,
      ih hrest]

/-- What suits a station suits one that cannot be told apart from it. -/
theorem Alike.suitsAll {t : Station} {uses : List Use} (h : Alike s t)
    (ht : t.fields.SuitsAll t.toSlot uses) : s.fields.SuitsAll s.toSlot uses := by
  induction uses generalizing s t with
  | nil => trivial
  | cons u rest ih =>
    obtain ⟨hut, hrest⟩ := ht
    have hbusy : s.fields.busy = t.fields.busy := by rw [busy_fields, busy_fields, h.busy]
    have hus : s.fields.Suits u := by
      cases u with
      | address | save => exact hbusy.trans hut
      | _ => trivial
    rw [fields_after hut, ← t.after_toSlot u] at hrest
    refine ⟨hus, ?_⟩
    rw [fields_after hus, ← s.after_toSlot u]
    exact ih (h.after u) hrest

end Station

/-! ## Used again -/

namespace Fields

variable {slot : Slot} {f : Fields} {past : List Use}

/-- **Nothing is left** in a station that is freed. -/
theorem clear_eq (f : Fields) : f.clear = fresh := rfl

/-- **An issue to a free station sets every field**, so that none of those it
finds there matters. -/
theorem take_of_free (hfree : f.busy = false) (x : Issuance) :
    f.take slot x = fresh.take slot x := by
  unfold take issue
  rw [hfree]
  rfl

/-- The fields of a station to which things were done since it was made. -/
theorem fields_of_past (h : fresh.SuitsAll slot past) :
    fresh.afterAll slot past = ((Station.ofSlot slot).afterAll past).fields :=
  Station.fields_afterAll (s := .ofSlot slot) h

/-- **A free station has no field set** but for the result. -/
theorem eq_of_free (h : fresh.SuitsAll slot past)
    (hfree : (fresh.afterAll slot past).busy = false) :
    fresh.afterAll slot past = { result := (fresh.afterAll slot past).result } := by
  rw [fields_of_past h, Station.busy_fields] at hfree
  rw [fields_of_past h, Station.fields_of_free (by simpa [Station.busy] using hfree)]

/-- **And it is used again as a new one.** An issue leaves the same fields in it,
or is refused with the same error, and whatever is done with it later is
answered and shown alike. -/
theorem used_again (h : fresh.SuitsAll slot past)
    (hfree : (fresh.afterAll slot past).busy = false) :
    (∀ x, (fresh.afterAll slot past).take slot x = fresh.take slot x) ∧
    ∀ later, fresh.SuitsAll slot later →
      (fresh.afterAll slot past).trace slot later = fresh.trace slot later := by
  refine ⟨take_of_free hfree, fun later hlater => ?_⟩
  obtain ⟨s, hs⟩ : ∃ s, s = (Station.ofSlot slot).afterAll past := ⟨_, rfl⟩
  have hslot : s.toSlot = slot := by
    rw [hs, Station.afterAll_toSlot]
    rfl
  rw [fields_of_past h, ← hs] at hfree ⊢
  have hlike : Station.Alike s (.ofSlot slot) := by
    have hfresh := Station.Alike.of_free (s.busy_fields ▸ hfree)
    rwa [hslot] at hfresh
  have hsuits : s.fields.SuitsAll slot later := hslot ▸ hlike.suitsAll hlater
  -- Both are stations written out, and the two stations cannot be told apart.
  calc s.fields.trace slot later
      = s.trace later := by
        rw [← hslot] at hsuits ⊢
        exact Station.trace_fields hsuits
    _ = (Station.ofSlot slot).trace later := hlike.trace later
    _ = fresh.trace slot later := (Station.trace_fields (s := .ofSlot slot) hlater).symm

end Fields

end OutOfOrder
