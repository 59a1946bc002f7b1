import OutOfOrder.Proofs.Stations.Timer
import OutOfOrder.Station.Printer
/-!
# Stations that are used again

A station that has been freed can differ from one that was just made. A
result may have been set since, and neither the timer nor what hears results
clears it. But a free station does not show its result, and an issue forgets
it.

So the two are compared by a relation that does not mention the result of a
free station (`Alike`). Whatever is done with both of them they answer and
show the same (`Alike.trace`), and once an instruction has been issued
there is no difference left (`reissue_forgets`).
-/

namespace OutOfOrder

/-- **What is done with a station.** An instruction is issued to it, it gets to
know something, it is given a result, an address or a saved status table, or it
is freed. -/
inductive Use where
  | issue (x : Issuance)
  | signal (c : Signal)
  | result (v : Int)
  | address (a : Int)
  | save (table : StatusTable)
  | clear

/-- What a station answers. -/
inductive Answer where
  | done
  | refused (fault : Fault)
  | told (yes : Bool)
deriving DecidableEq

namespace Station

/-- The station after a use. An issue that is refused leaves it as it was. -/
def after (s : Station) : Use → Station
  | .issue x =>
    match s.take x with
    | .ok s' => s'
    | .error _ => s
  | .signal c => s.signal c
  | .result v => s.withResult v
  | .address a => s.withAddress a
  | .save table => s.saveStatus table
  | .clear => s.clear

/-- The station after uses. -/
def afterAll (s : Station) (uses : List Use) : Station := uses.foldl after s

/-- **What a station answers to a use.** A cycle is answered by whether it
moved the timer, and a result by whether the station waited for it. -/
def answer (s : Station) : Use → Answer
  | .issue x =>
    match s.take x with
    | .ok _ => .done
    | .error fault => .refused fault
  | .signal .cycle => .told s.advances
  | .signal (.result tag _) => .told (s.awaits tag)
  | _ => .done

/-- **What a station shows.** -/
structure Reading where
  busy : Bool
  cycles : Nat
  operandsReady : Bool
  addressPhaseDone : Bool
  latencyElapsed : Bool
  readyForBus : Bool
  text : String
deriving DecidableEq

/-- What the station shows now. -/
def reading (s : Station) : Reading where
  busy := s.busy
  cycles := s.cycles
  operandsReady := s.operandsReady
  addressPhaseDone := s.addressPhaseDone
  latencyElapsed := s.latencyElapsed
  readyForBus := s.readyForBus
  text := s.text

/-- What a station answers to each of some uses, and what it shows after each. -/
def trace (s : Station) : List Use → List (Answer × Reading)
  | [] => []
  | u :: rest => (s.answer u, (s.after u).reading) :: (s.after u).trace rest

variable {s t : Station} {x : Issuance}

/-! ## Refusals -/

theorem after_issue (s : Station) (x : Issuance) :
    s.after (.issue x) = match s.take x with
      | .ok s' => s'
      | .error _ => s := rfl

theorem answer_issue (s : Station) (x : Issuance) :
    s.answer (.issue x) = match s.take x with
      | .ok _ => .done
      | .error fault => .refused fault := rfl

theorem exists_refusal_iff :
    (∃ fault, s.take x = .error fault) ↔
      s.busy ∨ (x.vj.isSome ∧ x.qj.isSome) ∨ (x.vk.isSome ∧ x.qk.isSome) := by
  rw [take_eq]
  unfold Issuance.flaw?
  by_cases hbusy : s.busy
  · simp [hbusy]
  · by_cases hj : x.vj.isSome ∧ x.qj.isSome
    · simp [hbusy, hj]
    · by_cases hk : x.vk.isSome ∧ x.qk.isSome
      · simp [hbusy, hj, hk]
      · simp [hbusy, hj, hk]

theorem after_of_refused {fault : Fault} (h : s.take x = .error fault) :
    s.answer (.issue x) = .refused fault ∧ s.after (.issue x) = s := by
  rw [answer_issue, after_issue, h]
  exact ⟨rfl, rfl⟩

/-! ## Free stations -/

theorem after_toSlot (s : Station) (u : Use) : (s.after u).toSlot = s.toSlot := by
  cases u with
  | issue x =>
    rw [after_issue]
    split
    · rename_i s' h
      rw [(take_eq_ok h).2]
      rfl
    · rfl
  | signal c => exact (s.signal_frame c).1
  | result v => rfl
  | address a => rfl
  | save table => rfl
  | clear => rfl

theorem afterAll_toSlot (s : Station) (uses : List Use) : (s.afterAll uses).toSlot = s.toSlot := by
  induction uses generalizing s with
  | nil => rfl
  | cons u rest ih => exact (ih (s.after u)).trans (s.after_toSlot u)

/-- **An issue to a free station** depends on no more than what never changes
about the station. -/
theorem take_of_free (hfree : s.busy = false) : s.take x = (ofSlot s.toSlot).take x := by
  rw [take_eq, take_eq, hfree]
  rfl

theorem occupant_after_of_free {u : Use} (hfree : s.occupant = none) (hu : ∀ x, u ≠ .issue x) :
    (s.after u).occupant = none := by
  cases u with
  | issue x => exact absurd rfl (hu x)
  | signal c =>
    cases c with
    | cycle => rw [after, signal, advance_occupant, hfree, Option.map_none]
    | result tag v => rw [after, signal, hear, hfree, Option.map_none]
  | result v => exact hfree
  | address a => rw [after, withAddress, hfree, Option.map_none]
  | save table => rw [after, saveStatus, hfree, Option.map_none]
  | clear => rfl

/-- **Stations that cannot be told apart**: they are the same, but for the
result if they are free. -/
structure Alike (s t : Station) : Prop where
  slot : s.toSlot = t.toSlot
  occupant : s.occupant = t.occupant
  result : s.busy → s.result = t.result

namespace Alike

theorem busy (h : Alike s t) : s.busy = t.busy := by
  unfold Station.busy
  rw [h.occupant]

theorem eq_of_busy (h : Alike s t) (hbusy : s.busy) : s = t := by
  obtain ⟨slot, result, occupant⟩ := s
  obtain ⟨hslot, hoccupant, hresult⟩ := h
  have hres := hresult hbusy
  dsimp only at hslot hoccupant hres
  rw [hslot, hoccupant, hres]

/-- There is nothing to tell apart, or neither holds an instruction. -/
theorem eq_or_free (h : Alike s t) : s = t ∨ (s.occupant = none ∧ t.occupant = none) := by
  by_cases hbusy : s.busy
  · exact .inl (h.eq_of_busy hbusy)
  · have hs : s.occupant = none := by simpa [Station.busy] using hbusy
    exact .inr ⟨hs, h.occupant ▸ hs⟩

/-- A station that is free is like one that was just made. -/
theorem of_free (hfree : s.busy = false) : Alike s (ofSlot s.toSlot) where
  slot := rfl
  occupant := by simpa [Station.busy, ofSlot] using hfree
  result := by simp [hfree]

theorem take_eq_take (h : Alike s t) (x : Issuance) : s.take x = t.take x := by
  obtain rfl | ⟨hs, ht⟩ := h.eq_or_free
  · rfl
  · calc s.take x
        = (ofSlot s.toSlot).take x := take_of_free (by rw [Station.busy, hs, Option.isSome_none])
      _ = (ofSlot t.toSlot).take x := by rw [h.slot]
      _ = t.take x := (take_of_free (by rw [Station.busy, ht, Option.isSome_none])).symm

/-- They show the same. -/
theorem reading (h : Alike s t) : s.reading = t.reading := by
  obtain rfl | ⟨hs, ht⟩ := h.eq_or_free
  · rfl
  · simp [Station.reading, Station.busy, cycles, operandsReady, addressPhaseDone, latencyElapsed,
      readyForBus, text, hs, ht, h.slot]

/-- They answer the same. -/
theorem answer (h : Alike s t) (u : Use) : s.answer u = t.answer u := by
  obtain rfl | ⟨hs, ht⟩ := h.eq_or_free
  · rfl
  cases u with
  | issue x => rw [answer_issue, answer_issue, h.take_eq_take x]
  | signal c => cases c <;> simp [Station.answer, advances, awaits, hs, ht]
  | result v => rfl
  | address a => rfl
  | save table => rfl
  | clear => rfl

/-- **No use tells them apart.** -/
theorem after (h : Alike s t) (u : Use) : Alike (s.after u) (t.after u) := by
  obtain rfl | ⟨hs, ht⟩ := h.eq_or_free
  · exact ⟨rfl, rfl, fun _ => rfl⟩
  by_cases hissue : ∃ x, u = .issue x
  · obtain ⟨x, rfl⟩ := hissue
    rw [after_issue, after_issue, h.take_eq_take x]
    split
    · exact ⟨rfl, rfl, fun _ => rfl⟩
    · exact h
  · -- Both are free after it, so their results do not matter.
    have hs' := occupant_after_of_free hs (fun x hx => hissue ⟨x, hx⟩)
    have ht' := occupant_after_of_free ht (fun x hx => hissue ⟨x, hx⟩)
    refine ⟨by rw [after_toSlot, after_toSlot, h.slot], hs'.trans ht'.symm, ?_⟩
    simp [Station.busy, hs']

/-- **Nor do many.** -/
theorem trace (h : Alike s t) (uses : List Use) : s.trace uses = t.trace uses := by
  induction uses generalizing s t with
  | nil => rfl
  | cons u rest ih =>
    unfold Station.trace
    rw [h.answer u, (h.after u).reading, ih (h.after u)]

end Alike

/-- **A station that is used again remembers nothing of its past.** It was made,
any number of things were done with it, and now it is free.

An issue to it ends as an issue to a station that was just made, with the same
error or with the same station. Whatever is done with the two, they answer and
show the same. And whatever is done after an issue that is not refused, there
is no difference at all. An issue is refused by a station in use, or if an
operand has both a value and a tag; then it changes nothing. -/
theorem reissue_forgets {slot : Slot} {past : List Use}
    (hfree : ((ofSlot slot).afterAll past).busy = false) :
    (∀ x, ((ofSlot slot).afterAll past).take x = (ofSlot slot).take x) ∧
    (∀ later, ((ofSlot slot).afterAll past).trace later = (ofSlot slot).trace later) ∧
    (∀ x later, x.flaw? = none →
      ((ofSlot slot).afterAll past).afterAll (.issue x :: later) =
        (ofSlot slot).afterAll (.issue x :: later)) ∧
    ∀ (s : Station) x, ((∃ fault, s.take x = .error fault) ↔
        s.busy ∨ (x.vj.isSome ∧ x.qj.isSome) ∨ (x.vk.isSome ∧ x.qk.isSome)) ∧
      ∀ fault, s.take x = .error fault →
        s.answer (.issue x) = .refused fault ∧ s.after (.issue x) = s := by
  have hslot : ((ofSlot slot).afterAll past).toSlot = slot := afterAll_toSlot (ofSlot slot) past
  have halike : Alike ((ofSlot slot).afterAll past) (ofSlot slot) := by
    have hlike := Alike.of_free hfree
    rwa [hslot] at hlike
  refine ⟨halike.take_eq_take, halike.trace, ?_, ?_⟩
  · intro x later hflaw
    refine congrArg (fun s => s.afterAll later) (?_ : _ = (ofSlot slot).after (.issue x))
    have hbusy : ((ofSlot slot).after (.issue x)).busy := by
      rw [after_issue, take_eq, hflaw]
      rfl
    have hlike := halike.after (.issue x)
    exact hlike.eq_of_busy (hlike.busy ▸ hbusy)
  · intro s x
    exact ⟨exists_refusal_iff, fun fault h => after_of_refused h⟩

/-- What was done with a station before: an addition went through it and met an
issue that was refused. After it had left, a result was set, and an issue was
refused because of its operands. -/
def samplePast : List Use :=
  [.issue sampleAddition, .signal (.result 6 9), .signal (.result 5 4), .signal .cycle, .address 40,
    .save (Vector.replicate 8 (some 2)), .result 3, .issue sampleAddition, .signal .cycle, .clear,
    .result 7, .issue { sampleAddition with vj := some 1 }, .signal .cycle]

/-- The result it has is all that is left, and the next addition does not
meet it. -/
theorem reissue_forgets_samplePast :
    let fresh := ofSlot sampleAdder.toSlot
    let used := fresh.afterAll samplePast
    used = fresh.withResult 7 ∧ used.take sampleAddition = fresh.take sampleAddition ∧
      used.trace (.issue sampleAddition :: samplePast) =
        fresh.trace (.issue sampleAddition :: samplePast) ∧
      used.afterAll [.issue sampleAddition, .signal (.result 5 1)] =
        fresh.afterAll [.issue sampleAddition, .signal (.result 5 1)] := by
  intro fresh used
  have hused : used = fresh.withResult 7 := by decide
  have hfree : used.busy = false := by rw [hused]; rfl
  obtain ⟨htake, htrace, hsame, -⟩ := reissue_forgets hfree
  exact ⟨hused, htake sampleAddition, htrace _, hsame sampleAddition _ rfl⟩

end Station

end OutOfOrder
