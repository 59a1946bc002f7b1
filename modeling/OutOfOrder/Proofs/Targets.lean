import OutOfOrder.Proofs.Codec
import OutOfOrder.Proofs.Faults
/-!
# Targets, when a program is placed and when it runs

A branch or call is refused where it would lead out of memory. What is
looked at is the instruction as it is given, and what runs is the word that
is stored for it. Both are the same instruction if the offset fits the word
(`decode_encode_of_offsetFits`), and both lead to the same address unless the
offset of a branch does not fit (`jumpTarget?_decode_encode_iff`). An
instruction is then accepted exactly if its word leads to an address, and a
cycle never stops on it where it was accepted (`targets_agree`).

Where offsets are not checked, the offset of a branch may lose its high
bits. So a branch that is accepted may leave memory, and one that would stay
inside may be refused (`targets_disagree_unchecked`).
-/

namespace OutOfOrder

namespace Instruction

variable {i : Instruction} {relative : Bool} {a : Int}

/-- **The word leads where the instruction leads** if no branch loses bits of
its offset, and not otherwise. -/
theorem jumpTarget?_decode_encode_iff :
    (decode i.encode).jumpTarget? relative a = i.jumpTarget? relative a ↔
      (i.isBranch → i.offsetFits) := by
  rw [decode_encode]
  cases i with
  | beq rA rB o =>
    have hfits : signExtend o 5 = o ↔ -16 ≤ o ∧ o ≤ 15 := by
      refine signExtend_eq_iff.trans ?_
      change -16 ≤ o ∧ o < 16 ∧ _ ↔ _
      omega
    simp only [truncated, jumpTarget?, Option.some.injEq, isBranch, opCode?, decide_true,
      forall_const, offsetFits, offset?, Option.all_some, Bool.and_eq_true, decide_eq_true_eq,
      ← hfits]
    omega
  | alu op =>
    refine iff_of_true rfl fun h => ?_
    cases op <;> cases h
  | _ =>
    refine iff_of_true rfl fun h => ?_
    cases h

end Instruction

namespace Machine

variable {m m' : Machine} {n : Nat} {s : Station} {o : Occupant} {i : Instruction} {a : Int}

theorem checkTarget_eq_ok_iff :
    m.checkTarget i a = .ok () ↔
      ∀ t, i.jumpTarget? m.relativeCalls a = some t → 0 ≤ t ∧ t < 65536 := by
  rw [checkTarget]
  rcases i.jumpTarget? m.relativeCalls a with - | t
  · simp
  · by_cases ht : 0 ≤ t ∧ t < 65536 <;> simp [ht]

/-- **An instruction is accepted** at an address if its offset is allowed and
it does not lead out of memory. Its word is stored there. -/
theorem addInstruction_eq_ok_iff :
    m.addInstruction i a = .ok m' ↔
      (m.offsetsChecked → i.offsetFits) ∧
        (∀ t, i.jumpTarget? m.relativeCalls a = some t → 0 ≤ t ∧ t < 65536) ∧
        ∃ place : Address, a = place.val ∧ m' = { m with
          memory := m.memory.set place i.encode
          loaded := insertLoaded place i m.loaded } := by
  rw [← checkTarget_eq_ok_iff, addInstruction, address]
  by_cases ha : 0 ≤ a ∧ a < 65536
  · have hplace : ∀ place : Address, a = place.val ↔ place = ⟨a.toNat, toNat_lt_of_inRange ha⟩ := by
      intro place
      rw [Fin.ext_iff]
      dsimp only
      omega
    simp only [dif_pos ha, hplace, exists_eq_left, bind, Except.bind, pure, Except.pure]
    rcases hoff : m.offsetsChecked && !i.offsetFits with - | -
    · have hallowed : m.offsetsChecked → i.offsetFits := by
        simpa [Bool.and_eq_false_iff, Bool.not_eq_false', imp_iff_not_or] using hoff
      rcases m.checkTarget i a with fault | u
      · simp
      · simp only [Except.ok.injEq, Bool.false_eq_true, if_false]
        exact ⟨fun h => ⟨hallowed, trivial, h.symm⟩, fun h => h.2.2.symm⟩
    · obtain ⟨hchecked, hno⟩ := Bool.and_eq_true_iff.1 hoff
      rw [Bool.not_eq_true'] at hno
      simp [hchecked, hno, throw, throwThe, MonadExceptOf.throw]
  · rw [dif_neg ha]
    refine iff_of_false (fun h => by cases h) ?_
    rintro ⟨-, -, place, rfl, -⟩
    exact ha (Word.toInt_inRange place)

/-- **Where an instruction aims is its target**, as it is checked when an
instruction is placed. -/
theorem Coherent.jumpTarget?_of_aims (hc : m.Coherent) (ha : m.Aims n a) :
    ∃ s o, m.Holds n s o ∧ o.instr.jumpTarget? m.relativeCalls o.pc = some a := by
  obtain ⟨s, o, hold, -, -, haim⟩ := ha
  refine ⟨s, o, hold, ?_⟩
  have hfit := hc.fits n s o hold
  rcases haim with ⟨kind, -, offset, himm, rfl⟩ | ⟨hcall, himm⟩
  · obtain ⟨rA, rB, off, hi, himm'⟩ := hfit.exists_branch kind
    obtain rfl : offset = off := Option.some.inj (himm.symm.trans himm')
    rw [hi, Instruction.jumpTarget?]
  · obtain ⟨label, hi⟩ := Instruction.isCall_iff.1 hcall
    rw [hi, Instruction.jumpTarget?, ← himm, hfit.target label hi, Int.add_comm label.val]

/-- **An instruction that a cycle stops on would be refused** where it was
fetched. -/
theorem Reachable.exists_refused {t : Trap} (h : Reachable m) (ht : m.step = .error t) :
    ∃ m₁ n s o a, m.advance.issue = .ok m₁ ∧ m₁.Holds n s o ∧
      t.fault = .outOfBounds .programCounter a ∧
      o.instr.jumpTarget? m.relativeCalls o.pc = some a ∧
      ∀ (m₀ m' : Machine) (i : Instruction), m₀.relativeCalls = m.relativeCalls →
        (i.isBranch → i.offsetFits) → o.instr = Instruction.decode i.encode →
          m₀.addInstruction i o.pc ≠ .ok m' := by
  obtain ⟨m₁, h₁⟩ := m.advance.exists_issue
  have hc₁ := h.coherent.advance.issue h₁
  have hrel : m₁.relativeCalls = m.relativeCalls := by
    rcases issue_eq_ok h₁ with ⟨i, s, n, -, -, -, -, rfl⟩ | rfl <;> rfl
  obtain ⟨n, -, a, haims, hout, hfault⟩ := hc₁.aims_of_turns
    (fun _ => speculative_barrier_eq_false_iff.1) (.refl m₁) ((hc₁.step_eq_error_iff h₁).1 ht)
  obtain ⟨s, o, hold, htarget⟩ := hc₁.jumpTarget?_of_aims haims
  rw [hrel] at htarget
  refine ⟨m₁, n, s, o, a, h₁, hold, hfault, htarget, fun m₀ m' i hrel₀ hkept hi hok => hout ?_⟩
  rw [hi, Instruction.jumpTarget?_decode_encode_iff.2 hkept] at htarget
  exact (addInstruction_eq_ok_iff.1 hok).2.1 a (by rw [hrel₀, htarget])

/-- **The target that is checked is the target at run time**, where offsets
are checked, and else for every instruction but a branch whose offset does
not fit. Such an instruction is accepted exactly if its address is one, its
offset is allowed and the word that is stored for it leads to an address if
it leads anywhere. Its word is then the one at the address, and a cycle that
stops does so on another instruction or one fetched elsewhere. -/
theorem targets_agree (hkept : m.offsetsChecked ∨ (i.isBranch → i.offsetFits)) :
    ((∃ m', m.addInstruction i a = .ok m') ↔
      (0 ≤ a ∧ a < 65536) ∧ (m.offsetsChecked → i.offsetFits) ∧
        ∀ t, (Instruction.decode i.encode).jumpTarget? m.relativeCalls a = some t →
          0 ≤ t ∧ t < 65536) ∧
    ∀ m', m.addInstruction i a = .ok m' →
      (∃ place : Address, a = place.val ∧ m'.memory.get place = i.encode) ∧
      ∀ (z : Machine) (t : Trap), Reachable z → z.relativeCalls = m.relativeCalls →
        z.step = .error t → ∃ z₁ n s o b, z.advance.issue = .ok z₁ ∧ z₁.Holds n s o ∧
          t.fault = .outOfBounds .programCounter b ∧
          o.instr.jumpTarget? z.relativeCalls o.pc = some b ∧
          ¬ (o.instr = Instruction.decode i.encode ∧ (o.pc : Int) = a) := by
  have hbranch : (m.offsetsChecked → i.offsetFits) → i.isBranch → i.offsetFits := fun hoff =>
    hkept.elim (fun hchecked _ => hoff hchecked) id
  refine ⟨⟨?_, ?_⟩, fun m' hok => ?_⟩
  · rintro ⟨m', hok⟩
    obtain ⟨hoff, htarget, place, rfl, -⟩ := addInstruction_eq_ok_iff.1 hok
    rw [Instruction.jumpTarget?_decode_encode_iff.2 (hbranch hoff)]
    exact ⟨Word.toInt_inRange place, hoff, htarget⟩
  · rintro ⟨ha, hoff, htarget⟩
    rw [Instruction.jumpTarget?_decode_encode_iff.2 (hbranch hoff)] at htarget
    exact ⟨_, addInstruction_eq_ok_iff.2 ⟨hoff, htarget, ⟨a.toNat, by omega⟩,
      (Int.toNat_of_nonneg ha.1).symm, rfl⟩⟩
  · obtain ⟨hoff, -, place, hplace, hm'⟩ := addInstruction_eq_ok_iff.1 hok
    refine ⟨⟨place, hplace, by rw [hm', Memory.get_set, if_pos rfl]⟩, ?_⟩
    intro z t hreach hrel hstop
    obtain ⟨z₁, n, s, o, b, h₁, hold, hfault, htarget, hrefused⟩ := hreach.exists_refused hstop
    refine ⟨z₁, n, s, o, b, h₁, hold, hfault, htarget, ?_⟩
    rintro ⟨hi, rfl⟩
    exact hrefused m m' i hrel.symm (hbranch hoff) hi hok

/-- A branch that leads below address 0 is refused, and the machine that has
it as a word of data stops on it. The branch to the next address is accepted,
and is not the one that is stopped on. -/
theorem targets_agree_straySample :
    (∀ m', samplePool.addInstruction (.beq 0 0 (-16)) 0 ≠ .ok m') ∧
      ∃ m', samplePool.addInstruction (.beq 0 0 1) 0 = .ok m' ∧
        (∃ place : Address, (0 : Int) = place.val ∧
          m'.memory.get place = Instruction.encode (.beq 0 0 1)) ∧
        ∃ z t, straySample.steps 2 = .ok z ∧ z.step = .error t ∧
          ∃ z₁ n s o b, z.advance.issue = .ok z₁ ∧ z₁.Holds n s o ∧
            t.fault = .outOfBounds .programCounter b ∧
            o.instr.jumpTarget? z.relativeCalls o.pc = some b ∧
            ¬ (o.instr = Instruction.decode (Instruction.encode (.beq 0 0 1)) ∧
              (o.pc : Int) = 0) := by
  refine ⟨fun m' hok => ?_, ?_⟩
  · have htarget := ((targets_agree (m := samplePool) (i := .beq 0 0 (-16)) (a := 0)
      (.inl rfl)).1.1 ⟨m', hok⟩).2.2 (-15) (by decide +kernel)
    omega
  · obtain ⟨hiff, haccepted⟩ :=
      targets_agree (m := samplePool) (i := .beq 0 0 1) (a := 0) (.inl rfl)
    obtain ⟨m', hok⟩ := hiff.2 ⟨by decide, by decide, fun t ht => by
      obtain rfl : (2 : Int) = t := Option.some.inj ht
      decide⟩
    obtain ⟨hplace, hother⟩ := haccepted m' hok
    have hran : ((straySample.steps 2).toOption.any fun z => !z.step.toOption.isSome &&
        z.relativeCalls == samplePool.relativeCalls) = true := by
      decide +kernel
    obtain ⟨z, hz, hstop⟩ := exists_of_any hran
    obtain ⟨hstop, hrel⟩ := Bool.and_eq_true_iff.1 hstop
    have hreach : Reachable z :=
      (Configured.call configured_samplePool (.loadProgram ..)).reachable.steps hz
    rcases ht : z.step with t | z'
    · exact ⟨m', hok, hplace, z, t, hz, ht, hother z t hreach (eq_of_beq hrel) ht⟩
    · rw [ht] at hstop
      cases hstop

/-- The pool of the sample, where offsets are not checked. -/
def uncheckedPool : Machine := { samplePool with offsetsChecked := false }

/-- **Where offsets are not checked the two targets may differ.** A branch
that is accepted leads to −15, and the third cycle stops on it; and one that
would lead to 1 is refused. -/
theorem targets_disagree_unchecked :
    (∃ m, uncheckedPool.addInstruction (.beq 0 0 16) 0 = .ok m ∧
      (Instruction.decode (m.memory.get 0)).jumpTarget? m.relativeCalls 0 = some (-15) ∧
      ∃ t, (m.steps 3) = .error t ∧ t.fault = .outOfBounds .programCounter (-15)) ∧
    uncheckedPool.addInstruction (.beq 0 0 (-32)) 0 =
      .error (.jumpTarget (-31) (.beq 0 0 (-32)) 0) ∧
    (Instruction.decode (Instruction.encode (.beq 0 0 (-32)))).jumpTarget?
      uncheckedPool.relativeCalls 0 = some 1 := by
  refine ⟨?_, by decide +kernel, by decide +kernel⟩
  have hran : ((uncheckedPool.addInstruction (.beq 0 0 16) 0).toOption.any fun m => decide
      ((Instruction.decode (m.memory.get 0)).jumpTarget? m.relativeCalls 0 = some (-15) ∧
        ((m.steps 3).mapError Trap.fault).map (fun _ => ()) =
          .error (.outOfBounds .programCounter (-15)))) = true := by
    decide +kernel
  obtain ⟨m, hok, h⟩ := exists_of_any hran
  obtain ⟨hword, hstop⟩ := of_decide_eq_true h
  refine ⟨m, hok, hword, ?_⟩
  rcases ht : m.steps 3 with t | m' <;> rw [ht] at hstop
  · exact ⟨t, rfl, Except.error.inj hstop⟩
  · cases hstop

end Machine

end OutOfOrder
