import OutOfOrder.Proofs.Follows.Values
/-!
# The program counter follows the replay

After an instruction that neither branches nor jumps the machine goes on at
the next address, and so does the replay. After a branch that has not
resolved it does the same: if the branch falls through that was right, and
if it is taken what was issued after it is dropped. After a jump nothing is
issued until it has resolved.
-/

namespace OutOfOrder

open OutOfOrder.Sequential

namespace Machine

variable {m m' : Machine} {n k : Nat} {s s' : Station} {o o' : Occupant} {e b : Entry} {q : Int}
variable {start : State}

/-- The last instruction before a number is the last one the replay
performs. -/
theorem stateAt_of_getLast? (hc : m.Coherent) (hlast : (m.before q).getLast? = some e) :
    m.stateAt start q = (m.stateAt start e.seq).perform m.relativeCalls e := by
  obtain ⟨l, hl⟩ := List.getLast?_eq_some_iff.1 hlast
  have hin : InOrder (m.before q) := hc.inOrder.filter _
  have hmem : e ∈ m.before q := by
    rw [hl]
    exact List.mem_append_right _ List.mem_cons_self
  -- What is before the last one is what was before the number, less the last one.
  have hbefore : m.before e.seq = l := by
    have hfilter : m.before e.seq = (m.before q).filter fun x => x.seq < e.seq := by
      rw [before, before, List.filter_filter]
      refine List.filter_congr fun x _ => ?_
      have := (mem_before.1 hmem).2
      rw [Bool.eq_iff_iff, Bool.and_eq_true, decide_eq_true_eq, decide_eq_true_eq]
      omega
    rw [hl] at hin
    rw [hfilter, hl, List.filter_append, List.filter_eq_self.2 fun x hx => ?_,
      List.filter_cons_of_neg (by simp), List.filter_nil, List.append_nil]
    rw [decide_eq_true_eq]
    exact (List.pairwise_append.1 hin).2.2 x hx e List.mem_cons_self
  rw [stateAt_eq_replay_before, hl, State.replay_concat, stateAt_eq_replay_before, hbefore]

/-- Where the machine goes on depends on which branches are in flight, and
on nothing else. -/
theorem nextPc_congr (hbefore : m'.before q = m.before q)
    (hrel : m'.relativeCalls = m.relativeCalls)
    (hflight : ∀ e, (m.before q).getLast? = some e → e.instr.isBranch →
      (e.seq ∈ m'.flight ↔ e.seq ∈ m.flight)) : m'.nextPc start q = m.nextPc start q := by
  have hst : m'.stateAt start q = m.stateAt start q := by
    rw [stateAt_eq_replay_before, stateAt_eq_replay_before, hbefore, hrel]
  rw [nextPc, nextPc, hbefore, hst]
  rcases hlast : (m.before q).getLast? with - | e
  · rfl
  · by_cases hb : e.instr.isBranch
    · simp only [hflight e hlast hb]
    · simp only [hb, Bool.false_eq_true, false_and, if_false]

/-- **After an instruction that has resolved the machine goes on where the
replay does.** -/
theorem nextPc_of_getLast? (hc : m.Coherent) (hlast : (m.before q).getLast? = some e)
    (hgone : ¬ (e.instr.isBranch ∧ e.seq ∈ m.flight)) :
    m.nextPc start q = ((m.stateAt start e.seq).perform m.relativeCalls e).pc := by
  simp only [nextPc, hlast, if_neg hgone, stateAt_of_getLast? hc hlast]

namespace ControlFollows

/-- **Where no branch resolves and no jump, the control follows as
before.** -/
theorem congr (h : m.ControlFollows start) (hissued : m'.issued = m.issued)
    (hseq : m'.nextSeq = m.nextSeq) (hrel : m'.relativeCalls = m.relativeCalls)
    (hpc : m'.pc = m.pc) (hjump : m'.jumpPending = m.jumpPending)
    (hflight : ∀ e ∈ m.issued, e.instr.isBranch → (e.seq ∈ m'.flight ↔ e.seq ∈ m.flight)) :
    m'.ControlFollows start := by
  have hnext : ∀ q, m'.nextPc start q = m.nextPc start q := fun q =>
    nextPc_congr (by rw [before, hissued, before]) hrel fun e he =>
      hflight e (mem_before.1 (List.mem_of_getLast? he)).1
  refine ⟨fun e he => ?_, fun hj => ?_⟩
  · rw [hnext]
    exact h.next e (hissued ▸ he)
  · rw [hpc, hseq, hnext]
    exact h.pc (hjump ▸ hj)

end ControlFollows

/-- **A branch that resolves compares the values of the replay.** -/
theorem ValuesFollow.taken_eq (h : m.ValuesFollow start) (hc : m.Coherent) (hold : m.Holds n s o)
    (kind : s.kind = .beq) (elapsed : s.latency ≤ o.cycles) :
    taken o = (m.stateAt start o.seq).branches o.instr := by
  obtain ⟨rA, rB, off, hi⟩ := (hc.fits n s o hold).instr_eq kind
  obtain ⟨hj, hk⟩ := hc.ready hold elapsed
  rw [taken, h.j_eq hc hold hj (r := rA) (by rw [hi]; rfl),
    h.k_eq hc hold hk (r := rB) (by rw [hi]; rfl), hi]
  simp only [Operand.value?, Option.some.injEq, Word.toInt_inj, State.branches]

namespace ControlFollows

/-- **A branch that falls through** lets the machine go on where it does. -/
theorem fallen (h : m.ControlFollows start) (hc : m.Coherent)
    (hc' : (m.finish n s o).refreshFlags.Coherent) (hold : m.Holds n s o) (kind : s.kind = .beq)
    (hnot : (m.stateAt start o.seq).branches o.instr = false) :
    (m.finish n s o).refreshFlags.ControlFollows start := by
  set m' := (m.finish n s o).refreshFlags with hm'
  have hr : Released m m' n o := released_fallen hold
  have hnext : ∀ q, m'.nextPc start q = m.nextPc start q := by
    intro q
    rcases hlast : (m.before q).getLast? with - | e
    · rw [nextPc, nextPc, hlast, show (m'.before q).getLast? = none from hlast]
    · have hmem := mem_before.1 (List.mem_of_getLast? hlast)
      by_cases hself : e.seq = o.seq
      · -- The branch goes on at the next address, before and after.
        have hof := hc.isOf hold hmem.1 hself
        obtain ⟨rA, rB, off, hi⟩ := (hc.fits n s o hold).instr_eq kind
        have hpend : e.instr.isBranch ∧ e.seq ∈ m.flight := by
          rw [hof.instr, hi]
          exact ⟨rfl, hself ▸ hold.mem_flight⟩
        have hgone : ¬ (e.instr.isBranch ∧ e.seq ∈ m'.flight) := fun hp =>
          ((hr.mem_flight_iff hc hold).1 hp.2).2 hself
        rw [nextPc_of_getLast? hc' (show (m'.before q).getLast? = some e from hlast) hgone, nextPc,
          hlast]
        simp only [if_pos hpend]
        rw [← hself, ← hof.instr] at hnot
        rw [hof.instr, hi] at hnot
        simp only [State.branches, decide_eq_false_iff_not] at hnot
        change (State.execute m.relativeCalls { m.stateAt start e.seq with pc := e.pc } e.instr).pc =
          e.pc + 1
        rw [hof.instr, hi]
        exact if_neg hnot
      · refine nextPc_congr rfl rfl fun x hx _ => ?_
        rw [hlast] at hx
        rw [hr.mem_flight_iff hc hold, and_iff_left (Option.some.inj hx ▸ hself)]
  refine ⟨fun e he => ?_, fun hj => ?_⟩
  · rw [hnext]
    exact h.next e he
  · change (m.pc : Int) = m'.nextPc start m.nextSeq
    rw [hnext]
    refine h.pc ?_
    rw [← Bool.not_eq_true, hc.jumpFlag, ← hr.exists_kind_iff hold (by rw [kind]; decide),
      ← hc'.jumpFlag, Bool.not_eq_true]
    exact hj

/-- **A branch that is taken** lets the machine go on at its target. -/
theorem branched {offset : Int} {target : Word} {saved : StatusTable} {b : Entry}
    (h : m.ControlFollows start) (hc : m.Coherent)
    (hc' : (m.branched n s o target (m.before o.seq ++ [b]) saved).Coherent)
    (hold : m.Holds n s o) (kind : s.kind = .beq) (hb : b ∈ m.issued) (hseq : b.seq = o.seq)
    (himm : o.imm = some offset) (htarget : o.pc + 1 + offset = target.toInt)
    (htaken : (m.stateAt start o.seq).branches o.instr = true) :
    (m.branched n s o target (m.before o.seq ++ [b]) saved).ControlFollows start := by
  set m' := m.branched n s o target (m.before o.seq ++ [b]) saved with hm'
  have hof := hc.isOf hold hb hseq
  refine ⟨fun e he => ?_, fun _ => ?_⟩
  · obtain ⟨he, hle⟩ : e ∈ m.issued ∧ e.seq ≤ o.seq := by
      rcases mem_issued_branched.1 he with ⟨he, hlt⟩ | rfl
      · exact ⟨he, Int.le_of_lt hlt⟩
      · exact ⟨hb, Int.le_of_eq hseq⟩
    rw [h.next e he]
    refine (nextPc_congr (before_branched hseq hle) rfl fun x hx _ => ?_).symm
    have := (mem_before.1 (List.mem_of_getLast? hx)).2
    rw [mem_flight_branched hc hold, and_iff_left (by omega)]
  · obtain ⟨rA, rB, off, hi, hoff⟩ := (hc.fits n s o hold).exists_branch kind
    obtain rfl : offset = off := Option.some.inj (himm.symm.trans hoff)
    have hlast : (m'.before m'.nextSeq).getLast? = some b := by
      rw [hc'.before_nextSeq]
      exact List.getLast?_concat ..
    have hgone : ¬ (b.instr.isBranch ∧ b.seq ∈ m'.flight) := fun hp => by
      have := ((mem_flight_branched hc hold).1 hp.2).2
      omega
    rw [nextPc_of_getLast? hc' hlast hgone,
      ValuesFollow.stateAt_branched hseq (Int.le_of_eq hseq), hseq]
    change target.toInt =
      (State.execute m.relativeCalls { m.stateAt start o.seq with pc := b.pc } b.instr).pc
    rw [hi] at htaken
    simp only [State.branches, decide_eq_true_eq] at htaken
    rw [hof.instr, hi, hof.pc, ← htarget]
    exact (if_pos htaken).symm

/-- **A call or return that resolves** lets the machine go on where it jumps
to. -/
theorem jumped (target : Int) (h : m.ControlFollows start) (hc : m.Coherent) (hc' : m'.Coherent)
    (hr : Released m m' n o) (hold : m.Holds n s o) (kind : s.kind = .callRet)
    (hpc : (m'.pc : Int) = target)
    (htarget : ∀ e ∈ m.issued, e.seq = o.seq →
      ((m.stateAt start e.seq).perform m.relativeCalls e).pc = target) :
    m'.ControlFollows start := by
  have hbranch : o.instr.isBranch = false := by
    rw [← Bool.not_eq_true, ← hc.kind_eq_beq_iff hold, kind]
    decide
  obtain ⟨j, hj, hof⟩ := hc.owner n s o hold
  refine ⟨fun e he => ?_, fun _ => ?_⟩
  · rw [h.next e (hr.issued ▸ he)]
    refine (nextPc_congr hr.before_eq hr.relativeCalls fun x hx hxb => ?_).symm
    rw [hr.mem_flight_iff hc hold, and_iff_left]
    intro hs
    rw [(hc.isOf hold (mem_before.1 (List.mem_of_getLast? hx)).1 hs).instr, hbranch] at hxb
    cases hxb
  · -- The jump is the last instruction there is.
    have hlast : (m'.before m'.nextSeq).getLast? = some j := by
      rw [hc'.before_nextSeq, hr.issued]
      have hnil : m.issued.filter (fun x => j.seq < x.seq) = [] :=
        List.filter_eq_nil_iff.2 fun x hx => by
          have := hc.jumpLast n s o hold kind x hx
          have := hof.seq
          simp only [decide_eq_true_eq]
          omega
      rw [hc.inOrder.eq_append_cons hj, hnil]
      exact List.getLast?_concat ..
    have hgone : ¬ (j.instr.isBranch ∧ j.seq ∈ m'.flight) := fun hp => by
      rw [hof.instr, hbranch] at hp
      cases hp.1
    rw [hpc, nextPc_of_getLast? hc' hlast hgone, stateAt_congr hr.issued hr.relativeCalls,
      hr.relativeCalls, htarget j hj hof.seq]

/-- **An instruction that is issued** was issued where the machine goes
on. -/
theorem dispatched {i : Instruction} (h : m.ControlFollows start) (hc : m.Coherent)
    (hc' : (m.dispatched i s n).Coherent) (hjump : m.jumpPending = false)
    (hs : m.stations[n]? = some s) (hfree : s.occupant = none) (hunit : i.unit? = some s.kind) :
    (m.dispatched i s n).ControlFollows start := by
  set m' := m.dispatched i s n with hm'
  have hnext : ∀ {q}, q ≤ m.nextSeq → m'.nextPc start q = m.nextPc start q := by
    intro q hq
    refine nextPc_congr (before_dispatched hq) rfl fun x hx _ => ?_
    have hx := (mem_before.1 (List.mem_of_getLast? hx)).1
    exact mem_flight_dispatched_iff hs hfree (hc.fresh x hx)
  refine ⟨fun e he => ?_, fun hj => ?_⟩
  · rcases mem_issued_dispatched.1 he with he | rfl
    · rw [hnext (Int.le_of_lt (hc.fresh e he))]
      exact h.next e he
    · exact (h.pc hjump).trans (hnext (Int.le_refl _)).symm
  · have hlast : (m'.before m'.nextSeq).getLast? = some (m.issueEntry i s) := by
      rw [hc'.before_nextSeq]
      exact List.getLast?_concat ..
    have hnojump : i.isJump = false := by
      have hj : (m.jumpPending || i.isJump) = false := hj
      rw [Bool.or_eq_false_iff] at hj
      exact hj.2
    change ((m.pc + 1 : Nat) : Int) = _
    by_cases hb : i.isBranch
    · rw [nextPc, hlast]
      have hpend : (m.issueEntry i s).instr.isBranch ∧ (m.issueEntry i s).seq ∈ m'.flight :=
        ⟨hb, (mem_flight_dispatched hs hfree).2 (.inr rfl)⟩
      simp only [if_pos hpend]
      rfl
    · rw [nextPc_of_getLast? hc' hlast fun hp => hb hp.1]
      rcases i with _ | _ | _ | _ | _ | _ | _
      · rfl
      · rfl
      · exact absurd rfl hb
      · cases hnojump
      · cases hnojump
      · rfl
      · cases hunit

end ControlFollows

end Machine

end OutOfOrder
