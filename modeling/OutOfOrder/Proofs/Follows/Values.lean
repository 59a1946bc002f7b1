import OutOfOrder.Proofs.Follows.Basic
/-!
# Stations and registers follow the replay

An operand that is a value is the value of its register in the state that
belongs to the instruction. So an address or a result that is computed from
operands is that of the replay, and a result that is sent is the value of
every register that waits for it.
-/

namespace OutOfOrder

open OutOfOrder.Sequential

namespace Registers

theorem get_set (f : Registers) (d r : Reg) (v : Int) :
    (f.set d v).get r = if r ≠ 0 ∧ d = r then (Word.ofInt v).toInt else f.get r := by
  by_cases hr : r = 0
  · rw [get, get, if_pos hr, if_pos hr, if_neg fun h => h.1 hr]
  by_cases hd : d = r
  · subst hd
    rw [if_pos ⟨hr, rfl⟩, get, if_neg hr, set, if_neg hr]
    exact congrArg Word.toInt (Vector.getElem_set_self _)
  · rw [if_neg fun h => hd h.2, get, get, if_neg hr, if_neg hr, set]
    split
    · rfl
    · exact congrArg Word.toInt (Vector.getElem_set_ne d.isLt r.isLt fun hv => hd (Fin.ext hv))

theorem get_rename (f : Registers) (d r : Reg) (t : Tag) : (f.rename d t).get r = f.get r := by
  rw [rename]
  split <;> rfl

theorem get_broadcast (f : Registers) (tag : Tag) (v : Int) (through : List Int) (r : Reg) :
    (f.broadcast tag v through).get r =
      if f.hears tag through r then (Word.ofInt v).toInt else f.get r := by
  have hvalue : (f.broadcast tag v through).values.get r =
      if f.hears tag through r then Word.ofInt v else f.values.get r := Vector.getElem_ofFn ..
  by_cases hr : r = 0
  · subst hr
    rw [if_neg (by simp [hears])]
    rfl
  · rw [get, get, if_neg hr, if_neg hr, hvalue]
    split <;> rfl

end Registers

/-! ## Instructions that access memory -/

/-- An instruction for a unit that accesses memory has a base and an
offset. -/
theorem Station.Fits.exists_access {relative : Bool} {s : Station} {o : Occupant}
    (h : s.Fits relative o) (kind : s.kind.isMemory) :
    ∃ rB off, o.instr.sources.1 = some rB ∧ o.instr.offset? = some off ∧
      ∀ st : State, st.accesses? o.instr = some (st.effective rB off) := by
  rcases hk : s.kind with _ | _ | _ | _ | _ | _ | _ <;> rw [hk] at kind
  case load | store =>
    obtain ⟨rA, rB, off, hi⟩ := h.instr_eq hk
    rw [hi]
    exact ⟨_, _, rfl, rfl, fun _ => rfl⟩
  all_goals cases kind

namespace Machine

variable {m m' : Machine} {n k : Nat} {s s' : Station} {o o' : Occupant} {e w : Entry} {q : Int}
variable {r : Reg} {l : List Entry} {start : State} {st : State} {source : Option Reg} {x : Operand}

theorem Carries.value? (h : Carries st source x) (hs : source = some r) {v : Int}
    (hv : x.value? = some v) : v = (st.read r).toInt := by
  cases x with
  | value v' => exact h r v hs (congrArg Operand.value (Option.some.inj hv))
  | _ => cases hv

/-! ## Moves -/

/-- The effective address is that of the replay. -/
theorem StationFollows.addressed {base offset : Int} (h : StationFollows st s o)
    (hfit : s.Fits m.relativeCalls o) (kind : s.kind.isMemory) (due : s.addressDue o)
    (hj : o.j.value? = some base) (himm : o.imm = some offset) :
    StationFollows st (s.withAddress (wrap (base + offset)))
      { o with imm := some (wrap (base + offset)), addressReady := true } := by
  obtain ⟨rB, off, hsrc, hoff, hacc⟩ := hfit.exists_access kind
  have hready : o.addressReady = false := by
    simp only [Station.addressDue, Bool.and_eq_true, Bool.not_eq_true'] at due
    exact due.1.1
  have hoffset : offset = off := by
    rw [hfit.offset hready off hoff] at himm
    exact (Option.some.inj himm).symm
  refine ⟨h.j, h.k, fun _ => ⟨_, hacc st, ?_⟩, h.result⟩
  rw [State.effective, Word.toInt_ofInt, h.j.value? hsrc hj, hoffset]

/-- The result of a computing unit is that of the replay. -/
theorem StationFollows.computed {op : AluOp} {rA rB rC : Reg} {a b : Int}
    (h : StationFollows st s o) (hinstr : o.instr = .alu op rA rB rC) (hj : o.j.value? = some a)
    (hk : o.k.value? = some b) : StationFollows st (s.withResult (op.eval a b)) o := by
  refine ⟨h.j, h.k, h.address, fun v hv => ?_⟩
  have ha := h.j.value? (r := rB) (by rw [hinstr]; rfl) hj
  have hb := h.k.value? (r := rC) (by rw [hinstr]; rfl) hk
  rw [← Option.some.inj hv, ha, hb, AluOp.eval_toInt, hinstr]
  rfl

/-- The result of a load is that of the replay, if the word it reads is. -/
theorem StationFollows.loaded {a : Word} {w : Word} (h : StationFollows st s o)
    (hfit : s.Fits m.relativeCalls o) (kind : s.kind = .load) (hready : o.addressReady)
    (himm : o.imm = some a.toInt) (hw : w = st.memory.get a) :
    StationFollows st (s.withResult w.toInt) o := by
  obtain ⟨rA, rB, off, hinstr⟩ := hfit.instr_eq kind
  obtain ⟨a', hacc, himm'⟩ := h.address hready
  refine ⟨h.j, h.k, h.address, fun v hv => ?_⟩
  have haa : a = a' := Word.toInt_inj.1 (Option.some.inj (himm.symm.trans himm'))
  rw [hinstr] at hacc
  have heff : st.effective rB off = a := (Option.some.inj hacc).trans haa.symm
  rw [← Option.some.inj hv, hw, hinstr, State.result, heff]

namespace ValuesFollow

/-- **An address or a result that is that of the replay** may be set. -/
theorem set (s₀ : Station) {o₀ : Occupant} (h : m.ValuesFollow start) (hc : m.Coherent)
    (hc' : m'.Coherent) (hre : Retimed m m') (hold : m.Holds n s o)
    (hocc : s₀.occupant = some o₀) (hseq : o₀.seq = o.seq)
    (hnew : StationFollows (m.stateAt start o.seq) s₀ o₀) (hst : m'.stations = m.stations.set n s₀)
    (hregs : m'.registers = m.registers) (hrel : m'.relativeCalls = m.relativeCalls) :
    m'.ValuesFollow start where
  stations k s' o' hold' := by
    rw [stateAt_congr hre.issued hrel]
    rcases holds_of_set hold hocc hst hold' with ⟨-, rfl, rfl⟩ | ⟨-, h'⟩
    · rw [hseq]
      exact hnew
    · exact h.stations k s' o' h'
  committed r hnone := by
    have hpath := hc.path_congr hc' hre.issued fun _ => hre.onPath_iff
    rw [hpath, hre.producer?_eq] at hnone
    rw [hregs, pathState, hpath, hrel]
    exact h.committed r hnone

/-- **An instruction that writes no register** may leave its station. -/
theorem leave (h : m.ValuesFollow start) (hc : m.Coherent) (hc' : m'.Coherent)
    (hr : Released m m' n o) (hold : m.Holds n s o)
    (hst : m'.stations = m.stations.set n s.clear) (hwrites : ∀ r, ¬ o.instr.writes r)
    (hregs : m'.registers = m.registers) : m'.ValuesFollow start where
  stations k s' o' hold' := by
    rw [stateAt_congr hr.issued hr.relativeCalls]
    exact h.stations k s' o' (Coherent.holds_of_clear hold.lt_length hst hold').2
  committed r hnone := by
    -- What joins the path is in flight, so the registers without a producer are not written there.
    obtain ⟨rest, hpath, hrest⟩ := hc.path_eq_append hc' hr.issued fun _ => hr.onPath
    have hflight : ∀ e ∈ m'.path, e.instr.writes r → (e.seq ∈ m'.flight ↔ e.seq ∈ m.flight) := by
      intro e he hw
      rw [hr.mem_flight_iff hc hold, and_iff_left]
      intro hs
      rw [(hc.isOf hold (hr.issued ▸ (hc'.mem_path.1 he).1) hs).instr] at hw
      exact hwrites r hw
    rw [producer?_congr hflight, hpath] at hnone
    obtain ⟨hnone, hread⟩ := producer?_append_eq_none start
      m.relativeCalls (fun e he => hc.aloft e (hrest e he).1 (hrest e he).2) hnone
    rw [hregs, pathState, hpath, hr.relativeCalls, hread]
    exact h.committed r hnone

/-- **A call** writes its return address, which is what the replay has in the
link register. -/
theorem called {target : Word} (h : m.ValuesFollow start) (hc : m.Coherent)
    (hc' : (finish (m.called o target) n s o).Coherent) (hold : m.Holds n s o)
    (path : m.OnPath o.seq) (kind : s.kind = .callRet) (hcall : o.instr.isCall) :
    (finish (m.called o target) n s o).ValuesFollow start := by
  set m' := finish (m.called o target) n s o with hm'
  have hst : m'.stations = m.stations.set n s.clear := rfl
  have hr : Released m m' n o := released_called hold target
  have hpath : m.path = m.issued := hc.path_eq_issued fun _ => hc.onPath_of_callRet hold kind path
  have hpath' : m'.path = m.issued :=
    hc'.path_eq_issued fun _ => hr.onPath (hc.onPath_of_callRet hold kind path)
  obtain ⟨c, hci, hof⟩ := hc.owner n s o hold
  have hcc : c.instr.isCall := by rw [hof.instr]; exact hcall
  have hlast : ∀ e ∈ m.issued, e.seq ≤ c.seq := hof.seq ▸ hc.jumpLast n s o hold kind
  refine ⟨fun k s' o' hold' => ?_, fun r hnone => ?_⟩
  · exact h.stations k s' o' (Coherent.holds_of_clear hold.lt_length hst hold').2
  · have hget : m'.registers.get r = (m.registers.set Reg.link (o.pc + 1)).get r := rfl
    rw [hpath'] at hnone
    rw [hget, Registers.get_set, pathState, hpath']
    by_cases hlink : r = Reg.link
    · -- The call is the last writer of the link register.
      subst hlink
      have hread := State.read_replay_of_lastWriter m.relativeCalls start
        hc.inOrder (by decide) (hc.lastWriter_link hci hlast hcc)
      obtain ⟨label, hl⟩ := Instruction.isCall_iff.1 hcc
      rw [if_pos ⟨by decide, rfl⟩]
      refine congrArg Word.toInt (Eq.trans ?_ hread.symm)
      rw [State.resultOf, hl, ← hof.pc]
      rfl
    · rw [if_neg fun h => hlink h.2.symm]
      have hflight : ∀ e ∈ m.issued, e.instr.writes r → (e.seq ∈ m'.flight ↔ e.seq ∈ m.flight) := by
        intro e he hw
        rw [hr.mem_flight_iff hc hold, and_iff_left]
        intro hs
        obtain rfl := hc.inOrder.eq_of_seq_eq he hci (hs.trans hof.seq.symm)
        exact hlink (Coherent.eq_link_of_writes hcc hw)
      rw [producer?_congr hflight, ← hpath] at hnone
      have hcommitted := h.committed r hnone
      rw [pathState, hpath] at hcommitted
      exact hcommitted

/-- A branch that is taken changes no state up to its own. -/
theorem stateAt_branched {target : Word} {saved : StatusTable} (hseq : e.seq = o.seq)
    (hq : q ≤ o.seq) :
    (m.branched n s o target (m.before o.seq ++ [e]) saved).stateAt start q =
      m.stateAt start q := by
  rw [stateAt_eq_replay_before, before_branched hseq hq]
  rfl

/-- **A branch that is taken** drops what was issued after it. The registers
have the values of the path all along. -/
theorem branched {target : Word} {saved : StatusTable} (h : m.ValuesFollow start)
    (hc : m.Coherent) (hc' : (m.branched n s o target (m.before o.seq ++ [e]) saved).Coherent)
    (hold : m.Holds n s o) (path : m.OnPath o.seq) (kind : s.kind = .beq) (he : e ∈ m.issued)
    (hseq : e.seq = o.seq) :
    (m.branched n s o target (m.before o.seq ++ [e]) saved).ValuesFollow start := by
  set m' := m.branched n s o target (m.before o.seq ++ [e]) saved with hm'
  have hpath : m.path = m.before o.seq ++ [e] := hc.path_eq_before_concat hold kind path he hseq
  have hpath' : m'.path = m.path := by
    rw [hc'.path_eq_issued fun _ => onPath_branched hc hold path, hpath]
    rfl
  refine ⟨fun k s' o' hold' => ?_, fun r hnone => ?_⟩
  · obtain ⟨h', hlt⟩ := (holds_branched hc hold).1 hold'
    rw [stateAt_branched hseq (Int.le_of_lt hlt)]
    exact h.stations k s' o' h'
  · have hflight : ∀ x ∈ m.path, x.instr.writes r → (x.seq ∈ m'.flight ↔ x.seq ∈ m.flight) := by
      intro x hx hw
      rw [mem_flight_branched hc hold, and_iff_left]
      rw [hpath] at hx
      rcases List.mem_append.1 hx with hx | hx
      · exact (mem_before.1 hx).2
      · rw [List.mem_singleton.1 hx, (hc.isOf hold he hseq).instr] at hw
        have hbranch := (hc.kind_eq_beq_iff hold).1 kind
        exact absurd hw (hc.not_writes hold (by rw [kind]; rfl)
          (Instruction.isCall_eq_false_of_isBranch hbranch))
    rw [hpath', producer?_congr hflight] at hnone
    rw [pathState, hpath']
    exact h.committed r hnone

/-! ## The Issue stage -/

/-- **A source that is read is that of the replay.** The register has no
producer among everything issued, so it has none on the path. -/
theorem carries_source (h : m.ValuesFollow start) (hc : m.Coherent)
    (hjump : m.jumpPending = false) :
    Carries (start.replay m.relativeCalls m.issued) source (m.source source) := by
  intro r v hs hv
  subst hs
  obtain ⟨rest, hissued, hrest⟩ := hc.issued_eq_path_append
  have hsup := hc.supplies_source hjump (some r)
  simp only [Supplies, hv] at hsup
  rcases hp : m.producer? m.issued r with - | w <;> rw [hp] at hsup
  · rw [hissued] at hp ⊢
    have hmem : ∀ e ∈ rest, e ∈ m.issued := fun e he => by
      rw [hissued]
      exact List.mem_append_right _ he
    obtain ⟨hnone, hread⟩ := producer?_append_eq_none start
      m.relativeCalls (fun e he => hc.aloft e (hmem e he) (hrest e he)) hp
    have hget : v = m.registers.get r := by
      simp only [Machine.source, Registers.operand] at hv
      split at hv <;> cases hv
      rfl
    rw [hget, hread]
    exact h.committed r hnone
  · cases hsup

/-- The path after an instruction has been issued. -/
theorem path_dispatched {i : Instruction} (hc : m.Coherent) (hc' : (m.dispatched i s n).Coherent)
    (hs : m.stations[n]? = some s) (hfree : s.occupant = none) :
    ∃ rest, (m.dispatched i s n).path = m.path ++ rest ∧ ∀ x ∈ rest, x = m.issueEntry i s := by
  refine ⟨[m.issueEntry i s].filter fun e => !speculative (m.dispatched i s n).barrier e.seq, ?_,
    fun x hx => List.mem_singleton.1 (List.mem_filter.1 hx).1⟩
  rw [hc'.path_eq_filter, hc.path_eq_filter]
  change (m.issued ++ [m.issueEntry i s]).filter _ = _
  rw [List.filter_append]
  congr 1
  refine List.filter_congr fun e he => ?_
  rw [Bool.eq_iff_iff, Bool.not_eq_true', Bool.not_eq_true', speculative_barrier_eq_false_iff,
    speculative_barrier_eq_false_iff]
  exact onPath_dispatched_iff hs hfree (Int.le_of_lt (hc.fresh e he))

theorem stateAt_dispatched {i : Instruction} (hq : q ≤ m.nextSeq) :
    (m.dispatched i s n).stateAt start q = m.stateAt start q := by
  rw [stateAt_eq_replay_before, before_dispatched hq]
  rfl

/-- **An instruction that is issued** gets the operands of the replay. -/
theorem dispatched {i : Instruction} (h : m.ValuesFollow start) (hc : m.Coherent)
    (hc' : (m.dispatched i s n).Coherent) (hjump : m.jumpPending = false)
    (hs : m.stations[n]? = some s) (hfree : s.occupant = none) :
    (m.dispatched i s n).ValuesFollow start where
  stations k s' o' hold' := by
    have hn := (List.getElem?_eq_some_iff.1 hs).1
    rcases (holds_dispatched hn).1 hold' with ⟨-, rfl, rfl⟩ | ⟨-, h'⟩
    · have hst : (m.dispatched i s n).stateAt start (m.newcomer i).seq =
          start.replay m.relativeCalls m.issued := by
        rw [show (m.newcomer i).seq = m.nextSeq from rfl, stateAt_dispatched (Int.le_refl _),
          stateAt_eq_replay_before, hc.before_nextSeq]
      rw [hst]
      exact ⟨h.carries_source hc hjump, h.carries_source hc hjump, fun ha => (by cases ha),
        fun v hv => (by cases hv)⟩
    · rw [stateAt_dispatched (Int.le_of_lt (hc.owned_seq_lt h'))]
      exact h.stations k s' o' h'
  committed r hnone := by
    obtain ⟨rest, hpath, hrest⟩ := path_dispatched hc hc' hs hfree
    have hflight : ∀ e ∈ rest, e.seq ∈ (m.dispatched i s n).flight := by
      intro e he
      rw [hrest e he]
      exact (mem_flight_dispatched hs hfree).2 (.inr rfl)
    rw [hpath] at hnone
    obtain ⟨hnone, hread⟩ := producer?_append_eq_none start m.relativeCalls hflight hnone
    rw [producer?_dispatched hc hs hfree fun e he => (hc.mem_path.1 he).1] at hnone
    have hget : (m.dispatched i s n).registers.get r = m.registers.get r := by
      change (m.renamed i s.tag).get r = _
      rw [renamed]
      split
      · exact Registers.get_rename ..
      · rfl
    rw [hget, pathState, hpath]
    exact (h.committed r hnone).trans (congrArg Word.toInt hread.symm)

/-! ## The Writeback stage -/

section Sent

variable {x : Sender} (hc : m.Coherent) (hx : m.nextSender? = some x)
include hc hx

/-- **A history with the sender as the producer of a register** says that the
path has a producer, if it leaves out no writer on the path. -/
theorem producer?_path_ne_none (hl : ∀ e ∈ l, e ∈ m.issued)
    (hall : ∀ e ∈ m.path, e.instr.writes r → e.seq ∉ m.flight → e ∈ l) (hin : InOrder l)
    (hw : m.producer? l r = some w) (hseq : w.seq = x.occupant.seq) :
    m.producer? m.path r ≠ none := by
  obtain ⟨-, -, -, -, p, hp, hpseq⟩ := nextSender?_eq_some hx
  obtain ⟨hr, hlw, hwf⟩ := producer?_eq_some_iff.1 hw
  obtain ⟨hwl, hwr, hmax⟩ := (lastWriter_eq_some_iff hin).1 hlw
  have hwp : w ∈ m.path := by
    rwa [hc.inOrder.eq_of_seq_eq (hl w hwl) (hc.mem_path.1 hp).1 (hseq.trans hpseq.symm)]
  intro hnone
  -- A last writer on the path that has left is in the history too, so the sender is it.
  rcases hlast : lastWriter m.path r with - | w'
  · exact lastWriter_eq_none_iff.1 hlast w hwp hwr
  · obtain ⟨hw'p, hw'r, hmax'⟩ := (lastWriter_eq_some_iff hc.path_inOrder).1 hlast
    have hw'f := (producer?_eq_none_iff.1 hnone).resolve_left hr w' hlast
    have h₁ := hmax w' (hall w' hw'p hw'r hw'f) hw'r
    have h₂ := hmax' w hwp hwr
    rw [show w'.seq = w.seq by omega] at hw'f
    exact hw'f hwf

/-- **A register that hears a result without waiting for it on the path**
has no value to lose: its producer on the path is younger. -/
theorem producer?_ne_none_of_hears
    (hhears : m.registers.hears x.station.tag (m.writeThrough x.station.tag) r) :
    m.producer? m.path r ≠ none := by
  simp only [Registers.hears, Bool.and_eq_true, Bool.or_eq_true, decide_eq_true_eq] at hhears
  obtain ⟨hr, hstatus | hsaved⟩ := hhears
  · rw [hc.status r] at hstatus
    obtain ⟨w, hw, htag⟩ := Option.map_eq_some_iff.1 hstatus
    have hseq := (tag_eq_sender_iff hc hx mem_issued_of_renamers hw).1 htag
    refine producer?_path_ne_none hc hx mem_issued_of_renamers (fun e he _ hf => ?_)
      (hc.inOrder.filter _) hw hseq
    exact mem_renamers.2 ⟨(hc.mem_path.1 he).1, fun h => hf h.2⟩
  · obtain ⟨k, s, o, table, hold, kind, htable, htag⟩ := mem_writeThrough.1 hsaved
    obtain ⟨table', htable', hdesc⟩ := hc.saved k s o hold kind
    obtain rfl : table = table' := Option.some.inj (htable.symm.trans htable')
    rw [hdesc r] at htag
    obtain ⟨w, hw, htag⟩ := Option.map_eq_some_iff.1 htag
    have hseq := (tag_eq_sender_iff hc hx mem_issued_of_before hw).1 htag
    refine producer?_path_ne_none hc hx mem_issued_of_before (fun e he _ hf => ?_)
      (hc.inOrder.filter _) hw hseq
    obtain ⟨he, hpath⟩ := hc.mem_path.1 he
    have hle := hpath k s o hold kind
    have hne : e.seq ≠ o.seq := fun hs => hf (hs ▸ hold.mem_flight)
    exact mem_before.2 ⟨he, by omega⟩

/-- **A register whose producer on the path sends hears the result**: it
waits for it, or the oldest pending branch has saved that it does. -/
theorem hears_of_producer? (hw : m.producer? m.path r = some w)
    (hseq : w.seq = x.occupant.seq) :
    m.registers.hears x.station.tag (m.writeThrough x.station.tag) r := by
  obtain ⟨hold, -⟩ := nextSender?_eq_some hx
  obtain ⟨hr, hlw, hwf⟩ := producer?_eq_some_iff.1 hw
  have hkind := (kind_of_nextSender? hx).2
  have hwp := (hc.mem_path.1 (mem_of_lastWriter hlw).1).1
  have htag : w.tag = x.station.tag := (hc.isOf hold hwp hseq).tag
  simp only [Registers.hears, Bool.and_eq_true, Bool.or_eq_true, decide_eq_true_eq]
  refine ⟨hr, ?_⟩
  rcases hb : m.barrier with - | b
  · -- No branch is pending: the status in use names the sender.
    left
    have hpath : m.path = m.issued :=
      hc.path_eq_issued fun _ => fun n s o h hk => absurd hk (barrier_eq_none_iff.1 hb n s o h)
    rw [hpath] at hlw
    have hren : lastWriter m.renamers r = some w := by
      refine lastWriter_filter hc.inOrder hlw ?_
      rw [Bool.not_eq_true', Bool.and_eq_false_iff, (hc.isOf hold hwp hseq).instr]
      exact .inl (hc.isCall_eq_false hold hkind)
    rw [hc.status r, producer?_eq_some_iff.2 ⟨hr, hren, hwf⟩, Option.map_some, htag]
  · -- The oldest pending branch ends the path, and writes nothing.
    right
    obtain ⟨⟨k, s, o, hold', kind, rfl⟩, hpath⟩ := barrier_eq_some_iff.1 hb
    obtain ⟨e, he, hof⟩ := hc.owner k s o hold'
    have hbranch := (hc.kind_eq_beq_iff hold').1 kind
    rw [hc.path_eq_before_concat hold' kind hpath he hof.seq,
      lastWriter_append_of_not_writes] at hlw
    · obtain ⟨table, htable, hdesc⟩ := hc.saved k s o hold' kind
      refine mem_writeThrough.2 ⟨k, s, o, table, hold', kind, htable, ?_⟩
      rw [hdesc r, producer?_eq_some_iff.2 ⟨hr, hlw, hwf⟩, Option.map_some, htag]
    · intro e' he'
      rw [List.mem_singleton.1 he', hof.instr]
      exact hc.not_writes hold' (by rw [kind]; rfl)
        (Instruction.isCall_eq_false_of_isBranch hbranch)

/-- The result that is sent is that of the replay. -/
theorem value_eq (h : m.ValuesFollow start) (hw : w ∈ m.issued) (hseq : w.seq = x.occupant.seq) :
    x.value = ((m.stateAt start w.seq).resultOf w).toInt := by
  obtain ⟨hold, hres, hbus, -⟩ := nextSender?_eq_some hx
  have hvalue := (h.stations _ _ _ hold).result x.value hres
  have hunit := (hc.fits _ _ _ hold).unit
  rw [hvalue, hseq, State.resultOf, (hc.isOf hold hw hseq).instr]
  -- Only the result of a call depends on its address, and a call does not use the bus.
  rcases hi : x.occupant.instr with _ | _ | _ | _ | _ | _ | _ <;> first | rfl | skip
  rw [hi] at hunit
  rw [← Option.some.inj (show some UnitKind.callRet = some x.station.kind from hunit)] at hbus
  cases hbus

/-- An operand that hears the result hears that of the replay. -/
theorem carries_hear (h : m.ValuesFollow start) {y : Operand}
    (hcarries : Carries (m.stateAt start q) source y) (hsup : m.Supplies (m.before q) source y) :
    Carries (m.stateAt start q) source (y.hear x.station.tag x.value) := by
  intro r v hs hv
  subst hs
  cases y with
  | waiting t =>
    rw [Operand.hear] at hv
    split at hv
    · rename_i ht
      simp only [Supplies] at hsup
      rcases hw : m.producer? (m.before q) r with - | w <;> rw [hw] at hsup
      · obtain ⟨v, hv⟩ := hsup
        cases hv
      · have htag : w.tag = x.station.tag := (Operand.waiting.inj hsup).symm.trans ht
        obtain ⟨hr, hlw, -⟩ := producer?_eq_some_iff.1 hw
        have hwb := (mem_of_lastWriter hlw).1
        have hupTo : start.upTo m.relativeCalls (m.before q) w.seq = m.stateAt start w.seq := by
          rw [State.upTo, before, List.filter_filter, stateAt, State.upTo]
          congr 1
          refine List.filter_congr fun e _ => ?_
          have := (mem_before.1 hwb).2
          rw [Bool.eq_iff_iff, Bool.and_eq_true, decide_eq_true_eq, decide_eq_true_eq]
          omega
        have hread := State.read_replay_of_lastWriter m.relativeCalls start
          (show InOrder (m.before q) from hc.inOrder.filter _) hr hlw
        rw [hupTo] at hread
        rw [← Operand.value.inj hv, h.value_eq hc hx (mem_issued_of_before w hwb)
          ((tag_eq_sender_iff hc hx mem_issued_of_before hw).1 htag)]
        exact congrArg Word.toInt hread.symm
    · cases hv
  | value v' => exact hcarries r v rfl hv
  | unused => cases hv

/-- **A result that is sent** reaches every operand and register that waits
for it. -/
theorem sent (h : m.ValuesFollow start) (hc' : (m.sent x).Coherent) :
    (m.sent x).ValuesFollow start where
  stations k s' o' hold' := by
    obtain ⟨-, s₁, o₁, hold₁, rfl, rfl⟩ := holds_sent.1 hold'
    have hfollow := h.stations k s₁ o₁ hold₁
    have hsources := hc.sources k s₁ o₁ hold₁
    refine ⟨h.carries_hear hc hx hfollow.j hsources.1, h.carries_hear hc hx hfollow.k hsources.2,
      hfollow.address, ?_⟩
    rw [(s₁.told_toSlot x.station.tag x.value).2]
    exact hfollow.result
  committed r hnone := by
    obtain ⟨hold, -⟩ := nextSender?_eq_some hx
    have hkind := (kind_of_nextSender? hx).1
    have hpath : (m.sent x).path = m.path :=
      hc.path_congr hc' rfl fun q => released_sent.onPath_iff hold hkind
    have hget : (m.sent x).registers.get r =
        (m.registers.broadcast x.station.tag x.value (m.writeThrough x.station.tag)).get r := rfl
    rw [hpath, producer?_sent hc hx] at hnone
    rw [hget, Registers.get_broadcast, pathState, hpath]
    change _ = ((m.pathState start).read r).toInt
    rcases hw : m.producer? m.path r with - | w
    · rw [if_neg fun hh => producer?_ne_none_of_hears hc hx hh hw]
      exact h.committed r hw
    · have hseq : w.seq = x.occupant.seq := by
        rw [hw, Option.filter_some] at hnone
        by_contra hne
        simp [hne] at hnone
      obtain ⟨hr, hlw, -⟩ := producer?_eq_some_iff.1 hw
      obtain ⟨hwi, hwp⟩ := hc.mem_path.1 (mem_of_lastWriter hlw).1
      rw [if_pos (hears_of_producer? hc hx hw hseq), pathState,
        State.read_replay_of_lastWriter _ _ hc.path_inOrder hr hlw, hc.upTo_path hwp,
        h.value_eq hc hx hwi hseq, Word.ofInt_toInt]

end Sent

end ValuesFollow

end Machine

end OutOfOrder
