import OutOfOrder.Proofs.Coherent.Execute
/-!
# A cycle keeps a machine coherent

The timers keep every instruction where it is. The Issue stage adds one
instruction to the flight and to the end of the history; its sources are
what the status table says, and the table describes the whole history. The
Writeback stage takes one instruction out of the flight, and every place
that named it hears its result.
-/

namespace OutOfOrder

theorem Operand.ready_hear {y : Operand} {tag : Tag} {v : Int} (h : y.ready) :
    (y.hear tag v).ready := by
  cases y <;> first | rfl | cases h

theorem Registers.status_broadcast (f : Registers) (tag : Tag) (v : Int) (through : List Int)
    (r : Reg) : (f.broadcast tag v through).status.get r =
      if r ≠ 0 ∧ f.status.get r = some tag then none else f.status.get r :=
  Vector.getElem_ofFn ..

theorem Registers.status_rename (f : Registers) (d r : Reg) (t : Tag) :
    (f.rename d t).status.get r = if d ≠ 0 ∧ d = r then some t else f.status.get r := by
  by_cases hd : d = 0
  · rw [show f.rename d t = f from if_pos hd, if_neg fun h => h.1 hd]
  · rw [show f.rename d t = { f with status := f.status.set d (some t) } from if_neg hd]
    by_cases hr : d = r
    · subst hr
      rw [if_pos ⟨hd, rfl⟩]
      exact Vector.getElem_set_self _
    · rw [if_neg fun h => hr h.2]
      exact Vector.getElem_set_ne d.isLt r.isLt fun hv => hr (Fin.ext hv)

namespace Machine

variable {m m' : Machine} {n k : Nat} {s s' : Station} {o o' : Occupant} {e w : Entry} {q : Int}
variable {r : Reg} {l : List Entry} {i : Instruction}

/-! ## The timers -/

theorem tick_eq (s : Station) (o : Occupant) :
    s.tick o = { o with cycles := (s.tick o).cycles } := by
  rw [Station.tick]
  split <;> rfl

theorem retimed_advance : Retimed m m.advance where
  origin k s' o' hold' := by
    obtain ⟨s, o, hold, rfl, rfl⟩ := holds_advance.1 hold'
    refine ⟨s, o, hold, s.advance_toSlot.1, ?_⟩
    rw [tick_eq]
  kept k s o hold :=
    ⟨s.advance, s.tick o, holds_advance.2 ⟨s, o, hold, rfl, rfl⟩, s.advance_toSlot.1,
      by rw [tick_eq]⟩
  issued := rfl
  nextSeq := rfl
  status := rfl
  branchPending := rfl
  jumpPending := rfl

/-- The timer moves only when both operands are there. -/
theorem fits_advance {relative : Bool} (h : s.Fits relative o) (ho : s.occupant = some o) :
    s.advance.Fits relative (s.tick o) := by
  obtain ⟨hslot, hres⟩ := s.advance_toSlot
  rw [Station.tick]
  split
  · rename_i hadv
    simp only [Station.advances, ho, Bool.and_eq_true] at hadv
    constructor
    · rw [hslot]; exact h.unit
    · exact fun _ => hadv.1
    · rw [hres, hslot]
      intro v hv
      obtain ⟨hbus, hlat, hw⟩ := h.result v hv
      exact ⟨hbus, Nat.le_succ_of_le hlat, hw⟩
    · exact h.offset
    · rw [hslot]; exact h.address
    · exact h.target
  · constructor
    · rw [hslot]; exact h.unit
    · exact h.started
    · rw [hres, hslot]; exact h.result
    · exact h.offset
    · rw [hslot]; exact h.address
    · exact h.target

theorem Coherent.advance (h : m.Coherent) : m.advance.Coherent := by
  refine retimed_advance.coherent h ?_ ?_ ?_ ?_
  · intro n s' hs'
    change (m.stations.map Station.advance)[n]? = some s' at hs'
    rw [List.getElem?_map, Option.map_eq_some_iff] at hs'
    obtain ⟨s, hs, rfl⟩ := hs'
    rw [s.advance_toSlot.1]
    exact h.tags n s hs
  · intro s' hs' hnone
    obtain ⟨s, hs, rfl⟩ := List.mem_map.1 hs'
    rw [s.advance_toSlot.2]
    rw [s.advance_occupant, Option.map_eq_none_iff] at hnone
    exact h.idle s hs hnone
  · intro n s' o' hold'
    obtain ⟨s, o, hold, rfl, rfl⟩ := holds_advance.1 hold'
    exact fits_advance (h.fits n s o hold) hold.2
  · intro n s' o' hold' hpath
    obtain ⟨s, o, hold, rfl, rfl⟩ := holds_advance.1 hold'
    rw [s.advance_toSlot.2]
    rw [Station.tick] at hpath ⊢
    split at hpath
    · rename_i hadv
      rw [if_pos hadv]
      exact h.waiting n s o hold hpath
    · rename_i hadv
      rw [if_neg hadv]
      exact h.waiting n s o hold hpath

/-! ## The Issue stage -/

/-- What is fetched is a word that is not empty, and its instruction. -/
theorem fetch_eq_instruction {kind : UnitKind} (h : m.fetch = .instruction i kind) :
    i.unit? = some kind ∧ ∃ hpc : m.pc < 65536,
      m.memory.get ⟨m.pc, hpc⟩ ≠ 0 ∧ i = Instruction.decode (m.memory.get ⟨m.pc, hpc⟩) := by
  rw [fetch] at h
  split at h
  · rename_i hpc
    dsimp only at h
    split at h
    · cases h
    · rename_i hw
      split at h
      · rename_i hunit
        cases h
        exact ⟨hunit, hpc, hw, rfl⟩
      · cases h
  · cases h

section Dispatched

theorem mem_flight_dispatched (hs : m.stations[n]? = some s) (hfree : s.occupant = none) :
    q ∈ (m.dispatched i s n).flight ↔ q ∈ m.flight ∨ q = m.nextSeq := by
  have hn := (List.getElem?_eq_some_iff.1 hs).1
  simp only [mem_flight, holds_dispatched hn]
  constructor
  · rintro ⟨k, s', o', ⟨-, -, rfl⟩ | ⟨-, h'⟩, rfl⟩
    · exact .inr rfl
    · exact .inl ⟨k, s', o', h', rfl⟩
  · rintro (⟨k, s', o', h', rfl⟩ | rfl)
    · refine ⟨k, s', o', .inr ⟨?_, h'⟩, rfl⟩
      rintro rfl
      exact not_holds_of_free hs hfree h'
    · exact ⟨n, _, _, .inl ⟨rfl, rfl, rfl⟩, rfl⟩

/-- The flight is what it was, for instructions issued before. -/
theorem mem_flight_dispatched_iff (hs : m.stations[n]? = some s) (hfree : s.occupant = none)
    (hq : q < m.nextSeq) : q ∈ (m.dispatched i s n).flight ↔ q ∈ m.flight := by
  rw [mem_flight_dispatched hs hfree, or_iff_left (by omega)]

/-- A new instruction is no branch for those issued before it. -/
theorem onPath_dispatched_iff (hs : m.stations[n]? = some s) (hfree : s.occupant = none)
    (hq : q ≤ m.nextSeq) : (m.dispatched i s n).OnPath q ↔ m.OnPath q := by
  have hn := (List.getElem?_eq_some_iff.1 hs).1
  constructor
  · intro h k s' o' hold hk
    refine h k s' o' ((holds_dispatched hn).2 (.inr ⟨?_, hold⟩)) hk
    rintro rfl
    exact not_holds_of_free hs hfree hold
  · intro h k s' o' hold hk
    rcases (holds_dispatched hn).1 hold with ⟨-, -, rfl⟩ | ⟨-, h'⟩
    · exact hq
    · exact h k s' o' h' hk

theorem before_dispatched (hq : q ≤ m.nextSeq) : (m.dispatched i s n).before q = m.before q := by
  have hlt : ¬ decide ((m.issueEntry i s).seq < q) = true := by
    rw [decide_eq_true_eq]
    exact Int.not_lt.2 hq
  change (m.issued ++ [m.issueEntry i s]).filter _ = _
  rw [List.filter_append, List.filter_cons_of_neg (by exact hlt), List.filter_nil,
    List.append_nil, before]

/-- Everything was issued before the next number. -/
theorem Coherent.before_nextSeq (h : m.Coherent) : m.before m.nextSeq = m.issued :=
  List.filter_eq_self.2 fun e he => by simpa using h.fresh e he

/-- Producers are what they were, for histories without the new
instruction. -/
theorem producer?_dispatched (h : m.Coherent) (hs : m.stations[n]? = some s)
    (hfree : s.occupant = none) (hl : ∀ e ∈ l, e ∈ m.issued) :
    (m.dispatched i s n).producer? l r = m.producer? l r :=
  producer?_congr fun e he _ => mem_flight_dispatched_iff hs hfree (h.fresh e (hl e he))

/-- While no jump is pending, everything issued may be a producer. -/
theorem Coherent.renamers_eq (h : m.Coherent) (hjump : m.jumpPending = false) :
    m.renamers = m.issued := by
  refine List.filter_eq_self.2 fun e he => ?_
  rw [Bool.not_eq_true', Bool.and_eq_false_iff, decide_eq_false_iff_not, or_iff_not_imp_left,
    Bool.not_eq_false]
  intro hcall hf
  obtain ⟨k, s', o', hold, ho⟩ := mem_flight.1 hf
  have hkind : s'.kind = .callRet := by
    rw [h.kind_eq_callRet_iff hold, ← (h.isOf hold he ho.symm).instr]
    exact Instruction.isJump_of_isCall hcall
  rw [h.jumpFlag.2 ⟨k, s', o', hold, hkind⟩] at hjump
  cases hjump

/-- **A source is read from the status table.** It is what the history of
everything issued supplies. -/
theorem Coherent.supplies_source (h : m.Coherent) (hjump : m.jumpPending = false)
    (source : Option Reg) : m.Supplies m.issued source (m.source source) := by
  rcases source with - | r
  · rfl
  have hstatus := h.status r
  rw [h.renamers_eq hjump] at hstatus
  simp only [Supplies, Machine.source, Registers.operand, Registers.tag]
  by_cases hr : r = 0
  · subst hr
    rw [producer?_eq_none_iff.2 (.inl rfl), if_pos rfl]
    exact ⟨0, rfl⟩
  · rw [if_neg hr, hstatus]
    rcases m.producer? m.issued r with - | w
    · exact ⟨m.registers.values.get r, by simp [Registers.get, hr]⟩
    · rfl

/-- A new call is no writer yet; any other new instruction is one. -/
theorem renamers_dispatched (h : m.Coherent) (hjump : m.jumpPending = false)
    (hs : m.stations[n]? = some s) (hfree : s.occupant = none) :
    (m.dispatched i s n).renamers =
      m.issued ++ if i.isCall then [] else [m.issueEntry i s] := by
  have hnew : m.nextSeq ∈ (m.dispatched i s n).flight :=
    (mem_flight_dispatched hs hfree).2 (.inr rfl)
  change (m.issued ++ [m.issueEntry i s]).filter _ = _
  rw [List.filter_append]
  congr 1
  · refine (List.filter_congr fun e he => ?_).trans (h.renamers_eq hjump)
    simp only [mem_flight_dispatched_iff hs hfree (h.fresh e he)]
  · cases hcall : i.isCall <;> simp [issueEntry, hcall, hnew]

/-- **The status after an instruction has been issued.** Its destination
waits for it, unless it is a call. -/
theorem describes_dispatched (h : m.Coherent) (hjump : m.jumpPending = false)
    (hs : m.stations[n]? = some s) (hfree : s.occupant = none) :
    (m.dispatched i s n).Describes (m.dispatched i s n).renamers
      (m.dispatched i s n).registers.status := by
  have hbase : ∀ r : Reg,
      m.registers.status.get r = ((m.dispatched i s n).producer? m.issued r).map Entry.tag := by
    intro r
    rw [producer?_dispatched h hs hfree fun e he => he, h.status r, h.renamers_eq hjump]
  intro r
  change (m.renamed i s.tag).status.get r = _
  rw [renamers_dispatched h hjump hs hfree]
  rcases hd : i.destination? with - | d
  · -- It writes nothing, or it is a call.
    simp only [renamed, hd]
    split
    · rw [List.append_nil]
      exact hbase r
    · rename_i hcall
      rw [producer?_congr_list (lastWriter_append_of_not_writes _)]
      · exact hbase r
      · intro e he
        rw [List.mem_singleton.1 he]
        simp [issueEntry, Instruction.writes, hd, hcall]
  · have hcall : i.isCall = false := by
      cases i <;> first | rfl | cases hd
      rename_i op _ _
      cases op <;> rfl
    simp only [renamed, hd, hcall, Bool.false_eq_true, if_false]
    have hlw : lastWriter (m.issued ++ [m.issueEntry i s]) r =
        if d = r then some (m.issueEntry i s) else lastWriter m.issued r := by
      rw [lastWriter_concat]
      simp [issueEntry, Instruction.writes, hd, hcall]
    rw [Registers.status_rename]
    split
    · -- The destination waits for the new instruction, which is in flight.
      rename_i hr
      obtain ⟨hd0, rfl⟩ := hr
      have hprod : (m.dispatched i s n).producer? (m.issued ++ [m.issueEntry i s]) d =
          some (m.issueEntry i s) :=
        producer?_eq_some_iff.2 ⟨hd0, hlw.trans (if_pos rfl),
          (mem_flight_dispatched hs hfree).2 (.inr rfl)⟩
      rw [hprod]
      rfl
    · -- Register 0 has no producer, and any other register keeps its last writer.
      rename_i hr
      rw [hbase r]
      by_cases hr0 : r = 0
      · rw [producer?_eq_none_iff.2 (.inl hr0), producer?_eq_none_iff.2 (.inl hr0)]
      · have hne : d ≠ r := fun hdr => hr ⟨hdr ▸ hr0, hdr⟩
        rw [producer?_congr_list (hlw.trans (if_neg hne))]

/-- An operand that was right before an instruction is issued is right after
it. -/
theorem Coherent.supplies_dispatched {source : Option Reg} {y : Operand} (h : m.Coherent)
    (hs : m.stations[n]? = some s) (hfree : s.occupant = none) (hl : ∀ e ∈ l, e ∈ m.issued)
    (hsup : m.Supplies l source y) : (m.dispatched i s n).Supplies l source y := by
  rwa [supplies_congr fun r => producer?_dispatched h hs hfree hl]

/-- The kinds in use are those in use before, and that of the station that is
filled. -/
theorem exists_kind_dispatched (hs : m.stations[n]? = some s) (hfree : s.occupant = none)
    (kind : UnitKind) : (∃ n' s' o', (m.dispatched i s n).Holds n' s' o' ∧ s'.kind = kind) ↔
      (∃ n' s' o', m.Holds n' s' o' ∧ s'.kind = kind) ∨ s.kind = kind := by
  have hn := (List.getElem?_eq_some_iff.1 hs).1
  constructor
  · rintro ⟨k, s', o', hold, hk⟩
    rcases (holds_dispatched hn).1 hold with ⟨-, rfl, -⟩ | ⟨-, h'⟩
    · exact .inr hk
    · exact .inl ⟨k, s', o', h', hk⟩
  · rintro (⟨k, s', o', h', hk⟩ | hk)
    · refine ⟨k, s', o', (holds_dispatched hn).2 (.inr ⟨?_, h'⟩), hk⟩
      rintro rfl
      exact not_holds_of_free hs hfree h'
    · exact ⟨n, _, _, (holds_dispatched hn).2 (.inl ⟨rfl, rfl, rfl⟩), hk⟩

/-- A new instruction fits its station. -/
theorem fits_newcomer (hunit : i.unit? = some s.kind) :
    (m.filled i s).Fits m.relativeCalls (m.newcomer i) where
  unit := hunit
  started h := absurd h (Nat.lt_irrefl 0)
  result v h := by cases h
  offset _ off h := by
    cases i <;> simp_all [Instruction.offset?, newcomer, immediate]
  address h := by cases h
  target l h := by
    rw [show i = .call l from h]
    rfl

/-- **The machine may issue an instruction to a free station of its kind.** -/
theorem Coherent.dispatched (h : m.Coherent) (hjump : m.jumpPending = false)
    (hs : m.stations[n]? = some s) (hfree : s.occupant = none) (hunit : i.unit? = some s.kind) :
    (m.dispatched i s n).Coherent := by
  have hn := (List.getElem?_eq_some_iff.1 hs).1
  have hkind := fun kind => exists_kind_dispatched (i := i) hs hfree kind
  constructor
  case tags =>
    intro k s' hs'
    change (m.stations.set n (m.filled i s))[k]? = some s' at hs'
    rw [List.getElem?_set] at hs'
    split at hs'
    · rename_i hk
      subst hk
      simp only [Option.some.injEq] at hs'
      rw [← hs']
      exact h.tags n s hs
    · exact h.tags k s' hs'
  case idle =>
    intro s' hs' hnone
    rcases List.mem_or_eq_of_mem_set hs' with hs' | rfl
    · exact h.idle s' hs' hnone
    · cases hnone
  case inOrder =>
    refine List.pairwise_append.2 ⟨h.inOrder, List.pairwise_singleton _ _, fun a ha b hb => ?_⟩
    rw [List.mem_singleton.1 hb]
    exact h.fresh a ha
  case fresh =>
    intro e he
    change e.seq < m.nextSeq + 1
    rcases mem_issued_dispatched.1 he with he | rfl
    · have := h.fresh e he
      omega
    · exact Int.lt_succ _
  case owner =>
    intro k s' o' hold
    rcases (holds_dispatched hn).1 hold with ⟨-, rfl, rfl⟩ | ⟨-, h'⟩
    · exact ⟨m.issueEntry i s, mem_issued_dispatched.2 (.inr rfl), rfl, rfl, rfl, rfl, rfl⟩
    · obtain ⟨e, he, hof⟩ := h.owner k s' o' h'
      exact ⟨e, mem_issued_dispatched.2 (.inl he), hof⟩
  case fits =>
    intro k s' o' hold
    rcases (holds_dispatched hn).1 hold with ⟨-, rfl, rfl⟩ | ⟨-, h'⟩
    · exact fits_newcomer (m := m) hunit
    · exact h.fits k s' o' h'
  case sources =>
    intro k s' o' hold
    rcases (holds_dispatched hn).1 hold with ⟨-, rfl, rfl⟩ | ⟨-, h'⟩
    · -- The new operands were read when everything issued was before them.
      have hnew := before_dispatched (i := i) (s := s) (n := n) (Int.le_refl m.nextSeq)
      rw [show (m.newcomer i).seq = m.nextSeq from rfl, hnew, h.before_nextSeq]
      exact ⟨h.supplies_dispatched hs hfree (fun e he => he) (h.supplies_source hjump _),
        h.supplies_dispatched hs hfree (fun e he => he) (h.supplies_source hjump _)⟩
    · rw [before_dispatched (Int.le_of_lt (h.owned_seq_lt h'))]
      obtain ⟨hj, hk⟩ := h.sources k s' o' h'
      exact ⟨h.supplies_dispatched hs hfree mem_issued_of_before hj,
        h.supplies_dispatched hs hfree mem_issued_of_before hk⟩
  case saved =>
    intro k s' o' hold hk
    rcases (holds_dispatched hn).1 hold with ⟨-, rfl, rfl⟩ | ⟨-, h'⟩
    · -- A new branch saves the table in use.
      have hbranch : i.isBranch := by
        rw [← Instruction.unit?_eq_beq_iff, hunit]
        exact congrArg some hk
      refine ⟨m.registers.status, if_pos hbranch, ?_⟩
      rw [show (m.newcomer i).seq = m.nextSeq from rfl, before_dispatched (Int.le_refl _),
        h.before_nextSeq, describes_congr fun r => producer?_dispatched h hs hfree fun e he => he,
        ← h.renamers_eq hjump]
      exact h.status
    · obtain ⟨table, htable, hdesc⟩ := h.saved k s' o' h' hk
      refine ⟨table, htable, ?_⟩
      rw [before_dispatched (Int.le_of_lt (h.owned_seq_lt h')),
        describes_congr fun r => producer?_dispatched h hs hfree mem_issued_of_before]
      exact hdesc
  case status => exact describes_dispatched h hjump hs hfree
  case aloft =>
    intro e he hpath
    rw [mem_flight_dispatched hs hfree]
    rcases mem_issued_dispatched.1 he with he | rfl
    · rw [onPath_dispatched_iff hs hfree (Int.le_of_lt (h.fresh e he))] at hpath
      exact .inl (h.aloft e he hpath)
    · exact .inr rfl
  case waiting =>
    intro k s' o' hold hpath
    rcases (holds_dispatched hn).1 hold with ⟨-, rfl, rfl⟩ | ⟨-, h'⟩
    · exact ⟨rfl, rfl⟩
    · rw [onPath_dispatched_iff hs hfree (Int.le_of_lt (h.owned_seq_lt h'))] at hpath
      exact h.waiting k s' o' h' hpath
  case jumpLast =>
    intro k s' o' hold hk e he
    rcases (holds_dispatched hn).1 hold with ⟨-, rfl, rfl⟩ | ⟨-, h'⟩
    · rcases mem_issued_dispatched.1 he with he | rfl
      · exact Int.le_of_lt (h.fresh e he)
      · exact Int.le_refl _
    · -- There was no call or return in flight.
      rw [h.jumpFlag.2 ⟨k, s', o', h', hk⟩] at hjump
      cases hjump
  case branchFlag =>
    change (m.branchPending || i.isBranch) = true ↔ _
    rw [hkind, Bool.or_eq_true, h.branchFlag, ← Instruction.unit?_eq_beq_iff, hunit,
      Option.some.injEq]
  case jumpFlag =>
    change (m.jumpPending || i.isJump) = true ↔ _
    rw [hkind, Bool.or_eq_true, h.jumpFlag, ← Instruction.unit?_eq_callRet_iff, hunit,
      Option.some.injEq]

end Dispatched

/-! ## The Writeback stage -/

theorem get_settled (tag : Tag) (table : StatusTable) (r : Reg) :
    (Station.settled tag table).get r = if table.get r = some tag then none else table.get r :=
  Vector.getElem_map ..

/-- The registers that a saved table would have wait for a tag. -/
theorem mem_writeThrough {tag : Tag} :
    (r.val : Int) ∈ m.writeThrough tag ↔ ∃ n s o table, m.Holds n s o ∧ s.kind = .beq ∧
      o.checkpoint = some table ∧ table.get r = some tag := by
  simp only [writeThrough, List.mem_map, List.mem_filter, List.mem_finRange, true_and,
    List.any_eq_true, Station.savedTag, Bool.and_eq_true, decide_eq_true_eq, Option.any_eq_true]
  constructor
  · rintro ⟨r', ⟨s, hs, kind, o, ho, table, htable, htag⟩, hv⟩
    obtain ⟨n, hold⟩ := exists_holds_of_mem hs ho
    obtain rfl : r' = r := Fin.ext (Int.ofNat.inj hv)
    exact ⟨n, s, o, table, hold, kind, htable, htag⟩
  · rintro ⟨n, s, o, table, hold, kind, htable, htag⟩
    exact ⟨r, ⟨s, hold.mem, kind, o, hold.2, table, htable, htag⟩, rfl⟩

section Sent

variable {x : Sender}

/-- A result releases its sender. -/
theorem released_sent :
    Released m (m.sent x) x.position x.occupant where
  slot k s' hs' := by
    simp only [sent, deliver, List.getElem?_mapIdx, Option.map_eq_some_iff] at hs'
    obtain ⟨s₁, hs₁, rfl⟩ := hs'
    split
    · exact ⟨s₁, hs₁, rfl, fun _ => .inr rfl⟩
    · change ∃ s, _ ∧ (s₁.told x.station.tag x.value).toSlot = _ ∧ _
      obtain ⟨hslot, hres⟩ := s₁.told_toSlot x.station.tag x.value
      refine ⟨s₁, hs₁, hslot, fun hnone => .inl ⟨?_, hres⟩⟩
      change (s₁.told x.station.tag x.value).occupant = none at hnone
      rw [Station.told_occupant, Option.map_eq_none_iff] at hnone
      exact hnone
  origin k s' o' hold' := by
    obtain ⟨hk, s₁, o₁, hold₁, rfl, rfl⟩ := holds_sent.1 hold'
    obtain ⟨hslot, hres⟩ := s₁.told_toSlot x.station.tag x.value
    refine ⟨hk, s₁, o₁, hold₁, hslot, hres, fun hready => ?_, Operand.ready_hear, rfl⟩
    simp only [Occupant.ready, Bool.and_eq_true] at hready ⊢
    exact ⟨Operand.ready_hear hready.1, Operand.ready_hear hready.2⟩
  kept k s₁ o₁ hold₁ hk :=
    ⟨_, _, holds_sent.2 ⟨hk, s₁, o₁, hold₁, rfl, rfl⟩, (s₁.told_toSlot _ _).1, rfl⟩
  issued := rfl
  nextSeq := rfl
  relativeCalls := rfl

variable (h : m.Coherent) (hx : m.nextSender? = some x)
include h hx

/-- **One number leaves the flight: that of the sender.** -/
theorem mem_flight_sent : q ∈ (m.sent x).flight ↔ q ∈ m.flight ∧ q ≠ x.occupant.seq :=
  released_sent.mem_flight_iff h (nextSender?_eq_some hx).1

theorem producer?_sent :
    (m.sent x).producer? l r = (m.producer? l r).filter fun e => e.seq ≠ x.occupant.seq :=
  producer?_of_release fun _ => mem_flight_sent h hx

/-- The tag that is sent names the sender and no other producer. -/
theorem tag_eq_sender_iff (hl : ∀ e ∈ l, e ∈ m.issued) (hw : m.producer? l r = some w) :
    w.tag = x.station.tag ↔ w.seq = x.occupant.seq := by
  have hold := (nextSender?_eq_some hx).1
  have hwm := hl w (mem_of_producer? hw).1
  obtain ⟨e, he, hof⟩ := h.owner _ _ _ hold
  constructor
  · intro htag
    rw [h.eq_of_tag_eq hwm he (producer?_eq_some_iff.1 hw).2.2 (hof.seq ▸ hold.mem_flight)
      (htag.trans hof.tag.symm), hof.seq]
  · intro hseq
    rw [h.inOrder.eq_of_seq_eq hwm he (hseq.trans hof.seq.symm), hof.tag]

/-- **A table that described a history describes it again** when the result
has been settled in it. -/
theorem describes_sent {table : StatusTable} (hl : ∀ e ∈ l, e ∈ m.issued)
    (hdesc : m.Describes l table) :
    (m.sent x).Describes l (Station.settled x.station.tag table) := by
  intro r
  rw [get_settled, hdesc r, producer?_sent h hx]
  rcases hw : m.producer? l r with - | w
  · rfl
  · simp only [Option.map_some, Option.some.injEq, tag_eq_sender_iff h hx hl hw,
      Option.filter_some]
    by_cases hseq : w.seq = x.occupant.seq <;> simp [hseq]

/-- **An operand that was right is right again** when it has heard the
result. -/
theorem supplies_sent {source : Option Reg} {y : Operand} (hl : ∀ e ∈ l, e ∈ m.issued)
    (hsup : m.Supplies l source y) :
    (m.sent x).Supplies l source (y.hear x.station.tag x.value) := by
  rcases source with - | r
  · rw [show y = .unused from hsup]
    rfl
  simp only [Supplies] at hsup ⊢
  rw [producer?_sent h hx]
  rcases hw : m.producer? l r with - | w <;> rw [hw] at hsup
  · obtain ⟨v, rfl⟩ := hsup
    exact ⟨v, rfl⟩
  · subst hsup
    have htag := tag_eq_sender_iff h hx hl hw
    rw [Option.filter_some, Operand.hear]
    by_cases hseq : w.seq = x.occupant.seq
    · -- The operand waits for the sender, whose result is a word.
      obtain ⟨hold, hres, -⟩ := nextSender?_eq_some hx
      obtain ⟨-, -, v, hv⟩ := (h.fits _ _ _ hold).result x.value hres
      rw [if_pos (htag.2 hseq)]
      simp only [hseq, ne_eq, not_true_eq_false, decide_false, Bool.false_eq_true, if_false]
      exact ⟨v, by rw [hv]⟩
    · -- It waits for another, which has another tag.
      rw [if_neg (fun ht => hseq (htag.1 ht))]
      simp [hseq]

theorem Coherent.sent : (m.sent x).Coherent := by
  obtain ⟨hold, -, -, -, e, hpath, hseq⟩ := nextSender?_eq_some hx
  have hr : Released m (m.sent x) x.position x.occupant := released_sent
  have hkind := kind_of_nextSender? hx
  have hcall : x.occupant.instr.isCall = false := h.isCall_eq_false hold hkind.2
  refine hr.coherent h hold (hseq ▸ (h.mem_path.1 hpath).2) ?_ ?_ ?_
    (hr.flag hold hkind.1 h.branchFlag) (hr.flag hold hkind.2 h.jumpFlag)
  · intro k s' o' hold'
    obtain ⟨-, s₁, o₁, hold₁, rfl, rfl⟩ := holds_sent.1 hold'
    exact ⟨supplies_sent h hx mem_issued_of_before (h.sources k s₁ o₁ hold₁).1,
      supplies_sent h hx mem_issued_of_before (h.sources k s₁ o₁ hold₁).2⟩
  · intro k s' o' hold' hk
    obtain ⟨-, s₁, o₁, hold₁, rfl, rfl⟩ := holds_sent.1 hold'
    have hk₁ : s₁.kind = .beq := by
      rw [← hk, (s₁.told_toSlot x.station.tag x.value).1]
    obtain ⟨table, htable, hdesc⟩ := h.saved k s₁ o₁ hold₁ hk₁
    refine ⟨Station.settled x.station.tag table, ?_, describes_sent h hx mem_issued_of_before hdesc⟩
    simp only [Occupant.told, hk₁, if_true, htable, Option.map_some]
  · intro r
    rw [hr.renamers_eq h hold hcall, ← describes_sent h hx mem_issued_of_renamers h.status r,
      get_settled]
    change (m.registers.broadcast x.station.tag x.value _).status.get r = _
    rw [Registers.status_broadcast]
    by_cases hr0 : r = 0
    · -- Register 0 never waits, so nothing is settled in it.
      have hnone : m.registers.status.get r = none := by
        rw [h.status r, producer?_eq_none_iff.2 (.inl hr0)]
        rfl
      rw [if_neg fun hc => hc.1 hr0, hnone, if_neg (by simp)]
    · simp [hr0]

end Sent

/-! ## A whole cycle -/

theorem Coherent.issue (h : m.Coherent) (hm : m.issue = .ok m') : m'.Coherent := by
  rcases issue_eq_ok hm with ⟨i, s, n, hjump, hf, hs, hfree, rfl⟩ | rfl
  · exact h.dispatched hjump hs hfree (fetch_eq_instruction hf).1
  · exact h

theorem Coherent.writeBack (h : m.Coherent) (hm : m.writeBack = .ok m') : m'.Coherent := by
  rcases writeBack_cases hm with ⟨-, rfl⟩ | ⟨x, hx, rfl⟩
  · exact h
  · exact h.sent hx

/-- The cycle count and the values of registers and memory say nothing of
who is in flight, and neither does a free station. -/
theorem Coherent.congr (h : m.Coherent) (hholds : ∀ n s o, m'.Holds n s o ↔ m.Holds n s o)
    (tags : ∀ (n : Nat) (s : Station), m'.stations[n]? = some s → s.tag = n)
    (idle : ∀ s ∈ m'.stations, s.occupant = none → s.result = none)
    (hissued : m'.issued = m.issued) (hseq : m'.nextSeq = m.nextSeq)
    (hstatus : m'.registers.status = m.registers.status)
    (hbranch : m'.branchPending = m.branchPending) (hjump : m'.jumpPending = m.jumpPending)
    (hrel : m'.relativeCalls = m.relativeCalls) : m'.Coherent := by
  have hre : Retimed m m' :=
    ⟨fun k s o hold => ⟨s, o, (hholds k s o).1 hold, rfl, rfl⟩,
      fun k s o hold => ⟨s, o, (hholds k s o).2 hold, rfl, rfl⟩, hissued, hseq, hstatus, hbranch,
      hjump⟩
  refine hre.coherent h tags idle (fun n s o hold => ?_)
    fun n s o hold => h.waiting n s o ((hholds n s o).1 hold)
  rw [hrel]
  exact h.fits n s o ((hholds n s o).1 hold)

theorem Coherent.count {c : Nat} (h : m.Coherent) : Coherent { m with cycle := c } :=
  h.congr (fun _ _ _ => Iff.rfl) h.tags h.idle rfl rfl rfl rfl rfl rfl

/-- **A cycle keeps a machine coherent.** -/
theorem Coherent.step (h : m.Coherent) (hm : m.step = .ok m') : m'.Coherent := by
  obtain ⟨m₁, m₂, m₃, h₁, h₂, h₃, rfl, -⟩ := step_eq_ok hm
  exact (((execute_moves h₂).coherent (h.advance.issue h₁)).writeBack h₃).count

/-- What is in flight after a cycle was in flight before it, or is new. -/
theorem Coherent.mem_flight_of_step (hc : m.Coherent) (hm : m.step = .ok m')
    (hq : q ∈ m'.flight) : q ∈ m.flight ∨ q = m.nextSeq := by
  obtain ⟨m₁, m₂, m₃, h₁, h₂, h₃, rfl, -⟩ := step_eq_ok hm
  have hmoves := execute_moves h₂
  have hq₂ : q ∈ m₂.flight := by
    rcases writeBack_cases h₃ with ⟨-, rfl⟩ | ⟨x, hx, rfl⟩
    · exact hq
    · exact ((mem_flight_sent (hmoves.coherent (hc.advance.issue h₁)) hx).1 hq).1
  have hq₁ := hmoves.mem_flight hq₂
  rcases issue_eq_ok h₁ with ⟨i, s, n, -, -, hs, hfree, rfl⟩ | rfl
  · rcases (mem_flight_dispatched hs hfree).1 hq₁ with hq₁ | rfl
    · exact .inl (retimed_advance.mem_flight_iff.1 hq₁)
    · exact .inr rfl
  · exact .inl (retimed_advance.mem_flight_iff.1 hq₁)

/-- Numbers are not given back. -/
theorem nextSeq_le_of_step (hm : m.step = .ok m') : m.nextSeq ≤ m'.nextSeq := by
  obtain ⟨m₁, m₂, m₃, h₁, h₂, h₃, rfl, -⟩ := step_eq_ok hm
  have hissue : m.nextSeq ≤ m₁.nextSeq := by
    rcases issue_eq_ok h₁ with ⟨i, s, n, -, -, -, -, rfl⟩ | rfl
    · exact Int.le_add_one (Int.le_refl _)
    · exact Int.le_refl _
  have hwriteBack : m₃.nextSeq = m₂.nextSeq := by
    rcases writeBack_cases h₃ with ⟨-, rfl⟩ | ⟨x, -, rfl⟩ <;> rfl
  change m.nextSeq ≤ m₃.nextSeq
  rwa [hwriteBack, (execute_moves h₂).nextSeq]

/-- **What has left its station does not come back**: the numbers of later
instructions are greater. -/
theorem Coherent.not_mem_flight_of_step (hc : m.Coherent) (hm : m.step = .ok m')
    (hgone : q ∉ m.flight) (hlt : q < m.nextSeq) : q ∉ m'.flight ∧ q < m'.nextSeq := by
  refine ⟨fun hf => ?_, Int.lt_of_lt_of_le hlt (nextSeq_le_of_step hm)⟩
  rcases hc.mem_flight_of_step hm hf with hf | rfl
  · exact hgone hf
  · exact Int.lt_irrefl _ hlt

end Machine

end OutOfOrder
