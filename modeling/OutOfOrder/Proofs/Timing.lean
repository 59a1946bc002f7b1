import OutOfOrder.Proofs.AccessOrder
import OutOfOrder.Proofs.Renumbering.Pools
import OutOfOrder.Report.Timing
/-!
# The timing table is possible

The cycles in the three histories are read off one clock, and the timers of
the stations are not. `Clocked` says how the two fit. A timer starts when its
instruction is issued and counts at most one for each cycle, so it never runs
ahead of the clock; without a result it stops at the latency, and with one it
goes on. So an instruction is executed no sooner than its latency after it
was issued, and a result is sent no sooner than the cycle after that.

Within a cycle the histories may have entries of the cycle itself, which is
why the clock is a parameter of `Clocked`. Each cycle issues at most one
instruction, before all else, and sends at most one result, after all else
(`Clocked.step`).

A row of the table finds its cycles by the number of its instruction, and
its station by its name; both are unique (`timing_possible`).
-/

namespace OutOfOrder

theorem Station.tick_cycles_le (s : Station) (o : Occupant) :
    (s.tick o).cycles ≤ o.cycles + 1 := by
  rw [tick]
  split
  · exact Nat.le_refl _
  · exact Nat.le_succ _

/-- **A row that can have happened**, at a time `now`, for an instruction in a
station of this latency that has a result for the bus or not. -/
structure TimingRow.Possible (row : TimingRow) (broadcasts : Bool) (latency now : Nat) :
    Prop where
  /-- What was written back was executed. -/
  executed : row.writtenBack.isSome → row.executed.isSome
  /-- It was not executed before its latency had gone by. -/
  delay : ∀ x, row.executed = some x → row.issued + latency ≤ x
  /-- A result is sent in a later cycle, and there is no other delay. -/
  sent : ∀ x w, row.executed = some x → row.writtenBack = some w →
    if broadcasts then x + 1 ≤ w else w = x
  total : row.latency = row.writtenBack.map fun w : Nat => (w : Int) - row.issued
  atLeast : ∀ c, row.latency = some c → (latency : Int) ≤ c
  issuedPast : row.issued < now
  executedPast : ∀ x, row.executed = some x → x < now
  writtenPast : ∀ w, row.writtenBack = some w → w < now

namespace Machine

variable {m m' : Machine} {n now : Nat} {s : Station} {o : Occupant} {e x : Entry}

/-- **The histories and the timers agree with the clock**: everything
recorded was recorded before `now`. -/
structure Clocked (m : Machine) (now : Nat) : Prop where
  issued : ∀ e ∈ m.issued, e.cycle < now
  executed : ∀ x ∈ m.executed, x.cycle < now
  written : ∀ w ∈ m.writtenBack, w.cycle < now
  /-- No cycle issues two instructions. -/
  inTurn : m.issued.Pairwise fun a b => a.cycle < b.cycle
  /-- What was issued names a station. -/
  stationed : ∀ e ∈ m.issued, ∃ p ∈ m.slots, p.name = e.station
  /-- A timer has not counted more cycles than have gone by. -/
  elapsed : ∀ n s o, m.Holds n s o → ∀ e ∈ m.issued, e.seq = o.seq → e.cycle + o.cycles < now
  /-- Without a result it stops at the latency. -/
  stopped : ∀ n s o, m.Holds n s o → s.result = none → o.cycles ≤ s.latency
  /-- With a result it has not counted more than have gone by since. -/
  resumed : ∀ n s o, m.Holds n s o → ∀ x ∈ m.executed, x.seq = o.seq →
    x.cycle + o.cycles < now + s.latency
  /-- What was executed had had its latency. -/
  latency : ∀ x ∈ m.executed, ∀ e ∈ m.issued, x.seq = e.seq → ∀ p ∈ m.slots,
    p.name = e.station → e.cycle + p.latency ≤ x.cycle
  /-- A result is sent in a later cycle. What has no result for the bus is
  written back as it executes. -/
  sent : ∀ w ∈ m.writtenBack, ∀ x ∈ m.executed, w.seq = x.seq →
    if w.instr.broadcasts then x.cycle < w.cycle else w.cycle = x.cycle
  /-- No cycle sends two results. -/
  oneSent : m.writtenBack.Pairwise fun a b =>
    a.instr.broadcasts → b.instr.broadcasts → a.cycle < b.cycle

/-! ## What a move records -/

/-- **What a move executes** had no result, and its latency has elapsed. -/
theorem Move.executes {acts : List Act} (hm : Move m acts m') (hc : m.Coherent)
    (hx : x ∈ m'.executed) :
    x ∈ m.executed ∨ ∃ n s o, m.Holds n s o ∧ s.result = none ∧ s.latency ≤ o.cycles ∧
      x = m.entry s o := by
  -- All moves but that of an address execute the instruction that makes them.
  have key : ∀ {n s o}, m.Holds n s o → s.result = none → s.latency ≤ o.cycles →
      x ∈ m.executed ++ [m.entry s o] → x ∈ m.executed ∨ ∃ n s o, m.Holds n s o ∧
        s.result = none ∧ s.latency ≤ o.cycles ∧ x = m.entry s o := by
    intro n s o hold hres helapsed hx
    exact (List.mem_append.1 hx).imp_right fun hx =>
      ⟨n, s, o, hold, hres, helapsed, List.mem_singleton.1 hx⟩
  cases hm with
  | address => exact .inl hx
  | load hold path kind due =>
    simp only [accessDue, Bool.and_eq_true, Option.isNone_iff_eq_none, decide_eq_true_eq] at due
    exact key hold due.1.2 due.2 hx
  | compute hold path hinstr fresh elapsed => exact key hold fresh elapsed hx
  | store hold path kind due =>
    simp only [accessDue, Bool.and_eq_true, Option.isNone_iff_eq_none, decide_eq_true_eq] at due
    exact key hold due.1.2 due.2 hx
  | fall hold path kind elapsed | branch hold path kind elapsed | call hold path kind elapsed
  | ret hold path kind elapsed =>
    exact key hold (hc.result_eq_none_of_usesBus hold (by rw [kind]; rfl)) elapsed hx

/-- **What a move writes back** has no result for the bus, and is executed
in the same move. -/
theorem Move.writes {acts : List Act} (hm : Move m acts m') (hc : m.Coherent) (hr : m.Recorded) :
    m'.writtenBack = m.writtenBack ∨ ∃ w, m'.writtenBack = m.writtenBack ++ [w] ∧
      w.instr.broadcasts = false ∧ w.cycle = m.cycle ∧ ∀ x ∈ m.executed, w.seq ≠ x.seq := by
  cases hm with
  | address | load | compute => exact .inl rfl
  | store hold path kind | fall hold path kind | branch hold path kind | call hold path kind
  | ret hold path kind =>
    have hbus := congrArg UnitKind.usesBus kind
    have hres := hc.result_eq_none_of_usesBus hold hbus
    exact .inr ⟨_, rfl, (Instruction.broadcasts_eq (hc.fits _ _ _ hold).unit).trans hbus, rfl,
      fun x hx hseq => hr.not_executed hold hres (List.mem_map.2 ⟨x, hx, hseq.symm⟩)⟩

theorem Move.mem_writtenBack {acts : List Act} {w : Entry} (hm : Move m acts m') (hc : m.Coherent)
    (hr : m.Recorded) (hw : w ∈ m'.writtenBack) :
    w ∈ m.writtenBack ∨
      w.instr.broadcasts = false ∧ w.cycle = m.cycle ∧ ∀ x ∈ m.executed, w.seq ≠ x.seq := by
  rcases hm.writes hc hr with hwritten | ⟨w', hwritten, h⟩ <;> rw [hwritten] at hw
  · exact .inl hw
  · rcases List.mem_append.1 hw with hw | hw
    · exact .inl hw
    · rw [List.mem_singleton.1 hw]
      exact .inr h

theorem Move.cycle {acts : List Act} (hm : Move m acts m') : m'.cycle = m.cycle := by
  cases hm <;> rfl

theorem Moves.cycle {acts : List Act} (hm : Moves m acts m') : m'.cycle = m.cycle := by
  induction hm with
  | refl => rfl
  | cons first rest ih => exact ih.trans first.cycle

/-- No move sends a result. -/
theorem Moves.mem_writtenBack {acts : List Act} {w : Entry} (hm : Moves m acts m')
    (hc : m.Coherent) (hr : m.Recorded) (hw : w ∈ m'.writtenBack) (hyes : w.instr.broadcasts) :
    w ∈ m.writtenBack := by
  induction hm with
  | refl => exact hw
  | cons first rest ih =>
    rcases first.mem_writtenBack hc hr (ih (first.coherent hc) (hr.move hc first) hw) with
      hw | ⟨hno, -⟩
    · exact hw
    · rw [hno] at hyes
      cases hyes

/-! ## What keeps to the clock -/

namespace Clocked

/-- **A cycle begins**: the clock is ahead of all that is recorded, and the
timers have counted one more at most. -/
theorem advance (h : m.Clocked now) : m.advance.Clocked (now + 1) where
  issued e he := Nat.lt_succ_of_lt (h.issued e he)
  executed x hx := Nat.lt_succ_of_lt (h.executed x hx)
  written w hw := Nat.lt_succ_of_lt (h.written w hw)
  inTurn := h.inTurn
  stationed e he := by
    rw [slots_advance]
    exact h.stationed e he
  elapsed k s' o' hold' e he hseq := by
    obtain ⟨s, o, hold, rfl, rfl⟩ := holds_advance.1 hold'
    have hle := s.tick_cycles_le o
    have hlt := h.elapsed k s o hold e he (by rw [hseq, tick_eq])
    omega
  stopped k s' o' hold' hres := by
    obtain ⟨s, o, hold, rfl, rfl⟩ := holds_advance.1 hold'
    obtain ⟨hslot, hsame⟩ := s.advance_toSlot
    rw [hsame] at hres
    rw [hslot, Station.tick]
    split
    · rename_i hadv
      simp only [Station.advances, hold.2, hres, Option.isSome_none, Bool.or_false,
        Bool.and_eq_true, decide_eq_true_eq] at hadv
      exact hadv.2
    · exact h.stopped k s o hold hres
  resumed k s' o' hold' x hx hseq := by
    obtain ⟨s, o, hold, rfl, rfl⟩ := holds_advance.1 hold'
    have hle := s.tick_cycles_le o
    have hlt := h.resumed k s o hold x hx (by rw [hseq, tick_eq])
    rw [s.advance_toSlot.1]
    omega
  latency := by
    rw [slots_advance]
    exact h.latency
  sent := h.sent
  oneSent := h.oneSent

/-- **An instruction is issued** in a cycle in which nothing was. -/
theorem issue (h : m.Clocked (m.cycle + 1)) (hc : m.Coherent) (hr : m.Recorded)
    (hnone : ∀ e ∈ m.issued, e.cycle < m.cycle) (hm : m.issue = .ok m') :
    m'.Clocked (m'.cycle + 1) := by
  rcases issue_eq_ok hm with ⟨i, s, n, -, -, hs, hfree, rfl⟩ | rfl
  swap
  · exact h
  have hslots : (m.dispatched i s n).slots = m.slots := slots_set hs rfl
  have hn := (List.getElem?_eq_some_iff.1 hs).1
  have hexec : ∀ x ∈ m.executed, x.seq < m.nextSeq := fun x hx => by
    obtain ⟨e, he, hseq⟩ := hr.exists_of_seq (List.mem_map_of_mem hx)
    exact hseq ▸ hc.fresh e he
  have hnew : (m.issueEntry i s).cycle = m.cycle ∧ (m.issueEntry i s).seq = m.nextSeq := ⟨rfl, rfl⟩
  change (m.dispatched i s n).Clocked (m.cycle + 1)
  constructor
  case issued =>
    intro e he
    rcases mem_issued_dispatched.1 he with he | rfl
    · exact h.issued e he
    · exact Nat.lt_succ_self _
  case executed => exact h.executed
  case written => exact h.written
  case inTurn =>
    refine List.pairwise_append.2 ⟨h.inTurn, List.pairwise_singleton _ _, fun a ha b hb => ?_⟩
    rw [List.mem_singleton.1 hb]
    exact hnone a ha
  case stationed =>
    intro e he
    rw [hslots]
    rcases mem_issued_dispatched.1 he with he | rfl
    · exact h.stationed e he
    · exact ⟨s.toSlot, List.mem_map_of_mem (List.mem_of_getElem? hs), rfl⟩
  case elapsed =>
    intro k s' o' hold' e he hseq
    rcases (holds_dispatched hn).1 hold' with ⟨-, rfl, rfl⟩ | ⟨-, hold⟩
    · rcases mem_issued_dispatched.1 he with he | rfl
      · exact h.issued e he
      · exact Nat.lt_succ_self _
    · rcases mem_issued_dispatched.1 he with he | rfl
      · exact h.elapsed k s' o' hold e he hseq
      · have := hc.owned_seq_lt hold
        omega
  case stopped =>
    intro k s' o' hold' hres
    rcases (holds_dispatched hn).1 hold' with ⟨-, rfl, rfl⟩ | ⟨-, hold⟩
    · exact Nat.zero_le _
    · exact h.stopped k s' o' hold hres
  case resumed =>
    intro k s' o' hold' x hx hseq
    rcases (holds_dispatched hn).1 hold' with ⟨-, rfl, rfl⟩ | ⟨-, hold⟩
    · exact absurd hseq (Int.ne_of_lt (hexec x hx))
    · exact h.resumed k s' o' hold x hx hseq
  case latency =>
    intro x hx e he hseq p hp hname
    rw [hslots] at hp
    rcases mem_issued_dispatched.1 he with he | rfl
    · exact h.latency x hx e he hseq p hp hname
    · exact absurd hseq (Int.ne_of_lt (hexec x hx))
  case sent => exact h.sent
  case oneSent => exact h.oneSent

/-- The slot of a name is that of the station of the name. -/
theorem eq_toSlot_of_name {p : Slot} (hnames : m.names.Nodup) (hold : m.Holds n s o)
    (hp : p ∈ m.slots) (hname : p.name = s.name) : p = s.toSlot :=
  List.inj_on_of_nodup_map hnames hp (List.mem_map_of_mem hold.mem) hname

/-- **A move keeps to the clock.** What it executes had its latency, since
its timer did. -/
theorem move {acts : List Act} (h : m.Clocked (m.cycle + 1)) (hc : m.Coherent) (hr : m.Recorded)
    (hnames : m.names.Nodup) (hm : Move m acts m') : m'.Clocked (m'.cycle + 1) := by
  have hissued : ∀ e ∈ m'.issued, e ∈ m.issued := hm.issued_subset
  rw [hm.cycle]
  constructor
  case issued => exact fun e he => h.issued e (hissued e he)
  case executed =>
    intro x hx
    rcases hm.executes hc hx with hx | ⟨n, s, o, -, -, -, rfl⟩
    · exact h.executed x hx
    · exact Nat.lt_succ_self _
  case written =>
    intro w hw
    rcases hm.mem_writtenBack hc hr hw with hw | ⟨-, hcycle, -⟩
    · exact h.written w hw
    · rw [hcycle]
      exact Nat.lt_succ_self _
  case inTurn => exact h.inTurn.sublist hm.issued_shrinks.sublist
  case stationed =>
    rw [hm.slots]
    exact fun e he => h.stationed e (hissued e he)
  case elapsed =>
    intro k s' o' hold' e he hseq
    obtain ⟨s, o, hold, -, -, ho, -⟩ := hm.origin hold'
    rw [ho] at hseq ⊢
    exact h.elapsed k s o hold e (hissued e he) hseq
  case stopped =>
    intro k s' o' hold' hres
    obtain ⟨s, o, hold, hslot, hkept, ho, -⟩ := hm.origin hold'
    rw [ho, hslot]
    refine h.stopped k s o hold (Option.not_isSome_iff_eq_none.1 fun hsome => ?_)
    rw [hres] at hkept
    exact Bool.false_ne_true (hkept hsome)
  case resumed =>
    intro k s' o' hold' x hx hseq
    obtain ⟨s, o, hold, hslot, -, ho, -⟩ := hm.origin hold'
    rw [ho] at hseq ⊢
    rw [hslot]
    rcases hm.executes hc hx with hx | ⟨n, s₁, o₁, hold₁, hres, -, rfl⟩
    · exact h.resumed k s o hold x hx hseq
    · -- The timer of what executes now had stopped at the latency.
      obtain rfl := hc.position_eq hold₁ hold hseq
      obtain ⟨rfl, rfl⟩ := hold₁.unique hold
      have := h.stopped n s₁ o₁ hold hres
      change m.cycle + o₁.cycles < _
      omega
  case latency =>
    intro x hx e he hseq p hp hname
    rw [hm.slots] at hp
    rcases hm.executes hc hx with hx | ⟨n, s, o, hold, -, helapsed, rfl⟩
    · exact h.latency x hx e (hissued e he) hseq p hp hname
    · have hof := hc.isOf hold (hissued e he) hseq.symm
      obtain rfl := eq_toSlot_of_name hnames hold hp (hname.trans hof.station)
      have := h.elapsed n s o hold e (hissued e he) hof.seq
      change e.cycle + s.latency ≤ m.cycle
      omega
  case sent =>
    intro w hw x hx hseq
    rcases hm.mem_writtenBack hc hr hw with hw | ⟨hno, hcycle, hnew⟩ <;>
      rcases hm.executes hc hx with hx | ⟨n, s, o, hold, hres, -, rfl⟩
    · exact h.sent w hw x hx hseq
    · have hexec : w.seq ∈ m.executed.map Entry.seq := hr.seq_of_written (List.mem_map_of_mem hw)
      rw [hseq] at hexec
      exact absurd hexec (hr.not_executed hold hres)
    · exact absurd hseq (hnew x hx)
    · rw [hno]
      exact hcycle
  case oneSent =>
    rcases hm.writes hc hr with hwritten | ⟨w, hwritten, hno, -, -⟩ <;> rw [hwritten]
    · exact h.oneSent
    · refine List.pairwise_append.2 ⟨h.oneSent, List.pairwise_singleton _ _,
        fun a _ b hb _ hyes => ?_⟩
      rw [List.mem_singleton.1 hb, hno] at hyes
      cases hyes

theorem moves {acts : List Act} (h : m.Clocked (m.cycle + 1)) (hc : m.Coherent) (hr : m.Recorded)
    (hnames : m.names.Nodup) (hm : Moves m acts m') : m'.Clocked (m'.cycle + 1) := by
  induction hm with
  | refl => exact h
  | cons first rest ih =>
    refine ih (h.move hc hr hnames first) (first.coherent hc) (hr.move hc first) ?_
    rwa [names, first.slots]

/-- **A result is sent** in a cycle in which none was. It was there before
the cycle, since its timer has gone past the latency. -/
theorem writeBack (h : m.Clocked (m.cycle + 1)) (hc : m.Coherent) (hr : m.Recorded)
    (hnone : ∀ w ∈ m.writtenBack, w.instr.broadcasts → w.cycle < m.cycle)
    (hm : m.writeBack = .ok m') : m'.Clocked (m'.cycle + 1) := by
  have hslots := slots_of_writeBack hm
  rcases writeBack_cases hm with ⟨-, rfl⟩ | ⟨x, hx, rfl⟩
  · exact h
  obtain ⟨hold, hres, hbus, hlate, -⟩ := nextSender?_eq_some hx
  have hwritten : ∀ w ∈ (m.sent x).writtenBack,
      w ∈ m.writtenBack ∨ w = m.entry x.station x.occupant := fun w hw =>
    (List.mem_append.1 hw).imp_right List.mem_singleton.1
  change (m.sent x).Clocked (m.cycle + 1)
  constructor
  case issued => exact h.issued
  case executed => exact h.executed
  case written =>
    intro w hw
    rcases hwritten w hw with hw | rfl
    · exact h.written w hw
    · exact Nat.lt_succ_self _
  case inTurn => exact h.inTurn
  case stationed =>
    rw [hslots]
    exact h.stationed
  case elapsed =>
    intro k s' o' hold' e he hseq
    obtain ⟨s, o, hold, -, -, hseq', hcycles⟩ := holds_of_writeBack hm hold'
    rw [hcycles]
    exact h.elapsed k s o hold e he (hseq.trans hseq')
  case stopped =>
    intro k s' o' hold' hres
    obtain ⟨s, o, hold, hslot, hsame, -, hcycles⟩ := holds_of_writeBack hm hold'
    rw [hcycles, hslot]
    exact h.stopped k s o hold (hsame ▸ hres)
  case resumed =>
    intro k s' o' hold' x hx hseq
    obtain ⟨s, o, hold, hslot, -, hseq', hcycles⟩ := holds_of_writeBack hm hold'
    rw [hcycles, hslot]
    exact h.resumed k s o hold x hx (hseq.trans hseq')
  case latency =>
    rw [hslots]
    exact h.latency
  case sent =>
    intro w hw y hy hseq
    rcases hwritten w hw with hw | rfl
    · exact h.sent w hw y hy hseq
    · rw [show (m.entry x.station x.occupant).instr.broadcasts = true from
        (Instruction.broadcasts_eq (hc.fits _ _ _ hold).unit).trans hbus]
      have := h.resumed _ _ _ hold y hy hseq.symm
      change y.cycle < m.cycle
      omega
  case oneSent =>
    refine List.pairwise_append.2 ⟨h.oneSent, List.pairwise_singleton _ _,
      fun a ha b hb hyes _ => ?_⟩
    rw [List.mem_singleton.1 hb]
    exact hnone a ha hyes

theorem count {c : Nat} (h : m.Clocked now) : Clocked { m with cycle := c } now :=
  { h with }

/-- **A cycle keeps to the clock.** -/
theorem step (h : m.Clocked m.cycle) (hc : m.Coherent) (hr : m.Recorded) (hnames : m.names.Nodup)
    (hm : m.step = .ok m') : m'.Clocked m'.cycle := by
  obtain ⟨m₁, m₂, m₃, h₁, h₂, h₃, rfl, -⟩ := step_eq_ok hm
  have hmoves := execute_moves h₂
  have hc₁ := hc.advance.issue h₁
  have hr₁ := hr.advance.issue hc.advance h₁
  have hnames₁ : m₁.names.Nodup := by
    rwa [names, slots_of_issue h₁, slots_advance]
  have hissue : m₁.cycle = m.cycle ∧ m₁.writtenBack = m.writtenBack := by
    rcases issue_eq_ok h₁ with ⟨i, s, n, -, -, -, -, rfl⟩ | rfl <;> exact ⟨rfl, rfl⟩
  have hclock₁ : m₁.Clocked (m₁.cycle + 1) := h.advance.issue hc.advance hr.advance h.issued h₁
  have hclock₂ := hclock₁.moves hc₁ hr₁ hnames₁ hmoves
  refine (hclock₂.writeBack (hmoves.coherent hc₁) (hr₁.moves hc₁ hmoves) (fun w hw hyes => ?_)
    h₃).count
  rw [hmoves.cycle, hissue.1]
  exact h.written w (hissue.2 ▸ hmoves.mem_writtenBack hc₁ hr₁ hw hyes)

/-- A station is added to a machine that has not run, so it has recorded
nothing. -/
theorem add {slot : Slot} (h : m.Clocked m.cycle) (hslot : m.Admits slot) :
    Clocked { m with stations := m.stations ++ [Station.ofSlot slot] } m.cycle :=
  { h with
    stationed := fun e he => absurd (h.issued e he) (by rw [hslot.cycle]; exact Nat.not_lt_zero _)
    elapsed := fun n s o hold => h.elapsed n s o (holds_added.1 hold)
    stopped := fun n s o hold => h.stopped n s o (holds_added.1 hold)
    resumed := fun n s o hold => h.resumed n s o (holds_added.1 hold)
    latency := fun x hx => absurd (h.executed x hx) (by rw [hslot.cycle]; exact Nat.not_lt_zero _) }

theorem configures (h : m.Clocked m.cycle) (hm : Configures m m') : m'.Clocked m'.cycle := by
  rcases hm.added_or_loads with ⟨slot, hslot, rfl⟩ | ⟨_, _, _, _, rfl⟩
  · exact h.add hslot
  · exact { h with }

end Clocked

/-- No two stations of a reachable machine have one name. -/
theorem Reachable.nodup_names (h : Reachable m) : m.names.Nodup := by
  induction h with
  | made h => exact (Configured.made h).nodup_names
  | call _ call ih =>
    rcases call.added_or_loads with ⟨slot, hslot, rfl⟩ | ⟨_, _, _, _, rfl⟩
    · exact hslot.nodup_names ih
    · exact ih
  | step _ hm ih => rwa [names, slots_of_step hm]

/-- Nothing has been recorded in a machine without stations. -/
theorem clocked_bare (offsetsChecked relativeCalls : Bool) :
    Clocked { offsetsChecked := offsetsChecked, relativeCalls := relativeCalls } 0 where
  issued _ he := absurd he List.not_mem_nil
  executed _ hx := absurd hx List.not_mem_nil
  written _ hw := absurd hw List.not_mem_nil
  inTurn := .nil
  stationed _ he := absurd he List.not_mem_nil
  elapsed _ _ _ hold := absurd hold (fresh_bare ..).not_holds
  stopped _ _ _ hold := absurd hold (fresh_bare ..).not_holds
  resumed _ _ _ hold := absurd hold (fresh_bare ..).not_holds
  latency _ hx := absurd hx List.not_mem_nil
  sent _ hw := absurd hw List.not_mem_nil
  oneSent := .nil

/-- **A reachable machine keeps to the clock.** -/
theorem Reachable.clocked (h : Reachable m) : m.Clocked m.cycle := by
  induction h with
  | made h =>
    exact ofTable_induction (P := fun m => m.Clocked m.cycle) (fun _ _ h hslot => h.add hslot)
      (clocked_bare _ _) h
  | call _ call ih => exact ih.configures call
  | step h hm ih => exact ih.step h.coherent h.recorded h.nodup_names hm

/-! ## The rows of the table -/

section Rows

variable {l : List Entry} {q : Int} {c : Nat}

/-- A cycle that is found is that of an entry of the number. -/
theorem exists_of_cycleOf? (h : cycleOf? l q = some c) : ∃ x ∈ l, x.seq = q ∧ x.cycle = c := by
  rw [cycleOf?, List.findRev?_eq_find?_reverse] at h
  obtain ⟨x, hx, rfl⟩ := Option.map_eq_some_iff.1 h
  have hseq := List.find?_some hx
  exact ⟨x, List.mem_reverse.1 (List.mem_of_find?_eq_some hx), of_decide_eq_true hseq, rfl⟩

theorem cycleOf?_isSome_iff : (cycleOf? l q).isSome ↔ ∃ x ∈ l, x.seq = q := by
  rw [cycleOf?, List.findRev?_eq_find?_reverse, Option.isSome_map, List.find?_isSome]
  simp only [List.mem_reverse, decide_eq_true_eq]

end Rows

/-- The name of a row finds the station of the slot. -/
theorem exists_station? {p : Slot} (hp : p ∈ m.slots) (hnames : m.names.Nodup) :
    ∃ s, m.station? p.name = some s ∧ s.toSlot = p := by
  obtain ⟨s₀, hs₀, rfl⟩ := List.mem_map.1 hp
  rcases hs : m.station? s₀.name with - | s
  · exact absurd rfl (station?_eq_none_iff.1 hs s₀ hs₀)
  · obtain ⟨hmem, hname⟩ := mem_of_station? hs
    exact ⟨s, rfl, List.inj_on_of_nodup_map hnames (List.mem_map_of_mem hmem) hp hname⟩

theorem latency_timingRow :
    (m.timingRow e).latency =
      (m.timingRow e).writtenBack.map fun w : Nat => (w : Int) - (m.timingRow e).issued := by
  dsimp only [timingRow]
  rcases cycleOf? m.writtenBack e.seq with - | c <;> rfl

/-- What was written back is said to be the instruction that was issued. -/
theorem Accounted.instr_eq {w : Entry} (ha : m.Accounted) (hc : m.Coherent) (he : e ∈ m.issued)
    (hw : w ∈ m.writtenBack) (hseq : w.seq = e.seq) : w.instr = e.instr := by
  obtain ⟨e', he', heq, -⟩ := ha.left w hw
  obtain rfl := hc.inOrder.eq_of_seq_eq he' he (by rw [← hseq, heq])
  rw [heq]

/-- **Every issue has a row that can have happened.** -/
theorem Clocked.possible (h : m.Clocked m.cycle) (hr : m.Recorded) (ha : m.Accounted)
    (hc : m.Coherent) (hnames : m.names.Nodup) (he : e ∈ m.issued) :
    ∃ s, m.station? (m.timingRow e).station = some s ∧
      (m.timingRow e).Possible e.instr.broadcasts s.latency m.cycle := by
  obtain ⟨p, hp, hname⟩ := h.stationed e he
  obtain ⟨s, hs, rfl⟩ := exists_station? hp hnames
  refine ⟨s, by rw [← hs, hname]; rfl, ?_⟩
  -- What was written back was executed, and not before its latency had gone by.
  have hdone : ∀ w ∈ m.writtenBack, w.seq = e.seq →
      ∃ x ∈ m.executed, x.seq = e.seq ∧ w.seq = x.seq := by
    intro w hw hseq
    obtain ⟨x, hx, heq⟩ := hr.executed w hw
    exact ⟨x, hx, (Entry.seq_eq_of_untimed heq).symm.trans hseq, Entry.seq_eq_of_untimed heq⟩
  have hdelay : ∀ x ∈ m.executed, x.seq = e.seq → e.cycle + s.latency ≤ x.cycle :=
    fun x hx hseq => h.latency x hx e he hseq s.toSlot hp hname
  constructor
  case executed =>
    intro hsome
    obtain ⟨w, hw, hseq⟩ := cycleOf?_isSome_iff.1 hsome
    obtain ⟨x, hx, hseq, -⟩ := hdone w hw hseq
    exact cycleOf?_isSome_iff.2 ⟨x, hx, hseq⟩
  case delay =>
    intro c hcycle
    obtain ⟨x, hx, hseq, rfl⟩ := exists_of_cycleOf? hcycle
    exact hdelay x hx hseq
  case sent =>
    intro c c' hcycle hcycle'
    obtain ⟨x, hx, hseq, rfl⟩ := exists_of_cycleOf? hcycle
    obtain ⟨w, hw, hseq', rfl⟩ := exists_of_cycleOf? hcycle'
    rw [← ha.instr_eq hc he hw hseq']
    exact h.sent w hw x hx (hseq'.trans hseq.symm)
  case total => exact latency_timingRow
  case atLeast =>
    intro c hcycle
    rw [latency_timingRow] at hcycle
    obtain ⟨c', hcycle', rfl⟩ := Option.map_eq_some_iff.1 hcycle
    obtain ⟨w, hw, hseq, rfl⟩ := exists_of_cycleOf? hcycle'
    obtain ⟨x, hx, hseq', heq⟩ := hdone w hw hseq
    have hlate : x.cycle ≤ w.cycle := by
      have := h.sent w hw x hx heq
      split at this <;> omega
    have := hdelay x hx hseq'
    change (s.latency : Int) ≤ w.cycle - e.cycle
    omega
  case issuedPast => exact h.issued e he
  case executedPast =>
    intro c hcycle
    obtain ⟨x, hx, -, rfl⟩ := exists_of_cycleOf? hcycle
    exact h.executed x hx
  case writtenPast =>
    intro c hcycle
    obtain ⟨w, hw, -, rfl⟩ := exists_of_cycleOf? hcycle
    exact h.written w hw

/-- **Two results are sent in two cycles.** -/
theorem Clocked.ne_of_sent {a b wa wb : Entry} (h : m.Clocked now) (ha : m.Accounted)
    (hc : m.Coherent) (hae : a ∈ m.issued) (hbe : b ∈ m.issued) (hne : a.seq ≠ b.seq)
    (hyes : a.instr.broadcasts) (hyes' : b.instr.broadcasts) (hwa : wa ∈ m.writtenBack)
    (hwb : wb ∈ m.writtenBack) (hseq : wa.seq = a.seq) (hseq' : wb.seq = b.seq) :
    wa.cycle ≠ wb.cycle := by
  have hapart : m.writtenBack.Pairwise fun x y =>
      x.instr.broadcasts → y.instr.broadcasts → x.cycle ≠ y.cycle :=
    h.oneSent.imp fun hlt hx hy => Nat.ne_of_lt (hlt hx hy)
  have : Std.Symm fun x y : Entry =>
      x.instr.broadcasts → y.instr.broadcasts → x.cycle ≠ y.cycle :=
    ⟨fun _ _ hxy hy hx => (hxy hx hy).symm⟩
  rw [← ha.instr_eq hc hae hwa hseq] at hyes
  rw [← ha.instr_eq hc hbe hwb hseq'] at hyes'
  refine hapart.forall hwa hwb (fun heq => hne ?_) hyes hyes'
  rw [← hseq, ← hseq', heq]

/-- **The timing table is possible.** Its rows are those of the issues, of
all or of one address. No two of them were issued in one cycle, and the order
of their cycles is that of their numbers. No two results were sent in one
cycle. And each row can have happened, in the station it names. -/
theorem timing_possible (h : Reachable m) (address : Option Int) :
    ∃ l : List Entry, m.timingRows address = l.map m.timingRow ∧
      l.Perm (m.issued.filter fun e => address.all fun a => e.pc = a) ∧
      (l.Pairwise fun a b => (m.timingRow a).issued ≠ (m.timingRow b).issued ∧
        (a.seq < b.seq ↔ (m.timingRow a).issued < (m.timingRow b).issued)) ∧
      (l.Pairwise fun a b => a.instr.broadcasts → b.instr.broadcasts →
        ∀ w, (m.timingRow a).writtenBack = some w → (m.timingRow b).writtenBack ≠ some w) ∧
      ∀ e ∈ l, ∃ s, m.station? (m.timingRow e).station = some s ∧
        (m.timingRow e).Possible e.instr.broadcasts s.latency m.cycle := by
  have hc := h.coherent
  have ha := h.accounted
  have hclock := h.clocked
  have hperm : (sortBy rowOrder (m.issued.filter fun e => address.all fun a => e.pc = a)).Perm
      (m.issued.filter fun e => address.all fun a => e.pc = a) := by
    rw [sortBy_eq_insertionSort]
    exact List.perm_insertionSort ..
  set l := sortBy rowOrder (m.issued.filter fun e => address.all fun a => e.pc = a) with hl
  have hissued : ∀ e ∈ l, e ∈ m.issued := fun e he => (List.mem_filter.1 (hperm.mem_iff.1 he)).1
  -- The rows are in another order, but any two of them are ordered by number and cycle alike.
  have hordered : l.Pairwise fun a b =>
      (a.seq < b.seq ∧ a.cycle < b.cycle) ∨ (b.seq < a.seq ∧ b.cycle < a.cycle) := by
    refine List.Perm.pairwise hperm.symm (List.Pairwise.filter _ ?_) Or.symm
    exact (hc.inOrder.and hclock.inTurn).imp .inl
  refine ⟨l, rfl, hperm, hordered.imp fun hab => ?_, ?_, fun e he =>
    hclock.possible h.recorded ha hc h.nodup_names (hissued e he)⟩
  · dsimp only [timingRow]
    omega
  · refine hordered.imp_of_mem fun {a b} hal hbl hab hyes hyes' c hcycle hcycle' => ?_
    obtain ⟨wa, hwa, hseq, rfl⟩ := exists_of_cycleOf? hcycle
    obtain ⟨wb, hwb, hseq', heq⟩ := exists_of_cycleOf? hcycle'
    exact hclock.ne_of_sent ha hc (hissued a hal) (hissued b hbl) (by omega) hyes hyes' hwa hwb hseq
      hseq' heq.symm

/-- After its seven cycles the sample has the rows of an addition, a branch
and a store. -/
theorem timing_possible_sample :
    ∃ m, sample.steps 7 = .ok m ∧ (m.timingRows none).length = 3 ∧
      ∃ l : List Entry, m.timingRows none = l.map m.timingRow ∧
        ∀ e ∈ l, ∃ s, m.station? (m.timingRow e).station = some s ∧
          (m.timingRow e).Possible e.instr.broadcasts s.latency m.cycle := by
  obtain ⟨m, hm, h⟩ := exists_of_any (x := sample.steps 7) (p := fun m => m.issued.length = 3)
    (by decide +kernel)
  obtain ⟨l, hrows, hperm, -, -, hpossible⟩ :=
    timing_possible (configured_sample.reachable.steps hm) none
  refine ⟨m, hm, ?_, l, hrows, hpossible⟩
  calc (m.timingRows none).length
      = l.length := by rw [hrows, List.length_map]
    _ = m.issued.length :=
      hperm.length_eq.trans (congrArg List.length (List.filter_eq_self.2 fun _ _ => rfl))
    _ = 3 := of_decide_eq_true h

end Machine

end OutOfOrder
