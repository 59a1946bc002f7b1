import OutOfOrder.Proofs.Reachable
/-!
# The histories account for every instruction

What has been issued is in one of two places. Either a station holds it, or
it has left its station, and then the history of write-backs says so; and
nothing is in that history that is still in flight, or was dropped. So
whether a call has written the link register can be read off the history as
well as off the stations (`any_writtenBack_iff`).
-/

namespace OutOfOrder

namespace Machine

variable {m m' : Machine} {n : Nat} {s : Station} {o : Occupant} {e x : Entry} {q : Int}

/-- **The histories account for what is in flight.** -/
structure Accounted (m : Machine) : Prop where
  /-- What was issued names a station of the pool. -/
  placed : ∀ e ∈ m.issued, 0 ≤ e.tag ∧ e.tag < m.stations.length
  /-- What has been written back was issued, and is in no station. -/
  left : ∀ x ∈ m.writtenBack, ∃ e ∈ m.issued, x = { e with cycle := x.cycle } ∧ e.seq ∉ m.flight
  /-- What was issued is in a station, unless it has been written back. -/
  settled : ∀ e ∈ m.issued, e.seq ∈ m.flight ∨ ∃ x ∈ m.writtenBack, x.seq = e.seq

namespace Accounted

/-- **An instruction has been written back when it is not in flight.** -/
theorem any_writtenBack_iff (h : m.Accounted) (he : e ∈ m.issued) :
    (m.writtenBack.any fun x => x.seq = e.seq) = true ↔ e.seq ∉ m.flight := by
  simp only [List.any_eq_true, decide_eq_true_eq]
  constructor
  · rintro ⟨x, hx, hseq⟩
    obtain ⟨e', -, heq, hgone⟩ := h.left x hx
    rw [← hseq, show x.seq = e'.seq by rw [heq]]
    exact hgone
  · intro hgone
    exact (h.settled e he).resolve_left hgone

/-! ## What keeps the account -/

/-- Nothing is issued and nothing leaves its station. -/
theorem congr (h : m.Accounted) (hflight : ∀ q, q ∈ m'.flight ↔ q ∈ m.flight)
    (hissued : m'.issued = m.issued) (hwritten : m'.writtenBack = m.writtenBack)
    (hlen : m.stations.length ≤ m'.stations.length) : m'.Accounted where
  placed e he := by
    obtain ⟨hnonneg, hlt⟩ := h.placed e (hissued ▸ he)
    exact ⟨hnonneg, Int.lt_of_lt_of_le hlt (Int.ofNat_le.2 hlen)⟩
  left x hx := by
    rw [hwritten] at hx
    obtain ⟨e, he, heq, hgone⟩ := h.left x hx
    exact ⟨e, hissued ▸ he, heq, fun hf => hgone ((hflight _).1 hf)⟩
  settled e he := by
    rw [hissued] at he
    rw [hwritten, hflight]
    exact h.settled e he

/-- **One instruction leaves its station**, and is written back. -/
theorem leave (h : m.Accounted) (hc : m.Coherent) (hold : m.Holds n s o)
    (hr : Released m m' n o) (hwritten : m'.writtenBack = m.writtenBack ++ [m.entry s o])
    (hlen : m'.stations.length = m.stations.length) : m'.Accounted where
  placed e he := by
    rw [hlen]
    exact h.placed e (hr.issued ▸ he)
  left x hx := by
    rw [hwritten] at hx
    rcases List.mem_append.1 hx with hx | hx
    · obtain ⟨e, he, heq, hgone⟩ := h.left x hx
      exact ⟨e, hr.issued ▸ he, heq, fun hf => hgone ((hr.mem_flight_iff hc hold).1 hf).1⟩
    · obtain ⟨e, he, hof⟩ := hc.owner n s o hold
      refine ⟨e, hr.issued ▸ he, ?_, hof.seq ▸ hr.not_mem_flight hc hold⟩
      rw [List.mem_singleton.1 hx, entry, ← hof.seq, ← hof.tag, ← hof.instr, ← hof.pc,
        ← hof.station]
  settled e he := by
    rw [hr.issued] at he
    rw [hwritten]
    rcases h.settled e he with hf | ⟨x, hx, hseq⟩
    · rcases hr.mem_flight_or hc hold hf with hf | hseq
      · exact .inl hf
      · exact .inr ⟨_, List.mem_append_right _ List.mem_cons_self, hseq.symm⟩
    · exact .inr ⟨x, List.mem_append_left _ hx, hseq⟩

/-- **A branch is taken.** What is dropped was in flight, so nothing that has
been written back is. -/
theorem branched {i : Nat} {target : Word} {saved : StatusTable} (h : m.Accounted)
    (hc : m.Coherent) (hold : m.Holds n s o) (kind : s.kind = .beq)
    (hfind : (m.issued.findIdx? fun e => e.seq = o.seq) = some i) :
    (m.branched n s o target (m.issued.take (i + 1)) saved).Accounted := by
  obtain ⟨b, hb, hof⟩ := hc.owner n s o hold
  rw [hc.kept_eq hfind hb hof.seq]
  have hwritten : (m.branched n s o target (m.before o.seq ++ [b]) saved).writtenBack =
      m.writtenBack ++ [m.entry s o] := rfl
  have hissued : ∀ e ∈ (m.branched n s o target (m.before o.seq ++ [b]) saved).issued,
      e ∈ m.issued ∧ e.seq ≤ o.seq := by
    intro e he
    rcases mem_issued_branched.1 he with ⟨he, hlt⟩ | rfl
    · exact ⟨he, Int.le_of_lt hlt⟩
    · exact ⟨hb, Int.le_of_eq hof.seq⟩
  constructor
  case placed =>
    intro e he
    obtain ⟨hnonneg, hlt⟩ := h.placed e (hissued e he).1
    refine ⟨hnonneg, ?_⟩
    change e.tag < (((m.stations.map _).set n s.clear).length : Int)
    rwa [List.length_set, List.length_map]
  case left =>
    intro x hx
    rw [hwritten] at hx
    rcases List.mem_append.1 hx with hx | hx
    · obtain ⟨e, he, heq, hgone⟩ := h.left x hx
      -- What was issued after the branch is in flight.
      have hle : e.seq ≤ o.seq := by
        by_contra hlt
        refine hgone (hc.aloft e he fun hpath => hlt ?_)
        exact hpath n s o hold kind
      refine ⟨e, mem_issued_branched.2 ?_, heq,
        fun hf => hgone ((mem_flight_branched hc hold).1 hf).1⟩
      rcases Int.lt_or_eq_of_le hle with hlt | hseq
      · exact .inl ⟨he, hlt⟩
      · exact .inr (hc.inOrder.eq_of_seq_eq he hb (hseq.trans hof.seq.symm))
    · refine ⟨b, mem_issued_branched.2 (.inr rfl), ?_, fun hf => ?_⟩
      · rw [List.mem_singleton.1 hx, entry, ← hof.seq, ← hof.tag, ← hof.instr, ← hof.pc,
          ← hof.station]
      · have := ((mem_flight_branched hc hold).1 hf).2
        have := hof.seq
        omega
  case settled =>
    intro e he
    obtain ⟨he, hle⟩ := hissued e he
    rw [hwritten]
    rcases h.settled e he with hf | ⟨x, hx, hseq⟩
    · rcases Int.lt_or_eq_of_le hle with hlt | hseq
      · exact .inl ((mem_flight_branched hc hold).2 ⟨hf, hlt⟩)
      · exact .inr ⟨_, List.mem_append_right _ List.mem_cons_self, hseq.symm⟩
    · exact .inr ⟨x, List.mem_append_left _ hx, hseq⟩

theorem move {acts : List Act} (h : m.Accounted) (hc : m.Coherent) (hm : Move m acts m') :
    m'.Accounted := by
  cases hm with
  | address hold =>
    exact h.congr (fun _ => (retimed_addressed hold).mem_flight_iff) rfl rfl
      (Nat.le_of_eq (List.length_set ..).symm)
  | load hold =>
    exact h.congr (fun _ => (retimed_resulted hold).mem_flight_iff) rfl rfl
      (Nat.le_of_eq (List.length_set ..).symm)
  | compute hold =>
    exact h.congr (fun _ => (retimed_resulted hold).mem_flight_iff) rfl rfl
      (Nat.le_of_eq (List.length_set ..).symm)
  | store hold => exact h.leave hc hold (released_stored hold _ _) rfl (List.length_set ..)
  | fall hold => exact h.leave hc hold (released_fallen hold) rfl (List.length_set ..)
  | call hold => exact h.leave hc hold (released_called hold _) rfl (List.length_set ..)
  | ret hold =>
    exact h.leave hc hold (released_returned hold _) rfl
      ((List.length_set ..).trans (List.length_set ..))
  | branch hold path kind elapsed htaken himm htarget hfind =>
    exact h.branched hc hold kind hfind

theorem moves {acts : List Act} (h : m.Accounted) (hc : m.Coherent) (hm : Moves m acts m') :
    m'.Accounted := by
  induction hm with
  | refl => exact h
  | cons first rest ih => exact ih (h.move hc first) (first.coherent hc)

theorem advance (h : m.Accounted) : m.advance.Accounted :=
  h.congr (fun _ => retimed_advance.mem_flight_iff) rfl rfl (Nat.le_of_eq (List.length_map ..).symm)

/-- What is issued now is in flight, under a number that is new. -/
theorem issue (h : m.Accounted) (hc : m.Coherent) (hm : m.issue = .ok m') : m'.Accounted := by
  rcases issue_eq_ok hm with ⟨i, s, n, -, -, hs, hfree, rfl⟩ | rfl
  · have hlen : (m.dispatched i s n).stations.length = m.stations.length := List.length_set ..
    constructor
    case placed =>
      intro e he
      rw [hlen]
      rcases mem_issued_dispatched.1 he with he | rfl
      · exact h.placed e he
      · have htag : s.tag = n := hc.tags n s hs
        have hlt := (List.getElem?_eq_some_iff.1 hs).1
        change 0 ≤ s.tag ∧ s.tag < m.stations.length
        rw [htag]
        exact ⟨Int.natCast_nonneg n, Int.ofNat_lt.2 hlt⟩
    case left =>
      intro x hx
      obtain ⟨e, he, heq, hgone⟩ := h.left x hx
      refine ⟨e, mem_issued_dispatched.2 (.inl he), heq, fun hf => hgone ?_⟩
      exact (mem_flight_dispatched_iff hs hfree (hc.fresh e he)).1 hf
    case settled =>
      intro e he
      rw [mem_flight_dispatched hs hfree]
      rcases mem_issued_dispatched.1 he with he | rfl
      · exact (h.settled e he).imp_left .inl
      · exact .inl (.inr rfl)
  · exact h

theorem writeBack (h : m.Accounted) (hc : m.Coherent) (hm : m.writeBack = .ok m') :
    m'.Accounted := by
  rcases writeBack_cases hm with ⟨-, rfl⟩ | ⟨x, hx, rfl⟩
  · exact h
  · exact h.leave hc (nextSender?_eq_some hx).1 released_sent rfl (List.length_mapIdx ..)

/-- **A cycle keeps the account.** -/
theorem step (h : m.Accounted) (hc : m.Coherent) (hm : m.step = .ok m') : m'.Accounted := by
  obtain ⟨m₁, m₂, m₃, h₁, h₂, h₃, rfl, -⟩ := step_eq_ok hm
  have hc₁ := hc.advance.issue h₁
  have hmoves := execute_moves h₂
  have ha := ((h.advance.issue hc.advance h₁).moves hc₁ hmoves).writeBack (hmoves.coherent hc₁) h₃
  exact ha.congr (fun _ => Iff.rfl) rfl rfl (Nat.le_refl _)

/-- A station is added. It holds nothing. -/
theorem add (h : m.Accounted) (slot : Slot) :
    Accounted { m with stations := m.stations ++ [Station.ofSlot slot] } := by
  refine h.congr (fun q => ?_) rfl rfl ?_
  · simp only [mem_flight, holds_added]
  · rw [List.length_append]
    exact Nat.le_add_right ..

theorem configures (h : m.Accounted) (hm : Configures m m') : m'.Accounted := by
  rcases hm.added_or_loads with ⟨slot, -, rfl⟩ | ⟨_, _, _, _, rfl⟩
  · exact h.add slot
  · exact h.congr (fun _ => Iff.rfl) rfl rfl (Nat.le_refl _)

end Accounted

/-- **A reachable machine accounts for every instruction.** -/
theorem Reachable.accounted (h : Reachable m) : m.Accounted := by
  induction h with
  | made h =>
    refine ofTable_induction (fun _ slot h _ => h.add slot) ?_ h
    exact ⟨nofun, nofun, nofun⟩
  | call _ call ih => exact ih.configures call
  | step h hm ih => exact ih.step h.coherent hm

end Machine

end OutOfOrder
