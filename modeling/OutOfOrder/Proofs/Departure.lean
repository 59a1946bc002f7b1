import OutOfOrder.Proofs.Histories
import OutOfOrder.Proofs.Oldest
import OutOfOrder.Proofs.Runs
/-!
# The oldest instruction leaves

Whatever is issued, stalled or dropped after it, the oldest instruction in
flight is out of its station within one cycle more than its latency, and it
leaves by being written back.

That it is out follows from `wait`. Nothing that is issued later is older,
so the oldest stays the oldest for as long as it is in flight, and each
cycle takes one from what it has to wait (`Oldest.waits_or_left`). That it
was written back follows from the path. A taken branch drops only what is
speculative, and the oldest instruction is on the path, which never loses an
entry (`Coherent.extends_steps`); what was issued and is in no station has
been written back.

Nothing is assumed of the program: it may write to its own code, and it need
not end.
-/

namespace OutOfOrder

namespace Machine

variable {m m' : Machine} {n k cycles : Nat} {s s' : Station} {o o' : Occupant}
variable {e : Entry} {q : Int}

/-! ## It stays the oldest -/

/-- What is in flight after a cycle is no older than what was the oldest. -/
theorem Oldest.le_of_step (h : m.Oldest n s o) (hc : m.Coherent) (hm : m.step = .ok m')
    (hq : q ∈ m'.flight) : o.seq ≤ q := by
  rcases hc.mem_flight_of_step hm hq with hq | rfl
  · exact h.le q hq
  · exact Int.le_of_lt (hc.owned_seq_lt h.hold)

/-- **After a cycle the oldest instruction has less to wait, or has left.** -/
theorem Oldest.step (h : m.Oldest n s o) (hc : m.Coherent) (hm : m.step = .ok m')
    (hf : o.seq ∈ m'.flight) :
    ∃ n' s' o', m'.Oldest n' s' o' ∧ o'.seq = o.seq ∧ wait s' o' < wait s o := by
  obtain ⟨n', s', o', hold', hseq⟩ := mem_flight.1 hf
  exact ⟨n', s', o', ⟨hold', fun _ hq => hseq ▸ h.le_of_step hc hm hq⟩, hseq,
    h.wait_lt hc hm hold' hseq⟩

/-- **The cycles of a run are taken from the wait** of the oldest
instruction, until it has left. -/
theorem Oldest.waits_or_left (h : m.Oldest n s o) (hc : m.Coherent)
    (hm : m.steps cycles = .ok m') :
    (∃ n' s' o', m'.Oldest n' s' o' ∧ o'.seq = o.seq ∧ wait s' o' + cycles ≤ wait s o) ∨
      o.seq ∉ m'.flight ∧ o.seq < m'.nextSeq := by
  induction cycles generalizing m' with
  | zero =>
    cases hm
    exact .inl ⟨n, s, o, h, rfl, Nat.le_refl _⟩
  | succ cycles ih =>
    obtain ⟨m₁, h₁, hstep⟩ := times_succ_eq_ok.1 hm
    have hc₁ := hc.steps h₁
    rcases ih h₁ with ⟨n₁, s₁, o₁, ho₁, hseq₁, hwait⟩ | ⟨hgone, hlt⟩
    · by_cases hf : o.seq ∈ m'.flight
      · obtain ⟨n', s', o', ho', hseq', hless⟩ := ho₁.step hc₁ hstep (hseq₁ ▸ hf)
        exact .inl ⟨n', s', o', ho', hseq'.trans hseq₁, by omega⟩
      · have hlt := Int.lt_of_lt_of_le (hc₁.owned_seq_lt ho₁.hold) (nextSeq_le_of_step hstep)
        exact .inr ⟨hf, hseq₁ ▸ hlt⟩
    · exact .inr (hc₁.not_mem_flight_of_step hstep hgone hlt)

/-! ## It is not dropped -/

/-- **What was issued and is in no station has been written back**, as the
instruction it was issued as. -/
theorem Accounted.exists_written (ha : m.Accounted) (hc : m.Coherent) (he : e ∈ m.issued)
    (hgone : e.seq ∉ m.flight) : ∃ x ∈ m.writtenBack, x = { e with cycle := x.cycle } := by
  obtain ⟨x, hx, hseq⟩ := (ha.settled e he).resolve_left hgone
  obtain ⟨e', he', heq, -⟩ := ha.left x hx
  obtain rfl := hc.inOrder.eq_of_seq_eq he' he (by rw [← hseq, heq])
  exact ⟨x, hx, heq⟩

/-- **The oldest instruction in flight always gets out.** One cycle more than
its latency is enough: by then no station holds it, and it has been written
back. -/
theorem oldest_leaves (h : Reachable m) (ho : m.Oldest n s o)
    (hm : m.steps (s.latency + 1) = .ok m') :
    (∀ k s' o', m'.Holds k s' o' → o'.seq ≠ o.seq) ∧ ∃ x ∈ m'.writtenBack, x.IsOf s o := by
  have hc := h.coherent
  have hgone : o.seq ∉ m'.flight := by
    rcases ho.waits_or_left hc hm with ⟨n', s', o', -, -, hwait⟩ | ⟨hgone, -⟩
    · -- The cycles are more than it had to wait.
      have hpos : 0 < wait s' o' := Nat.succ_pos _
      have hle := wait_le s o
      omega
    · exact hgone
  refine ⟨fun k s' o' hold' hseq => hgone (hseq ▸ hold'.mem_flight), ?_⟩
  obtain ⟨e, he, hof⟩ := hc.owner n s o ho.hold
  have hpath : e ∈ m.path := hc.mem_path.2 ⟨he, hof.seq ▸ ho.onPath⟩
  have hc' := hc.steps hm
  have he' := (hc'.mem_path.1 ((hc.extends_steps hm).mem_path hpath)).1
  obtain ⟨x, hx, heq⟩ :=
    (h.steps hm).accounted.exists_written hc' he' (by rw [hof.seq]; exact hgone)
  rw [heq] at hx
  exact ⟨_, hx, ⟨hof.seq, hof.tag, hof.instr, hof.pc, hof.station⟩⟩

/-- A program that never ends: a branch to itself, with an addition behind it
that is issued each time and dropped each time. -/
def endlessSample : Machine :=
  left (samplePool.loadProgram [.beq 0 0 (-1), .alu .add 1 2 3] 0 [] [])

/-- After two cycles of the endless program the branch is the oldest and the
addition is speculative. Three cycles later the branch has been written
back. -/
theorem oldest_leaves_endlessSample :
    ∃ m s o m', endlessSample.steps 2 = .ok m ∧ m.Oldest 1 s o ∧ m.issued.length = 2 ∧
      m.steps (s.latency + 1) = .ok m' ∧ (∀ k s' o', m'.Holds k s' o' → o'.seq ≠ o.seq) ∧
      ∃ x ∈ m'.writtenBack, x.IsOf s o := by
  have hreach : Reachable endlessSample :=
    (Configured.call configured_samplePool (.loadProgram ..)).reachable
  have hran : ((endlessSample.steps 2).toOption.any fun m => (m.occupied? 1).any fun p =>
      (m.flight.all fun q => p.2.seq ≤ q) && decide (m.issued.length = 2) &&
        (m.steps (p.1.latency + 1)).toOption.isSome) = true := by
    decide +kernel
  obtain ⟨m, hm, h⟩ := exists_of_any hran
  obtain ⟨⟨s, o⟩, hocc, h⟩ := (Option.any_eq_true ..).1 h
  simp only [Bool.and_eq_true, List.all_eq_true, decide_eq_true_eq] at h
  obtain ⟨⟨hle, hissued⟩, hrun⟩ := h
  have ho : m.Oldest 1 s o := ⟨occupied?_eq_some_iff.1 hocc, hle⟩
  rcases hm' : m.steps (s.latency + 1) with t | m'
  · rw [hm'] at hrun
    cases hrun
  · exact ⟨m, s, o, m', hm, ho, hissued, hm', oldest_leaves (hreach.steps hm) ho hm'⟩

end Machine

end OutOfOrder
