import OutOfOrder.Proofs.Arbitration
/-!
# The oldest instruction

Nothing is in the way of the oldest instruction in flight. It waits for no
operand and no access, it is on the path, it takes the first turn of the
Execute stage, and its result is the first that can go out on the bus.

`wait` counts the cycles that it has to stay at most. A cycle either frees
its station or leaves it with less to wait (`Oldest.wait_lt`).
-/

namespace OutOfOrder

namespace Machine

variable {m m' : Machine} {n k : Nat} {s s' : Station} {o o' : Occupant} {e : Entry} {q : Int}
variable {barrier : Option Int} {v : Int}

/-- The station holds the oldest instruction in flight. -/
structure Oldest (m : Machine) (n : Nat) (s : Station) (o : Occupant) : Prop where
  hold : m.Holds n s o
  le : ∀ q ∈ m.flight, o.seq ≤ q

/-- Where anything is in flight something is the oldest. -/
theorem exists_oldest (hold : m.Holds k s' o') : ∃ n s o, m.Oldest n s o := by
  rcases hmin : m.flight.min? with - | q
  · rw [List.min?_eq_none_iff] at hmin
    have := hold.mem_flight
    rw [hmin] at this
    cases this
  · obtain ⟨hq, hle⟩ := List.min?_eq_some_iff.1 hmin
    obtain ⟨n, s, o, hold, rfl⟩ := mem_flight.1 hq
    exact ⟨n, s, o, hold, hle⟩

theorem exists_oldest_of_not_empty (h : ¬ ∀ n s o, ¬ m.Holds n s o) : ∃ n s o, m.Oldest n s o := by
  by_contra hnone
  exact h fun _ _ _ hold => hnone (exists_oldest hold)

/-! ## Nothing is in its way -/

namespace Oldest

theorem onPath (h : m.Oldest n s o) : m.OnPath o.seq := fun _ _ _ hold _ => h.le _ hold.mem_flight

/-- What was issued before it has left. -/
theorem producer?_eq_none (h : m.Oldest n s o) (r : Reg) :
    m.producer? (m.before o.seq) r = none := by
  rw [producer?_eq_none_iff]
  refine .inr fun w hw hf => ?_
  have hlt := (mem_before.1 (mem_of_lastWriter hw).1).2
  have hle := h.le _ hf
  omega

/-- **It waits for no operand.** -/
theorem ready (h : m.Oldest n s o) (hc : m.Coherent) : o.ready := by
  have supplied : ∀ {source : Option Reg} {x : Operand}, m.Supplies (m.before o.seq) source x →
      x.ready := by
    intro source x hx
    rcases source with - | r
    · rw [show x = .unused from hx]
      rfl
    · simp only [Supplies, h.producer?_eq_none] at hx
      obtain ⟨v, rfl⟩ := hx
      rfl
  obtain ⟨hj, hk⟩ := hc.sources n s o h.hold
  rw [Occupant.ready, supplied hj, supplied hk]
  rfl

/-- **It waits for no access.** -/
theorem hazard?_eq_none (h : m.Oldest n s o) (hc : m.Coherent) : m.hazard? n s o = none := by
  rw [hazard?_eq_none_iff]
  intro k s' hs' hk
  rcases ho' : s'.occupant with - | o'
  · rw [blocks, ho', Option.any_none]
  have hold' : m.Holds k s' o' := ⟨hs', ho'⟩
  have hlt : ¬ o'.seq ≤ o.seq := fun hle =>
    hk (hc.position_eq hold' h.hold (Int.le_antisymm hle (h.le _ hold'.mem_flight)))
  simp [blocks, ho', hlt]

/-- **It takes the first turn.** -/
theorem inFlight_eq_cons (h : m.Oldest n s o) (hc : m.Coherent) :
    ∃ rest, m.inFlight = n :: rest := by
  obtain ⟨older, younger, heq, holder, -⟩ := hc.turnOrder_eq_append h.hold
  have hnil : older = [] := by
    rw [List.eq_nil_iff_forall_not_mem]
    rintro ⟨q, k⟩ hmem
    have hlt := holder _ hmem
    obtain ⟨s', o', hold', rfl⟩ := mem_turnOrder.1 (show (q, k) ∈ m.turnOrder by
      rw [heq]
      exact List.mem_append_left _ hmem)
    have hle := h.le _ hold'.mem_flight
    omega
  exact ⟨younger.map Prod.snd, by rw [inFlight_eq, heq, hnil]; rfl⟩

/-- **Its result goes out first.** -/
theorem nextSender?_eq (h : m.Oldest n s o) (hc : m.Coherent) (hv : s.result = some v)
    (hlate : s.latency < o.cycles) : m.nextSender? = some ⟨n, s, o, v⟩ := by
  have hbus := ((hc.fits n s o h.hold).result v hv).1
  exact hc.nextSender?_eq_some_iff.2
    ⟨⟨h.hold, hbus, hv, hlate, h.onPath⟩, fun y hy => h.le _ hy.hold.mem_flight⟩

/-! ## Its turn -/

/-- Where it is not in flight any more there is nothing to show. -/
theorem absurd_of_left {p : Prop} (hleft : o.seq ∉ m'.flight) (hold' : m'.Holds k s' o')
    (hseq : o'.seq = o.seq) : p :=
  absurd (hseq ▸ hold'.mem_flight) hleft

/-- A station that gets its result has it. -/
theorem resulted (hc : m.Coherent) (hold : m.Holds n s o)
    (hold' : (m.resulted n s o v).Holds k s' o') (hseq : o'.seq = o.seq) : s'.result.isSome := by
  rcases (holds_resulted hold).1 hold' with ⟨-, rfl, -⟩ | ⟨hk, hold'⟩
  · rfl
  · exact absurd (hc.position_eq hold' hold hseq) hk

/-- **Its access is made** when it is due. -/
theorem access (h : m.Oldest n s o) (hc : m.Coherent) (kind : s.kind = .load ∨ s.kind = .store)
    (due : accessDue s o) (hm : m.access n = .ok m') (hold' : m'.Holds k s' o')
    (hseq : o'.seq = o.seq) : s'.result.isSome := by
  rcases hc.access_eq h.hold kind with ⟨hnot, -⟩ | ⟨a, -, -, -, ⟨-, heq⟩ | ⟨-, v, -, heq⟩⟩
  · rw [due, h.hazard?_eq_none hc] at hnot
    cases hnot
  · rw [heq] at hm
    cases hm
    exact resulted hc h.hold hold' hseq
  · rw [heq] at hm
    cases hm
    have hr := released_stored h.hold a v
    exact absurd_of_left (hr.not_mem_flight hc h.hold) hold' hseq

/-- With the address computed, if it has to be. -/
theorem memory (h : m.Oldest n s o) (hc : m.Coherent) (elapsed : s.latency ≤ o.cycles)
    (hres : s.result = none) (kind : s.kind = .load ∨ s.kind = .store)
    (hm : (m.computeAddress n >>= fun m => m.access n) = .ok m') (hold' : m'.Holds k s' o')
    (hseq : o'.seq = o.seq) : s'.result.isSome := by
  have hold := h.hold
  have kind' := UnitKind.isMemory_iff.2 kind
  have hready : o.j.ready := (hc.ready hold elapsed).1
  have hle := s.addressLatency_le
  rcases hc.computeAddress_eq hold kind' with ⟨hnot, heq⟩ | ⟨base, offset, due, hj, himm, heq⟩
  · rw [heq] at hm
    refine h.access hc kind ?_ hm hold' hseq
    rcases ha : o.addressReady with - | -
    · simp only [Station.addressDue, ha, hready, decide_eq_false_iff_not, Bool.not_false,
        Bool.and_self, Bool.true_and] at hnot
      omega
    · simp only [accessDue, ha, hres, elapsed, Option.isNone_none, decide_true, Bool.and_self]
  · rw [heq] at hm
    -- With its address it is still the oldest.
    have hc₁ := (Move.address hold h.onPath kind' due hj himm).coherent hc
    have hre : Retimed m (m.setStation n (s.withAddress (wrap (base + offset)))) :=
      retimed_addressed hold
    have h₁ : Oldest (m.setStation n (s.withAddress (wrap (base + offset)))) n
        (s.withAddress (wrap (base + offset)))
        { o with imm := some (wrap (base + offset)), addressReady := true } :=
      ⟨(holds_setStation hold.lt_length).2 (.inl ⟨rfl, rfl, Station.withAddress_occupant hold.2⟩),
        fun q hq => h.le q (hre.mem_flight_iff.1 hq)⟩
    refine h₁.access hc₁ kind ?_ hm hold' hseq
    simp only [accessDue, Station.withAddress, hres, Option.isNone_none, Bool.and_self,
      Bool.true_and, decide_eq_true_eq]
    exact elapsed

/-- **Its turn gives it its result, or it leaves**, once the latency has
elapsed. -/
theorem turn (h : m.Oldest n s o) (hc : m.Coherent) (elapsed : s.latency ≤ o.cycles)
    (hm : turn m.barrier m n = .ok m') (hold' : m'.Holds k s' o') (hseq : o'.seq = o.seq) :
    s'.result.isSome := by
  have hold := h.hold
  have hspec : speculative m.barrier o.seq = false := speculative_barrier_eq_false_iff.2 h.onPath
  rcases hres : s.result with - | v
  case some =>
    -- A result that is there stays.
    obtain ⟨s₀, o₀, hold₀, -, hkept, hseq₀, -⟩ :=
      (turn_moves (fun _ => speculative_barrier_eq_false_iff.1) hm).origin hold'
    obtain rfl := hc.position_eq hold₀ hold (hseq₀.symm.trans hseq)
    obtain ⟨rfl, -⟩ := hold₀.unique hold
    exact hkept (by rw [hres]; rfl)
  rw [Machine.turn, occupied?_eq_some_iff.2 hold] at hm
  dsimp only at hm
  rw [if_neg (by rw [hspec]; decide)] at hm
  rcases hk : s.kind with _ | _ | _ | _ | _ | _ | _ <;> simp only [hk] at hm
  case load => exact h.memory hc elapsed hres (.inl hk) hm hold' hseq
  case store => exact h.memory hc elapsed hres (.inr hk) hm hold' hseq
  case beq =>
    rw [if_pos elapsed] at hm
    rcases hc.resolveBranch_eq hold hk with
      ⟨-, heq⟩ | ⟨_, _, _, -, -, -, -, -, ⟨_, -, heq⟩ | ⟨-, heq⟩⟩ <;> rw [heq] at hm <;> cases hm
    · have hr := released_fallen hold
      exact absurd_of_left (hr.not_mem_flight hc hold) hold' hseq
    · exact absurd_of_left (fun hf => lt_irrefl _ ((mem_flight_branched hc hold).1 hf).2) hold' hseq
  case callRet =>
    rw [if_pos elapsed] at hm
    rcases hc.resolveJump_eq hold hk elapsed with
      ⟨target, ⟨-, -, heq⟩ | ⟨heq, -⟩⟩ | ⟨_, -, -, -, heq⟩ <;> rw [heq] at hm <;> cases hm
    · have hr := released_called hold target
      exact absurd_of_left (hr.not_mem_flight hc hold) hold' hseq
    · have hr := released_returned hold target
      exact absurd_of_left (hr.not_mem_flight hc hold) hold' hseq
  all_goals
    rw [hres, Option.isNone_none, Bool.true_and, if_pos (by simpa using elapsed)] at hm
    obtain ⟨_, _, _, _, _, _, -, -, -, heq⟩ := hc.compute_eq hold (by simp [hk]) elapsed
    rw [heq] at hm
    cases hm
    exact resulted hc hold hold' hseq

/-! ## Its wait -/

theorem advance (h : m.Oldest n s o) : m.advance.Oldest n s.advance (s.tick o) where
  hold := holds_advance.2 ⟨s, o, h.hold, rfl, rfl⟩
  le q hq := by
    rw [tick_eq]
    exact h.le q (retimed_advance.mem_flight_iff.1 hq)

theorem issue (h : m.Oldest n s o) (hc : m.Coherent) (hm : m.issue = .ok m') :
    m'.Oldest n s o := by
  rcases issue_eq_ok hm with ⟨i, s₁, k, -, -, hs, hfree, rfl⟩ | rfl
  · constructor
    · refine (holds_dispatched (List.getElem?_eq_some_iff.1 hs).1).2 (.inr ⟨?_, h.hold⟩)
      rintro rfl
      exact not_holds_of_free hs hfree h.hold
    · intro q hq
      rcases (mem_flight_dispatched hs hfree).1 hq with hq | rfl
      · exact h.le q hq
      · exact Int.le_of_lt (hc.owned_seq_lt h.hold)
  · exact h

/-- **Its turn comes in the Execute stage**: it has its result after it, or
it leaves. -/
theorem execute (h : m.Oldest n s o) (hc : m.Coherent) (elapsed : s.latency ≤ o.cycles)
    (hm : m.execute = .ok m') (hold' : m'.Holds k s' o') (hseq : o'.seq = o.seq) :
    s'.result.isSome := by
  obtain ⟨rest, hrest⟩ := h.inFlight_eq_cons hc
  rw [Machine.execute, hrest, List.foldlM_cons] at hm
  rcases ht : Machine.turn m.barrier m n with t | m₁ <;> rw [ht] at hm
  · cases hm
  have first := turn_moves (fun _ => speculative_barrier_eq_false_iff.1) ht
  have later := turns_moves
    (fun _ hq => first.onPath (speculative_barrier_eq_false_iff.1 hq)) hm
  obtain ⟨s₁, o₁, hold₁, -, hkept, hseq₁, -⟩ := later.origin hold'
  exact hkept (h.turn hc elapsed ht hold₁ (hseq₁.symm.trans hseq))

/-- **With its result it leaves** in the Writeback stage, past its latency. -/
theorem writeBack (h : m.Oldest n s o) (hc : m.Coherent) (hm : m.writeBack = .ok m')
    (hold' : m'.Holds n s' o') : s.result.isSome → o.cycles ≤ s.latency := by
  intro hsome
  obtain ⟨v, hv⟩ := Option.isSome_iff_exists.1 hsome
  by_contra hlate
  have hx := h.nextSender?_eq hc hv (Nat.not_le.1 hlate)
  rcases writeBack_cases hm with ⟨hnone, -⟩ | ⟨x, hx', rfl⟩
  · rw [hx] at hnone
    cases hnone
  · rw [hx, Option.some.injEq] at hx'
    subst hx'
    exact (holds_sent.1 hold').1 rfl

/-- Its timer moves: it has its operands. -/
theorem cycles_tick (h : m.Oldest n s o) (hc : m.Coherent) : (s.tick o).cycles =
    if o.cycles < s.latency ∨ s.result.isSome then o.cycles + 1 else o.cycles := by
  simp only [Station.tick, Station.advances, h.hold.2, h.ready hc, Bool.true_and, Bool.or_eq_true,
    decide_eq_true_eq]
  split <;> rfl

end Oldest

/-- The cycles that an instruction has to stay in its station if nothing is
in its way. -/
def wait (s : Station) (o : Occupant) : Nat :=
  (if s.result.isSome then 0 else max 1 (s.latency - o.cycles)) + 1

/-- One cycle more than the latency is enough. -/
theorem wait_le (s : Station) (o : Occupant) : wait s o ≤ s.latency + 1 := by
  have hpos := s.latency_pos
  rw [wait]
  split <;> omega

/-- **A cycle brings the oldest instruction nearer to its end.** -/
theorem Oldest.wait_lt (h : m.Oldest n s o) (hc : m.Coherent) (hm : m.step = .ok m')
    (hold' : m'.Holds k s' o') (hseq : o'.seq = o.seq) : wait s' o' < wait s o := by
  obtain ⟨m₁, m₂, m₃, h₁, h₂, h₃, rfl, -⟩ := step_eq_ok hm
  have hc₁ := hc.advance.issue h₁
  have h₁' := h.advance.issue hc.advance h₁
  have hmoves := execute_moves h₂
  have hticked : (s.tick o).seq = o.seq := by rw [tick_eq]
  obtain ⟨s₂, o₂, hold₂, hslot, hres, hseq₂, hcycles⟩ := holds_of_writeBack h₃ hold'
  obtain ⟨s₁, o₁, hold₁, hslot₁, hkept, hseq₁, hcycles₁⟩ := hmoves.origin hold₂
  obtain rfl := hc₁.position_eq hold₁ h₁'.hold
    (by rw [← hseq₁, ← hseq₂, hseq, hticked])
  obtain ⟨rfl, rfl⟩ := hold₁.unique h₁'.hold
  have hlatency : s'.latency = s.latency := by rw [hslot, hslot₁, s.advance_toSlot.1]
  have hlatency₂ : s₂.latency = s.latency := by rw [hslot₁, s.advance_toSlot.1]
  have h₂' : m₂.Oldest k s₂ o₂ :=
    ⟨hold₂, fun q hq => hseq₁ ▸ h₁'.le q (hmoves.mem_flight hq)⟩
  have hturn : s.latency ≤ (s.tick o).cycles → s₂.result.isSome := fun elapsed =>
    h₁'.execute hc₁ (by rwa [s.advance_toSlot.1]) h₂ hold₂ hseq₁
  have hsend : s₂.result.isSome → (s.tick o).cycles ≤ s.latency := by
    have := h₂'.writeBack (hmoves.coherent hc₁) h₃ hold'
    rwa [hlatency₂, hcycles₁] at this
  have htick := h.cycles_tick hc
  rw [wait, wait, hlatency, hcycles, hcycles₁, hres]
  by_cases hsome : s.result.isSome
  · -- It would have left with its result.
    obtain ⟨v, hv⟩ := Option.isSome_iff_exists.1 hsome
    have := ((hc.fits _ s o h.hold).result v hv).2.1
    have := hsend (hkept (by rwa [s.advance_toSlot.2]))
    rw [if_pos (.inr hsome)] at htick
    omega
  · simp only [hsome] at htick
    rw [if_neg hsome]
    by_cases elapsed : s.latency ≤ (s.tick o).cycles
    · -- It has got its result in its turn.
      rw [if_pos (hturn elapsed)]
      omega
    · -- Its timer has moved.
      split at htick
      · split <;> omega
      · omega

end Machine

end OutOfOrder
