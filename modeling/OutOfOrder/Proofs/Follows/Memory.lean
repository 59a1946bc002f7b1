import OutOfOrder.Proofs.Follows.Values
/-!
# Memory follows the replay

An access that is made has nothing in its way: each older access that
conflicts with it has been made. So a load finds what the stores before it
have left, and no store after it has come too early; and a store is, when
it is made, the last one to its address that has been made.
-/

namespace OutOfOrder

open OutOfOrder.Sequential

namespace Machine

variable {m m' : Machine} {n k : Nat} {s s' : Station} {o o' : Occupant} {e e' : Entry} {q : Int}
variable {start : State} {a : Address}

/-! ## Accesses and what is in their way -/

theorem accesses?_of_stores? {st : State} {i : Instruction} {w : Word}
    (h : st.stores? i = some (a, w)) : st.accesses? i = some a := by
  cases i <;> simp_all [State.stores?, State.accesses?]

theorem accesses?_of_storesTo {st : State} (h : st.StoresTo e a) :
    st.accesses? e.instr = some a :=
  accesses?_of_stores? h.choose_spec

/-- Who accesses memory waits in a station for it. -/
theorem isMemory_of_accesses? {st : State} {relative : Bool} (h : s.Fits relative o)
    (ha : st.accesses? o.instr = some a) : s.kind = .load ∨ s.kind = .store := by
  have hunit := h.unit
  rcases hi : o.instr with _ | _ | _ | _ | _ | _ | _ <;> rw [hi] at ha hunit
  · exact .inl (Option.some.inj hunit).symm
  · exact .inr (Option.some.inj hunit).symm
  all_goals cases ha

theorem kind_eq_store_of_storesTo {st : State} {relative : Bool} (h : s.Fits relative o)
    (hi : e.instr = o.instr) (hs : st.StoresTo e a) : s.kind = .store := by
  obtain ⟨w, hs⟩ := hs
  have hunit := h.unit
  rw [hi] at hs
  rcases hi : o.instr with _ | _ | _ | _ | _ | _ | _ <;> rw [hi] at hs hunit <;>
    try cases hs
  exact (Option.some.inj hunit).symm

/-- **An access with nothing in its way comes after those it conflicts
with.** -/
theorem accessed_of_hazard (hc : m.Coherent) (h : m.ValuesFollow start) (hold : m.Holds n s o)
    (hready : o.addressReady) (clear : m.hazard? n s o = none) (he : e ∈ m.issued)
    (he' : e' ∈ m.issued) (hseq : e'.seq = o.seq) (hlt : e.seq < e'.seq)
    (hconf : m.Conflict start e e') : m.Accessed e.seq := by
  intro k s₁ o₁ hold₁ hseq₁
  by_contra hres
  obtain ⟨a, ha, ha', hstore⟩ := hconf
  have hof := hc.isOf hold he' hseq
  have hof₁ := hc.isOf hold₁ he hseq₁.symm
  have hfit := hc.fits n s o hold
  have hfit₁ := hc.fits k s₁ o₁ hold₁
  have hk : k ≠ n := by
    rintro rfl
    rw [(hold₁.unique hold).2] at hseq₁
    omega
  have hblocks := hazard?_eq_none_iff.1 clear k s₁ hold₁.1 hk
  refine absurd (show blocks s o s₁ = true from ?_) (by rw [hblocks]; decide)
  have hkind : s₁.kind ∈ s.kind.waitsFor := by
    rcases isMemory_of_accesses? hfit (hof.instr ▸ ha') with hks | hks <;> rw [hks]
    · -- A load conflicts with stores only.
      rcases hstore with hst | hst
      · rw [kind_eq_store_of_storesTo hfit₁ hof₁.instr hst]
        decide
      · rw [kind_eq_store_of_storesTo hfit hof.instr hst] at hks
        cases hks
    · rcases isMemory_of_accesses? hfit₁ (hof₁.instr ▸ ha) with hks₁ | hks₁ <;> rw [hks₁] <;> decide
  have himm : o₁.addressReady = false ∨ o₁.imm = o.imm := by
    rcases hr : o₁.addressReady with - | -
    · exact .inl rfl
    · right
      obtain ⟨b, hb, himm⟩ := (h.stations n s o hold).address hready
      obtain ⟨b₁, hb₁, himm₁⟩ := (h.stations k s₁ o₁ hold₁).address hr
      rw [← hseq, ← hof.instr, ha'] at hb
      rw [hseq₁, ← hof₁.instr, ha] at hb₁
      rw [himm, himm₁, ← Option.some.inj hb, ← Option.some.inj hb₁]
  simp only [blocks, hold₁.2, Option.any_some, Bool.and_eq_true, decide_eq_true_eq,
    Bool.or_eq_true, Bool.not_eq_true', Bool.and_eq_false_iff]
  exact ⟨⟨⟨hkind, by omega⟩, .inr (by simpa using hres)⟩, himm⟩

/-- A store has been made when it has left its station. -/
theorem not_mem_flight_of_accessed (hc : m.Coherent) (he : e ∈ m.issued)
    (hs : (m.stateAt start e.seq).StoresTo e a) (hacc : m.Accessed e.seq) : e.seq ∉ m.flight := by
  intro hf
  obtain ⟨k, s, o, hold, hseq⟩ := mem_flight.1 hf
  have hfit := hc.fits k s o hold
  obtain ⟨v, hv⟩ := Option.isSome_iff_exists.1 (hacc k s o hold hseq)
  have hbus := (hfit.result v hv).1
  rw [kind_eq_store_of_storesTo hfit (hc.isOf hold he hseq.symm).instr hs] at hbus
  cases hbus

theorem accessed_of_not_mem_flight (h : q ∉ m.flight) : m.Accessed q :=
  fun _ _ _ hold hseq => absurd (hseq ▸ hold.mem_flight) h

theorem not_accessed (hold : m.Holds n s o) (hres : s.result = none) : ¬ m.Accessed o.seq := by
  intro h
  have := h n s o hold rfl
  rw [hres] at this
  cases this

namespace MemoryFollows

/-- **An access finds what the replay has at its address.** The stores before
it have been made and those after it have not. -/
theorem get_eq (h : m.MemoryFollows start) (hc : m.Coherent) (hv : m.ValuesFollow start)
    (hold : m.Holds n s o) (due : accessDue s o)
    (clear : m.hazard? n s o = none) {a : Word} (himm : o.imm = some a.toInt) :
    m.memory.get a = (m.stateAt start o.seq).memory.get a := by
  simp only [accessDue, Bool.and_eq_true, Option.isNone_iff_eq_none] at due
  obtain ⟨l, hl, hof⟩ := hc.owner n s o hold
  obtain ⟨b, hb, himm'⟩ := (hv.stations n s o hold).address due.1.1
  obtain rfl : a = b := Word.toInt_inj.1 (Option.some.inj (himm.symm.trans himm'))
  have hacc : (m.stateAt start l.seq).accesses? l.instr = some a := by
    rw [hof.seq, hof.instr]
    exact hb
  refine h.contents o.seq a fun e he hs => ⟨fun hlt => ?_, fun hf => ?_⟩
  · refine not_mem_flight_of_accessed hc he hs ?_
    exact accessed_of_hazard hc hv hold due.1.1 clear he hl hof.seq (by rw [hof.seq]; exact hlt)
      ⟨a, accesses?_of_storesTo hs, hacc, .inl hs⟩
  · by_contra hlt
    have hne : e.seq ≠ o.seq := fun hseq => hf (hseq ▸ hold.mem_flight)
    have := hof.seq
    have haccessed := h.ordered l hl e he (by omega) ⟨a, hacc, accesses?_of_storesTo hs, .inr hs⟩
      (accessed_of_not_mem_flight hf)
    rw [hof.seq] at haccessed
    exact not_accessed hold due.1.2 haccessed

/-- **Where no access is made memory follows as before.** -/
theorem congr (h : m.MemoryFollows start) (hissued : m'.issued = m.issued)
    (hrel : m'.relativeCalls = m.relativeCalls) (hmem : m'.memory = m.memory)
    (hacc : ∀ e ∈ m.issued, ∀ a, (m.stateAt start e.seq).accesses? e.instr = some a →
      (m'.Accessed e.seq ↔ m.Accessed e.seq))
    (hflight : ∀ e ∈ m.issued, ∀ a, (m.stateAt start e.seq).StoresTo e a →
      (e.seq ∈ m'.flight ↔ e.seq ∈ m.flight)) : m'.MemoryFollows start where
  ordered e he e' he' hlt hconf hdone := by
    have hst : ∀ q, m'.stateAt start q = m.stateAt start q := fun q => stateAt_congr hissued hrel
    rw [hissued] at he he'
    simp only [Conflict, hst] at hconf
    obtain ⟨a, ha, ha', -⟩ := id hconf
    rw [hacc e he a ha]
    exact h.ordered e he e' he' hlt hconf ((hacc e' he' a ha').1 hdone)
  contents q a hall := by
    have hst : ∀ q, m'.stateAt start q = m.stateAt start q := fun q => stateAt_congr hissued hrel
    rw [hmem, hst]
    refine h.contents q a fun e he hs => ?_
    rw [← hflight e he a hs]
    exact hall e (hissued ▸ he) (by rw [hst]; exact hs)

end MemoryFollows

/-- Timers, addresses and results of units that compute are no accesses. -/
theorem accessed_of_retimed (hre : Retimed m m')
    (hres : ∀ k s' o' s o, m'.Holds k s' o' → m.Holds k s o → o.seq = q → s'.result = s.result) :
    m'.Accessed q ↔ m.Accessed q := by
  constructor
  · intro h k s o hold hseq
    obtain ⟨s', o', hold', -, hseq'⟩ := hre.kept k s o hold
    rw [← hres k s' o' s o hold' hold hseq]
    exact h k s' o' hold' (hseq'.trans hseq)
  · intro h k s' o' hold' hseq
    obtain ⟨s, o, hold, -, ho⟩ := hre.origin k s' o' hold'
    have hseq' : o.seq = q := by rw [← hseq, ho]
    rw [hres k s' o' s o hold' hold hseq']
    exact h k s o hold hseq'

theorem accessed_of_released (hr : Released m m' n o) (hold : m.Holds n s o)
    (hq : q ≠ o.seq) : m'.Accessed q ↔ m.Accessed q := by
  constructor
  · intro h k s₁ o₁ hold₁ hseq
    have hk : k ≠ n := by
      rintro rfl
      rw [(hold₁.unique hold).2] at hseq
      exact hq hseq.symm
    obtain ⟨s', o', hold', -, hseq'⟩ := hr.kept k s₁ o₁ hold₁ hk
    obtain ⟨-, s₂, o₂, hold₂, -, hres, -⟩ := hr.origin k s' o' hold'
    rw [(hold₁.unique hold₂).1, ← hres]
    exact h k s' o' hold' (hseq'.trans hseq)
  · intro h k s' o' hold' hseq
    obtain ⟨-, s₁, o₁, hold₁, -, hres, -, -, ho⟩ := hr.origin k s' o' hold'
    rw [hres]
    exact h k s₁ o₁ hold₁ (by rw [← hseq, ho])

namespace MemoryFollows

/-- **A load may get its result.** -/
theorem loaded {v : Int} (h : m.MemoryFollows start) (hc : m.Coherent) (hv : m.ValuesFollow start)
    (hold : m.Holds n s o) (hready : o.addressReady) (clear : m.hazard? n s o = none) :
    (m.resulted n s o v).MemoryFollows start where
  ordered e he e' he' hlt hconf hdone := by
    -- What had been accessed still has been, and so has the load now.
    have hmono : ∀ q, m.Accessed q → (m.resulted n s o v).Accessed q := by
      intro q hq k s' o' hold' hseq
      rcases (holds_resulted hold).1 hold' with ⟨rfl, rfl, rfl⟩ | ⟨-, h'⟩
      · rfl
      · exact hq k s' o' h' hseq
    refine hmono _ ?_
    by_cases hself : e'.seq = o.seq
    · exact accessed_of_hazard hc hv hold hready clear he he' hself hlt hconf
    · refine h.ordered e he e' he' hlt hconf fun k s₁ o₁ hold₁ hseq => ?_
      have hk : k ≠ n := by
        rintro rfl
        rw [(hold₁.unique hold).2] at hseq
        exact hself hseq.symm
      exact hdone k s₁ o₁ ((holds_resulted hold).2 (.inr ⟨hk, hold₁⟩)) hseq
  contents q a hall := h.contents q a fun e he hs => by
    rw [← (retimed_resulted (v := v) hold).mem_flight_iff]
    exact hall e he hs

end MemoryFollows

/-- **A store writes what the replay writes.** -/
theorem ValuesFollow.stores?_eq {a : Word} {v : Int} (hv : m.ValuesFollow start) (hc : m.Coherent)
    (hold : m.Holds n s o) (kind : s.kind = .store) (due : accessDue s o)
    (himm : o.imm = some a.toInt) (hk : o.k.value? = some v) :
    (m.stateAt start o.seq).stores? o.instr = some (a, Word.ofInt v) := by
  simp only [accessDue, Bool.and_eq_true] at due
  obtain ⟨rA, rB, off, hinstr⟩ := (hc.fits n s o hold).instr_eq kind
  obtain ⟨b, hb, himm'⟩ := (hv.stations n s o hold).address due.1.1
  obtain rfl : a = b := Word.toInt_inj.1 (Option.some.inj (himm.symm.trans himm'))
  rw [(hv.stations n s o hold).k.value? (r := rA) (by rw [hinstr]; rfl) hk, Word.ofInt_toInt]
  rw [hinstr] at hb ⊢
  simp only [State.accesses?, Option.some.injEq] at hb
  simp only [State.stores?, hb]

namespace MemoryFollows

/-- **A store may write memory.** The stores to its address that are younger
have not been made, so it is the last one. -/
theorem stored {a : Word} {v : Int} (h : m.MemoryFollows start) (hc : m.Coherent)
    (hv : m.ValuesFollow start) (hold : m.Holds n s o) (kind : s.kind = .store)
    (due : accessDue s o) (clear : m.hazard? n s o = none) (himm : o.imm = some a.toInt)
    (hk : o.k.value? = some v) : (finish (m.stored a v) n s o).MemoryFollows start := by
  set m' := finish (m.stored a v) n s o with hm'
  have hr : Released m m' n o := released_stored hold a v
  obtain ⟨x, hx, hof⟩ := hc.owner n s o hold
  have hstores : (m.stateAt start x.seq).stores? x.instr = some (a, Word.ofInt v) := by
    rw [hof.instr, hof.seq]
    exact hv.stores?_eq hc hold kind due himm hk
  simp only [accessDue, Bool.and_eq_true, Option.isNone_iff_eq_none] at due
  have hflight : ∀ e ∈ m.issued, e ≠ x → (e.seq ∈ m'.flight ↔ e.seq ∈ m.flight) := by
    intro e he hne
    rw [hr.mem_flight_iff hc hold, and_iff_left]
    exact fun hs => hne (hc.inOrder.eq_of_seq_eq he hx (hs.trans hof.seq.symm))
  refine ⟨fun e he e' he' hlt hconf hdone => ?_, fun q b hall => ?_⟩
  · have haccessed : m.Accessed e.seq := by
      by_cases hself : e'.seq = o.seq
      · exact accessed_of_hazard hc hv hold due.1.1 clear he he' hself hlt hconf
      · exact h.ordered e he e' he' hlt hconf ((accessed_of_released hr hold hself).1 hdone)
    by_cases hself : e.seq = o.seq
    · rw [hself] at haccessed
      exact absurd haccessed (not_accessed hold due.1.2)
    · exact (accessed_of_released hr hold hself).2 haccessed
  · change (m.memory.set a (Word.ofInt v)).get b = (m.stateAt start q).memory.get b
    have hall : ∀ e ∈ m.issued, (m.stateAt start e.seq).StoresTo e b →
        (e.seq < q ↔ e.seq ∉ m'.flight) := hall
    rw [Memory.get_set]
    split
    · rename_i hab
      subst hab
      have hgone : x.seq ∉ m'.flight := by
        rw [hr.mem_flight_iff hc hold]
        exact fun hf => hf.2 hof.seq
      have hlt : x.seq < q := (hall x hx ⟨_, hstores⟩).2 hgone
      -- No store to the address lies between this one and the number asked for.
      have hbetween : ∀ e ∈ m.issued, x.seq + 1 ≤ e.seq → e.seq < q →
          ¬ (m.stateAt start e.seq).StoresTo e a := by
        intro e he hle hlt' hs
        have hne : e ≠ x := by
          rintro rfl
          omega
        have hnot := (hflight e he hne).not.1 ((hall e he hs).1 hlt')
        have hdone := h.ordered x hx e he (by omega) ⟨a, accesses?_of_stores? hstores,
          accesses?_of_storesTo hs, .inr hs⟩ (accessed_of_not_mem_flight hnot)
        rw [hof.seq] at hdone
        exact not_accessed hold due.1.2 hdone
      rw [stateAt, State.get_upTo_of_not_storesTo hc.inOrder (show x.seq + 1 ≤ q by omega) hbetween,
        State.upTo_succ hc.inOrder hx]
      exact (State.memory_perform_of_stores hstores).symm
    · rename_i hab
      refine h.contents q b fun e he hs => ?_
      rw [← hflight e he ?_]
      · exact hall e he hs
      · rintro rfl
        obtain ⟨w, hw⟩ := hs
        rw [hstores] at hw
        exact hab (Prod.mk.inj (Option.some.inj hw)).1

/-- **An instruction without an access may leave its station.** -/
theorem leave (h : m.MemoryFollows start) (hc : m.Coherent) (hr : Released m m' n o)
    (hold : m.Holds n s o) (kind : s.kind ≠ .load ∧ s.kind ≠ .store)
    (hmem : m'.memory = m.memory) : m'.MemoryFollows start := by
  have hne : ∀ e ∈ m.issued, ∀ a, (m.stateAt start e.seq).accesses? e.instr = some a →
      e.seq ≠ o.seq := by
    intro e he a ha hseq
    rw [(hc.isOf hold he hseq).instr] at ha
    rcases isMemory_of_accesses? (hc.fits n s o hold) ha with hk | hk
    · exact kind.1 hk
    · exact kind.2 hk
  refine h.congr hr.issued hr.relativeCalls hmem (fun e he a ha => ?_) fun e he a hs => ?_
  · exact accessed_of_released hr hold (hne e he a ha)
  · rw [hr.mem_flight_iff hc hold, and_iff_left (hne e he a (accesses?_of_storesTo hs))]

/-- **A result that is sent** is of an access that has been made, or of no
access. -/
theorem sent {x : Sender} (h : m.MemoryFollows start) (hc : m.Coherent)
    (hx : m.nextSender? = some x) : (m.sent x).MemoryFollows start := by
  obtain ⟨hold, hres, hbus, -⟩ := nextSender?_eq_some hx
  have hr : Released m (m.sent x) x.position x.occupant := released_sent
  refine h.congr rfl rfl rfl (fun e he a ha => ?_) fun e he a hs => ?_
  · by_cases hself : e.seq = x.occupant.seq
    · refine iff_of_true (accessed_of_not_mem_flight ?_) fun k s o hold' hseq => ?_
      · rw [hr.mem_flight_iff hc hold]
        exact fun hf => hf.2 hself
      · obtain rfl := hc.position_eq hold' hold (hseq.trans hself)
        rw [(hold'.unique hold).1, hres]
        rfl
    · exact accessed_of_released hr hold hself
  · rw [hr.mem_flight_iff hc hold, and_iff_left]
    intro hseq
    rw [kind_eq_store_of_storesTo (hc.fits _ _ _ hold) (hc.isOf hold he hseq).instr hs] at hbus
    cases hbus

/-- The accesses that have been made are the same, of what was issued
before. -/
theorem accessed_dispatched {i : Instruction} (hs : m.stations[n]? = some s)
    (hfree : s.occupant = none) (hq : q < m.nextSeq) :
    (m.dispatched i s n).Accessed q ↔ m.Accessed q := by
  have hn := (List.getElem?_eq_some_iff.1 hs).1
  constructor
  · intro hacc k s₁ o₁ hold₁ hseq
    refine hacc k s₁ o₁ ((holds_dispatched hn).2 (.inr ⟨?_, hold₁⟩)) hseq
    rintro rfl
    exact not_holds_of_free hs hfree hold₁
  · intro hacc k s' o' hold' hseq
    rcases (holds_dispatched hn).1 hold' with ⟨-, -, rfl⟩ | ⟨-, h'⟩
    · exact absurd hseq (Int.ne_of_gt hq)
    · exact hacc k s' o' h' hseq

/-- **An instruction that is issued** has made no access. -/
theorem dispatched {i : Instruction} (h : m.MemoryFollows start) (hc : m.Coherent)
    (hc' : (m.dispatched i s n).Coherent) (hs : m.stations[n]? = some s)
    (hfree : s.occupant = none) : (m.dispatched i s n).MemoryFollows start := by
  set m' := m.dispatched i s n with hm'
  have hst : ∀ {q}, q ≤ m.nextSeq → m'.stateAt start q = m.stateAt start q :=
    fun hq => ValuesFollow.stateAt_dispatched hq
  have hnew : m.nextSeq ∈ m'.flight := (mem_flight_dispatched hs hfree).2 (.inr rfl)
  refine ⟨fun e he e' he' hlt hconf hdone => ?_, fun q a hall => ?_⟩
  · rcases mem_issued_dispatched.1 he' with he'₀ | rfl
    · have hlt' := hc.fresh e' he'₀
      rcases mem_issued_dispatched.1 he with he₀ | rfl
      · have hlt₀ := hc.fresh e he₀
        rw [accessed_dispatched hs hfree hlt₀]
        rw [accessed_dispatched hs hfree hlt'] at hdone
        simp only [Conflict, hst (Int.le_of_lt hlt₀), hst (Int.le_of_lt hlt')] at hconf
        exact h.ordered e he₀ e' he'₀ hlt hconf hdone
      · exact absurd hlt (Int.not_lt.2 (Int.le_of_lt hlt'))
    · -- The new instruction waits in its station.
      have hhold : m'.Holds n (m.filled i s) (m.newcomer i) :=
        (holds_dispatched (List.getElem?_eq_some_iff.1 hs).1).2 (.inl ⟨rfl, rfl, rfl⟩)
      exact absurd hdone (not_accessed hhold rfl)
  · have hold : ∀ e ∈ m.issued, (m.stateAt start e.seq).StoresTo e a →
        (e.seq < q ↔ e.seq ∉ m.flight) := by
      intro e he hsto
      rw [← mem_flight_dispatched_iff (i := i) hs hfree (hc.fresh e he)]
      refine hall e (mem_issued_dispatched.2 (.inl he)) ?_
      rw [hst (Int.le_of_lt (hc.fresh e he))]
      exact hsto
    rcases Int.lt_or_le m.nextSeq q with hq | hq
    · -- The new instruction is among those asked for, so it does not store here.
      have hnot : ¬ (m'.stateAt start m.nextSeq).StoresTo (m.issueEntry i s) a := fun hsto =>
        (hall (m.issueEntry i s) (mem_issued_dispatched.2 (.inr rfl)) hsto).1 hq hnew
      have hbetween : ∀ e ∈ m'.issued, m.nextSeq ≤ e.seq → e.seq < q →
          ¬ (m'.stateAt start e.seq).StoresTo e a := by
        intro e he hle _
        rcases mem_issued_dispatched.1 he with he | rfl
        · exact absurd (hc.fresh e he) (Int.not_lt.2 hle)
        · exact hnot
      have hmem : m.memory.get a = (m.stateAt start m.nextSeq).memory.get a := by
        refine h.contents m.nextSeq a fun e he hsto => ?_
        rw [← hold e he hsto]
        have := hc.fresh e he
        omega
      change m.memory.get a = _
      rw [stateAt, State.get_upTo_of_not_storesTo hc'.inOrder (Int.le_of_lt hq) hbetween,
        hmem, ← hst (Int.le_refl _)]
      rfl
    · rw [hst hq]
      exact h.contents q a hold

/-- The accesses that have been made are the same, of what was issued before
a branch that is taken. -/
theorem accessed_branched {target : Word} {kept : List Entry} {saved : StatusTable}
    (hc : m.Coherent) (hold : m.Holds n s o) (hq : q < o.seq) :
    (m.branched n s o target kept saved).Accessed q ↔ m.Accessed q := by
  constructor
  · intro hacc k s₁ o₁ hold₁ hs
    exact hacc k s₁ o₁ ((holds_branched hc hold).2 ⟨hold₁, by omega⟩) hs
  · intro hacc k s' o' hold' hs
    exact hacc k s' o' ((holds_branched hc hold).1 hold').1 hs

/-- **A branch that is taken** drops accesses that have not been made. -/
theorem branched {target : Word} {saved : StatusTable} {b : Entry} (h : m.MemoryFollows start)
    (hc : m.Coherent) (hc' : (m.branched n s o target (m.before o.seq ++ [b]) saved).Coherent)
    (hold : m.Holds n s o) (kind : s.kind = .beq) (hb : b ∈ m.issued) (hseq : b.seq = o.seq) :
    (m.branched n s o target (m.before o.seq ++ [b]) saved).MemoryFollows start := by
  set m' := m.branched n s o target (m.before o.seq ++ [b]) saved with hm'
  have hst : ∀ {q}, q ≤ o.seq → m'.stateAt start q = m.stateAt start q :=
    fun hq => ValuesFollow.stateAt_branched hseq hq
  have hbranch : ∀ st : State, ∀ a, st.accesses? b.instr ≠ some a := by
    intro st a ha
    rw [(hc.isOf hold hb hseq).instr] at ha
    rcases isMemory_of_accesses? (hc.fits n s o hold) ha with hk | hk <;>
      (rw [kind] at hk; cases hk)
  refine ⟨fun e he e' he' hlt hconf hdone => ?_, fun q a hall => ?_⟩
  · rcases mem_issued_branched.1 he with ⟨he₀, hlt₀⟩ | rfl
    · rcases mem_issued_branched.1 he' with ⟨he'₀, hlt'₀⟩ | rfl
      · simp only [Conflict, hst (Int.le_of_lt hlt₀), hst (Int.le_of_lt hlt'₀)] at hconf
        rw [accessed_branched hc hold hlt₀]
        rw [accessed_branched hc hold hlt'₀] at hdone
        exact h.ordered e he₀ e' he'₀ hlt hconf hdone
      · obtain ⟨a, -, ha, -⟩ := hconf
        exact absurd ha (hbranch _ a)
    · obtain ⟨a, ha, -⟩ := hconf
      exact absurd ha (hbranch _ a)
  · -- Whatever is asked for, the branch is the last that counts, and it does not store.
    have hnotb : ¬ (m'.stateAt start b.seq).StoresTo b a :=
      fun hsto => hbranch _ a (accesses?_of_storesTo hsto)
    have hmin : (m'.stateAt start q).memory.get a =
        (m.stateAt start (min q o.seq)).memory.get a := by
      rcases Int.lt_or_le o.seq q with hq | hq
      · have hbetween : ∀ e ∈ m'.issued, o.seq ≤ e.seq → e.seq < q →
            ¬ (m'.stateAt start e.seq).StoresTo e a := by
          intro e he hle _
          rcases mem_issued_branched.1 he with ⟨-, hlt⟩ | rfl
          · exact absurd hlt (Int.not_lt.2 hle)
          · exact hnotb
        rw [Int.min_eq_right (Int.le_of_lt hq), ← hst (Int.le_refl _), stateAt,
          State.get_upTo_of_not_storesTo hc'.inOrder (Int.le_of_lt hq) hbetween]
        rfl
      · rw [Int.min_eq_left hq, hst hq]
    rw [hmin]
    refine h.contents _ a fun e he hsto => ?_
    rcases Int.lt_or_le e.seq o.seq with hlt | hle
    · have hiff := hall e (mem_issued_branched.2 (.inl ⟨he, hlt⟩))
        (by rw [hst (Int.le_of_lt hlt)]; exact hsto)
      rw [mem_flight_branched hc hold, and_iff_left hlt] at hiff
      rw [← hiff]
      omega
    · have hne : e.seq ≠ o.seq := by
        intro hs
        obtain rfl := hc.inOrder.eq_of_seq_eq he hb (hs.trans hseq.symm)
        exact hbranch _ a (accesses?_of_storesTo hsto)
      have hnot : ¬ m.OnPath e.seq := fun hp => by
        have := hp n s o hold kind
        omega
      refine iff_of_false (by omega) (not_not_intro (hc.aloft e he hnot))

end MemoryFollows

end Machine

end OutOfOrder
