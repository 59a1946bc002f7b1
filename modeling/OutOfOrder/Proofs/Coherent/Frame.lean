import OutOfOrder.Proofs.Coherent.Basic
/-!
# What leaves a machine coherent

Most of what a cycle does falls under one of two heads. Either every
station keeps its instruction, and what changes is timers, addresses and
results (`Retimed`); or one instruction on the path leaves its station, and
the others keep theirs, though they may hear its result (`Released`). Each
head has one lemma, which names what is left to show.
-/

namespace OutOfOrder

namespace Machine

variable {m m' : Machine} {n k : Nat} {s s' : Station} {o o' : Occupant} {e w : Entry} {q : Int}
variable {r : Reg} {l : List Entry}

theorem supplies_congr {source : Option Reg} {x : Operand}
    (h : ∀ r, m'.producer? l r = m.producer? l r) :
    m'.Supplies l source x ↔ m.Supplies l source x := by
  rcases source with - | r
  · exact Iff.rfl
  · simp only [Supplies, h]

theorem describes_congr {table : StatusTable} (h : ∀ r, m'.producer? l r = m.producer? l r) :
    m'.Describes l table ↔ m.Describes l table := by
  simp only [Describes, h]

/-! ## Every station keeps its instruction -/

/-- **Timers, addresses and results may differ, and no more.** -/
structure Retimed (m m' : Machine) : Prop where
  origin : ∀ k s' o', m'.Holds k s' o' → ∃ s o, m.Holds k s o ∧ s'.toSlot = s.toSlot ∧
    o' = { o with imm := o'.imm, addressReady := o'.addressReady, cycles := o'.cycles }
  kept : ∀ k s o, m.Holds k s o →
    ∃ s' o', m'.Holds k s' o' ∧ s'.toSlot = s.toSlot ∧ o'.seq = o.seq
  issued : m'.issued = m.issued
  nextSeq : m'.nextSeq = m.nextSeq
  status : m'.registers.status = m.registers.status
  branchPending : m'.branchPending = m.branchPending
  jumpPending : m'.jumpPending = m.jumpPending

namespace Retimed

theorem mem_flight_iff (h : Retimed m m') : q ∈ m'.flight ↔ q ∈ m.flight := by
  constructor
  · intro hq
    obtain ⟨k, s', o', hold, rfl⟩ := mem_flight.1 hq
    obtain ⟨s, o, hold₀, -, ho⟩ := h.origin k s' o' hold
    rw [ho]
    exact hold₀.mem_flight
  · intro hq
    obtain ⟨k, s, o, hold, rfl⟩ := mem_flight.1 hq
    obtain ⟨s', o', hold', -, ho⟩ := h.kept k s o hold
    exact ho ▸ hold'.mem_flight

theorem onPath_iff (h : Retimed m m') : m'.OnPath q ↔ m.OnPath q := by
  constructor
  · intro path k s o hold kind
    obtain ⟨s', o', hold', hs, ho⟩ := h.kept k s o hold
    rw [← ho]
    exact path k s' o' hold' (by rw [← kind, hs])
  · intro path k s' o' hold kind
    obtain ⟨s, o, hold₀, hs, ho⟩ := h.origin k s' o' hold
    rw [ho]
    exact path k s o hold₀ (by rw [← kind, hs])

theorem before_eq (h : Retimed m m') : m'.before q = m.before q := by
  rw [before, before, h.issued]

theorem renamers_eq (h : Retimed m m') : m'.renamers = m.renamers := by
  simp only [renamers, h.issued, h.mem_flight_iff]

theorem producer?_eq (h : Retimed m m') : m'.producer? l r = m.producer? l r :=
  producer?_congr fun _ _ _ => h.mem_flight_iff

theorem exists_kind_iff (h : Retimed m m') {kind : UnitKind} :
    (∃ n s o, m'.Holds n s o ∧ s.kind = kind) ↔ ∃ n s o, m.Holds n s o ∧ s.kind = kind := by
  constructor
  · rintro ⟨n, s', o', hold, hk⟩
    obtain ⟨s, o, hold₀, hs, -⟩ := h.origin n s' o' hold
    exact ⟨n, s, o, hold₀, by rw [← hk, hs]⟩
  · rintro ⟨n, s, o, hold, hk⟩
    obtain ⟨s', o', hold', hs, -⟩ := h.kept n s o hold
    exact ⟨n, s', o', hold', by rw [← hk, hs]⟩

/-- **A retimed machine is coherent** if its instructions fit their stations
and those that are speculative still wait. -/
theorem coherent (h : Retimed m m') (hc : m.Coherent)
    (tags : ∀ (n : Nat) (s : Station), m'.stations[n]? = some s → s.tag = n)
    (idle : ∀ s ∈ m'.stations, s.occupant = none → s.result = none)
    (fits : ∀ n s o, m'.Holds n s o → s.Fits m'.relativeCalls o)
    (waiting : ∀ n s o, m'.Holds n s o → ¬ m.OnPath o.seq →
      s.result = none ∧ o.addressReady = false) : m'.Coherent where
  tags := tags
  idle := idle
  inOrder := h.issued ▸ hc.inOrder
  fresh := by rw [h.issued, h.nextSeq]; exact hc.fresh
  owner n s' o' hold := by
    obtain ⟨s, o, hold₀, hs, ho⟩ := h.origin _ _ _ hold
    obtain ⟨e, he, hof⟩ := hc.owner n s o hold₀
    refine ⟨e, h.issued ▸ he, ?_, ?_, ?_, ?_, ?_⟩
    · rw [ho]; exact hof.seq
    · rw [hs]; exact hof.tag
    · rw [ho]; exact hof.instr
    · rw [ho]; exact hof.pc
    · rw [hs]; exact hof.station
  fits := fits
  sources n s' o' hold := by
    obtain ⟨s, o, hold₀, -, ho⟩ := h.origin _ _ _ hold
    rw [h.before_eq, supplies_congr fun r => h.producer?_eq,
      supplies_congr fun r => h.producer?_eq, ho]
    exact hc.sources n s o hold₀
  saved n s' o' hold hk := by
    obtain ⟨s, o, hold₀, hs, ho⟩ := h.origin _ _ _ hold
    rw [h.before_eq, ho]
    simpa only [describes_congr fun r => h.producer?_eq] using
      hc.saved n s o hold₀ (by rw [← hk, hs])
  status := by
    rw [h.renamers_eq, h.status, describes_congr fun r => h.producer?_eq]
    exact hc.status
  aloft e he hpath := by
    rw [h.issued] at he
    rw [h.onPath_iff] at hpath
    exact h.mem_flight_iff.2 (hc.aloft e he hpath)
  waiting n s' o' hold hpath := waiting n s' o' hold (h.onPath_iff.not.1 hpath)
  jumpLast n s' o' hold hk e he := by
    obtain ⟨s, o, hold₀, hs, ho⟩ := h.origin _ _ _ hold
    rw [ho]
    exact hc.jumpLast n s o hold₀ (by rw [← hk, hs]) e (h.issued ▸ he)
  branchFlag := by rw [h.branchPending, h.exists_kind_iff, hc.branchFlag]
  jumpFlag := by rw [h.jumpPending, h.exists_kind_iff, hc.jumpFlag]

end Retimed

/-! ## One instruction leaves its station -/

/-- **The instruction at a position leaves its station**; the others keep
theirs, and may hear a result. -/
structure Released (m m' : Machine) (n : Nat) (o : Occupant) : Prop where
  slot : ∀ (k : Nat) (s' : Station), m'.stations[k]? = some s' →
    ∃ s, m.stations[k]? = some s ∧ s'.toSlot = s.toSlot ∧
      (s'.occupant = none → s.occupant = none ∧ s'.result = s.result ∨ s'.result = none)
  origin : ∀ k s' o', m'.Holds k s' o' → k ≠ n ∧ ∃ s o, m.Holds k s o ∧ s'.toSlot = s.toSlot ∧
    s'.result = s.result ∧ (o.ready → o'.ready) ∧ (o.j.ready → o'.j.ready) ∧
    o' = { o with j := o'.j, k := o'.k, checkpoint := o'.checkpoint }
  kept : ∀ k s o, m.Holds k s o → k ≠ n →
    ∃ s' o', m'.Holds k s' o' ∧ s'.toSlot = s.toSlot ∧ o'.seq = o.seq
  issued : m'.issued = m.issued
  nextSeq : m'.nextSeq = m.nextSeq
  relativeCalls : m'.relativeCalls = m.relativeCalls

namespace Released

theorem before_eq (h : Released m m' n o) : m'.before q = m.before q := by
  rw [before, before, h.issued]

/-- **One number leaves the flight.** -/
theorem mem_flight_iff (h : Released m m' n o) (hc : m.Coherent) (hold : m.Holds n s o) :
    q ∈ m'.flight ↔ q ∈ m.flight ∧ q ≠ o.seq := by
  constructor
  · intro hq
    obtain ⟨k, s', o', hold', rfl⟩ := mem_flight.1 hq
    obtain ⟨hk, s₁, o₁, hold₁, -, -, -, -, ho⟩ := h.origin k s' o' hold'
    rw [ho]
    exact ⟨hold₁.mem_flight, fun hseq => hk (hc.position_eq hold₁ hold hseq)⟩
  · rintro ⟨hq, hne⟩
    obtain ⟨k, s₁, o₁, hold₁, rfl⟩ := mem_flight.1 hq
    have hk : k ≠ n := by
      rintro rfl
      exact hne (by rw [(hold₁.unique hold).2])
    obtain ⟨s', o', hold', -, hseq⟩ := h.kept k s₁ o₁ hold₁ hk
    exact hseq ▸ hold'.mem_flight

/-- The instruction has left. -/
theorem not_mem_flight (h : Released m m' n o) (hc : m.Coherent) (hold : m.Holds n s o) :
    o.seq ∉ m'.flight := fun hf => ((h.mem_flight_iff hc hold).1 hf).2 rfl

/-- Nobody else has left. -/
theorem mem_flight_or (h : Released m m' n o) (hc : m.Coherent) (hold : m.Holds n s o)
    (hq : q ∈ m.flight) : q ∈ m'.flight ∨ q = o.seq := by
  by_cases hseq : q = o.seq
  · exact .inr hseq
  · exact .inl ((h.mem_flight_iff hc hold).2 ⟨hq, hseq⟩)

theorem onPath (h : Released m m' n o) (hpath : m.OnPath q) : m'.OnPath q := by
  intro k s' o' hold' kind
  obtain ⟨-, s₁, o₁, hold₁, hs, -, -, -, ho⟩ := h.origin k s' o' hold'
  rw [ho]
  exact hpath k s₁ o₁ hold₁ (by rw [← kind, hs])

/-- No branch leaves, so the path is what it was. -/
theorem onPath_iff (h : Released m m' n o) (hold : m.Holds n s o) (hk : s.kind ≠ .beq) :
    m'.OnPath q ↔ m.OnPath q := by
  refine ⟨fun path k s₁ o₁ hold₁ kind => ?_, h.onPath⟩
  have hne : k ≠ n := by
    rintro rfl
    exact hk (by rw [(hold.unique hold₁).1, kind])
  obtain ⟨s', o', hold', hs, hseq⟩ := h.kept k s₁ o₁ hold₁ hne
  rw [← hseq]
  exact path k s' o' hold' (by rw [← kind, hs])

/-- Those that may be producers are the same, unless a call has left. -/
theorem renamers_eq (h : Released m m' n o) (hc : m.Coherent) (hold : m.Holds n s o)
    (hcall : o.instr.isCall = false) : m'.renamers = m.renamers := by
  rw [renamers, renamers, h.issued]
  refine List.filter_congr fun e he => ?_
  rcases hec : e.instr.isCall with - | -
  · rfl
  · have hne : e.seq ≠ o.seq := by
      intro hs
      rw [(hc.isOf hold he hs).instr, hcall] at hec
      cases hec
    simp [h.mem_flight_iff hc hold, hne]

/-- A branch in flight stays there, unless one has left. -/
theorem mem_flight_branch_iff (h : Released m m' n o) (hc : m.Coherent) (hold : m.Holds n s o)
    (hk : s.kind ≠ .beq) (he : e ∈ m.issued) (hb : e.instr.isBranch) :
    e.seq ∈ m'.flight ↔ e.seq ∈ m.flight := by
  rw [h.mem_flight_iff hc hold, and_iff_left]
  intro hseq
  rw [(hc.isOf hold he hseq).instr, ← hc.kind_eq_beq_iff hold] at hb
  exact hk hb

/-- A kind other than that of the station left behind is in use as before. -/
theorem exists_kind_iff (h : Released m m' n o) (hold : m.Holds n s o) {kind : UnitKind}
    (hk : s.kind ≠ kind) :
    (∃ n s o, m'.Holds n s o ∧ s.kind = kind) ↔ ∃ n s o, m.Holds n s o ∧ s.kind = kind := by
  constructor
  · rintro ⟨k, s', o', hold', hkind⟩
    obtain ⟨-, s₁, o₁, hold₁, hs, -⟩ := h.origin k s' o' hold'
    exact ⟨k, s₁, o₁, hold₁, by rw [← hkind, hs]⟩
  · rintro ⟨k, s₁, o₁, hold₁, hkind⟩
    have hne : k ≠ n := by
      rintro rfl
      exact hk (by rw [(hold.unique hold₁).1, hkind])
    obtain ⟨s', o', hold', hs, -⟩ := h.kept k s₁ o₁ hold₁ hne
    exact ⟨k, s', o', hold', by rw [← hkind, hs]⟩

/-- So a flag for such a kind is as right as it was. -/
theorem flag (h : Released m m' n o) (hold : m.Holds n s o) {kind : UnitKind} (hk : s.kind ≠ kind)
    {flag : Bool} (hflag : flag = true ↔ ∃ n s o, m.Holds n s o ∧ s.kind = kind) :
    flag = true ↔ ∃ n s o, m'.Holds n s o ∧ s.kind = kind :=
  hflag.trans (h.exists_kind_iff hold hk).symm

/-- **A machine that an instruction has left is coherent** if its tags still
name producers and its flags are right. -/
theorem coherent (h : Released m m' n o) (hc : m.Coherent) (hold : m.Holds n s o)
    (path : m.OnPath o.seq)
    (sources : ∀ n s o, m'.Holds n s o →
      m'.Supplies (m.before o.seq) o.instr.sources.1 o.j ∧
        m'.Supplies (m.before o.seq) o.instr.sources.2 o.k)
    (saved : ∀ n s o, m'.Holds n s o → s.kind = .beq →
      ∃ table, o.checkpoint = some table ∧ m'.Describes (m.before o.seq) table)
    (status : m'.Describes m'.renamers m'.registers.status)
    (branchFlag : m'.branchPending = true ↔ ∃ n s o, m'.Holds n s o ∧ s.kind = .beq)
    (jumpFlag : m'.jumpPending = true ↔ ∃ n s o, m'.Holds n s o ∧ s.kind = .callRet) :
    m'.Coherent where
  tags k s' hs' := by
    obtain ⟨s₁, hs₁, hslot, -⟩ := h.slot k s' hs'
    rw [hslot]
    exact hc.tags k s₁ hs₁
  idle s' hs' hnone := by
    obtain ⟨k, hk⟩ := List.mem_iff_getElem?.1 hs'
    obtain ⟨s₁, hs₁, -, hidle⟩ := h.slot k s' hk
    rcases hidle hnone with ⟨hnone₁, hres⟩ | hres
    · rw [hres]
      exact hc.idle s₁ (List.mem_of_getElem? hs₁) hnone₁
    · exact hres
  inOrder := h.issued ▸ hc.inOrder
  fresh := by rw [h.issued, h.nextSeq]; exact hc.fresh
  owner k s' o' hold' := by
    obtain ⟨-, s₁, o₁, hold₁, hs, -, -, -, ho⟩ := h.origin k s' o' hold'
    obtain ⟨e, he, hof⟩ := hc.owner k s₁ o₁ hold₁
    refine ⟨e, h.issued ▸ he, ?_, ?_, ?_, ?_, ?_⟩
    · rw [ho]; exact hof.seq
    · rw [hs]; exact hof.tag
    · rw [ho]; exact hof.instr
    · rw [ho]; exact hof.pc
    · rw [hs]; exact hof.station
  fits k s' o' hold' := by
    -- Only operands and saved tables change, and an operand that is ready stays ready.
    obtain ⟨-, s₁, o₁, hold₁, hs, hres, hready, hj, ho⟩ := h.origin k s' o' hold'
    have hfit := hc.fits k s₁ o₁ hold₁
    have himm : o'.imm = o₁.imm := by rw [ho]
    have haddr : o'.addressReady = o₁.addressReady := by rw [ho]
    have hcycles : o'.cycles = o₁.cycles := by rw [ho]
    have hinstr : o'.instr = o₁.instr := by rw [ho]
    have hpc : o'.pc = o₁.pc := by rw [ho]
    constructor
    · rw [hinstr, hs]; exact hfit.unit
    · rw [hcycles]; exact fun hc => hready (hfit.started hc)
    · rw [hres, hcycles, hs]; exact hfit.result
    · rw [haddr, hinstr, himm]; exact hfit.offset
    · rw [haddr, himm, hs]
      exact fun ha => ⟨(hfit.address ha).1, hj (hfit.address ha).2.1, (hfit.address ha).2.2⟩
    · rw [hinstr, himm, hpc, h.relativeCalls]; exact hfit.target
  sources k s' o' hold' := by
    rw [h.before_eq]
    exact sources k s' o' hold'
  saved k s' o' hold' hk := by
    rw [h.before_eq]
    exact saved k s' o' hold' hk
  status := status
  aloft e he hpath := by
    -- The path only grows, and the instruction that has left was on it.
    rw [h.issued] at he
    rw [h.mem_flight_iff hc hold]
    refine ⟨hc.aloft e he fun hp => hpath (h.onPath hp), fun hseq => hpath (h.onPath ?_)⟩
    rw [hseq]
    exact path
  waiting k s' o' hold' hpath := by
    obtain ⟨-, s₁, o₁, hold₁, -, hres, -, -, ho⟩ := h.origin k s' o' hold'
    have hw := hc.waiting k s₁ o₁ hold₁ fun hp => hpath (h.onPath (by rw [ho]; exact hp))
    rw [hres, show o'.addressReady = o₁.addressReady by rw [ho]]
    exact hw
  jumpLast k s' o' hold' hk e he := by
    obtain ⟨-, s₁, o₁, hold₁, hs, -, -, -, ho⟩ := h.origin k s' o' hold'
    rw [show o'.seq = o₁.seq by rw [ho]]
    exact hc.jumpLast k s₁ o₁ hold₁ (by rw [← hk, hs]) e (h.issued ▸ he)
  branchFlag := branchFlag
  jumpFlag := jumpFlag

end Released

end Machine

end OutOfOrder
