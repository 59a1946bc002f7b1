import OutOfOrder.Proofs.Coherent.Frame
/-!
# Moves keep a machine coherent

A move that computes an address or gets a result leaves every instruction
in its station. A store, a branch that falls through, a call and a return
leave theirs; of these only the call writes a register, and it is the last
instruction there is. A branch that is taken leaves no other branch and no
jump behind, so what is kept is all on the path.
-/

namespace OutOfOrder

/-! ## Lists -/

/-- What is kept of a history when an entry is found in it is what was
issued up to that entry. -/
theorem InOrder.take_findIdx?_eq_filter {l : List Entry} {q : Int} {i : Nat} (h : InOrder l)
    (hi : (l.findIdx? fun e => e.seq = q) = some i) :
    l.take (i + 1) = l.filter fun e => e.seq ≤ q := by
  induction l generalizing i with
  | nil => cases hi
  | cons x l ih =>
    rw [InOrder, List.pairwise_cons] at h
    rw [List.findIdx?_cons] at hi
    split at hi
    · rename_i hx
      cases hi
      have hx := of_decide_eq_true hx
      have hnone : l.filter (fun e => e.seq ≤ q) = [] :=
        List.filter_eq_nil_iff.2 fun a ha => by have := h.1 a ha; simp; omega
      simp [hx, hnone]
    · obtain ⟨j, hj, rfl⟩ := Option.map_eq_some_iff.1 hi
      obtain ⟨hlt, hjq, -⟩ := List.findIdx?_eq_some_iff_getElem.1 hj
      have hle : x.seq ≤ q := by
        have := h.1 _ (List.getElem_mem hlt)
        have := of_decide_eq_true hjq
        omega
      rw [List.take_succ_cons, ih h.2 hj, List.filter_cons_of_pos (by simpa using hle)]

/-- Leaving out entries that do not write a register keeps its last
writer. -/
theorem InOrder.lastWriter_filter_eq {l : List Entry} {r : Reg} {p : Entry → Bool} (hl : InOrder l)
    (h : ∀ e ∈ l, e.instr.writes r → p e) : lastWriter (l.filter p) r = lastWriter l r := by
  rcases hw : lastWriter l r with - | w
  · rw [lastWriter_eq_none_iff] at hw ⊢
    exact fun e he => hw e (List.mem_filter.1 he).1
  · obtain ⟨hmem, hwr⟩ := mem_of_lastWriter hw
    exact lastWriter_filter hl hw (h w hmem hwr)

namespace Machine

variable {m m' : Machine} {n k : Nat} {s s' : Station} {o o' : Occupant} {e w : Entry} {q : Int}
variable {r : Reg} {l : List Entry}

/-- A station of a kind is in use. -/
theorem any_busy_iff {kind : UnitKind} :
    (m.stations.any fun s => s.busy && s.kind = kind) = true ↔
      ∃ n s o, m.Holds n s o ∧ s.kind = kind := by
  simp only [List.any_eq_true, Bool.and_eq_true, decide_eq_true_eq, Station.busy,
    Option.isSome_iff_exists]
  constructor
  · rintro ⟨s, hs, ⟨o, ho⟩, hk⟩
    obtain ⟨n, hold⟩ := exists_holds_of_mem hs ho
    exact ⟨n, s, o, hold, hk⟩
  · rintro ⟨n, s, o, hold, hk⟩
    exact ⟨s, hold.mem, ⟨o, hold.2⟩, hk⟩

/-! ## The instruction stays -/

section Set

variable {s₀ : Station} {o₀ : Occupant}

/-- What stations hold when one of them has got an address or a result. -/
theorem holds_of_set (hold : m.Holds n s o) (hocc : s₀.occupant = some o₀)
    (hst : m'.stations = m.stations.set n s₀) (hold' : m'.Holds k s' o') :
    (k = n ∧ s' = s₀ ∧ o' = o₀) ∨ (k ≠ n ∧ m.Holds k s' o') := by
  rcases (holds_set hst hold.lt_length).1 hold' with ⟨hk, rfl, ho⟩ | h'
  · exact .inl ⟨hk, rfl, Option.some.inj (ho.symm.trans hocc)⟩
  · exact .inr h'

/-- **A station may get an address or a result.** -/
theorem retimed_set (s₀ : Station) (hold : m.Holds n s o) (hslot : s₀.toSlot = s.toSlot)
    (hocc : s₀.occupant = some o₀)
    (ho : o₀ = { o with imm := o₀.imm, addressReady := o₀.addressReady, cycles := o₀.cycles })
    (hst : m'.stations = m.stations.set n s₀) (hissued : m'.issued = m.issued)
    (hseq : m'.nextSeq = m.nextSeq) (hstatus : m'.registers.status = m.registers.status)
    (hbranch : m'.branchPending = m.branchPending) (hjump : m'.jumpPending = m.jumpPending) :
    Retimed m m' := by
  refine ⟨fun k s' o' hold' => ?_, fun k s' o' hold' => ?_, hissued, hseq, hstatus, hbranch, hjump⟩
  · rcases holds_of_set hold hocc hst hold' with ⟨rfl, rfl, rfl⟩ | ⟨-, h'⟩
    · exact ⟨s, o, hold, hslot, ho⟩
    · exact ⟨s', o', h', rfl, rfl⟩
  · by_cases hk : k = n
    · subst hk
      obtain ⟨rfl, rfl⟩ := hold.unique hold'
      exact ⟨s₀, o₀, (holds_set hst hold.lt_length).2 (.inl ⟨rfl, rfl, hocc⟩), hslot, by rw [ho]⟩
    · exact ⟨s', o', (holds_set hst hold.lt_length).2 (.inr ⟨hk, hold'⟩), rfl, rfl⟩

theorem retimed_resulted {v : Int} (hold : m.Holds n s o) : Retimed m (m.resulted n s o v) :=
  retimed_set (s.withResult v) hold rfl hold.2 rfl rfl rfl rfl rfl rfl rfl

theorem retimed_addressed {a : Int} (hold : m.Holds n s o) :
    Retimed m (m.setStation n (s.withAddress a)) :=
  retimed_set (s.withAddress a) hold rfl (Station.withAddress_occupant hold.2) rfl rfl rfl rfl
    rfl rfl rfl

end Set

namespace Coherent

/-- **The machine stays coherent** if the address or result fits the
instruction, and the instruction is on the path. -/
theorem set (s₀ : Station) {o₀ : Occupant} (h : m.Coherent) (hre : Retimed m m')
    (hold : m.Holds n s o) (path : m.OnPath o.seq) (hslot : s₀.toSlot = s.toSlot)
    (hocc : s₀.occupant = some o₀) (hseq : o₀.seq = o.seq) (hfit : s₀.Fits m.relativeCalls o₀)
    (hst : m'.stations = m.stations.set n s₀) (hrel : m'.relativeCalls = m.relativeCalls) :
    m'.Coherent := by
  refine hre.coherent h ?_ ?_ ?_ ?_
  · intro k s' hs'
    rw [hst, List.getElem?_set] at hs'
    split at hs'
    · rename_i hk
      subst hk
      simp only [hold.lt_length, if_true, Option.some.injEq] at hs'
      rw [← hs', hslot]
      exact h.tags n s hold.1
    · exact h.tags k s' hs'
  · intro s' hs' hnone
    rw [hst] at hs'
    rcases List.mem_or_eq_of_mem_set hs' with hs' | rfl
    · exact h.idle s' hs' hnone
    · rw [hocc] at hnone
      cases hnone
  · intro k s' o' hold'
    rw [hrel]
    rcases holds_of_set hold hocc hst hold' with ⟨-, rfl, rfl⟩ | ⟨-, h'⟩
    · exact hfit
    · exact h.fits k s' o' h'
  · intro k s' o' hold' hpath
    rcases holds_of_set hold hocc hst hold' with ⟨-, rfl, rfl⟩ | ⟨-, h'⟩
    · exact absurd (hseq ▸ path) hpath
    · exact h.waiting k s' o' h' hpath

/-- A station with a result of its latency fits its instruction. -/
theorem fits_withResult {w : Word} (h : m.Coherent) (hold : m.Holds n s o)
    (hbus : s.kind.usesBus) (elapsed : s.latency ≤ o.cycles) :
    (s.withResult w.toInt).Fits m.relativeCalls o :=
  { h.fits n s o hold with
    result := fun _ hv => ⟨hbus, elapsed, w, (Option.some.inj hv).symm⟩ }

theorem resulted {w : Word} (h : m.Coherent) (hold : m.Holds n s o) (path : m.OnPath o.seq)
    (hbus : s.kind.usesBus) (elapsed : s.latency ≤ o.cycles) :
    (m.resulted n s o w.toInt).Coherent :=
  h.set (s.withResult w.toInt) (retimed_resulted hold) hold path rfl hold.2 rfl
    (h.fits_withResult hold hbus elapsed) rfl rfl

theorem addressed {v : Int} (h : m.Coherent) (hold : m.Holds n s o) (path : m.OnPath o.seq)
    (kind : s.kind.isMemory) (hj : o.j.ready) :
    (m.setStation n (s.withAddress (wrap v))).Coherent := by
  have hfit := h.fits n s o hold
  refine h.set (s.withAddress (wrap v)) (retimed_addressed hold) hold path rfl
    (Station.withAddress_occupant hold.2) rfl ⟨hfit.unit, hfit.started, hfit.result,
      fun hr => (by cases hr), fun _ => ?_, fun l hl => ?_⟩ rfl rfl
  · exact ⟨kind, hj, Word.ofInt v, by rw [Word.toInt_ofInt]⟩
  · -- A call has no effective address.
    have hunit := hfit.unit
    rw [show o.instr = .call l from hl] at hunit
    rw [← Option.some.inj (show some UnitKind.callRet = some s.kind from hunit)] at kind
    cases kind

end Coherent

/-! ## The instruction leaves without the bus -/

/-- Freeing a station releases its instruction. -/
theorem released_of_clear (hn : n < m.stations.length)
    (hst : m'.stations = m.stations.set n s.clear) (hs : m.stations[n]? = some s)
    (hissued : m'.issued = m.issued) (hseq : m'.nextSeq = m.nextSeq)
    (hrel : m'.relativeCalls = m.relativeCalls) : Released m m' n o where
  slot k s' hs' := by
    rw [hst, List.getElem?_set] at hs'
    split at hs'
    · rename_i hk
      subst hk
      simp only [Option.some.injEq] at hs'
      exact ⟨s, hs, by rw [← hs']; rfl, fun _ => .inr (by rw [← hs']; rfl)⟩
    · exact ⟨s', hs', rfl, fun hnone => .inl ⟨hnone, rfl⟩⟩
  origin k s' o' hold := by
    rcases (holds_set hst hn).1 hold with ⟨-, -, ho⟩ | ⟨hk, h'⟩
    · cases ho
    · exact ⟨hk, s', o', h', rfl, rfl, id, id, rfl⟩
  kept k s' o' hold hk := ⟨s', o', (holds_set hst hn).2 (.inr ⟨hk, hold⟩), rfl, rfl⟩
  issued := hissued
  nextSeq := hseq
  relativeCalls := hrel

section Released

variable (hold : m.Holds n s o)
include hold

theorem released_stored (a : Word) (v : Int) : Released m (finish (m.stored a v) n s o) n o :=
  released_of_clear hold.lt_length rfl hold.1 rfl rfl rfl

theorem released_fallen : Released m (m.finish n s o).refreshFlags n o :=
  released_of_clear hold.lt_length rfl hold.1 rfl rfl rfl

theorem released_called (target : Address) : Released m (finish (m.called o target) n s o) n o :=
  released_of_clear hold.lt_length rfl hold.1 rfl rfl rfl

theorem released_returned (target : Address) :
    Released m (finish (m.returned n s o target) n s o) n o :=
  released_of_clear hold.lt_length (List.set_set ..) hold.1 rfl rfl rfl

end Released

namespace Coherent

/-- Who is in flight after a station has been freed was so before. -/
theorem holds_of_clear {s₀ : Station} (hn : n < m.stations.length)
    (hst : m'.stations = m.stations.set n s₀.clear) (hold : m'.Holds k s' o') :
    k ≠ n ∧ m.Holds k s' o' := by
  rcases (holds_set hst hn).1 hold with ⟨-, -, ho⟩ | h'
  · cases ho
  · exact h'

/-- **An instruction that writes no register may leave its station.** -/
theorem leave (h : m.Coherent) (hold : m.Holds n s o) (path : m.OnPath o.seq)
    (hst : m'.stations = m.stations.set n s.clear) (hbus : s.kind.usesBus = false)
    (hcall : o.instr.isCall = false) (hissued : m'.issued = m.issued)
    (hseq : m'.nextSeq = m.nextSeq) (hregs : m'.registers.status = m.registers.status)
    (hrel : m'.relativeCalls = m.relativeCalls)
    (branchFlag : m'.branchPending = true ↔ ∃ n s o, m'.Holds n s o ∧ s.kind = .beq)
    (jumpFlag : m'.jumpPending = true ↔ ∃ n s o, m'.Holds n s o ∧ s.kind = .callRet) :
    m'.Coherent := by
  have hr : Released m m' n o := released_of_clear hold.lt_length hst hold.1 hissued hseq hrel
  -- It was nobody's producer, so producers are what they were.
  have hprod : ∀ l : List Entry, (∀ e ∈ l, e ∈ m.issued) →
      ∀ r, m'.producer? l r = m.producer? l r := by
    intro l hl r
    refine producer?_congr fun e he hw => ?_
    rw [hr.mem_flight_iff h hold, and_iff_left]
    intro hs
    rw [(h.isOf hold (hl e he) hs).instr] at hw
    exact h.not_writes hold hbus hcall hw
  refine hr.coherent h hold path ?_ ?_ ?_ branchFlag jumpFlag
  · intro k s' o' hold'
    obtain ⟨-, h'⟩ := holds_of_clear hold.lt_length hst hold'
    rw [supplies_congr (hprod _ mem_issued_of_before),
      supplies_congr (hprod _ mem_issued_of_before)]
    exact h.sources k s' o' h'
  · intro k s' o' hold' hk
    obtain ⟨-, h'⟩ := holds_of_clear hold.lt_length hst hold'
    obtain ⟨table, htable, hdesc⟩ := h.saved k s' o' h' hk
    exact ⟨table, htable, (describes_congr (hprod _ mem_issued_of_before)).2 hdesc⟩
  · rw [hr.renamers_eq h hold hcall, hregs,
      describes_congr (hprod _ mem_issued_of_renamers)]
    exact h.status

/-- A call writes no register but the link register. -/
theorem eq_link_of_writes (hcall : e.instr.isCall) (hw : e.instr.writes r) : r = Reg.link := by
  obtain ⟨label, hl⟩ := Instruction.isCall_iff.1 hcall
  rw [hl] at hw
  simpa [Instruction.writes, Instruction.destination?, Instruction.isCall, Instruction.opCode?]
    using hw

theorem isCall_writes_link (hcall : e.instr.isCall) : e.instr.writes Reg.link := by
  simp [Instruction.writes, hcall]

/-- A call that is the last instruction is the last writer of the link
register. -/
theorem lastWriter_link (h : m.Coherent) (he : e ∈ m.issued)
    (hlast : ∀ x ∈ m.issued, x.seq ≤ e.seq) (hcall : e.instr.isCall) :
    lastWriter m.issued Reg.link = some e :=
  (lastWriter_eq_some_iff h.inOrder).2 ⟨he, isCall_writes_link hcall, fun x hx _ => hlast x hx⟩

/-- **The status after a call has written the link register.** The call is
the last instruction and no longer in flight, so the link register has no
producer; the others have the producers they had. -/
theorem describes_linked {table : StatusTable} (h : m.Coherent) (he : e ∈ m.issued)
    (hlast : ∀ x ∈ m.issued, x.seq ≤ e.seq) (hcall : e.instr.isCall)
    (hflight : ∀ q, q ∈ m'.flight ↔ q ∈ m.flight ∧ q ≠ e.seq)
    (hdesc : m.Describes m.renamers table) :
    m'.Describes m.issued (table.set Reg.link none) := by
  intro r
  by_cases hlink : r = Reg.link
  · subst hlink
    have hlw := h.lastWriter_link he hlast hcall
    have hnone : m'.producer? m.issued Reg.link = none := by
      refine producer?_eq_none_iff.2 (.inr fun w hw hf => ((hflight _).1 hf).2 ?_)
      rw [hlw] at hw
      rw [Option.some.inj hw]
    rw [hnone]
    exact Vector.getElem_set_self _
  · have hne : ∀ x ∈ m.issued, x.instr.writes r → x.seq ≠ e.seq := by
      intro x hx hw hs
      obtain rfl := h.inOrder.eq_of_seq_eq hx he hs
      exact hlink (eq_link_of_writes hcall hw)
    have hlw : lastWriter m.renamers r = lastWriter m.issued r := by
      refine h.inOrder.lastWriter_filter_eq fun x _ hw => ?_
      rcases hc : x.instr.isCall with - | -
      · rfl
      · exact absurd (eq_link_of_writes hc hw) hlink
    have hget : (table.set Reg.link none).get r = table.get r :=
      Vector.getElem_set_ne _ _ fun hv => hlink (Fin.ext hv.symm)
    rw [hget, hdesc r, producer?_congr_list hlw]
    refine congrArg _ (producer?_congr fun x hx hw => ?_).symm
    rw [hflight, and_iff_left (hne x hx hw)]

/-- **A call may leave its station when it has written the link
register.** It is the last instruction issued, so nobody waits for it. -/
theorem leave_call (h : m.Coherent) (hold : m.Holds n s o) (path : m.OnPath o.seq)
    (kind : s.kind = .callRet) (hcall : o.instr.isCall)
    (hst : m'.stations = m.stations.set n s.clear) (hissued : m'.issued = m.issued)
    (hseq : m'.nextSeq = m.nextSeq)
    (hregs : m'.registers.status = m.registers.status.set Reg.link none)
    (hrel : m'.relativeCalls = m.relativeCalls)
    (branchFlag : m'.branchPending = true ↔ ∃ n s o, m'.Holds n s o ∧ s.kind = .beq)
    (jumpFlag : m'.jumpPending = true ↔ ∃ n s o, m'.Holds n s o ∧ s.kind = .callRet) :
    m'.Coherent := by
  have hr : Released m m' n o := released_of_clear hold.lt_length hst hold.1 hissued hseq hrel
  obtain ⟨c, hc, hof⟩ := h.owner n s o hold
  have hlast : ∀ e ∈ m.issued, e.seq ≤ c.seq := hof.seq ▸ h.jumpLast n s o hold kind
  have hcc : c.instr.isCall := by rw [hof.instr]; exact hcall
  have hflight : ∀ q, q ∈ m'.flight ↔ q ∈ m.flight ∧ q ≠ c.seq := by
    intro q
    rw [hr.mem_flight_iff h hold, hof.seq]
  -- The others were issued before the call, and so were the producers they wait for.
  have hprod : ∀ k s' o', m.Holds k s' o' → ∀ r,
      m'.producer? (m.before o'.seq) r = m.producer? (m.before o'.seq) r := by
    intro k s' o' hold' r
    refine producer?_congr fun e he _ => ?_
    obtain ⟨e', he', hof'⟩ := h.owner k s' o' hold'
    rw [hflight, and_iff_left]
    have := hlast e' he'
    have := hof'.seq
    have := (mem_before.1 he).2
    omega
  -- No call is in flight any more, so everything issued may be a producer.
  have hren : m'.renamers = m.issued := by
    rw [renamers, hissued]
    refine List.filter_eq_self.2 fun e he => ?_
    rw [Bool.not_eq_true', Bool.and_eq_false_iff, decide_eq_false_iff_not, hflight,
      or_iff_not_imp_left, Bool.not_eq_false]
    rintro hce ⟨hf, hne⟩
    have := h.le_of_isCall he hce hf hc
    have := hlast e he
    omega
  refine hr.coherent h hold path ?_ ?_ ?_ branchFlag jumpFlag
  · intro k s' o' hold'
    obtain ⟨-, h'⟩ := holds_of_clear hold.lt_length hst hold'
    rw [supplies_congr (hprod k s' o' h'), supplies_congr (hprod k s' o' h')]
    exact h.sources k s' o' h'
  · intro k s' o' hold' hk
    obtain ⟨-, h'⟩ := holds_of_clear hold.lt_length hst hold'
    obtain ⟨table, htable, hdesc⟩ := h.saved k s' o' h' hk
    exact ⟨table, htable, (describes_congr (hprod k s' o' h')).2 hdesc⟩
  · rw [hren, hregs]
    exact h.describes_linked hc hlast hcc hflight h.status

theorem isCall_eq_false (h : m.Coherent) (hold : m.Holds n s o) (kind : s.kind ≠ .callRet) :
    o.instr.isCall = false := by
  rw [← Bool.not_eq_true]
  exact fun hcall => kind ((h.kind_eq_callRet_iff hold).2 (Instruction.isJump_of_isCall hcall))

/-- **A call or return on the path is the end of it**: no branch is in
flight. -/
theorem onPath_of_callRet (h : m.Coherent) (hold : m.Holds n s o) (kind : s.kind = .callRet)
    (path : m.OnPath o.seq) : m.OnPath q := by
  intro k s' o' hold' kind'
  obtain ⟨e, he, hof⟩ := h.owner k s' o' hold'
  have h₁ := h.jumpLast n s o hold kind e he
  have h₂ := path k s' o' hold' kind'
  have := hof.seq
  obtain rfl := h.position_eq hold hold' (by omega)
  rw [(hold.unique hold').1, kind'] at kind
  cases kind

/-- No other call or return is in flight. -/
theorem position_eq_of_callRet (h : m.Coherent) (hold : m.Holds n s o) (kind : s.kind = .callRet)
    (hold' : m.Holds k s' o') (kind' : s'.kind = .callRet) : n = k := by
  obtain ⟨e, he, hof⟩ := h.owner n s o hold
  obtain ⟨e', he', hof'⟩ := h.owner k s' o' hold'
  have h₁ := h.jumpLast n s o hold kind e' he'
  have h₂ := h.jumpLast k s' o' hold' kind' e he
  have := hof.seq
  have := hof'.seq
  exact h.position_eq hold hold' (by omega)

/-- So none is in flight when it has left. -/
theorem no_callRet (h : m.Coherent) (hold : m.Holds n s o) (kind : s.kind = .callRet)
    (hr : Released m m' n o) : false = true ↔ ∃ n s o, m'.Holds n s o ∧ s.kind = .callRet := by
  rw [Bool.false_eq_true, false_iff]
  rintro ⟨k, s', o', hold', hk⟩
  obtain ⟨hne, s₁, o₁, hold₁, hs, -⟩ := hr.origin k s' o' hold'
  exact hne (h.position_eq_of_callRet hold₁ (by rw [← hk, hs]) hold kind)

/-! ## A branch is taken -/

/-- The history after a branch on the path has been taken. -/
theorem kept_eq {i : Nat} (h : m.Coherent)
    (hfind : (m.issued.findIdx? fun e => e.seq = o.seq) = some i) (he : e ∈ m.issued)
    (hseq : e.seq = o.seq) : m.issued.take (i + 1) = m.before o.seq ++ [e] := by
  rw [h.inOrder.take_findIdx?_eq_filter hfind, ← hseq, h.inOrder.filter_le_eq_append he, before]

end Coherent

section Taken

variable {target : Word} {kept : List Entry} {saved : StatusTable}

/-- Who is in flight after a branch has been taken: what was issued before
it. -/
theorem holds_branched (h : m.Coherent) (hold : m.Holds n s o) :
    (m.branched n s o target kept saved).Holds k s' o' ↔ m.Holds k s' o' ∧ o'.seq < o.seq := by
  have hlen : n < (m.redirected o target kept saved).stations.length := by
    simpa [redirected] using hold.lt_length
  refine (holds_finish (o := o) hlen).trans ?_
  rw [holds_redirected]
  constructor
  · rintro ⟨hk, h', hle⟩
    refine ⟨h', ?_⟩
    have : o'.seq ≠ o.seq := fun hs => hk (h.position_eq h' hold hs)
    omega
  · rintro ⟨h', hlt⟩
    refine ⟨?_, h', Int.le_of_lt hlt⟩
    rintro rfl
    rw [(h'.unique hold).2] at hlt
    omega

theorem mem_flight_branched (h : m.Coherent) (hold : m.Holds n s o) :
    q ∈ (m.branched n s o target kept saved).flight ↔ q ∈ m.flight ∧ q < o.seq := by
  simp only [mem_flight, holds_branched h hold]
  constructor
  · rintro ⟨k, s', o', ⟨h', hlt⟩, rfl⟩
    exact ⟨⟨k, s', o', h', rfl⟩, hlt⟩
  · rintro ⟨⟨k, s', o', h', rfl⟩, hlt⟩
    exact ⟨k, s', o', ⟨h', hlt⟩, rfl⟩

/-- The slots are what they were, and a station is what it was or is free. -/
theorem getElem?_branched (hold : m.Holds n s o)
    (hs' : (m.branched n s o target kept saved).stations[k]? = some s') :
    ∃ s₁, m.stations[k]? = some s₁ ∧ s'.toSlot = s₁.toSlot ∧ (s' = s₁ ∨ s' = s₁.clear) := by
  change ((m.stations.map (Station.squash o.seq)).set n s.clear)[k]? = some s' at hs'
  rw [List.getElem?_set, List.getElem?_map, List.length_map] at hs'
  split at hs'
  · rename_i hk
    subst hk
    simp only [hold.lt_length, if_true, Option.some.injEq] at hs'
    exact ⟨s, hold.1, by rw [← hs']; rfl, .inr hs'.symm⟩
  · obtain ⟨s₁, hs₁, rfl⟩ := Option.map_eq_some_iff.1 hs'
    refine ⟨s₁, hs₁, ?_⟩
    rw [Station.squash]
    split
    · exact ⟨rfl, .inr rfl⟩
    · exact ⟨rfl, .inl rfl⟩

/-- What is left of the history: what was issued before the branch, and the
branch. -/
theorem mem_issued_branched :
    e ∈ (m.branched n s o target (m.before o.seq ++ [b]) saved).issued ↔
      (e ∈ m.issued ∧ e.seq < o.seq) ∨ e = b := by
  change e ∈ m.before o.seq ++ [b] ↔ _
  rw [List.mem_append, List.mem_singleton, mem_before]

/-- What was issued before an instruction up to the branch still is. -/
theorem before_branched (hseq : e.seq = o.seq) (hq : q ≤ o.seq) :
    (m.branched n s o target (m.before o.seq ++ [e]) saved).before q = m.before q := by
  have hlt : ¬ e.seq < q := by omega
  change (m.before o.seq ++ [e]).filter _ = m.before q
  rw [List.filter_append, List.filter_cons_of_neg (by simpa using hlt), List.filter_nil,
    List.append_nil, before, List.filter_filter, before]
  refine List.filter_congr fun e _ => ?_
  rw [Bool.eq_iff_iff, Bool.and_eq_true, decide_eq_true_eq, decide_eq_true_eq]
  omega

theorem producer?_branched (h : m.Coherent) (hold : m.Holds n s o) (hq : q ≤ o.seq) :
    (m.branched n s o target kept saved).producer? (m.before q) r = m.producer? (m.before q) r := by
  refine producer?_congr fun e he _ => ?_
  have := (mem_before.1 he).2
  rw [mem_flight_branched h hold, and_iff_left (by omega)]

/-- **A taken branch leaves no branch and no jump in flight.** -/
theorem kind_of_branched (h : m.Coherent) (hold : m.Holds n s o) (path : m.OnPath o.seq)
    (hold' : (m.branched n s o target kept saved).Holds k s' o') :
    s'.kind ≠ .beq ∧ s'.kind ≠ .callRet := by
  obtain ⟨h', hlt⟩ := (holds_branched h hold).1 hold'
  refine ⟨fun hk => ?_, fun hk => ?_⟩
  · have := path k s' o' h' hk
    omega
  · obtain ⟨e, he, hof⟩ := h.owner n s o hold
    have := h.jumpLast k s' o' h' hk e he
    have := hof.seq
    omega

theorem onPath_branched (h : m.Coherent) (hold : m.Holds n s o) (path : m.OnPath o.seq) :
    (m.branched n s o target kept saved).OnPath q :=
  fun _ _ _ hold' hk => absurd hk (kind_of_branched h hold path hold').1

/-- **The status after a branch has been taken.** The saved table is that of
the history before the branch, and a branch writes nothing. -/
theorem describes_branched (h : m.Coherent) (hold : m.Holds n s o) (path : m.OnPath o.seq)
    (kind : s.kind = .beq) (he : e ∈ m.issued) (hseq : e.seq = o.seq)
    (hdesc : m.Describes (m.before o.seq) saved) :
    (m.branched n s o target (m.before o.seq ++ [e]) saved).Describes
      (m.branched n s o target (m.before o.seq ++ [e]) saved).renamers (saved.set 0 none) := by
  set m' := m.branched n s o target (m.before o.seq ++ [e]) saved with hm'
  have hren : m'.renamers = m.before o.seq ++ [e] := by
    refine List.filter_eq_self.2 fun x hx => ?_
    rw [Bool.not_eq_true', Bool.and_eq_false_iff, decide_eq_false_iff_not, or_iff_not_imp_left,
      Bool.not_eq_false]
    intro hcall hf
    obtain ⟨k, s', o', hold', ho⟩ := mem_flight.1 hf
    obtain ⟨h', hlt⟩ := (holds_branched h hold).1 hold'
    have hx : x ∈ m.issued := by
      rcases mem_issued_branched.1 hx with ⟨hx, -⟩ | rfl
      · exact hx
      · exact he
    refine (kind_of_branched h hold path hold').2 ((h.kind_eq_callRet_iff h').2 ?_)
    rw [← (h.isOf h' hx ho.symm).instr]
    exact Instruction.isJump_of_isCall hcall
  have hbranch : o.instr.isBranch := (h.kind_eq_beq_iff hold).1 kind
  intro r
  have hlw : lastWriter (m.before o.seq ++ [e]) r = lastWriter (m.before o.seq) r := by
    refine lastWriter_append_of_not_writes fun x hx => ?_
    rw [List.mem_singleton.1 hx, (h.isOf hold he hseq).instr]
    exact h.not_writes hold (by rw [kind]; rfl) (Instruction.isCall_eq_false_of_isBranch hbranch)
  rw [hren, producer?_congr_list hlw, producer?_branched h hold (Int.le_refl _), ← hdesc r]
  by_cases hr : r = 0
  · subst hr
    rw [hdesc 0, producer?_eq_none_iff.2 (.inl rfl)]
    exact Vector.getElem_set_self _
  · exact Vector.getElem_set_ne _ _ fun hv => hr (Fin.ext hv.symm)

/-- **A branch on the path may be taken.** -/
theorem Coherent.branched {i : Nat} (h : m.Coherent) (hold : m.Holds n s o)
    (path : m.OnPath o.seq) (kind : s.kind = .beq)
    (hfind : (m.issued.findIdx? fun e => e.seq = o.seq) = some i)
    (hsaved : o.checkpoint = some saved) :
    (m.branched n s o target (m.issued.take (i + 1)) saved).Coherent := by
  obtain ⟨b, hb, hof⟩ := h.owner n s o hold
  have hkept := h.kept_eq hfind hb hof.seq
  constructor
  case tags =>
    intro k s' hs'
    obtain ⟨s₁, hs₁, hslot, -⟩ := getElem?_branched hold hs'
    rw [hslot]
    exact h.tags k s₁ hs₁
  case idle =>
    intro s' hs' hnone
    obtain ⟨k, hk⟩ := List.mem_iff_getElem?.1 hs'
    obtain ⟨s₁, hs₁, -, rfl | rfl⟩ := getElem?_branched hold hk
    · exact h.idle s' (List.mem_of_getElem? hs₁) hnone
    · rfl
  case inOrder => exact h.inOrder.sublist (List.take_sublist _ _)
  case fresh => exact fun e he => h.fresh e (List.mem_of_mem_take he)
  case owner =>
    intro k s' o' hold'
    obtain ⟨h', hlt⟩ := (holds_branched h hold).1 hold'
    obtain ⟨e, he, hof'⟩ := h.owner k s' o' h'
    refine ⟨e, ?_, hof'⟩
    change e ∈ m.issued.take (i + 1)
    rw [hkept]
    exact List.mem_append_left _ (mem_before.2 ⟨he, by rw [hof'.seq]; exact hlt⟩)
  case fits => exact fun k s' o' hold' => h.fits k s' o' ((holds_branched h hold).1 hold').1
  case sources =>
    intro k s' o' hold'
    obtain ⟨h', hlt⟩ := (holds_branched h hold).1 hold'
    have hle := Int.le_of_lt hlt
    rw [hkept, before_branched hof.seq hle, supplies_congr fun r => producer?_branched h hold hle,
      supplies_congr fun r => producer?_branched h hold hle]
    exact h.sources k s' o' h'
  case saved => exact fun k s' o' hold' hk => absurd hk (kind_of_branched h hold path hold').1
  case status =>
    obtain ⟨table, htable, hdesc⟩ := h.saved n s o hold kind
    obtain rfl : saved = table := Option.some.inj (hsaved.symm.trans htable)
    rw [hkept]
    exact describes_branched h hold path kind hb hof.seq hdesc
  case aloft => exact fun e _ hpath => absurd (onPath_branched h hold path) hpath
  case waiting => exact fun k s' o' _ hpath => absurd (onPath_branched h hold path) hpath
  case jumpLast => exact fun k s' o' hold' hk => absurd hk (kind_of_branched h hold path hold').2
  case branchFlag => exact barrier_isSome_iff
  case jumpFlag => exact any_busy_iff

end Taken

/-! ## Every move -/

/-- An operation computes a word. -/
theorem exists_eval_eq (op : AluOp) (a b : Int) : ∃ w : Word, op.eval a b = w.toInt := by
  cases op with
  | nor =>
    have hlt : ∀ x : Int, (wrap x).toNat < 2 ^ 16 := fun x => by
      have := wrap_lt x
      omega
    have := Nat.or_lt_two_pow (hlt a) (hlt b)
    simp only [AluOp.eval]
    exact Word.exists_toInt ⟨by omega, by omega⟩
  | _ => exact Word.exists_toInt ⟨wrap_nonneg _, wrap_lt _⟩

/-- **A move keeps a machine coherent.** -/
theorem Move.coherent {acts : List Act} (h : Move m acts m') (hc : m.Coherent) : m'.Coherent := by
  cases h with
  | @address n s o base offset hold path kind due hj himm =>
    refine hc.addressed hold path kind ?_
    simp only [Station.addressDue, Bool.and_eq_true] at due
    exact due.1.2
  | @load n s o a hold path kind due =>
    simp only [accessDue, Bool.and_eq_true, decide_eq_true_eq] at due
    exact hc.resulted hold path (by rw [kind]; rfl) due.2
  | @compute n s o op rA rB rC a b hold path hinstr fresh elapsed =>
    obtain ⟨w, hw⟩ := exists_eval_eq op a b
    rw [hw]
    refine hc.resulted hold path ?_ elapsed
    have hunit := (hc.fits n s o hold).unit
    rw [hinstr] at hunit
    rw [← Option.some.inj (show some op.opCode.unit = some s.kind from hunit)]
    cases op <;> rfl
  | @store n s o a v hold path kind =>
    have hr := released_stored hold a v
    exact hc.leave hold path rfl (by rw [kind]; rfl)
      (hc.isCall_eq_false hold (by rw [kind]; decide)) rfl rfl rfl rfl
      (hr.flag hold (by rw [kind]; decide) hc.branchFlag)
      (hr.flag hold (by rw [kind]; decide) hc.jumpFlag)
  | @fall n s o hold path kind =>
    exact hc.leave hold path rfl (by rw [kind]; rfl)
      (hc.isCall_eq_false hold (by rw [kind]; decide)) rfl rfl rfl rfl barrier_isSome_iff
      any_busy_iff
  | branch hold path kind elapsed htaken himm htarget hfind hsaved =>
    exact hc.branched hold path kind hfind hsaved
  | @call n s o target hold path kind elapsed hinstr =>
    have hr := released_called hold target
    refine hc.leave_call hold path kind hinstr rfl rfl rfl rfl rfl
      (hr.flag hold (by rw [kind]; decide) hc.branchFlag) ?_
    exact hc.no_callRet hold kind hr
  | @ret n s o target hold path kind elapsed hinstr =>
    have hst : (finish (m.returned n s o target) n s o).stations = m.stations.set n s.clear :=
      List.set_set ..
    have hr := released_returned hold target
    refine hc.leave hold path hst (by rw [kind]; rfl) hinstr rfl rfl rfl rfl
      (hr.flag hold (by rw [kind]; decide) hc.branchFlag) ?_
    exact hc.no_callRet hold kind hr

theorem Moves.coherent {acts : List Act} (h : Moves m acts m') (hc : m.Coherent) :
    m'.Coherent := by
  induction h with
  | refl => exact hc
  | cons first rest ih => exact ih (first.coherent hc)

end Machine

end OutOfOrder
