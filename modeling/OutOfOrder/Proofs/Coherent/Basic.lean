import OutOfOrder.Proofs.Moves
/-!
# Coherence

The machine keeps what it knows of an instruction in several places: in the
station that holds it, in the history of issues, as a tag in the status
table, in the tables saved with branches and in the operands of those who
wait for it. `Coherent` says that these agree.

Nothing here mentions the values in registers and memory, or the program
counter. So whoever sets those between two cycles leaves a coherent machine
coherent.
-/

namespace OutOfOrder

/-! ## Instructions and their units -/

namespace Instruction

variable {i : Instruction}

theorem unit?_eq_beq_iff : i.unit? = some .beq ↔ i.isBranch := by
  rcases i with _ | _ | _ | _ | _ | ⟨op, _, _, _⟩ | _ <;>
    simp [unit?, isBranch, opCode?, OpCode.unit]
  cases op <;> simp [AluOp.opCode]

theorem unit?_eq_callRet_iff : i.unit? = some .callRet ↔ i.isJump := by
  rcases i with _ | _ | _ | _ | _ | ⟨op, _, _, _⟩ | _ <;>
    simp [unit?, isJump, opCode?, OpCode.unit]
  cases op <;> simp [AluOp.opCode]

theorem isJump_of_isCall (h : i.isCall) : i.isJump := by
  simp only [isCall, decide_eq_true_eq] at h
  simp [isJump, h]

theorem isCall_iff : i.isCall ↔ ∃ l, i = .call l := by
  rcases i with _ | _ | _ | _ | _ | ⟨op, _, _, _⟩ | _ <;> simp [isCall, opCode?]
  cases op <;> simp [AluOp.opCode]

theorem isCall_eq_false_of_isBranch (h : i.isBranch) : i.isCall = false := by
  simp only [isBranch, decide_eq_true_eq] at h
  simp [isCall, h]

/-- Who writes a register uses the bus, or is a call. -/
theorem usesBus_of_writes {r : Reg} {kind : UnitKind} (h : i.writes r) (hk : i.unit? = some kind)
    (hc : i.isCall = false) : kind.usesBus := by
  rcases i with _ | _ | _ | _ | _ | ⟨op, _, _, _⟩ | _ <;>
    simp_all [writes, destination?, unit?, opCode?, isCall]
  · simp [← hk, OpCode.unit, UnitKind.usesBus]
  · cases op <;> simp [← hk, OpCode.unit, UnitKind.usesBus, AluOp.opCode]

end Instruction

/-! ## One station -/

/-- **What a station keeps of its instruction fits the instruction**,
whatever else is in flight. -/
structure Station.Fits (relative : Bool) (s : Station) (o : Occupant) : Prop where
  /-- The instruction is for the station's kind of unit. -/
  unit : o.instr.unit? = some s.kind
  /-- The timer starts when both operands are there. -/
  started : 0 < o.cycles → o.ready
  /-- A result is a word for the bus, and the latency has elapsed. -/
  result : ∀ v, s.result = some v →
    s.kind.usesBus ∧ s.latency ≤ o.cycles ∧ ∃ w : Word, v = w.toInt
  /-- The offset is kept until the address is known. -/
  offset : o.addressReady = false → ∀ off, o.instr.offset? = some off → o.imm = some off
  /-- Only an access has an address, and only once its base is there. -/
  address : o.addressReady → s.kind.isMemory ∧ o.j.ready ∧ ∃ a : Word, o.imm = some a.toInt
  /-- A call knows its target. -/
  target : ∀ l : Label, o.instr = .call l →
    o.imm = some (if relative then l.val + (o.pc + 1) else l.val)

/-- **The instructions for each kind of unit.** -/
theorem Station.Fits.instr_eq {relative : Bool} {s : Station} {o : Occupant} {kind : UnitKind}
    (h : s.Fits relative o) (hk : s.kind = kind) :
    match kind with
    | .load => ∃ rA rB off, o.instr = .load rA rB off
    | .store => ∃ rA rB off, o.instr = .store rA rB off
    | .beq => ∃ rA rB off, o.instr = .beq rA rB off
    | .callRet => (∃ l, o.instr = .call l) ∨ o.instr = .ret
    | .addSub | .nor | .mul => ∃ op rA rB rC, o.instr = .alu op rA rB rC := by
  have hunit := h.unit
  rw [hk] at hunit
  rcases hi : o.instr with _ | _ | _ | _ | _ | ⟨op, rA, rB, rC⟩ | _ <;> rw [hi] at hunit
  case alu => cases op <;> cases hunit <;> exact ⟨_, _, _, _, rfl⟩
  case undefined => cases hunit
  case call => cases hunit; exact .inl ⟨_, rfl⟩
  case ret => cases hunit; exact .inr rfl
  all_goals
    cases hunit
    exact ⟨_, _, _, rfl⟩

/-- A branch keeps its offset. -/
theorem Station.Fits.exists_branch {relative : Bool} {s : Station} {o : Occupant}
    (h : s.Fits relative o) (kind : s.kind = .beq) :
    ∃ rA rB off, o.instr = .beq rA rB off ∧ o.imm = some off := by
  obtain ⟨rA, rB, off, hi⟩ := h.instr_eq kind
  refine ⟨rA, rB, off, hi, h.offset ?_ off (by rw [hi]; rfl)⟩
  rw [← Bool.not_eq_true]
  intro hready
  have := (h.address hready).1
  rw [kind] at this
  cases this

/-- The entry is what a history says of the instruction in the station. -/
structure Entry.IsOf (e : Entry) (s : Station) (o : Occupant) : Prop where
  seq : e.seq = o.seq
  tag : e.tag = s.tag
  instr : e.instr = o.instr
  pc : e.pc = o.pc
  station : e.station = s.name

namespace Machine

/-! ## All of them -/

/-- **What the machine keeps in different places agrees.** -/
structure Coherent (m : Machine) : Prop where
  /-- A station's tag is its position. -/
  tags : ∀ (n : Nat) (s : Station), m.stations[n]? = some s → s.tag = n
  /-- A free station has no result. -/
  idle : ∀ s ∈ m.stations, s.occupant = none → s.result = none
  /-- The history of issues is in order. -/
  inOrder : InOrder m.issued
  /-- The next number is new. -/
  fresh : ∀ e ∈ m.issued, e.seq < m.nextSeq
  /-- What a station holds has been issued. -/
  owner : ∀ n s o, m.Holds n s o → ∃ e ∈ m.issued, e.IsOf s o
  fits : ∀ n s o, m.Holds n s o → s.Fits m.relativeCalls o
  /-- Operands wait for the producers among the instructions before. -/
  sources : ∀ n s o, m.Holds n s o →
    m.Supplies (m.before o.seq) o.instr.sources.1 o.j ∧
      m.Supplies (m.before o.seq) o.instr.sources.2 o.k
  /-- A pending branch has saved the status as of before it. -/
  saved : ∀ n s o, m.Holds n s o → s.kind = .beq →
    ∃ table, o.checkpoint = some table ∧ m.Describes (m.before o.seq) table
  /-- The status table is that of everything issued. -/
  status : m.Describes m.renamers m.registers.status
  /-- What is speculative has not left its station. -/
  aloft : ∀ e ∈ m.issued, ¬ m.OnPath e.seq → e.seq ∈ m.flight
  /-- And has neither a result nor an address. -/
  waiting : ∀ n s o, m.Holds n s o → ¬ m.OnPath o.seq →
    s.result = none ∧ o.addressReady = false
  /-- Nothing is issued after a jump that has not resolved. -/
  jumpLast : ∀ n s o, m.Holds n s o → s.kind = .callRet → ∀ e ∈ m.issued, e.seq ≤ o.seq
  branchFlag : m.branchPending = true ↔ ∃ n s o, m.Holds n s o ∧ s.kind = .beq
  jumpFlag : m.jumpPending = true ↔ ∃ n s o, m.Holds n s o ∧ s.kind = .callRet

variable {m m' : Machine} {n k : Nat} {s s' : Station} {o o' : Occupant} {e w : Entry} {q : Int}
variable {r : Reg} {l : List Entry}

namespace Coherent

/-! ### One instruction, one station -/

/-- The entry of a number in flight is that of the instruction in flight. -/
theorem isOf (h : m.Coherent) (hold : m.Holds n s o) (he : e ∈ m.issued) (hseq : e.seq = o.seq) :
    e.IsOf s o := by
  obtain ⟨e', he', hof⟩ := h.owner n s o hold
  obtain rfl := h.inOrder.eq_of_seq_eq he he' (hseq.trans hof.seq.symm)
  exact hof

/-- An instruction in flight is held at the position its entry names. -/
theorem tag_eq (h : m.Coherent) (hold : m.Holds n s o) (he : e ∈ m.issued)
    (hseq : e.seq = o.seq) : e.tag = n :=
  (h.isOf hold he hseq).tag.trans (h.tags n s hold.1)

/-- **Two stations never hold the same instruction.** -/
theorem position_eq (h : m.Coherent) (hold : m.Holds n s o) (hold' : m.Holds k s' o')
    (hseq : o.seq = o'.seq) : n = k := by
  obtain ⟨e, he, hof⟩ := h.owner n s o hold
  have hn := h.tag_eq hold he hof.seq
  have hk := h.tag_eq hold' he (hof.seq.trans hseq)
  exact Int.ofNat.inj (hn.symm.trans hk)

/-- **A tag is the tag of one instruction in flight.** -/
theorem eq_of_tag_eq (h : m.Coherent) (he : e ∈ m.issued) (hw : w ∈ m.issued)
    (hef : e.seq ∈ m.flight) (hwf : w.seq ∈ m.flight) (htag : e.tag = w.tag) : e = w := by
  obtain ⟨n, s, o, hold, ho⟩ := mem_flight.1 hef
  obtain ⟨k, s', o', hold', ho'⟩ := mem_flight.1 hwf
  have hn := h.tag_eq hold he ho.symm
  have hk := h.tag_eq hold' hw ho'.symm
  obtain rfl : n = k := Int.ofNat.inj (hn.symm.trans (htag.trans hk))
  obtain ⟨rfl, rfl⟩ := hold.unique hold'
  exact h.inOrder.eq_of_seq_eq he hw (ho.symm.trans ho')

theorem owned_seq_lt (h : m.Coherent) (hold : m.Holds n s o) : o.seq < m.nextSeq := by
  obtain ⟨e, he, hof⟩ := h.owner n s o hold
  exact hof.seq ▸ h.fresh e he

/-- Both operands are there when the latency has elapsed. -/
theorem ready (h : m.Coherent) (hold : m.Holds n s o) (elapsed : s.latency ≤ o.cycles) :
    o.j.ready ∧ o.k.ready := by
  have hpos := s.latency_pos
  have hready := (h.fits n s o hold).started (by omega)
  rwa [Occupant.ready, Bool.and_eq_true] at hready

/-! ### Kinds of stations and instructions -/

theorem kind_eq_beq_iff (h : m.Coherent) (hold : m.Holds n s o) :
    s.kind = .beq ↔ o.instr.isBranch := by
  rw [← Instruction.unit?_eq_beq_iff, (h.fits n s o hold).unit, Option.some.injEq]

theorem kind_eq_callRet_iff (h : m.Coherent) (hold : m.Holds n s o) :
    s.kind = .callRet ↔ o.instr.isJump := by
  rw [← Instruction.unit?_eq_callRet_iff, (h.fits n s o hold).unit, Option.some.injEq]

/-- What waits for the unit of jumps and is no call is a return. -/
theorem instr_eq_ret (h : m.Coherent) (hold : m.Holds n s o) (kind : s.kind = .callRet)
    (hcall : o.instr.isCall = false) : o.instr = .ret := by
  rcases (h.fits n s o hold).instr_eq kind with ⟨l, hi⟩ | hi
  · rw [hi] at hcall
    cases hcall
  · exact hi

/-- A station whose unit does not use the bus never has a result. -/
theorem result_eq_none_of_usesBus (h : m.Coherent) (hold : m.Holds n s o)
    (hbus : s.kind.usesBus = false) : s.result = none := by
  rcases hv : s.result with - | v
  · rfl
  · rw [((h.fits n s o hold).result v hv).1] at hbus
    cases hbus

/-- An instruction whose unit does not use the bus writes nothing, unless it
is a call. -/
theorem not_writes (h : m.Coherent) (hold : m.Holds n s o) (hbus : s.kind.usesBus = false)
    (hcall : o.instr.isCall = false) : ¬ o.instr.writes r := by
  intro hw
  rw [Instruction.usesBus_of_writes hw (h.fits n s o hold).unit hcall] at hbus
  cases hbus

/-- **Only the last instruction can be a call in flight.** -/
theorem le_of_isCall (h : m.Coherent) (he : e ∈ m.issued) (hcall : e.instr.isCall)
    (hf : e.seq ∈ m.flight) {x : Entry} (hx : x ∈ m.issued) : x.seq ≤ e.seq := by
  obtain ⟨n, s, o, hold, ho⟩ := mem_flight.1 hf
  rw [← ho]
  refine h.jumpLast n s o hold ?_ x hx
  rw [h.kind_eq_callRet_iff hold, ← (h.isOf hold he ho.symm).instr]
  exact Instruction.isJump_of_isCall hcall

/-! ### The path -/

/-- **The path is what is on the path.** -/
theorem path_eq_filter (h : m.Coherent) :
    m.path = m.issued.filter fun e => !speculative m.barrier e.seq := by
  refine h.inOrder.takeWhile_eq_filter _ fun a _ b _ hlt hb => ?_
  rw [Bool.not_eq_true', speculative_barrier_eq_false_iff] at hb ⊢
  exact hb.mono (by omega)

theorem mem_path (h : m.Coherent) : e ∈ m.path ↔ e ∈ m.issued ∧ m.OnPath e.seq := by
  rw [h.path_eq_filter, List.mem_filter, Bool.not_eq_true', speculative_barrier_eq_false_iff]

theorem path_inOrder (h : m.Coherent) : InOrder m.path :=
  h.inOrder.sublist (List.takeWhile_sublist _)

/-- What was issued before an instruction on the path is on the path. -/
theorem filter_path (h : m.Coherent) (hq : m.OnPath q) :
    (m.path.filter fun e => e.seq < q) = m.before q := by
  rw [h.path_eq_filter, List.filter_filter, before]
  refine List.filter_congr fun e _ => ?_
  rw [Bool.eq_iff_iff, Bool.and_eq_true, decide_eq_true_eq, Bool.not_eq_true',
    speculative_barrier_eq_false_iff, and_iff_left_iff_imp]
  exact fun hlt => hq.mono (Int.le_of_lt hlt)

/-- Where no branch is pending everything issued is on the path. -/
theorem path_eq_issued (h : m.Coherent) (hb : ∀ q, m.OnPath q) : m.path = m.issued := by
  rw [h.path_eq_filter]
  refine List.filter_eq_self.2 fun e _ => ?_
  rw [Bool.not_eq_true', speculative_barrier_eq_false_iff]
  exact hb e.seq

/-- In an empty machine nothing is pending. -/
theorem not_pending_of_empty (h : m.Coherent) (hempty : ∀ n s o, ¬ m.Holds n s o) :
    m.branchPending = false ∧ m.jumpPending = false := by
  constructor
  · rw [← Bool.not_eq_true, h.branchFlag]
    exact fun ⟨n, s, o, hold, _⟩ => hempty n s o hold
  · rw [← Bool.not_eq_true, h.jumpFlag]
    exact fun ⟨n, s, o, hold, _⟩ => hempty n s o hold

theorem path_eq_issued_of_empty (h : m.Coherent) (hempty : ∀ n s o, ¬ m.Holds n s o) :
    m.path = m.issued :=
  h.path_eq_issued fun _ n s o hold => absurd hold (hempty n s o)

/-- The oldest pending branch ends the path. -/
theorem path_eq_before_concat (h : m.Coherent) (hold : m.Holds n s o) (kind : s.kind = .beq)
    (path : m.OnPath o.seq) (he : e ∈ m.issued) (hseq : e.seq = o.seq) :
    m.path = m.before o.seq ++ [e] := by
  rw [h.path_eq_filter, before, ← hseq, ← h.inOrder.filter_le_eq_append he]
  refine List.filter_congr fun x _ => ?_
  rw [Bool.eq_iff_iff, Bool.not_eq_true', speculative_barrier_eq_false_iff, decide_eq_true_eq]
  constructor
  · intro hx
    have := hx n s o hold kind
    omega
  · intro hx
    exact path.mono (by omega)

end Coherent

end Machine

end OutOfOrder
