import OutOfOrder.Proofs.Acts
import OutOfOrder.Proofs.Producer
/-!
# Moves

What a cycle can do, said once. The Issue stage issues one instruction or
does nothing (`issue_cases`); the Writeback stage delivers one result or
does nothing (`writeBack_cases`); and the Execute stage is a sequence of
moves, each made by one station (`execute_moves`). A move comes with all
that allowed it, and leads to a machine that is written out.

For each of these machines a lemma says who is in flight in it, in terms of
who was before. And the acts of a cycle leave nothing out: the writes among
them make the memory after the cycle (`memory_of_step`), and what they send
is what is on the bus (`onBus_of_step`).
-/

namespace OutOfOrder

theorem UnitKind.isMemory_iff {kind : UnitKind} : kind.isMemory ↔ kind = .load ∨ kind = .store := by
  cases kind <;> decide

namespace Station

/-- An occupant after one cycle of its station's timer. -/
def tick (s : Station) (o : Occupant) : Occupant :=
  if s.advances then { o with cycles := o.cycles + 1 } else o

theorem advance_occupant (s : Station) : s.advance.occupant = s.occupant.map s.tick := by
  rw [advance]
  split
  · rename_i h
    rw [show s.tick = fun o => { o with cycles := o.cycles + 1 } from funext fun o => if_pos h]
  · rename_i h
    rw [show s.tick = fun o => o from funext fun o => if_neg h, Option.map_id']

/-- A station after it has heard the result of a tag. -/
def told (s : Station) (tag : Tag) (v : Int) : Station := (s.settle tag).hear tag v

end Station

/-- An occupant after its station has heard the result of a tag. -/
def Occupant.told (o : Occupant) (kind : UnitKind) (tag : Tag) (v : Int) : Occupant :=
  { o with
    j := o.j.hear tag v
    k := o.k.hear tag v
    checkpoint := if kind = .beq then o.checkpoint.map (Station.settled tag) else o.checkpoint }

theorem Station.told_occupant (s : Station) (tag : Tag) (v : Int) :
    (s.told tag v).occupant = s.occupant.map fun o => o.told s.kind tag v := by
  by_cases h : s.kind = .beq <;>
    simp [told, settle, hear, h, Occupant.told, Occupant.hear, Function.comp_def]

theorem Station.told_toSlot (s : Station) (tag : Tag) (v : Int) :
    (s.told tag v).toSlot = s.toSlot ∧ (s.told tag v).result = s.result := by
  rw [told, settle]
  split <;> exact ⟨rfl, rfl⟩

theorem Station.advance_toSlot (s : Station) :
    s.advance.toSlot = s.toSlot ∧ s.advance.result = s.result := by
  rw [advance]
  split <;> exact ⟨rfl, rfl⟩

theorem Station.withAddress_occupant {s : Station} {o : Occupant} {a : Int}
    (ho : s.occupant = some o) :
    (s.withAddress a).occupant = some { o with imm := some a, addressReady := true } := by
  rw [withAddress, ho, Option.map_some]

namespace Machine

/-! ## The Issue stage -/

/-- The occupant that an instruction is when it is issued now. -/
def newcomer (m : Machine) (i : Instruction) : Occupant where
  instr := i
  pc := m.pc
  seq := m.nextSeq
  j := m.source i.sources.1
  k := m.source i.sources.2
  imm := m.immediate i
  checkpoint := if i.isBranch then some m.registers.status else none

/-- The station that an instruction is issued to, with the instruction. -/
def filled (m : Machine) (i : Instruction) (s : Station) : Station :=
  { s with result := none, occupant := some (m.newcomer i) }

/-- What the history of issues says of an instruction that is issued now. -/
def issueEntry (m : Machine) (i : Instruction) (s : Station) : Entry :=
  ⟨i, m.cycle, s.name, s.tag, m.pc, m.nextSeq⟩

/-- The machine after it has issued an instruction to a station. -/
def dispatched (m : Machine) (i : Instruction) (s : Station) (n : Nat) : Machine :=
  { m with
    nextSeq := m.nextSeq + 1
    stations := m.stations.set n (m.filled i s)
    registers := m.renamed i s.tag
    issued := m.issued ++ [m.issueEntry i s]
    pc := m.pc + 1
    issuedAfterBranch := m.issuedAfterBranch + (if m.branchPending then 1 else 0)
    branchPending := m.branchPending || i.isBranch
    branches := m.branches + (if i.isBranch then 1 else 0)
    jumpPending := m.jumpPending || i.isJump }

variable {m m' : Machine} {n : Nat} {s : Station} {o : Occupant}

theorem issueTo_of_free {i : Instruction} (h : s.occupant = none) :
    m.issueTo i s n = .ok (m.dispatched i s n) := by
  cases hb : i.isBranch <;>
    simp [issueTo, Station.issue, Station.busy, h, hb, dispatched, filled, newcomer, issueEntry,
      Station.saveStatus, source, immediate, renamed]

theorem mem_issued_dispatched {i : Instruction} {e : Entry} :
    e ∈ (m.dispatched i s n).issued ↔ e ∈ m.issued ∨ e = m.issueEntry i s := by
  rw [dispatched, List.mem_append, List.mem_singleton]

theorem freeStation?_eq_some {kind : UnitKind} (h : m.freeStation? kind = some (s, n)) :
    m.stations[n]? = some s ∧ s.kind = kind ∧ s.occupant = none := by
  have hmem := List.mem_of_find?_eq_some h
  have hp := List.find?_some h
  simp only [Bool.and_eq_true, decide_eq_true_eq, Bool.not_eq_true', Station.busy,
    Option.isSome_eq_false_iff, Option.isNone_iff_eq_none] at hp
  exact ⟨List.mem_zipIdx_iff_getElem?.1 hmem, hp.1, hp.2⟩

/-- **What the Issue stage can do.** It issues the instruction at the
program counter to a free station of its kind, or it does nothing: because
a jump is pending, because there is no instruction, or because there is no
station. It never fails. -/
theorem issue_cases (m : Machine) :
    (∃ i kind s n, m.jumpPending = false ∧ m.fetch = .instruction i kind ∧
      m.freeStation? kind = some (s, n) ∧ m.issue = .ok (m.dispatched i s n)) ∨
    (m.issue = .ok m ∧ (m.jumpPending = true ∨ (∀ i kind, m.fetch ≠ .instruction i kind) ∨
      ∃ i kind, m.fetch = .instruction i kind ∧ m.freeStation? kind = none)) := by
  by_cases hj : m.jumpPending
  · exact .inr ⟨by simp [issue, hj], .inl hj⟩
  · rcases hf : m.fetch with - | w | ⟨i, kind⟩
    · exact .inr ⟨by simp [issue, hj, hf], .inr (.inl (by simp))⟩
    · exact .inr ⟨by simp [issue, hj, hf], .inr (.inl (by simp))⟩
    · rcases hs : m.freeStation? kind with - | ⟨s, n⟩
      · exact .inr ⟨by simp [issue, hj, hf, hs], .inr (.inr ⟨i, kind, rfl, hs⟩)⟩
      · refine .inl ⟨i, kind, s, n, by simpa using hj, rfl, hs, ?_⟩
        rw [← issueTo_of_free (freeStation?_eq_some hs).2.2]
        simp [issue, hj, hf, hs]

theorem exists_issue (m : Machine) : ∃ m', m.issue = .ok m' := by
  rcases issue_cases m with ⟨_, _, _, _, -, -, -, heq⟩ | ⟨heq, -⟩ <;> exact ⟨_, heq⟩

/-- The machine after the Issue stage has the instruction in a station that
was free, or it is the same as before. -/
theorem issue_eq_ok (h : m.issue = .ok m') :
    (∃ i s n, m.jumpPending = false ∧ m.fetch = .instruction i s.kind ∧
      m.stations[n]? = some s ∧ s.occupant = none ∧ m' = m.dispatched i s n) ∨ m' = m := by
  rcases issue_cases m with ⟨i, kind, s, n, hjump, hf, hs, heq⟩ | ⟨heq, -⟩ <;> rw [heq] at h <;>
    cases h
  · obtain ⟨hst, rfl, hfree⟩ := freeStation?_eq_some hs
    exact .inl ⟨i, s, n, hjump, hf, hst, hfree, rfl⟩
  · exact .inr rfl

/-! ## Moves of the Execute stage -/

/-- The machine after a taken branch has moved it to an address, and before
the branch leaves its station. -/
def redirected (m : Machine) (o : Occupant) (target : Address) (kept : List Entry)
    (saved : StatusTable) : Machine :=
  { m with
    pc := target.val
    mispredictions := m.mispredictions + 1
    issued := kept
    stations := m.stations.map (Station.squash o.seq)
    registers := m.registers.restore saved }

/-- The machine after a taken branch has left its station. -/
def branched (m : Machine) (n : Nat) (s : Station) (o : Occupant) (target : Address)
    (kept : List Entry) (saved : StatusTable) : Machine :=
  (finish (m.redirected o target kept saved) n s o).refreshFlags

/-- The machine after a call has written its return address and moved to its
target, and before it leaves its station. -/
def called (m : Machine) (o : Occupant) (target : Address) : Machine :=
  { m with
    registers := (m.registers.set Reg.link (o.pc + 1)).commit Reg.link
    pc := target.val
    jumpPending := false }

/-- The machine after a return has moved to its target, and before it leaves
its station. -/
def returned (m : Machine) (n : Nat) (s : Station) (o : Occupant) (target : Address) : Machine :=
  { m with
    stations := m.stations.set n { s with occupant := some { o with imm := o.j.value? } }
    pc := target.val
    jumpPending := false }

/-- The machine after a store has written memory, and before it leaves its
station. -/
def stored (m : Machine) (a : Word) (v : Int) : Machine :=
  { m with memory := m.memory.set a (Word.ofInt v) }

/-- The machine after a station has got its result. -/
def resulted (m : Machine) (n : Nat) (s : Station) (o : Occupant) (v : Int) : Machine :=
  { m with
    stations := m.stations.set n (s.withResult v)
    executed := m.executed ++ [m.entry s o] }

/-- **One move of the Execute stage.** A station whose instruction is on the
path computes its address, accesses memory, computes its result or
resolves. -/
inductive Move (m : Machine) : List Act → Machine → Prop
  | address {n : Nat} {s : Station} {o : Occupant} {base offset : Int}
      (hold : m.Holds n s o) (path : m.OnPath o.seq) (kind : s.kind.isMemory)
      (due : s.addressDue o) (hj : o.j.value? = some base) (himm : o.imm = some offset) :
      Move m [] (m.setStation n (s.withAddress (wrap (base + offset))))
  | load {n : Nat} {s : Station} {o : Occupant} {a : Word}
      (hold : m.Holds n s o) (path : m.OnPath o.seq) (kind : s.kind = .load)
      (due : accessDue s o) (clear : m.hazard? n s o = none) (himm : o.imm = some a.toInt) :
      Move m [] (m.resulted n s o (m.memory.get a).toInt)
  | store {n : Nat} {s : Station} {o : Occupant} {a : Word} {v : Int}
      (hold : m.Holds n s o) (path : m.OnPath o.seq) (kind : s.kind = .store)
      (due : accessDue s o) (clear : m.hazard? n s o = none) (himm : o.imm = some a.toInt)
      (hk : o.k.value? = some v) :
      Move m [.write o.seq a.toInt v]
        (finish (m.stored a v) n s o)
  | compute {n : Nat} {s : Station} {o : Occupant} {op : AluOp} {rA rB rC : Reg} {a b : Int}
      (hold : m.Holds n s o) (path : m.OnPath o.seq) (hinstr : o.instr = .alu op rA rB rC)
      (fresh : s.result = none) (elapsed : s.latency ≤ o.cycles)
      (hj : o.j.value? = some a) (hk : o.k.value? = some b) :
      Move m [] (m.resulted n s o (op.eval a b))
  | fall {n : Nat} {s : Station} {o : Occupant}
      (hold : m.Holds n s o) (path : m.OnPath o.seq) (kind : s.kind = .beq)
      (elapsed : s.latency ≤ o.cycles) (htaken : taken o = false) :
      Move m [.resolve o.seq false] (m.finish n s o).refreshFlags
  | branch {n : Nat} {s : Station} {o : Occupant} {offset : Int} {target : Word} {i : Nat}
      {saved : StatusTable}
      (hold : m.Holds n s o) (path : m.OnPath o.seq) (kind : s.kind = .beq)
      (elapsed : s.latency ≤ o.cycles) (htaken : taken o = true) (himm : o.imm = some offset)
      (htarget : o.pc + 1 + offset = target.toInt)
      (hfind : (m.issued.findIdx? fun e => e.seq = o.seq) = some i)
      (hsaved : o.checkpoint = some saved) :
      Move m [.resolve o.seq true]
        (m.branched n s o target (m.issued.take (i + 1)) saved)
  | call {n : Nat} {s : Station} {o : Occupant} {target : Word}
      (hold : m.Holds n s o) (path : m.OnPath o.seq) (kind : s.kind = .callRet)
      (elapsed : s.latency ≤ o.cycles) (hinstr : o.instr.isCall) (himm : o.imm = some target.toInt) :
      Move m [] (finish (m.called o target) n s o)
  | ret {n : Nat} {s : Station} {o : Occupant} {target : Word}
      (hold : m.Holds n s o) (path : m.OnPath o.seq) (kind : s.kind = .callRet)
      (elapsed : s.latency ≤ o.cycles) (hinstr : o.instr.isCall = false)
      (hj : o.j.value? = some target.toInt) :
      Move m [] (finish (m.returned n s o target) n s o)

/-- Moves one after the other, with their acts. -/
inductive Moves : Machine → List Act → Machine → Prop
  | refl (m : Machine) : Moves m [] m
  | cons {m m₁ m₂ : Machine} {l l' : List Act} (first : Move m l m₁) (rest : Moves m₁ l' m₂) :
      Moves m (l ++ l') m₂

theorem Moves.single {l : List Act} (h : Move m l m') : Moves m l m' := by
  simpa using Moves.cons h (Moves.refl m')

theorem Moves.trans {m₁ m₂ m₃ : Machine} {l l' : List Act} (h : Moves m₁ l m₂)
    (h' : Moves m₂ l' m₃) : Moves m₁ (l ++ l') m₃ := by
  induction h with
  | refl => exact h'
  | cons first rest ih => simpa using Moves.cons first (ih h')

/-! ### Who is in flight after a move -/

section Holds

variable {k : Nat} {s' : Station} {o' : Occupant}

theorem holds_finish (hn : n < m.stations.length) :
    (m.finish n s o).Holds k s' o' ↔ k ≠ n ∧ m.Holds k s' o' := by
  rw [holds_set (m := m) rfl hn]
  constructor
  · rintro (⟨-, -, ho⟩ | h)
    · cases ho
    · exact h
  · exact .inr

theorem holds_setStation {s₀ : Station} (hn : n < m.stations.length) :
    (m.setStation n s₀).Holds k s' o' ↔
      (k = n ∧ s' = s₀ ∧ s₀.occupant = some o') ∨ (k ≠ n ∧ m.Holds k s' o') :=
  holds_set rfl hn

theorem holds_resulted {v : Int} (hold : m.Holds n s o) :
    (m.resulted n s o v).Holds k s' o' ↔
      (k = n ∧ s' = s.withResult v ∧ o' = o) ∨ (k ≠ n ∧ m.Holds k s' o') := by
  rw [holds_set (m := m) rfl hold.lt_length]
  simp only [Station.withResult, hold.2, Option.some.injEq, eq_comm]

theorem holds_redirected {target : Word} {kept : List Entry} {saved : StatusTable} :
    (m.redirected o target kept saved).Holds k s' o' ↔ m.Holds k s' o' ∧ o'.seq ≤ o.seq := by
  simp only [Holds, redirected, List.getElem?_map, Option.map_eq_some_iff, Station.squash]
  constructor
  · rintro ⟨⟨s₁, hs₁, rfl⟩, ho⟩
    split at ho
    · cases ho
    · rename_i hany
      rw [if_neg hany]
      rw [ho] at hany
      exact ⟨⟨hs₁, ho⟩, by simpa using hany⟩
  · rintro ⟨⟨hs, ho⟩, hseq⟩
    refine ⟨⟨s', hs, ?_⟩, ho⟩
    rw [if_neg]
    simpa [ho] using hseq

theorem holds_returned {target : Word} (hold : m.Holds n s o) :
    (m.returned n s o target).Holds k s' o' → k ≠ n → m.Holds k s' o' := by
  intro h hk
  rcases (holds_set (m := m) rfl hold.lt_length).1 h with ⟨rfl, -⟩ | h
  · exact absurd rfl hk
  · exact h.2

/-- **Who is in flight after a move was in flight before it**, in the same
station, and is the same unless its address has been computed. A result is
kept. -/
theorem Move.origin {l : List Act} (h : Move m l m') (hold : m'.Holds k s' o') :
    ∃ s o, m.Holds k s o ∧ s'.toSlot = s.toSlot ∧ (s.result.isSome → s'.result.isSome) ∧
      o' = { o with imm := o'.imm, addressReady := o'.addressReady } ∧
      (o'.addressReady ∨ o' = o) := by
  cases h with
  | @address n s o base offset h =>
    rcases (holds_setStation h.lt_length).1 hold with ⟨rfl, rfl, ho⟩ | ⟨-, h'⟩
    · simp only [Station.withAddress, h.2, Option.map_some, Option.some.injEq] at ho
      exact ⟨s, o, h, rfl, id, by rw [← ho], .inl (by rw [← ho])⟩
    · exact ⟨s', o', h', rfl, id, rfl, .inr rfl⟩
  | load h =>
    rcases (holds_resulted h).1 hold with ⟨rfl, rfl, rfl⟩ | ⟨-, h'⟩
    · exact ⟨_, _, h, rfl, fun _ => rfl, rfl, .inr rfl⟩
    · exact ⟨s', o', h', rfl, id, rfl, .inr rfl⟩
  | compute h =>
    rcases (holds_resulted h).1 hold with ⟨rfl, rfl, rfl⟩ | ⟨-, h'⟩
    · exact ⟨_, _, h, rfl, fun _ => rfl, rfl, .inr rfl⟩
    · exact ⟨s', o', h', rfl, id, rfl, .inr rfl⟩
  | @store n s o a v h =>
    have hold₀ := ((holds_finish (m := m.stored a v) h.lt_length).1 hold).2
    exact ⟨s', o', hold₀, rfl, id, rfl, .inr rfl⟩
  | @fall n s o h =>
    exact ⟨s', o', ((holds_finish (o := o) h.lt_length).1 hold).2, rfl, id, rfl, .inr rfl⟩
  | @branch n s o offset target i saved h =>
    have hlen : n < (m.redirected o target (m.issued.take (i + 1)) saved).stations.length := by
      simpa [redirected] using h.lt_length
    have hold₀ := (holds_redirected.1 ((holds_finish (o := o) hlen).1 hold).2).1
    exact ⟨s', o', hold₀, rfl, id, rfl, .inr rfl⟩
  | @call n s o target h =>
    have hold₀ := ((holds_finish (m := m.called o target) h.lt_length).1 hold).2
    exact ⟨s', o', hold₀, rfl, id, rfl, .inr rfl⟩
  | @ret n s o target h =>
    have hlen : n < (m.returned n s o target).stations.length := by
      simpa [returned] using h.lt_length
    obtain ⟨hk, h'⟩ := (holds_finish (o := o) hlen).1 hold
    exact ⟨s', o', holds_returned h h' hk, rfl, id, rfl, .inr rfl⟩

/-- The same of moves one after the other. -/
theorem Moves.origin_eq {l : List Act} (h : Moves m l m') (hold : m'.Holds k s' o') :
    ∃ s o, m.Holds k s o ∧ s'.toSlot = s.toSlot ∧ (s.result.isSome → s'.result.isSome) ∧
      o' = { o with imm := o'.imm, addressReady := o'.addressReady } ∧
      (o'.addressReady ∨ o' = o) := by
  induction h with
  | refl => exact ⟨s', o', hold, rfl, id, rfl, .inr rfl⟩
  | cons first rest ih =>
    obtain ⟨s₁, o₁, hold₁, hslot₁, hres₁, ho₁, hsame₁⟩ := ih hold
    obtain ⟨s, o, hold₀, hslot, hres, ho, hsame⟩ := first.origin hold₁
    refine ⟨s, o, hold₀, hslot₁.trans hslot, fun h => hres₁ (hres h), by rw [ho₁, ho], ?_⟩
    rcases hsame₁ with hready | rfl
    · exact .inl hready
    · exact hsame

/-- The timer of an instruction in flight stands still in the Execute
stage. -/
theorem Moves.origin {l : List Act} (h : Moves m l m') (hold : m'.Holds k s' o') :
    ∃ s o, m.Holds k s o ∧ s'.toSlot = s.toSlot ∧ (s.result.isSome → s'.result.isSome) ∧
      o'.seq = o.seq ∧ o'.cycles = o.cycles := by
  obtain ⟨s, o, hold₀, hslot, hres, ho, -⟩ := h.origin_eq hold
  exact ⟨s, o, hold₀, hslot, hres, by rw [ho], by rw [ho]⟩

theorem Move.onPath {l : List Act} {q : Int} (h : Move m l m') (path : m.OnPath q) :
    m'.OnPath q := by
  intro k s' o' hold kind
  obtain ⟨s, o, hold₀, hs, -, ho, -⟩ := h.origin hold
  rw [ho]
  exact path k s o hold₀ (by rw [← kind, hs])

theorem Moves.onPath {l : List Act} {q : Int} (h : Moves m l m') (path : m.OnPath q) :
    m'.OnPath q := by
  induction h with
  | refl => exact path
  | cons first rest ih => exact ih (first.onPath path)

theorem Move.mem_flight {l : List Act} {q : Int} (h : Move m l m') (hq : q ∈ m'.flight) :
    q ∈ m.flight := by
  obtain ⟨k, s', o', hold, rfl⟩ := Machine.mem_flight.1 hq
  obtain ⟨s, o, hold₀, -, -, ho, -⟩ := h.origin hold
  rw [ho]
  exact hold₀.mem_flight

theorem Moves.mem_flight {l : List Act} {q : Int} (h : Moves m l m') (hq : q ∈ m'.flight) :
    q ∈ m.flight := by
  induction h with
  | refl => exact hq
  | cons first rest ih => exact first.mem_flight (ih hq)

end Holds

/-! ### Turns are moves -/

theorem guard_eq_ok_iff {α : Type} {x : Except Fault α} {a : α} :
    m.guard x = .ok a ↔ x = .ok a := by
  cases x <;> simp [guard]

theorem read_eq_ok {mem : Memory} {a v : Int} (h : mem.read a = .ok v) :
    ∃ w : Word, a = w.toInt ∧ v = (mem.get w).toInt := by
  simp only [Memory.read, Memory.address] at h
  split at h
  · rename_i hb
    exact ⟨_, (Word.toInt_toNat hb).symm, by simpa [Except.map] using h.symm⟩
  · simp [Except.map] at h

theorem write_eq_ok {mem mem' : Memory} {a v : Int} (h : mem.write a v = .ok mem') :
    ∃ w : Word, a = w.toInt ∧ mem' = mem.set w (Word.ofInt v) := by
  simp only [Memory.write, Memory.address] at h
  split at h
  · rename_i hb
    exact ⟨_, (Word.toInt_toNat hb).symm, by simpa [Except.map] using h.symm⟩
  · simp [Except.map] at h

theorem jumpTo_eq_ok {a : Int} (h : m.jumpTo a = .ok m') :
    ∃ w : Word, a = w.toInt ∧ m' = { m with pc := w.val } := by
  simp only [jumpTo, address] at h
  split at h
  · rename_i hb
    exact ⟨_, (Word.toInt_toNat hb).symm, by simpa [Except.map, guard] using h.symm⟩
  · simp [Except.map, guard] at h

/-- Nothing is in the way of an access if no other station blocks it. -/
theorem hazard?_eq_none_iff :
    m.hazard? n s o = none ↔
      ∀ (k : Nat) (s' : Station), m.stations[k]? = some s' → k ≠ n → blocks s o s' = false := by
  simp only [hazard?, Option.map_eq_none_iff, List.find?_eq_none, List.mem_zipIdx_iff_getElem?,
    Prod.forall, Bool.and_eq_true, decide_eq_true_eq, not_and, Bool.not_eq_true]
  exact ⟨fun h k s' hs hk => h s' k hs hk, fun h s' k hs hk => h k s' hs hk⟩

/-- Computing an address is a move, or nothing. -/
theorem computeAddress_moves (hold : m.Holds n s o) (path : m.OnPath o.seq)
    (kind : s.kind.isMemory) (h : m.computeAddress n = .ok m') : Moves m [] m' := by
  rw [computeAddress, occupied?_eq_some_iff.2 hold] at h
  dsimp only at h
  split at h
  · rename_i due
    rcases hj : o.j.value? with - | base
    · simp [hj, trap] at h
    rcases himm : o.imm with - | offset
    · simp [hj, himm, trap] at h
    simp only [hj, himm, Except.ok.injEq] at h
    exact h ▸ Moves.single (.address hold path kind due hj himm)
  · cases h
    exact .refl m

/-- The station is still in use after its address has been computed. -/
theorem holds_computeAddress (hold : m.Holds n s o) (h : m.computeAddress n = .ok m') :
    ∃ s' o', m'.Holds n s' o' ∧ s'.kind = s.kind ∧ o'.seq = o.seq := by
  rw [computeAddress, occupied?_eq_some_iff.2 hold] at h
  dsimp only at h
  split at h
  · split at h
    · cases h
      exact ⟨_, _, (holds_setStation hold.lt_length).2
        (.inl ⟨rfl, rfl, Station.withAddress_occupant hold.2⟩), rfl, rfl⟩
    · cases h
  · cases h
    exact ⟨s, o, hold, rfl, rfl⟩

/-- Accessing memory is a move, or nothing. -/
theorem access_moves (hold : m.Holds n s o) (path : m.OnPath o.seq)
    (kind : s.kind = .load ∨ s.kind = .store) (h : m.access n = .ok m') :
    Moves m (m.accessActs n) m' := by
  rw [access, occupied?_eq_some_iff.2 hold] at h
  rw [accessActs, occupied?_eq_some_iff.2 hold]
  dsimp only at h ⊢
  rcases hgo : accessDue s o && (m.hazard? n s o).isNone with - | -
  · rw [hgo] at h
    cases h
    simpa [Bool.and_assoc, hgo] using Moves.refl m
  obtain ⟨due, clear⟩ := Bool.and_eq_true_iff.1 hgo
  rw [Option.isNone_iff_eq_none] at clear
  rw [hgo, if_pos rfl] at h
  rcases kind with kind | kind
  · rw [if_pos kind, performLoad] at h
    rcases himm : o.imm with - | a
    · simp [himm, trap] at h
    simp only [himm, bind, Except.bind] at h
    split at h
    · cases h
    · rename_i v hread
      obtain ⟨w, rfl, rfl⟩ := read_eq_ok (guard_eq_ok_iff.1 hread)
      cases h
      simpa [kind, resulted] using Moves.single (.load hold path kind due clear himm)
  · rw [if_neg (by simp [kind]), performStore] at h
    rcases himm : o.imm with - | a
    · simp [himm, trap] at h
    rcases hk : o.k.value? with - | v
    · simp [himm, hk, trap] at h
    simp only [himm, hk, bind, Except.bind] at h
    split at h
    · cases h
    · rename_i mem hwrite
      obtain ⟨w, rfl, rfl⟩ := write_eq_ok (guard_eq_ok_iff.1 hwrite)
      cases h
      simpa [kind, due, clear, stored] using Moves.single (.store hold path kind due clear himm hk)

/-- Both together are moves: the address may come before the access. -/
theorem memory_moves (hold : m.Holds n s o) (path : m.OnPath o.seq)
    (kind : s.kind = .load ∨ s.kind = .store)
    (h : (m.computeAddress n >>= fun m => m.access n) = .ok m') :
    Moves m (m.memoryActs n) m' := by
  rw [memoryActs]
  rcases hc : m.computeAddress n with t | m₁ <;> rw [hc] at h
  · cases h
  have first := computeAddress_moves hold path (UnitKind.isMemory_iff.2 kind) hc
  obtain ⟨s₁, o₁, hold₁, hs, ho⟩ := holds_computeAddress hold hc
  have path₁ : m₁.OnPath o₁.seq := by
    rw [ho]
    exact first.onPath path
  exact first.trans (access_moves hold₁ path₁ (by rwa [hs]) h)

/-- A branch that resolves is a move. -/
theorem resolveBranch_moves (hold : m.Holds n s o) (path : m.OnPath o.seq) (kind : s.kind = .beq)
    (elapsed : s.latency ≤ o.cycles) (h : m.resolveBranch n s o = .ok m') :
    Moves m [.resolve o.seq (taken o)] m' := by
  rcases ht : taken o with - | -
  · simp only [resolveBranch, ht, Bool.false_eq_true, if_false, pure, Except.pure, bind,
      Except.bind, Except.ok.injEq] at h
    exact h ▸ Moves.single (.fall hold path kind elapsed ht)
  simp only [resolveBranch, ht, if_true, bind, Except.bind] at h
  split at h
  · cases h
  rename_i m₁ htake
  cases h
  rw [takeBranch] at htake
  rcases himm : o.imm with - | offset
  · simp [himm, trap] at htake
  simp only [himm, bind, Except.bind] at htake
  split at htake
  · cases htake
  rename_i m₂ hjump
  obtain ⟨target, htarget, rfl⟩ := jumpTo_eq_ok hjump
  dsimp only at htake
  rcases hfind : m.issued.findIdx? (fun e => e.seq = o.seq) with - | i
  · simp [hfind, trap] at htake
  rcases hsaved : o.checkpoint with - | saved
  · simp [hfind, hsaved, trap] at htake
  simp only [hfind, hsaved, pure, Except.pure, Except.ok.injEq] at htake
  exact htake ▸ Moves.single (.branch hold path kind elapsed ht himm htarget hfind hsaved)

/-- A jump that resolves is a move. -/
theorem resolveJump_moves (hold : m.Holds n s o) (path : m.OnPath o.seq)
    (kind : s.kind = .callRet) (elapsed : s.latency ≤ o.cycles)
    (h : m.resolveJump n s o = .ok m') : Moves m [] m' := by
  rw [resolveJump, departure] at h
  by_cases hcall : o.instr.opCode? = some .call
  · rw [if_pos hcall] at h
    rcases himm : o.imm with - | a
    · simp [himm, trap] at h
    simp only [himm, bind, Except.bind] at h
    split at h
    · cases h
    rename_i m₁ hjump
    obtain ⟨target, rfl, rfl⟩ := jumpTo_eq_ok hjump
    cases h
    exact Moves.single
      (.call hold path kind elapsed (by simpa [Instruction.isCall] using hcall) himm)
  · rw [if_neg hcall] at h
    rcases hj : o.j.value? with - | a
    · simp [hj, trap] at h
    simp only [hj, bind, Except.bind] at h
    split at h
    · cases h
    rename_i m₁ hjump
    obtain ⟨target, rfl, rfl⟩ := jumpTo_eq_ok hjump
    cases h
    have := Moves.single (.ret hold path kind elapsed (by simpa [Instruction.isCall] using hcall) hj)
    simpa [returned, setStation, hj] using this

/-- A unit that computes is a move. -/
theorem compute_moves (hold : m.Holds n s o) (path : m.OnPath o.seq) (fresh : s.result = none)
    (elapsed : s.latency ≤ o.cycles) (h : m.compute n s o = .ok m') : Moves m [] m' := by
  rw [compute] at h
  rcases hinstr : o.instr with _ | _ | _ | _ | _ | ⟨op, rA, rB, rC⟩ | _ <;>
    simp only [hinstr, trap, reduceCtorEq] at h
  rcases hj : o.j.value? with - | a
  · simp [hj] at h
  rcases hk : o.k.value? with - | b
  · simp [hj, hk] at h
  simp only [hj, hk, Except.ok.injEq] at h
  exact h ▸ Moves.single (.compute hold path hinstr fresh elapsed hj hk)

/-- **A turn is a sequence of moves.** The barrier is that of the beginning
of the stage, and it lets only instructions on the path take a turn. -/
theorem turn_moves {barrier : Option Int}
    (hb : ∀ q, speculative barrier q = false → m.OnPath q) (h : turn barrier m n = .ok m') :
    Moves m (turnActs barrier m n) m' := by
  rw [turn] at h
  rw [turnActs]
  rcases hocc : m.occupied? n with - | ⟨s, o⟩
  · rw [hocc] at h
    cases h
    exact .refl m
  have hold := occupied?_eq_some_iff.1 hocc
  rw [hocc] at h
  dsimp only at h ⊢
  split at h
  · rename_i hspec
    cases h
    simpa [hspec] using Moves.refl m
  rename_i hspec
  have path := hb o.seq (by simpa using hspec)
  rw [if_neg hspec]
  rcases hk : s.kind with _ | _ | _ | _ | _ | _ | _ <;> simp only [hk] at h ⊢
  case load => exact memory_moves hold path (.inl hk) h
  case store => exact memory_moves hold path (.inr hk) h
  case beq =>
    split at h
    · rename_i elapsed
      simpa [elapsed] using resolveBranch_moves hold path hk elapsed h
    · rename_i elapsed
      cases h
      simpa [elapsed] using Moves.refl m
  case callRet =>
    split at h
    · rename_i elapsed
      exact resolveJump_moves hold path hk elapsed h
    · cases h
      exact .refl m
  all_goals
    split at h
    · rename_i due
      simp only [Bool.and_eq_true, Option.isNone_iff_eq_none, decide_eq_true_eq] at due
      exact compute_moves hold path due.1 due.2 h
    · cases h
      exact .refl m

/-- Turns one after the other are moves. -/
theorem turns_moves {barrier : Option Int} {ns : List Nat}
    (hb : ∀ q, speculative barrier q = false → m.OnPath q)
    (h : ns.foldlM (turn barrier) m = .ok m') : Moves m (turnsActs barrier m ns) m' := by
  induction ns generalizing m with
  | nil =>
    cases h
    exact .refl _
  | cons n ns ih =>
    rw [List.foldlM_cons] at h
    rcases ht : turn barrier m n with t | m₁
    · rw [ht] at h
      cases h
    rw [ht] at h
    have first := turn_moves hb ht
    have rest := ih (fun q hq => first.onPath (hb q hq)) h
    rw [turnsActs, ht]
    exact first.trans rest

/-- **What the Execute stage can do.** It makes moves. -/
theorem execute_moves (h : m.execute = .ok m') : Moves m m.executeActs m' :=
  turns_moves (fun _ hq => speculative_barrier_eq_false_iff.1 hq) h

/-! ## The Writeback stage -/

/-- The machine after it has sent a result. -/
def sent (m : Machine) (x : Sender) : Machine :=
  deliver { m with onBus := some (x.station.tag, x.value), broadcasts := m.broadcasts + 1 } x

/-- Who can send for an entry holds its instruction and a result. -/
theorem sender?_eq_some {e : Entry} {x : Sender} (h : m.sender? e = some x) :
    m.Holds x.position x.station x.occupant ∧ x.station.result = some x.value ∧
      x.station.kind.usesBus ∧ x.station.latency < x.occupant.cycles ∧ e.seq = x.occupant.seq := by
  rw [sender?] at h
  split at h
  · cases h
  rename_i s o hocc
  split at h
  · cases h
  rename_i v hv
  split at h
  · rename_i hgo
    simp only [Bool.and_eq_true, decide_eq_true_eq] at hgo
    cases h
    exact ⟨occupied?_eq_some_iff.1 hocc, hv, hgo.1.2, hgo.2, hgo.1.1.symm⟩
  · cases h

/-- **Who sends.** The sender holds a result, is past its latency, uses the
bus and is on the path of what was issued. -/
theorem nextSender?_eq_some {x : Sender} (h : m.nextSender? = some x) :
    m.Holds x.position x.station x.occupant ∧ x.station.result = some x.value ∧
      x.station.kind.usesBus ∧ x.station.latency < x.occupant.cycles ∧
      ∃ e ∈ m.path, e.seq = x.occupant.seq := by
  obtain ⟨e, he, hx⟩ := List.exists_of_findSome?_eq_some h
  obtain ⟨hold, hv, hbus, hlate, hseq⟩ := sender?_eq_some hx
  exact ⟨hold, hv, hbus, hlate, e, he, hseq⟩

/-- The sender is no branch and no jump: they do not use the bus. -/
theorem kind_of_nextSender? {x : Sender} (h : m.nextSender? = some x) :
    x.station.kind ≠ .beq ∧ x.station.kind ≠ .callRet := by
  obtain ⟨-, -, hbus, -⟩ := nextSender?_eq_some h
  constructor <;> intro hk <;> rw [hk] at hbus <;> cases hbus

/-- **What the Writeback stage can do.** It sends one result, or it does
nothing because nobody can send. -/
theorem writeBack_cases (h : m.writeBack = .ok m') :
    (m.nextSender? = none ∧ m' = m) ∨ ∃ x, m.nextSender? = some x ∧ m' = m.sent x := by
  rw [writeBack] at h
  split at h
  · rename_i hnone
    cases h
    exact .inl ⟨hnone, rfl⟩
  · rename_i x hx
    dsimp only at h
    split at h
    · cases h
    · cases h
      exact .inr ⟨x, hx, rfl⟩

/-! ## Who is in flight after a stage -/

section Holds

variable {k : Nat} {s' : Station} {o' : Occupant}

theorem holds_advance :
    m.advance.Holds k s' o' ↔ ∃ s o, m.Holds k s o ∧ s' = s.advance ∧ o' = s.tick o := by
  simp only [Holds, advance, List.getElem?_map, Option.map_eq_some_iff]
  constructor
  · rintro ⟨⟨s, hs, rfl⟩, ho⟩
    rw [Station.advance_occupant, Option.map_eq_some_iff] at ho
    obtain ⟨o, ho, rfl⟩ := ho
    exact ⟨s, o, ⟨hs, ho⟩, rfl, rfl⟩
  · rintro ⟨s, o, ⟨hs, ho⟩, rfl, rfl⟩
    exact ⟨⟨s, hs, rfl⟩, by rw [Station.advance_occupant, ho, Option.map_some]⟩

theorem holds_dispatched {i : Instruction} (hn : n < m.stations.length) :
    (m.dispatched i s n).Holds k s' o' ↔
      (k = n ∧ s' = m.filled i s ∧ o' = m.newcomer i) ∨ (k ≠ n ∧ m.Holds k s' o') := by
  rw [holds_set (m := m) rfl hn]
  simp only [filled, Option.some.injEq, eq_comm]

theorem holds_sent {x : Sender} :
    (m.sent x).Holds k s' o' ↔ k ≠ x.position ∧ ∃ s o, m.Holds k s o ∧
      s' = s.told x.station.tag x.value ∧ o' = o.told s.kind x.station.tag x.value := by
  simp only [Holds, sent, deliver, List.getElem?_mapIdx, Option.map_eq_some_iff]
  constructor
  · rintro ⟨⟨s, hs, rfl⟩, ho⟩
    split at ho
    · cases ho
    · rename_i hk
      change (s.told x.station.tag x.value).occupant = some o' at ho
      rw [Station.told_occupant, Option.map_eq_some_iff] at ho
      obtain ⟨o, ho, rfl⟩ := ho
      exact ⟨hk, s, o, ⟨hs, ho⟩, if_neg hk, rfl⟩
  · rintro ⟨hk, s, o, ⟨hs, ho⟩, rfl, rfl⟩
    exact ⟨⟨s, hs, if_neg hk⟩, by rw [Station.told_occupant, ho, Option.map_some]⟩

/-- Who is in flight after the Writeback stage has the result it had. -/
theorem holds_of_writeBack (hm : m.writeBack = .ok m') (hold' : m'.Holds k s' o') :
    ∃ s o, m.Holds k s o ∧ s'.toSlot = s.toSlot ∧ s'.result = s.result ∧ o'.seq = o.seq ∧
      o'.cycles = o.cycles := by
  rcases writeBack_cases hm with ⟨-, rfl⟩ | ⟨x, -, rfl⟩
  · exact ⟨s', o', hold', rfl, rfl, rfl, rfl⟩
  · obtain ⟨-, s, o, hold, rfl, rfl⟩ := holds_sent.1 hold'
    exact ⟨s, o, hold, (s.told_toSlot ..).1, (s.told_toSlot ..).2, rfl, rfl⟩

end Holds

/-- Nothing is issued in the Execute stage. -/
theorem Move.nextSeq {l : List Act} (h : Move m l m') : m'.nextSeq = m.nextSeq := by
  cases h <;> rfl

theorem Moves.nextSeq {l : List Act} (h : Moves m l m') : m'.nextSeq = m.nextSeq := by
  induction h with
  | refl => rfl
  | cons first rest ih => exact ih.trans first.nextSeq

/-! ## The acts of a cycle are all that shows -/

theorem Move.memory {l : List Act} (h : Move m l m') :
    m'.memory = l.foldl Act.onMemory m.memory := by
  cases h <;> try rfl
  rename_i a v _ _ _ _ _ _ _
  simp only [List.foldl_cons, List.foldl_nil, Act.onMemory, Word.ofInt_toInt]
  rfl

theorem Move.onBus {l : List Act} (h : Move m l m') :
    m'.onBus = m.onBus ∧ l.filterMap Act.sent? = [] := by
  cases h <;> exact ⟨rfl, rfl⟩

theorem Move.mispredictions {l : List Act} (h : Move m l m') :
    m'.mispredictions = m.mispredictions + l.countP Act.isTaken := by
  cases h <;> rfl

theorem Moves.memory {l : List Act} (h : Moves m l m') :
    m'.memory = l.foldl Act.onMemory m.memory := by
  induction h with
  | refl => rfl
  | cons first rest ih => rw [ih, first.memory, List.foldl_append]

theorem Moves.onBus {l : List Act} (h : Moves m l m') :
    m'.onBus = m.onBus ∧ l.filterMap Act.sent? = [] := by
  induction h with
  | refl => exact ⟨rfl, rfl⟩
  | cons first rest ih =>
    exact ⟨ih.1.trans first.onBus.1, by rw [List.filterMap_append, first.onBus.2, ih.2]; rfl⟩

theorem Moves.mispredictions {l : List Act} (h : Moves m l m') :
    m'.mispredictions = m.mispredictions + l.countP Act.isTaken := by
  induction h with
  | refl => rfl
  | cons first rest ih => rw [ih, first.mispredictions, List.countP_append]; omega

/-- **A cycle that does not fail, in its stages.** -/
theorem step_eq_ok (h : m.step = .ok m') :
    ∃ m₁ m₂ m₃, m.advance.issue = .ok m₁ ∧ m₁.execute = .ok m₂ ∧ m₂.writeBack = .ok m₃ ∧
      m' = { m₃ with cycle := m₃.cycle + 1 } ∧
      m.stepActs = m₁.executeActs ++ m₂.writeBackActs := by
  simp only [step, bind, Except.bind] at h
  split at h
  · cases h
  rename_i m₁ h₁
  split at h
  · cases h
  rename_i m₂ h₂
  split at h
  · cases h
  rename_i m₃ h₃
  cases h
  refine ⟨m₁, m₂, m₃, h₁, h₂, h₃, rfl, ?_⟩
  simp only [stepActs, h₁, finishActs, h₂]

/-- The Issue stage leaves alone what the acts are about. -/
theorem issue_frame (h : m.issue = .ok m') :
    m'.memory = m.memory ∧ m'.onBus = m.onBus ∧ m'.mispredictions = m.mispredictions := by
  rcases issue_eq_ok h with ⟨i, s, n, -, -, -, -, rfl⟩ | rfl <;> exact ⟨rfl, rfl, rfl⟩

/-- And so does the Writeback stage, but for the bus. -/
theorem writeBack_frame (h : m.writeBack = .ok m') :
    m'.memory = m.memory ∧ m'.mispredictions = m.mispredictions ∧
      m'.onBus = (m.nextSender?.map fun x => (x.station.tag, x.value)).or m.onBus := by
  rcases writeBack_cases h with ⟨hx, rfl⟩ | ⟨x, hx, rfl⟩ <;> rw [hx] <;> exact ⟨rfl, rfl, rfl⟩

/-- **The writes of a cycle make the memory after it.** -/
theorem memory_of_step (h : m.step = .ok m') :
    m'.memory = m.stepActs.foldl Act.onMemory m.memory := by
  obtain ⟨m₁, m₂, m₃, h₁, h₂, h₃, rfl, hacts⟩ := step_eq_ok h
  have hsend : ∀ mem, m₂.writeBackActs.foldl Act.onMemory mem = mem := by
    intro mem
    rw [writeBackActs]
    split <;> rfl
  rw [hacts, List.foldl_append, hsend, ← show m₁.memory = m.memory from (issue_frame h₁).1,
    ← (execute_moves h₂).memory]
  exact (writeBack_frame h₃).1

/-- **What a cycle sends is on the bus after it**, and nothing else is. -/
theorem onBus_of_step (h : m.step = .ok m') :
    m.stepActs.filterMap Act.sent? = m'.onBus.toList := by
  obtain ⟨m₁, m₂, m₃, h₁, h₂, h₃, rfl, hacts⟩ := step_eq_ok h
  -- The bus is cleared when the timers move.
  have hbus : m₂.onBus = none := by
    rw [(execute_moves h₂).onBus.1, (issue_frame h₁).2.1]
    rfl
  rw [hacts, List.filterMap_append, (execute_moves h₂).onBus.2, List.nil_append]
  change _ = m₃.onBus.toList
  rw [(writeBack_frame h₃).2.2, hbus, writeBackActs]
  rcases m₂.nextSender? with - | x <;> rfl

/-- **The taken branches of a cycle are the mispredictions it counts.** -/
theorem mispredictions_of_step (h : m.step = .ok m') :
    m'.mispredictions = m.mispredictions + m.stepActs.countP Act.isTaken := by
  obtain ⟨m₁, m₂, m₃, h₁, h₂, h₃, rfl, hacts⟩ := step_eq_ok h
  have hsend : m₂.writeBackActs.countP Act.isTaken = 0 := by
    rw [writeBackActs]
    split <;> rfl
  have hissue : m₁.mispredictions = m.mispredictions := (issue_frame h₁).2.2
  have hmoves := (execute_moves h₂).mispredictions
  have hsent := (writeBack_frame h₃).2.1
  rw [hacts, List.countP_append, hsend]
  change m₃.mispredictions = _
  omega

end Machine

end OutOfOrder
