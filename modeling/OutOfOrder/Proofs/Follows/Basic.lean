import OutOfOrder.Proofs.Coherent.Cycle
import OutOfOrder.Proofs.Replay
/-!
# A machine follows the sequential one

Every instruction that has been issued has a state of the sequential
machine that belongs to it, the one in which its replay performs it
(`stateAt`). What the machine has computed for an instruction is compared
with that state.

`Follows` says that nothing computed so far differs from the replay: not
the operands, addresses and results in the stations, not the registers that
nobody is to write, not the memory, and not the program counter. The
speculative instructions are included. Their replay takes the branches
before them as falling through, which is why they have to be dropped if one
is taken.
-/

namespace OutOfOrder

open OutOfOrder.Sequential

namespace Machine

variable {m m' : Machine} {n k : Nat} {s s' : Station} {o o' : Occupant} {e w : Entry} {q : Int}
variable {r : Reg} {l l' : List Entry} {start : State}

/-- The path ends before the first instruction that is not on it. -/
theorem Coherent.issued_eq_path_append (h : m.Coherent) :
    ∃ rest, m.issued = m.path ++ rest ∧ ∀ e ∈ rest, ¬ m.OnPath e.seq := by
  obtain ⟨rest, hrest, hnot⟩ := h.inOrder.eq_filter_append
    (p := fun e => !speculative m.barrier e.seq) fun a _ b _ hlt hb => by
      rw [Bool.not_eq_true', speculative_barrier_eq_false_iff] at hb ⊢
      exact hb.mono (Int.le_of_lt hlt)
  refine ⟨rest, by rw [h.path_eq_filter]; exact hrest, fun e he hp => hnot e he ?_⟩
  rw [Bool.not_eq_true', speculative_barrier_eq_false_iff]
  exact hp

/-- **The path only grows at its end** while nothing is dropped. -/
theorem Coherent.path_eq_append (h : m.Coherent) (h' : m'.Coherent)
    (hissued : m'.issued = m.issued) (hmono : ∀ q, m.OnPath q → m'.OnPath q) :
    ∃ rest, m'.path = m.path ++ rest ∧ ∀ e ∈ rest, e ∈ m.issued ∧ ¬ m.OnPath e.seq := by
  have hpath : m.path = m'.path.filter fun e => !speculative m.barrier e.seq := by
    rw [h.path_eq_filter, h'.path_eq_filter, List.filter_filter, hissued]
    refine List.filter_congr fun e _ => ?_
    rw [Bool.eq_iff_iff, Bool.and_eq_true, Bool.not_eq_true', Bool.not_eq_true',
      speculative_barrier_eq_false_iff, speculative_barrier_eq_false_iff]
    exact ⟨fun hp => ⟨hp, hmono _ hp⟩, And.left⟩
  have hin : InOrder m'.path := h'.inOrder.sublist (List.takeWhile_sublist _)
  obtain ⟨rest, hrest, hnot⟩ := hin.eq_filter_append
    (p := fun e => !speculative m.barrier e.seq) fun a _ b _ hlt hb => by
      rw [Bool.not_eq_true', speculative_barrier_eq_false_iff] at hb ⊢
      exact hb.mono (Int.le_of_lt hlt)
  rw [← hpath] at hrest
  refine ⟨rest, hrest, fun e he => ⟨?_, fun hp => hnot e he ?_⟩⟩
  · have hmem : e ∈ m'.path := by
      rw [hrest]
      exact List.mem_append_right _ he
    exact hissued ▸ (h'.mem_path.1 hmem).1
  · rw [Bool.not_eq_true', speculative_barrier_eq_false_iff]
    exact hp

/-- The path is the same if no branch has come or gone. -/
theorem Coherent.path_congr (h : m.Coherent) (h' : m'.Coherent) (hissued : m'.issued = m.issued)
    (hpath : ∀ q, m'.OnPath q ↔ m.OnPath q) : m'.path = m.path := by
  rw [h.path_eq_filter, h'.path_eq_filter, hissued]
  refine List.filter_congr fun e _ => ?_
  rw [Bool.eq_iff_iff, Bool.not_eq_true', Bool.not_eq_true', speculative_barrier_eq_false_iff,
    speculative_barrier_eq_false_iff]
  exact hpath e.seq

/-- **What is in flight at the end of a history does not matter for a
register that has no producer.** -/
theorem producer?_append_eq_none {rest : List Entry} (start : State) (relative : Bool)
    (hrest : ∀ e ∈ rest, e.seq ∈ m.flight) (hnone : m.producer? (l ++ rest) r = none) :
    m.producer? l r = none ∧
      (start.replay relative (l ++ rest)).read r = (start.replay relative l).read r := by
  by_cases hr : r = 0
  · subst hr
    exact ⟨producer?_eq_none_iff.2 (.inl rfl), rfl⟩
  have hnot : ∀ e ∈ rest, ¬ e.instr.writes r := by
    intro e he hw
    rcases hlast : lastWriter rest r with - | w
    · exact lastWriter_eq_none_iff.1 hlast e he hw
    · have happ : lastWriter (l ++ rest) r = some w := by
        rw [lastWriter_append, hlast, Option.some_or]
      exact (producer?_eq_none_iff.1 hnone).resolve_left hr w happ
        (hrest w (mem_of_lastWriter hlast).1)
  refine ⟨?_, ?_⟩
  · rw [← hnone, producer?_congr_list (lastWriter_append_of_not_writes hnot)]
  · rw [State.replay_append, State.read_replay_of_not_writes fun e he _ => hnot e he]

/-! ## The sequential state of an instruction -/

/-- The state of the sequential machine in which it performs the instruction
of a number. -/
def stateAt (m : Machine) (start : State) (q : Int) : State :=
  start.upTo m.relativeCalls m.issued q

/-- The state of the sequential machine after the path. -/
def pathState (m : Machine) (start : State) : State :=
  start.replay m.relativeCalls m.path

theorem stateAt_eq_replay_before : m.stateAt start q = start.replay m.relativeCalls (m.before q) :=
  rfl

theorem stateAt_congr (hissued : m'.issued = m.issued) (hrel : m'.relativeCalls = m.relativeCalls) :
    m'.stateAt start q = m.stateAt start q := by
  rw [stateAt, stateAt, hissued, hrel]

/-- For an instruction on the path it is enough to replay the path. -/
theorem Coherent.upTo_path (h : m.Coherent) (hq : m.OnPath q) :
    start.upTo m.relativeCalls m.path q = m.stateAt start q := by
  rw [State.upTo, h.filter_path hq]
  rfl

/-! ## Following -/

/-- An operand, if it is a value, is that of its register. -/
def Carries (st : State) (source : Option Reg) (x : Operand) : Prop :=
  ∀ r v, source = some r → x = .value v → v = (st.read r).toInt

/-- **What a station has computed is what the replay computes.** -/
structure StationFollows (st : State) (s : Station) (o : Occupant) : Prop where
  j : Carries st o.instr.sources.1 o.j
  k : Carries st o.instr.sources.2 o.k
  address : o.addressReady → ∃ a : Word, st.accesses? o.instr = some a ∧ o.imm = some a.toInt
  result : ∀ v, s.result = some v → v = (st.result o.instr).toInt

/-- **Stations and registers follow the replay.** -/
structure ValuesFollow (m : Machine) (start : State) : Prop where
  stations : ∀ n s o, m.Holds n s o → StationFollows (m.stateAt start o.seq) s o
  /-- A register without a producer on the path has its value. -/
  committed : ∀ r, m.producer? m.path r = none →
    m.registers.get r = ((m.pathState start).read r).toInt

/-- The access of this number has been made: it is not in flight, or it has
its result. -/
def Accessed (m : Machine) (q : Int) : Prop :=
  ∀ n s o, m.Holds n s o → o.seq = q → s.result.isSome

/-- Two accesses to one address, one of which is a store. -/
def Conflict (m : Machine) (start : State) (e e' : Entry) : Prop :=
  ∃ a, (m.stateAt start e.seq).accesses? e.instr = some a ∧
    (m.stateAt start e'.seq).accesses? e'.instr = some a ∧
    ((m.stateAt start e.seq).StoresTo e a ∨ (m.stateAt start e'.seq).StoresTo e' a)

/-- **Memory follows the replay.** -/
structure MemoryFollows (m : Machine) (start : State) : Prop where
  /-- Accesses that conflict are made in the order of issue. -/
  ordered : ∀ e ∈ m.issued, ∀ e' ∈ m.issued, e.seq < e'.seq → m.Conflict start e e' →
    m.Accessed e'.seq → m.Accessed e.seq
  /-- A word is what the replay has there after the stores to it that have
  been made. -/
  contents : ∀ q a,
    (∀ e ∈ m.issued, (m.stateAt start e.seq).StoresTo e a → (e.seq < q ↔ e.seq ∉ m.flight)) →
    m.memory.get a = (m.stateAt start q).memory.get a

/-- **Where the machine goes on after what was issued before a number.** It
goes on where the replay does, but after a branch that has not resolved at
the next address. -/
def nextPc (m : Machine) (start : State) (q : Int) : Int :=
  match (m.before q).getLast? with
  | some e =>
    if e.instr.isBranch ∧ e.seq ∈ m.flight then e.pc + 1 else (m.stateAt start q).pc
  | none => start.pc

/-- **The program counter follows the replay.** -/
structure ControlFollows (m : Machine) (start : State) : Prop where
  /-- Each instruction was issued where the machine goes on after those
  before it. -/
  next : ∀ e ∈ m.issued, e.pc = m.nextPc start e.seq
  pc : m.jumpPending = false → (m.pc : Int) = m.nextPc start m.nextSeq

/-- **An operand that is there is that of the replay.** -/
theorem ValuesFollow.j_eq (h : m.ValuesFollow start) (hc : m.Coherent) (hold : m.Holds n s o)
    (hready : o.j.ready) (hs : o.instr.sources.1 = some r) :
    o.j = .value ((m.stateAt start o.seq).read r).toInt := by
  obtain ⟨v, hv⟩ := Supplies.exists_value (hs ▸ (hc.sources n s o hold).1) hready
  rw [hv, (h.stations n s o hold).j r v.toInt hs hv]

theorem ValuesFollow.k_eq (h : m.ValuesFollow start) (hc : m.Coherent) (hold : m.Holds n s o)
    (hready : o.k.ready) (hs : o.instr.sources.2 = some r) :
    o.k = .value ((m.stateAt start o.seq).read r).toInt := by
  obtain ⟨v, hv⟩ := Supplies.exists_value (hs ▸ (hc.sources n s o hold).2) hready
  rw [hv, (h.stations n s o hold).k r v.toInt hs hv]

/-- **A machine follows the sequential machine from a state on.** -/
structure Follows (m : Machine) (start : State) : Prop where
  coherent : m.Coherent
  values : m.ValuesFollow start
  memory : m.MemoryFollows start
  control : m.ControlFollows start

end Machine

end OutOfOrder
