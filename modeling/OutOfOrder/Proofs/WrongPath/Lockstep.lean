import OutOfOrder.Proofs.Replay
import OutOfOrder.Proofs.WrongPath.Agree
/-!
# Lockstep

What the machine issues after a pending branch is on the wrong path, if the
branch is taken. Two machines that agree up to their oldest pending branch
are in `Lockstep`, one that goes on issuing and one that waits for the
branch. They are `Abreast` when they agree further, up to an instruction
after that branch.

In the Execute stage of both the older instructions take the same turns
(`turns_older`), the branch resolves in both or in neither (`turn_branch`),
and what was issued after it does nothing (`turns_younger`). If the branch
is taken nothing tells the machines apart any more, but how often the first
one has issued.
-/

namespace OutOfOrder

namespace Machine

variable {m m' m₁ m₁' z : Machine} {n k : Nat} {s s' : Station} {o o' : Occupant} {e w : Entry}
variable {b q : Int} {l : List Entry} {r : Reg} {acts acts' : List Act} {x : Sender}

/-- A branch of this number is pending. -/
def Pending (m : Machine) (q : Int) : Prop := ∃ n s o, m.Holds n s o ∧ s.kind = .beq ∧ o.seq = q

/-- **In lockstep.** The machines agree up to a branch, which is the oldest
that is pending. -/
structure Lockstep (q : Int) (m m' : Machine) : Prop where
  agree : AgreeUpTo q m m'
  coherent : m.Coherent
  coherent' : m'.Coherent
  pending : m.Pending q
  onPath : m.OnPath q

/-- **Abreast.** The machines agree up to an instruction `q` that has been
issued, and the oldest pending branch `b` is not after it. -/
structure Abreast (b q : Int) (m m' : Machine) : Prop where
  agree : AgreeUpTo q m m'
  coherent : m.Coherent
  coherent' : m'.Coherent
  pending : m.Pending b
  onPath : m.OnPath b
  le : b ≤ q
  issued : q < m.nextSeq

theorem Pending.lt_nextSeq (h : m.Pending q) (hc : m.Coherent) : q < m.nextSeq := by
  obtain ⟨n, s, o, hold, -, rfl⟩ := h
  exact hc.owned_seq_lt hold

/-- Where a branch is pending, one is the oldest. -/
theorem Pending.exists_oldest (h : m.Pending q) : ∃ b, m.Pending b ∧ m.OnPath b ∧ b ≤ q := by
  obtain ⟨n, s, o, hold, kind, rfl⟩ := h
  obtain ⟨b, hb⟩ := Option.isSome_iff_exists.1 (barrier_isSome_iff.2 ⟨n, s, o, hold, kind⟩)
  obtain ⟨hp, path⟩ := barrier_eq_some_iff.1 hb
  exact ⟨b, hp, path, path n s o hold kind⟩

/-- **A branch is pending while it is in flight.** -/
theorem Coherent.pending_iff (hc : m.Coherent) (he : e ∈ m.issued) :
    m.Pending e.seq ↔ e.seq ∈ m.flight ∧ e.instr.isBranch := by
  constructor
  · rintro ⟨n, s, o, hold, kind, hseq⟩
    rw [(hc.isOf hold he hseq.symm).instr, ← hc.kind_eq_beq_iff hold]
    exact ⟨hseq ▸ hold.mem_flight, kind⟩
  · rintro ⟨hf, hbranch⟩
    obtain ⟨n, s, o, hold, hseq⟩ := mem_flight.1 hf
    rw [(hc.isOf hold he hseq.symm).instr, ← hc.kind_eq_beq_iff hold] at hbranch
    exact ⟨n, s, o, hold, hbranch, hseq⟩

/-- To be in lockstep is to be abreast of the branch itself. -/
theorem Lockstep.abreast (h : Lockstep q m m') : Abreast q q m m' :=
  ⟨h.agree, h.coherent, h.coherent', h.pending, h.onPath, Int.le_refl q,
    h.pending.lt_nextSeq h.coherent⟩

theorem Abreast.lockstep (h : Abreast q q m m') : Lockstep q m m' :=
  ⟨h.agree, h.coherent, h.coherent', h.pending, h.onPath⟩

namespace Abreast

theorem pending' (h : Abreast b q m m') : m'.Pending b := by
  obtain ⟨n, s, o, hold, kind, hseq⟩ := h.pending
  exact ⟨n, s, o, h.agree.holds_iff.2 ⟨hold, hseq ▸ h.le⟩, kind, hseq⟩

theorem barrier (h : Abreast b q m m') : m.barrier = some b :=
  barrier_eq_some_iff.2 ⟨h.pending, h.onPath⟩

theorem barrier' (h : Abreast b q m m') : m'.barrier = some b :=
  barrier_eq_some_iff.2 ⟨h.pending', h.agree.onPath h.onPath⟩

/-- What the barrier lets pass is on the path, in both. -/
theorem onPath_of_not_speculative (h : Abreast b q m m') :
    (∀ x, speculative (some b) x = false → m.OnPath x) ∧
      ∀ x, speculative (some b) x = false → m'.OnPath x := by
  rw [← h.barrier]
  refine ⟨fun _ => speculative_barrier_eq_false_iff.1, ?_⟩
  rw [h.barrier, ← h.barrier']
  exact fun _ => speculative_barrier_eq_false_iff.1

/-- **No branch and no jump is older.** -/
theorem kind_of_lt (h : Abreast b q m m') (hold : m.Holds n s o) (hlt : o.seq < b) :
    s.kind ≠ .beq ∧ s.kind ≠ .callRet := by
  refine ⟨fun kind => ?_, fun kind => ?_⟩
  · have := h.onPath n s o hold kind
    omega
  · obtain ⟨n₀, s₀, o₀, hold₀, -, rfl⟩ := h.pending
    obtain ⟨e, he, hof⟩ := h.coherent.owner n₀ s₀ o₀ hold₀
    have := h.coherent.jumpLast n s o hold kind e he
    have := hof.seq
    omega

theorem moved (h : Abreast b q m m') (hm : Moves m acts m₁) (hm' : Moves m' acts' m₁')
    (agree : AgreeUpTo q m₁ m₁') (pending : m₁.Pending b) : Abreast b q m₁ m₁' :=
  ⟨agree, hm.coherent h.coherent, hm'.coherent h.coherent', pending, hm.onPath h.onPath, h.le,
    hm.nextSeq ▸ h.issued⟩

/-- The branch stays where another station is replaced. -/
theorem pending_set (h : Abreast b q m m') (hold : m.Holds n s o) (hlt : o.seq < b)
    (hst : m₁.stations = m.stations.set n s') : m₁.Pending b := by
  obtain ⟨k, s₀, o₀, hold₀, kind, hseq⟩ := h.pending
  refine ⟨k, s₀, o₀, (holds_set hst hold.lt_length).2 (.inr ⟨?_, hold₀⟩), kind, hseq⟩
  rintro rfl
  rw [(hold.unique hold₀).2] at hlt
  omega

/-! ## Older instructions -/

/-- An older instruction computes the same address. -/
theorem computeAddress_older (h : Abreast b q m m') (hold : m.Holds n s o) (hlt : o.seq < b)
    (kind : s.kind.isMemory) :
    ∃ m₁ m₁' s₁ o₁, m.computeAddress n = .ok m₁ ∧ m'.computeAddress n = .ok m₁' ∧
      Abreast b q m₁ m₁' ∧ m₁.Holds n s₁ o₁ ∧ s₁.kind = s.kind ∧ o₁.seq = o.seq := by
  have hle := Int.le_trans (Int.le_of_lt hlt) h.le
  have hold' := h.agree.holds_iff.2 ⟨hold, hle⟩
  have path := h.onPath.mono (Int.le_of_lt hlt)
  rcases h.coherent.computeAddress_eq hold kind with ⟨hnot, heq⟩ | ⟨base, off, due, hj, himm, heq⟩
  · rcases h.coherent'.computeAddress_eq hold' kind with ⟨-, heq'⟩ | ⟨_, _, due, -⟩
    · exact ⟨m, m', s, o, heq, heq', h, hold, rfl, rfl⟩
    · rw [hnot] at due
      cases due
  · rcases h.coherent'.computeAddress_eq hold' kind with
      ⟨hnot, -⟩ | ⟨base', off', -, hj', himm', heq'⟩
    · rw [hnot] at due
      cases due
    · -- The base and the offset are the same in both.
      obtain rfl : base = base' := Option.some.inj (hj.symm.trans hj')
      obtain rfl : off = off' := Option.some.inj (himm.symm.trans himm')
      have hocc := Station.withAddress_occupant (a := wrap (base + off)) hold.2
      have hagree := h.agree.setStation (n := n) (s := s.withAddress (wrap (base + off)))
        fun o₁ ho₁ => by
          rw [hocc, Option.some.injEq] at ho₁
          subst ho₁
          exact hle
      have hmoves := Moves.single (Move.address hold path kind due hj himm)
      have hmoves' := Moves.single (Move.address hold' (h.agree.onPath path) kind due hj himm)
      exact ⟨_, _, _, _, heq, heq', h.moved hmoves hmoves' hagree (h.pending_set hold hlt rfl),
        (holds_setStation hold.lt_length).2 (.inl ⟨rfl, rfl, hocc⟩), rfl, rfl⟩

/-- An older instruction makes the same access. -/
theorem access_older (h : Abreast b q m m') (hold : m.Holds n s o) (hlt : o.seq < b)
    (kind : s.kind = .load ∨ s.kind = .store) :
    ∃ m₁ m₁', m.access n = .ok m₁ ∧ m'.access n = .ok m₁' ∧ m'.accessActs n = m.accessActs n ∧
      Abreast b q m₁ m₁' := by
  have hle := Int.le_trans (Int.le_of_lt hlt) h.le
  have hold' := h.agree.holds_iff.2 ⟨hold, hle⟩
  have path := h.onPath.mono (Int.le_of_lt hlt)
  have hclear : (m'.hazard? n s o).isNone = (m.hazard? n s o).isNone := by
    rw [Bool.eq_iff_iff, Option.isNone_iff_eq_none, Option.isNone_iff_eq_none]
    exact h.agree.hazard?_eq_none_iff hle
  have hacts : m'.accessActs n = m.accessActs n := by
    rw [accessActs, accessActs, occupied?_eq_some_iff.2 hold, occupied?_eq_some_iff.2 hold']
    dsimp only
    rw [hclear]
  have hmoves : ∀ {m₁}, m.access n = .ok m₁ → Moves m (m.accessActs n) m₁ :=
    access_moves hold path kind
  have hmoves' : ∀ {m₁}, m'.access n = .ok m₁ → Moves m' (m'.accessActs n) m₁ :=
    access_moves hold' (h.agree.onPath path) kind
  rcases h.coherent.access_eq hold kind with ⟨hnot, heq⟩ | ⟨a, due, clear, himm, hgo⟩
  · rcases h.coherent'.access_eq hold' kind with ⟨-, heq'⟩ | ⟨_, due, clear, -⟩
    · exact ⟨m, m', heq, heq', hacts, h⟩
    · rw [due, ← hclear, clear] at hnot
      cases hnot
  · rcases h.coherent'.access_eq hold' kind with ⟨hnot, -⟩ | ⟨a', -, -, himm', hgo'⟩
    · rw [due, hclear, clear] at hnot
      cases hnot
    · have ha : a = a' := Word.toInt_inj.1 (Option.some.inj (himm.symm.trans himm'))
      subst ha
      rcases hgo with ⟨hk, heq⟩ | ⟨hk, v, hv, heq⟩ <;>
        rcases hgo' with ⟨hk', heq'⟩ | ⟨hk', v', hv', heq'⟩
      · have hagree := h.agree.resulted (v := (m.memory.get a).toInt) hold hle
        rw [h.agree.memory] at heq'
        exact ⟨_, _, heq, heq', hacts,
          h.moved (hmoves heq) (hmoves' heq') hagree (h.pending_set hold hlt rfl)⟩
      · rw [hk] at hk'
        cases hk'
      · rw [hk] at hk'
        cases hk'
      · obtain rfl : v = v' := Option.some.inj (hv.symm.trans hv')
        exact ⟨_, _, heq, heq', hacts, h.moved (hmoves heq) (hmoves' heq') h.agree.stored.finish
          (h.pending_set hold hlt rfl)⟩

/-- Both together are the same. -/
theorem memory_older (h : Abreast b q m m') (hold : m.Holds n s o) (hlt : o.seq < b)
    (kind : s.kind = .load ∨ s.kind = .store) :
    ∃ m₁ m₁', (m.computeAddress n >>= fun m => m.access n) = .ok m₁ ∧
      (m'.computeAddress n >>= fun m => m.access n) = .ok m₁' ∧
      m'.memoryActs n = m.memoryActs n ∧ Abreast b q m₁ m₁' := by
  obtain ⟨m₀, m₀', s₀, o₀, heq, heq', h₀, hold₀, hkind, hseq⟩ :=
    h.computeAddress_older hold hlt (UnitKind.isMemory_iff.2 kind)
  obtain ⟨m₁, m₁', hacc, hacc', hacts, h₁⟩ :=
    h₀.access_older hold₀ (by rw [hseq]; exact hlt) (by rwa [hkind])
  rw [memoryActs, memoryActs, heq, heq']
  exact ⟨m₁, m₁', hacc, hacc', hacts, h₁⟩

/-- **Older instructions take the same turns.** -/
theorem turn_older (h : Abreast b q m m') (hn : ∀ s o, m.Holds n s o → o.seq < b) :
    ∃ m₁ m₁', turn (some b) m n = .ok m₁ ∧ turn (some b) m' n = .ok m₁' ∧
      turnActs (some b) m' n = turnActs (some b) m n ∧ Abreast b q m₁ m₁' := by
  rcases hocc : m.occupied? n with - | ⟨s, o⟩
  · have hocc' : m'.occupied? n = none := by
      refine h.agree.occupied?_eq_none fun s o hold => ?_
      exact absurd hold (occupied?_eq_none_iff.1 hocc s o)
    refine ⟨m, m', ?_, ?_, ?_, h⟩
    · rw [turn, hocc]
    · rw [turn, hocc']
    · rw [turnActs, turnActs, hocc, hocc']
  have hold := occupied?_eq_some_iff.1 hocc
  have hlt := hn s o hold
  have hle := Int.le_trans (Int.le_of_lt hlt) h.le
  have hold' := h.agree.holds_iff.2 ⟨hold, hle⟩
  have path := h.onPath.mono (Int.le_of_lt hlt)
  obtain ⟨hbeq, hjump⟩ := h.kind_of_lt hold hlt
  have hspec : speculative (some b) o.seq = false := by
    simp only [speculative, Option.any_some, decide_eq_false_iff_not]
    omega
  simp only [turn, turnActs, hocc, occupied?_eq_some_iff.2 hold', hspec, Bool.false_eq_true,
    if_false]
  rcases hk : s.kind with _ | _ | _ | _ | _ | _ | _ <;> dsimp only
  case load => exact h.memory_older hold hlt (.inl hk)
  case store => exact h.memory_older hold hlt (.inr hk)
  case beq => exact absurd hk hbeq
  case callRet => exact absurd hk hjump
  all_goals
    by_cases due : s.result.isNone && s.latency ≤ o.cycles
    · rw [if_pos due, if_pos due]
      simp only [Bool.and_eq_true, Option.isNone_iff_eq_none, decide_eq_true_eq] at due
      obtain ⟨op, _, _, _, a, b, hi, ha, hb, heq⟩ := h.coherent.compute_eq hold (by simp [hk]) due.2
      obtain ⟨op', _, _, _, a', b', hi', ha', hb', heq'⟩ :=
        h.coherent'.compute_eq hold' (by simp [hk]) due.2
      obtain rfl : op = op' := by
        rw [hi] at hi'
        exact (Instruction.alu.inj hi').1
      obtain rfl : a = a' := Option.some.inj (ha.symm.trans ha')
      obtain rfl : b = b' := Option.some.inj (hb.symm.trans hb')
      have hmoves := compute_moves hold path due.1 due.2 heq
      have hmoves' := compute_moves hold' (h.agree.onPath path) due.1 due.2 heq'
      exact ⟨_, _, heq, heq', rfl,
        h.moved hmoves hmoves' (h.agree.resulted hold hle) (h.pending_set hold hlt rfl)⟩
    · rw [if_neg due, if_neg due]
      exact ⟨m, m', rfl, rfl, rfl, h⟩

/-- Older instructions take the same turns one after the other, whatever
turns come after them. -/
theorem turns_older {ns : List Nat} (h : Abreast b q m m')
    (hn : ∀ n ∈ ns, ∀ s o, m.Holds n s o → o.seq < b) :
    ∃ acts m₁ m₁', Abreast b q m₁ m₁' ∧ Moves m acts m₁ ∧
      Moves m' acts m₁' ∧
      (∀ rest, (ns ++ rest).foldlM (turn (some b)) m = rest.foldlM (turn (some b)) m₁ ∧
        turnsActs (some b) m (ns ++ rest) = acts ++ turnsActs (some b) m₁ rest) ∧
      ∀ rest, (ns ++ rest).foldlM (turn (some b)) m' = rest.foldlM (turn (some b)) m₁' ∧
        turnsActs (some b) m' (ns ++ rest) = acts ++ turnsActs (some b) m₁' rest := by
  induction ns generalizing m m' with
  | nil => exact ⟨[], m, m', h, .refl m, .refl m', fun _ => ⟨rfl, rfl⟩, fun _ => ⟨rfl, rfl⟩⟩
  | cons n ns ih =>
    obtain ⟨m₀, m₀', heq, heq', hacts, h₀⟩ := h.turn_older (hn n List.mem_cons_self)
    have hmoves := turn_moves h.onPath_of_not_speculative.1 heq
    have hmoves' := turn_moves h.onPath_of_not_speculative.2 heq'
    rw [hacts] at hmoves'
    have hrest : ∀ k ∈ ns, ∀ s o, m₀.Holds k s o → o.seq < b := by
      intro k hk s₀ o₀ hold₀
      obtain ⟨s, o, hold, -, -, hseq, -⟩ := hmoves.origin hold₀
      rw [hseq]
      exact hn k (List.mem_cons_of_mem _ hk) s o hold
    obtain ⟨acts, m₁, m₁', h₁, hmoves₁, hmoves₁', hm, hm'⟩ := ih h₀ hrest
    refine ⟨_, m₁, m₁', h₁, hmoves.trans hmoves₁, hmoves'.trans hmoves₁', fun rest => ?_,
      fun rest => ?_⟩
    · rw [List.cons_append, List.foldlM_cons, turnsActs, heq, List.append_assoc, ← (hm rest).2]
      exact ⟨(hm rest).1, rfl⟩
    · rw [List.cons_append, List.foldlM_cons, turnsActs, heq', hacts, List.append_assoc,
        ← (hm' rest).2]
      exact ⟨(hm' rest).1, rfl⟩

end Abreast

theorem Lockstep.pending' (h : Lockstep q m m') : m'.Pending q := h.abreast.pending'

/-- **What is beyond the barrier does nothing.** -/
theorem turns_younger {ns : List Nat} (hn : ∀ n ∈ ns, ∀ s o, m.Holds n s o → b < o.seq) :
    ns.foldlM (turn (some b)) m = .ok m ∧ turnsActs (some b) m ns = [] := by
  induction ns with
  | nil => exact ⟨rfl, rfl⟩
  | cons n ns ih =>
    obtain ⟨hfold, hacts⟩ := ih fun k hk => hn k (List.mem_cons_of_mem _ hk)
    have hturn : turn (some b) m n = .ok m ∧ turnActs (some b) m n = [] := by
      rw [turn, turnActs]
      rcases hocc : m.occupied? n with - | ⟨s, o⟩
      · exact ⟨rfl, rfl⟩
      · have hspec : speculative (some b) o.seq := by
          simp only [speculative, Option.any_some, decide_eq_true_eq]
          exact hn n List.mem_cons_self s o (occupied?_eq_some_iff.1 hocc)
        simp only [hspec, if_true, and_self]
    rw [List.foldlM_cons, turnsActs, hturn.1, hturn.2]
    exact ⟨hfold, hacts⟩

/-- **What was issued after a pending branch has no result.** -/
theorem Coherent.result_eq_none (hc : m.Coherent) (hold : m.Holds n s o) (kind : s.kind = .beq)
    (hold' : m.Holds k s' o') (hlt : o.seq < o'.seq) : s'.result = none := by
  refine (hc.waiting k s' o' hold' fun path => ?_).1
  have := path n s o hold kind
  omega

theorem Abreast.quiet (h : Abreast b q m m') (hold : m.Holds n s o) (hlt : q < o.seq) :
    s.result = none := by
  obtain ⟨k, s₀, o₀, hold₀, kind, rfl⟩ := h.pending
  exact h.coherent.result_eq_none hold₀ kind hold (Int.lt_of_le_of_lt h.le hlt)

/-! ## The branch -/

/-- **Nothing tells the machines apart** but how often they have issued. -/
def SameButIssued (m m' : Machine) : Prop :=
  m' = { m with nextSeq := m'.nextSeq, branches := m'.branches }

/-- **What becomes of the branch** in the Execute stage of two machines. -/
inductive Fares (b q : Int) (acts : List Act) (m m' : Machine) : Prop
  /-- It is still pending. -/
  | pending (h : Abreast b q m m')
  /-- It falls through, and what was issued after it has no result yet. -/
  | fallen (act : .resolve b false ∈ acts) (agree : AgreeUpTo q m m') (coherent : m.Coherent)
      (coherent' : m'.Coherent) (gone : b ∉ m.flight)
      (quiet : ∀ n s o, m.Holds n s o → b < o.seq → s.result = none)
  /-- It is taken, and what was issued after it is gone. -/
  | taken (act : .resolve b true ∈ acts) (same : SameButIssued m m') (coherent : m.Coherent)
      (coherent' : m'.Coherent) (last : ∀ x ∈ m.flight, x < b)

theorem Fares.mono (h : Fares b q acts m m') (hsub : acts ⊆ acts') : Fares b q acts' m m' := by
  cases h with
  | pending h => exact .pending h
  | fallen act agree hc hc' gone quiet => exact .fallen (hsub act) agree hc hc' gone quiet
  | taken act same hc hc' last => exact .taken (hsub act) same hc hc' last

/-- **A branch that is taken leaves the same in both.** -/
theorem AgreeUpTo.branched {target : Word} {saved : StatusTable} (h : AgreeUpTo q m m')
    (hle : o.seq ≤ q) :
    SameButIssued (m.branched n s o target (m.before o.seq ++ [e]) saved)
      (m'.branched n s o target (m'.before o.seq ++ [e]) saved) := by
  have hst : m'.stations.map (Station.squash o.seq) = m.stations.map (Station.squash o.seq) := by
    rw [h.stations, List.map_map]
    exact List.map_congr_left fun s _ => squash_squash hle s
  simp only [SameButIssued, Machine.branched, Machine.refreshFlags, Machine.finish, entry, barrier,
    redirected, Registers.restore, hst, h.before_eq hle, h.values, h.memory, h.executed,
    h.writtenBack, h.onBus, h.broadcasts, h.mispredictions, h.cycle, h.loaded, h.offsetsChecked,
    h.relativeCalls]

/-- The branch falls through in both. -/
theorem Abreast.fares_fallen (h : Abreast o.seq q m m') (hold : m.Holds n s o)
    (kind : s.kind = .beq) (elapsed : s.latency ≤ o.cycles) (ht : taken o = false) :
    Fares o.seq q [.resolve o.seq false] (m.finish n s o).refreshFlags
      (m'.finish n s o).refreshFlags := by
  have hold' := h.agree.holds_iff.2 ⟨hold, h.le⟩
  have hmoves := Moves.single (Move.fall hold h.onPath kind elapsed ht)
  have hmoves' := Moves.single (Move.fall hold' (h.agree.onPath h.onPath) kind elapsed ht)
  have hr := released_fallen hold
  refine .fallen List.mem_cons_self h.agree.finish.refreshFlags (hmoves.coherent h.coherent)
    (hmoves'.coherent h.coherent') (hr.not_mem_flight h.coherent hold)
    fun k s₁ o₁ hold₁ hlt => ?_
  have hold₀ : m.Holds k s₁ o₁ := ((holds_finish (o := o) hold.lt_length).1 hold₁).2
  exact h.coherent.result_eq_none hold kind hold₀ hlt

/-- The branch is taken in both. -/
theorem Abreast.fares_taken {target : Word} {saved : StatusTable} (h : Abreast o.seq q m m')
    (hold : m.Holds n s o) (kind : s.kind = .beq) (elapsed : s.latency ≤ o.cycles)
    (heq : m.resolveBranch n s o = .ok (m.branched n s o target (m.before o.seq ++ [e]) saved))
    (heq' : m'.resolveBranch n s o =
      .ok (m'.branched n s o target (m'.before o.seq ++ [e]) saved)) :
    Fares o.seq q [.resolve o.seq true] (m.branched n s o target (m.before o.seq ++ [e]) saved)
      (m'.branched n s o target (m'.before o.seq ++ [e]) saved) := by
  have hold' := h.agree.holds_iff.2 ⟨hold, h.le⟩
  have hmoves := resolveBranch_moves hold h.onPath kind elapsed heq
  have hmoves' := resolveBranch_moves hold' (h.agree.onPath h.onPath) kind elapsed heq'
  exact .taken List.mem_cons_self (h.agree.branched h.le) (hmoves.coherent h.coherent)
    (hmoves'.coherent h.coherent') fun x hx => ((mem_flight_branched h.coherent hold).1 hx).2

/-- **The branch resolves the same way**, or leads out of memory in both. -/
theorem Abreast.resolveBranch (h : Abreast o.seq q m m') (hold : m.Holds n s o)
    (kind : s.kind = .beq) (elapsed : s.latency ≤ o.cycles) :
    (∃ t t', m.resolveBranch n s o = .error t ∧ m'.resolveBranch n s o = .error t' ∧
      t.fault = t'.fault) ∨
      ∃ m₁ m₁', m.resolveBranch n s o = .ok m₁ ∧ m'.resolveBranch n s o = .ok m₁' ∧
        Fares o.seq q [.resolve o.seq (taken o)] m₁ m₁' := by
  have hold' := h.agree.holds_iff.2 ⟨hold, h.le⟩
  rcases h.coherent.resolveBranch_eq hold kind with
    ⟨ht, heq⟩ | ⟨offset, saved, e, ht, himm, hsaved, he, hseq, hgo⟩
  · rcases h.coherent'.resolveBranch_eq hold' kind with ⟨-, heq'⟩ | ⟨_, _, _, ht', -⟩
    · exact .inr ⟨_, _, heq, heq', by rw [ht]; exact h.fares_fallen hold kind elapsed ht⟩
    · rw [ht] at ht'
      cases ht'
  rcases h.coherent'.resolveBranch_eq hold' kind with
    ⟨ht', -⟩ | ⟨offset', saved', e', -, himm', hsaved', he', hseq', hgo'⟩
  · rw [ht] at ht'
    cases ht'
  obtain rfl : offset = offset' := Option.some.inj (himm.symm.trans himm')
  obtain rfl : saved = saved' := Option.some.inj (hsaved.symm.trans hsaved')
  obtain rfl : e = e' := h.coherent.inOrder.eq_of_seq_eq he
    (h.agree.mem_issued_iff.1 he').1 (hseq.trans hseq'.symm)
  rw [ht]
  rcases hgo with ⟨target, htarget, heq⟩ | ⟨hout, heq⟩ <;>
    rcases hgo' with ⟨target', htarget', heq'⟩ | ⟨hout', heq'⟩
  · obtain rfl : target = target' := Word.toInt_inj.1 (htarget.symm.trans htarget')
    exact .inr ⟨_, _, heq, heq', h.fares_taken hold kind elapsed heq heq'⟩
  · exact absurd (htarget ▸ target.toInt_inRange) hout'
  · exact absurd (htarget' ▸ target'.toInt_inRange) hout
  · exact .inl ⟨_, _, heq, heq', rfl⟩

/-- **The branch takes the same turn.** -/
theorem Abreast.turn_branch (h : Abreast b q m m') (hold : m.Holds n s o) (kind : s.kind = .beq)
    (hseq : o.seq = b) :
    (∃ t t', turn (some b) m n = .error t ∧ turn (some b) m' n = .error t' ∧ t.fault = t'.fault) ∨
      ∃ m₁ m₁', turn (some b) m n = .ok m₁ ∧ turn (some b) m' n = .ok m₁' ∧
        turnActs (some b) m' n = turnActs (some b) m n ∧
        Fares b q (turnActs (some b) m n) m₁ m₁' := by
  subst hseq
  have hold' := h.agree.holds_iff.2 ⟨hold, h.le⟩
  have hspec : speculative (some o.seq) o.seq = false := by
    simp only [speculative, Option.any_some, decide_eq_false_iff_not]
    omega
  simp only [turn, turnActs, occupied?_eq_some_iff.2 hold, occupied?_eq_some_iff.2 hold', hspec,
    Bool.false_eq_true, if_false, kind, true_and]
  by_cases elapsed : s.latency ≤ o.cycles
  · simp only [if_pos elapsed]
    exact h.resolveBranch hold kind elapsed
  · simp only [if_neg elapsed]
    exact .inr ⟨m, m', rfl, rfl, .pending h⟩

/-! ## The Execute stage -/

/-- **The machine that waits has the turns up to the instruction.** -/
theorem AgreeUpTo.turnOrder_eq (h : AgreeUpTo q m m') (hc : m.Coherent) (hc' : m'.Coherent) :
    m'.turnOrder = m.turnOrder.filter fun a => a.1 ≤ q := by
  -- Both are in the order of issue, so it is enough that they have the same turns.
  refine List.Perm.eq_of_pairwise (fun a b _ _ hab hba => absurd hab (Int.lt_asymm hba))
    hc'.pairwise_turnOrder (hc.pairwise_turnOrder.filter _) ?_
  refine (List.perm_ext_iff_of_nodup (perm_turnOrder.nodup_iff.2 nodup_turnKeys)
    ((perm_turnOrder.nodup_iff.2 nodup_turnKeys).filter _)).2 ?_
  rintro ⟨x, k⟩
  simp only [List.mem_filter, mem_turnOrder, h.holds_iff, decide_eq_true_eq]
  constructor
  · rintro ⟨s, o, ⟨hold, hle⟩, rfl⟩
    exact ⟨⟨s, o, hold, rfl⟩, hle⟩
  · rintro ⟨⟨s, o, hold, rfl⟩, hle⟩
    exact ⟨s, o, ⟨hold, hle⟩, rfl⟩

/-- Who comes after the branch was issued after it. -/
theorem Moves.lt_of_younger (hm : Moves m acts m₁) (younger : List (Int × Nat))
    (hyounger : ∀ a ∈ younger, a ∈ m.turnOrder ∧ b < a.1) :
    ∀ k ∈ younger.map Prod.snd, ∀ s o, m₁.Holds k s o → b < o.seq := by
  intro k hk s₁ o₁ hold₁
  obtain ⟨a, ha, rfl⟩ := List.mem_map.1 hk
  obtain ⟨hmem, hlt⟩ := hyounger a ha
  obtain ⟨s, o, hold, -, -, hseq, -⟩ := hm.origin hold₁
  rwa [hseq, seq_of_mem_turnOrder hmem hold]

/-- **The Execute stage of both.** They stop on the same fault, or the same
is done in both. -/
theorem Abreast.execute (h : Abreast b q m m') :
    (∃ t t', m.execute = .error t ∧ m'.execute = .error t' ∧ t.fault = t'.fault) ∨
      ∃ m₁ m₁', m.execute = .ok m₁ ∧ m'.execute = .ok m₁' ∧ m'.executeActs = m.executeActs ∧
        Fares b q m.executeActs m₁ m₁' := by
  obtain ⟨n, s, o, hold, -, rfl⟩ := h.pending
  obtain ⟨older, younger, heq, holder, hyounger⟩ := h.coherent.turnOrder_eq_append hold
  obtain ⟨younger', heq', hyounger'⟩ : ∃ younger', m'.turnOrder = older ++ (o.seq, n) :: younger' ∧
      ∀ a ∈ younger', o.seq < a.1 := by
    refine ⟨younger.filter fun a => a.1 ≤ q, ?_, fun a ha => hyounger a (List.mem_filter.1 ha).1⟩
    have holder' : older.filter (fun a => a.1 ≤ q) = older := List.filter_eq_self.2 fun a ha =>
      decide_eq_true (Int.le_trans (Int.le_of_lt (holder a ha)) h.le)
    rw [h.agree.turnOrder_eq h.coherent h.coherent', heq, List.filter_append, holder',
      List.filter_cons_of_pos (by exact decide_eq_true h.le)]
  have hn : ∀ k ∈ older.map Prod.snd, ∀ s₁ o₁, m.Holds k s₁ o₁ → o₁.seq < o.seq := by
    intro k hk s₁ o₁ hold₁
    obtain ⟨a, ha, rfl⟩ := List.mem_map.1 hk
    rw [seq_of_mem_turnOrder (heq ▸ List.mem_append_left _ ha) hold₁]
    exact holder a ha
  -- The older ones take their turns, then the branch.
  obtain ⟨acts, m₀, m₀', h₀, hmoves, hmoves', hm, hm'⟩ := h.turns_older hn
  obtain ⟨n₀, s₀, o₀, hold₀, kind₀, hseq₀⟩ := h₀.pending
  -- The branch is where it was.
  obtain rfl : n₀ = n := by
    obtain ⟨s₁, o₁, hold₁, -, -, hseq₁, -⟩ := hmoves.origin hold₀
    exact h.coherent.position_eq hold₁ hold (hseq₁.symm.trans hseq₀)
  rw [Machine.execute, Machine.execute, executeActs, executeActs, inFlight_eq, inFlight_eq, heq,
    heq', List.map_append, List.map_append, List.map_cons, List.map_cons, h.barrier, h.barrier',
    (hm _).1, (hm _).2, (hm' _).1, (hm' _).2, List.foldlM_cons, List.foldlM_cons, turnsActs,
    turnsActs]
  rcases h₀.turn_branch hold₀ kind₀ hseq₀ with
    ⟨t, t', hfail, hfail', hfault⟩ | ⟨m₁, m₁', hok, hok', hacts, hfares⟩
  · rw [hfail, hfail']
    exact .inl ⟨t, t', rfl, rfl, hfault⟩
  · -- What comes after the branch does nothing.
    have hmoves₁ := hmoves.trans (turn_moves h₀.onPath_of_not_speculative.1 hok)
    have hmoves₁' := hmoves'.trans (turn_moves h₀.onPath_of_not_speculative.2 hok')
    obtain ⟨hrest, hnone⟩ := turns_younger (hmoves₁.lt_of_younger younger fun a ha =>
      ⟨heq ▸ List.mem_append_right _ (List.mem_cons_of_mem _ ha), hyounger a ha⟩)
    obtain ⟨hrest', hnone'⟩ := turns_younger (hmoves₁'.lt_of_younger younger' fun a ha =>
      ⟨heq' ▸ List.mem_append_right _ (List.mem_cons_of_mem _ ha), hyounger' a ha⟩)
    rw [hok, hok', hacts]
    refine .inr ⟨m₁, m₁', hrest, hrest', ?_, hfares.mono ?_⟩
    · simp only [hnone, hnone']
    · exact List.subset_append_of_subset_right _ (List.subset_append_left _ _)

end Machine

end OutOfOrder
