import OutOfOrder.Proofs.Faults
/-!
# Resolutions that fail

A cycle stops on a branch that is taken, or on a call, that leads out of
memory (`Faults`). What it leaves behind is a question of order: the address
is checked in the middle of the resolution.

A taken branch moves the program counter before it drops anything. So a
branch that fails leaves the machine as it was when its turn came. A call
writes its return address before it moves the program counter. So a call that
fails has put the address in the link register, and has taken the register
from whoever was to write it (`linked`); everything else is as it was.

The moment that a resolution begins at is not the beginning of the cycle:
the instruction has been issued, and those before it have had their turns
(`TurnComes`).
-/

namespace OutOfOrder

namespace Machine

variable {m m₁ z : Machine} {n : Nat} {s : Station} {o : Occupant} {t : Trap}

/-- **The turn of a position comes** in an Execute stage, and finds the
machine as those before it left it. -/
def TurnComes (m : Machine) (n : Nat) (z : Machine) : Prop :=
  ∃ older younger, m.inFlight = older ++ n :: younger ∧ older.foldlM (turn m.barrier) m = .ok z

/-- **An instruction resolves** in an Execute stage: its turn comes, it is not
speculative, its latency has elapsed, and it is a branch or a jump. -/
structure Resolves (m : Machine) (n : Nat) (z : Machine) (s : Station) (o : Occupant) : Prop where
  comes : m.TurnComes n z
  hold : z.Holds n s o
  certain : speculative m.barrier o.seq = false
  elapsed : s.latency ≤ o.cycles
  kind : s.kind = .beq ∨ s.kind = .callRet

/-- What an instruction does that resolves. -/
def resolve (m : Machine) (n : Nat) (s : Station) (o : Occupant) : Outcome :=
  if s.kind = .beq then m.resolveBranch n s o else m.resolveJump n s o

/-- The machine after a call has written its return address, and has done
nothing else. -/
def linked (m : Machine) (o : Occupant) : Machine :=
  { m with registers := (m.registers.set Reg.link (o.pc + 1)).commit Reg.link }

theorem Resolves.turn_eq (h : m.Resolves n z s o) : turn m.barrier z n = z.resolve n s o := by
  rw [turn, occupied?_eq_some_iff.2 h.hold]
  dsimp only
  rw [if_neg (by rw [h.certain]; decide), resolve]
  rcases h.kind with kind | kind <;> rw [kind] <;> exact if_pos h.elapsed

/-- A fold that fails fails at one of its elements. -/
theorem exists_of_foldlM_eq_error {f : Machine → Nat → Outcome} {ns : List Nat}
    (h : ns.foldlM f m = .error t) :
    ∃ older n younger z, ns = older ++ n :: younger ∧ older.foldlM f m = .ok z ∧
      f z n = .error t := by
  induction ns generalizing m with
  | nil => cases h
  | cons n ns ih =>
    rw [List.foldlM_cons] at h
    rcases hfirst : f m n with t' | m' <;> rw [hfirst] at h
    · cases h
      exact ⟨[], n, ns, m, rfl, rfl, hfirst⟩
    · obtain ⟨older, n', younger, z, rfl, hz, hfails⟩ := ih h
      exact ⟨n :: older, n', younger, z, rfl, by rw [List.foldlM_cons, hfirst]; exact hz, hfails⟩

/-- **What fails in an Execute stage, and what it leaves.** -/
theorem Coherent.exists_resolves (hc : m.Coherent) (ht : m.execute = .error t) :
    ∃ n z s o a, m.Resolves n z s o ∧ z.resolve n s o = .error t ∧
      t.fault = .outOfBounds .programCounter a ∧ ¬ (0 ≤ a ∧ a < 65536) ∧
      ((o.instr.isBranch ∧ taken o ∧ (∃ offset, o.imm = some offset ∧ a = o.pc + 1 + offset) ∧
          t.machine = z) ∨
        (o.instr.isCall ∧ o.imm = some a ∧ t.machine = z.linked o)) := by
  obtain ⟨older, n, younger, z, hsplit, hz, hfails⟩ := exists_of_foldlM_eq_error ht
  have hb : ∀ q, speculative m.barrier q = false → m.OnPath q :=
    fun _ => speculative_barrier_eq_false_iff.1
  have hmoves := turns_moves hb hz
  have hcz := hmoves.coherent hc
  rcases hcz.turn_cases (fun q hq => hmoves.onPath (hb q hq)) with
    ⟨m', h⟩ | ⟨a, left, ⟨s, o, hold, -, elapsed, haim⟩, hout, hspec, h⟩ <;> rw [h] at hfails
  · cases hfails
  cases hfails
  have resolves (kind : s.kind = .beq ∨ s.kind = .callRet) : m.Resolves n z s o :=
    ⟨⟨older, younger, hsplit, hz⟩, hold, hspec s o hold, elapsed, kind⟩
  rcases haim with ⟨kind, htaken, hoffset⟩ | ⟨hcall, himm⟩
  · have hresolves := resolves (.inl kind)
    have hfails := hresolves.turn_eq.symm.trans h
    refine ⟨n, z, s, o, a, hresolves, hfails, rfl, hout,
      .inl ⟨by simpa using (hcz.kind_eq_beq_iff hold).1 kind, htaken, hoffset, ?_⟩⟩
    rw [resolve, if_pos kind] at hfails
    rcases hcz.resolveBranch_eq hold kind with
      ⟨-, h'⟩ | ⟨_, _, _, -, -, -, -, -, ⟨_, -, h'⟩ | ⟨-, h'⟩⟩ <;> rw [h'] at hfails <;> cases hfails
    rfl
  · have kind := (hcz.kind_eq_callRet_iff hold).2 (Instruction.isJump_of_isCall hcall)
    have hresolves := resolves (.inr kind)
    have hfails := hresolves.turn_eq.symm.trans h
    refine ⟨n, z, s, o, a, hresolves, hfails, rfl, hout, .inr ⟨hcall, himm, ?_⟩⟩
    rw [resolve, if_neg (by rw [kind]; decide)] at hfails
    rcases hcz.resolveJump_eq hold kind elapsed with
      ⟨_, ⟨-, -, h'⟩ | ⟨h', -⟩⟩ | ⟨_, -, -, -, h'⟩ <;> rw [h'] at hfails <;> cases hfails
    rfl

/-- **What a cycle leaves that stops on a fault.** It is an instruction that
resolves whose address is out of memory. If that is a branch, the machine is
what it was when the branch began to resolve. If it is a call, it has written
its return address to the link register, which waits for nobody then; and
that is all. -/
theorem trap_of_step_eq_error (h : Reachable m) (ht : m.step = .error t) :
    ∃ m₁ n z s o a, m.advance.issue = .ok m₁ ∧ m₁.Resolves n z s o ∧
      z.resolve n s o = .error t ∧ t.fault = .outOfBounds .programCounter a ∧
      ¬ (0 ≤ a ∧ a < 65536) ∧
      ((o.instr.isBranch ∧ taken o ∧ (∃ offset, o.imm = some offset ∧ a = o.pc + 1 + offset) ∧
          t.machine = z) ∨
        (o.instr.isCall ∧ o.imm = some a ∧ t.machine = z.linked o)) := by
  obtain ⟨m₁, h₁⟩ := m.advance.exists_issue
  have hc₁ := h.coherent.advance.issue h₁
  obtain ⟨n, z, s, o, a, hresolves, hrest⟩ :=
    hc₁.exists_resolves ((hc₁.step_eq_error_iff h₁).1 ht)
  exact ⟨m₁, n, z, s, o, a, h₁, hresolves, hrest⟩

/-- In the third cycle of the sample that strays its branch fails. -/
theorem trap_of_step_straySample :
    ∃ m t, straySample.steps 2 = .ok m ∧ m.step = .error t ∧
      ∃ m₁ n z s o a, m.advance.issue = .ok m₁ ∧ m₁.Resolves n z s o ∧
        z.resolve n s o = .error t ∧ t.fault = .outOfBounds .programCounter a ∧
        ¬ (0 ≤ a ∧ a < 65536) ∧
        ((o.instr.isBranch ∧ taken o ∧
            (∃ offset, o.imm = some offset ∧ a = o.pc + 1 + offset) ∧ t.machine = z) ∨
          (o.instr.isCall ∧ o.imm = some a ∧ t.machine = z.linked o)) := by
  have h : ((straySample.steps 2).toOption.any fun m => m.step.toOption.isNone) = true := by
    decide +kernel
  obtain ⟨m, hm, h⟩ := exists_of_any h
  obtain ⟨t, ht⟩ := exists_of_isNone h
  have hreach : Reachable straySample :=
    (Configured.call configured_samplePool (.loadProgram ..)).reachable
  exact ⟨m, t, hm, ht, trap_of_step_eq_error (hreach.steps hm) ht⟩

/-! ## A call that fails

A multiplication is to write the link register, and a call comes after it. The
call fails while the multiplication is still in its unit. -/

/-- A unit for multiplications that take four cycles, and one for jumps. -/
def jumpTable : PoolTable :=
  [("MUL", { stationCount := some 1, latency := some 4 }),
    ("CALL_RET", { stationCount := some 1, latency := some 1 })]

/-- The pool of these units. -/
def jumpPool : Machine :=
  (ofTable jumpTable true false).toOption.getD { offsetsChecked := true, relativeCalls := false }

theorem configured_jumpPool : Configured jumpPool :=
  @Configured.made jumpTable true false jumpPool rfl

/-- The multiplication, and a call of address -1. As an instruction the call
would be refused, so it is there as a word of data. -/
def strayCall : Machine := left (jumpPool.loadProgram [.alu .mul 1 2 3] 0 [(1, 0x307F)] [])

/-- **A call that fails has changed something.** When it begins to resolve the
link register waits for the multiplication; and in the machine that it leaves
the register has the return address and waits for nobody. -/
theorem link_changed_by_strayCall :
    ∃ m m₁ z s o t, Reachable m ∧ m.step = .error t ∧ m.advance.issue = .ok m₁ ∧
      m₁.Resolves 1 z s o ∧ z.resolve 1 s o = .error t ∧
      z.registers.operand Reg.link = .waiting 0 ∧
      t.machine.registers.operand Reg.link = .value 2 := by
  have h : ((strayCall.steps 2).toOption.any fun m => m.advance.issue.toOption.any fun m₁ =>
      (turn m₁.barrier m₁ 0).toOption.any fun z => (z.occupied? 1).any fun p =>
        m₁.inFlight = [0, 1] ∧ speculative m₁.barrier p.2.seq = false ∧
        p.1.latency ≤ p.2.cycles ∧ p.1.kind = .callRet ∧
        (z.resolve 1 p.1 p.2).toOption.isNone ∧ z.registers.operand Reg.link = .waiting 0 ∧
        (left (z.resolve 1 p.1 p.2)).registers.operand Reg.link = .value 2) = true := by
    decide +kernel
  obtain ⟨m, hm, h⟩ := exists_of_any h
  obtain ⟨m₁, h₁, h⟩ := exists_of_any h
  obtain ⟨z, hz, h⟩ := exists_of_any h
  obtain ⟨⟨s, o⟩, hocc, h⟩ := (Option.any_eq_true ..).1 h
  obtain ⟨hflight, certain, elapsed, kind, hfails, hbefore, hafter⟩ := of_decide_eq_true h
  obtain ⟨t, ht⟩ := exists_of_isNone hfails
  have hresolves : m₁.Resolves 1 z s o :=
    ⟨⟨[0], [], hflight, by rw [List.foldlM_cons, hz]; rfl⟩, occupied?_eq_some_iff.1 hocc, certain,
      elapsed, .inr kind⟩
  have hreach : Reachable m :=
    (Configured.call configured_jumpPool (.loadProgram ..)).reachable.steps hm
  have hexecute : m₁.execute = .error t := by
    rw [execute, hflight, List.foldlM_cons, hz]
    change (turn m₁.barrier z 1 >>= fun m => [].foldlM (turn m₁.barrier) m) = _
    rw [hresolves.turn_eq, ht]
    rfl
  rw [ht] at hafter
  exact ⟨m, m₁, z, s, o, t, hreach,
    ((hreach.coherent.advance.issue h₁).step_eq_error_iff h₁).2 hexecute, h₁, hresolves, ht,
    hbefore, hafter⟩

end Machine

end OutOfOrder
