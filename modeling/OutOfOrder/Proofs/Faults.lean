import OutOfOrder.Proofs.Histories
import OutOfOrder.Proofs.Runs
import OutOfOrder.Proofs.Turns
/-!
# What a cycle can stop on

A cycle has many faults to stop on: a busy station, an operand or an address
that is not there, a branch that is not in the history of issues. A
reachable machine stops on one of them only. A branch that is taken, or a
call, leads out of memory; and the machine knows this before the Execute
stage, from what it has in flight then (`Strays`).

One direction follows the turns of the stage up to the one that fails. What
it acts on was there at the beginning of the stage, and had the operands it
has now (`Moves.aims`). The other direction has to bring an instruction that
strays to its turn. Those older than it are no pending branches and no
calls, so their turns do not fail, and none of them touches its station
(`holds_turns`).

That no value is read where there is none is a fact about each machine on
the way, and not only about the faults: a branch compares what it has, and
would compare two absent operands without a fault. `Equipped` says what is
there when it is read.
-/

namespace OutOfOrder

namespace Machine

variable {m m' m₁ : Machine} {n k : Nat} {s s' : Station} {o o' : Occupant} {e : Entry} {a : Int}
variable {barrier : Option Int} {acts : List Act} {ns : List Nat}

/-- **An instruction leads out of memory.** Its latency has elapsed, and no
branch before it is pending. It is a branch whose operands are equal, or a
call, and the address it leads to is none. -/
def Strays (m : Machine) (a : Int) : Prop :=
  ∃ n s o, m.Holds n s o ∧ m.OnPath o.seq ∧ s.latency ≤ o.cycles ∧ ¬ (0 ≤ a ∧ a < 65536) ∧
    ((∃ rA rB offset v, o.instr = .beq rA rB offset ∧ o.j = .value v ∧ o.k = .value v ∧
        a = o.pc + 1 + offset) ∨
      ∃ label, o.instr = .call label ∧
        a = if m.relativeCalls then label.val + (o.pc + 1) else label.val)

/-- **Whatever is read is there.** -/
structure Equipped (m : Machine) : Prop where
  /-- Who may act has a word for each source. -/
  operands : ∀ n s o, m.Holds n s o → s.latency ≤ o.cycles →
    (∀ r, o.instr.sources.1 = some r → ∃ v : Word, o.j = .value v.toInt) ∧
      ∀ r, o.instr.sources.2 = some r → ∃ v : Word, o.k = .value v.toInt
  /-- An address that is due has its base and its offset. -/
  base : ∀ n s o, m.Holds n s o → s.kind.isMemory → s.addressDue o →
    (∃ v : Word, o.j = .value v.toInt) ∧ ∃ offset, o.imm = some offset
  /-- An address that is known is in memory. -/
  address : ∀ n s o, m.Holds n s o → o.addressReady → ∃ a : Word, o.imm = some a.toInt
  /-- A branch has its offset, its saved table and its entry. -/
  branch : ∀ n s o, m.Holds n s o → s.kind = .beq →
    (∃ offset, o.imm = some offset) ∧ o.checkpoint.isSome ∧ ∃ e ∈ m.issued, e.seq = o.seq
  /-- A call has its target. -/
  call : ∀ n s o, m.Holds n s o → o.instr.isCall → o.imm.isSome
  /-- A unit that computes has an operation. -/
  operation : ∀ n s o, m.Holds n s o → s.kind = .addSub ∨ s.kind = .nor ∨ s.kind = .mul →
    ∃ op rA rB rC, o.instr = .alu op rA rB rC
  /-- What was issued names a station. -/
  placed : ∀ e ∈ m.issued, 0 ≤ e.tag ∧ e.tag < m.stations.length

theorem Coherent.equipped (hc : m.Coherent) (ha : m.Accounted) : m.Equipped where
  operands n s o hold elapsed := by
    obtain ⟨hj, hk⟩ := hc.ready hold elapsed
    obtain ⟨hsj, hsk⟩ := hc.sources n s o hold
    exact ⟨fun r hr => Supplies.exists_value (hr ▸ hsj) hj,
      fun r hr => Supplies.exists_value (hr ▸ hsk) hk⟩
  base n s o hold kind due := by
    rcases hc.computeAddress_eq hold kind with ⟨hnot, -⟩ | ⟨base, offset, -, -, himm, -⟩
    · rw [due] at hnot
      cases hnot
    simp only [Station.addressDue, Bool.and_eq_true] at due
    obtain ⟨r, hr⟩ : ∃ r, o.instr.sources.1 = some r := by
      rcases UnitKind.isMemory_iff.1 kind with hk | hk <;>
        obtain ⟨rA, rB, off, hi⟩ := (hc.fits n s o hold).instr_eq hk <;>
        exact ⟨rB, by rw [hi]; rfl⟩
    exact ⟨Supplies.exists_value (hr ▸ (hc.sources n s o hold).1) due.1.2, offset, himm⟩
  address n s o hold hready := ((hc.fits n s o hold).address hready).2.2
  branch n s o hold kind := by
    obtain ⟨table, htable, -⟩ := hc.saved n s o hold kind
    obtain ⟨-, -, offset, -, himm⟩ := (hc.fits n s o hold).exists_branch kind
    obtain ⟨e, he, hof⟩ := hc.owner n s o hold
    exact ⟨⟨offset, himm⟩, by rw [htable]; rfl, e, he, hof.seq⟩
  call n s o hold hcall := by
    obtain ⟨label, hi⟩ := Instruction.isCall_iff.1 hcall
    rw [(hc.fits n s o hold).target label hi]
    rfl
  operation n s o hold kind := by
    rcases kind with kind | kind | kind <;> exact (hc.fits n s o hold).instr_eq kind
  placed := ha.placed

/-! ## What strays -/

/-- **To stray is to aim out of memory.** -/
theorem Coherent.strays_iff (hc : m.Coherent) :
    m.Strays a ↔ (∃ n, m.Aims n a) ∧ ¬ (0 ≤ a ∧ a < 65536) := by
  constructor
  · rintro ⟨n, s, o, hold, path, elapsed, hout,
      ⟨rA, rB, offset, v, hi, hj, hk, rfl⟩ | ⟨label, hi, rfl⟩⟩
    · have kind : s.kind = .beq := (hc.kind_eq_beq_iff hold).2 (by rw [hi]; rfl)
      obtain ⟨_, _, off, hi', himm⟩ := (hc.fits n s o hold).exists_branch kind
      obtain ⟨rfl, rfl, rfl⟩ := Instruction.beq.inj (hi.symm.trans hi')
      have ht : taken o := by simp [taken, hj, hk]
      exact ⟨⟨n, s, o, hold, path, elapsed, .inl ⟨kind, ht, offset, himm, rfl⟩⟩, hout⟩
    · exact ⟨⟨n, s, o, hold, path, elapsed,
        .inr ⟨by rw [hi]; rfl, (hc.fits n s o hold).target label hi⟩⟩, hout⟩
  · rintro ⟨⟨n, s, o, hold, path, elapsed, ⟨kind, ht, offset, himm, rfl⟩ | ⟨hcall, himm⟩⟩, hout⟩
    · obtain ⟨rA, rB, off, hi, himm'⟩ := (hc.fits n s o hold).exists_branch kind
      rw [himm, Option.some.injEq] at himm'
      obtain ⟨hj, hk⟩ := hc.ready hold elapsed
      obtain ⟨hsj, hsk⟩ := hc.sources n s o hold
      obtain ⟨v, hv⟩ := Supplies.exists_value (r := rA) (by rw [hi] at hsj; exact hsj) hj
      obtain ⟨w, hw⟩ := Supplies.exists_value (r := rB) (by rw [hi] at hsk; exact hsk) hk
      -- Both operands are there, so they are the same value.
      simp only [taken, hv, hw, Operand.value?, decide_eq_true_eq, Option.some.injEq] at ht
      exact ⟨n, s, o, hold, path, elapsed, hout,
        .inl ⟨rA, rB, offset, v.toInt, himm' ▸ hi, hv, ht ▸ hw, rfl⟩⟩
    · obtain ⟨label, hi⟩ := Instruction.isCall_iff.1 hcall
      have htarget := (hc.fits n s o hold).target label hi
      rw [himm, Option.some.injEq] at htarget
      exact ⟨n, s, o, hold, path, elapsed, hout, .inr ⟨label, hi, htarget⟩⟩

/-- **Where an instruction leads is known at the beginning of the stage**, if
it was on the path then. -/
theorem Moves.aims (hm : Moves m acts m₁) (hc : m.Coherent) (ha : m₁.Aims n a)
    (hpath : ∀ s o, m₁.Holds n s o → m.OnPath o.seq) : m.Aims n a := by
  obtain ⟨s', o', hold', -, elapsed, haim⟩ := ha
  have hfits := (hm.coherent hc).fits n s' o' hold'
  obtain ⟨s, o, hold, hslot, -, -, hsame⟩ := hm.origin_eq hold'
  have hkind : s'.kind = .beq ∨ s'.kind = .callRet := by
    rcases haim with ⟨kind, -⟩ | ⟨hcall, -⟩
    · exact .inl kind
    · exact .inr (((hm.coherent hc).kind_eq_callRet_iff hold').2
        (Instruction.isJump_of_isCall hcall))
  -- Only an access computes an address.
  obtain rfl : o' = o := by
    refine hsame.resolve_left fun hready => ?_
    have := (hfits.address hready).1
    rcases hkind with hk | hk <;> rw [hk] at this <;> cases this
  have hlatency : s'.latency = s.latency := by rw [hslot]
  have hkind' : s'.kind = s.kind := by rw [hslot]
  rw [hlatency] at elapsed
  rw [hkind'] at haim
  exact ⟨s, o', hold, hpath s' o' hold', elapsed, haim⟩

/-- **Turns stop on nothing else.** -/
theorem Coherent.aims_of_turns (hc : m.Coherent)
    (hb : ∀ q, speculative barrier q = false → m.OnPath q) (hm : Moves m acts m₁) {t : Trap}
    (h : ns.foldlM (turn barrier) m₁ = .error t) :
    ∃ n ∈ ns, ∃ a, m.Aims n a ∧ ¬ (0 ≤ a ∧ a < 65536) ∧
      t.fault = .outOfBounds .programCounter a := by
  induction ns generalizing m₁ acts with
  | nil => cases h
  | cons n ns ih =>
    have hb₁ : ∀ q, speculative barrier q = false → m₁.OnPath q := fun q hq => hm.onPath (hb q hq)
    rw [List.foldlM_cons] at h
    rcases (hm.coherent hc).turn_cases hb₁ (n := n) with
      ⟨m₂, h₂⟩ | ⟨a, left, haims, hout, hspec, h₂⟩
    · rw [h₂] at h
      obtain ⟨k, hk, ha⟩ := ih (hm.trans (turn_moves hb₁ h₂)) h
      exact ⟨k, List.mem_cons_of_mem _ hk, ha⟩
    · rw [h₂] at h
      cases h
      exact ⟨n, List.mem_cons_self, a,
        hm.aims hc haims fun s o hold => hb o.seq (hspec s o hold), hout, rfl⟩

/-! ## The turn of an instruction comes -/

/-- Accessing memory leaves the other stations alone. -/
theorem Coherent.holds_access (hc : m.Coherent) (hold' : m.Holds k s' o')
    (kind : s'.kind = .load ∨ s'.kind = .store) (hm : m.access k = .ok m') (hne : n ≠ k)
    (hold : m.Holds n s o) : m'.Holds n s o := by
  rcases hc.access_eq hold' kind with ⟨-, h⟩ | ⟨a, -, -, -, ⟨-, h⟩ | ⟨-, v, -, h⟩⟩ <;>
    rw [h] at hm <;> cases hm
  · exact hold
  · exact (holds_resulted hold').2 (.inr ⟨hne, hold⟩)
  · exact (holds_finish (m := m.stored a v) hold'.lt_length).2 ⟨hne, hold⟩

/-- **A turn leaves the other stations alone**, but for what a taken branch
drops; and that is not on the path. -/
theorem Coherent.holds_turn (hc : m.Coherent)
    (hb : ∀ q, speculative barrier q = false → m.OnPath q) (hm : turn barrier m k = .ok m')
    (hne : n ≠ k) (hold : m.Holds n s o) (path : m.OnPath o.seq) : m'.Holds n s o := by
  rw [turn] at hm
  rcases hocc : m.occupied? k with - | ⟨s', o'⟩ <;> rw [hocc] at hm
  · cases hm
    exact hold
  have hold' := occupied?_eq_some_iff.1 hocc
  dsimp only at hm
  split at hm
  · cases hm
    exact hold
  rename_i hspec
  have path' := hb o'.seq (by simpa using hspec)
  have memory (kind : s'.kind = .load ∨ s'.kind = .store)
      (hm : (m.computeAddress k >>= fun m => m.access k) = .ok m') : m'.Holds n s o := by
    have kind' := UnitKind.isMemory_iff.2 kind
    rcases hc.computeAddress_eq hold' kind' with ⟨-, h⟩ | ⟨base, offset, due, hj, himm, h⟩ <;>
      rw [h] at hm
    · exact hc.holds_access hold' kind hm hne hold
    · have hc₁ := (Move.address hold' path' kind' due hj himm).coherent hc
      have hold₁ := (holds_setStation hold'.lt_length).2
        (.inl ⟨rfl, rfl, Station.withAddress_occupant (a := wrap (base + offset)) hold'.2⟩)
      exact hc₁.holds_access hold₁ kind hm hne
        ((holds_setStation hold'.lt_length).2 (.inr ⟨hne, hold⟩))
  rcases hk : s'.kind with _ | _ | _ | _ | _ | _ | _ <;> simp only [hk] at hm
  case load => exact memory (.inl hk) hm
  case store => exact memory (.inr hk) hm
  case beq =>
    split at hm
    · rcases hc.resolveBranch_eq hold' hk with
        ⟨-, h⟩ | ⟨_, _, _, -, -, -, -, -, ⟨_, -, h⟩ | ⟨-, h⟩⟩ <;> rw [h] at hm <;> cases hm
      · exact (holds_finish (o := o') hold'.lt_length).2 ⟨hne, hold⟩
      · have hseq : o.seq ≠ o'.seq := fun hseq => hne (hc.position_eq hold hold' hseq)
        exact (holds_branched hc hold').2 ⟨hold, lt_of_le_of_ne (path k s' o' hold' hk) hseq⟩
    · cases hm
      exact hold
  case callRet =>
    split at hm
    · rename_i elapsed
      rcases hc.resolveJump_eq hold' hk elapsed with
        ⟨target, ⟨-, -, h⟩ | ⟨h, -⟩⟩ | ⟨_, -, -, -, h⟩ <;> rw [h] at hm <;> cases hm
      · exact (holds_finish (m := m.called o' target) hold'.lt_length).2 ⟨hne, hold⟩
      · exact (holds_set (m := m) (List.set_set ..) hold'.lt_length).2 (.inr ⟨hne, hold⟩)
    · cases hm
      exact hold
  all_goals
    split at hm
    · rename_i due
      simp only [Bool.and_eq_true, decide_eq_true_eq] at due
      obtain ⟨_, _, _, _, _, _, -, -, -, h⟩ := hc.compute_eq hold' (by simp [hk]) due.2
      rw [h] at hm
      cases hm
      exact (holds_resulted hold').2 (.inr ⟨hne, hold⟩)
    · cases hm
      exact hold

/-- The same of turns one after the other. -/
theorem Coherent.holds_turns (hc : m.Coherent)
    (hb : ∀ q, speculative barrier q = false → m.OnPath q)
    (hm : ns.foldlM (turn barrier) m = .ok m') (hne : n ∉ ns) (hold : m.Holds n s o)
    (path : m.OnPath o.seq) : m'.Holds n s o := by
  induction ns generalizing m with
  | nil =>
    cases hm
    exact hold
  | cons k ns ih =>
    rw [List.mem_cons, not_or] at hne
    rw [List.foldlM_cons] at hm
    rcases h : turn barrier m k with t | m₁ <;> rw [h] at hm
    · cases hm
    have first := turn_moves hb h
    exact ih (first.coherent hc) (fun q hq => first.onPath (hb q hq)) hm hne.2
      (hc.holds_turn hb h hne.1 hold path) (first.onPath path)

/-- **The turn of an instruction that leads out of memory fails.** -/
theorem Coherent.turn_error (hc : m.Coherent) (hold : m.Holds n s o)
    (hspec : speculative barrier o.seq = false) (elapsed : s.latency ≤ o.cycles)
    (haim : (s.kind = .beq ∧ taken o ∧ ∃ offset, o.imm = some offset ∧ a = o.pc + 1 + offset) ∨
      (o.instr.isCall ∧ o.imm = some a)) (hout : ¬ (0 ≤ a ∧ a < 65536)) :
    ∃ left, turn barrier m n = .error ⟨.outOfBounds .programCounter a, left⟩ := by
  rw [turn, occupied?_eq_some_iff.2 hold]
  dsimp only
  rw [if_neg (by rw [hspec]; decide)]
  rcases haim with ⟨kind, ht, offset, himm, rfl⟩ | ⟨hcall, himm⟩
  · rw [kind]
    dsimp only
    rw [if_pos elapsed]
    rcases hc.resolveBranch_eq hold kind with
      ⟨hfall, -⟩ | ⟨offset', _, _, -, himm', -, -, -, ⟨target, htarget, -⟩ | ⟨-, h⟩⟩
    · rw [ht] at hfall
      cases hfall
    · obtain rfl : offset = offset' := Option.some.inj (himm.symm.trans himm')
      exact absurd (htarget ▸ target.toInt_inRange) hout
    · obtain rfl : offset = offset' := Option.some.inj (himm.symm.trans himm')
      exact ⟨_, h⟩
  · have kind := (hc.kind_eq_callRet_iff hold).2 (Instruction.isJump_of_isCall hcall)
    rw [kind]
    dsimp only
    rw [if_pos elapsed]
    rcases hc.resolveJump_eq hold kind elapsed with
      ⟨target, ⟨-, himm', -⟩ | ⟨-, hret⟩⟩ | ⟨a', -, himm', -, h⟩
    · obtain rfl : a = target.toInt := Option.some.inj (himm.symm.trans himm')
      exact absurd target.toInt_inRange hout
    · rw [hret] at hcall
      cases hcall
    · obtain rfl : a = a' := Option.some.inj (himm.symm.trans himm')
      exact ⟨_, h⟩

/-- **The stage gets to that turn.** -/
theorem Coherent.execute_error (hc : m.Coherent) (haims : m.Aims n a)
    (hout : ¬ (0 ≤ a ∧ a < 65536)) :
    ∃ left, m.execute = .error ⟨.outOfBounds .programCounter a, left⟩ := by
  obtain ⟨s, o, hold, path, elapsed, haim⟩ := haims
  obtain ⟨older, younger, heq, holder, -⟩ := hc.turnOrder_eq_append hold
  have hb : ∀ q, speculative m.barrier q = false → m.OnPath q :=
    fun _ => speculative_barrier_eq_false_iff.1
  have hmem : ∀ {k}, k ∈ older.map Prod.snd → ∃ s' o', m.Holds k s' o' ∧ o'.seq < o.seq := by
    intro k hk
    obtain ⟨⟨q, k⟩, hmem, rfl⟩ := List.mem_map.1 hk
    obtain ⟨s', o', hold', rfl⟩ := mem_turnOrder.1 (heq ▸ List.mem_append_left _ hmem)
    exact ⟨s', o', hold', holder _ hmem⟩
  obtain ⟨m₁, h₁⟩ : ∃ m₁, (older.map Prod.snd).foldlM (turn m.barrier) m = .ok m₁ := by
    rcases h : (older.map Prod.snd).foldlM (turn m.barrier) m with t | m₁
    · -- Who is older is no pending branch and no jump.
      exfalso
      obtain ⟨k, hk, a', ⟨s', o', hold', -, -, haim'⟩, -⟩ := hc.aims_of_turns hb (.refl m) h
      obtain ⟨s'', o'', hold'', hlt⟩ := hmem hk
      obtain ⟨rfl, rfl⟩ := hold'.unique hold''
      rcases haim' with ⟨kind, -⟩ | ⟨hcall, -⟩
      · exact absurd (path k s' o' hold' kind) (Int.not_le.2 hlt)
      · obtain ⟨e, he, hof⟩ := hc.owner n s o hold
        have hle := hc.jumpLast k s' o' hold' ((hc.kind_eq_callRet_iff hold').2
          (Instruction.isJump_of_isCall hcall)) e he
        rw [hof.seq] at hle
        exact absurd hle (Int.not_le.2 hlt)
    · exact ⟨m₁, rfl⟩
  have hne : n ∉ older.map Prod.snd := by
    intro hn
    obtain ⟨s', o', hold', hlt⟩ := hmem hn
    rw [(hold'.unique hold).2] at hlt
    exact Int.lt_irrefl _ hlt
  obtain ⟨left, hturn⟩ := ((turns_moves hb h₁).coherent hc).turn_error
    (hc.holds_turns hb h₁ hne hold path) (speculative_barrier_eq_false_iff.2 path) elapsed haim hout
  refine ⟨left, ?_⟩
  rw [execute, inFlight_eq, heq, List.map_append, List.foldlM_append, h₁]
  change List.foldlM (turn m.barrier) m₁ (n :: younger.map Prod.snd) = _
  rw [List.foldlM_cons, hturn]
  rfl

/-! ## A cycle -/

/-- Only the Execute stage can fail. -/
theorem Coherent.step_eq_error_iff (hc : m₁.Coherent) (h₁ : m.advance.issue = .ok m₁) {t : Trap} :
    m.step = .error t ↔ m₁.execute = .error t := by
  rw [Machine.step, h₁]
  change (m₁.execute >>= fun m₂ => m₂.writeBack >>= fun m₃ =>
    pure { m₃ with cycle := m₃.cycle + 1 }) = _ ↔ _
  rcases h₂ : m₁.execute with t' | m₂
  · rfl
  · refine iff_of_false ?_ (by simp)
    rcases ((execute_moves h₂).coherent hc).writeBack_eq with ⟨-, h₃⟩ | ⟨x, -, h₃⟩ <;>
      simp [bind, Except.bind, h₃, pure, Except.pure]

/-- **A cycle stops on a fault exactly where an instruction leads out of
memory**, and the fault is that of the program counter. At every turn of the
Execute stage and after the last one, whatever is read is there. -/
theorem step_error_iff (h : Reachable m) :
    ∃ m₁, m.advance.issue = .ok m₁ ∧
      (∀ fault, (∃ t, m.step = .error t ∧ t.fault = fault) ↔
        ∃ a, m₁.Strays a ∧ fault = .outOfBounds .programCounter a) ∧
      ∀ ns m₂, ns <+: m₁.inFlight → ns.foldlM (turn m₁.barrier) m₁ = .ok m₂ → m₂.Equipped := by
  obtain ⟨m₁, h₁⟩ := m.advance.exists_issue
  have hc₁ := h.coherent.advance.issue h₁
  have hb : ∀ q, speculative m₁.barrier q = false → m₁.OnPath q :=
    fun _ => speculative_barrier_eq_false_iff.1
  refine ⟨m₁, h₁, fun fault => ⟨?_, ?_⟩, ?_⟩
  · rintro ⟨t, ht, rfl⟩
    obtain ⟨n, -, a, haims, hout, hfault⟩ :=
      hc₁.aims_of_turns hb (.refl m₁) ((hc₁.step_eq_error_iff h₁).1 ht)
    exact ⟨a, hc₁.strays_iff.2 ⟨⟨n, haims⟩, hout⟩, hfault⟩
  · rintro ⟨a, hstrays, rfl⟩
    obtain ⟨⟨n, haims⟩, hout⟩ := hc₁.strays_iff.1 hstrays
    obtain ⟨left, hleft⟩ := hc₁.execute_error haims hout
    exact ⟨_, (hc₁.step_eq_error_iff h₁).2 hleft, rfl⟩
  · intro ns m₂ _ hturns
    have hmoves := turns_moves hb hturns
    exact (hmoves.coherent hc₁).equipped
      ((h.accounted.advance.issue h.coherent.advance h₁).moves hc₁ hmoves)

/-- A program of one branch, which leads out of memory. As an instruction it
would be refused, so it is there as a word of data. -/
def straySample : Machine := left (samplePool.loadProgram [] 0 [(0, 0x2010)] [])

/-- In its third cycle the branch is taken, and aims below address 0. -/
theorem step_error_iff_straySample :
    ∃ m m₁, straySample.steps 2 = .ok m ∧ m.advance.issue = .ok m₁ ∧ m₁.Strays (-15) ∧
      ∃ t, m.step = .error t ∧ t.fault = .outOfBounds .programCounter (-15) := by
  have h : ((straySample.steps 2).toOption.any fun m => m.advance.issue.toOption.any fun m₁ =>
      (m₁.occupied? 1).any fun p => decide (p.2.instr = .beq 0 0 (-16) ∧ p.2.j = .value 0 ∧
        p.2.k = .value 0 ∧ p.2.pc = 0 ∧ p.2.seq = 0 ∧ p.1.latency ≤ p.2.cycles ∧
        m₁.stations.filterMap pendingSeq? = [0])) = true := by decide +kernel
  obtain ⟨m, hm, h⟩ := exists_of_any h
  obtain ⟨m₁, h₁, h⟩ := exists_of_any h
  obtain ⟨⟨s, o⟩, hocc, h⟩ := (Option.any_eq_true ..).1 h
  obtain ⟨hi, hj, hk, hpc, hseq, elapsed, hpending⟩ := of_decide_eq_true h
  have path : m₁.OnPath o.seq := by
    intro n s' o' hold kind
    have hmem := mem_filterMap_pendingSeq?.2 ⟨n, s', o', hold, kind, rfl⟩
    rw [hpending, List.mem_singleton] at hmem
    rw [hmem, hseq]
  have hstrays : m₁.Strays (-15) :=
    ⟨1, s, o, occupied?_eq_some_iff.1 hocc, path, elapsed, by decide,
      .inl ⟨0, 0, -16, 0, hi, hj, hk, by rw [hpc]; rfl⟩⟩
  have hreach : Reachable straySample :=
    (Configured.call configured_samplePool (.loadProgram ..)).reachable
  obtain ⟨m₁', h₁', hiff, -⟩ := step_error_iff (hreach.steps hm)
  obtain rfl : m₁ = m₁' := Except.ok.inj (h₁.symm.trans h₁')
  exact ⟨m, m₁, hm, h₁, hstrays, (hiff _).2 ⟨-15, hstrays, rfl⟩⟩

end Machine

end OutOfOrder
