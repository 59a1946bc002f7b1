import OutOfOrder.Proofs.Oldest
import OutOfOrder.Proofs.Refinement
/-!
# The run ends

If the sequential machine halts, so does the pipelined machine, and a bound
on the cycles is known beforehand: for each instruction of the sequential
run two more than the longest latency. That is what the machine would need
if it let one instruction finish before it issued the next.

`OnCourse` gathers what is promised of the program and the pool and what a
run keeps. A machine that is on course never stops on a fault
(`OnCourse.step_ok`). `Within` bounds the cycles that are left: by what the
oldest instruction has to wait, and by what those after it may take at
worst. Each cycle before the end takes one from the bound
(`Within.step`), whatever is speculative. So at the latest when nothing is
left of the bound the machine is complete (`run_complete`).
-/

namespace OutOfOrder

open OutOfOrder.Sequential

namespace Machine

variable {m m' : Machine} {start : State} {n count longest budget k : Nat} {s s' : Station}
variable {o o' : Occupant} {e : Entry} {l : List Entry} {acts : List Act} {barrier : Option Int}

/-- The pool has a station for every instruction of the sequential run. -/
def Serves (m : Machine) (start : State) : Prop :=
  ∀ t i kind, start.Performs m.relativeCalls t i → i.unit? = some kind → ∃ s ∈ m.slots, s.kind = kind

/-- **A run on course.** The machine follows a sequential run that keeps its
code, stays inside memory and halts after `count` instructions; and the pool
serves it, with latencies up to `longest`. -/
structure OnCourse (m : Machine) (start : State) (count longest : Nat) : Prop where
  follows : m.Follows start
  codeKept : m.CodeKept start
  zero : start.registers 0 = 0
  keepsCode : start.KeepsCode m.relativeCalls
  inside : start.StaysInside m.relativeCalls
  halts : ∃ t, start.HaltsAfter m.relativeCalls count t
  serves : m.Serves start
  latency : ∀ s ∈ m.slots, s.latency ≤ longest

/-! ## No cycle fails -/

namespace OnCourse

/-- **No instruction leads out of memory.** -/
theorem inside_of_aims {a : Int} (h : m.Follows start) (hk : m.CodeKept start)
    (hcode : start.KeepsCode m.relativeCalls) (hinside : start.StaysInside m.relativeCalls)
    (ha : m.Aims n a) : 0 ≤ a ∧ a < 65536 := by
  have hc := h.coherent
  obtain ⟨s, o, hold, path, elapsed, haim⟩ := ha
  obtain ⟨e, he, hof⟩ := hc.owner n s o hold
  have hp : e ∈ m.path := hc.mem_path.2 ⟨he, hof.seq ▸ path⟩
  obtain ⟨hafter, hf⟩ := fetch_of_mem_path h hk hcode hp
  have hpc : o.pc = (m.stateAt start e.seq).pc := hof.pc.symm.trans (h.pc_eq hp)
  have hleads := hinside _ _ ⟨_, hafter, hf⟩
  rw [hof.instr] at hleads
  rcases haim with ⟨kind, ht, offset, himm, rfl⟩ | ⟨hcall, himm⟩
  · have hbranches := (h.values.taken_eq hc hold kind elapsed).symm.trans ht
    obtain ⟨rA, rB, off, hi, hoffset⟩ := (hc.fits n s o hold).exists_branch kind
    rw [himm, Option.some.injEq] at hoffset
    rw [← hof.seq, hi] at hbranches
    rw [hi] at hleads
    have := hleads hbranches
    simp only [State.branches, decide_eq_true_eq] at hbranches
    simpa only [State.execute, if_pos hbranches, ← hpc, ← hoffset] using this
  · obtain ⟨label, hi⟩ := Instruction.isCall_iff.1 hcall
    have htarget := (hc.fits n s o hold).target label hi
    rw [himm, Option.some.injEq] at htarget
    rw [hi] at hleads
    have := hleads rfl
    rw [htarget]
    simp only [State.execute, ← hpc] at this
    by_cases hrel : m.relativeCalls
    · simp only [hrel, if_true] at this ⊢
      omega
    · simp only [hrel] at this ⊢
      exact this

/-- The turns of a stage do not fail. -/
theorem turns_ok {ns : List Nat} (hb : ∀ q, speculative barrier q = false → m.OnPath q)
    (h : m.Follows start) (hk : m.CodeKept start) (hcode : start.KeepsCode m.relativeCalls)
    (hinside : start.StaysInside m.relativeCalls) : ∃ m', ns.foldlM (turn barrier) m = .ok m' := by
  induction ns generalizing m with
  | nil => exact ⟨m, rfl⟩
  | cons n ns ih =>
    obtain ⟨m₁, h₁⟩ := h.coherent.turn_ok (n := n) hb fun a => inside_of_aims h hk hcode hinside
    have hmoves := turn_moves hb h₁
    have hrel := (hmoves.extends h.coherent).relativeCalls
    obtain ⟨m₂, h₂⟩ := ih (fun q hq => hmoves.onPath (hb q hq)) (hmoves.follows h)
      (hk.moves hmoves h hcode) (by rw [hrel]; exact hcode) (by rw [hrel]; exact hinside)
    refine ⟨m₂, ?_⟩
    rw [List.foldlM_cons, h₁]
    exact h₂

/-- **No cycle fails.** -/
theorem step_ok (h : m.OnCourse start count longest) : ∃ m', m.step = .ok m' := by
  have hf := h.follows.advance
  obtain ⟨m₁, h₁⟩ := exists_issue m.advance
  obtain ⟨hf₁, hext₁⟩ := hf.issue h₁
  have hrel : m₁.relativeCalls = m.relativeCalls := hext₁.relativeCalls
  have hk₁ : m₁.CodeKept start :=
    CodeKept.issue (m := m.advance) ⟨h.codeKept.memory, h.codeKept.issued⟩ h₁
  obtain ⟨m₂, h₂⟩ : ∃ m₂, m₁.execute = .ok m₂ :=
    turns_ok (fun _ => speculative_barrier_eq_false_iff.1) hf₁ hk₁
      (by rw [hrel]; exact h.keepsCode) (by rw [hrel]; exact h.inside)
  have hf₂ := (execute_moves h₂).follows hf₁
  obtain ⟨m₃, h₃⟩ : ∃ m₃, m₂.writeBack = .ok m₃ := by
    rcases hf₂.coherent.writeBack_eq with ⟨-, heq⟩ | ⟨x, -, heq⟩ <;> exact ⟨_, heq⟩
  refine ⟨{ m₃ with cycle := m₃.cycle + 1 }, ?_⟩
  simp only [Machine.step, h₁, h₂, h₃, bind, Except.bind, pure, Except.pure]

/-- **A cycle stays on course.** -/
theorem step (h : m.OnCourse start count longest) (hm : m.step = .ok m') :
    m'.OnCourse start count longest := by
  obtain ⟨hf, hext, -⟩ := h.follows.step hm
  have hrel := hext.relativeCalls
  have hslots := slots_of_step hm
  exact
    { follows := hf
      codeKept := h.codeKept.step hm h.follows h.keepsCode
      zero := h.zero
      keepsCode := by rw [hrel]; exact h.keepsCode
      inside := by rw [hrel]; exact h.inside
      halts := by rw [hrel]; exact h.halts
      serves := by
        have := h.serves
        rwa [Serves, hrel, hslots]
      latency := by rw [hslots]; exact h.latency }

/-! ## How far the run has come -/

/-- What was issued before an instruction on the path has been performed
before it. -/
theorem length_before_lt (h : m.OnCourse start count longest) (he : e ∈ m.path) :
    (m.before e.seq).length < count := by
  obtain ⟨t, ht⟩ := h.halts
  obtain ⟨hafter, hf⟩ := fetch_of_mem_path h.follows h.codeKept h.keepsCode he
  exact ht.le (State.after_succ_of_fetch hafter hf)

end OnCourse

/-- More is issued before a later instruction. -/
theorem Coherent.length_before_lt {q : Int} (hc : m.Coherent) (he : e ∈ m.issued)
    (hlt : e.seq < q) : (m.before e.seq).length < (m.before q).length := by
  have hfilter : (m.before q).filter (fun x => x.seq ≤ e.seq) = m.before e.seq ++ [e] := by
    rw [before, List.filter_filter, before, ← hc.inOrder.filter_le_eq_append he]
    refine List.filter_congr fun x _ => ?_
    rw [Bool.eq_iff_iff, Bool.and_eq_true, decide_eq_true_eq, decide_eq_true_eq]
    omega
  have hle := List.length_filter_le (fun x => x.seq ≤ e.seq) (m.before q)
  rw [hfilter, List.length_append, List.length_singleton] at hle
  exact hle

theorem Coherent.length_before_lt_issued (hc : m.Coherent) (he : e ∈ m.issued) :
    (m.before e.seq).length < m.issued.length := by
  have := hc.length_before_lt he (hc.fresh e he)
  rwa [hc.before_nextSeq] at this

/-- An empty machine that is not complete has something to fetch. -/
theorem Coherent.exists_fetch (hc : m.Coherent) (hempty : ∀ n s o, ¬ m.Holds n s o)
    (hnot : ¬ m.complete) : m.jumpPending = false ∧ ∃ i kind, m.fetch = .instruction i kind := by
  obtain ⟨hbranch, hjump⟩ := hc.not_pending_of_empty hempty
  refine ⟨hjump, ?_⟩
  by_contra hnone
  exact hnot (complete_iff.2 ⟨hempty, hbranch, hjump, hnone⟩)

/-- **An empty machine that is not complete issues an instruction**: it is
the next of the sequential run, and the pool has a station for it. -/
theorem OnCourse.issue_eq (h : m.OnCourse start count longest)
    (hempty : ∀ n s o, ¬ m.Holds n s o) (hnot : ¬ m.complete) :
    ∃ i s n, m.advance.stations[n]? = some s ∧ s.occupant = none ∧
      m.advance.issue = .ok (m.advance.dispatched i s n) := by
  have hc := h.follows.coherent
  obtain ⟨hjump, i, kind, hfetch⟩ := hc.exists_fetch hempty hnot
  have hafter := after_issued_of_empty h.follows h.codeKept h.keepsCode h.zero hempty
  obtain ⟨slot, hslot, hkind⟩ := h.serves m.visible i kind
    ⟨_, hafter, fetch_visible_eq_some_iff.2 ⟨kind, hfetch⟩⟩ (fetch_eq_instruction hfetch).1
  rcases issue_cases m.advance with ⟨i', kind', s, n, -, -, hs, heq⟩ | ⟨-, hstall⟩
  · obtain ⟨hs, -, hfree⟩ := freeStation?_eq_some hs
    exact ⟨i', s, n, hs, hfree, heq⟩
  -- Nothing can have kept it from issuing.
  exfalso
  rcases hstall with hj | hnone | ⟨i', kind', hfetch', hfree⟩
  · rw [show m.advance.jumpPending = m.jumpPending from rfl, hjump] at hj
    cases hj
  · exact hnone i kind hfetch
  · rw [show m.advance.fetch = m.fetch from rfl, hfetch] at hfetch'
    cases hfetch'
    obtain ⟨s, hs, rfl⟩ := List.mem_map.1 hslot
    obtain ⟨k, hk⟩ := List.mem_iff_getElem?.1 hs
    have hadvance : m.advance.stations[k]? = some s.advance := by
      rw [advance, List.getElem?_map, hk, Option.map_some]
    have hbusy := List.find?_eq_none.1 hfree (s.advance, k) (List.mem_zipIdx_iff_getElem?.2 hadvance)
    simp only [s.advance_toSlot.1, hkind, decide_true, Bool.true_and, Bool.not_eq_true',
      Bool.not_eq_false, Station.busy, Option.isSome_iff_exists, Station.advance_occupant,
      Option.map_eq_some_iff] at hbusy
    obtain ⟨-, o, ho, -⟩ := hbusy
    exact hempty k s o ⟨hk, ho⟩

/-- The instruction that an empty machine issues is on the path, after all
that was issued before. -/
theorem OnCourse.exists_issued (h : m.OnCourse start count longest) (hm : m.step = .ok m')
    (hempty : ∀ n s o, ¬ m.Holds n s o) (hnot : ¬ m.complete) :
    ∃ e ∈ m'.path, e.seq = m.nextSeq ∧ (m'.before e.seq).length = m.issued.length := by
  obtain ⟨i, s, n, hs, hfree, heq⟩ := h.issue_eq hempty hnot
  obtain ⟨m₁, m₂, m₃, h₁, h₂, h₃, rfl, -⟩ := step_eq_ok hm
  rw [heq] at h₁
  cases h₁
  have hf := h.follows.advance
  obtain ⟨hf₁, -⟩ := hf.issue heq
  have hmoves := execute_moves h₂
  obtain ⟨hf₃, hext₃⟩ := (hmoves.follows hf₁).writeBack h₃
  have hcount : Extends m₃ { m₃ with cycle := m₃.cycle + 1 } := .of_eq rfl rfl
  have hext := (hmoves.extends hf₁.coherent).trans (hext₃.trans hcount)
  have hmem : m.advance.issueEntry i s ∈ (m.advance.dispatched i s n).path := by
    refine hf₁.coherent.mem_path.2 ⟨List.mem_append_right _ List.mem_cons_self,
      (onPath_dispatched_iff hs hfree (Int.le_refl m.advance.nextSeq)).2 fun k s' o' hold' _ => ?_⟩
    obtain ⟨s₀, o₀, hold, -⟩ := holds_advance.1 hold'
    exact absurd hold (hempty k s₀ o₀)
  refine ⟨_, hext.mem_path hmem, rfl, ?_⟩
  rw [hext.before_eq hf₁.coherent hf₃.count.coherent hmem]
  calc ((m.advance.dispatched i s n).before m.advance.nextSeq).length
      = (m.advance.before m.advance.nextSeq).length := by rw [before_dispatched (Int.le_refl _)]
    _ = m.issued.length := congrArg List.length hf.coherent.before_nextSeq

/-! ## The bound on what is left -/

/-- **The cycles that are left.** After the oldest instruction each later one
of the sequential run takes no more than two cycles over the longest
latency. -/
structure Within (m : Machine) (count longest budget : Nat) : Prop where
  empty : (∀ n s o, ¬ m.Holds n s o) → (count - m.issued.length) * (longest + 2) ≤ budget
  oldest : ∀ n s o, m.Oldest n s o →
    (count - ((m.before o.seq).length + 1)) * (longest + 2) + wait s o ≤ budget

/-- It is enough to bound what is left from an instruction on that none in
flight is older than. -/
theorem OnCourse.within (h : m.OnCourse start count longest) (he : e ∈ m.path)
    (hle : ∀ q ∈ m.flight, e.seq ≤ q)
    (hleft : (count - ((m.before e.seq).length + 1)) * (longest + 2) ≤ budget)
    (hwait : ∀ n s o, m.Oldest n s o → o.seq = e.seq →
      (count - ((m.before e.seq).length + 1)) * (longest + 2) + wait s o ≤ budget) :
    m.Within count longest budget where
  empty _ := by
    have hlt := h.follows.coherent.length_before_lt_issued (h.follows.coherent.mem_path.1 he).1
    exact Nat.le_trans (Nat.mul_le_mul_right _ (by omega)) hleft
  oldest n s o ho := by
    have hc := h.follows.coherent
    by_cases hseq : o.seq = e.seq
    · rw [hseq]
      exact hwait n s o ho hseq
    -- The oldest is a later one, so that there is one less to come.
    obtain ⟨e', he', hof⟩ := hc.owner n s o ho.hold
    have hlt : e.seq < o.seq := lt_of_le_of_ne (hle _ ho.hold.mem_flight) (Ne.symm hseq)
    have hmore := hc.length_before_lt (hc.mem_path.1 he).1 hlt
    have hless := h.length_before_lt (hc.mem_path.2 ⟨he', hof.seq ▸ ho.onPath⟩)
    rw [hof.seq] at hless
    have hlatency := h.latency _ (List.mem_map_of_mem ho.hold.mem)
    have hlast := wait_le s o
    have hstep : (count - ((m.before o.seq).length + 1)) * (longest + 2) + (longest + 2) =
        (count - (m.before o.seq).length) * (longest + 2) := by
      rw [← Nat.succ_mul]
      congr 1
      omega
    have hmono : (count - (m.before o.seq).length) * (longest + 2) ≤
        (count - ((m.before e.seq).length + 1)) * (longest + 2) :=
      Nat.mul_le_mul_right _ (by omega)
    omega

/-- **A cycle takes one from the bound**, unless the machine is complete. -/
theorem Within.step (hb : m.Within count longest (budget + 1))
    (h : m.OnCourse start count longest) (hm : m.step = .ok m') (hnot : ¬ m.complete) :
    m'.Within count longest budget := by
  have hc := h.follows.coherent
  have h' := h.step hm
  have hc' := h'.follows.coherent
  obtain ⟨-, hext, -⟩ := h.follows.step hm
  by_cases hempty : ∀ n s o, ¬ m.Holds n s o
  · -- The next of the sequential run is issued, and nothing is older.
    obtain ⟨e, he, hseq, hlen⟩ := h.exists_issued hm hempty hnot
    have hless := h'.length_before_lt he
    have hleft := hb.empty hempty
    have hstep : (count - (m.issued.length + 1)) * (longest + 2) + (longest + 2) =
        (count - m.issued.length) * (longest + 2) := by
      rw [← Nat.succ_mul]
      congr 1
      omega
    refine h'.within he (fun q hq => ?_) ?_ fun n s o ho _ => ?_
    · rcases hc.mem_flight_of_step hm hq with hq | rfl
      · obtain ⟨n, s, o, hold, -⟩ := mem_flight.1 hq
        exact absurd hold (hempty n s o)
      · exact Int.le_of_eq hseq
    · rw [hlen]
      omega
    · have hlatency := h'.latency _ (List.mem_map_of_mem ho.hold.mem)
      have hlast := wait_le s o
      rw [hlen]
      omega
  · -- The oldest is nearer to its end, or it has left.
    obtain ⟨n, s, o, ho⟩ := exists_oldest_of_not_empty hempty
    obtain ⟨e, he, hof⟩ := hc.owner n s o ho.hold
    have hpath : e ∈ m.path := hc.mem_path.2 ⟨he, hof.seq ▸ ho.onPath⟩
    have hleft := hb.oldest n s o ho
    rw [← hof.seq, ← hext.before_eq hc hc' hpath] at hleft
    have hpos : 0 < wait s o := Nat.succ_pos _
    refine h'.within (hext.mem_path hpath) (fun q hq => ?_) (by omega) fun k s' o' ho' hseq => ?_
    · rw [hof.seq]
      rcases hc.mem_flight_of_step hm hq with hq | rfl
      · exact ho.le q hq
      · exact Int.le_of_lt (hc.owned_seq_lt ho.hold)
    · have hlt := ho.wait_lt hc hm ho'.hold (hseq.trans hof.seq)
      omega

/-- **Where nothing is left of the bound the machine is complete.** -/
theorem Within.complete (hb : m.Within count longest 0) (h : m.OnCourse start count longest) :
    m.complete := by
  by_contra hnot
  obtain ⟨m', hm⟩ := h.step_ok
  by_cases hempty : ∀ n s o, ¬ m.Holds n s o
  · obtain ⟨e, he, -, hlen⟩ := h.exists_issued hm hempty hnot
    have hless := (h.step hm).length_before_lt he
    have hleft := hb.empty hempty
    rw [Nat.le_zero, Nat.mul_eq_zero] at hleft
    omega
  · obtain ⟨n, s, o, ho⟩ := exists_oldest_of_not_empty hempty
    have hleft := hb.oldest n s o ho
    have hpos : 0 < wait s o := Nat.succ_pos _
    omega

/-! ## The end of the run -/

/-- **A run on course ends** within its bound. -/
theorem OnCourse.runFor_ok {cycles : Nat} (h : m.OnCourse start count longest)
    (hb : m.Within count longest budget) (hle : budget ≤ cycles) :
    ∃ m', m.runFor cycles = .ok m' ∧ m'.OnCourse start count longest ∧ m'.complete ∧
      m'.relativeCalls = m.relativeCalls := by
  induction cycles generalizing m budget with
  | zero =>
    obtain rfl := Nat.le_zero.1 hle
    exact ⟨m, rfl, h, hb.complete h, rfl⟩
  | succ cycles ih =>
    rw [runFor]
    by_cases hcomplete : m.complete
    · exact ⟨m, if_pos hcomplete, h, hcomplete, rfl⟩
    · rcases budget with - | budget
      · exact absurd (hb.complete h) hcomplete
      · obtain ⟨m₁, h₁⟩ := h.step_ok
        obtain ⟨-, hext, -⟩ := h.follows.step h₁
        obtain ⟨m', hm', hrest⟩ := ih (h.step h₁) (hb.step h h₁ hcomplete) (by omega)
        rw [if_neg hcomplete, h₁]
        exact ⟨m', hm', by rwa [← hext.relativeCalls]⟩

/-- A machine that has not run is on course. -/
theorem Fresh.onCourse {t : State} (hm : Fresh m) (hcode : m.visible.KeepsCode m.relativeCalls)
    (hinside : m.visible.StaysInside m.relativeCalls)
    (hhalts : m.visible.HaltsAfter m.relativeCalls count t) (hserves : m.Serves m.visible)
    (hlatency : ∀ s ∈ m.slots, s.latency ≤ longest) : m.OnCourse m.visible count longest where
  follows := hm.follows
  codeKept := hm.codeKept
  zero := rfl
  keepsCode := hcode
  inside := hinside
  halts := ⟨t, hhalts⟩
  serves := hserves
  latency := hlatency

/-- **The run ends, and it ends right.** Take a machine that has been
configured, and a program whose sequential run halts after `count`
instructions, does not write to its own code and does not lead out of
memory. Let the pool have a station for each of its instructions, with
latencies up to `longest`. Then a run of that many instructions times two
cycles over that latency, or of more, does not stop on a fault. It is
complete at its end, with what the sequential machine ends with. -/
theorem run_complete {t : State} {limit : Int} (hm : Configured m)
    (hcode : m.visible.KeepsCode m.relativeCalls)
    (hinside : m.visible.StaysInside m.relativeCalls)
    (hhalts : m.visible.HaltsAfter m.relativeCalls count t) (hserves : m.Serves m.visible)
    (hlatency : ∀ s ∈ m.slots, s.latency ≤ longest)
    (hlimit : (count : Int) * (longest + 2) ≤ limit) :
    ∃ m', m.run limit = .ok m' ∧ m'.complete ∧ m'.visible = t := by
  have hfresh := hm.fresh
  have h := hfresh.onCourse hcode hinside hhalts hserves hlatency
  have hb : m.Within count longest (count * (longest + 2)) := by
    constructor
    · intro _
      exact Nat.mul_le_mul_right _ (Nat.sub_le ..)
    · intro n s o ho
      exact absurd ho.hold hfresh.not_holds
  have hcycles : count * (longest + 2) ≤ (limit - m.cycle).toNat := by
    have hbound : ((count * (longest + 2) : Nat) : Int) ≤ limit := by
      push_cast
      exact hlimit
    rw [hfresh.cycle]
    omega
  obtain ⟨m', hrun, h', hcomplete, hrel⟩ := h.runFor_ok hb hcycles
  have hend := (h'.follows.halts h'.codeKept h'.keepsCode h'.zero hcomplete).1
  rw [hrel] at hend
  exact ⟨m', hrun, hcomplete, (hend.unique hhalts).2⟩

/-- The sample runs to its end in twelve cycles at most. -/
theorem run_complete_sample : ∃ m, sample.run 12 = .ok m ∧ m.complete := by
  obtain ⟨t, ht⟩ := haltsAfter_sample
  have hinside : sample.visible.StaysInside sample.relativeCalls := by
    intro u i hu hleads
    have := ht.of_performs (p := fun u i => !u.leaps i ||
      (0 ≤ (u.execute sample.relativeCalls i).pc && (u.execute sample.relativeCalls i).pc < 65536))
      (by decide +kernel) hu
    simpa [hleads] using this
  have hserves : sample.Serves sample.visible := by
    intro u i kind hu hkind
    have := ht.of_performs (p := fun _ i => i.unit?.all fun kind =>
      sample.slots.any fun s => s.kind = kind) (by decide +kernel) hu
    simpa [hkind] using this
  have hlatency : ∀ s ∈ sample.slots, s.latency ≤ 2 := by decide +kernel
  have hlimit : ((3 : Nat) : Int) * ((2 : Nat) + 2) ≤ 12 := by decide
  obtain ⟨m, hrun, hcomplete, -⟩ :=
    run_complete configured_sample keepsCode_sample hinside ht hserves hlatency hlimit
  exact ⟨m, hrun, hcomplete⟩

end Machine

end OutOfOrder
