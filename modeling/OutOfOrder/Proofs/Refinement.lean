import OutOfOrder.Proofs.Runs
/-!
# The machine refines the sequential machine

A run of the sequential machine that does not write to its own code fetches
the same words throughout. So does the pipelined machine, whose stores are
those of the sequential run: what it has fetched on its path is what the
sequential machine fetches there, whenever it was fetched, and the path is
a first part of the sequential run (`after_of_path`).

When the machine is complete, the path is all there is, and nothing is left
to follow: registers, memory and program counter are those of the
sequential machine, which has halted (`halts_of_complete`).
-/

namespace OutOfOrder

open OutOfOrder.Sequential

/-! ## Fetching -/

/-- The words of an undefined opcode are those that no unit carries out. -/
theorem Instruction.unit?_decode_eq_none_iff (w : Word) :
    (decode w).unit? = none ↔ 9 ≤ w.val / 4096 := by
  unfold decode
  split <;> simp_all [unit?, opCode?]
  omega

namespace Sequential.State

variable {relative : Bool} {s t : State} {i : Instruction} {a : Word} {n k : Nat}

/-- **What is fetched is a word that is not empty and names an operation.** -/
theorem fetch_eq_some_iff (hpc : s.pc = a.toInt) :
    s.fetch = some i ↔
      s.memory.get a ≠ 0 ∧ i = Instruction.decode (s.memory.get a) ∧ i.unit? ≠ none := by
  have hrange : 0 ≤ s.pc ∧ s.pc < 65536 := hpc ▸ a.toInt_inRange
  have ha : (⟨s.pc.toNat, toNat_lt_of_inRange hrange⟩ : Address) = a :=
    Word.toInt_inj.1 ((Word.toInt_toNat hrange).trans hpc)
  simp only [fetch, dif_pos hrange, ha]
  split
  · rename_i h
    refine iff_of_false (by simp) ?_
    rintro ⟨h₀, rfl, hunit⟩
    rcases h with h | h
    · exact h₀ h
    · exact hunit ((Instruction.unit?_decode_eq_none_iff _).2 h)
  · rename_i h
    rw [not_or] at h
    rw [Option.some.injEq]
    constructor
    · rintro rfl
      exact ⟨h.1, rfl, fun hnone => h.2 ((Instruction.unit?_decode_eq_none_iff _).1 hnone)⟩
    · rintro ⟨-, rfl, -⟩
      rfl

/-- Who fetches is at an address. -/
theorem exists_address_of_fetch (h : s.fetch = some i) : ∃ a : Word, s.pc = a.toInt := by
  rw [fetch] at h
  split at h
  · rename_i hpc
    exact Word.exists_toInt hpc
  · cases h

theorem after_succ_of_fetch (h : s.after relative n = some t) (hf : t.fetch = some i) :
    s.after relative (n + 1) = some (t.execute relative i) := by
  rw [after, h, Option.bind_some, step?, hf, Option.map_some]

/-- A run that halts is not longer. -/
theorem HaltsAfter.le (h : s.HaltsAfter relative n t) {u : State}
    (hk : s.after relative k = some u) : k ≤ n := by
  by_contra hlt
  -- Where the run halts there is no next state, nor any after that.
  have hnone : ∀ d, s.after relative (n + 1 + d) = none := by
    intro d
    induction d with
    | zero => rw [Nat.add_zero, after, h.1, Option.bind_some, step?, h.2, Option.map_none]
    | succ d ih => rw [← Nat.add_assoc, after, ih, Option.bind_none]
  have := hnone (k - (n + 1))
  rw [show n + 1 + (k - (n + 1)) = k by omega, hk] at this
  cases this

/-- Two numbers of instructions after which a run halts are one. -/
theorem HaltsAfter.unique (h : s.HaltsAfter relative n t) {u : State}
    (h' : s.HaltsAfter relative k u) : n = k ∧ t = u := by
  obtain rfl : n = k := Nat.le_antisymm (h'.le h.1) (h.le h'.1)
  exact ⟨rfl, Option.some.inj (h.1.symm.trans h'.1)⟩

/-- **What a run that halts performs** can be gone through. -/
theorem HaltsAfter.of_performs (h : s.HaltsAfter relative n t) {p : State → Instruction → Bool}
    (hp : ∀ k ≤ n, (s.after relative k).all fun u => u.fetch.all (p u)) {u : State}
    (hu : s.Performs relative u i) : p u i := by
  obtain ⟨k, hafter, hf⟩ := hu
  have := hp k (h.le hafter)
  rwa [hafter, Option.all_some, hf, Option.all_some] at this

/-- **A run that halts keeps its code** if none of its stores is to an
address it comes to. -/
theorem HaltsAfter.keepsCode (h : s.HaltsAfter relative n t)
    (hp : ∀ k ≤ n, (s.after relative k).all fun u => u.fetch.all fun i =>
      (u.stores? i).all fun x => (List.range (n + 1)).all fun d =>
        (s.after relative d).all fun v => v.pc ≠ Word.toInt x.1) : s.KeepsCode relative := by
  rintro a ⟨u, i, w, hu, hs⟩ ⟨d, v, hv, hpc⟩
  have := h.of_performs hp hu
  simp only [hs, Option.all_some, List.all_eq_true, List.mem_range, Option.all_eq_true,
    decide_eq_true_eq] at this
  exact this d (Nat.lt_succ_of_le (h.le hv)) v hv hpc

/-- **What the run does not store to stays as it was.** -/
theorem get_of_after (h : s.after relative n = some t) (ha : ¬ s.Stored relative a) :
    t.memory.get a = s.memory.get a := by
  induction n generalizing t with
  | zero =>
    cases h
    rfl
  | succ n ih =>
    rw [after, Option.bind_eq_some_iff] at h
    obtain ⟨u, hu, hstep⟩ := h
    rw [step?, Option.map_eq_some_iff] at hstep
    obtain ⟨i, hf, rfl⟩ := hstep
    rw [memory_execute]
    rcases hs : u.stores? i with - | ⟨b, w⟩
    · exact ih hu
    · -- The store is to another address.
      refine (Memory.get_set ..).trans ?_
      rw [if_neg, ih hu]
      rintro rfl
      exact ha ⟨u, i, w, ⟨n, hu, hf⟩, hs⟩

end Sequential.State

namespace Machine

variable {m m' : Machine} {n : Nat} {e : Entry} {start : State} {l l' : List Entry} {acts : List Act}

/-! ## The code is kept -/

/-- **The code is kept.** Memory is as it was at first where the sequential
run does not store, and what has been issued from there is what stood
there. -/
structure CodeKept (m : Machine) (start : State) : Prop where
  memory : ∀ a, ¬ start.Stored m.relativeCalls a → m.memory.get a = start.memory.get a
  issued : ∀ e ∈ m.issued, ∃ a : Word, e.pc = a.toInt ∧
    (¬ start.Stored m.relativeCalls a →
      start.memory.get a ≠ 0 ∧ e.instr = Instruction.decode (start.memory.get a) ∧
        e.instr.unit? ≠ none)

/-- **The path is a first part of the sequential run.** -/
theorem after_of_path (h : m.Follows start) (hk : m.CodeKept start)
    (hcode : start.KeepsCode m.relativeCalls) (hp : m.path = l ++ l') :
    start.after m.relativeCalls l.length = some (start.replay m.relativeCalls l) ∧
      ∀ e, l'.head? = some e → (start.replay m.relativeCalls l).fetch = some e.instr := by
  have hc := h.coherent
  -- The word is the one that was fetched, since the sequential run visits its address.
  have hfetch : ∀ {l l' e}, m.path = l ++ e :: l' →
      start.after m.relativeCalls l.length = some (start.replay m.relativeCalls l) →
      e.pc = (start.replay m.relativeCalls l).pc ∧
        (start.replay m.relativeCalls l).fetch = some e.instr := by
    intro l l' e hp hafter
    have he : e ∈ m.path := by
      rw [hp]
      exact List.mem_append_right _ List.mem_cons_self
    have hpc : e.pc = (start.replay m.relativeCalls l).pc := by
      rw [h.pc_eq he, hc.stateAt_of_path_eq hp]
    obtain ⟨a, ha, hword⟩ := hk.issued e (hc.mem_path.1 he).1
    have hnot : ¬ start.Stored m.relativeCalls a := fun hs =>
      hcode a hs ⟨l.length, _, hafter, hpc.symm.trans ha⟩
    rw [State.fetch_eq_some_iff (hpc.symm.trans ha), State.get_of_after hafter hnot]
    exact ⟨hpc, hword hnot⟩
  -- By induction on the path: what is fetched at its end is the next one on it.
  have key : start.after m.relativeCalls l.length = some (start.replay m.relativeCalls l) := by
    induction l using List.reverseRecOn generalizing l' with
    | nil => rfl
    | append_singleton l e ih =>
      rw [List.append_assoc, List.singleton_append] at hp
      have hafter := ih hp
      obtain ⟨hpc, hf⟩ := hfetch hp hafter
      rw [List.length_append, List.length_singleton, State.after_succ_of_fetch hafter hf,
        State.replay_concat, State.perform, hpc]
  refine ⟨key, fun e he => ?_⟩
  obtain ⟨rest, rfl⟩ : ∃ rest, l' = e :: rest := by
    cases l' with
    | nil => cases he
    | cons x rest =>
      cases he
      exact ⟨rest, rfl⟩
  exact (hfetch hp key).2

/-- **An instruction on the path is one of the sequential run.** -/
theorem fetch_of_mem_path (h : m.Follows start) (hk : m.CodeKept start)
    (hcode : start.KeepsCode m.relativeCalls) (he : e ∈ m.path) :
    start.after m.relativeCalls (m.before e.seq).length = some (m.stateAt start e.seq) ∧
      (m.stateAt start e.seq).fetch = some e.instr := by
  have hc := h.coherent
  have hp := hc.path_inOrder.eq_append_cons he
  rw [hc.filter_path (hc.mem_path.1 he).2] at hp
  obtain ⟨hafter, hf⟩ := after_of_path h hk hcode hp
  rw [stateAt_eq_replay_before]
  exact ⟨hafter, hf e rfl⟩

/-! ## Every cycle keeps the code -/

namespace CodeKept

/-- The code is kept where memory is and nothing is issued. -/
theorem congr (hk : m.CodeKept start) (hissued : m'.issued ⊆ m.issued)
    (hmem : ∀ a, ¬ start.Stored m.relativeCalls a → m'.memory.get a = m.memory.get a)
    (hrel : m'.relativeCalls = m.relativeCalls) : m'.CodeKept start where
  memory a ha := by
    rw [hrel] at ha
    rw [hmem a ha, hk.memory a ha]
  issued e he := by
    rw [hrel]
    exact hk.issued e (hissued he)

/-- **A move keeps the code**: a store on the path is a store of the
sequential run. -/
theorem move (hk : m.CodeKept start) (hm : Move m acts m') (h : m.Follows start)
    (hcode : start.KeepsCode m.relativeCalls) : m'.CodeKept start := by
  refine hk.congr hm.issued_subset (fun a ha => ?_) hm.relativeCalls
  cases hm with
  | @store n s o b v hold path kind due clear himm hv =>
    -- On the path, so the sequential run performs it.
    obtain ⟨e, he, hof⟩ := h.coherent.owner n s o hold
    obtain ⟨hafter, hf⟩ := fetch_of_mem_path h hk hcode
      (h.coherent.mem_path.2 ⟨he, hof.seq ▸ path⟩)
    refine (Memory.get_set ..).trans (if_neg ?_)
    rintro rfl
    refine ha ⟨_, _, Word.ofInt v, ⟨_, hafter, hf⟩, ?_⟩
    rw [hof.seq, hof.instr]
    exact h.values.stores?_eq h.coherent hold kind due himm hv
  | _ => rfl

theorem moves (hk : m.CodeKept start) (hm : Moves m acts m') (h : m.Follows start)
    (hcode : start.KeepsCode m.relativeCalls) : m'.CodeKept start := by
  induction hm with
  | refl => exact hk
  | @cons m m₁ m₂ _ _ first rest ih =>
    exact ih (hk.move first h hcode) (first.follows h) (by rw [first.relativeCalls]; exact hcode)

theorem issue (hk : m.CodeKept start) (hm : m.issue = .ok m') : m'.CodeKept start := by
  rcases issue_eq_ok hm with ⟨i, s, n, -, hf, -, -, rfl⟩ | rfl
  · refine ⟨hk.memory, fun e he => ?_⟩
    rcases mem_issued_dispatched.1 he with he | rfl
    · exact hk.issued e he
    · obtain ⟨hunit, hpc, hw, hi⟩ := fetch_eq_instruction hf
      refine ⟨⟨m.pc, hpc⟩, rfl, fun ha => ?_⟩
      rw [← hk.memory _ ha]
      refine ⟨hw, hi, ?_⟩
      rw [show (m.issueEntry i s).instr = i from rfl, hunit]
      simp
  · exact hk

theorem writeBack (hk : m.CodeKept start) (hm : m.writeBack = .ok m') : m'.CodeKept start := by
  rcases writeBack_cases hm with ⟨-, rfl⟩ | ⟨x, -, rfl⟩
  · exact hk
  · exact ⟨hk.memory, hk.issued⟩

/-- **A cycle keeps the code.** -/
theorem step (hk : m.CodeKept start) (hm : m.step = .ok m') (h : m.Follows start)
    (hcode : start.KeepsCode m.relativeCalls) : m'.CodeKept start := by
  obtain ⟨m₁, m₂, m₃, h₁, h₂, h₃, rfl, -⟩ := step_eq_ok hm
  have hk₀ : m.advance.CodeKept start := ⟨hk.memory, hk.issued⟩
  obtain ⟨hf₁, hext⟩ := h.advance.issue h₁
  have hk₃ := ((hk₀.issue h₁).moves (execute_moves h₂) hf₁
    (by rw [hext.relativeCalls]; exact hcode)).writeBack h₃
  exact ⟨hk₃.memory, hk₃.issued⟩

end CodeKept

theorem Fresh.codeKept (h : Fresh m) : m.CodeKept m.visible where
  memory _ _ := rfl
  issued e he := by rw [h.issued] at he; cases he

/-- **Every machine of a run** follows the sequential machine and keeps the
code. -/
theorem codeKept_of_steps (hm : Fresh m) (hcode : m.visible.KeepsCode m.relativeCalls)
    (h : m.steps n = .ok m') : m'.CodeKept m.visible := by
  induction n generalizing m' with
  | zero =>
    cases h
    exact hm.codeKept
  | succ n ih =>
    obtain ⟨m₁, h₁, hstep⟩ := times_succ_eq_ok.1 h
    obtain ⟨hf₁, hext₁, -⟩ := follows_of_steps hm.follows h₁
    exact (ih h₁).step hstep hf₁ (by rw [hext₁.relativeCalls]; exact hcode)

/-! ## The end of a run -/

/-- What the programs of a machine see to fetch is what it fetches. -/
theorem fetch_visible_eq_some_iff {i : Instruction} :
    m.visible.fetch = some i ↔ ∃ kind, m.fetch = .instruction i kind := by
  constructor
  · intro h
    obtain ⟨a, ha⟩ := State.exists_address_of_fetch h
    obtain ⟨hw, rfl, hunit⟩ := (State.fetch_eq_some_iff ha).1 h
    have hpc : m.pc = a.val := Int.ofNat.inj ha
    have hlt : m.pc < 65536 := hpc ▸ a.isLt
    obtain rfl : (⟨m.pc, hlt⟩ : Address) = a := Fin.ext hpc
    obtain ⟨kind, hkind⟩ := Option.ne_none_iff_exists'.1 hunit
    refine ⟨kind, ?_⟩
    rw [fetch, dif_pos hlt]
    simp only [if_neg (show m.memory.get ⟨m.pc, hlt⟩ ≠ 0 from hw)]
    split
    · rename_i hkind'
      rw [Option.some.inj (hkind.symm.trans hkind')]
      rfl
    · rename_i hnone
      exact absurd hnone hunit
  · rintro ⟨kind, h⟩
    obtain ⟨hunit, hpc, hw, hi⟩ := fetch_eq_instruction h
    refine (State.fetch_eq_some_iff (a := ⟨m.pc, hpc⟩) rfl).2 ⟨hw, hi, ?_⟩
    rw [hunit]
    simp

/-- **A machine is complete** when nothing is in flight or pending and it has
nothing to fetch. -/
theorem complete_iff :
    m.complete ↔ (∀ n s o, ¬ m.Holds n s o) ∧ m.branchPending = false ∧ m.jumpPending = false ∧
      ¬ ∃ i kind, m.fetch = .instruction i kind := by
  have hfetch : m.fetches = false ↔ ¬ ∃ i kind, m.fetch = .instruction i kind := by
    rw [fetches]
    split <;> rename_i hf
    · simp [hf]
    · exact iff_of_true rfl fun ⟨i, kind, h⟩ => hf i kind h
  have hfree : (∀ s ∈ m.stations, s.busy = false) ↔ ∀ n s o, ¬ m.Holds n s o := by
    constructor
    · intro h n s o hold
      have := h s hold.mem
      rw [Station.busy, hold.2] at this
      cases this
    · intro h s hs
      rw [Station.busy, Option.isSome_eq_false_iff, Option.isNone_iff_eq_none]
      rcases ho : s.occupant with - | o
      · rfl
      · obtain ⟨n, hold⟩ := exists_holds_of_mem hs ho
        exact absurd hold (h n s o)
  simp only [complete, drained, Bool.and_eq_true, Bool.not_eq_true', List.all_eq_true, hfetch, hfree]
  constructor
  · rintro ⟨⟨⟨hbranch, hjump⟩, hempty⟩, hnone⟩
    exact ⟨hempty, hbranch, hjump, hnone⟩
  · rintro ⟨hempty, hbranch, hjump, hnone⟩
    exact ⟨⟨⟨hbranch, hjump⟩, hempty⟩, hnone⟩

/-- **What the programs of an empty machine see** is the replay of all that
was issued. -/
theorem visible_eq (h : m.Follows start) (hzero : start.registers 0 = 0)
    (hempty : ∀ n s o, ¬ m.Holds n s o) :
    m.visible = start.replay m.relativeCalls m.issued := by
  have hc := h.coherent
  have hpath := hc.path_eq_issued_of_empty hempty
  obtain ⟨hbranch, hjump⟩ := hc.not_pending_of_empty hempty
  have hflight : ∀ q, q ∉ m.flight := by
    intro q hq
    obtain ⟨n, s, o, hold, -⟩ := mem_flight.1 hq
    exact hempty n s o hold
  refine State.ext (funext fun r => ?_) (Memory.ext_get fun a => ?_) ?_
  · change Word.ofInt (m.registers.get r) = _
    by_cases hr : r = 0
    · subst hr
      rw [State.registers_zero_replay, hzero]
      rfl
    · -- A register has no producer where nothing is in flight.
      rw [h.values.committed r (producer?_eq_none_iff.2 (.inr fun w _ => hflight w.seq)), pathState,
        hpath, Word.ofInt_toInt]
      exact if_neg hr
  · -- And every store has been made.
    change m.memory.get a = _
    rw [h.memory.contents m.nextSeq a fun e he _ => iff_of_true (hc.fresh e he) (hflight e.seq),
      stateAt_eq_replay_before, hc.before_nextSeq]
  · rw [← hpath]
    exact h.pc_eq_pathState hbranch hjump

/-- **An empty machine is where the sequential run is** after as many
instructions as were issued. -/
theorem after_issued_of_empty (h : m.Follows start) (hk : m.CodeKept start)
    (hcode : start.KeepsCode m.relativeCalls) (hzero : start.registers 0 = 0)
    (hempty : ∀ n s o, ¬ m.Holds n s o) :
    start.after m.relativeCalls m.issued.length = some m.visible := by
  rw [visible_eq h hzero hempty]
  refine (after_of_path h hk hcode (show m.path = m.issued ++ [] from ?_)).1
  rw [h.coherent.path_eq_issued_of_empty hempty, List.append_nil]

/-- **A complete machine has come to the end of the sequential run.** -/
theorem Follows.halts (hf : m.Follows start) (hk : m.CodeKept start)
    (hcode : start.KeepsCode m.relativeCalls) (hzero : start.registers 0 = 0)
    (hcomplete : m.complete) :
    start.HaltsAfter m.relativeCalls m.issued.length m.visible ∧
      ∀ l e l', m.issued = l ++ e :: l' → ∃ t, start.after m.relativeCalls l.length = some t ∧
        t.pc = e.pc ∧ t.fetch = some e.instr := by
  obtain ⟨hempty, -, -, hfetch⟩ := complete_iff.1 hcomplete
  refine ⟨⟨after_issued_of_empty hf hk hcode hzero hempty, ?_⟩, fun l e l' hl => ?_⟩
  · rw [Option.eq_none_iff_forall_ne_some]
    exact fun i hi => hfetch ⟨i, fetch_visible_eq_some_iff.1 hi⟩
  · rw [← hf.coherent.path_eq_issued_of_empty hempty] at hl
    have he : e ∈ m.path := by
      rw [hl]
      exact List.mem_append_right _ List.mem_cons_self
    obtain ⟨hafter, hnext⟩ := after_of_path hf hk hcode hl
    refine ⟨_, hafter, ?_, hnext e rfl⟩
    rw [hf.pc_eq he, hf.coherent.stateAt_of_path_eq hl]

/-- **The machine refines the sequential machine.** Take a machine that has
been configured, with any stations, and a program whose sequential run does
not write to its own code. When the machine is complete after some cycles,
the sequential machine halts after as many instructions as are in the
history of issues. It ends with the registers, the memory and the program
counter of the machine; and the instructions of the history are those that
it performs, each where it was issued. -/
theorem halts_of_complete (hm : Configured m) (hcode : m.visible.KeepsCode m.relativeCalls)
    (h : m.steps n = .ok m') (hcomplete : m'.complete) :
    m.visible.HaltsAfter m.relativeCalls m'.issued.length m'.visible ∧
      ∀ l e l', m'.issued = l ++ e :: l' → ∃ t, m.visible.after m.relativeCalls l.length = some t ∧
        t.pc = e.pc ∧ t.fetch = some e.instr := by
  obtain ⟨hf, hext, -⟩ := follows_of_steps hm.fresh.follows h
  have hk := codeKept_of_steps hm.fresh hcode h
  rw [← hext.relativeCalls] at hcode ⊢
  exact hf.halts hk hcode rfl hcomplete

/-- The sequential run of the sample halts after three instructions. -/
theorem haltsAfter_sample : ∃ t, sample.visible.HaltsAfter sample.relativeCalls 3 t := by
  have h : ((sample.visible.after sample.relativeCalls 3).any fun t => t.fetch.isNone) = true := by
    decide +kernel
  obtain ⟨t, ht, hnone⟩ := (Option.any_eq_true ..).1 h
  exact ⟨t, ht, Option.isNone_iff_eq_none.1 hnone⟩

/-- The sample does not write to its code. -/
theorem keepsCode_sample : sample.visible.KeepsCode sample.relativeCalls := by
  obtain ⟨t, ht⟩ := haltsAfter_sample
  exact ht.keepsCode (by decide +kernel)

/-- The sequential run of the sample, against its seven cycles. -/
theorem halts_of_complete_sample :
    ∃ m, sample.steps 7 = .ok m ∧ sample.visible.HaltsAfter false m.issued.length m.visible := by
  obtain ⟨m, h, hcomplete⟩ := steps_sample
  exact ⟨m, h, (halts_of_complete configured_sample keepsCode_sample h hcomplete).1⟩

end Machine

end OutOfOrder
