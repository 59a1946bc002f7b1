import OutOfOrder.Proofs.Ledger
import OutOfOrder.Proofs.Runs
/-!
# Accesses that conflict are made in program order

The history of executions says in which order memory is accessed: an access
enters it when it is made. `MemoryFollows` says of every moment that no
access has been made before an older one that it conflicts with. Here this
becomes an order of the history: of two accesses to one address, of which
one is a store, the older stands before the younger (`accesses_in_order`).

When an access is made, it enters at the end of the history. What it
conflicts with and is older has been made by then, so it stands before it.
And what was so once stays so, because the history only grows at its end
and an instruction that is not dropped keeps its effective address
(`stateAt_eq_of_grown`).
-/

namespace OutOfOrder

open OutOfOrder.Sequential

namespace Machine

variable {m m' : Machine} {n : Nat} {s : Station} {o : Occupant} {e : Entry} {q : Int}
variable {start : State} {acts : List Act}

/-- **Accesses that conflict are executed in program order.** Wherever the
younger one stands in the history of executions, the older one stands before
it. -/
def AccessesOrdered (m : Machine) (start : State) : Prop :=
  ∀ e ∈ m.issued, ∀ e' ∈ m.issued, e.seq < e'.seq → m.Conflict start e e' →
    ∀ l x l', m.executed = l ++ x :: l' → x.seq = e'.seq → e.seq ∈ l.map Entry.seq

/-! ## An access is made when it is executed -/

/-- **What has been executed is what has left its station or has its
result.** -/
theorem Recorded.accessed_iff (h : m.Recorded) (ha : m.Accounted) (he : e ∈ m.issued) :
    m.Accessed e.seq ↔ e.seq ∈ m.executed.map Entry.seq := by
  constructor
  · intro hacc
    rcases ha.settled e he with hf | ⟨x, hx, hseq⟩
    · obtain ⟨n, s, o, hold, hseq⟩ := mem_flight.1 hf
      exact hseq ▸ (h.results n s o hold).2 (hacc n s o hold hseq)
    · exact h.seq_of_written (List.mem_map.2 ⟨x, hx, hseq⟩)
  · intro hq n s o hold hseq
    exact (h.results n s o hold).1 (hseq ▸ hq)

/-! ## What is not dropped keeps its state -/

/-- What was issued before an instruction is the same in a history that goes
on after it. -/
theorem before_eq_of_grown (hp : m.issued <+: m'.issued) (hc : m'.Coherent)
    (he : e ∈ m.issued) : m'.before e.seq = m.before e.seq := by
  obtain ⟨rest, hrest⟩ := hp
  have hin := hc.inOrder
  rw [← hrest] at hin
  have hnil : rest.filter (fun x => x.seq < e.seq) = [] :=
    List.filter_eq_nil_iff.2 fun x hx => by
      have := (List.pairwise_append.1 hin).2.2 e he x hx
      simp only [decide_eq_true_eq]
      omega
  rw [before, ← hrest, List.filter_append, hnil, List.append_nil, before]

/-- **What had been executed was issued**, and so was everything older that is
issued now. -/
theorem Recorded.mem_issued_of_executed (h : m.Recorded) (hc' : m'.Coherent)
    (hp : m.issued <+: m'.issued ∨ m'.issued <+: m.issued) {e' : Entry} (he : e ∈ m'.issued)
    (he' : e' ∈ m'.issued) (hlt : e.seq < e'.seq) (hdone : e'.seq ∈ m.executed.map Entry.seq) :
    e ∈ m.issued ∧ e' ∈ m.issued := by
  rcases hp with hp | hp
  · obtain ⟨w, hw, hseq⟩ := h.exists_of_seq hdone
    obtain rfl := hc'.inOrder.eq_of_seq_eq (hp.subset hw) he' hseq
    refine ⟨?_, hw⟩
    -- What is new is younger.
    obtain ⟨new, hnew⟩ := hp
    have hin := hc'.inOrder
    rw [← hnew] at he hin
    refine (List.mem_append.1 he).resolve_right fun he => ?_
    have := (List.pairwise_append.1 hin).2.2 w hw e he
    omega
  · exact ⟨hp.subset he, hp.subset he'⟩

/-- **What is not dropped keeps its state** of the sequential machine, as the
history of issues grows or is cut off. -/
theorem stateAt_eq_of_grown (hp : m.issued <+: m'.issued ∨ m'.issued <+: m.issued)
    (hrel : m'.relativeCalls = m.relativeCalls) (hc : m.Coherent) (hc' : m'.Coherent)
    (he : e ∈ m.issued) (he' : e ∈ m'.issued) :
    m'.stateAt start e.seq = m.stateAt start e.seq := by
  have hbefore : m'.before e.seq = m.before e.seq := by
    rcases hp with hp | hp
    · exact before_eq_of_grown hp hc' he
    · exact (before_eq_of_grown hp hc he').symm
  rw [stateAt_eq_replay_before, stateAt_eq_replay_before, hbefore, hrel]

/-! ## What keeps the order -/

/-- A list that one element has been added to is split at that element or
before it. -/
theorem eq_append_cons_of_concat {l l' l'' : List Entry} {x y : Entry}
    (h : l'' ++ [y] = l ++ x :: l') :
    (l'' = l ∧ y = x) ∨ ∃ rest, l'' = l ++ x :: rest := by
  rcases List.eq_nil_or_concat l' with rfl | ⟨rest, z, rfl⟩
  · obtain ⟨rfl, hy⟩ := List.append_inj' h rfl
    exact .inl ⟨rfl, List.singleton_inj.1 hy⟩
  · rw [List.concat_eq_append, ← List.cons_append, ← List.append_assoc] at h
    exact .inr ⟨rest, (List.append_inj' h rfl).1⟩

/-- **What the order of accesses rests on.** The machine follows the replay,
and its histories are right. -/
structure Traced (m : Machine) (start : State) : Prop where
  follows : m.Follows start
  recorded : m.Recorded
  accounted : m.Accounted

namespace Traced

theorem advance (h : m.Traced start) : m.advance.Traced start :=
  ⟨h.follows.advance, h.recorded.advance, h.accounted.advance⟩

theorem issue (h : m.Traced start) (hm : m.issue = .ok m') : m'.Traced start :=
  ⟨(h.follows.issue hm).1, h.recorded.issue h.follows.coherent hm,
    h.accounted.issue h.follows.coherent hm⟩

theorem move (h : m.Traced start) (hm : Move m acts m') : m'.Traced start :=
  ⟨hm.follows h.follows, h.recorded.move h.follows.coherent hm,
    h.accounted.move h.follows.coherent hm⟩

theorem moves (h : m.Traced start) (hm : Moves m acts m') : m'.Traced start :=
  ⟨hm.follows h.follows, h.recorded.moves h.follows.coherent hm,
    h.accounted.moves h.follows.coherent hm⟩

theorem writeBack (h : m.Traced start) (hm : m.writeBack = .ok m') : m'.Traced start :=
  ⟨(h.follows.writeBack hm).1, h.recorded.writeBack h.follows.coherent h.accounted hm,
    h.accounted.writeBack h.follows.coherent hm⟩

end Traced

namespace AccessesOrdered

/-- **The order is kept** by whatever adds at most one entry to the history
of executions, and leads to a machine whose memory follows the replay. -/
theorem next (h : m.AccessesOrdered start) (ht : m.Traced start) (ht' : m'.Traced start)
    (hissued : m.issued <+: m'.issued ∨ m'.issued <+: m.issued)
    (hrel : m'.relativeCalls = m.relativeCalls)
    (hexecuted : m'.executed = m.executed ∨ ∃ y, m'.executed = m.executed ++ [y]) :
    m'.AccessesOrdered start := by
  have hc' := ht'.follows.coherent
  intro e he e' he' hlt hconf l x l' hsplit hx
  -- What had been executed had been ordered.
  have old : ∀ rest, m.executed = l ++ x :: rest → e.seq ∈ l.map Entry.seq := by
    intro rest hold
    have hdone : e'.seq ∈ m.executed.map Entry.seq :=
      List.mem_map.2 ⟨x, by rw [hold]; exact List.mem_append_right _ List.mem_cons_self, hx⟩
    have hmem := ht.recorded.mem_issued_of_executed hc' hissued he he' hlt hdone
    rw [Conflict, stateAt_eq_of_grown hissued hrel ht.follows.coherent hc' hmem.1 he,
      stateAt_eq_of_grown hissued hrel ht.follows.coherent hc' hmem.2 he'] at hconf
    exact h e hmem.1 e' hmem.2 hlt hconf l x rest hold hx
  rcases hexecuted with heq | ⟨y, heq⟩
  · exact old l' (heq ▸ hsplit)
  · rw [heq] at hsplit
    rcases eq_append_cons_of_concat hsplit with ⟨rfl, rfl⟩ | ⟨rest, hold⟩
    · -- The access has just been made, so what it conflicts with and is older has been, too.
      have hdone : e'.seq ∈ m'.executed.map Entry.seq := by
        rw [heq, Recorded.mem_seq_concat]
        exact .inr hx.symm
      have haccessed := ht'.follows.memory.ordered e he e' he' hlt hconf
        ((ht'.recorded.accessed_iff ht'.accounted he').2 hdone)
      have hexec := (ht'.recorded.accessed_iff ht'.accounted he).1 haccessed
      rw [heq, Recorded.mem_seq_concat] at hexec
      exact hexec.resolve_right (by omega)
    · exact old rest hold

end AccessesOrdered

namespace AccessesOrdered

theorem moves (h : m.AccessesOrdered start) (ht : m.Traced start) (hm : Moves m acts m') :
    m'.AccessesOrdered start := by
  induction hm with
  | refl => exact h
  | cons first rest ih =>
    have ht₁ := ht.move first
    exact ih (h.next ht ht₁ (.inr first.issued_shrinks) first.relativeCalls
      first.history_eq.1) ht₁

/-- **A cycle keeps the order.** -/
theorem step (h : m.AccessesOrdered start) (ht : m.Traced start) (hm : m.step = .ok m') :
    m'.AccessesOrdered start := by
  obtain ⟨m₁, m₂, m₃, h₁, h₂, h₃, rfl, -⟩ := step_eq_ok hm
  have hmoves := execute_moves h₂
  have ht₁ := ht.advance.issue h₁
  have ht₂ := ht₁.moves hmoves
  have ht₃ := ht₂.writeBack h₃
  have hissue : m.issued <+: m₁.issued ∧ m₁.executed = m.executed ∧
      m₁.relativeCalls = m.relativeCalls := by
    rcases issue_eq_ok h₁ with ⟨i, s, n, -, -, -, -, rfl⟩ | rfl
    · exact ⟨List.prefix_append _ _, rfl, rfl⟩
    · exact ⟨List.prefix_refl _, rfl, rfl⟩
  have hwriteBack : m₃.issued = m₂.issued ∧ m₃.executed = m₂.executed ∧
      m₃.relativeCalls = m₂.relativeCalls := by
    rcases writeBack_cases h₃ with ⟨-, rfl⟩ | ⟨x, -, rfl⟩ <;> exact ⟨rfl, rfl, rfl⟩
  have hordered := (h.next ht ht₁ (.inl hissue.1) hissue.2.2 (.inl hissue.2.1)).moves ht₁ hmoves
  -- The cycle count is no part of what is said here.
  change m₃.AccessesOrdered start
  exact hordered.next ht₂ ht₃ (.inl (hwriteBack.1 ▸ List.prefix_refl _)) hwriteBack.2.2
    (.inl hwriteBack.2.1)

end AccessesOrdered

/-- **A run keeps the order.** -/
theorem accessesOrdered_of_steps (hm : Configured m) (h : m.steps n = .ok m') :
    m'.AccessesOrdered m.visible := by
  induction n generalizing m' with
  | zero =>
    cases h
    intro e he
    rw [hm.fresh.issued] at he
    cases he
  | succ n ih =>
    obtain ⟨m₁, h₁, hstep⟩ := times_succ_eq_ok.1 h
    have hreach := hm.reachable.steps h₁
    exact (ih h₁).step
      ⟨(follows_of_steps hm.fresh.follows h₁).1, hreach.recorded, hreach.accounted⟩ hstep

/-! ## The effective address -/

/-- **The effective address of an access in flight** is the sum of its base,
once that is there, and its offset, modulo 65536. -/
theorem Follows.accesses?_eq {v off : Int} (h : m.Follows start) (hold : m.Holds n s o)
    (kind : s.kind.isMemory) (hj : o.j = .value v) (hoff : o.instr.offset? = some off) :
    (m.stateAt start o.seq).accesses? o.instr = some (Word.ofInt (v + off)) := by
  have hv := (h.values.stations n s o hold).j
  have hfit := h.coherent.fits n s o hold
  rcases UnitKind.isMemory_iff.1 kind with hk | hk
  all_goals
    obtain ⟨rA, rB, off', hi⟩ := hfit.instr_eq hk
    obtain rfl : off' = off := by
      rw [hi] at hoff
      exact Option.some.inj hoff
    rw [hv rB v (by rw [hi]; rfl) hj, hi]
    rfl

/-- **Accesses that conflict are made in program order.** Of two accesses
that have been issued and were not dropped, to one effective address and
one of them a store, the older stands before the younger in the history of
executions, wherever the younger stands there. The effective address is the
base that the replay finds and the offset, modulo 65536; and that is the
base that the station holds as soon as it holds one. -/
theorem accesses_in_order (hm : Configured m) (h : m.steps n = .ok m') :
    (∀ e ∈ m'.issued, ∀ e' ∈ m'.issued, e.seq < e'.seq → m'.Conflict m.visible e e' →
      ∀ l x l', m'.executed = l ++ x :: l' → x.seq = e'.seq → e.seq ∈ l.map Entry.seq) ∧
    ∀ k s o v off, m'.Holds k s o → s.kind.isMemory → o.j = .value v →
      o.instr.offset? = some off →
      (m'.stateAt m.visible o.seq).accesses? o.instr = some (Word.ofInt (v + off)) :=
  ⟨accessesOrdered_of_steps hm h, fun _ _ _ _ _ hold kind hj hoff =>
    (follows_of_steps hm.fresh.follows h).1.accesses?_eq hold kind hj hoff⟩

/-- An adder that is slow and a load unit that is quick. -/
def racingTable : PoolTable :=
  [("ADD", { stationCount := some 1, latency := some 3 }),
    ("STORE", { stationCount := some 1, latency := some 2, addressLatency := some 1 }),
    ("LOAD", { stationCount := some 1, latency := some 1, addressLatency := some 0 })]

/-- The pool of these units. -/
def racingPool : Machine :=
  (ofTable racingTable true false).toOption.getD
    { offsetsChecked := true, relativeCalls := false }

theorem configured_racingPool : Configured racingPool :=
  @Configured.made racingTable true false racingPool rfl

/-- A program that stores a sum and loads it again. The load knows its
address two cycles before the sum is there. -/
def racingSample : Machine :=
  left (racingPool.loadProgram [.alu .add 1 2 3, .store 1 0 10, .load 4 0 10] 0 [] [])

/-- The load waits for the store, and then both are made in one cycle. -/
theorem accesses_in_order_racingSample :
    ∃ m e e' l x l', racingSample.steps 7 = .ok m ∧ e ∈ m.issued ∧ e' ∈ m.issued ∧
      e.seq < e'.seq ∧ m.Conflict racingSample.visible e e' ∧ m.executed = l ++ x :: l' ∧
      x.seq = e'.seq ∧ e.seq ∈ l.map Entry.seq := by
  obtain ⟨m, hm, h⟩ := exists_of_any (x := racingSample.steps 7)
    (p := fun m => m.issued.any fun e => m.issued.any fun e' => m.executed.getLast?.any fun x =>
      decide (e.seq < e'.seq ∧ x.seq = e'.seq ∧
        (m.stateAt racingSample.visible e.seq).stores? e.instr = some (10, 0) ∧
        (m.stateAt racingSample.visible e'.seq).accesses? e'.instr = some 10)) (by decide +kernel)
  obtain ⟨e, he, h⟩ := List.any_eq_true.1 h
  obtain ⟨e', he', h⟩ := List.any_eq_true.1 h
  obtain ⟨x, hx, h⟩ := (Option.any_eq_true ..).1 h
  obtain ⟨hlt, hseq, hstore, hload⟩ := of_decide_eq_true h
  obtain ⟨l, hl⟩ := List.getLast?_eq_some_iff.1 hx
  have hconf : m.Conflict racingSample.visible e e' :=
    ⟨10, accesses?_of_stores? hstore, hload, .inl ⟨0, hstore⟩⟩
  have hcalled : Configured racingSample := .call configured_racingPool (.loadProgram ..)
  exact ⟨m, e, e', l, x, [], hm, he, he', hlt, hconf, hl, hseq,
    (accesses_in_order hcalled hm).1 e he e' he' hlt hconf l x [] hl hseq⟩

end Machine

end OutOfOrder
