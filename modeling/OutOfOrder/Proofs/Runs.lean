import OutOfOrder.Proofs.Follows.Cycle
/-!
# Runs

`steps n` is the machine after `n` cycles, if none of them stops on a
fault, and `runActs n` are the acts of these cycles in their order.

A run from a configured machine follows the sequential machine all along
(`follows_of_steps`). So whatever programs it is given, and whether or not
they write to themselves, what it does for the instructions on the path is
what their replay does (`path_of_steps`). What it did for instructions that
were dropped left nothing behind: acts are acts of the path, and acts are all
that shows of a run (`Shows`).
-/

namespace OutOfOrder

open OutOfOrder.Sequential

namespace Machine

variable {m m' m'' : Machine} {n : Nat} {e : Entry} {start : State} {acts : List Act}

/-- A cycle so many times over, up to the first that stops on a fault. -/
def times (cycle : Machine → Outcome) : Nat → Machine → Outcome
  | 0, m => .ok m
  | n + 1, m => (times cycle n m).bind cycle

/-- **So many cycles.** -/
abbrev steps : Nat → Machine → Outcome := times step

/-- What comes of an operation, if it is known to give something with a
property. -/
theorem exists_of_any {ε α : Type} {x : Except ε α} {p : α → Bool}
    (h : x.toOption.any p = true) : ∃ a, x = .ok a ∧ p a = true := by
  rcases x with t | a
  · cases h
  · exact ⟨a, rfl, h⟩

/-- And what is known to give nothing. -/
theorem exists_of_isNone {ε α : Type} {x : Except ε α} (h : x.toOption.isNone) :
    ∃ t, x = .error t := by
  rcases x with t | a
  · exact ⟨t, rfl⟩
  · cases h

/-- The acts of so many cycles. -/
def runActs : Nat → Machine → List Act
  | 0, _ => []
  | n + 1, m => runActs n m ++
    match m.steps n with
    | .ok m => m.stepActs
    | .error _ => []

theorem times_succ_eq_ok {cycle : Machine → Outcome} :
    m.times cycle (n + 1) = .ok m'' ↔ ∃ m', m.times cycle n = .ok m' ∧ cycle m' = .ok m'' := by
  rw [times]
  rcases times cycle n m with t | m'
  · simp [Except.bind]
  · simp [Except.bind]

/-- **What every cycle keeps a run keeps.** -/
theorem steps_induction {P : Machine → Prop} (hm : m.steps n = .ok m') (h : P m)
    (step : ∀ {a b}, P a → a.step = .ok b → P b) : P m' := by
  induction n generalizing m' with
  | zero =>
    cases hm
    exact h
  | succ n ih =>
    obtain ⟨m₁, h₁, hstep⟩ := times_succ_eq_ok.1 hm
    exact step (ih h₁) hstep

/-- A run from a reachable machine leads to a reachable one. -/
theorem Reachable.steps (h : Reachable m) (hm : m.steps n = .ok m') : Reachable m' :=
  steps_induction hm h Reachable.step

/-- A run keeps a machine coherent. -/
theorem Coherent.steps (hc : m.Coherent) (hm : m.steps n = .ok m') : m'.Coherent :=
  steps_induction hm hc Coherent.step

/-- **A run only adds to the path.** -/
theorem Coherent.extends_steps (hc : m.Coherent) (hm : m.steps n = .ok m') : Extends m m' := by
  have kept : m'.Coherent ∧ Extends m m' :=
    steps_induction (P := fun a => a.Coherent ∧ Extends m a) hm ⟨hc, .refl m⟩
      fun ⟨ha, hext⟩ hstep => ⟨ha.step hstep, hext.trans (ha.extends_step hstep)⟩
  exact kept.2

theorem runActs_succ (h : m.steps n = .ok m') : m.runActs (n + 1) = m.runActs n ++ m'.stepActs := by
  rw [runActs, h]

/-- **A run follows the sequential machine**: its path has grown at its end,
and its acts are those of the replay. -/
theorem follows_of_steps (h : m.Follows start) (hm : m.steps n = .ok m') :
    m'.Follows start ∧ Extends m m' ∧ ∀ act ∈ m.runActs n, m'.Confirms start act := by
  induction n generalizing m' with
  | zero =>
    cases hm
    exact ⟨h, .refl m, fun act hact => by cases hact⟩
  | succ n ih =>
    obtain ⟨m₁, h₁, hstep⟩ := times_succ_eq_ok.1 hm
    obtain ⟨hf₁, hext₁, hacts₁⟩ := ih h₁
    obtain ⟨hf, hext, hacts⟩ := hf₁.step hstep
    refine ⟨hf, hext₁.trans hext, fun act hact => ?_⟩
    rw [runActs_succ h₁] at hact
    rcases List.mem_append.1 hact with hact | hact
    · exact hext.confirms hf₁.coherent hf.coherent (hacts₁ act hact)
    · exact hacts act hact

/-! ## What shows of a run

Memory, the bus, the count of mispredictions and the history of what has
left its station are what the acts of the run make them. -/

/-- The numbers of the instructions that have left their stations, jumps
apart. -/
def doneSeqs (m : Machine) : List Int :=
  (m.writtenBack.filter fun x => !x.instr.isJump).map Entry.seq

/-- What was on the bus after each of so many cycles. -/
def runBus : Nat → Machine → List (Option (Tag × Int))
  | 0, _ => []
  | n + 1, m => runBus n m ++
    match m.steps (n + 1) with
    | .ok m => [m.onBus]
    | .error _ => []

/-- **All that shows of a run is what its acts are.** -/
structure Shows (m : Machine) (n : Nat) (m' : Machine) : Prop where
  /-- Their writes, one after the other, make the memory. -/
  memory : m'.memory = (m.runActs n).foldl Act.onMemory m.memory
  /-- What they send is what the bus carried. -/
  bus : (m.runActs n).filterMap Act.sent? = (m.runBus n).filterMap id
  /-- Their taken branches are the mispredictions counted. -/
  mispredictions : m'.mispredictions = m.mispredictions + (m.runActs n).countP Act.isTaken
  /-- Each is by one of those that have left their stations, in their order. -/
  done : m'.doneSeqs = m.doneSeqs ++ (m.runActs n).map Act.seq

theorem doneSeqs_congr (h : m'.writtenBack = m.writtenBack) : m'.doneSeqs = m.doneSeqs := by
  rw [doneSeqs, h, doneSeqs]

/-- Who leaves its station is added, unless it is a jump. -/
theorem Coherent.doneSeqs_leave {k : Nat} {s : Station} {o : Occupant} (hc : m.Coherent)
    (hold : m.Holds k s o) (h : m'.writtenBack = m.writtenBack ++ [m.entry s o]) :
    m'.doneSeqs = m.doneSeqs ++ if s.kind = .callRet then [] else [o.seq] := by
  rw [doneSeqs, h, List.filter_append, List.map_append, doneSeqs]
  congr 1
  rcases hj : o.instr.isJump with - | -
  · rw [if_neg fun hk => Bool.eq_false_iff.1 hj ((hc.kind_eq_callRet_iff hold).1 hk),
      List.filter_singleton, show (m.entry s o).instr.isJump = false from hj]
    rfl
  · rw [if_pos ((hc.kind_eq_callRet_iff hold).2 hj), List.filter_singleton,
      show (m.entry s o).instr.isJump = true from hj]
    rfl

/-- **Who leaves its station in a move acts**, unless it is a jump. -/
theorem Move.doneSeqs (hm : Move m acts m') (hc : m.Coherent) :
    m'.doneSeqs = m.doneSeqs ++ acts.map Act.seq := by
  cases hm with
  | address | load | compute => exact (List.append_nil _).symm
  | store hold _ kind | fall hold _ kind | branch hold _ kind | call hold _ kind
  | ret hold _ kind =>
    rw [hc.doneSeqs_leave hold rfl, kind]
    rfl

theorem Moves.doneSeqs (hm : Moves m acts m') (hc : m.Coherent) :
    m'.doneSeqs = m.doneSeqs ++ acts.map Act.seq := by
  induction hm with
  | refl => exact (List.append_nil _).symm
  | cons first rest ih =>
    rw [ih (first.coherent hc), first.doneSeqs hc, List.append_assoc, List.map_append]

theorem Coherent.doneSeqs_step (hc : m.Coherent) (hm : m.step = .ok m') :
    m'.doneSeqs = m.doneSeqs ++ m.stepActs.map Act.seq := by
  obtain ⟨m₁, m₂, m₃, h₁, h₂, h₃, rfl, hacts⟩ := step_eq_ok hm
  have hc₁ := hc.advance.issue h₁
  have hmoves := execute_moves h₂
  have hissue : m₁.doneSeqs = m.doneSeqs := doneSeqs_congr (by
    rcases issue_eq_ok h₁ with ⟨i, s, k, -, -, -, -, rfl⟩ | rfl <;> rfl)
  have hsend : m₃.doneSeqs = m₂.doneSeqs ++ m₂.writeBackActs.map Act.seq := by
    rw [writeBackActs]
    rcases writeBack_cases h₃ with ⟨hx, rfl⟩ | ⟨x, hx, rfl⟩ <;> rw [hx]
    · exact (List.append_nil _).symm
    · rw [(hmoves.coherent hc₁).doneSeqs_leave (nextSender?_eq_some hx).1 rfl,
        if_neg (kind_of_nextSender? hx).2]
      rfl
  change m₃.doneSeqs = _
  rw [hsend, hmoves.doneSeqs hc₁, hissue, hacts, List.map_append, List.append_assoc]

theorem runBus_succ (h : m.steps (n + 1) = .ok m') :
    m.runBus (n + 1) = m.runBus n ++ [m'.onBus] := by
  rw [runBus, h]

/-- **A run shows its acts**, and nothing else. -/
theorem Coherent.shows (hc : m.Coherent) (hm : m.steps n = .ok m') : m.Shows n m' := by
  induction n generalizing m' with
  | zero =>
    cases hm
    exact ⟨rfl, rfl, rfl, (List.append_nil _).symm⟩
  | succ n ih =>
    obtain ⟨m₁, h₁, hstep⟩ := times_succ_eq_ok.1 hm
    obtain ⟨memory, bus, mispredictions, done⟩ := ih h₁
    constructor <;> rw [runActs_succ h₁]
    case memory => rw [List.foldl_append, ← memory, memory_of_step hstep]
    case bus =>
      rw [runBus_succ hm, List.filterMap_append, List.filterMap_append, bus, onBus_of_step hstep]
      rcases m'.onBus with - | x <;> rfl
    case mispredictions =>
      rw [List.countP_append, mispredictions_of_step hstep, mispredictions, Nat.add_assoc]
    case done =>
      rw [(hc.steps h₁).doneSeqs_step hstep, done, List.append_assoc, List.map_append]

/-! ## Nothing leaves unseen -/

/-- An instruction that leaves its station in a move acts, or it is a
jump. -/
theorem Move.acts_of_leaves (hm : Move m acts m') (hc : m.Coherent) (he : e ∈ m'.issued)
    (hf : e.seq ∈ m.flight) :
    e.seq ∈ m'.flight ∨ e.instr.isJump ∨ ∃ act ∈ acts, act.seq = e.seq := by
  cases hm with
  | address hold => exact .inl ((retimed_addressed hold).mem_flight_iff.2 hf)
  | load hold => exact .inl ((retimed_resulted hold).mem_flight_iff.2 hf)
  | compute hold => exact .inl ((retimed_resulted hold).mem_flight_iff.2 hf)
  | @store n s o a v hold =>
    rcases (released_stored hold a v).mem_flight_or hc hold hf with hf | hseq
    · exact .inl hf
    · exact .inr (.inr ⟨_, List.mem_cons_self, hseq.symm⟩)
  | @fall n s o hold =>
    rcases (released_fallen hold).mem_flight_or hc hold hf with hf | hseq
    · exact .inl hf
    · exact .inr (.inr ⟨_, List.mem_cons_self, hseq.symm⟩)
  | @branch n s o offset target i saved hold path kind elapsed htaken himm htarget hfind =>
    obtain ⟨b, hb, hof⟩ := hc.owner n s o hold
    have hkept : e ∈ m.before o.seq ++ [b] := hc.kept_eq hfind hb hof.seq ▸ he
    -- What is kept was issued before the branch, or is the branch.
    rcases List.mem_append.1 hkept with he | he
    · exact .inl ((mem_flight_branched hc hold).2 ⟨hf, (mem_before.1 he).2⟩)
    · rw [List.mem_singleton.1 he]
      exact .inr (.inr ⟨_, List.mem_cons_self, hof.seq.symm⟩)
  | @call n s o target hold path kind =>
    rcases (released_called hold target).mem_flight_or hc hold hf with hf | hseq
    · exact .inl hf
    · rw [(hc.isOf hold he hseq).instr, ← hc.kind_eq_callRet_iff hold]
      exact .inr (.inl kind)
  | @ret n s o target hold path kind =>
    rcases (released_returned hold target).mem_flight_or hc hold hf with hf | hseq
    · exact .inl hf
    · rw [(hc.isOf hold he hseq).instr, ← hc.kind_eq_callRet_iff hold]
      exact .inr (.inl kind)

/-- A move drops nothing but the end of what was issued. -/
theorem Move.issued_shrinks (hm : Move m acts m') : m'.issued <+: m.issued := by
  cases hm with
  | branch => exact List.take_prefix _ _
  | _ => exact List.prefix_refl _

theorem Move.issued_subset (hm : Move m acts m') : m'.issued ⊆ m.issued :=
  hm.issued_shrinks.subset

theorem Moves.issued_subset (hm : Moves m acts m') : m'.issued ⊆ m.issued := by
  induction hm with
  | refl => exact fun e he => he
  | cons first rest ih => exact fun e he => first.issued_subset (ih he)

/-- What is in the history of issues after a cycle was in it before, or is
new. -/
theorem mem_issued_of_step (hm : m.step = .ok m') (he : e ∈ m'.issued) :
    e ∈ m.issued ∨ e.seq = m.nextSeq := by
  obtain ⟨m₁, m₂, m₃, h₁, h₂, h₃, rfl, -⟩ := step_eq_ok hm
  have he₂ : e ∈ m₂.issued := by
    rcases writeBack_cases h₃ with ⟨-, rfl⟩ | ⟨x, -, rfl⟩ <;> exact he
  have he₁ := (execute_moves h₂).issued_subset he₂
  rcases issue_eq_ok h₁ with ⟨i, s, k, -, -, -, -, rfl⟩ | rfl
  · rcases mem_issued_dispatched.1 he₁ with he₁ | rfl
    · exact .inl he₁
    · exact .inr rfl
  · exact .inl he₁

theorem Moves.acts_of_leaves (hm : Moves m acts m') (hc : m.Coherent) (he : e ∈ m'.issued)
    (hf : e.seq ∈ m.flight) :
    e.seq ∈ m'.flight ∨ e.instr.isJump ∨ ∃ act ∈ acts, act.seq = e.seq := by
  induction hm with
  | refl => exact .inl hf
  | @cons m m₁ m₂ l l' first rest ih =>
    have hc₁ := first.coherent hc
    rcases first.acts_of_leaves hc (rest.issued_subset he) hf with hf | hj | ⟨act, hact, hseq⟩
    · rcases ih hc₁ he hf with hf | hj | ⟨act, hact, hseq⟩
      · exact .inl hf
      · exact .inr (.inl hj)
      · exact .inr (.inr ⟨act, List.mem_append_right _ hact, hseq⟩)
    · exact .inr (.inl hj)
    · exact .inr (.inr ⟨act, List.mem_append_left _ hact, hseq⟩)

theorem Coherent.acts_of_writeBack {q : Int} (hc : m.Coherent) (hm : m.writeBack = .ok m')
    (hq : q ∈ m.flight) : q ∈ m'.flight ∨ ∃ act ∈ m.writeBackActs, act.seq = q := by
  rcases writeBack_cases hm with ⟨-, rfl⟩ | ⟨x, hx, rfl⟩
  · exact .inl hq
  · rcases released_sent.mem_flight_or hc (nextSender?_eq_some hx).1 hq with hq | rfl
    · exact .inl hq
    · refine .inr ⟨.send x.occupant.seq x.station.tag x.value, ?_, rfl⟩
      rw [writeBackActs, hx]
      exact List.mem_cons_self

/-- An instruction that is in flight before a cycle, or is issued in it, is in
flight after it, or is a jump, or has acted in it. -/
theorem Coherent.acts_of_step (hc : m.Coherent) (hm : m.step = .ok m') (he : e ∈ m'.issued)
    (hf : e ∈ m.issued → e.seq ∈ m.flight) :
    e.seq ∈ m'.flight ∨ e.instr.isJump ∨ ∃ act ∈ m.stepActs, act.seq = e.seq := by
  obtain ⟨m₁, m₂, m₃, h₁, h₂, h₃, rfl, hacts⟩ := step_eq_ok hm
  have hc₁ := hc.advance.issue h₁
  have hmoves := execute_moves h₂
  have he₂ : e ∈ m₂.issued := by
    rcases writeBack_cases h₃ with ⟨-, rfl⟩ | ⟨x, -, rfl⟩ <;> exact he
  -- It was in flight, or it has just been issued.
  have hf₁ : e.seq ∈ m₁.flight := by
    have he₁ := hmoves.issued_subset he₂
    have hadvance : e ∈ m.issued → e.seq ∈ m.advance.flight :=
      fun he => retimed_advance.mem_flight_iff.2 (hf he)
    rcases issue_eq_ok h₁ with ⟨i, s, k, -, -, hs, hfree, rfl⟩ | rfl
    · rw [mem_flight_dispatched hs hfree]
      rcases mem_issued_dispatched.1 he₁ with he₁ | rfl
      · exact .inl (hadvance he₁)
      · exact .inr rfl
    · exact hadvance he₁
  rw [hacts]
  rcases hmoves.acts_of_leaves hc₁ he₂ hf₁ with hf₂ | hj | ⟨act, hact, hseq⟩
  · rcases (hmoves.coherent hc₁).acts_of_writeBack h₃ hf₂ with hf₃ | ⟨act, hact, hseq⟩
    · exact .inl hf₃
    · exact .inr (.inr ⟨act, List.mem_append_right _ hact, hseq⟩)
  · exact .inr (.inl hj)
  · exact .inr (.inr ⟨act, List.mem_append_left _ hact, hseq⟩)

/-- **What has been issued is in flight, or a jump, or has acted.** -/
theorem acts_of_steps (hm : Fresh m) (h : m.steps n = .ok m') (he : e ∈ m'.issued) :
    e.seq ∈ m'.flight ∨ e.instr.isJump ∨ ∃ act ∈ m.runActs n, act.seq = e.seq := by
  induction n generalizing m' with
  | zero =>
    cases h
    rw [hm.issued] at he
    cases he
  | succ n ih =>
    obtain ⟨m₀, h₀, hstep⟩ := times_succ_eq_ok.1 h
    have hc₀ := (follows_of_steps hm.follows h₀).1.coherent
    rw [runActs_succ h₀]
    have hnow : (e ∈ m₀.issued → e.seq ∈ m₀.flight) → e.seq ∈ m'.flight ∨ e.instr.isJump ∨
        ∃ act ∈ m.runActs n ++ m₀.stepActs, act.seq = e.seq := by
      intro hf
      rcases hc₀.acts_of_step hstep he hf with hf | hj | ⟨act, hact, hseq⟩
      · exact .inl hf
      · exact .inr (.inl hj)
      · exact .inr (.inr ⟨act, List.mem_append_right _ hact, hseq⟩)
    by_cases he₀ : e ∈ m₀.issued
    · rcases ih h₀ he₀ with hf | hj | ⟨act, hact, hseq⟩
      · exact hnow fun _ => hf
      · exact .inr (.inl hj)
      · exact .inr (.inr ⟨act, List.mem_append_left _ hact, hseq⟩)
    · exact hnow fun he => absurd he he₀

/-! ## The path is right at every moment -/

/-- Up to the oldest pending branch the machine goes on where the replay
does. -/
theorem Coherent.nextPc_eq {q : Int} (hc : m.Coherent) (hpath : m.OnPath q) :
    m.nextPc start q = (m.stateAt start q).pc := by
  rcases hlast : (m.before q).getLast? with - | p
  · rw [nextPc, hlast, stateAt_eq_replay_before, List.getLast?_eq_none_iff.1 hlast]
    rfl
  · obtain ⟨hp, hlt⟩ := mem_before.1 (List.mem_of_getLast? hlast)
    -- A branch before it has resolved.
    have hgone : ¬ (p.instr.isBranch ∧ p.seq ∈ m.flight) := by
      rintro ⟨hb, hf⟩
      obtain ⟨k, s, o, hold, hseq⟩ := mem_flight.1 hf
      have hk : s.kind = .beq := by
        rw [hc.kind_eq_beq_iff hold, ← (hc.isOf hold hp hseq.symm).instr]
        exact hb
      have := hpath k s o hold hk
      omega
    simp only [nextPc, hlast, if_neg hgone]

/-- An instruction on the path was issued where its replay is. -/
theorem Follows.pc_eq (h : m.Follows start) (he : e ∈ m.path) :
    e.pc = (m.stateAt start e.seq).pc := by
  obtain ⟨hei, hpath⟩ := h.coherent.mem_path.1 he
  rw [h.control.next e hei, h.coherent.nextPc_eq hpath]

/-- Where no branch and no jump is pending the machine is where the replay of
its path is. -/
theorem Follows.pc_eq_pathState (h : m.Follows start) (hbranch : m.branchPending = false)
    (hjump : m.jumpPending = false) : (m.pc : Int) = (m.pathState start).pc := by
  have hc := h.coherent
  have hall : ∀ q, m.OnPath q := by
    intro q k s o hold hk
    rw [hc.branchFlag.2 ⟨k, s, o, hold, hk⟩] at hbranch
    cases hbranch
  rw [h.control.pc hjump, hc.nextPc_eq (hall _), stateAt_eq_replay_before, hc.before_nextSeq,
    pathState, hc.path_eq_issued hall]

/-- An entry of the path with what comes before it on the path. -/
theorem Coherent.stateAt_of_path_eq (hc : m.Coherent) {l l' : List Entry}
    (hp : m.path = l ++ e :: l') : m.stateAt start e.seq = start.replay m.relativeCalls l := by
  have he : e ∈ m.path := by
    rw [hp]
    exact List.mem_append_right _ List.mem_cons_self
  rw [← hc.upTo_path (hc.mem_path.1 he).2, hp]
  have hin := hc.path_inOrder
  rw [hp] at hin
  obtain ⟨-, hcons, hlt⟩ := List.pairwise_append.1 hin
  have h₁ : l.filter (fun x => x.seq < e.seq) = l :=
    List.filter_eq_self.2 fun x hx => by simpa using hlt x hx e List.mem_cons_self
  have h₂ : (e :: l').filter (fun x => x.seq < e.seq) = [] :=
    List.filter_eq_nil_iff.2 fun x hx => by
      rcases List.mem_cons.1 hx with rfl | hx
      · simp
      · have := (List.pairwise_cons.1 hcons).1 x hx
        simp only [decide_eq_true_eq]
        omega
  rw [State.upTo, List.filter_append, h₁, h₂, List.append_nil]

/-- **The path is what its replay does.** The instructions on the path of a
machine are replayed one after the other, from a state on; `acts` is what
the machine has done so far. -/
structure PathReplayed (relative : Bool) (start : State) (acts : List Act) (m : Machine) :
    Prop where
  /-- Each instruction was issued where the replay has come to. -/
  issuedAt : ∀ l e l', m.path = l ++ e :: l' → e.pc = (start.replay relative l).pc
  /-- What it has done is what the replay does. -/
  asReplayed : ∀ l e l', m.path = l ++ e :: l' →
    ∀ act ∈ acts, act.seq = e.seq → act.IsOf (start.replay relative l) e
  /-- It has done so unless it is still in its station, or is a jump. -/
  acted : ∀ e ∈ m.path, e.seq ∈ m.flight ∨ e.instr.isJump ∨ ∃ act ∈ acts, act.seq = e.seq
  /-- Nobody else has done anything. -/
  onPath : ∀ act ∈ acts, ∃ e ∈ m.path, e.seq = act.seq
  /-- Where no branch and no jump is pending the machine goes on where the
  replay ends. -/
  pc : m.branchPending = false → m.jumpPending = false →
    (m.pc : Int) = (start.replay relative m.path).pc

/-- **The path is right at every moment of a run**, of a machine that had
been configured, over any number of cycles, and whatever programs write. What the
replay confirms is all that memory, the bus and the counts show. -/
theorem path_of_steps (hm : Configured m) (h : m.steps n = .ok m') :
    PathReplayed m.relativeCalls m.visible (m.runActs n) m' ∧ m.Shows n m' := by
  obtain ⟨hf, hext, hacts⟩ := follows_of_steps hm.fresh.follows h
  refine ⟨?_, hm.fresh.follows.coherent.shows h⟩
  have hc := hf.coherent
  have hst : ∀ {l e l'}, m'.path = l ++ e :: l' →
      e ∈ m'.path ∧ m'.stateAt m.visible e.seq = m.visible.replay m.relativeCalls l := by
    intro l e l' hp
    refine ⟨?_, ?_⟩
    · rw [hp]
      exact List.mem_append_right _ List.mem_cons_self
    · rw [hc.stateAt_of_path_eq hp, hext.relativeCalls]
  constructor
  case issuedAt =>
    intro l e l' hp
    rw [hf.pc_eq (hst hp).1, (hst hp).2]
  case asReplayed =>
    intro l e l' hp act hact hseq
    obtain ⟨e', he', hseq', hof⟩ := hacts act hact
    obtain rfl := hc.path_inOrder.eq_of_seq_eq he' (hst hp).1 (hseq'.trans hseq)
    rwa [(hst hp).2] at hof
  case acted => exact fun e he => acts_of_steps hm.fresh h (hc.mem_path.1 he).1
  case onPath =>
    intro act hact
    obtain ⟨e, he, hseq, -⟩ := hacts act hact
    exact ⟨e, he, hseq⟩
  case pc =>
    intro hb hj
    rw [hf.pc_eq_pathState hb hj, pathState, hext.relativeCalls]

/-! ## A machine to run

A machine with three stations, and a program that computes a word, jumps
over an instruction that is issued all the same, and stores the word. -/

/-- The pool of the sample. -/
def samplePool : Machine where
  offsetsChecked := true
  relativeCalls := false
  stations :=
    [.ofSlot ⟨"Add1", .addSub, 0, 1, 1, by decide, by decide⟩,
      .ofSlot ⟨"BEQ1", .beq, 1, 2, 2, by decide, by decide⟩,
      .ofSlot ⟨"Store1", .store, 2, 2, 1, by decide, by decide⟩]

theorem configured_samplePool : Configured samplePool :=
  @Configured.made [("ADD", { stationCount := some 1, latency := some 1 }),
    ("BEQ", { stationCount := some 1, latency := some 2 }),
    ("STORE", { stationCount := some 1, latency := some 2, addressLatency := some 1 })]
    true false samplePool rfl

/-- The sample as it is before the first cycle. -/
def sample : Machine :=
  left (samplePool.loadProgram
    [.alu .add 1 2 3, .beq 0 0 1, .alu .add 4 1 1, .store 1 0 10] 0 [] [(2, 5), (3, 6)])

theorem configured_sample : Configured sample :=
  .call configured_samplePool (.loadProgram ..)

/-- The sample is complete after seven cycles. -/
theorem steps_sample : ∃ m, sample.steps 7 = .ok m ∧ m.complete = true := by
  exact exists_of_any (by decide +kernel)

/-- The path of the sample after its seven cycles. -/
theorem path_of_steps_sample :
    ∃ m, sample.steps 7 = .ok m ∧
      PathReplayed false sample.visible (sample.runActs 7) m ∧ sample.Shows 7 m := by
  obtain ⟨m, h, -⟩ := steps_sample
  exact ⟨m, h, path_of_steps configured_sample h⟩

end Machine

end OutOfOrder
