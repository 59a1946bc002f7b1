import OutOfOrder.Proofs.Follows.Control
import OutOfOrder.Proofs.Follows.Memory
import OutOfOrder.Proofs.Reachable
/-!
# A cycle follows the replay

Every stage of a cycle keeps a machine following the sequential one, and
the path only grows at its end. So what has once been computed or written
for an instruction on the path stays right.
-/

namespace OutOfOrder

open OutOfOrder.Sequential

namespace Machine

variable {m m' m'' : Machine} {n k : Nat} {s s' : Station} {o o' : Occupant} {e : Entry} {q : Int}
variable {start : State}

/-! ## What programs see -/

/-- **What the programs of a machine see of it**: registers, memory and the
program counter. -/
def visible (m : Machine) : State := ⟨fun r => Word.ofInt (m.registers.get r), m.memory, m.pc⟩

theorem read_visible (r : Reg) : (m.visible.read r).toInt = m.registers.get r := by
  by_cases hr : r = 0
  · rw [State.read, if_pos hr, Registers.get, if_pos hr]
    rfl
  · have hget : m.registers.get r = (m.registers.values.get r).toInt := if_neg hr
    rw [State.read, if_neg hr]
    change (Word.ofInt (m.registers.get r)).toInt = _
    rw [hget, Word.ofInt_toInt]

/-- **A machine that has not run follows from what its programs see.** -/
theorem Fresh.follows (h : Fresh m) : m.Follows m.visible where
  coherent := h.coherent
  values :=
    { stations := fun _ _ _ hold => absurd hold h.not_holds
      committed := fun r _ => by
        rw [pathState, path, h.issued]
        exact (read_visible r).symm }
  memory :=
    { ordered := fun e he => by rw [h.issued] at he; cases he
      contents := fun q a _ => by rw [stateAt, h.issued]; rfl }
  control :=
    { next := fun e he => by rw [h.issued] at he; cases he
      pc := fun _ => by rw [nextPc, before, h.issued]; rfl }

/-! ## The path grows -/

/-- **The path has grown at its end.** -/
structure Extends (m m' : Machine) : Prop where
  path : ∃ rest, m'.path = m.path ++ rest
  relativeCalls : m'.relativeCalls = m.relativeCalls

theorem Extends.refl (m : Machine) : Extends m m := ⟨⟨[], by rw [List.append_nil]⟩, rfl⟩

theorem Extends.trans (h : Extends m m') (h' : Extends m' m'') : Extends m m'' := by
  obtain ⟨rest, hp⟩ := h.path
  obtain ⟨rest', hp'⟩ := h'.path
  exact ⟨⟨rest ++ rest', by rw [hp', hp, List.append_assoc]⟩,
    h'.relativeCalls.trans h.relativeCalls⟩

theorem Extends.of_eq (hp : m'.path = m.path) (hrel : m'.relativeCalls = m.relativeCalls) :
    Extends m m' := ⟨⟨[], by rw [hp, List.append_nil]⟩, hrel⟩

theorem Extends.mem_path (h : Extends m m') (he : e ∈ m.path) : e ∈ m'.path := by
  obtain ⟨rest, hp⟩ := h.path
  rw [hp]
  exact List.mem_append_left _ he

/-- What was issued before an instruction on the path stays the same. -/
theorem Extends.before_eq (h : Extends m m') (hc : m.Coherent) (hc' : m'.Coherent)
    (he : e ∈ m.path) : m'.before e.seq = m.before e.seq := by
  rw [← hc.filter_path (hc.mem_path.1 he).2, ← hc'.filter_path (hc'.mem_path.1 (h.mem_path he)).2]
  obtain ⟨rest, hp⟩ := h.path
  have hin := hc'.path_inOrder
  rw [hp] at hin ⊢
  have hnil : rest.filter (fun x => x.seq < e.seq) = [] :=
    List.filter_eq_nil_iff.2 fun x hx => by
      have := (List.pairwise_append.1 hin).2.2 e he x hx
      simp only [decide_eq_true_eq]
      omega
  rw [List.filter_append, hnil, List.append_nil]

/-- **An instruction on the path keeps its state.** -/
theorem Extends.stateAt_eq (h : Extends m m') (hc : m.Coherent) (hc' : m'.Coherent)
    (he : e ∈ m.path) : m'.stateAt start e.seq = m.stateAt start e.seq := by
  rw [stateAt_eq_replay_before, stateAt_eq_replay_before, h.before_eq hc hc' he, h.relativeCalls]

theorem Move.relativeCalls {acts : List Act} (h : Move m acts m') :
    m'.relativeCalls = m.relativeCalls := by
  cases h <;> rfl

theorem Move.extends {acts : List Act} (h : Move m acts m') (hc : m.Coherent) : Extends m m' := by
  have hc' := h.coherent hc
  have hmono : ∀ q, m.OnPath q → m'.OnPath q := fun q => h.onPath
  refine ⟨?_, h.relativeCalls⟩
  cases h with
  | @branch n s o offset target i saved hold path kind elapsed htaken himm htarget hfind =>
    obtain ⟨b, hb, hof⟩ := hc.owner n s o hold
    refine ⟨[], ?_⟩
    rw [List.append_nil, hc'.path_eq_issued fun _ => onPath_branched hc hold path,
      hc.path_eq_before_concat hold kind path hb hof.seq, ← hc.kept_eq hfind hb hof.seq]
    rfl
  | _ =>
    obtain ⟨rest, hp, -⟩ := hc.path_eq_append hc' rfl hmono
    exact ⟨rest, hp⟩

/-! ## Moves follow the replay -/

theorem Follows.advance (h : m.Follows start) : m.advance.Follows start where
  coherent := h.coherent.advance
  values :=
    { stations := fun n s' o' hold' => by
        obtain ⟨s, o, hold, rfl, rfl⟩ := holds_advance.1 hold'
        have hf := h.values.stations n s o hold
        rw [tick_eq]
        exact ⟨hf.j, hf.k, hf.address, by rw [s.advance_toSlot.2]; exact hf.result⟩
      committed := fun r hnone => by
        have hpath := h.coherent.path_congr h.coherent.advance rfl
          fun _ => retimed_advance.onPath_iff
        rw [hpath, retimed_advance.producer?_eq] at hnone
        rw [pathState, hpath]
        exact h.values.committed r hnone }
  memory := h.memory.congr rfl rfl rfl
    (fun e _ _ _ => accessed_of_retimed retimed_advance fun k s' o' s o hold' hold _ => by
      obtain ⟨s₁, o₁, hold₁, rfl, -⟩ := holds_advance.1 hold'
      rw [s₁.advance_toSlot.2, (hold.unique hold₁).1])
    fun e _ _ _ => retimed_advance.mem_flight_iff
  control := h.control.congr rfl rfl rfl rfl rfl fun e _ _ => retimed_advance.mem_flight_iff

/-- **A move follows the replay.** -/
theorem Move.follows {acts : List Act} (hm : Move m acts m') (h : m.Follows start) :
    m'.Follows start := by
  have hc := h.coherent
  have hc' := hm.coherent hc
  cases hm with
  | @address n s o base offset hold path kind due hj himm =>
    have hre := retimed_addressed (a := wrap (base + offset)) hold
    have hfollow := (h.values.stations n s o hold).addressed (hc.fits n s o hold) kind due hj himm
    refine ⟨hc', h.values.set (s.withAddress _) hc hc' hre hold
      (Station.withAddress_occupant hold.2) rfl hfollow rfl rfl rfl, ?_,
      h.control.congr rfl rfl rfl rfl rfl fun e _ _ => hre.mem_flight_iff⟩
    refine h.memory.congr rfl rfl rfl (fun e _ a _ => ?_) fun e _ a _ => hre.mem_flight_iff
    refine accessed_of_retimed hre fun k s' o' s₁ o₁ hold' hold₁ _ => ?_
    rcases (holds_setStation hold.lt_length).1 hold' with ⟨rfl, rfl, -⟩ | ⟨-, h'⟩
    · rw [(hold₁.unique hold).1]
      rfl
    · rw [(hold₁.unique h').1]
  | @load n s o a hold path kind due clear himm =>
    have hre := retimed_resulted (v := (m.memory.get a).toInt) hold
    have hready : o.addressReady := by
      simp only [accessDue, Bool.and_eq_true] at due
      exact due.1.1
    have hfollow := (h.values.stations n s o hold).loaded (hc.fits n s o hold) kind hready himm
      (h.memory.get_eq hc h.values hold due clear himm)
    exact ⟨hc', h.values.set (s.withResult _) hc hc' hre hold hold.2 rfl hfollow rfl rfl rfl,
      h.memory.loaded hc h.values hold hready clear,
      h.control.congr rfl rfl rfl rfl rfl fun e _ _ => hre.mem_flight_iff⟩
  | @compute n s o op rA rB rC a b hold path hinstr fresh elapsed hj hk =>
    have hre := retimed_resulted (v := op.eval a b) hold
    have hfollow := (h.values.stations n s o hold).computed hinstr hj hk
    refine ⟨hc', h.values.set (s.withResult _) hc hc' hre hold hold.2 rfl hfollow rfl rfl rfl,
      ?_, h.control.congr rfl rfl rfl rfl rfl fun e _ _ => hre.mem_flight_iff⟩
    refine h.memory.congr rfl rfl rfl (fun e he a ha => ?_) fun e _ a _ => hre.mem_flight_iff
    refine accessed_of_retimed hre fun k s' o' s₁ o₁ hold' hold₁ hseq => ?_
    rcases (holds_resulted hold).1 hold' with ⟨rfl, rfl, rfl⟩ | ⟨-, h'⟩
    · -- A unit that computes makes no access.
      have hof := hc.isOf hold he (hseq ▸ by rw [(hold₁.unique hold).2])
      rw [hof.instr, hinstr] at ha
      cases ha
    · rw [(hold₁.unique h').1]
  | @store n s o a v hold path kind due clear himm hk =>
    have hr := released_stored hold a v
    have hcall := hc.isCall_eq_false hold (by rw [kind]; decide)
    exact ⟨hc', h.values.leave hc hc' hr hold rfl
      (fun r => hc.not_writes hold (by rw [kind]; rfl) hcall) rfl,
      h.memory.stored hc h.values hold kind due clear himm hk,
      h.control.congr rfl rfl rfl rfl rfl
        fun e he hb => hr.mem_flight_branch_iff hc hold (by rw [kind]; decide) he hb⟩
  | @fall n s o hold path kind elapsed htaken =>
    have hr := released_fallen hold
    have hcall := hc.isCall_eq_false hold (by rw [kind]; decide)
    exact ⟨hc', h.values.leave hc hc' hr hold rfl
      (fun r => hc.not_writes hold (by rw [kind]; rfl) hcall) rfl,
      h.memory.leave hc hr hold (by rw [kind]; decide) rfl,
      h.control.fallen hc hc' hold kind (by rw [← h.values.taken_eq hc hold kind elapsed, htaken])⟩
  | @branch n s o offset target i saved hold path kind elapsed htaken himm htarget hfind hsaved =>
    obtain ⟨b, hb, hof⟩ := hc.owner n s o hold
    rw [hc.kept_eq hfind hb hof.seq] at hc' ⊢
    exact ⟨hc', h.values.branched hc hc' hold path kind hb hof.seq,
      h.memory.branched hc hc' hold kind hb hof.seq,
      h.control.branched hc hc' hold kind hb hof.seq himm htarget
        (by rw [← h.values.taken_eq hc hold kind elapsed, htaken])⟩
  | @call n s o target hold path kind elapsed hinstr himm =>
    have hr := released_called hold target
    refine ⟨hc', h.values.called hc hc' hold path kind hinstr,
      h.memory.leave hc hr hold (by rw [kind]; decide) rfl,
      h.control.jumped target.toInt hc hc' hr hold kind rfl fun e he hseq => ?_⟩
    obtain ⟨label, hl⟩ := Instruction.isCall_iff.1 hinstr
    have hof := hc.isOf hold he hseq
    have htarget := (hc.fits n s o hold).target label hl
    rw [himm, Option.some.injEq] at htarget
    change (State.execute m.relativeCalls { m.stateAt start e.seq with pc := e.pc } e.instr).pc = _
    rw [hof.instr, hl, hof.pc, htarget, Int.add_comm label.val]
    rfl
  | @ret n s o target hold path kind elapsed hinstr hj =>
    have hst : (finish (m.returned n s o target) n s o).stations = m.stations.set n s.clear :=
      List.set_set ..
    have hr := released_returned hold target
    have hret := hc.instr_eq_ret hold kind hinstr
    refine ⟨hc', h.values.leave hc hc' hr hold hst
      (fun r => hc.not_writes hold (by rw [kind]; rfl) hinstr) rfl,
      h.memory.leave hc hr hold (by rw [kind]; decide) rfl,
      h.control.jumped target.toInt hc hc' hr hold kind rfl fun e he hseq => ?_⟩
    have hof := hc.isOf hold he hseq
    have hval := (h.values.stations n s o hold).j.value? (r := Reg.link) (by rw [hret]; rfl) hj
    change (State.execute m.relativeCalls { m.stateAt start e.seq with pc := e.pc } e.instr).pc = _
    rw [hof.instr, hret, hval, hseq]
    rfl

theorem Moves.follows {acts : List Act} (hm : Moves m acts m') (h : m.Follows start) :
    m'.Follows start := by
  induction hm with
  | refl => exact h
  | cons first rest ih => exact ih (first.follows h)

theorem Moves.extends {acts : List Act} (hm : Moves m acts m') (hc : m.Coherent) :
    Extends m m' := by
  induction hm with
  | refl => exact .refl _
  | cons first rest ih => exact (first.extends hc).trans (ih (first.coherent hc))

/-! ### In the other stages

The path grows in every coherent machine, whether or not it follows a
replay: after a call in the middle of a run there may be none. -/

theorem Coherent.extends_advance (hc : m.Coherent) : Extends m m.advance :=
  .of_eq (hc.path_congr hc.advance rfl fun _ => retimed_advance.onPath_iff) rfl

theorem Coherent.extends_issue (hc : m.Coherent) (hm : m.issue = .ok m') : Extends m m' := by
  have hc' := hc.issue hm
  rcases issue_eq_ok hm with ⟨i, s, n, -, -, hs, hfree, rfl⟩ | rfl
  · obtain ⟨rest, hp, -⟩ := ValuesFollow.path_dispatched hc hc' hs hfree
    exact ⟨⟨rest, hp⟩, rfl⟩
  · exact .refl _

theorem Coherent.extends_writeBack (hc : m.Coherent) (hm : m.writeBack = .ok m') :
    Extends m m' := by
  have hc' := hc.writeBack hm
  rcases writeBack_cases hm with ⟨-, rfl⟩ | ⟨x, hx, rfl⟩
  · exact .refl _
  · obtain ⟨hold, -⟩ := nextSender?_eq_some hx
    exact .of_eq (hc.path_congr hc' rfl fun q =>
      released_sent.onPath_iff hold (kind_of_nextSender? hx).1) rfl

/-- **A cycle only adds to the path.** -/
theorem Coherent.extends_step (hc : m.Coherent) (hm : m.step = .ok m') : Extends m m' := by
  obtain ⟨m₁, m₂, m₃, h₁, h₂, h₃, rfl, -⟩ := step_eq_ok hm
  have hc₁ := hc.advance.issue h₁
  have hmoves := execute_moves h₂
  have hcount : Extends m₃ { m₃ with cycle := m₃.cycle + 1 } := .of_eq rfl rfl
  exact (hc.extends_advance.trans (hc.advance.extends_issue h₁)).trans
    ((hmoves.extends hc₁).trans (((hmoves.coherent hc₁).extends_writeBack h₃).trans hcount))

/-! ## The other stages -/

/-- **The Issue stage follows the replay.** -/
theorem Follows.issue (h : m.Follows start) (hm : m.issue = .ok m') :
    m'.Follows start ∧ Extends m m' := by
  have hc' := h.coherent.issue hm
  refine ⟨?_, h.coherent.extends_issue hm⟩
  rcases issue_eq_ok hm with ⟨i, s, n, hjump, hf, hs, hfree, rfl⟩ | rfl
  · have hunit : i.unit? = some s.kind := (fetch_eq_instruction hf).1
    exact ⟨hc', h.values.dispatched h.coherent hc' hjump hs hfree,
      h.memory.dispatched h.coherent hc' hs hfree,
      h.control.dispatched h.coherent hc' hjump hs hfree hunit⟩
  · exact h

/-- **The Writeback stage follows the replay.** -/
theorem Follows.writeBack (h : m.Follows start) (hm : m.writeBack = .ok m') :
    m'.Follows start ∧ Extends m m' := by
  have hc' := h.coherent.writeBack hm
  refine ⟨?_, h.coherent.extends_writeBack hm⟩
  rcases writeBack_cases hm with ⟨-, rfl⟩ | ⟨x, hx, rfl⟩
  · exact h
  · obtain ⟨hold, -⟩ := nextSender?_eq_some hx
    have hr : Released m (m.sent x) x.position x.occupant := released_sent
    exact ⟨hc', ValuesFollow.sent h.coherent hx h.values hc', h.memory.sent h.coherent hx,
      h.control.congr rfl rfl rfl rfl rfl fun e he hb =>
        hr.mem_flight_branch_iff h.coherent hold (kind_of_nextSender? hx).1 he hb⟩

/-- The cycle count is no part of what follows. -/
theorem Follows.count {c : Nat} (h : m.Follows start) : { m with cycle := c }.Follows start :=
  ⟨h.coherent.count, ⟨h.values.stations, h.values.committed⟩, ⟨h.memory.ordered, h.memory.contents⟩,
    ⟨h.control.next, h.control.pc⟩⟩

end Machine

/-! ## Acts are those of the replay -/

namespace Act

/-- The number of the instruction that acts. -/
def seq : Act → Int
  | write seq .. => seq
  | resolve seq _ => seq
  | send seq .. => seq

/-- **An act is that of the replay**: it is what the entry does when it is
performed in a state of the sequential machine. -/
def IsOf (st : State) (e : Entry) : Act → Prop
  | write _ a v => ∃ (b : Address) (w : Word),
      st.stores? e.instr = some (b, w) ∧ a = Word.toInt b ∧ v = w.toInt
  | resolve _ taken => e.instr.isBranch ∧ taken = st.branches e.instr
  | send _ tag v => tag = e.tag ∧ v = (st.resultOf e).toInt

end Act

namespace Machine

variable {m m' m'' : Machine} {n k : Nat} {s s' : Station} {o o' : Occupant} {e : Entry} {q : Int}
variable {start : State} {acts : List Act}

/-- **The act is by an instruction on the path, and is that of the replay.** -/
def Confirms (m : Machine) (start : State) (act : Act) : Prop :=
  ∃ e ∈ m.path, e.seq = act.seq ∧ act.IsOf (m.stateAt start e.seq) e

/-- What has been confirmed stays confirmed. -/
theorem Extends.confirms {act : Act} (h : Extends m m') (hc : m.Coherent) (hc' : m'.Coherent)
    (hact : m.Confirms start act) : m'.Confirms start act := by
  obtain ⟨e, he, hseq, hof⟩ := hact
  exact ⟨e, h.mem_path he, hseq, by rw [h.stateAt_eq hc hc' he]; exact hof⟩

/-- A branch that resolves goes where the replay goes. -/
theorem Follows.confirms_resolve (h : m.Follows start) (hold : m.Holds n s o)
    (path : m.OnPath o.seq) (kind : s.kind = .beq) (elapsed : s.latency ≤ o.cycles) :
    m.Confirms start (.resolve o.seq (taken o)) := by
  have hc := h.coherent
  obtain ⟨e, he, hof⟩ := hc.owner n s o hold
  refine ⟨e, hc.mem_path.2 ⟨he, hof.seq ▸ path⟩, hof.seq, ?_, ?_⟩
  · rw [hof.instr, ← hc.kind_eq_beq_iff hold, kind]
  · rw [hof.seq, hof.instr, ← h.values.taken_eq hc hold kind elapsed]

/-- **The acts of a move are those of the replay.** -/
theorem Move.confirms (hm : Move m acts m') (h : m.Follows start) {act : Act} (hact : act ∈ acts) :
    m.Confirms start act := by
  have hc := h.coherent
  cases hm with
  | @store n s o a v hold path kind due clear himm hk =>
    rw [List.mem_singleton.1 hact]
    obtain ⟨e, he, hof⟩ := hc.owner n s o hold
    refine ⟨e, hc.mem_path.2 ⟨he, hof.seq ▸ path⟩, hof.seq, a, Word.ofInt v, ?_, rfl, ?_⟩
    · rw [hof.seq, hof.instr]
      exact h.values.stores?_eq hc hold kind due himm hk
    · obtain ⟨rA, rB, off, hi⟩ := (hc.fits n s o hold).instr_eq kind
      rw [(h.values.stations n s o hold).k.value? (r := rA) (by rw [hi]; rfl) hk, Word.ofInt_toInt]
  | @fall n s o hold path kind elapsed htaken =>
    rw [List.mem_singleton.1 hact, ← htaken]
    exact h.confirms_resolve hold path kind elapsed
  | @branch n s o offset target i saved hold path kind elapsed htaken =>
    rw [List.mem_singleton.1 hact, ← htaken]
    exact h.confirms_resolve hold path kind elapsed
  | _ => cases hact

theorem Moves.confirms (hm : Moves m acts m') (h : m.Follows start) :
    ∀ act ∈ acts, m'.Confirms start act := by
  induction hm with
  | refl => exact fun act hact => by cases hact
  | cons first rest ih =>
    intro act hact
    have h₁ := first.follows h
    rcases List.mem_append.1 hact with hact | hact
    · exact ((first.extends h.coherent).trans (rest.extends h₁.coherent)).confirms h.coherent
        (rest.follows h₁).coherent (first.confirms h hact)
    · exact ih h₁ act hact

/-- **A cycle follows the replay**: the path grows at its end, and the acts
are those of the replay. -/
theorem Follows.step (h : m.Follows start) (hm : m.step = .ok m') :
    m'.Follows start ∧ Extends m m' ∧ ∀ act ∈ m.stepActs, m'.Confirms start act := by
  have hext := h.coherent.extends_step hm
  obtain ⟨m₁, m₂, m₃, h₁, h₂, h₃, rfl, hacts⟩ := step_eq_ok hm
  obtain ⟨hf₁, -⟩ := h.advance.issue h₁
  have hmoves := execute_moves h₂
  have hf₂ := hmoves.follows hf₁
  obtain ⟨hf₃, hext₃⟩ := hf₂.writeBack h₃
  have hcount : Extends m₃ { m₃ with cycle := m₃.cycle + 1 } := .of_eq rfl rfl
  refine ⟨hf₃.count, hext, ?_⟩
  intro act hact
  have hc₃ : Coherent { m₃ with cycle := m₃.cycle + 1 } := hf₃.count (c := m₃.cycle + 1) |>.coherent
  rw [hacts] at hact
  rcases List.mem_append.1 hact with hact | hact
  · exact (hext₃.trans hcount).confirms hf₂.coherent hc₃ (hmoves.confirms hf₁ act hact)
  · refine (hext₃.trans hcount).confirms hf₂.coherent hc₃ ?_
    rw [writeBackActs] at hact
    split at hact
    · cases hact
    · rename_i x hx
      rw [List.mem_singleton.1 hact]
      obtain ⟨hold, -, -, -, e, he, hseq⟩ := nextSender?_eq_some hx
      have hei := (hf₂.coherent.mem_path.1 he).1
      exact ⟨e, he, hseq, (hf₂.coherent.isOf hold hei hseq).tag.symm,
        ValuesFollow.value_eq hf₂.coherent hx hf₂.values hei hseq⟩

end Machine

end OutOfOrder
