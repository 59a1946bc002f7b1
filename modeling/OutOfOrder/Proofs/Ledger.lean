import Mathlib.Data.List.Nodup
import Mathlib.Data.List.Sigma
import OutOfOrder.Proofs.Histories
import OutOfOrder.Proofs.Inputs
/-!
# Nothing is lost, and nothing counts twice

An instruction goes through three histories. It is issued, executed and
written back, once each, and every time it is said to be the same
instruction in the same station. What has been issued has been written back
or is in a station, and never both (`histories_balance`).

Only a branch that is taken shortens a history, and only that of issues.
What it drops is speculative, so it is in flight without a result and has
not been executed. Hence what has been executed stays issued
(`Recorded.branched`).
-/

namespace OutOfOrder

/-- The instruction computes a result for the bus: it is a LOAD, ADD, SUB,
NOR or MUL. -/
def Instruction.broadcasts : Instruction → Bool
  | .load .. | .alu .. => true
  | _ => false

theorem Instruction.broadcasts_eq {i : Instruction} {kind : UnitKind} (h : i.unit? = some kind) :
    i.broadcasts = kind.usesBus := by
  rcases i with _ | _ | _ | _ | _ | ⟨op, _, _, _⟩ | _ <;> cases h <;> try rfl
  cases op <;> rfl

/-- What a history says of an instruction, whenever it is said. -/
def Entry.untimed (e : Entry) : Entry := { e with cycle := 0 }

theorem Entry.seq_eq_of_untimed {e x : Entry} (h : x.untimed = e.untimed) : x.seq = e.seq := by
  have := congrArg Entry.seq h
  exact this

namespace Machine

variable {m m' : Machine} {n k : Nat} {s s' : Station} {o o' : Occupant} {e x : Entry} {q : Int}

/-- **What the stations hold**, as a history would say it. The tag is the
position of the station. -/
def held (m : Machine) : List Entry :=
  m.stations.zipIdx.filterMap fun (s, n) => s.occupant.map fun o =>
    ⟨o.instr, 0, s.name, n, o.pc, o.seq⟩

/-- **The histories of executions and write-backs are right.** -/
structure Recorded (m : Machine) : Prop where
  /-- What has been executed was issued. -/
  issued : ∀ x ∈ m.executed, ∃ e ∈ m.issued, x.untimed = e.untimed
  /-- What has been written back has been executed. -/
  executed : ∀ x ∈ m.writtenBack, ∃ y ∈ m.executed, x.untimed = y.untimed
  /-- Nothing is executed twice. -/
  executedOnce : (m.executed.map Entry.seq).Nodup
  /-- Nothing is written back twice. -/
  writtenOnce : (m.writtenBack.map Entry.seq).Nodup
  /-- What a station holds has been executed if it has its result, and not
  before. -/
  results : ∀ n s o, m.Holds n s o → (o.seq ∈ m.executed.map Entry.seq ↔ s.result.isSome)
  /-- Each broadcast writes one instruction back, and no other way does so
  for the instructions that use the bus. -/
  counted : m.broadcasts = m.writtenBack.countP fun x => x.instr.broadcasts

/-- **The histories balance.** What has been issued, in the order of issue,
is what has been written back and what the stations hold. -/
structure Balanced (m : Machine) : Prop extends Recorded m where
  inOrder : InOrder m.issued
  fresh : ∀ e ∈ m.issued, e.seq < m.nextSeq
  parts : (m.issued.map Entry.untimed).Perm (m.writtenBack.map Entry.untimed ++ m.held)
  apart : ∀ x ∈ m.writtenBack, ∀ e ∈ m.held, x.seq ≠ e.seq

/-! ## What the stations hold -/

theorem mem_held :
    e ∈ m.held ↔ ∃ n s o, m.Holds n s o ∧ e = ⟨o.instr, 0, s.name, n, o.pc, o.seq⟩ := by
  simp only [held, List.mem_filterMap, Option.map_eq_some_iff, Prod.exists,
    List.mem_zipIdx_iff_getElem?, Holds]
  constructor
  · rintro ⟨s, n, hs, o, ho, rfl⟩
    exact ⟨n, s, o, ⟨hs, ho⟩, rfl⟩
  · rintro ⟨n, s, o, ⟨hs, ho⟩, rfl⟩
    exact ⟨s, n, hs, o, ho, rfl⟩

theorem seq_mem_flight_of_mem_held (he : e ∈ m.held) : e.seq ∈ m.flight := by
  obtain ⟨n, s, o, hold, rfl⟩ := mem_held.1 he
  exact hold.mem_flight

/-- No number is held twice. -/
theorem Coherent.nodup_held (hc : m.Coherent) : (m.held.map Entry.seq).Nodup := by
  have hzip : m.stations.zipIdx.Pairwise fun a b => a.2 ≠ b.2 :=
    List.pairwise_map.1 (List.nodup_zipIdx_map_snd m.stations)
  refine List.pairwise_map.2 (List.Pairwise.filterMap _ ?_ (List.Pairwise.and_mem.1 hzip))
  rintro ⟨s, n⟩ ⟨s', k⟩ ⟨ha, hb, hne⟩ x hx y hy hseq
  obtain ⟨o, ho, rfl⟩ := Option.map_eq_some_iff.1 hx
  obtain ⟨o', ho', rfl⟩ := Option.map_eq_some_iff.1 hy
  exact hne (hc.position_eq ⟨List.mem_zipIdx_iff_getElem?.1 ha, ho⟩
    ⟨List.mem_zipIdx_iff_getElem?.1 hb, ho'⟩ hseq)

/-- The entry of an instruction in flight says what its station holds. -/
theorem Coherent.untimed_eq (hc : m.Coherent) (hold : m.Holds n s o) (he : e ∈ m.issued)
    (hseq : e.seq = o.seq) : e.untimed = ⟨o.instr, 0, s.name, n, o.pc, o.seq⟩ := by
  have hof := hc.isOf hold he hseq
  rw [Entry.untimed, hof.instr, hof.station, hc.tag_eq hold he hseq, hof.pc, hof.seq]

/-- And so does what the histories are going to say of it. -/
theorem Coherent.exists_untimed_entry (hc : m.Coherent) (hold : m.Holds n s o) :
    ∃ e ∈ m.issued, e.seq = o.seq ∧ (m.entry s o).untimed = e.untimed := by
  obtain ⟨e, he, hof⟩ := hc.owner n s o hold
  refine ⟨e, he, hof.seq, ?_⟩
  rw [Entry.untimed, Entry.untimed, entry, hof.instr, hof.station, hof.tag, hof.pc, hof.seq]

/-! ## What keeps the histories right -/

namespace Recorded

/-- A number that was executed was issued. -/
theorem exists_of_seq (h : m.Recorded) (hq : q ∈ m.executed.map Entry.seq) :
    ∃ e ∈ m.issued, e.seq = q := by
  obtain ⟨x, hx, rfl⟩ := List.mem_map.1 hq
  obtain ⟨e, he, heq⟩ := h.issued x hx
  exact ⟨e, he, (Entry.seq_eq_of_untimed heq).symm⟩

/-- A number that was written back was executed. -/
theorem seq_of_written (h : m.Recorded) (hq : q ∈ m.writtenBack.map Entry.seq) :
    q ∈ m.executed.map Entry.seq := by
  obtain ⟨x, hx, rfl⟩ := List.mem_map.1 hq
  obtain ⟨y, hy, heq⟩ := h.executed x hx
  exact List.mem_map.2 ⟨y, hy, (Entry.seq_eq_of_untimed heq).symm⟩

/-- An instruction in flight without a result has not been executed. -/
theorem not_executed (h : m.Recorded) (hold : m.Holds n s o) (hres : s.result = none) :
    o.seq ∉ m.executed.map Entry.seq := by
  rw [h.results n s o hold, hres]
  exact Bool.false_ne_true

/-- What was issued after a pending branch waits in its station, so it has
not been executed. -/
theorem not_executed_of_lt (h : m.Recorded) (hc : m.Coherent) (hold : m.Holds n s o)
    (kind : s.kind = .beq) (he : e ∈ m.issued) (hlt : o.seq < e.seq) :
    e.seq ∉ m.executed.map Entry.seq := by
  have hspec : ¬ m.OnPath e.seq := fun hpath => Int.not_lt.2 (hpath n s o hold kind) hlt
  obtain ⟨k, s', o', hold', hseq⟩ := mem_flight.1 (hc.aloft e he hspec)
  rw [← hseq]
  exact h.not_executed hold' (hc.waiting k s' o' hold' (hseq ▸ hspec)).1

/-- Nothing enters a history, and results stay where they are. -/
theorem congr (h : m.Recorded)
    (horigin : ∀ k s' o', m'.Holds k s' o' →
      ∃ s o, m.Holds k s o ∧ s'.result.isSome = s.result.isSome ∧ o'.seq = o.seq)
    (hissued : m'.issued = m.issued) (hexecuted : m'.executed = m.executed)
    (hwritten : m'.writtenBack = m.writtenBack) (hcount : m'.broadcasts = m.broadcasts) :
    m'.Recorded where
  issued := by rw [hexecuted, hissued]; exact h.issued
  executed := by rw [hexecuted, hwritten]; exact h.executed
  executedOnce := by rw [hexecuted]; exact h.executedOnce
  writtenOnce := by rw [hwritten]; exact h.writtenOnce
  results k s' o' hold' := by
    obtain ⟨s, o, hold, hres, hseq⟩ := horigin k s' o' hold'
    rw [hexecuted, hres, hseq]
    exact h.results k s o hold
  counted := by rw [hcount, hwritten]; exact h.counted

/-- Once the history has one more entry, it has no number twice. -/
theorem nodup_concat {l : List Entry} (h : (l.map Entry.seq).Nodup)
    (hx : x.seq ∉ l.map Entry.seq) : ((l ++ [x]).map Entry.seq).Nodup := by
  rw [List.map_append, List.map_singleton]
  refine List.nodup_append.2 ⟨h, List.nodup_singleton _, fun a ha b hb => ?_⟩
  rw [List.mem_singleton.1 hb]
  rintro rfl
  exact hx ha

theorem mem_seq_concat {l : List Entry} :
    q ∈ (l ++ [x]).map Entry.seq ↔ q ∈ l.map Entry.seq ∨ q = x.seq := by
  rw [List.map_append, List.mem_append, List.map_singleton, List.mem_singleton]

/-- **A station gets its result**, and its instruction is executed. -/
theorem resulted {v : Int} (h : m.Recorded) (hc : m.Coherent) (hold : m.Holds n s o)
    (hres : s.result = none) : (m.resulted n s o v).Recorded := by
  have hnew := h.not_executed hold hres
  refine ⟨fun x hx => ?_, fun x hx => ?_, nodup_concat h.executedOnce hnew, h.writtenOnce,
    fun k s' o' hold' => ?_, h.counted⟩
  · rcases List.mem_append.1 hx with hx | hx
    · exact h.issued x hx
    · obtain ⟨e, he, -, heq⟩ := hc.exists_untimed_entry hold
      exact ⟨e, he, by rw [List.mem_singleton.1 hx, heq]⟩
  · obtain ⟨y, hy, heq⟩ := h.executed x hx
    exact ⟨y, List.mem_append_left _ hy, heq⟩
  · refine mem_seq_concat.trans ?_
    rcases (holds_resulted hold).1 hold' with ⟨-, rfl, rfl⟩ | ⟨hk, hold'⟩
    · exact iff_of_true (.inr rfl) rfl
    · rw [h.results k s' o' hold', or_iff_left]
      exact fun hseq => hk (hc.position_eq hold' hold hseq)

/-- **An instruction finishes in the Execute stage.** It is executed and
written back at once, leaves its station, and drops nothing that has been
executed. -/
theorem finished (h : m.Recorded) (hc : m.Coherent) (hold : m.Holds n s o)
    (hbus : s.kind.usesBus = false)
    (horigin : ∀ k s' o', m'.Holds k s' o' → k ≠ n ∧ m.Holds k s' o')
    (hissued : ∀ e ∈ m.issued, e.seq = o.seq ∨ e.seq ∈ m.executed.map Entry.seq → e ∈ m'.issued)
    (hexecuted : m'.executed = m.executed ++ [m.entry s o])
    (hwritten : m'.writtenBack = m.writtenBack ++ [m.entry s o])
    (hcount : m'.broadcasts = m.broadcasts) : m'.Recorded := by
  have hnew := h.not_executed hold (hc.result_eq_none_of_usesBus hold hbus)
  constructor
  case issued =>
    intro x hx
    rw [hexecuted] at hx
    rcases List.mem_append.1 hx with hx | hx
    · obtain ⟨e, he, heq⟩ := h.issued x hx
      refine ⟨e, hissued e he (.inr ?_), heq⟩
      exact Entry.seq_eq_of_untimed heq ▸ List.mem_map_of_mem hx
    · obtain ⟨e, he, hseq, heq⟩ := hc.exists_untimed_entry hold
      exact ⟨e, hissued e he (.inl hseq), by rw [List.mem_singleton.1 hx, heq]⟩
  case executed =>
    intro x hx
    rw [hwritten] at hx
    rw [hexecuted]
    rcases List.mem_append.1 hx with hx | hx
    · obtain ⟨y, hy, heq⟩ := h.executed x hx
      exact ⟨y, List.mem_append_left _ hy, heq⟩
    · exact ⟨x, List.mem_append_right _ hx, rfl⟩
  case executedOnce =>
    rw [hexecuted]
    exact nodup_concat h.executedOnce hnew
  case writtenOnce =>
    rw [hwritten]
    exact nodup_concat h.writtenOnce fun hq => hnew (h.seq_of_written hq)
  case results =>
    intro k s' o' hold'
    obtain ⟨hk, hold'⟩ := horigin k s' o' hold'
    rw [hexecuted, mem_seq_concat, h.results k s' o' hold', or_iff_left]
    exact fun hseq => hk (hc.position_eq hold' hold hseq)
  case counted =>
    have hno : (m.entry s o).instr.broadcasts = false :=
      (Instruction.broadcasts_eq (hc.fits n s o hold).unit).trans hbus
    rw [hcount, hwritten, List.countP_append, List.countP_singleton, hno]
    exact h.counted

/-- **A branch is taken.** What it drops was issued after it, so it is in
flight and has no result. -/
theorem branched {i : Nat} {target : Word} {saved : StatusTable} (h : m.Recorded)
    (hc : m.Coherent) (hold : m.Holds n s o) (kind : s.kind = .beq)
    (hfind : (m.issued.findIdx? fun e => e.seq = o.seq) = some i) :
    (m.branched n s o target (m.issued.take (i + 1)) saved).Recorded := by
  obtain ⟨b, hb, hof⟩ := hc.owner n s o hold
  rw [hc.kept_eq hfind hb hof.seq]
  refine h.finished hc hold (by rw [kind]; rfl) (fun k s' o' hold' => ?_) (fun e he hdone => ?_)
    rfl rfl rfl
  · obtain ⟨h', hlt⟩ := (holds_branched hc hold).1 hold'
    refine ⟨?_, h'⟩
    rintro rfl
    rw [(h'.unique hold).2] at hlt
    exact Int.lt_irrefl _ hlt
  · rw [mem_issued_branched]
    rcases Int.lt_trichotomy e.seq o.seq with hlt | hseq | hlt
    · exact .inl ⟨he, hlt⟩
    · exact .inr (hc.inOrder.eq_of_seq_eq he hb (hseq.trans hof.seq.symm))
    · exact absurd (hdone.resolve_left (by omega)) (h.not_executed_of_lt hc hold kind he hlt)

theorem move {acts : List Act} (h : m.Recorded) (hc : m.Coherent) (hm : Move m acts m') :
    m'.Recorded := by
  cases hm with
  | address hold =>
    refine h.congr (fun k s' o' hold' => ?_) rfl rfl rfl rfl
    rcases (holds_setStation hold.lt_length).1 hold' with ⟨rfl, rfl, ho⟩ | ⟨-, hold'⟩
    · rw [Station.withAddress_occupant hold.2] at ho
      exact ⟨_, _, hold, rfl, by rw [← Option.some.inj ho]⟩
    · exact ⟨s', o', hold', rfl, rfl⟩
  | load hold path kind due =>
    simp only [accessDue, Bool.and_eq_true, Option.isNone_iff_eq_none] at due
    exact h.resulted hc hold due.1.2
  | compute hold path hinstr fresh => exact h.resulted hc hold fresh
  | @store n s o a v hold path kind =>
    exact h.finished hc hold (by rw [kind]; rfl)
      (fun _ _ _ => (holds_finish (m := m.stored a v) hold.lt_length).1) (fun _ he _ => he) rfl rfl
      rfl
  | @fall n s o hold path kind =>
    exact h.finished hc hold (by rw [kind]; rfl)
      (fun _ _ _ => (holds_finish (o := o) hold.lt_length).1) (fun _ he _ => he) rfl rfl rfl
  | branch hold path kind elapsed htaken himm htarget hfind => exact h.branched hc hold kind hfind
  | @call n s o target hold path kind =>
    exact h.finished hc hold (by rw [kind]; rfl)
      (fun _ _ _ => (holds_finish (m := m.called o target) hold.lt_length).1) (fun _ he _ => he)
      rfl rfl rfl
  | @ret n s o target hold path kind =>
    refine h.finished hc hold (by rw [kind]; rfl) (fun k s' o' hold' => ?_) (fun _ he _ => he)
      rfl rfl rfl
    have hlen : n < (m.returned n s o target).stations.length := by
      simpa [returned] using hold.lt_length
    obtain ⟨hk, hold'⟩ := (holds_finish (o := o) hlen).1 hold'
    exact ⟨hk, holds_returned hold hold' hk⟩

theorem moves {acts : List Act} (h : m.Recorded) (hc : m.Coherent) (hm : Moves m acts m') :
    m'.Recorded := by
  induction hm with
  | refl => exact h
  | cons first rest ih => exact ih (h.move hc first) (first.coherent hc)

theorem advance (h : m.Recorded) : m.advance.Recorded := by
  refine h.congr (fun k s' o' hold' => ?_) rfl rfl rfl rfl
  obtain ⟨s, o, hold, rfl, rfl⟩ := holds_advance.1 hold'
  exact ⟨s, o, hold, by rw [s.advance_toSlot.2], by rw [tick_eq]⟩

/-- What is issued now has a new number, and a station without a result. -/
theorem issue (h : m.Recorded) (hc : m.Coherent) (hm : m.issue = .ok m') : m'.Recorded := by
  rcases issue_eq_ok hm with ⟨i, s, n, -, -, hs, hfree, rfl⟩ | rfl
  · refine ⟨fun x hx => ?_, h.executed, h.executedOnce, h.writtenOnce, fun k s' o' hold' => ?_,
      h.counted⟩
    · obtain ⟨e, he, heq⟩ := h.issued x hx
      exact ⟨e, mem_issued_dispatched.2 (.inl he), heq⟩
    · rcases (holds_dispatched (List.getElem?_eq_some_iff.1 hs).1).1 hold' with
        ⟨-, rfl, rfl⟩ | ⟨-, hold'⟩
      · refine iff_of_false (fun hq => ?_) Bool.false_ne_true
        obtain ⟨e, he, hseq⟩ := h.exists_of_seq hq
        exact absurd (hc.fresh e he) (Int.not_lt.2 (Int.le_of_eq hseq.symm))
      · exact h.results k s' o' hold'
  · exact h

/-- What is sent has been executed, and is written back now. -/
theorem writeBack (h : m.Recorded) (hc : m.Coherent) (ha : m.Accounted)
    (hm : m.writeBack = .ok m') : m'.Recorded := by
  rcases writeBack_cases hm with ⟨-, rfl⟩ | ⟨x, hx, rfl⟩
  · exact h
  obtain ⟨hold, hres, hbus, -⟩ := nextSender?_eq_some hx
  have hwritten : (m.sent x).writtenBack = m.writtenBack ++ [m.entry x.station x.occupant] := rfl
  refine ⟨h.issued, fun w hw => ?_, h.executedOnce, ?_, fun k s' o' hold' => ?_, ?_⟩
  · rw [hwritten] at hw
    rcases List.mem_append.1 hw with hw | hw
    · exact h.executed w hw
    · have hdone := (h.results _ _ _ hold).2 (by rw [hres]; rfl)
      obtain ⟨y, hy, hseq⟩ := List.mem_map.1 hdone
      obtain ⟨e, he, heq⟩ := h.issued y hy
      obtain ⟨e', he', hseq', heq'⟩ := hc.exists_untimed_entry hold
      obtain rfl := hc.inOrder.eq_of_seq_eq he he'
        ((Entry.seq_eq_of_untimed heq).symm.trans (hseq.trans hseq'.symm))
      exact ⟨y, hy, by rw [List.mem_singleton.1 hw, heq, heq']⟩
  · refine nodup_concat h.writtenOnce fun hq => ?_
    -- What has been written back is in no station.
    obtain ⟨w, hw, hseq⟩ := List.mem_map.1 hq
    obtain ⟨e, -, heq, hgone⟩ := ha.left w hw
    refine hgone ?_
    rw [← show w.seq = e.seq by rw [heq], hseq]
    exact hold.mem_flight
  · obtain ⟨-, s, o, h', rfl, rfl⟩ := holds_sent.1 hold'
    rw [(s.told_toSlot ..).2]
    exact h.results k s o h'
  · have hyes : (m.entry x.station x.occupant).instr.broadcasts = true :=
      (Instruction.broadcasts_eq (hc.fits _ _ _ hold).unit).trans hbus
    rw [hwritten, List.countP_append, List.countP_singleton, hyes, ← h.counted]
    rfl

/-- **A cycle keeps the histories right.** -/
theorem step (h : m.Recorded) (hc : m.Coherent) (ha : m.Accounted) (hm : m.step = .ok m') :
    m'.Recorded := by
  obtain ⟨m₁, m₂, m₃, h₁, h₂, h₃, rfl, -⟩ := step_eq_ok hm
  have hc₁ := hc.advance.issue h₁
  have hmoves := execute_moves h₂
  have h₃ := ((h.advance.issue hc.advance h₁).moves hc₁ hmoves).writeBack (hmoves.coherent hc₁)
    ((ha.advance.issue hc.advance h₁).moves hc₁ hmoves) h₃
  exact h₃.congr (fun _ s o hold => ⟨s, o, hold, rfl, rfl⟩) rfl rfl rfl rfl

/-- A station is added. It holds nothing. -/
theorem add (h : m.Recorded) (slot : Slot) :
    Recorded { m with stations := m.stations ++ [Station.ofSlot slot] } :=
  h.congr (fun _ s o hold => ⟨s, o, holds_added.1 hold, rfl, rfl⟩) rfl rfl rfl rfl

theorem configures (h : m.Recorded) (hm : Configures m m') : m'.Recorded := by
  rcases hm.added_or_loads with ⟨slot, -, rfl⟩ | ⟨_, _, _, _, rfl⟩
  · exact h.add slot
  · exact h.congr (fun _ s o hold => ⟨s, o, hold, rfl, rfl⟩) rfl rfl rfl rfl

end Recorded

theorem Reachable.recorded (h : Reachable m) : m.Recorded := by
  induction h with
  | made h =>
    refine ofTable_induction (fun _ slot h _ => h.add slot) ?_ h
    exact ⟨nofun, nofun, List.nodup_nil, List.nodup_nil,
      fun _ _ _ hold => absurd hold (fresh_bare _ _).not_holds, rfl⟩
  | call _ call ih => exact ih.configures call
  | step h hm ih => exact ih.step h.coherent h.accounted hm

/-! ## The histories grow at their ends -/

/-- A move adds at most one entry to a history, at its end. -/
theorem Move.history_eq {acts : List Act} (hm : Move m acts m') :
    (m'.executed = m.executed ∨ ∃ x, m'.executed = m.executed ++ [x]) ∧
      (m'.writtenBack = m.writtenBack ∨ ∃ x, m'.writtenBack = m.writtenBack ++ [x]) := by
  cases hm with
  | address => exact ⟨.inl rfl, .inl rfl⟩
  | load | compute => exact ⟨.inr ⟨_, rfl⟩, .inl rfl⟩
  | _ => exact ⟨.inr ⟨_, rfl⟩, .inr ⟨_, rfl⟩⟩

theorem prefix_of_concat {l l' : List Entry} (h : l' = l ∨ ∃ x, l' = l ++ [x]) : l <+: l' := by
  rcases h with rfl | ⟨x, rfl⟩
  · exact List.prefix_refl _
  · exact List.prefix_append _ _

theorem Moves.executed_grows {acts : List Act} (hm : Moves m acts m') :
    m.executed <+: m'.executed ∧ m.writtenBack <+: m'.writtenBack := by
  induction hm with
  | refl => exact ⟨List.prefix_refl _, List.prefix_refl _⟩
  | cons first rest ih =>
    obtain ⟨hexecuted, hwritten⟩ := first.history_eq
    exact ⟨(prefix_of_concat hexecuted).trans ih.1, (prefix_of_concat hwritten).trans ih.2⟩

/-- **Nothing is taken back** of what has been executed or written back. -/
theorem executed_grows_of_step (hm : m.step = .ok m') :
    m.executed <+: m'.executed ∧ m.writtenBack <+: m'.writtenBack := by
  obtain ⟨m₁, m₂, m₃, h₁, h₂, h₃, rfl, -⟩ := step_eq_ok hm
  have hissue : m₁.executed = m.executed ∧ m₁.writtenBack = m.writtenBack := by
    rcases issue_eq_ok h₁ with ⟨i, s, n, -, -, -, -, rfl⟩ | rfl <;> exact ⟨rfl, rfl⟩
  have hwriteBack : m₂.executed = m₃.executed ∧ m₂.writtenBack <+: m₃.writtenBack := by
    rcases writeBack_cases h₃ with ⟨-, rfl⟩ | ⟨x, -, rfl⟩
    · exact ⟨rfl, List.prefix_refl _⟩
    · exact ⟨rfl, List.prefix_append _ _⟩
  obtain ⟨hexecuted, hwritten⟩ := (execute_moves h₂).executed_grows
  rw [hissue.1, hwriteBack.1] at hexecuted
  rw [hissue.2] at hwritten
  exact ⟨hexecuted, hwritten.trans hwriteBack.2⟩

theorem executed_grows_of_undergo {inputs : List Input}
    (hm : m.undergo Machine.step inputs = .ok m') :
    m.executed <+: m'.executed ∧ m.writtenBack <+: m'.writtenBack := by
  induction inputs generalizing m with
  | nil =>
    cases hm
    exact ⟨List.prefix_refl _, List.prefix_refl _⟩
  | cons v inputs ih =>
    obtain ⟨m₁, h₁, hrest⟩ := undergo_cons_eq_ok.1 hm
    have hfirst : m.executed <+: m₁.executed ∧ m.writtenBack <+: m₁.writtenBack := by
      cases v with
      | call c =>
        cases h₁
        rcases configures_afterCall m c with hconf | heq
        · rcases hconf.added_or_loads with ⟨slot, -, heq⟩ | ⟨_, _, _, _, heq⟩ <;> rw [heq] <;>
            exact ⟨List.prefix_refl _, List.prefix_refl _⟩
        · rw [heq]
          exact ⟨List.prefix_refl _, List.prefix_refl _⟩
      | cycle => exact executed_grows_of_step h₁
    exact ⟨hfirst.1.trans (ih hrest).1, hfirst.2.trans (ih hrest).2⟩

/-! ## The balance -/

/-- What has been issued is in one of two places. -/
theorem Coherent.mem_untimed_issued_iff (hc : m.Coherent) (ha : m.Accounted) :
    e ∈ m.issued.map Entry.untimed ↔ e ∈ m.writtenBack.map Entry.untimed ∨ e ∈ m.held := by
  constructor
  · intro he
    obtain ⟨w, hw, rfl⟩ := List.mem_map.1 he
    rcases ha.settled w hw with hf | ⟨x, hx, hseq⟩
    · obtain ⟨n, s, o, hold, hseq⟩ := mem_flight.1 hf
      exact .inr (mem_held.2 ⟨n, s, o, hold, hc.untimed_eq hold hw hseq.symm⟩)
    · obtain ⟨e', he', heq, -⟩ := ha.left x hx
      obtain rfl := hc.inOrder.eq_of_seq_eq he' hw (by rw [← hseq, heq])
      exact .inl (List.mem_map.2 ⟨x, hx, by rw [heq]; rfl⟩)
  · rintro (he | he)
    · obtain ⟨x, hx, rfl⟩ := List.mem_map.1 he
      obtain ⟨e, he, heq, -⟩ := ha.left x hx
      exact List.mem_map.2 ⟨e, he, by rw [heq]; rfl⟩
    · obtain ⟨n, s, o, hold, rfl⟩ := mem_held.1 he
      obtain ⟨e, he, hof⟩ := hc.owner n s o hold
      exact List.mem_map.2 ⟨e, he, hc.untimed_eq hold he hof.seq⟩

/-- **A reachable machine balances.** -/
theorem Reachable.balanced (h : Reachable m) : m.Balanced := by
  have hc := h.coherent
  have ha := h.accounted
  have hr := h.recorded
  have apart : ∀ x ∈ m.writtenBack, ∀ e ∈ m.held, x.seq ≠ e.seq := by
    intro x hx e he hseq
    obtain ⟨e', -, heq, hgone⟩ := ha.left x hx
    refine hgone ?_
    rw [← show x.seq = e'.seq by rw [heq], hseq]
    exact seq_mem_flight_of_mem_held he
  have hissued : (m.issued.map Entry.untimed).Nodup :=
    List.pairwise_map.2 (hc.inOrder.imp fun hlt heq =>
      Int.ne_of_lt hlt (Entry.seq_eq_of_untimed heq))
  have hparts : (m.writtenBack.map Entry.untimed ++ m.held).Nodup := by
    refine List.Nodup.of_map Entry.seq ?_
    rw [List.map_append, List.map_map, show Entry.seq ∘ Entry.untimed = Entry.seq from rfl]
    refine List.nodup_append.2 ⟨hr.writtenOnce, hc.nodup_held, fun a ha b hb => ?_⟩
    obtain ⟨x, hx, rfl⟩ := List.mem_map.1 ha
    obtain ⟨e, he, rfl⟩ := List.mem_map.1 hb
    exact apart x hx e he
  refine { hr with inOrder := hc.inOrder, fresh := hc.fresh, parts := ?_, apart := apart }
  rw [List.perm_ext_iff_of_nodup hissued hparts]
  exact fun e => (hc.mem_untimed_issued_iff ha).trans List.mem_append.symm

/-- **No instruction is lost or counted twice.** The histories balance, and
whatever is done with the machine from now on, they only grow at their
ends; so nothing that has been executed is ever dropped. -/
theorem histories_balance (h : Reachable m) :
    m.Balanced ∧ ∀ inputs m', m.undergo Machine.step inputs = .ok m' →
      m.executed <+: m'.executed ∧ m.writtenBack <+: m'.writtenBack ∧
        ∀ x ∈ m.executed, ∃ e ∈ m'.issued, x.untimed = e.untimed := by
  refine ⟨h.balanced, fun inputs m' hm => ?_⟩
  obtain ⟨hexecuted, hwritten⟩ := executed_grows_of_undergo hm
  exact ⟨hexecuted, hwritten, fun x hx => (h.undergo hm).recorded.issued x (hexecuted.subset hx)⟩

/-- After five cycles of the sample an instruction is in flight and others
have been written back. -/
theorem histories_balance_sample :
    ∃ m, sample.steps 5 = .ok m ∧ m.held ≠ [] ∧ m.writtenBack ≠ [] ∧ m.Balanced := by
  obtain ⟨m, hm, h⟩ := exists_of_any (p := fun m => m.held ≠ [] ∧ m.writtenBack ≠ [])
    (x := sample.steps 5) (by decide +kernel)
  obtain ⟨hheld, hwritten⟩ := of_decide_eq_true h
  exact ⟨m, hm, hheld, hwritten, (histories_balance (configured_sample.reachable.steps hm)).1⟩

end Machine

end OutOfOrder
