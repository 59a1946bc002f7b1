import OutOfOrder.Proofs.Ledger
/-!
# The pending flags

The machine does not look through its stations to know whether a branch or a
jump is pending, and how much was issued since the oldest branch. It keeps
two flags and a count. They are changed when an instruction is issued and
when a jump resolves, and worked out anew when a branch resolves.

That the flags are right is part of coherence. That the count is right is
shown here (`Tallied`): a stage that keeps the history of issues and the path
keeps it (`Tallied.congr`), so the only stage with an argument is that of
issuing, where the new instruction counts exactly if a branch was pending.
`flags_tell` says what can be read off the flags.
-/

namespace OutOfOrder

namespace Machine

variable {m m' : Machine} {n : Nat} {s : Station} {o : Occupant} {q : Int}

/-! ## The count -/

/-- The count is that of the instructions beyond the barrier. -/
def Tallied (m : Machine) : Prop :=
  m.issuedAfterBranch = m.issued.countP fun e => speculative m.barrier e.seq

theorem speculative_barrier_congr (h : m'.OnPath q ↔ m.OnPath q) :
    speculative m'.barrier q = speculative m.barrier q := by
  rw [Bool.eq_iff_iff, ← not_iff_not, Bool.not_eq_true, Bool.not_eq_true,
    speculative_barrier_eq_false_iff, speculative_barrier_eq_false_iff, h]

namespace Tallied

/-- **The same history and the same path** have the same count. -/
theorem congr (h : m.Tallied) (hpath : ∀ q, m'.OnPath q ↔ m.OnPath q)
    (hissued : m'.issued = m.issued) (hcount : m'.issuedAfterBranch = m.issuedAfterBranch) :
    m'.Tallied := by
  rw [Tallied, hissued, hcount, h]
  exact List.countP_congr fun e _ => by rw [speculative_barrier_congr (hpath e.seq)]

/-- A branch that resolves has the count worked out again. -/
theorem move {acts : List Act} (h : m.Tallied) (hm : Move m acts m') : m'.Tallied := by
  cases hm with
  | address hold => exact h.congr (fun _ => (retimed_addressed hold).onPath_iff) rfl rfl
  | load hold => exact h.congr (fun _ => (retimed_resulted hold).onPath_iff) rfl rfl
  | compute hold => exact h.congr (fun _ => (retimed_resulted hold).onPath_iff) rfl rfl
  | store hold path kind =>
    exact h.congr (fun _ => (released_stored hold _ _).onPath_iff hold (by rw [kind]; decide)) rfl
      rfl
  | call hold path kind =>
    exact h.congr (fun _ => (released_called hold _).onPath_iff hold (by rw [kind]; decide)) rfl rfl
  | ret hold path kind =>
    exact h.congr (fun _ => (released_returned hold _).onPath_iff hold (by rw [kind]; decide)) rfl
      rfl
  | fall | branch => rfl

theorem moves {acts : List Act} (h : m.Tallied) (hm : Moves m acts m') : m'.Tallied := by
  induction hm with
  | refl => exact h
  | cons first rest ih => exact ih (h.move first)

theorem advance (h : m.Tallied) : m.advance.Tallied :=
  h.congr (fun _ => retimed_advance.onPath_iff) rfl rfl

/-- **The Issue stage counts the new instruction** if a branch is pending, and
then it is speculative. Otherwise nothing is, the new instruction included. -/
theorem issue (h : m.Tallied) (hc : m.Coherent) (hm : m.issue = .ok m') : m'.Tallied := by
  rcases issue_eq_ok hm with ⟨i, s, n, -, -, hs, hfree, rfl⟩ | rfl
  swap
  · exact h
  have hspec : ∀ q, q ≤ m.nextSeq →
      speculative (m.dispatched i s n).barrier q = speculative m.barrier q := fun q hq =>
    speculative_barrier_congr (onPath_dispatched_iff hs hfree hq)
  have hnew : speculative m.barrier m.nextSeq = m.branchPending := by
    rw [Bool.eq_iff_iff, hc.branchFlag, ← not_iff_not, Bool.not_eq_true,
      speculative_barrier_eq_false_iff]
    constructor
    · rintro hpath ⟨k, s', o', hold, kind⟩
      exact Int.not_lt.2 (hpath k s' o' hold kind) (hc.owned_seq_lt hold)
    · exact fun hnone k s' o' hold kind => absurd ⟨k, s', o', hold, kind⟩ hnone
  change m.issuedAfterBranch + _ = (m.issued ++ [m.issueEntry i s]).countP _
  rw [h, List.countP_append, List.countP_singleton,
    show (m.issueEntry i s).seq = m.nextSeq from rfl, hspec _ (Int.le_refl _), hnew]
  congr 1
  exact List.countP_congr fun e he => by rw [hspec e.seq (Int.le_of_lt (hc.fresh e he))]

/-- Who sends is no branch. -/
theorem writeBack (h : m.Tallied) (hm : m.writeBack = .ok m') : m'.Tallied := by
  rcases writeBack_cases hm with ⟨-, rfl⟩ | ⟨x, hx, rfl⟩
  · exact h
  · exact h.congr (fun _ => released_sent.onPath_iff (nextSender?_eq_some hx).1
      (kind_of_nextSender? hx).1) rfl rfl

/-- **A cycle keeps the count right.** -/
theorem step (h : m.Tallied) (hc : m.Coherent) (hm : m.step = .ok m') : m'.Tallied := by
  obtain ⟨m₁, m₂, m₃, h₁, h₂, h₃, rfl, -⟩ := step_eq_ok hm
  have h₃ := ((h.advance.issue hc.advance h₁).moves (execute_moves h₂)).writeBack h₃
  exact h₃.congr (fun _ => Iff.rfl) rfl rfl

theorem configures (h : m.Tallied) (hm : Configures m m') : m'.Tallied := by
  rcases hm.added_or_loads with ⟨slot, -, rfl⟩ | ⟨_, _, _, _, rfl⟩
  · exact h.congr (fun _ => by simp only [OnPath, holds_added]) rfl rfl
  · exact h.congr (fun _ => Iff.rfl) rfl rfl

end Tallied

theorem Reachable.tallied (h : Reachable m) : m.Tallied := by
  induction h with
  | made h =>
    exact ofTable_induction (P := Tallied)
      (fun _ _ h _ => h.congr (fun _ => by simp only [OnPath, holds_added]) rfl rfl) rfl h
  | call _ call ih => exact ih.configures call
  | step h hm ih => exact ih.step h.coherent hm

/-! ## What the flags tell -/

/-- The oldest pending branch: its station, and what the station holds. -/
structure OldestBranch (m : Machine) (s : Station) (o : Occupant) : Prop where
  holds : ∃ n, m.Holds n s o
  kind : s.kind = .beq
  oldest : m.OnPath o.seq

/-- While a branch is pending one of them is the oldest. -/
theorem exists_oldestBranch (h : ∃ n s o, m.Holds n s o ∧ s.kind = .beq) :
    ∃ s o, m.OldestBranch s o := by
  obtain ⟨b, hb⟩ := Option.isSome_iff_exists.1 (barrier_isSome_iff.2 h)
  obtain ⟨⟨n, s, o, hold, kind, rfl⟩, hpath⟩ := barrier_eq_some_iff.1 hb
  exact ⟨s, o, ⟨n, hold⟩, kind, hpath⟩

/-- **What the flags and the count are worth.** -/
structure FlagsTell (m : Machine) : Prop where
  /-- A branch is pending if one is in a station, and one of them is the
  oldest. -/
  branch : m.branchPending = true ↔ ∃ n s o, m.Holds n s o ∧ s.kind = .beq
  oldest : m.branchPending = true → ∃ s o, m.OldestBranch s o
  jump : m.jumpPending = true ↔ ∃ n s o, m.Holds n s o ∧ s.kind = .callRet
  /-- A jump in a station is the youngest instruction there, so there is no
  other jump. It is the last one that was issued. -/
  youngest : ∀ n s o, m.Holds n s o → s.kind = .callRet →
    (∀ k s' o', m.Holds k s' o' → k ≠ n → o'.seq < o.seq ∧ s'.kind ≠ .callRet) ∧
      ∃ e, m.issued.getLast? = some e ∧ e.IsOf s o
  /-- What counts is what was issued after the oldest branch. -/
  count : ∀ s o, m.OldestBranch s o →
    m.issuedAfterBranch = m.issued.countP fun e => o.seq < e.seq
  countNone : (∀ n s o, m.Holds n s o → s.kind ≠ .beq) → m.issuedAfterBranch = 0
  /-- What was issued after the oldest branch has not executed. -/
  waiting : ∀ s o, m.OldestBranch s o →
    (∀ k s' o', m.Holds k s' o' → o.seq < o'.seq → s'.result = none ∧ o'.addressReady = false) ∧
      ∀ x ∈ m.executed, x.seq < o.seq

/-- A jump in flight was issued after all the others in flight. -/
theorem Coherent.lt_of_callRet {k : Nat} {s' : Station} {o' : Occupant} (hc : m.Coherent)
    (hold : m.Holds n s o) (kind : s.kind = .callRet) (hold' : m.Holds k s' o') (hk : k ≠ n) :
    o'.seq < o.seq := by
  obtain ⟨e, he, hof⟩ := hc.owner k s' o' hold'
  have hle := hc.jumpLast n s o hold kind e he
  have hne : o'.seq ≠ o.seq := fun hseq => hk (hc.position_eq hold' hold hseq)
  have := hof.seq
  omega

/-- **What has been executed was issued before the oldest branch.** -/
theorem Recorded.lt_of_oldestBranch {x : Entry} (hr : m.Recorded) (hc : m.Coherent)
    (hb : m.OldestBranch s o) (hx : x ∈ m.executed) : x.seq < o.seq := by
  obtain ⟨n, hold⟩ := hb.holds
  have hexec : x.seq ∈ m.executed.map Entry.seq := List.mem_map_of_mem hx
  obtain ⟨e, he, hseq⟩ := hr.exists_of_seq hexec
  rcases Int.lt_trichotomy e.seq o.seq with hlt | heq | hlt
  · omega
  · rw [← hseq, heq] at hexec
    have hres := hc.result_eq_none_of_usesBus hold (by rw [hb.kind]; rfl)
    exact absurd hexec (hr.not_executed hold hres)
  · exact absurd (hseq ▸ hexec) (hr.not_executed_of_lt hc hold hb.kind he hlt)

/-- **The pending flags are true of every reachable machine.** -/
theorem flags_tell (h : Reachable m) : m.FlagsTell := by
  have hc := h.coherent
  have htally := h.tallied
  constructor
  case branch => exact hc.branchFlag
  case oldest => exact fun hpending => exists_oldestBranch (hc.branchFlag.1 hpending)
  case jump => exact hc.jumpFlag
  case youngest =>
    intro n s o hold kind
    refine ⟨fun k s' o' hold' hk => ⟨hc.lt_of_callRet hold kind hold' hk, fun kind' => ?_⟩, ?_⟩
    · exact hk (hc.position_eq_of_callRet hold' kind' hold kind)
    · obtain ⟨e, he, hof⟩ := hc.owner n s o hold
      refine ⟨e, hc.inOrder.getLast?_eq_some he fun x hx => ?_, hof⟩
      rw [hof.seq]
      exact hc.jumpLast n s o hold kind x hx
  case count =>
    rintro s o ⟨⟨n, hold⟩, kind, hpath⟩
    have hb : m.barrier = some o.seq := barrier_eq_some_iff.2 ⟨⟨n, s, o, hold, kind, rfl⟩, hpath⟩
    rw [htally, hb]
    rfl
  case countNone =>
    intro hnone
    rw [htally, barrier_eq_none_iff.2 hnone]
    exact List.countP_eq_zero.2 fun _ _ => Bool.false_ne_true
  case waiting =>
    intro s o hb
    refine ⟨fun k s' o' hold' hlt => hc.waiting k s' o' hold' fun hpath => ?_,
      fun x hx => h.recorded.lt_of_oldestBranch hc hb hx⟩
    obtain ⟨n, hold⟩ := hb.holds
    exact Int.not_lt.2 (hpath n s o hold hb.kind) hlt

/-- A program that branches over an instruction. -/
def branchingSample : Machine :=
  left (samplePool.loadProgram [.beq 0 0 1, .alu .add 1 2 3] 0 [] [])

/-- In its second cycle the instruction after the branch is issued, and
waits. -/
theorem flags_tell_branchingSample :
    ∃ m, branchingSample.steps 2 = .ok m ∧ m.branchPending = true ∧ m.issuedAfterBranch = 1 ∧
      m.FlagsTell := by
  have hreach : Reachable branchingSample :=
    (Configured.call configured_samplePool (.loadProgram ..)).reachable
  obtain ⟨m, hm, h⟩ := exists_of_any (x := branchingSample.steps 2)
    (p := fun m => m.branchPending ∧ m.issuedAfterBranch = 1) (by decide +kernel)
  obtain ⟨hpending, hcount⟩ := of_decide_eq_true h
  exact ⟨m, hm, hpending, hcount, flags_tell (hreach.steps hm)⟩

end Machine

end OutOfOrder
