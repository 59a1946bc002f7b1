import OutOfOrder.Proofs.Inputs
import OutOfOrder.Proofs.WrongPath.Lockstep
/-!
# The wrong path leaves no trace

`stepNoIssue` is a cycle without the Issue stage: a machine that goes on
with it waits for its pending branch, and one that goes on with `step`
issues what may have to be dropped.

In the Writeback stage of machines in lockstep the same result is sent
(`nextSender?_eq`), and it reaches the same registers (`hears_iff`). That is
not plain from their status tables, which differ in what speculative
instructions have renamed: it is written through, for the sake of the table
that the branch has saved. So a cycle keeps the machines in lockstep for as
long as the branch is pending, and when it is taken they are the same but
for how often the first one has issued (`traceless_of_steps`).

While older branches are pending as well the machines stay abreast of the
branch: of the older ones, each that falls through gives way to the next.
They also stay so when calls are made between the cycles, the same on both
(`Abreast.undergo`).
-/

namespace OutOfOrder

namespace Machine

variable {m m' m₁ m₁' z : Machine} {n k : Nat} {s : Station} {o : Occupant} {b e w : Entry}
variable {p q : Int} {l : List Entry} {r : Reg} {acts acts' : List Act} {x : Sender}

/-! ## Who sends -/

/-- **The same result is sent in both**, if what only the first machine has
issued has none. -/
theorem AgreeUpTo.nextSender?_eq (h : AgreeUpTo q m m') (hc : m.Coherent) (hc' : m'.Coherent)
    (quiet : ∀ n s o, m.Holds n s o → q < o.seq → s.result = none) :
    m'.nextSender? = m.nextSender? := by
  -- Up to the instruction both have the same results, and after it there are none.
  have hsender : ∀ e : Entry, e.seq ≤ q → m'.sender? e = m.sender? e := by
    intro e he
    simp only [sender?]
    rcases hocc : m.occupied? e.tag.toNat with - | ⟨s, o⟩
    · rw [h.occupied?_eq_none fun s o hold => absurd hold (occupied?_eq_none_iff.1 hocc s o)]
    · have hold := occupied?_eq_some_iff.1 hocc
      by_cases hle : o.seq ≤ q
      · rw [occupied?_eq_some_iff.2 (h.holds_iff.2 ⟨hold, hle⟩)]
      · rw [h.occupied?_eq_none fun s₁ o₁ hold₁ => by
          rw [← (hold.unique hold₁).2]
          exact Int.not_le.1 hle]
        simp only [quiet _ s o hold (Int.not_le.1 hle)]
  have hquiet : ∀ e : Entry, q < e.seq → m.sender? e = none := by
    intro e he
    rcases hx : m.sender? e with - | x
    · rfl
    · obtain ⟨hold, hres, -, -, hseq⟩ := sender?_eq_some hx
      rw [quiet _ _ _ hold (hseq ▸ he)] at hres
      cases hres
  -- The path of the one that waits is that of the other up to the instruction.
  have hpath : m'.path = m.path.filter fun e => e.seq ≤ q := by
    rw [hc'.path_eq_filter, hc.path_eq_filter, h.issued, List.filter_filter, List.filter_filter]
    refine List.filter_congr fun e _ => ?_
    by_cases hle : e.seq ≤ q
    · have hspec : speculative m'.barrier e.seq = speculative m.barrier e.seq := by
        rw [← Bool.not_inj_iff, Bool.eq_iff_iff, Bool.not_eq_true', Bool.not_eq_true',
          speculative_barrier_eq_false_iff, speculative_barrier_eq_false_iff]
        exact h.onPath_iff hle
      rw [hspec, Bool.and_comm]
    · simp only [hle, decide_false, Bool.and_false, Bool.false_and]
  change m'.path.findSome? m'.sender? = m.path.findSome? m.sender?
  rw [← List.head?_filterMap, ← List.head?_filterMap, hpath, List.filterMap_filter]
  congr 1
  refine List.filterMap_congr fun e _ => ?_
  by_cases hle : e.seq ≤ q
  · rw [if_pos (decide_eq_true hle), hsender e hle]
  · rw [if_neg (by simpa using hle), hquiet e (Int.not_le.1 hle)]

/-! ## Who hears -/

/-- The last writer of a register, if it was issued before the branch, is the
last one before the branch. -/
theorem producer?_before (hl : InOrder l) (hlc : InOrder (m.before q))
    (hsub : ∀ e ∈ m.before q, e ∈ l) (hw : m.producer? l r = some w) (hb : w ∈ m.before q) :
    m.producer? (m.before q) r = some w := by
  obtain ⟨hr, hlast, hf⟩ := producer?_eq_some_iff.1 hw
  obtain ⟨-, hwr, hmax⟩ := (lastWriter_eq_some_iff hl).1 hlast
  exact producer?_eq_some_iff.2 ⟨hr, (lastWriter_eq_some_iff hlc).2
    ⟨hb, hwr, fun e he => hmax e (hsub e he)⟩, hf⟩

/-- **The registers that hear a result are those that waited for it before
the branch.** -/
theorem Coherent.hears_iff (hc : m.Coherent) (hx : m.nextSender? = some x) (hold : m.Holds n s o)
    (kind : s.kind = .beq) (path : m.OnPath o.seq) :
    m.registers.hears x.station.tag (m.writeThrough x.station.tag) r ↔
      ∃ w, m.producer? (m.before o.seq) r = some w ∧ w.seq = x.occupant.seq := by
  obtain ⟨hsends, -, -, -, p, hp, hpseq⟩ := nextSender?_eq_some hx
  obtain ⟨b, hb, hof⟩ := hc.owner n s o hold
  have hlt : x.occupant.seq < o.seq := by
    refine lt_of_le_of_ne (hpseq ▸ (hc.mem_path.1 hp).2 n s o hold kind) fun hseq => ?_
    obtain rfl := hc.position_eq hsends hold hseq
    exact (kind_of_nextSender? hx).1 ((hsends.unique hold).1 ▸ kind)
  have hbefore : ∀ {w}, w ∈ m.issued → w.seq = x.occupant.seq → w ∈ m.before o.seq :=
    fun hw hseq => mem_before.2 ⟨hw, hseq ▸ hlt⟩
  have hin : InOrder (m.before o.seq) := hc.inOrder.filter _
  simp only [Registers.hears, Bool.and_eq_true, Bool.or_eq_true, decide_eq_true_eq]
  constructor
  · rintro ⟨-, hstatus | hsaved⟩
    · rw [hc.status r] at hstatus
      obtain ⟨w, hw, htag⟩ := Option.map_eq_some_iff.1 hstatus
      have hseq := (tag_eq_sender_iff hc hx mem_issued_of_renamers hw).1 htag
      refine ⟨w, producer?_before (hc.inOrder.filter _) hin (fun e he => ?_) hw
        (hbefore (mem_issued_of_renamers w (mem_of_producer? hw).1) hseq), hseq⟩
      -- A call in flight is the last instruction issued.
      obtain ⟨he, hlt⟩ := mem_before.1 he
      refine mem_renamers.2 ⟨he, fun hcall => ?_⟩
      have := hc.le_of_isCall he hcall.1 hcall.2 hb
      have := hof.seq
      omega
    · -- Another pending branch that has saved the tag is younger.
      obtain ⟨k, s₁, o₁, table, hold₁, kind₁, htable, htag⟩ := mem_writeThrough.1 hsaved
      obtain ⟨table', htable', hdesc⟩ := hc.saved k s₁ o₁ hold₁ kind₁
      obtain rfl : table = table' := Option.some.inj (htable.symm.trans htable')
      rw [hdesc r] at htag
      obtain ⟨w, hw, htag⟩ := Option.map_eq_some_iff.1 htag
      have hseq := (tag_eq_sender_iff hc hx mem_issued_of_before hw).1 htag
      refine ⟨w, producer?_before (hc.inOrder.filter _) hin (fun e he => ?_) hw
        (hbefore (mem_issued_of_before w (mem_of_producer? hw).1) hseq), hseq⟩
      obtain ⟨he, hlt⟩ := mem_before.1 he
      exact mem_before.2 ⟨he, lt_of_lt_of_le hlt (path k s₁ o₁ hold₁ kind₁)⟩
  · rintro ⟨w, hw, hseq⟩
    obtain ⟨table, htable, hdesc⟩ := hc.saved n s o hold kind
    refine ⟨(producer?_eq_some_iff.1 hw).1, .inr ?_⟩
    refine mem_writeThrough.2 ⟨n, s, o, table, hold, kind, htable, ?_⟩
    rw [hdesc r, hw, Option.map_some, (tag_eq_sender_iff hc hx mem_issued_of_before hw).2 hseq]

/-- **A result reaches the same in both.** -/
theorem AgreeUpTo.sent (h : AgreeUpTo q m m')
    (hears : ∀ r, m'.registers.hears x.station.tag (m'.writeThrough x.station.tag) r =
      m.registers.hears x.station.tag (m.writeThrough x.station.tag) r) :
    AgreeUpTo q (m.sent x) (m'.sent x) :=
  { h with
    stations := by
      refine List.ext_getElem? fun k => ?_
      simp only [Machine.sent, deliver, h.stations, List.getElem?_mapIdx, List.getElem?_map,
        Option.map_map]
      congr 1
      funext s
      simp only [Function.comp_apply]
      split
      · rw [clear_squash, squash_clear]
      · exact (squash_told s ..).symm
    values := by
      refine congrArg Vector.ofFn (funext fun r => ?_)
      change (if m'.registers.hears x.station.tag (m'.writeThrough x.station.tag) r then _
        else m'.registers.values.get r) = _
      rw [hears, h.values]
      rfl
    writtenBack := by
      change m'.writtenBack ++ [m'.entry x.station x.occupant] = _
      rw [h.writtenBack, h.entry_eq]
      rfl
    onBus := rfl
    broadcasts := congrArg (fun n => n + 1) h.broadcasts }

/-- **Machines stay abreast when a result is sent.** -/
theorem Abreast.sent (h : Abreast p q m m') (hx : m.nextSender? = some x)
    (hx' : m'.nextSender? = some x) : Abreast p q (m.sent x) (m'.sent x) := by
  obtain ⟨n, s, o, hold, kind, rfl⟩ := h.pending
  have hold' := h.agree.holds_iff.2 ⟨hold, h.le⟩
  refine ⟨h.agree.sent fun r => ?_, h.coherent.sent hx, h.coherent'.sent hx', ?_,
    released_sent.onPath h.onPath, h.le, h.issued⟩
  · -- Who hears is told by what was issued before the branch.
    have hprod : m'.producer? (m'.before o.seq) r = m.producer? (m.before o.seq) r := by
      rw [h.agree.before_eq h.le]
      refine producer?_congr fun e he _ => ?_
      have hle : e.seq ≤ q := Int.le_trans (Int.le_of_lt (mem_before.1 he).2) h.le
      rw [h.agree.mem_flight_iff, and_iff_left hle]
    rw [Bool.eq_iff_iff, h.coherent.hears_iff hx hold kind h.onPath,
      h.coherent'.hears_iff hx' hold' kind (h.agree.onPath h.onPath), hprod]
  · obtain ⟨hsends, -⟩ := nextSender?_eq_some hx
    refine ⟨n, _, _, holds_sent.2 ⟨?_, s, o, hold, rfl, rfl⟩, ?_, rfl⟩
    · rintro rfl
      exact (kind_of_nextSender? hx).1 ((hsends.unique hold).1 ▸ kind)
    · rw [(s.told_toSlot x.station.tag x.value).1]
      exact kind

/-- Machines that nothing tells apart send the same. -/
theorem SameButIssued.nextSender?_eq (h : SameButIssued m m') : m'.nextSender? = m.nextSender? := by
  rw [h]
  rfl

theorem SameButIssued.sent (h : SameButIssued m m') : SameButIssued (m.sent x) (m'.sent x) := by
  rw [SameButIssued, h]
  rfl

theorem SameButIssued.flight_eq (h : SameButIssued m m') : m'.flight = m.flight := by
  rw [h]
  rfl

/-! ## A whole cycle -/

/-- **One cycle without the Issue stage.** -/
def stepNoIssue (m : Machine) : Outcome := do
  let m ← m.advance.execute
  let m ← m.writeBack
  pure { m with cycle := m.cycle + 1 }

/-- **What has become of the branch** after a cycle of two machines. -/
inductive Ends (q : Int) (acts : List Act) (m m' : Machine) : Prop
  /-- It is still pending in both. -/
  | pending (h : Lockstep q m m')
  /-- It has fallen through in both. -/
  | fallen (act : .resolve q false ∈ acts) (gone : q ∉ m.flight) (gone' : q ∉ m'.flight)
  /-- It was taken in both, and nothing tells them apart but how often they
  have issued. -/
  | taken (act : .resolve q true ∈ acts) (gone : q ∉ m.flight) (gone' : q ∉ m'.flight)
      (same : SameButIssued m m')

theorem Ends.mono (h : Ends q acts m m') (hsub : acts ⊆ acts') : Ends q acts' m m' := by
  cases h with
  | pending h => exact .pending h
  | fallen act gone gone' => exact .fallen (hsub act) gone gone'
  | taken act gone gone' same => exact .taken (hsub act) gone gone' same

/-- The cycle is counted in both. -/
theorem Abreast.counted (h : Abreast p q m m') :
    Abreast p q { m with cycle := m.cycle + 1 } { m' with cycle := m'.cycle + 1 } :=
  ⟨{ h.agree with cycle := congrArg (fun n => n + 1) h.agree.cycle }, h.coherent.count,
    h.coherent'.count, h.pending, h.onPath, h.le, h.issued⟩

theorem Ends.counted (h : Ends q acts m m') :
    Ends q acts { m with cycle := m.cycle + 1 } { m' with cycle := m'.cycle + 1 } := by
  cases h with
  | pending h => exact .pending h.abreast.counted.lockstep
  | fallen act gone gone' => exact .fallen act gone gone'
  | taken act gone gone' same =>
    refine .taken act gone gone' ?_
    rw [SameButIssued, same]

/-- Where the same can be sent, both send it or neither sends anything. -/
theorem Coherent.writeBack_both (hc : m.Coherent) (hc' : m'.Coherent)
    (hsame : m'.nextSender? = m.nextSender?) :
    (m.writeBack = .ok m ∧ m'.writeBack = .ok m') ∨
      ∃ x, m.nextSender? = some x ∧ m'.nextSender? = some x ∧ m.writeBack = .ok (m.sent x) ∧
        m'.writeBack = .ok (m'.sent x) := by
  rcases hc.writeBack_eq with ⟨hx, heq⟩ | ⟨x, hx, heq⟩ <;>
    rcases hc'.writeBack_eq with ⟨hx', heq'⟩ | ⟨x', hx', heq'⟩ <;> rw [hsame, hx] at hx'
  · exact .inl ⟨heq, heq'⟩
  · cases hx'
  · cases hx'
  · obtain rfl : x = x' := Option.some.inj hx'
    exact .inr ⟨x, hx, hsame.trans hx, heq, heq'⟩

/-- **The Writeback stage of both.** -/
theorem Fares.writeBack (h : Fares q q acts m m') :
    ∃ m₁ m₁', m.writeBack = .ok m₁ ∧ m'.writeBack = .ok m₁' ∧ m'.writeBackActs = m.writeBackActs ∧
      Ends q acts m₁ m₁' := by
  -- Whatever has become of the branch, both send the same result, or none.
  have both : m.Coherent → m'.Coherent → m'.nextSender? = m.nextSender? → Ends q acts m m' →
      (∀ x, m.nextSender? = some x → m'.nextSender? = some x →
        Ends q acts (m.sent x) (m'.sent x)) →
      ∃ m₁ m₁', m.writeBack = .ok m₁ ∧ m'.writeBack = .ok m₁' ∧
        m'.writeBackActs = m.writeBackActs ∧ Ends q acts m₁ m₁' := by
    intro hc hc' hsame hidle hsent
    have hacts : m'.writeBackActs = m.writeBackActs := by
      rw [writeBackActs, writeBackActs, hsame]
    rcases hc.writeBack_both hc' hsame with ⟨heq, heq'⟩ | ⟨x, hx, hx', heq, heq'⟩
    · exact ⟨_, _, heq, heq', hacts, hidle⟩
    · exact ⟨_, _, heq, heq', hacts, hsent x hx hx'⟩
  have leaves : ∀ {m : Machine} {x : Sender}, m.Coherent → m.nextSender? = some x →
      q ∉ m.flight → q ∉ (m.sent x).flight :=
    fun hc hx gone hf => gone ((mem_flight_sent hc hx).1 hf).1
  cases h with
  | pending h =>
    have quiet : ∀ n s o, m.Holds n s o → q < o.seq → s.result = none := fun _ _ _ => h.quiet
    exact both h.coherent h.coherent'
      (h.agree.nextSender?_eq h.coherent h.coherent' quiet) (.pending h.lockstep)
      fun x hx hx' => .pending (h.sent hx hx').lockstep
  | fallen act agree hc hc' gone quiet =>
    have gone' : q ∉ m'.flight := fun hf => gone (agree.mem_flight_iff.1 hf).1
    exact both hc hc' (agree.nextSender?_eq hc hc' quiet) (.fallen act gone gone')
      fun x hx hx' => .fallen act (leaves hc hx gone) (leaves hc' hx' gone')
  | taken act same hc hc' last =>
    have gone : q ∉ m.flight := fun hf => Int.lt_irrefl _ (last q hf)
    have gone' : q ∉ m'.flight := by rwa [same.flight_eq]
    exact both hc hc' same.nextSender?_eq (.taken act gone gone' same)
      fun x hx hx' => .taken act (leaves hc hx gone) (leaves hc' hx' gone') same.sent

/-- Machines stay abreast when the timers move. -/
theorem Abreast.advance (h : Abreast p q m m') : Abreast p q m.advance m'.advance := by
  obtain ⟨n, s, o, hold, kind, hseq⟩ := h.pending
  refine ⟨h.agree.advance, h.coherent.advance, h.coherent'.advance,
    ⟨n, _, _, holds_advance.2 ⟨s, o, hold, rfl, rfl⟩, ?_, ?_⟩,
    retimed_advance.onPath_iff.2 h.onPath, h.le, h.issued⟩
  · rw [s.advance_toSlot.1]
    exact kind
  · rw [tick_eq]
    exact hseq

/-- **Machines stay abreast when the first one issues**, and the second does
not. -/
theorem Abreast.issue (h : Abreast p q m m') (hm : m.issue = .ok m₁) : Abreast p q m₁ m' := by
  have hagree := h.agree.issue h.coherent h.issued hm
  have hcoherent := h.coherent.issue hm
  rcases issue_eq_ok hm with ⟨i, s, n, -, -, hs, hfree, rfl⟩ | rfl
  · obtain ⟨k, s₀, o₀, hold, hk, hseq⟩ := h.pending
    have hne : k ≠ n := by
      rintro rfl
      exact not_holds_of_free hs hfree hold
    exact ⟨hagree, hcoherent, h.coherent',
      ⟨k, s₀, o₀, (holds_dispatched (List.getElem?_eq_some_iff.1 hs).1).2 (.inr ⟨hne, hold⟩), hk,
        hseq⟩,
      (onPath_dispatched_iff hs hfree (Int.le_trans h.le (Int.le_of_lt h.issued))).2 h.onPath, h.le,
      Int.lt_trans h.issued (Int.lt_succ _)⟩
  · exact h

/-- **A cycle in lockstep.** Both machines stop on the same fault, or both
do the same, and the branch fares the same in both. -/
theorem Lockstep.step (h : Lockstep q m m') :
    (∃ t t', m.step = .error t ∧ m'.stepNoIssue = .error t' ∧ t.fault = t'.fault) ∨
      ∃ m₁ m₁', m.step = .ok m₁ ∧ m'.stepNoIssue = .ok m₁' ∧ m'.advance.finishActs = m.stepActs ∧
        Ends q m.stepActs m₁ m₁' := by
  obtain ⟨m₀, h₀⟩ := exists_issue m.advance
  have hl := h.abreast.advance.issue h₀
  simp only [Machine.step, stepNoIssue, stepActs, finishActs, h₀]
  rcases hl.execute with ⟨t, t', hfail, hfail', hfault⟩ | ⟨m₁, m₁', hok, hok', hacts, hfares⟩
  · refine .inl ⟨t, t', ?_, ?_, hfault⟩
    · change (m₀.execute >>= _) = _
      rw [hfail]
      rfl
    · rw [hfail']
      rfl
  · obtain ⟨m₂, m₂', hw, hw', hsends, hends⟩ := hfares.writeBack
    refine .inr ⟨{ m₂ with cycle := m₂.cycle + 1 }, { m₂' with cycle := m₂'.cycle + 1 }, ?_, ?_, ?_,
      ?_⟩
    · change (m₀.execute >>= _) = _
      rw [hok]
      change (m₁.writeBack >>= _) = _
      rw [hw]
      rfl
    · rw [hok']
      change (m₁'.writeBack >>= _) = _
      rw [hw']
      rfl
    · simp only [hok, hok', hacts, hsends]
    · exact hends.counted.mono (List.subset_append_left _ _)

/-- A pending branch is pending for as long as it is in flight. -/
theorem Coherent.pending_of_step (hc : m.Coherent) (hp : m.Pending q) (hm : m.step = .ok m₁)
    (hf : q ∈ m₁.flight) : m₁.Pending q := by
  obtain ⟨n, s, o, hold, rfl⟩ := mem_flight.1 hf
  obtain ⟨e, he, hof⟩ := (hc.step hm).owner n s o hold
  have he₀ : e ∈ m.issued := by
    refine (mem_issued_of_step hm he).resolve_right fun hnew => ?_
    have := hp.lt_nextSeq hc
    have := hof.seq
    omega
  rw [← hof.seq] at hp hf ⊢
  exact ((hc.step hm).pending_iff he).2 ⟨hf, ((hc.pending_iff he₀).1 hp).2⟩

/-- **Machines stay abreast of a pending branch** for a cycle, or the branch
leaves its station. An older branch that falls through gives way to the next
one. -/
theorem Abreast.step (h : Abreast p q m m') (hp : m.Pending q) (hm : m.step = .ok m₁) :
    (∃ p' m₁', p ≤ p' ∧ m'.stepNoIssue = .ok m₁' ∧ Abreast p' q m₁ m₁' ∧ m₁.Pending q) ∨
      q ∉ m₁.flight := by
  by_cases hf : q ∈ m₁.flight
  case neg => exact .inr hf
  have still := h.coherent.pending_of_step hp hm hf
  obtain ⟨m₀, m₂, m₃, h₀, h₂, h₃, rfl, -⟩ := step_eq_ok hm
  have hl := h.advance.issue h₀
  have still₂ : m₂.Pending q := by
    obtain ⟨n, s, o, hold, kind, hseq⟩ := still
    obtain ⟨s₂, o₂, hold₂, hslot, -, hseq₂, -⟩ := holds_of_writeBack h₃ hold
    exact ⟨n, s₂, o₂, hold₂, by rw [← kind, hslot], hseq₂.symm.trans hseq⟩
  rcases hl.execute with ⟨t, -, hfail, -⟩ | ⟨m₂₀, m₂', hok, hok', -, hfares⟩
  · rw [h₂] at hfail
    cases hfail
  obtain rfl : m₂₀ = m₂ := Except.ok.inj (hok.symm.trans h₂)
  obtain ⟨p', hle, hl₂⟩ : ∃ p', p ≤ p' ∧ Abreast p' q m₂₀ m₂' := by
    cases hfares with
    | pending h => exact ⟨p, Int.le_refl p, h⟩
    | fallen act agree hc hc' gone quiet =>
      obtain ⟨p', hp', path, hle⟩ := still₂.exists_oldest
      refine ⟨p', ?_, agree, hc, hc', hp', path, hle, still₂.lt_nextSeq hc⟩
      obtain ⟨n, s, o, hold, kind, rfl⟩ := hp'
      exact (execute_moves h₂).onPath hl.onPath n s o hold kind
    | taken act same hc hc' last =>
      -- The branch would have been dropped.
      obtain ⟨n, s, o, hold, -, rfl⟩ := still₂
      exact absurd (last o.seq hold.mem_flight) (Int.not_lt.2 h.le)
  have hsame := hl₂.agree.nextSender?_eq hl₂.coherent hl₂.coherent' fun _ _ _ => hl₂.quiet
  obtain ⟨m₃', h₃', hl₃⟩ : ∃ m₃', m₂'.writeBack = .ok m₃' ∧ Abreast p' q m₃ m₃' := by
    rcases hl₂.coherent.writeBack_both hl₂.coherent' hsame with
      ⟨heq, heq'⟩ | ⟨x, hx, hx', heq, heq'⟩ <;> rw [heq] at h₃ <;> cases h₃
    · exact ⟨_, heq', hl₂⟩
    · exact ⟨_, heq', hl₂.sent hx hx'⟩
  refine .inl ⟨p', { m₃' with cycle := m₃'.cycle + 1 }, hle, ?_, hl₃.counted, still⟩
  rw [stepNoIssue, hok']
  change (m₂'.writeBack >>= _) = _
  rw [h₃']
  rfl

/-! ## Calls -/

theorem AgreeUpTo.alike (h : AgreeUpTo q m m') : Alike m m' where
  memory := h.memory
  values := h.values
  loaded := h.loaded
  cycle := h.cycle
  names := by
    rw [h.stations, List.map_map]
    refine List.map_congr_left fun s _ => ?_
    rw [Function.comp_apply, Station.squash]
    split <;> rfl
  offsetsChecked := h.offsetsChecked
  relativeCalls := h.relativeCalls

/-- The same call keeps machines in agreement. A new station is free. -/
theorem AgreeUpTo.afterCall (h : AgreeUpTo q m m') (c : Call) :
    AgreeUpTo q (m.afterCall c) (m'.afterCall c) := by
  rcases h.alike.afterCall c with ⟨slot, heq, heq'⟩ | ⟨hl, hl', halike⟩
  · have hfree : (Station.ofSlot slot).squash q = Station.ofSlot slot :=
      squash_of_le fun o ho => by cases ho
    rw [heq, heq']
    exact
      { h with
        stations := by
          change m'.stations ++ _ = (m.stations ++ _).map _
          rw [List.map_append, ← h.stations, List.map_singleton, hfree] }
  · obtain ⟨_, _, _, _, heq⟩ := hl
    obtain ⟨_, _, _, _, heq'⟩ := hl'
    rw [heq, heq'] at halike ⊢
    exact { h with memory := halike.memory, values := halike.values, loaded := halike.loaded }

theorem pending_afterCall {c : Call} : (m.afterCall c).Pending q ↔ m.Pending q := by
  simp only [Pending, (afterCall_frame m c).2.2]

/-- Machines stay abreast when the same call is made on both. -/
theorem Abreast.afterCall (h : Abreast p q m m') (c : Call) :
    Abreast p q (m.afterCall c) (m'.afterCall c) := by
  obtain ⟨-, hnext, hholds⟩ := afterCall_frame m c
  exact ⟨h.agree.afterCall c, h.coherent.afterCall c, h.coherent'.afterCall c,
    pending_afterCall.2 h.pending, fun n s o hold => h.onPath n s o ((hholds n s o).1 hold), h.le,
    hnext ▸ h.issued⟩

/-! ## Runs -/

/-- **Machines stay abreast of a pending branch** until it has left its
station, whatever calls are made on both in between. -/
theorem Abreast.undergo {z' : Machine} {inputs : List Input} (h : Abreast p q z z')
    (hp : z.Pending q) (hm : z.undergo Machine.step inputs = .ok m) :
    (∃ p' m', p ≤ p' ∧ z'.undergo stepNoIssue inputs = .ok m' ∧ Abreast p' q m m' ∧
        m.Pending q) ∨
      (m.Coherent ∧ q ∉ m.flight ∧ q < m.nextSeq) := by
  induction inputs generalizing p z z' with
  | nil =>
    cases hm
    exact .inl ⟨p, z', Int.le_refl p, rfl, h, hp⟩
  | cons v inputs ih =>
    obtain ⟨z₁, h₁, hrest⟩ := undergo_cons_eq_ok.1 hm
    cases v with
    | call c =>
      cases h₁
      rcases ih (h.afterCall c) (pending_afterCall.2 hp) hrest with ⟨p', m', hle, hm', hl⟩ | gone
      · exact .inl ⟨p', m', hle, undergo_cons_eq_ok.2 ⟨_, rfl, hm'⟩, hl⟩
      · exact .inr gone
    | cycle =>
      rcases h.step hp h₁ with ⟨p₁, z₁', hle₁, h₁', hl₁, still⟩ | gone
      · rcases ih hl₁ still hrest with ⟨p', m', hle, hm', hl⟩ | gone
        · exact .inl ⟨p', m', Int.le_trans hle₁ hle, undergo_cons_eq_ok.2 ⟨z₁', h₁', hm'⟩, hl⟩
        · exact .inr gone
      · have hlt := Int.lt_of_lt_of_le h.issued (nextSeq_le_of_step h₁)
        exact .inr ((h.coherent.step h₁).gone_of_undergo gone hlt hrest)

/-- And in lockstep, if it is the oldest one. -/
theorem Lockstep.times {z' : Machine} (h : Lockstep q z z') (hm : z.steps n = .ok m) :
    (∃ m', z'.times stepNoIssue n = .ok m' ∧ Lockstep q m m') ∨
      (m.Coherent ∧ q ∉ m.flight ∧ q < m.nextSeq) := by
  rcases h.abreast.undergo h.pending (undergo_replicate.2 hm) with
    ⟨p', m', hle, hm', hl, -⟩ | hgone
  · obtain rfl : p' = q := Int.le_antisymm hl.le hle
    exact .inl ⟨m', undergo_replicate.1 hm', hl.lockstep⟩
  · exact .inr hgone

/-- A machine is abreast of itself, up to the last instruction issued. -/
theorem Abreast.refl (hc : z.Coherent) (hlast : z.issued.getLast? = some b)
    (hpending : z.Pending b.seq) : ∃ p, Abreast p b.seq z z := by
  have hle : ∀ e ∈ z.issued, e.seq ≤ b.seq := by
    obtain ⟨l, hl⟩ := List.getLast?_eq_some_iff.1 hlast
    have hin := hc.inOrder
    rw [hl] at hin
    intro e he
    rw [hl] at he
    rcases List.mem_append.1 he with he | he
    · exact Int.le_of_lt ((List.pairwise_append.1 hin).2.2 e he b List.mem_cons_self)
    · rw [List.mem_singleton.1 he]
  obtain ⟨p, hp, path, hpb⟩ := hpending.exists_oldest
  refine ⟨p, .refl hle fun x hx => ?_, hc, hc, hp, path, hpb, hpending.lt_nextSeq hc⟩
  obtain ⟨n, s, o, hold, rfl⟩ := mem_flight.1 hx
  obtain ⟨e, he, hof⟩ := hc.owner n s o hold
  exact hof.seq ▸ hle e he

/-- **Who has waited since the branch was issued is abreast of who went on**,
as long as the branch is in flight. -/
theorem Coherent.abreast_of_undergo {inputs : List Input} (hz : z.Coherent)
    (hlast : z.issued.getLast? = some b) (hbranch : b.instr.isBranch)
    (hm : z.undergo Machine.step inputs = .ok m) (hf : b.seq ∈ m.flight) :
    ∃ p m', z.undergo stepNoIssue inputs = .ok m' ∧ Abreast p b.seq m m' := by
  have hb : b ∈ z.issued := List.mem_of_getLast? hlast
  have hpending : z.Pending b.seq := by
    refine (hz.pending_iff hb).2 ⟨?_, hbranch⟩
    by_contra gone
    exact (hz.gone_of_undergo gone (hz.fresh b hb) hm).2.1 hf
  obtain ⟨p, h⟩ := Abreast.refl hz hlast hpending
  rcases h.undergo hpending hm with ⟨p', m', -, hm', h', -⟩ | ⟨-, gone, -⟩
  · exact ⟨p', m', hm', h'⟩
  · exact absurd hf gone

/-- And in lockstep with itself, if that is its only pending branch. -/
theorem Lockstep.refl (hc : z.Coherent) (hlast : z.issued.getLast? = some b)
    (hpending : z.Pending b.seq) (honly : ∀ q, z.Pending q → q = b.seq) :
    Lockstep b.seq z z := by
  obtain ⟨p, h⟩ := Abreast.refl hc hlast hpending
  obtain rfl := honly p h.pending
  exact h.lockstep

/-- **The wrong path leaves no trace.** The only pending branch of a machine
is the last instruction it has issued. As long as the branch is pending, a
run that goes on issuing and one that waits agree up to the branch. In the
next cycle both stop on the same fault, or they do the same and the branch
resolves in both or in neither; and if it is taken, nothing tells the
machines apart any more but how often they have issued. -/
theorem traceless_of_steps (hz : Reachable z) (hlast : z.issued.getLast? = some b)
    (hpending : z.Pending b.seq) (honly : ∀ q, z.Pending q → q = b.seq)
    (hm : z.steps n = .ok m) (hstill : m.Pending b.seq) :
    ∃ m', z.times stepNoIssue n = .ok m' ∧ AgreeUpTo b.seq m m' ∧ m'.Pending b.seq ∧
      ((∃ t t', m.step = .error t ∧ m'.stepNoIssue = .error t' ∧ t.fault = t'.fault) ∨
        ∃ m₁ m₁', m.step = .ok m₁ ∧ m'.stepNoIssue = .ok m₁' ∧
          m'.advance.finishActs = m.stepActs ∧ Ends b.seq m.stepActs m₁ m₁') := by
  rcases (Lockstep.refl hz.coherent hlast hpending honly).times hm with
    ⟨m', hm', hl⟩ | ⟨-, gone, -⟩
  · exact ⟨m', hm', hl.agree, hl.pending', hl.step⟩
  · obtain ⟨n, s, o, hold, -, hseq⟩ := hstill
    exact absurd (hseq ▸ hold.mem_flight) gone

/-- The sample issues its branch in the second cycle, and takes it in the
fourth. -/
theorem branch_sample :
    ∃ z m m₁, sample.steps 2 = .ok z ∧ z.steps 1 = .ok m ∧ m.step = .ok m₁ ∧
      (∃ b, z.issued.getLast? = some b ∧ b.seq = 1) ∧ z.stations.filterMap pendingSeq? = [1] ∧
      m.stations.filterMap pendingSeq? = [1] ∧ m.stepActs = [.resolve 1 true] ∧
      1 ∉ m₁.flight := by
  have h : ((sample.steps 2).toOption.any fun z => (z.steps 1).toOption.any fun m =>
      m.step.toOption.any fun m₁ => z.issued.getLast?.any (fun b => b.seq = 1) &&
        decide (z.stations.filterMap pendingSeq? = [1] ∧ m.stations.filterMap pendingSeq? = [1] ∧
          m.stepActs = [.resolve 1 true] ∧ 1 ∉ m₁.flight)) = true := by decide +kernel
  obtain ⟨z, hz, h⟩ := exists_of_any h
  obtain ⟨m, hm, h⟩ := exists_of_any h
  obtain ⟨m₁, h₁, h⟩ := exists_of_any h
  simp only [Bool.and_eq_true, decide_eq_true_eq, Option.any_eq_true] at h
  exact ⟨z, m, m₁, hz, hm, h₁, h⟩

/-- A sample that has waited for its branch is the same after it as one that
has not. -/
theorem traceless_of_steps_sample :
    ∃ z m' m₁ m₁', sample.steps 2 = .ok z ∧ z.times stepNoIssue 1 = .ok m' ∧
      z.steps 2 = .ok m₁ ∧ m'.stepNoIssue = .ok m₁' ∧ SameButIssued m₁ m₁' := by
  obtain ⟨z, m, m₁, hz, hm, h₁, ⟨b, hlast, hseq⟩, hpending, hstill, hacts, hgone⟩ := branch_sample
  have hpending : ∀ q, z.Pending q ↔ q = b.seq := by
    intro q
    rw [Pending, ← mem_filterMap_pendingSeq?, hpending, List.mem_singleton, hseq]
  have hstill : m.Pending b.seq :=
    mem_filterMap_pendingSeq?.1 (by rw [hstill, hseq]; exact List.mem_cons_self)
  obtain ⟨m', hm', -, -, hnext⟩ := traceless_of_steps (configured_sample.reachable.steps hz) hlast
    ((hpending _).2 rfl) (fun q => (hpending q).1) hm hstill
  rcases hnext with ⟨t, -, hfail, -⟩ | ⟨m₂, m₁', hok, hok', -, hends⟩
  · rw [h₁] at hfail
    cases hfail
  obtain rfl : m₂ = m₁ := Except.ok.inj (hok.symm.trans h₁)
  rw [hacts, hseq] at hends
  refine ⟨z, m', m₂, m₁', hz, hm', times_succ_eq_ok.2 ⟨m, hm, h₁⟩, hok', ?_⟩
  cases hends with
  | pending h =>
    obtain ⟨n, s, o, hold, -, hs⟩ := h.pending
    exact absurd (hs ▸ hold.mem_flight) hgone
  | fallen act => cases Act.resolve.inj (List.mem_singleton.1 act) |>.2
  | taken act gone gone' same => exact same

end Machine

end OutOfOrder
