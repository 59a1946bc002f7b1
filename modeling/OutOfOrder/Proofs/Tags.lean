import Mathlib.Logic.Relation
import OutOfOrder.Proofs.Histories
import OutOfOrder.Proofs.Runs
/-!
# What tags stand for

A tag is the number of a station, and stations are used over and over. That
a tag stands for one instruction, and for the right one, is said here by the
histories alone. The status table names for each register the last
instruction that overrides what was said of it before, if the station of
that instruction still holds it (`status_tracks`); and an operand names the
last writer of its register before its own instruction (`operands_await`).

`Coherent` says the same with the stations: there a call that is in flight
is left out of the history, and here a call counts from when it is written
back. That both come to the same is what `Accounted` is for
(`Coherent.tracks_iff`).

A tag of an operand leads to an older instruction, so whoever follows tags
from station to station never comes back.
-/

namespace OutOfOrder

namespace Machine

variable {m : Machine} {n k : Nat} {s : Station} {o : Occupant} {e w : Entry} {l : List Entry}
variable {r : Reg} {t : Tag} {table : StatusTable}

/-- The station that the entry names holds the instruction of the entry. -/
def Houses (m : Machine) (e : Entry) : Prop :=
  ∃ (n : Nat) (s : Station) (o : Occupant), m.Holds n s o ∧ e.tag = n ∧ o.seq = e.seq

/-- **The instruction overrides what was said of the register before it.** It
does so as soon as it is issued, if the register is its destination. A call
does so for the link register, once it has been written back. -/
def overrides (m : Machine) (r : Reg) (e : Entry) : Bool :=
  e.instr.destination? = some r ||
    (e.instr.isCall && r = Reg.link && m.writtenBack.any fun x => x.seq = e.seq)

/-- The last instruction of a history that overrides what was said of a
register. -/
def lastOverride (m : Machine) (l : List Entry) (r : Reg) : Option Entry :=
  l.reverse.find? (m.overrides r)

/-- **A status table tracks a history.** A register waits for a tag exactly
if it is the tag of the last instruction that overrides it, and the station
of that instruction still holds it. Register 0 never waits. -/
def Tracks (m : Machine) (l : List Entry) (table : StatusTable) : Prop :=
  ∀ (r : Reg) (t : Tag), table.get r = some t ↔
    r ≠ 0 ∧ ∃ w, m.lastOverride l r = some w ∧ m.Houses w ∧ w.tag = t

/-- **What a source of an instruction is**, by the history before the
instruction. The operand waits for the last writer of its register while the
station of that writer holds it; otherwise it is a word. It is unused if the
instruction has no such source. -/
def Awaits (m : Machine) (l : List Entry) (source : Option Reg) (x : Operand) : Prop :=
  match source with
  | none => x = .unused
  | some r =>
    (r ≠ 0 ∧ ∃ w, lastWriter l r = some w ∧ m.Houses w ∧ x = .waiting w.tag) ∨
      ((r = 0 ∨ ∀ w, lastWriter l r = some w → ¬ m.Houses w) ∧ ∃ v : Word, x = .value v.toInt)

/-- **One station waits for another**: it names it with an operand. -/
def WaitsFor (m : Machine) (n k : Nat) : Prop :=
  ∃ s o, m.Holds n s o ∧ (o.j = .waiting k ∨ o.k = .waiting k)

/-! ## By the histories and by the stations -/

/-- An instruction that was issued is in the station its entry names, or in
none. -/
theorem Coherent.houses_iff (hc : m.Coherent) (he : e ∈ m.issued) :
    m.Houses e ↔ e.seq ∈ m.flight := by
  constructor
  · rintro ⟨n, s, o, hold, -, hseq⟩
    exact hseq ▸ hold.mem_flight
  · intro hf
    obtain ⟨n, s, o, hold, hseq⟩ := mem_flight.1 hf
    exact ⟨n, s, o, hold, hc.tag_eq hold he hseq.symm, hseq⟩

/-- To override is to write, except for a call in flight. -/
theorem Accounted.overrides_eq (ha : m.Accounted) (he : e ∈ m.issued) :
    m.overrides r e = (!(e.instr.isCall && e.seq ∈ m.flight) && e.instr.writes r) := by
  have hwritten : (m.writtenBack.any fun x => x.seq = e.seq) = !decide (e.seq ∈ m.flight) := by
    rw [Bool.eq_iff_iff, ha.any_writtenBack_iff he, Bool.not_eq_true', decide_eq_false_iff_not]
  rw [overrides, hwritten, Instruction.writes]
  rcases hcall : e.instr.isCall with - | -
  · simp only [Bool.false_and, Bool.or_false, Bool.not_false, Bool.true_and]
  · obtain ⟨label, hi⟩ := Instruction.isCall_iff.1 hcall
    simp only [hi, Instruction.destination?, reduceCtorEq, decide_false, Bool.false_or,
      Bool.true_and, Bool.and_comm]

theorem Accounted.lastOverride_eq (ha : m.Accounted) (hl : ∀ e ∈ l, e ∈ m.issued) :
    m.lastOverride l r =
      lastWriter (l.filter fun e => !(e.instr.isCall && e.seq ∈ m.flight)) r := by
  rw [lastOverride, lastWriter, ← List.filter_reverse, List.find?_filter, ← List.head?_filter,
    ← List.head?_filter]
  refine congrArg List.head? (List.filter_congr fun e he => ?_)
  rw [ha.overrides_eq (hl e (List.mem_reverse.1 he)), Bool.decide_and, Bool.decide_eq_true,
    Bool.decide_eq_true]

/-- **To track a history is to describe it**, without the calls in flight. -/
theorem Coherent.tracks_iff (hc : m.Coherent) (ha : m.Accounted) (hl : ∀ e ∈ l, e ∈ m.issued) :
    m.Tracks l table ↔
      m.Describes (l.filter fun e => !(e.instr.isCall && e.seq ∈ m.flight)) table := by
  have key : ∀ r t,
      (m.producer? (l.filter fun e => !(e.instr.isCall && e.seq ∈ m.flight)) r).map Entry.tag =
        some t ↔ r ≠ 0 ∧ ∃ w, m.lastOverride l r = some w ∧ m.Houses w ∧ w.tag = t := by
    intro r t
    simp only [Option.map_eq_some_iff, producer?_eq_some_iff, ← ha.lastOverride_eq hl]
    constructor
    · rintro ⟨w, ⟨hr, hw, hf⟩, htag⟩
      have hmem := hl w (List.mem_reverse.1 (List.mem_of_find?_eq_some hw))
      exact ⟨hr, w, hw, (hc.houses_iff hmem).2 hf, htag⟩
    · rintro ⟨hr, w, hw, hhouse, htag⟩
      have hmem := hl w (List.mem_reverse.1 (List.mem_of_find?_eq_some hw))
      exact ⟨w, ⟨hr, hw, (hc.houses_iff hmem).1 hhouse⟩, htag⟩
  constructor
  · intro h r
    exact Option.ext fun t => (h r t).trans (key r t).symm
  · intro h r t
    rw [h r]
    exact key r t

/-- To await is to be supplied. -/
theorem Coherent.awaits_iff {source : Option Reg} {x : Operand} (hc : m.Coherent)
    (hl : ∀ e ∈ l, e ∈ m.issued) : m.Awaits l source x ↔ m.Supplies l source x := by
  rcases source with - | r
  · rfl
  have hhouse : ∀ {w}, lastWriter l r = some w → (m.Houses w ↔ w.seq ∈ m.flight) :=
    fun hw => hc.houses_iff (hl _ (mem_of_lastWriter hw).1)
  simp only [Awaits, Supplies]
  rcases hp : m.producer? l r with - | w
  · rw [producer?_eq_none_iff] at hp
    refine ⟨?_, fun hv => .inr ⟨hp.imp_right fun h w hw hh => h w hw ((hhouse hw).1 hh), hv⟩⟩
    rintro (⟨hr, w, hw, hh, -⟩ | ⟨-, hv⟩)
    · exact absurd ((hhouse hw).1 hh) ((hp.resolve_left hr) w hw)
    · exact hv
  · obtain ⟨hr, hw, hf⟩ := producer?_eq_some_iff.1 hp
    refine ⟨?_, fun hx => .inl ⟨hr, w, hw, (hhouse hw).2 hf, hx⟩⟩
    rintro (⟨-, w', hw', -, hx⟩ | ⟨hnone, -⟩)
    · obtain rfl : w' = w := Option.some.inj (hw'.symm.trans hw)
      exact hx
    · exact absurd ((hhouse hw).2 hf) ((hnone.resolve_left hr) w hw)

/-! ## The status table -/

/-- **The status table tracks what was issued.** So a register that waits
names a busy station, whose instruction was issued, has the register as its
destination and is not superseded by a younger one. -/
theorem status_tracks (h : Reachable m) :
    m.Tracks m.issued m.registers.status ∧
      ∀ r t, m.registers.status.get r = some t →
        ∃ (n : Nat) (s : Station) (o : Occupant), t = n ∧ m.Holds n s o ∧
          o.instr.destination? = some r ∧ (∃ e ∈ m.issued, e.IsOf s o) ∧
          ∀ e ∈ m.issued, m.overrides r e → e.seq ≤ o.seq := by
  have hc := h.coherent
  have ha := h.accounted
  have htracks := (hc.tracks_iff ha fun _ he => he).2 hc.status
  refine ⟨htracks, fun r t ht => ?_⟩
  obtain ⟨-, w, hw, ⟨n, s, o, hold, htag, hseq⟩, rfl⟩ := (htracks r t).1 ht
  have hmem : w ∈ m.issued := List.mem_reverse.1 (List.mem_of_find?_eq_some hw)
  have hof := hc.isOf hold hmem hseq.symm
  refine ⟨n, s, o, htag, hold, ?_, ⟨w, hmem, hof⟩, fun e he hover => ?_⟩
  · -- A call that overrides has been written back, so no station holds it.
    have hover := List.find?_some hw
    simp only [ha.overrides_eq hmem, Instruction.writes, Bool.and_eq_true, Bool.or_eq_true,
      Bool.not_eq_true', Bool.and_eq_false_iff, decide_eq_false_iff_not, decide_eq_true_eq] at hover
    rw [← hof.instr]
    refine hover.2.resolve_right fun hcall => ?_
    rcases hover.1 with hno | hgone
    · rw [hcall.1] at hno
      cases hno
    · exact hgone (hseq ▸ hold.mem_flight)
  · rw [ha.lastOverride_eq fun _ he => he] at hw
    rw [hseq]
    rw [ha.overrides_eq he, Bool.and_eq_true] at hover
    exact ((lastWriter_eq_some_iff (hc.inOrder.filter _)).1 hw).2.2 e
      (List.mem_filter.2 ⟨he, hover.1⟩) hover.2

/-- After its first cycle the sample waits for register 1. -/
theorem status_tracks_sample :
    ∃ m, sample.steps 1 = .ok m ∧ m.registers.status.get 1 = some 0 ∧
      m.Tracks m.issued m.registers.status := by
  obtain ⟨m, hm, h⟩ := exists_of_any (p := fun m => m.registers.status.get 1 = some 0)
    (x := sample.steps 1) (by decide +kernel)
  exact ⟨m, hm, of_decide_eq_true h, (status_tracks (configured_sample.reachable.steps hm)).1⟩

/-! ## The operands -/

/-- What is held splits the history into what was issued before it and
after it. -/
theorem Coherent.issued_eq_append (hc : m.Coherent) (hold : m.Holds n s o) :
    ∃ e l', m.issued = m.before o.seq ++ e :: l' ∧ e.IsOf s o := by
  obtain ⟨e, he, hof⟩ := hc.owner n s o hold
  have hsplit := hc.inOrder.eq_append_cons he
  rw [hof.seq] at hsplit
  exact ⟨e, _, hsplit, hof⟩

/-- **Who waits, waits for an older instruction that uses the bus.** -/
theorem Coherent.older_of_waiting {source : Option Reg} {x : Operand} (hc : m.Coherent)
    (hold : m.Holds n s o) (hs : m.Supplies (m.before o.seq) source x) (hx : x = .waiting t) :
    ∃ (k : Nat) (s' : Station) (o' : Occupant), t = k ∧ m.Holds k s' o' ∧ o'.seq < o.seq ∧
      s'.kind.usesBus := by
  rcases source with - | r
  · rw [show x = .unused from hs] at hx
    cases hx
  simp only [Supplies] at hs
  split at hs
  · rename_i w hw
    obtain rfl : t = w.tag := Operand.waiting.inj (hx.symm.trans hs)
    obtain ⟨hmem, hlt⟩ := mem_before.1 (mem_of_producer? hw).1
    obtain ⟨k, s', o', hold', hseq⟩ := mem_flight.1 (producer?_eq_some_iff.1 hw).2.2
    refine ⟨k, s', o', hc.tag_eq hold' hmem hseq.symm, hold', hseq ▸ hlt, ?_⟩
    -- An older call in flight would be the last instruction issued.
    have hcall : w.instr.isCall = false := by
      rw [← Bool.not_eq_true]
      intro hcall
      obtain ⟨e, he, hof⟩ := hc.owner n s o hold
      have := hc.le_of_isCall hmem hcall (hseq ▸ hold'.mem_flight) he
      have := hof.seq
      omega
    exact Instruction.usesBus_of_writes (mem_of_producer? hw).2
      ((hc.isOf hold' hmem hseq.symm).instr ▸ (hc.fits k s' o' hold').unit) hcall
  · obtain ⟨v, hv⟩ := hs
    rw [hx] at hv
    cases hv

/-- **Whoever follows the tags comes to older instructions.** -/
theorem Coherent.older_of_waitsFor (hc : m.Coherent) (h : Relation.TransGen m.WaitsFor n k) :
    ∃ s o s' o', m.Holds n s o ∧ m.Holds k s' o' ∧ o'.seq < o.seq := by
  have step : ∀ {n k}, m.WaitsFor n k →
      ∃ s o s' o', m.Holds n s o ∧ m.Holds k s' o' ∧ o'.seq < o.seq := by
    rintro n k ⟨s, o, hold, hwaits⟩
    obtain ⟨k', s', o', hk, hold', hlt, -⟩ : ∃ (k' : Nat) (s' : Station) (o' : Occupant),
        (k : Int) = k' ∧ m.Holds k' s' o' ∧ o'.seq < o.seq ∧ s'.kind.usesBus := by
      obtain ⟨hj, hk⟩ := hc.sources n s o hold
      rcases hwaits with hx | hx
      · exact hc.older_of_waiting hold hj hx
      · exact hc.older_of_waiting hold hk hx
    obtain rfl := Int.ofNat.inj hk
    exact ⟨s, o, s', o', hold, hold', hlt⟩
  induction h with
  | single h => exact step h
  | tail _ h ih =>
    obtain ⟨s, o, s₁, o₁, hold, hold₁, hlt⟩ := ih
    obtain ⟨s₂, o₂, s', o', hold₂, hold', hlt'⟩ := step h
    obtain ⟨rfl, rfl⟩ := hold₁.unique hold₂
    exact ⟨s, o, s', o', hold, hold', Int.lt_trans hlt' hlt⟩

/-- **Every operand awaits the right instruction.** Both sources of what is
held are what the history before it says. So a tag names a station that
holds an older instruction for the bus, and no station waits for itself,
however far round. -/
theorem operands_await (h : Reachable m) :
    (∀ n s o, m.Holds n s o →
      (∃ l e l', m.issued = l ++ e :: l' ∧ e.IsOf s o ∧ m.Awaits l o.instr.sources.1 o.j ∧
        m.Awaits l o.instr.sources.2 o.k) ∧
      ∀ t, o.j = .waiting t ∨ o.k = .waiting t →
        ∃ (k : Nat) (s' : Station) (o' : Occupant), t = k ∧ m.Holds k s' o' ∧ o'.seq < o.seq ∧
          s'.kind.usesBus) ∧
      ∀ n, ¬ Relation.TransGen m.WaitsFor n n := by
  have hc := h.coherent
  refine ⟨fun n s o hold => ?_, fun n hcycle => ?_⟩
  · obtain ⟨hj, hk⟩ := hc.sources n s o hold
    obtain ⟨e, l', hsplit, hof⟩ := hc.issued_eq_append hold
    have hl : ∀ e ∈ m.before o.seq, e ∈ m.issued := mem_issued_of_before
    refine ⟨⟨_, e, l', hsplit, hof, (hc.awaits_iff hl).2 hj, (hc.awaits_iff hl).2 hk⟩, fun t => ?_⟩
    rintro (hx | hx)
    · exact hc.older_of_waiting hold hj hx
    · exact hc.older_of_waiting hold hk hx
  · obtain ⟨s, o, s', o', hold, hold', hlt⟩ := hc.older_of_waitsFor hcycle
    rw [(hold.unique hold').2] at hlt
    exact Int.lt_irrefl _ hlt

/-- A program that stores the result of an addition right after it. -/
def waitingSample : Machine :=
  left (samplePool.loadProgram [.alu .add 1 2 3, .store 1 0 10] 0 [] [])

/-- After its second cycle the store waits for the addition. -/
theorem operands_await_waitingSample :
    ∃ m, waitingSample.steps 2 = .ok m ∧
      (∃ s o, m.Holds 2 s o ∧ o.k = .waiting 0 ∧
        ∃ (k : Nat) (s' : Station) (o' : Occupant), (0 : Tag) = k ∧ m.Holds k s' o' ∧
          o'.seq < o.seq ∧ s'.kind.usesBus) ∧
      ∀ n, ¬ Relation.TransGen m.WaitsFor n n := by
  have hreach : Reachable waitingSample :=
    (Configured.call configured_samplePool (.loadProgram ..)).reachable
  obtain ⟨m, hm, h⟩ := exists_of_any (x := waitingSample.steps 2)
    (p := fun m => (m.occupied? 2).any fun p => p.2.k = .waiting 0) (by decide +kernel)
  obtain ⟨⟨s, o⟩, hocc, hwaits⟩ := (Option.any_eq_true ..).1 h
  have hold := occupied?_eq_some_iff.1 hocc
  have hk : o.k = .waiting 0 := of_decide_eq_true hwaits
  obtain ⟨hawait, hcycle⟩ := operands_await (hreach.steps hm)
  exact ⟨m, hm, ⟨s, o, hold, hk, (hawait 2 s o hold).2 0 (.inr hk)⟩, hcycle⟩

end Machine

end OutOfOrder
