import OutOfOrder.Proofs.Moves
/-!
# The timer of a station

From the time an instruction is issued to it a station gets two kinds of
calls: its timer is advanced, and it hears results. When its operands are
there depends on the results alone. An operand that waits for a tag is there
from the first time the tag is announced, whoever else waits for it and
whatever is announced later (`Awaits.signal`).

So the cycles that count can be told from the issue and the calls, and
`Issuance.counted` does. The timer follows this count up to the latency and
stops there. A result lets it go on from wherever it is, one cycle for each
that counts, and then past the latency (`timer_counts`).
-/

namespace OutOfOrder

/-! ## Issuing -/

/-- **What an instruction is issued with**: each operand as a value or as a
tag, and what else a station is to hold. -/
structure Issuance where
  instr : Instruction
  pc : Int
  seq : Int
  vj : Option Int
  qj : Option Tag
  vk : Option Int
  qk : Option Tag
  imm : Option Int

namespace Issuance

/-- An operand of a value or a tag, if it is not of both. -/
def operand (v : Option Int) (q : Option Tag) : Operand := (Operand.ofParts? v q).getD .unused

/-- The occupant that the instruction becomes. -/
def occupant (x : Issuance) : Occupant where
  instr := x.instr
  pc := x.pc
  seq := x.seq
  j := operand x.vj x.qj
  k := operand x.vk x.qk
  imm := x.imm

/-- What is wrong with the operands, if anything. -/
def flaw? (x : Issuance) : Option Side :=
  if x.vj.isSome && x.qj.isSome then some .j
  else if x.vk.isSome && x.qk.isSome then some .k
  else none

/-- Nothing is wrong if no operand has both a value and a tag. -/
theorem flaw?_eq_none_iff {x : Issuance} :
    x.flaw? = none ↔
      (x.vj.isSome && x.qj.isSome) = false ∧ (x.vk.isSome && x.qk.isSome) = false := by
  unfold flaw?
  cases x.vj.isSome && x.qj.isSome <;> cases x.vk.isSome && x.qk.isSome <;> simp

theorem tag?_operand {v : Option Int} {q : Option Tag} (h : (v.isSome && q.isSome) = false) :
    (operand v q).tag? = q := by
  rcases v with - | v <;> rcases q with - | q
  · rfl
  · rfl
  · rfl
  · cases h

end Issuance

namespace Station

variable {s s' : Station} {o : Occupant} {x : Issuance}

/-- Issues an instruction to the station. -/
def take (s : Station) (x : Issuance) : Except Fault Station :=
  s.issueParts x.instr x.pc x.seq x.vj x.qj x.vk x.qk x.imm

/-- The station with an instruction that has just been issued. -/
def holding (s : Station) (x : Issuance) : Station :=
  { s with result := none, occupant := some x.occupant }

/-- **What comes of an issue.** A station in use refuses it, and so does any
station if an operand has both a value and a tag. Otherwise the station holds
the instruction and has no result. -/
theorem take_eq (s : Station) (x : Issuance) :
    s.take x =
      if s.busy then .error (.stationBusy s.name)
      else match x.flaw? with
        | some side => .error (.operandTwice s.name side)
        | none => .ok (s.holding x) := by
  obtain ⟨instr, pc, seq, vj, qj, vk, qk, imm⟩ := x
  unfold take issueParts
  cases hbusy : s.busy with
  | true => rfl
  | false =>
    cases vj <;> cases qj <;> cases vk <;> cases qk <;>
      simp only [Operand.ofParts?, issue, hbusy, Bool.false_eq_true, if_false] <;> rfl

theorem take_eq_ok (h : s.take x = .ok s') : x.flaw? = none ∧ s' = s.holding x := by
  rw [take_eq] at h
  split at h
  · cases h
  · split at h
    · cases h
    · rename_i hflaw
      cases h
      exact ⟨hflaw, rfl⟩

end Station

/-! ## Signals -/

/-- **What a station in use gets to know**: that a cycle has gone by, or that
a result is on the bus. -/
inductive Signal where
  | cycle
  | result (tag : Tag) (v : Int)
deriving DecidableEq

namespace Signal

/-- The result of a tag is among the signals. -/
def announced (signals : List Signal) (tag : Tag) : Bool :=
  signals.any fun c => match c with
    | cycle => false
    | result t _ => t = tag

theorem announced_concat_cycle {signals : List Signal} {tag : Tag} :
    announced (signals ++ [cycle]) tag = announced signals tag := by
  simp only [announced, List.any_append, List.any_cons, List.any_nil, Bool.or_false]

theorem announced_concat_result {signals : List Signal} {tag t : Tag} {v : Int} :
    announced (signals ++ [result t v]) tag = (announced signals tag || decide (t = tag)) := by
  simp only [announced, List.any_append, List.any_cons, List.any_nil, Bool.or_false]

/-- What has been announced stays so. -/
theorem announced_append {signals more : List Signal} {tag : Tag} (h : announced signals tag) :
    announced (signals ++ more) tag := by
  unfold announced at h ⊢
  rw [List.any_append, h, Bool.true_or]

end Signal

namespace Issuance

variable {x : Issuance} {signals more : List Signal}

/-- **Both operands are there** after the signals: the tags they were issued
with have been announced. -/
def supplied (x : Issuance) (signals : List Signal) : Bool :=
  x.qj.all (Signal.announced signals) && x.qk.all (Signal.announced signals)

/-- **The cycles that count** among signals that come after others: those in
which both operands are there. -/
def counted (x : Issuance) (before : List Signal) : List Signal → Nat
  | [] => 0
  | c :: rest =>
    (if c = .cycle ∧ x.supplied before then 1 else 0) + x.counted (before ++ [c]) rest

theorem counted_cons (before : List Signal) (c : Signal) (rest : List Signal) :
    x.counted before (c :: rest) =
      (if c = .cycle ∧ x.supplied before then 1 else 0) + x.counted (before ++ [c]) rest := rfl

/-- Operands that are there stay. -/
theorem supplied_append (h : x.supplied signals) : x.supplied (signals ++ more) := by
  unfold supplied at h ⊢
  rw [Bool.and_eq_true, Option.all_eq_true, Option.all_eq_true] at h ⊢
  constructor
  · intro tag htag
    exact Signal.announced_append (h.1 tag htag)
  · intro tag htag
    exact Signal.announced_append (h.2 tag htag)

/-- Once the operands are there each cycle counts. -/
theorem counted_eq_count (h : x.supplied signals) :
    x.counted signals more = more.count .cycle := by
  induction more generalizing signals with
  | nil => rfl
  | cons c rest ih =>
    rw [counted_cons, ih (supplied_append h), List.count_cons]
    cases c <;> simp [h, Nat.add_comm]

/-- A cycle counts only if the operands are there. -/
theorem supplied_of_counted_pos (before : List Signal) (h : 0 < x.counted before more) :
    x.supplied (before ++ more) := by
  induction more generalizing before with
  | nil => cases h
  | cons c rest ih =>
    by_cases hnow : x.supplied before
    · exact supplied_append hnow
    · rw [counted_cons, if_neg (fun hcounts => hnow hcounts.2), Nat.zero_add] at h
      rw [List.append_cons]
      exact ih (before ++ [c]) h

end Issuance

/-! ## Operands -/

namespace Operand

theorem ready_eq_isNone (p : Operand) : p.ready = p.tag?.isNone := by
  cases p <;> rfl

/-- An operand that is there stays as it is. -/
theorem hear_of_ready {p : Operand} (h : p.ready) (tag : Tag) (v : Int) : p.hear tag v = p := by
  cases p with
  | unused => rfl
  | value w => rfl
  | waiting t => cases h

/-- No operand has both a value and a tag. -/
theorem value_or_tag (p : Operand) : p.value? = none ∨ p.tag? = none := by
  cases p with
  | unused => exact .inl rfl
  | value w => exact .inr rfl
  | waiting t => exact .inl rfl

theorem tag?_hear (p : Operand) (tag : Tag) (v : Int) :
    (p.hear tag v).tag? = p.tag?.filter fun t => t ≠ tag := by
  cases p with
  | unused => rfl
  | value w => rfl
  | waiting t => by_cases h : t = tag <;> simp [hear, tag?, Option.filter_some, h]

end Operand

/-! ## What a station keeps -/

namespace Station

variable {s s' : Station} {o : Occupant} {x : Issuance}

/-- The station after a signal. -/
def signal (s : Station) : Signal → Station
  | .cycle => s.advance
  | .result tag v => s.hear tag v

/-- The station after signals. -/
def signals (s : Station) (l : List Signal) : Station := l.foldl signal s

theorem signals_cons (s : Station) (c : Signal) (l : List Signal) :
    s.signals (c :: l) = (s.signal c).signals l := rfl

/-- A signal changes no more than the occupant. -/
theorem signal_frame (s : Station) (c : Signal) :
    (s.signal c).toSlot = s.toSlot ∧ (s.signal c).result = s.result := by
  cases c with
  | cycle => exact s.advance_toSlot
  | result tag v => exact ⟨rfl, rfl⟩

theorem signals_frame (s : Station) (l : List Signal) :
    (s.signals l).toSlot = s.toSlot ∧ (s.signals l).result = s.result := by
  induction l generalizing s with
  | nil => exact ⟨rfl, rfl⟩
  | cons c rest ih =>
    obtain ⟨hslot, hresult⟩ := s.signal_frame c
    rw [signals_cons, (ih _).1, (ih _).2]
    exact ⟨hslot, hresult⟩

/-- The second station holds what the first one holds, and each operand that
is there in the first is the same in the second. -/
def Keeps (s t : Station) : Prop :=
  ∀ o, s.occupant = some o → ∃ o', t.occupant = some o' ∧ (o.j.ready → o'.j = o.j) ∧
    (o.k.ready → o'.k = o.k)

theorem Keeps.trans {t u : Station} (h : s.Keeps t) (h' : t.Keeps u) : s.Keeps u := by
  intro o ho
  obtain ⟨o₁, ho₁, hj₁, hk₁⟩ := h o ho
  obtain ⟨o₂, ho₂, hj₂, hk₂⟩ := h' o₁ ho₁
  refine ⟨o₂, ho₂, ?_, ?_⟩
  · intro hready
    rw [hj₂ (by rwa [hj₁ hready]), hj₁ hready]
  · intro hready
    rw [hk₂ (by rwa [hk₁ hready]), hk₁ hready]

theorem keeps_signal (s : Station) (c : Signal) : s.Keeps (s.signal c) := by
  intro o ho
  cases c with
  | cycle =>
    refine ⟨s.tick o, by rw [signal, advance_occupant, ho, Option.map_some], ?_⟩
    unfold tick
    split <;> exact ⟨fun _ => rfl, fun _ => rfl⟩
  | result tag v =>
    refine ⟨o.hear tag v, by rw [signal, hear, ho, Option.map_some], ?_, ?_⟩
    · intro hready
      exact Operand.hear_of_ready hready tag v
    · intro hready
      exact Operand.hear_of_ready hready tag v

/-- **What is there stays**, whatever a station gets to know. -/
theorem keeps_signals (s : Station) (l : List Signal) : s.Keeps (s.signals l) := by
  induction l generalizing s with
  | nil =>
    intro o ho
    exact ⟨o, ho, fun _ => rfl, fun _ => rfl⟩
  | cons c rest ih => exact (s.keeps_signal c).trans (ih (s.signal c))

/-! ## What a station waits for -/

/-- **The station holds what was issued**, and waits for what has not been
announced since. -/
structure Awaits (x : Issuance) (heard : List Signal) (s : Station) (o : Occupant) : Prop where
  holds : s.occupant = some o
  j : o.j.tag? = x.qj.filter fun tag => !Signal.announced heard tag
  k : o.k.tag? = x.qk.filter fun tag => !Signal.announced heard tag

/-- An operand waits for its tag until the result of the tag is on the bus. -/
theorem filter_announced_concat (q : Option Tag) (heard : List Signal) (tag : Tag) (v : Int) :
    (q.filter fun t => !Signal.announced (heard ++ [.result tag v]) t) =
      (q.filter fun t => !Signal.announced heard t).filter fun t => t ≠ tag := by
  cases q with
  | none => rfl
  | some t =>
    rw [Option.filter_filter, Option.filter_some, Option.filter_some,
      Signal.announced_concat_result]
    by_cases ht : t = tag
    · simp [ht]
    · simp [ht, Ne.symm ht]

theorem filter_announced_nil (q : Option Tag) :
    (q.filter fun t => !Signal.announced [] t) = q := by
  cases q <;> rfl

theorem isNone_filter_announced (q : Option Tag) (heard : List Signal) :
    (q.filter fun t => !Signal.announced heard t).isNone = q.all (Signal.announced heard) := by
  cases q with
  | none => rfl
  | some t => cases ht : Signal.announced heard t <;> simp [ht]

namespace Awaits

variable {heard : List Signal}

/-- A station to which an instruction has been issued. -/
theorem of_take {s₀ : Station} (h : s.take x = .ok s₀) : Awaits x [] s₀ x.occupant := by
  obtain ⟨hflaw, rfl⟩ := take_eq_ok h
  obtain ⟨hj, hk⟩ := Issuance.flaw?_eq_none_iff.1 hflaw
  refine ⟨rfl, ?_, ?_⟩
  · rw [filter_announced_nil]
    exact Issuance.tag?_operand hj
  · rw [filter_announced_nil]
    exact Issuance.tag?_operand hk

/-- **Its operands are there** if their tags have been announced. -/
theorem ready (h : Awaits x heard s o) :
    o.j.ready = x.qj.all (Signal.announced heard) ∧
      o.k.ready = x.qk.all (Signal.announced heard) := by
  rw [Operand.ready_eq_isNone, Operand.ready_eq_isNone, h.j, h.k]
  exact ⟨isNone_filter_announced x.qj heard, isNone_filter_announced x.qk heard⟩

theorem supplied (h : Awaits x heard s o) : o.ready = x.supplied heard := by
  unfold Occupant.ready Issuance.supplied
  rw [h.ready.1, h.ready.2]

/-- **The next cycle moves the timer** if both operands are there, and if it
has not reached the latency or there is a result. -/
theorem advances (h : Awaits x heard s o) :
    s.advances = (x.supplied heard && (decide (o.cycles < s.latency) || s.result.isSome)) := by
  unfold Station.advances
  rw [h.holds, ← h.supplied]

/-- **A signal** is heard, and moves the timer if it is a cycle that moves
it. -/
theorem signal (h : Awaits x heard s o) (c : Signal) :
    ∃ o', Awaits x (heard ++ [c]) (s.signal c) o' ∧
      o'.cycles = o.cycles + if c = .cycle ∧ s.advances then 1 else 0 := by
  cases c with
  | cycle =>
    refine ⟨s.tick o, ⟨?_, ?_, ?_⟩, ?_⟩
    · rw [Station.signal, advance_occupant, h.holds, Option.map_some]
    · simp only [Signal.announced_concat_cycle, ← h.j]
      unfold tick
      split <;> rfl
    · simp only [Signal.announced_concat_cycle, ← h.k]
      unfold tick
      split <;> rfl
    · unfold tick
      split <;> simp_all
  | result tag v =>
    refine ⟨o.hear tag v, ⟨?_, ?_, ?_⟩, ?_⟩
    · rw [Station.signal, hear, h.holds, Option.map_some]
    · rw [filter_announced_concat, ← h.j]
      exact o.j.tag?_hear tag v
    · rw [filter_announced_concat, ← h.k]
      exact o.k.tag?_hear tag v
    · simp [Occupant.hear]

/-- **Without a result** the timer follows the cycles that count, up to the
latency. -/
theorem signals_of_none (h : Awaits x heard s o) (hresult : s.result = none)
    (hle : o.cycles ≤ s.latency) (l : List Signal) :
    ∃ o', Awaits x (heard ++ l) (s.signals l) o' ∧
      o'.cycles = min s.latency (o.cycles + x.counted heard l) := by
  induction l generalizing s o heard with
  | nil =>
    refine ⟨o, by rwa [List.append_nil], ?_⟩
    unfold Issuance.counted
    omega
  | cons c rest ih =>
    obtain ⟨o₁, h₁, hcycles₁⟩ := h.signal c
    obtain ⟨hslot, hsame⟩ := s.signal_frame c
    have hlatency : (s.signal c).latency = s.latency := by rw [hslot]
    -- The cap is in the step already: at the latency no cycle moves the timer.
    have hstep : o₁.cycles =
        min s.latency (o.cycles + if c = .cycle ∧ x.supplied heard then 1 else 0) := by
      rw [hcycles₁, h.advances, hresult]
      by_cases hcounts : c = .cycle ∧ x.supplied heard
      · by_cases hlt : o.cycles < s.latency
        · rw [if_pos hcounts, if_pos (by simp [hcounts, hlt])]
          omega
        · rw [if_pos hcounts, if_neg (by simp [hlt])]
          omega
      · rw [if_neg hcounts, if_neg (by simp_all)]
        omega
    obtain ⟨o', h', hcycles'⟩ := ih h₁ (hsame.trans hresult) (by omega)
    refine ⟨o', by rwa [List.append_cons], ?_⟩
    rw [hcycles', hlatency, hstep, Issuance.counted_cons]
    omega

/-- **With a result** it follows them without end. -/
theorem signals_of_some (h : Awaits x heard s o) (hresult : s.result.isSome) (l : List Signal) :
    ∃ o', Awaits x (heard ++ l) (s.signals l) o' ∧
      o'.cycles = o.cycles + x.counted heard l := by
  induction l generalizing s o heard with
  | nil => exact ⟨o, by rwa [List.append_nil], rfl⟩
  | cons c rest ih =>
    obtain ⟨o₁, h₁, hcycles₁⟩ := h.signal c
    rw [h.advances, hresult, Bool.or_true, Bool.and_true] at hcycles₁
    obtain ⟨o', h', hcycles'⟩ := ih h₁ (by rwa [(s.signal_frame c).2])
    refine ⟨o', by rwa [List.append_cons], ?_⟩
    rw [hcycles', hcycles₁, Issuance.counted_cons]
    omega

end Awaits

/-! ## The timer -/

/-- **A station in use, some time after an issue**: what it shows, given the
signals it has got since and where its timer is to be. -/
structure Timed (x : Issuance) (heard : List Signal) (cycles : Nat) (s : Station) : Prop where
  busy : s.busy
  /-- An operand is there if it was issued without a tag, or if the tag has
  been announced since. -/
  ready : ∀ o, s.occupant = some o →
    o.j.ready = x.qj.all (Signal.announced heard) ∧ o.k.ready = x.qk.all (Signal.announced heard)
  operandsReady : s.operandsReady = x.supplied heard
  exclusive : ∀ o, s.occupant = some o →
    (o.j.value? = none ∨ o.j.tag? = none) ∧ (o.k.value? = none ∨ o.k.tag? = none)
  counts : s.cycles = cycles
  /-- A cycle says of itself whether it moves the timer. -/
  moves : s.advance.cycles = s.cycles + if s.advances then 1 else 0
  /-- A result leaves once the timer has gone past the latency. -/
  sends : s.readyForBus ↔ s.result.isSome ∧ s.latency < s.cycles

/-- Each call of the timer says whether it moves it, in a free station too. -/
theorem cycles_advance (s : Station) :
    s.advance.cycles = s.cycles + if s.advances then 1 else 0 := by
  unfold cycles
  rw [advance_occupant]
  cases ho : s.occupant with
  | none =>
    have hstill : ¬ s.advances := by simp [Station.advances, ho]
    rw [if_neg hstill]
    rfl
  | some o =>
    rw [Option.map_some, Option.map_some, Option.map_some, Option.getD_some, Option.getD_some,
      tick]
    split <;> rfl

theorem Awaits.timed {heard : List Signal} (h : Awaits x heard s o) :
    Timed x heard o.cycles s := by
  have hbusy : s.busy := by rw [busy, h.holds, Option.isSome_some]
  have hcycles : s.cycles = o.cycles := by
    rw [cycles, h.holds, Option.map_some, Option.getD_some]
  refine ⟨hbusy, ?_, ?_, ?_, hcycles, s.cycles_advance, ?_⟩
  · intro o' ho'
    obtain rfl := Option.some.inj (h.holds.symm.trans ho')
    exact h.ready
  · rw [operandsReady, h.holds, Option.all_some, h.supplied]
  · intro o' _
    exact ⟨o'.j.value_or_tag, o'.k.value_or_tag⟩
  · rw [readyForBus, hbusy, Bool.true_and, Bool.and_eq_true, decide_eq_true_eq]

/-- **The timer counts the cycles in which the operands are there.** An
instruction is issued to a free station, whatever had been left in it.

As long as there is no result, the timer is at the number of cycles that
count, but never past the latency. A result that is set then lets it go on
from where it is, one for each cycle that counts; and if it is at the latency,
the result leaves after the next cycle and not before. What a station has got
of the operands it keeps, with a result and without. -/
theorem timer_counts {s₀ : Station} (h : s.take x = .ok s₀) :
    (∀ before, (s₀.signals before).result = none ∧
      Timed x before (min s.latency (x.counted [] before)) (s₀.signals before)) ∧
    (∀ before v later, let told := (s₀.signals before).withResult v
      (told.signals later).result = some v ∧
      Timed x (before ++ later) (told.cycles + x.counted before later) (told.signals later) ∧
      (told.cycles = s.latency → ((told.signals later).readyForBus ↔ .cycle ∈ later))) ∧
    (∀ (t : Station) v later, t.Keeps (t.signals later) ∧
      t.Keeps ((t.withResult v).signals later)) := by
  have hissued : Awaits x [] s₀ x.occupant := .of_take h
  have hfresh : s₀.result = none ∧ s₀.toSlot = s.toSlot := by
    obtain ⟨-, rfl⟩ := take_eq_ok h
    exact ⟨rfl, rfl⟩
  have hlatency : s₀.latency = s.latency := by rw [hfresh.2]
  -- A run without a result, and what its timer shows.
  have hrun (before : List Signal) : ∃ o, Awaits x before (s₀.signals before) o ∧
      o.cycles = min s.latency (x.counted [] before) := by
    obtain ⟨o, ho, hcycles⟩ := hissued.signals_of_none hfresh.1 (Nat.zero_le _) before
    refine ⟨o, ho, ?_⟩
    rw [hcycles, hlatency, show x.occupant.cycles = 0 from rfl, Nat.zero_add]
  refine ⟨?_, ?_, ?_⟩
  · intro before
    obtain ⟨o, ho, hcycles⟩ := hrun before
    rw [← hcycles]
    exact ⟨(s₀.signals_frame before).2.trans hfresh.1, ho.timed⟩
  · intro before v later told
    obtain ⟨o, ho, hcycles⟩ := hrun before
    have htold : Awaits x before told o := ⟨ho.holds, ho.j, ho.k⟩
    obtain ⟨o', ho', hcycles'⟩ := htold.signals_of_some rfl later
    have hcount : told.cycles = o.cycles := htold.timed.counts
    obtain ⟨hslot, hresult⟩ := told.signals_frame later
    have htimed : Timed x (before ++ later) (told.cycles + x.counted before later)
        (told.signals later) := by
      rw [hcount, ← hcycles']
      exact ho'.timed
    refine ⟨hresult, htimed, ?_⟩
    intro hat
    have hsame : (told.signals later).latency = s.latency := by
      rw [hslot, show told.toSlot = (s₀.signals before).toSlot from rfl,
        (s₀.signals_frame before).1, hfresh.2]
    -- The timer has been moved, so the operands are there and each cycle counts.
    have hsupplied : x.supplied before := by
      refine Issuance.supplied_of_counted_pos [] ?_
      have hpos := s.latency_pos
      omega
    rw [htimed.sends, hresult, hsame, htimed.counts, hat,
      Issuance.counted_eq_count hsupplied, ← List.count_pos_iff]
    simp [told, withResult]
  · intro t v later
    exact ⟨t.keeps_signals later, (t.withResult v).keeps_signals later⟩

/-- An adder of three cycles, with a result that was set while it was free. -/
def sampleAdder : Station :=
  (ofSlot ⟨"Add1", .addSub, 3, 3, 3, by decide, by decide⟩).withResult 7

/-- An addition that waits for two stations. -/
def sampleAddition : Issuance := ⟨.alu .add 1 2 3, 0, 0, none, some 5, none, some 6, none⟩

/-- A wait in which one of its operands is announced twice. -/
def sampleWait : List Signal :=
  [.cycle, .result 6 9, .cycle, .result 6 1, .result 5 4, .cycle, .cycle, .cycle, .cycle]

/-- The two cycles before both operands are there do not count, and the timer
stops at three after that. It goes on with the result. -/
theorem timer_counts_sampleAdder :
    ∃ s₀, sampleAdder.take sampleAddition = .ok s₀ ∧
      let waited := s₀.signals sampleWait
      waited.cycles = 3 ∧ waited.readyForBus = false ∧
        (waited.withResult 13).readyForBus = false ∧
        ((waited.withResult 13).signals [.result 5 8, .cycle]).readyForBus = true ∧
        ((waited.withResult 13).signals [.cycle, .cycle]).cycles = 5 := by
  have htake : sampleAdder.take sampleAddition = .ok (sampleAdder.holding sampleAddition) := rfl
  obtain ⟨hnone, hsome, -⟩ := timer_counts htake
  obtain ⟨hresult, htimed⟩ := hnone sampleWait
  have hcycles := htimed.counts.trans
    (show min 3 (sampleAddition.counted [] sampleWait) = 3 by decide)
  refine ⟨sampleAdder.holding sampleAddition, htake, hcycles, ?_, ?_, ?_, ?_⟩
  · rw [← Bool.not_eq_true, htimed.sends, hresult]
    simp
  · rw [← Bool.not_eq_true]
    exact mt ((hsome sampleWait 13 []).2.2 hcycles).1 (by decide)
  · exact ((hsome sampleWait 13 [.result 5 8, .cycle]).2.2 hcycles).2 (by decide)
  · rw [(hsome sampleWait 13 [.cycle, .cycle]).2.1.counts]
    exact congrArg (· + 2) hcycles

end Station

end OutOfOrder
