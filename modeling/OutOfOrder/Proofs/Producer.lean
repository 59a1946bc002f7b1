import OutOfOrder.Proofs.Flight
/-!
# Producers

A register is written through the bus by the instruction whose destination
it is, and a call writes the link register when it resolves. `lastWriter`
is the last instruction of a history that writes a register. While it is
in flight it is the register's producer: whoever wants the register has to
wait for it (`producer?`).

A status table describes a history when each of its entries names the
station of the producer, and is empty where there is none. The three kinds
of tag the machine keeps are tags of producers: the status in use describes
the whole history, a saved table describes the history up to its branch,
and an operand waits for the producer of its register among the
instructions before its own.
-/

namespace OutOfOrder

/-- A call. -/
def Instruction.isCall (i : Instruction) : Bool := i.opCode? = some .call

/-- The instruction writes the register, through the bus or as a call. -/
def Instruction.writes (i : Instruction) (r : Reg) : Bool :=
  i.destination? = some r || (i.isCall && r = Reg.link)

/-- The last instruction of a history that writes a register. -/
def lastWriter (l : List Entry) (r : Reg) : Option Entry :=
  l.reverse.find? fun e => e.instr.writes r

section LastWriter

variable {l l' : List Entry} {r : Reg} {e w : Entry}

theorem lastWriter_append : lastWriter (l ++ l') r = (lastWriter l' r).or (lastWriter l r) := by
  simp only [lastWriter, List.reverse_append, List.find?_append]

theorem lastWriter_concat :
    lastWriter (l ++ [e]) r = if e.instr.writes r then some e else lastWriter l r := by
  simp only [lastWriter, List.reverse_append, List.reverse_singleton, List.singleton_append,
    List.find?_cons]
  cases e.instr.writes r <;> rfl

theorem mem_of_lastWriter (h : lastWriter l r = some w) : w ∈ l ∧ w.instr.writes r := by
  have hw := List.find?_some h
  exact ⟨List.mem_reverse.1 (List.mem_of_find?_eq_some h), hw⟩

theorem lastWriter_eq_none_iff : lastWriter l r = none ↔ ∀ e ∈ l, ¬ e.instr.writes r := by
  simp [lastWriter]

/-- A history that ends with instructions that do not write the register has
the last writer it had without them. -/
theorem lastWriter_append_of_not_writes (h : ∀ e ∈ l', ¬ e.instr.writes r) :
    lastWriter (l ++ l') r = lastWriter l r := by
  rw [lastWriter_append, lastWriter_eq_none_iff.2 h, Option.none_or]

/-- **In a history in order the last writer is the writer of the greatest
number.** -/
theorem lastWriter_eq_some_iff (hl : InOrder l) :
    lastWriter l r = some w ↔
      w ∈ l ∧ w.instr.writes r ∧ ∀ e ∈ l, e.instr.writes r → e.seq ≤ w.seq := by
  have key : ∀ w, lastWriter l r = some w →
      w ∈ l ∧ w.instr.writes r ∧ ∀ e ∈ l, e.instr.writes r → e.seq ≤ w.seq := by
    intro w h
    obtain ⟨hmem, hw⟩ := mem_of_lastWriter h
    refine ⟨hmem, hw, fun e he hwe => ?_⟩
    obtain ⟨-, as, bs, hsplit, has⟩ := List.find?_eq_some_iff_append.1 h
    have hl' : l = bs.reverse ++ w :: as.reverse := by
      simpa using congrArg List.reverse hsplit
    rw [hl'] at he hl
    rcases List.mem_append.1 he with he | he
    · exact Int.le_of_lt ((List.pairwise_append.1 hl).2.2 e he w List.mem_cons_self)
    · rcases List.mem_cons.1 he with rfl | he
      · exact Int.le_refl _
      · simpa [hwe] using has e (List.mem_reverse.1 he)
  refine ⟨key w, ?_⟩
  rintro ⟨hmem, hw, hmax⟩
  rcases h : lastWriter l r with - | w'
  · exact absurd hw (lastWriter_eq_none_iff.1 h w hmem)
  · obtain ⟨hmem', hw', hmax'⟩ := key w' h
    have h₁ := hmax w' hmem' hw'
    have h₂ := hmax' w hmem hw
    rw [hl.eq_of_seq_eq hmem hmem' (by omega)]

/-- Leaving out entries that the last writer is not among changes nothing. -/
theorem lastWriter_filter {p : Entry → Bool} (hl : InOrder l) (h : lastWriter l r = some w)
    (hp : p w) : lastWriter (l.filter p) r = some w := by
  obtain ⟨hmem, hw, hmax⟩ := (lastWriter_eq_some_iff hl).1 h
  exact (lastWriter_eq_some_iff (hl.filter p)).2
    ⟨List.mem_filter.2 ⟨hmem, hp⟩, hw, fun e he => hmax e (List.mem_filter.1 he).1⟩

end LastWriter

namespace Machine

variable {m m' : Machine} {l : List Entry} {r : Reg} {w : Entry}

/-- **The producer of a register.** The last instruction of a history that
writes the register, if it is still in flight. Register 0 has none. -/
def producer? (m : Machine) (l : List Entry) (r : Reg) : Option Entry :=
  if r = 0 then none else (lastWriter l r).filter fun e => e.seq ∈ m.flight

theorem producer?_eq_some_iff :
    m.producer? l r = some w ↔ r ≠ 0 ∧ lastWriter l r = some w ∧ w.seq ∈ m.flight := by
  simp only [producer?]
  split
  · rename_i h
    simp [h]
  · rename_i h
    simp [h, Option.filter_eq_some_iff]

theorem producer?_eq_none_iff :
    m.producer? l r = none ↔ r = 0 ∨ ∀ w, lastWriter l r = some w → w.seq ∉ m.flight := by
  simp only [producer?]
  split
  · rename_i h
    simp [h]
  · rename_i h
    simp [h, Option.filter_eq_none_iff]

theorem mem_of_producer? (h : m.producer? l r = some w) : w ∈ l ∧ w.instr.writes r :=
  mem_of_lastWriter (producer?_eq_some_iff.1 h).2.1

/-- **A producer depends on what is in flight, and on no more of the
machine.** -/
theorem producer?_congr
    (h : ∀ e ∈ l, e.instr.writes r → (e.seq ∈ m'.flight ↔ e.seq ∈ m.flight)) :
    m'.producer? l r = m.producer? l r := by
  simp only [producer?]
  split
  · rfl
  · rcases hw : lastWriter l r with - | w
    · rfl
    · obtain ⟨hmem, hwr⟩ := mem_of_lastWriter hw
      simp only [Option.filter_some, h w hmem hwr]

/-- When one instruction leaves its station it produces nothing any more. -/
theorem producer?_of_release {q : Int} (h : ∀ x, x ∈ m'.flight ↔ x ∈ m.flight ∧ x ≠ q) :
    m'.producer? l r = (m.producer? l r).filter fun e => e.seq ≠ q := by
  simp only [producer?]
  split
  · rfl
  · rcases lastWriter l r with - | w
    · rfl
    · simp only [Option.filter_some, h]
      by_cases hf : w.seq ∈ m.flight <;> simp [hf, Option.filter_some]

/-- Histories with the same last writer have the same producer. -/
theorem producer?_congr_list {l' : List Entry} (h : lastWriter l' r = lastWriter l r) :
    m.producer? l' r = m.producer? l r := by
  simp only [producer?, h]

/-- What was issued, without a call that has not resolved: such a call is not
a writer of the link register yet. -/
def renamers (m : Machine) : List Entry :=
  m.issued.filter fun e => !(e.instr.isCall && e.seq ∈ m.flight)

theorem mem_renamers {e : Entry} :
    e ∈ m.renamers ↔ e ∈ m.issued ∧ ¬ (e.instr.isCall ∧ e.seq ∈ m.flight) := by
  simp only [renamers, List.mem_filter, Bool.not_eq_true', Bool.and_eq_false_iff,
    decide_eq_false_iff_not, not_and, or_iff_not_imp_left, Bool.not_eq_false]

theorem mem_issued_of_renamers : ∀ e ∈ m.renamers, e ∈ m.issued :=
  fun _ he => (mem_renamers.1 he).1

/-- **A status table describes a history.** Each register waits for its
producer, and for nothing if it has none. -/
def Describes (m : Machine) (l : List Entry) (table : StatusTable) : Prop :=
  ∀ r : Reg, table.get r = (m.producer? l r).map Entry.tag

/-- **What a source of an instruction is, after a history.** The operand
waits for the producer of its register; if there is none it holds a word;
and it is unused if the instruction has no such source. -/
def Supplies (m : Machine) (l : List Entry) (source : Option Reg) (x : Operand) : Prop :=
  match source with
  | none => x = .unused
  | some r =>
    match m.producer? l r with
    | some w => x = .waiting w.tag
    | none => ∃ v : Word, x = .value v.toInt

/-- A source that waits for nothing holds a word. -/
theorem Supplies.exists_value {x : Operand} (h : m.Supplies l (some r) x) (hx : x.ready) :
    ∃ v : Word, x = .value v.toInt := by
  simp only [Supplies] at h
  split at h
  · rw [h] at hx
    cases hx
  · exact h

end Machine

end OutOfOrder
