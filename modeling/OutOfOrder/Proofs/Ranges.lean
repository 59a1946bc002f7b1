import OutOfOrder.Proofs.Inputs
import OutOfOrder.Proofs.Renumbering.Names
/-!
# Words stay in their range

Values come into the machine as integers of any size: as data, as values of
registers, as offsets and labels, and as what an instruction computes. Where
they are stored they become words. `InRange` says that nothing is kept on the
way that is not a word, and that no number is used as a tag that is not one.

Most of this is coherence: operands, results and effective addresses are
words, an address is not known before its base is, and a tag is that of
somebody issued. What coherence leaves out is what calls may write, so for
register 0 and for the program counter a call is followed through each of its
writes.
-/

namespace OutOfOrder

/-- An integer in the range of a word. -/
def InWord (v : Int) : Prop := 0 ≤ v ∧ v ≤ 65535

theorem Word.inWord (w : Word) : InWord w.toInt := by
  have := w.toInt_inRange
  exact ⟨this.1, by omega⟩

theorem InWord.exists_toInt {v : Int} (h : InWord v) : ∃ w : Word, v = w.toInt :=
  Word.exists_toInt ⟨h.1, Int.lt_add_one_of_le h.2⟩

/-! ## Register 0 -/

namespace Registers

variable {f f' : Registers} {r : Reg} {v : Int}

theorem zero_set : (f.set r v).values.get 0 = f.values.get 0 := by
  rw [set]
  split
  · rfl
  · rename_i hr
    exact Vector.getElem_set_ne r.isLt (0 : Reg).isLt fun hv => hr (Fin.ext hv)

theorem zero_load {values : List Int} (h : f.load values = .ok f') :
    f'.values.get 0 = f.values.get 0 := by
  rw [load] at h
  split at h <;> cases h
  refine (Vector.getElem_ofFn ..).trans ?_
  split <;> rfl

theorem zero_broadcast {tag : Tag} {through : List Int} :
    (f.broadcast tag v through).values.get 0 = f.values.get 0 :=
  Vector.getElem_ofFn ..

theorem values_rename {t : Tag} : (f.rename r t).values = f.values := by
  rw [rename]
  split <;> rfl

theorem inWord_get : InWord (f.get r) := by
  rw [get]
  split
  · exact Word.inWord 0
  · exact Word.inWord _

end Registers

namespace Machine

variable {m m' : Machine} {n : Nat} {s : Station} {o : Occupant} {v : Int} {x : Operand}

/-- **What the numbers of a machine rest on**, beside coherence. Register 0
holds zero, the program counter is no further than just past the last
address, and a status table is kept with a branch and with nothing else. -/
structure Grounded (m : Machine) : Prop where
  zero : m.registers.values.get 0 = 0
  pc : m.pc ≤ 65536
  plain : ∀ n s o, m.Holds n s o → s.kind ≠ .beq → o.checkpoint = none

namespace Grounded

/-! ### Calls -/

theorem keptByLoading : KeptByLoading Grounded where
  memory _ _ _ h := { h with }
  register _ _ _ h := { h with zero := Registers.zero_set.trans h.zero }
  registers _ _ _ h hf := { h with zero := (Registers.zero_load hf).trans h.zero }
  pc _ a h := { h with pc := Nat.le_of_lt a.isLt }

theorem add (h : m.Grounded) (slot : Slot) :
    Grounded { m with stations := m.stations ++ [Station.ofSlot slot] } :=
  { h with plain := fun n s o hold => h.plain n s o (holds_added.1 hold) }

theorem configures (h : m.Grounded) (hm : Configures m m') : m'.Grounded := by
  rcases hm.added_or_kept keptByLoading h with ⟨slot, -, rfl⟩ | h
  · exact h.add slot
  · exact h

/-! ### Cycles -/

theorem advance (h : m.Grounded) : m.advance.Grounded where
  zero := h.zero
  pc := h.pc
  plain n s' o' hold' kind := by
    obtain ⟨s, o, hold, rfl, rfl⟩ := holds_advance.1 hold'
    rw [tick_eq]
    exact h.plain n s o hold (by rwa [s.advance_toSlot.1] at kind)

/-- An instruction is issued from an address, so the program counter comes
no further than past the last one. -/
theorem issue (h : m.Grounded) (hm : m.issue = .ok m') : m'.Grounded := by
  rcases issue_eq_ok hm with ⟨i, s₀, n₀, -, hf, hs, -, rfl⟩ | rfl
  case inr => exact h
  obtain ⟨hunit, hpc, -⟩ := fetch_eq_instruction hf
  refine ⟨?_, hpc, fun n s o hold kind => ?_⟩
  · change (m.renamed i s₀.tag).values.get 0 = 0
    rw [renamed]
    split
    · rw [Registers.values_rename]
      exact h.zero
    · exact h.zero
  · rcases (holds_dispatched (List.getElem?_eq_some_iff.1 hs).1).1 hold with
      ⟨rfl, rfl, rfl⟩ | ⟨-, hold⟩
    · refine if_neg fun hbranch => kind ?_
      exact Option.some.inj (hunit.symm.trans (Instruction.unit?_eq_beq_iff.2 hbranch))
    · exact h.plain n s o hold kind

theorem move {l : List Act} (h : m.Grounded) (hm : Move m l m') : m'.Grounded where
  zero := by
    cases hm with
    | call => exact Registers.zero_set.trans h.zero
    | _ => exact h.zero
  pc := by
    cases hm with
    | branch | call | ret => exact Nat.le_of_lt (Fin.isLt _)
    | _ => exact h.pc
  plain n s' o' hold' kind := by
    obtain ⟨s, o, hold, hslot, -, ho, -⟩ := hm.origin hold'
    rw [ho]
    exact h.plain n s o hold (by rwa [← hslot])

theorem moves {l : List Act} (h : m.Grounded) (hm : Moves m l m') : m'.Grounded := by
  induction hm with
  | refl => exact h
  | cons first rest ih => exact ih (h.move first)

theorem writeBack (h : m.Grounded) (hm : m.writeBack = .ok m') : m'.Grounded := by
  rcases writeBack_cases hm with ⟨-, rfl⟩ | ⟨x, -, rfl⟩
  · exact h
  refine ⟨Registers.zero_broadcast.trans h.zero, h.pc, fun n s' o' hold' kind => ?_⟩
  obtain ⟨-, s, o, hold, rfl, rfl⟩ := holds_sent.1 hold'
  rw [(s.told_toSlot ..).1] at kind
  simp only [Occupant.told, if_neg kind]
  exact h.plain n s o hold kind

theorem step (h : m.Grounded) (hm : m.step = .ok m') : m'.Grounded := by
  obtain ⟨m₁, m₂, m₃, h₁, h₂, h₃, rfl, -⟩ := step_eq_ok hm
  exact { ((h.advance.issue h₁).moves (execute_moves h₂)).writeBack h₃ with }

end Grounded

theorem Reachable.grounded (h : Reachable m) : m.Grounded := by
  induction h with
  | made h =>
    exact ofTable_induction (fun _ slot h _ => h.add slot)
      ⟨rfl, Nat.zero_le _, fun _ _ _ hold => nomatch hold.1⟩ h
  | call _ call ih => exact ih.configures call
  | step _ hm ih => exact ih.step hm

/-! ## All of the machine -/

/-- The value of an operand that a history supplies is a word. -/
theorem Supplies.inWord {es : List Entry} {source : Option Reg} (h : m.Supplies es source x)
    (hx : x.value? = some v) : InWord v := by
  rcases source with - | r
  · rw [show x = .unused from h] at hx
    cases hx
  · rcases x with - | w | t <;> cases hx
    obtain ⟨w, hw⟩ := h.exists_value rfl
    cases hw
    exact w.inWord

/-- A tag is a position of the pool. -/
def HasTag (m : Machine) (t : Tag) : Prop := 0 ≤ t ∧ t < m.stations.length

/-- **Every number of the machine is in its range.** -/
structure InRange (m : Machine) : Prop where
  /-- The memory has a word at each of 65536 addresses. -/
  memory : ∀ a, InWord a → ∃ v, m.memory.read a = .ok v ∧ InWord v
  /-- And nowhere else. -/
  nowhereElse : ∀ a v, m.memory.read a = .ok v → InWord a
  /-- There are eight registers, and each holds a word. -/
  registers : m.registers.snapshot.length = 8 ∧ ∀ v ∈ m.registers.snapshot, InWord v
  /-- Register 0 holds zero, and is read as zero. -/
  zero : m.registers.values.get 0 = 0 ∧ m.registers.get 0 = 0
  /-- The program counter is an address, or just past the last one. -/
  pc : m.pc ≤ 65536
  /-- What an instruction has of its operands, or has computed, are words. -/
  operands : ∀ n s o v, m.Holds n s o → o.j.value? = some v ∨ o.k.value? = some v → InWord v
  results : ∀ n s o v, m.Holds n s o → s.result = some v → InWord v
  /-- An address that is ready is one, and its base is there. -/
  addresses : ∀ n s o, m.Holds n s o → o.addressReady = true →
    (∃ a, o.imm = some a ∧ InWord a) ∧ o.j.tag? = none
  /-- The tags of operands, of the status table and of the tables kept with
  instructions are positions of the pool. -/
  operandTags : ∀ n s o t, m.Holds n s o → o.j.tag? = some t ∨ o.k.tag? = some t → m.HasTag t
  statusTags : ∀ r t, m.registers.status.get r = some t → m.HasTag t
  savedTags : ∀ n s o saved r t, m.Holds n s o → o.checkpoint = some saved →
    saved.get r = some t → m.HasTag t

/-- **Words never leave their range.** A machine is made from a pool table,
and then there are inputs in any order: calls with any numbers, finished or
refused, and cycles without a fault. Whatever they were, every number of the
machine is in its range. -/
theorem words_in_range {table : PoolTable} {offsetsChecked relativeCalls : Bool}
    {inputs : List Input} (h : ofTable table offsetsChecked relativeCalls = .ok m)
    (hm : m.undergo Machine.step inputs = .ok m') : m'.InRange := by
  have hr : Reachable m' := (Reachable.made h).undergo hm
  have hc := hr.coherent
  have hg := hr.grounded
  constructor
  case memory =>
    intro a ha
    obtain ⟨w, rfl⟩ := ha.exists_toInt
    exact ⟨_, read_toInt m'.memory w, Word.inWord _⟩
  case nowhereElse =>
    intro a v hread
    obtain ⟨w, rfl, -⟩ := read_eq_ok hread
    exact w.inWord
  case registers =>
    refine ⟨by rw [Registers.snapshot, List.length_map, List.length_finRange], fun v hv => ?_⟩
    obtain ⟨r, -, rfl⟩ := List.mem_map.1 hv
    exact Registers.inWord_get
  case zero => exact ⟨hg.zero, rfl⟩
  case pc => exact hg.pc
  case operands =>
    intro n s o v hold hv
    obtain ⟨hj, hk⟩ := hc.sources n s o hold
    exact hv.elim hj.inWord hk.inWord
  case results =>
    intro n s o v hold hv
    obtain ⟨-, -, w, rfl⟩ := (hc.fits n s o hold).result v hv
    exact w.inWord
  case addresses =>
    intro n s o hold hready
    obtain ⟨-, hj, w, himm⟩ := (hc.fits n s o hold).address hready
    refine ⟨⟨_, himm, w.inWord⟩, ?_⟩
    rcases hx : o.j with - | v | t <;> rw [hx] at hj
    · rfl
    · rfl
    · cases hj
  case operandTags => exact fun n s o t hold ht => hr.operand_placed hold ht
  case statusTags => exact fun r t ht => hr.status_placed ht
  case savedTags =>
    intro n s o saved r t hold hsaved ht
    have kind : s.kind = .beq := by
      by_contra kind
      rw [hg.plain n s o hold kind] at hsaved
      cases hsaved
    exact hr.saved_placed hold kind hsaved ht

/-- Calls with numbers that are out of range, some of them refused, and a
program that stores a sum. -/
def largeInputs : List Input :=
  [.call (.setRegister 2 (-1)), .call (.setRegister 8 1), .call (.setStart 65536),
    .call (.loadProgram [.alu .add 1 2 2, .store 1 0 10] 0 [(3, 65536)] [])]
  ++ List.replicate 6 .cycle

/-- The sum is stored as a word. -/
theorem words_in_range_sample :
    ∃ m, samplePool.undergo Machine.step largeInputs = .ok m ∧
      m.memory.read 10 = .ok 65534 ∧ m.InRange := by
  have hpool : ofTable [("ADD", { stationCount := some 1, latency := some 1 }),
      ("BEQ", { stationCount := some 1, latency := some 2 }),
      ("STORE", { stationCount := some 1, latency := some 2, addressLatency := some 1 })]
      true false = .ok samplePool := rfl
  obtain ⟨m, hm, h⟩ := exists_of_any (x := samplePool.undergo Machine.step largeInputs)
    (p := fun m => m.memory.get 10 = 65534) (by decide +kernel)
  refine ⟨m, hm, ?_, words_in_range hpool hm⟩
  rw [show (10 : Int) = Word.toInt 10 from rfl, read_toInt, of_decide_eq_true h]
  rfl

end Machine

end OutOfOrder
