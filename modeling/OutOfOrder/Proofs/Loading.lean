import OutOfOrder.Proofs.Placing
/-!
# Loading a program

A program is loaded in three parts: its instructions are placed, the words of
data are written over them, and the program counter is set. The data are
written one by one, so an address that is listed twice holds the last of its
words, and an instruction is there only where no word is written over it
(`Loaded`).

Where the start is an address, the words have addresses and the offsets fit,
only the places and the targets of the instructions can be at fault. `Misfit`
says which they are without a machine, and `loadProgram_cases` that a program
is loaded or has one.
-/

namespace OutOfOrder

namespace Memory

variable {mem mem₁ mem' : Memory} {pairs before after : List (Int × Int)} {a v : Int} {p : Address}

theorem exists_write (mem : Memory) (v : Int) (h : 0 ≤ a ∧ a < 65536) : ∃ mem', mem.write a v = .ok mem' := by
  rw [write, address, dif_pos h]
  exact ⟨_, rfl⟩

/-- Words that have addresses are written. -/
theorem exists_writePairs (mem : Memory) (h : ∀ w ∈ pairs, 0 ≤ w.1 ∧ w.1 < 65536) :
    ∃ mem', mem.writePairs pairs = .ok mem' := by
  induction pairs generalizing mem with
  | nil => exact ⟨mem, rfl⟩
  | cons w rest ih =>
    obtain ⟨a, v⟩ := w
    obtain ⟨mem₁, h₁⟩ := exists_write mem v (h (a, v) List.mem_cons_self)
    rw [writePairs, h₁]
    exact ih _ fun w hw => h w (List.mem_cons_of_mem _ hw)

theorem writePairs_cons (h : mem.writePairs ((a, v) :: after) = .ok mem') :
    ∃ p : Address, (p.val : Int) = a ∧ (mem.set p (Word.ofInt v)).writePairs after = .ok mem' := by
  rw [writePairs] at h
  rcases h₁ : mem.write a v with fault | mem₁ <;> rw [h₁] at h
  · cases h
  · obtain ⟨p, ha, rfl⟩ := Machine.write_eq_ok h₁
    exact ⟨p, ha.symm, h⟩

/-- Where no word is written memory keeps what it had. -/
theorem get_writePairs_of_ne (h : mem.writePairs pairs = .ok mem')
    (hp : ∀ w ∈ pairs, w.1 ≠ p.val) : mem'.get p = mem.get p := by
  induction pairs generalizing mem with
  | nil =>
    cases h
    rfl
  | cons w rest ih =>
    obtain ⟨a, v⟩ := w
    obtain ⟨q, rfl, hrest⟩ := writePairs_cons h
    rw [ih hrest fun w hw => hp w (List.mem_cons_of_mem _ hw), get_set, if_neg]
    rintro rfl
    exact hp _ List.mem_cons_self rfl

/-- **The last word for an address is what it holds.** -/
theorem get_writePairs_of_last (h : mem.writePairs (before ++ (a, v) :: after) = .ok mem')
    (hlast : ∀ w ∈ after, w.1 ≠ a) :
    ∃ p : Address, (p.val : Int) = a ∧ mem'.get p = Word.ofInt v := by
  induction before generalizing mem with
  | nil =>
    obtain ⟨p, rfl, hafter⟩ := writePairs_cons h
    exact ⟨p, rfl, by rw [get_writePairs_of_ne hafter hlast, get_set, if_pos rfl]⟩
  | cons w rest ih =>
    obtain ⟨b, u⟩ := w
    obtain ⟨q, -, hrest⟩ := writePairs_cons h
    exact ih hrest

end Memory

namespace Machine

variable {m m₁ m' : Machine} {i : Instruction} {program : List Instruction} {start a : Int}
variable {words : List (Int × Int)} {relative : Bool} {fault : Fault}

/-- **What is wrong with a program** that starts at an address: it reaches
beyond the last address, or one of its branches and calls has its target
outside of memory. -/
inductive Misfit (relative : Bool) (program : List Instruction) (start : Int) : Fault → Prop where
  | long (some : program ≠ []) (beyond : 65535 < start + program.length - 1) :
    Misfit relative program start (.outOfBounds .instruction (start + program.length - 1))
  | target {k : Nat} {i : Instruction} {t : Int} (place : program[k]? = some i)
    (aims : i.jumpTarget? relative (start + k) = some t) (outside : ¬ (0 ≤ t ∧ t ≤ 65535)) :
    Misfit relative program start (.jumpTarget t i (start + k))

/-- **The program and the words are in memory**: each instruction at its place
if no word is listed for it, and at each address that is listed the last of its
words. -/
structure Loaded (m : Machine) (program : List Instruction) (start : Int)
    (words : List (Int × Int)) : Prop where
  instruction : ∀ (k : Nat) (i : Instruction), program[k]? = some i →
    ∃ p : Address, (p.val : Int) = start + k ∧
      ((∀ w ∈ words, w.1 ≠ p.val) → m.memory.get p = i.encode)
  word : ∀ before a v after, words = before ++ (a, v) :: after → (∀ w ∈ after, w.1 ≠ a) →
    ∃ p : Address, (p.val : Int) = a ∧ m.memory.get p = Word.ofInt v

/-! ## The instructions -/

/-- What can be wrong with one instruction is its target. -/
theorem jumpTarget_of_addInstruction (h : m.addInstruction i a = .error fault)
    (ha : 0 ≤ a ∧ a < 65536) (hfits : i.offsetFits) :
    ∃ t, i.jumpTarget? m.relativeCalls a = some t ∧ ¬ (0 ≤ t ∧ t ≤ 65535) ∧
      fault = .jumpTarget t i a := by
  have htarget : m.checkTarget i a = .error fault := by
    rw [addInstruction, address, dif_pos ha, hfits] at h
    simp only [bind, Except.bind, pure, Except.pure, Bool.not_true, Bool.and_false,
      Bool.false_eq_true, if_false] at h
    rcases hcheck : m.checkTarget i a with fault' | u <;> rw [hcheck] at h
    · rw [Except.error.inj h]
    · cases h
  rw [checkTarget] at htarget
  split at htarget
  · rename_i t hjump
    split at htarget
    · cases htarget
    · exact ⟨t, hjump, by omega, (Except.error.inj htarget).symm⟩
  · cases htarget

/-- A program that reaches beyond the last address is refused at once. -/
theorem addInstructions_of_beyond (hne : program ≠ []) (hstart : 0 ≤ start ∧ start < 65536)
    (hbeyond : 65535 < start + program.length - 1) : m.addInstructions program start =
      .error ⟨.outOfBounds .instruction (start + program.length - 1), m⟩ := by
  rcases program with - | ⟨i, rest⟩
  · exact absurd rfl hne
  have heq : m.addInstructions (i :: rest) start =
      m.guard (address .instruction start) >>= fun _ =>
        m.guard (address .instruction (start + (i :: rest).length - 1)) >>= fun _ =>
          m.placeAll start (i :: rest) := rfl
  rw [heq, address, address, dif_pos hstart, dif_neg (by omega)]
  rfl

/-- **The instructions are placed, or the program has a misfit.** -/
theorem addInstructions_or_misfit (hstart : 0 ≤ start ∧ start < 65536)
    (hfits : ∀ i ∈ program, i.offsetFits) :
    (∃ m', m.addInstructions program start = .ok m' ∧ Placed m program start m' ∧
        InMemory program start ∧ ∀ fault, ¬ Misfit m.relativeCalls program start fault) ∨
      ∃ t, m.addInstructions program start = .error t ∧
        Misfit m.relativeCalls program start t.fault := by
  by_cases hlong : program ≠ [] ∧ 65535 < start + program.length - 1
  · exact .inr ⟨_, addInstructions_of_beyond hlong.1 hstart hlong.2, .long hlong.1 hlong.2⟩
  have hin : InMemory program start := by
    intro k hk
    have hne : program ≠ [] := List.ne_nil_of_length_pos (Nat.zero_lt_of_lt hk)
    have hend : ¬ 65535 < start + program.length - 1 := fun hbeyond => hlong ⟨hne, hbeyond⟩
    omega
  rcases addInstructions_cases m program start with ⟨-, heq⟩ | ⟨hout, -⟩
  swap
  · exact absurd hin hout
  rw [heq]
  rcases placeAll_cases m program start with
    ⟨m', hall, heach⟩ | ⟨k, i, t, hi, hall, heach, hrefused⟩
  · refine .inl ⟨m', hall, placed_of_addEach heach, hin, fun fault hmisfit => ?_⟩
    cases hmisfit with
    | long hne hbeyond => exact hlong ⟨hne, hbeyond⟩
    | target hi hjump hout =>
      have := (allows_of_addEach heach _ hi).2 _ hjump
      omega
  · have hrelative : t.machine.relativeCalls = m.relativeCalls := by
      obtain ⟨_, _, hframe⟩ := (placed_of_addEach heach).frame
      rw [hframe]
    obtain ⟨target, hjump, hout, hfault⟩ := jumpTarget_of_addInstruction hrefused
      (hin k (List.getElem?_eq_some_iff.1 hi).1) (hfits i (List.mem_of_getElem? hi))
    exact .inr ⟨t, hall, hfault ▸ .target hi (hrelative ▸ hjump) hout⟩

/-! ## The program as a whole -/

/-- What has been placed is loaded when the words are written over it. -/
theorem Placed.loaded {mem : Memory} (hplaced : Placed m program start m₁)
    (hin : InMemory program start) (hwords : m₁.memory.writePairs words = .ok mem) :
    Loaded { m₁ with memory := mem } program start words where
  instruction k i hi := by
    obtain ⟨p, hp⟩ := Word.exists_toInt (hin k (List.getElem?_eq_some_iff.1 hi).1)
    refine ⟨p, hp.symm, fun hfree => ?_⟩
    rw [Memory.get_writePairs_of_ne hwords hfree]
    exact hplaced.word k i p hi hp.symm
  word _ _ _ _ hsplit hlast := by
    subst hsplit
    exact Memory.get_writePairs_of_last hwords hlast

/-- **A program is loaded, or it has a misfit** and the call fails on one. -/
theorem loadProgram_cases (m : Machine) (hstart : 0 ≤ start ∧ start < 65536)
    (hfits : ∀ i ∈ program, i.offsetFits) (hwords : ∀ w ∈ words, 0 ≤ w.1 ∧ w.1 < 65536) :
    (∃ m', m.loadProgram program start words [] = .ok m' ∧ m'.Loaded program start words ∧
        ∀ fault, ¬ Misfit m.relativeCalls program start fault) ∨
      ∃ t, m.loadProgram program start words [] = .error t ∧
        Misfit m.relativeCalls program start t.fault := by
  rw [loadProgram]
  rcases addInstructions_or_misfit (m := m) hstart hfits with
    ⟨m₁, h₁, hplaced, hin, hnone⟩ | ⟨t, ht, hmisfit⟩
  · obtain ⟨mem, hmem⟩ := m₁.memory.exists_writePairs hwords
    have hset : m₁.setWords words = .ok { m₁ with memory := mem } := by rw [setWords, hmem]
    obtain ⟨hinstruction, hword⟩ := hplaced.loaded hin hmem
    rw [h₁]
    dsimp only [bind, Except.bind]
    rw [hset]
    dsimp only
    rw [setRegisterPairs, Registers.writePairs]
    dsimp only
    rw [jumpTo, address, dif_pos hstart]
    exact .inl ⟨_, rfl, ⟨hinstruction, hword⟩, hnone⟩
  · rw [ht]
    exact .inr ⟨t, rfl, hmisfit⟩

end Machine

end OutOfOrder
