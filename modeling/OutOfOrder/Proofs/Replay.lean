import Mathlib.Data.List.Induction
import OutOfOrder.Proofs.Producer
import OutOfOrder.Proofs.Sequential
/-!
# Replaying a history

The instructions of a history are performed one after the other on the
sequential machine. Each is the recorded instruction at the recorded
address, and nothing is fetched.

A replay is read backwards. A register holds the result of its last writer
(`read_replay_of_lastWriter`), and a word of memory what the last store to
it has written (`get_upTo_of_not_storesTo`).
-/

namespace OutOfOrder

/-! ## Operations on words -/

/-- **A unit computes what the operation does to sixteen bits.** -/
theorem AluOp.eval_toInt (op : AluOp) (a b : Word) :
    op.eval a.toInt b.toInt = (op.onWords a b).toInt := by
  have hword : (op.onWords a b).toInt =
      ((op.onBits (BitVec.ofFin a) (BitVec.ofFin b)).toNat : Int) := rfl
  have ha : (BitVec.ofFin (w := 16) a).toNat = a.val := rfl
  have hb : (BitVec.ofFin (w := 16) b).toNat = b.val := rfl
  have hwrap : ∀ w : Word, (wrap w.toInt).toNat = w.val := by
    intro w
    simp only [wrap, Word.toInt]
    omega
  rw [hword]
  cases op with
  | add =>
    simp only [eval, onBits, BitVec.toNat_add, ha, hb, wrap, Word.toInt]
    omega
  | sub =>
    simp only [eval, onBits, BitVec.toNat_sub, ha, hb, wrap, Word.toInt]
    omega
  | nor =>
    have hor : a.val ||| b.val < 2 ^ 16 := Nat.or_lt_two_pow a.isLt b.isLt
    simp only [eval, onBits, BitVec.toNat_not, BitVec.toNat_or, ha, hb, hwrap]
    omega
  | mul =>
    simp only [eval, onBits, BitVec.toNat_mul, ha, hb, wrap, Word.toInt]
    omega

namespace Memory

theorem get_set (mem : Memory) (a b : Address) (w : Word) :
    (mem.set a w).get b = if a = b then w else mem.get b := by
  by_cases h : a = b
  · subst h
    rw [if_pos rfl]
    exact Vector.getElem_set_self _
  · rw [if_neg h]
    exact Vector.getElem_set_ne a.isLt b.isLt fun hv => h (Fin.ext hv)

theorem ext_get {mem mem' : Memory} (h : ∀ a, mem.get a = mem'.get a) : mem = mem' := by
  obtain ⟨words⟩ := mem
  obtain ⟨words'⟩ := mem'
  exact congrArg mk (Vector.ext fun i hi => h ⟨i, hi⟩)

end Memory

namespace Sequential.State

variable {relative : Bool} {s : State} {i : Instruction} {r : Reg}

/-! ## One instruction -/

/-- **What an instruction leaves in a register.** -/
theorem read_execute :
    (s.execute relative i).read r = if r ≠ 0 ∧ i.writes r then s.result i else s.read r := by
  have hwrite : ∀ (d : Reg) (w : Word), (s.write d w).read r =
      if r ≠ 0 ∧ d = r then w else s.read r := by
    intro d w
    by_cases hr : r = 0
    · rw [if_neg fun h => h.1 hr, read, read, if_pos hr, if_pos hr]
    · by_cases hd : d = r
      · subst hd
        rw [if_pos ⟨hr, rfl⟩, read, if_neg hr, write, if_neg hr]
        exact if_pos rfl
      · rw [if_neg fun h => hd h.2, write]
        split
        · rfl
        · rw [read, read, if_neg hr, if_neg hr]
          exact if_neg fun h => hd h.symm
  cases i with
  | load rA rB offset =>
    refine (hwrite rA _).trans ?_
    simp [Instruction.writes, Instruction.destination?, Instruction.isCall, Instruction.opCode?,
      result]
  | alu op rA rB rC =>
    refine (hwrite rA _).trans ?_
    cases op <;> simp [Instruction.writes, Instruction.destination?, Instruction.isCall,
      Instruction.opCode?, AluOp.opCode, result]
  | call label =>
    refine (hwrite Reg.link _).trans ?_
    simp [Instruction.writes, Instruction.destination?, Instruction.isCall, Instruction.opCode?,
      result, eq_comm]
  | _ =>
    refine (if_neg fun h => ?_).symm
    simp [Instruction.writes, Instruction.destination?, Instruction.isCall,
      Instruction.opCode?] at h

theorem memory_execute :
    (s.execute relative i).memory =
      match s.stores? i with
      | some (a, w) => s.memory.set a w
      | none => s.memory := by
  have hwrite : ∀ (d : Reg) (w : Word), (s.write d w).memory = s.memory := by
    intro d w
    rw [write]
    split <;> rfl
  cases i <;> first | rfl | exact hwrite _ _

/-! ## A history -/

/-- The instruction of an entry, performed where it was issued. -/
def perform (relative : Bool) (s : State) (e : Entry) : State :=
  execute relative { s with pc := e.pc } e.instr

/-- **The replay of a history.** -/
def replay (relative : Bool) (s : State) (l : List Entry) : State :=
  l.foldl (perform relative) s

/-- The replay of what was issued before a number. -/
def upTo (relative : Bool) (s : State) (l : List Entry) (q : Int) : State :=
  s.replay relative (l.filter fun e => e.seq < q)

/-- The result of an entry when it is performed. -/
def resultOf (s : State) (e : Entry) : Word := result { s with pc := e.pc } e.instr

/-- An entry, when it is performed, stores to an address. -/
def StoresTo (s : State) (e : Entry) (a : Address) : Prop := ∃ w, s.stores? e.instr = some (a, w)

variable {l l' : List Entry} {e w : Entry} {q q' : Int} {a : Address}

theorem replay_append :
    s.replay relative (l ++ l') = (s.replay relative l).replay relative l' :=
  List.foldl_append ..

theorem replay_concat : s.replay relative (l ++ [e]) = (s.replay relative l).perform relative e :=
  List.foldl_concat ..

theorem read_perform :
    (s.perform relative e).read r =
      if r ≠ 0 ∧ e.instr.writes r then s.resultOf e else s.read r :=
  read_execute

/-- Register 0 is never written. -/
theorem registers_zero_replay : (s.replay relative l).registers 0 = s.registers 0 := by
  have hwrite : ∀ (s : State) (d : Reg) (w : Word), (s.write d w).registers 0 = s.registers 0 := by
    intro s d w
    rw [write]
    split
    · rfl
    · rename_i hd
      exact if_neg fun h => hd h.symm
  have hperform : ∀ (s : State) (e : Entry), (s.perform relative e).registers 0 = s.registers 0 := by
    intro s e
    rw [perform]
    cases e.instr <;> first | rfl | exact hwrite _ _ _
  induction l generalizing s with
  | nil => rfl
  | cons e l ih => exact ih.trans (hperform s e)

/-- Who writes nothing to a register leaves it as it was. -/
theorem read_replay_of_not_writes (h : ∀ e ∈ l, r ≠ 0 → ¬ e.instr.writes r) :
    (s.replay relative l).read r = s.read r := by
  induction l generalizing s with
  | nil => rfl
  | cons e l ih =>
    change ((s.perform relative e).replay relative l).read r = _
    rw [ih fun x hx => h x (List.mem_cons_of_mem _ hx), read_perform,
      if_neg fun hw => h e List.mem_cons_self hw.1 hw.2]

/-- **A register holds the result of its last writer.** -/
theorem read_replay_of_lastWriter (relative : Bool) (s : State) (hl : InOrder l) (hr : r ≠ 0)
    (hw : lastWriter l r = some w) :
    (s.replay relative l).read r = (s.upTo relative l w.seq).resultOf w := by
  obtain ⟨hmem, hwr, hmax⟩ := (lastWriter_eq_some_iff hl).1 hw
  have hafter : ∀ e ∈ l.filter (fun e => w.seq < e.seq), r ≠ 0 → ¬ e.instr.writes r := by
    intro e he _ hwe
    obtain ⟨he, hlt⟩ := List.mem_filter.1 he
    have := hmax e he hwe
    have := of_decide_eq_true hlt
    omega
  conv_lhs => rw [hl.eq_append_cons hmem]
  rw [replay_append]
  change (replay relative (perform relative _ w) _).read r = _
  rw [read_replay_of_not_writes hafter, read_perform, if_pos ⟨hr, hwr⟩]
  rfl

/-- The state after an entry is that before it, with the entry performed. -/
theorem upTo_succ (hl : InOrder l) (he : e ∈ l) :
    s.upTo relative l (e.seq + 1) = (s.upTo relative l e.seq).perform relative e := by
  rw [upTo, upTo, ← replay_concat, ← hl.filter_le_eq_append he]
  congr 1
  refine List.filter_congr fun x _ => ?_
  rw [Bool.eq_iff_iff, decide_eq_true_eq, decide_eq_true_eq]
  omega

theorem memory_perform_of_not_storesTo (h : ¬ s.StoresTo e a) :
    (s.perform relative e).memory.get a = s.memory.get a := by
  rw [perform, memory_execute]
  change (match s.stores? e.instr with
    | some (a, w) => s.memory.set a w
    | none => s.memory).get a = _
  rcases hs : s.stores? e.instr with - | ⟨b, w⟩
  · rfl
  · refine (Memory.get_set ..).trans (if_neg ?_)
    rintro rfl
    exact h ⟨w, hs⟩

theorem memory_perform_of_stores {v : Word} (h : s.stores? e.instr = some (a, v)) :
    (s.perform relative e).memory.get a = v := by
  rw [perform, memory_execute]
  change (match s.stores? e.instr with
    | some (a, w) => s.memory.set a w
    | none => s.memory).get a = _
  rw [h]
  exact (Memory.get_set ..).trans (if_pos rfl)

/-- **A word of memory keeps what it holds while nobody stores to it.** -/
theorem get_upTo_of_not_storesTo (hl : InOrder l) (hq : q ≤ q')
    (h : ∀ e ∈ l, q ≤ e.seq → e.seq < q' → ¬ (s.upTo relative l e.seq).StoresTo e a) :
    (s.upTo relative l q').memory.get a = (s.upTo relative l q).memory.get a := by
  induction l using List.reverseRecOn with
  | nil => rfl
  | append_singleton l e ih =>
    have hl' := (List.pairwise_append.1 hl).1
    have hlast : ∀ x ∈ l, x.seq < e.seq := fun x hx =>
      (List.pairwise_append.1 hl).2.2 x hx e List.mem_cons_self
    have hdrop : ∀ p, p ≤ e.seq → s.upTo relative (l ++ [e]) p = s.upTo relative l p := by
      intro p hp
      rw [upTo, List.filter_append, List.filter_cons_of_neg (by simpa using hp), List.filter_nil,
        List.append_nil, upTo]
    have hkeep : ∀ p, e.seq < p → s.upTo relative (l ++ [e]) p = s.replay relative (l ++ [e]) := by
      intro p hp
      rw [upTo, List.filter_eq_self.2]
      intro x hx
      rw [decide_eq_true_eq]
      rcases List.mem_append.1 hx with hx | hx
      · have := hlast x hx
        omega
      · rwa [List.mem_singleton.1 hx]
    have ih := ih hl' fun x hx h₁ h₂ => by
      rw [← hdrop x.seq (Int.le_of_lt (hlast x hx))]
      exact h x (List.mem_append_left _ hx) h₁ h₂
    rcases Int.lt_or_le e.seq q' with h' | h'
    · rcases Int.lt_or_le e.seq q with h'' | h''
      · rw [hkeep q' h', hkeep q h'']
      · -- The last entry lies between the two, so it stores elsewhere.
        have hself : s.upTo relative l e.seq = s.replay relative l := by
          rw [upTo, List.filter_eq_self.2 fun x hx => by simpa using hlast x hx]
        have hq' : s.upTo relative l q' = s.replay relative l := by
          rw [upTo, List.filter_eq_self.2 fun x hx => ?_]
          have := hlast x hx
          rw [decide_eq_true_eq]
          omega
        have hnot := h e (List.mem_append_right _ List.mem_cons_self) h'' h'
        rw [hdrop e.seq (Int.le_refl _), hself] at hnot
        rw [hkeep q' h', replay_concat, memory_perform_of_not_storesTo hnot, hdrop q h'', ← ih, hq']
    · rw [hdrop q' h', hdrop q (Int.le_trans hq h'), ih]

end Sequential.State

end OutOfOrder
