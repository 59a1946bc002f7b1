import OutOfOrder.Proofs.Targets
/-!
# Placing a list of instructions

A list is placed as its instructions are placed one by one at consecutive
addresses (`addEach`). That all these are addresses is looked at before the
first is placed, so a list that would reach out of memory changes nothing.
The offset and the target of an instruction are looked at when its turn
comes. So if one of them is refused, the ones before it have been placed, and
they stay (`addInstructions_places`).

A block of data is written as a whole or not at all. A list of instructions
is not (`placed_before_refused`).
-/

namespace OutOfOrder

namespace Machine

variable {m m₁ m' : Machine} {i : Instruction} {instrs rest : List Instruction} {a b : Int}

/-- **Places instructions one by one** at consecutive addresses. -/
def addEach (m : Machine) (instrs : List Instruction) (a : Int) : Except Fault Machine :=
  instrs.zipIdx.foldlM (fun m p => m.addInstruction p.1 (a + p.2)) m

/-- All places of a list are addresses. -/
def InMemory (instrs : List Instruction) (a : Int) : Prop :=
  ∀ k : Nat, k < instrs.length → 0 ≤ a + k ∧ a + k < 65536

/-- **The machine allows an instruction at an address**: the offset fits
where offsets are checked, and the target, if there is one, is an address. -/
def Allows (m : Machine) (i : Instruction) (a : Int) : Prop :=
  (m.offsetsChecked → i.offsetFits) ∧
    ∀ t, i.jumpTarget? m.relativeCalls a = some t → 0 ≤ t ∧ t < 65536

/-- **Instructions have been placed, and nothing else has changed.** -/
structure Placed (m : Machine) (instrs : List Instruction) (a : Int) (m' : Machine) : Prop where
  frame : ∃ memory loaded, m' = { m with memory := memory, loaded := loaded }
  word : ∀ (k : Nat) (i : Instruction) (p : Address), instrs[k]? = some i → p.val = a + k →
    m'.memory.get p = i.encode
  entry : ∀ (k : Nat) (i : Instruction) (p : Nat), instrs[k]? = some i → p = a + k →
    m'.loaded.lookup p = some i
  otherWord : ∀ p : Address, (∀ k : Nat, k < instrs.length → (p.val : Int) ≠ a + k) →
    m'.memory.get p = m.memory.get p
  otherEntry : ∀ p : Nat, (∀ k : Nat, k < instrs.length → (p : Int) ≠ a + k) →
    m'.loaded.lookup p = m.loaded.lookup p

/-! ## One instruction -/

theorem lookup_cons_eq_ite (p : Nat) (x : Nat × Instruction) (l : List (Nat × Instruction)) :
    (x :: l).lookup p = if p = x.1 then some x.2 else l.lookup p := by
  rw [List.lookup_cons]
  by_cases h : p = x.1
  · rw [beq_iff_eq.2 h, if_pos h]
  · rw [beq_eq_false_iff_ne.2 h, if_neg h]

/-- What has been placed is found under its address, and the rest where it
was. -/
theorem lookup_insertLoaded (p q : Nat) (l : List (Nat × Instruction)) :
    (insertLoaded q i l).lookup p = if p = q then some i else l.lookup p := by
  induction l with
  | nil => rw [insertLoaded, lookup_cons_eq_ite]
  | cons x l ih =>
    obtain ⟨r, j⟩ := x
    rw [insertLoaded]
    split
    · rw [lookup_cons_eq_ite]
    · split
      · rename_i hq
        subst hq
        simp only [lookup_cons_eq_ite]
        split <;> rfl
      · rename_i hne
        simp only [lookup_cons_eq_ite, ih]
        by_cases h : p = r
        · subst h
          rw [if_pos rfl, if_neg fun heq => hne heq.symm, if_pos rfl]
        · simp only [if_neg h]

/-- An instruction is placed where its place is an address and the machine
allows it. -/
theorem exists_addInstruction_iff :
    (∃ m', m.addInstruction i a = .ok m') ↔ (0 ≤ a ∧ a < 65536) ∧ m.Allows i a := by
  constructor
  · rintro ⟨m', hm⟩
    obtain ⟨hoff, htarget, place, rfl, -⟩ := addInstruction_eq_ok_iff.1 hm
    exact ⟨Word.toInt_inRange place, hoff, htarget⟩
  · rintro ⟨ha, hoff, htarget⟩
    exact ⟨_, addInstruction_eq_ok_iff.2 ⟨hoff, htarget, ⟨a.toNat, toNat_lt_of_inRange ha⟩,
      (Int.toNat_of_nonneg ha.1).symm, rfl⟩⟩

/-- What is allowed does not depend on what has been placed. -/
theorem Placed.allows_iff (h : Placed m instrs a m') : m'.Allows i b ↔ m.Allows i b := by
  obtain ⟨_, _, rfl⟩ := h.frame
  rfl

theorem Placed.nil (m : Machine) (a : Int) : Placed m [] a m where
  frame := ⟨_, _, rfl⟩
  word _ _ _ h := by cases h
  entry _ _ _ h := by cases h
  otherWord _ _ := rfl
  otherEntry _ _ := rfl

/-- **One instruction, and then the rest behind it.** -/
theorem Placed.cons (hm : m.addInstruction i a = .ok m₁) (h : Placed m₁ rest (a + 1) m') :
    Placed m (i :: rest) a m' := by
  obtain ⟨-, -, place, rfl, rfl⟩ := addInstruction_eq_ok_iff.1 hm
  -- The rest is placed at other addresses.
  have hlater : ∀ k : Nat, k < rest.length → (place.val : Int) ≠ place.val + 1 + k := by
    intro k _
    omega
  have hother : ∀ p : Int, (∀ k : Nat, k < (i :: rest).length → p ≠ place.val + k) →
      p ≠ place.val ∧ ∀ k : Nat, k < rest.length → p ≠ place.val + 1 + k := by
    intro p hp
    refine ⟨by simpa using hp 0 (by simp), fun k hk => ?_⟩
    have := hp (k + 1) (by simpa using hk)
    omega
  constructor
  · obtain ⟨memory, loaded, rfl⟩ := h.frame
    exact ⟨memory, loaded, rfl⟩
  · rintro (- | k) i' p hi hp
    · obtain rfl : i = i' := by simpa using hi
      obtain rfl : p = place := Fin.ext (by omega)
      rw [h.otherWord p hlater, Memory.get_set, if_pos rfl]
    · exact h.word k i' p (by simpa using hi) (by omega)
  · rintro (- | k) i' p hi hp
    · obtain rfl : i = i' := by simpa using hi
      obtain rfl : p = place.val := by omega
      rw [h.otherEntry _ hlater, lookup_insertLoaded, if_pos rfl]
    · exact h.entry k i' p (by simpa using hi) (by omega)
  · intro p hp
    obtain ⟨hne, hrest⟩ := hother p.val hp
    rw [h.otherWord p hrest, Memory.get_set, if_neg]
    rintro rfl
    exact hne rfl
  · intro p hp
    obtain ⟨hne, hrest⟩ := hother p hp
    rw [h.otherEntry p hrest, lookup_insertLoaded, if_neg (by omega)]

/-! ## One by one -/

theorem addEach_cons :
    m.addEach (i :: rest) a = m.addInstruction i a >>= fun m₁ => m₁.addEach rest (a + 1) := by
  have hshift : ∀ m : Machine,
      (rest.zipIdx 1).foldlM (fun m p => m.addInstruction p.1 (a + p.2)) m =
        m.addEach rest (a + 1) := by
    intro m
    have hadd : ∀ n : Nat, a + ((n + 1 : Nat) : Int) = a + 1 + n := by omega
    rw [List.zipIdx_succ, List.foldlM_map, addEach]
    simp only [hadd]
  rw [addEach, List.zipIdx_cons, List.foldlM_cons]
  simp only [hshift, Int.natCast_zero, Int.add_zero, Nat.zero_add]

/-- What is placed one by one is placed. -/
theorem placed_of_addEach (hm : m.addEach instrs a = .ok m') : Placed m instrs a m' := by
  induction instrs generalizing m a with
  | nil =>
    cases hm
    exact .nil _ _
  | cons i rest ih =>
    rw [addEach_cons] at hm
    rcases h₁ : m.addInstruction i a with fault | m₁ <;> rw [h₁] at hm
    · cases hm
    · exact .cons h₁ (ih hm)

/-- **A list goes to its end, or to the first instruction that is refused.** -/
theorem placeAll_cases (m : Machine) (instrs : List Instruction) (a : Int) :
    (∃ m', m.placeAll a instrs = .ok m' ∧ m.addEach instrs a = .ok m') ∨
      ∃ k i t, instrs[k]? = some i ∧ m.placeAll a instrs = .error t ∧
        m.addEach (instrs.take k) a = .ok t.machine ∧
        t.machine.addInstruction i (a + k) = .error t.fault := by
  induction instrs generalizing m a with
  | nil => exact .inl ⟨m, rfl, rfl⟩
  | cons i rest ih =>
    rw [placeAll]
    rcases h₁ : m.addInstruction i a with fault | m₁
    · exact .inr ⟨0, i, ⟨fault, m⟩, rfl, rfl, rfl, by simpa using h₁⟩
    · rcases ih m₁ (a + 1) with ⟨m', hall, heach⟩ | ⟨k, j, t, hj, hall, heach, hrefused⟩
      · exact .inl ⟨m', hall, by rw [addEach_cons, h₁]; exact heach⟩
      · refine .inr ⟨k + 1, j, t, by simpa using hj, hall, ?_, ?_⟩
        · rw [List.take_succ_cons, addEach_cons, h₁]
          exact heach
        · rwa [show a + ((k + 1 : Nat) : Int) = a + 1 + k by omega]

/-! ## The list as a whole -/

/-- Before the first instruction is placed both ends of the list are looked
at, and with them all of it. -/
theorem addInstructions_cases (m : Machine) (instrs : List Instruction) (a : Int) :
    (InMemory instrs a ∧ m.addInstructions instrs a = m.placeAll a instrs) ∨
      ¬ InMemory instrs a ∧ ∃ b, m.addInstructions instrs a =
        .error ⟨.outOfBounds .instruction b, m⟩ := by
  rcases instrs with - | ⟨i, rest⟩
  · exact .inl ⟨fun k hk => absurd hk (Nat.not_lt_zero k), rfl⟩
  have hlast : a + ((i :: rest).length : Int) - 1 = a + rest.length := by
    rw [List.length_cons]
    omega
  have heq : m.addInstructions (i :: rest) a =
      m.guard (address .instruction a) >>= fun _ =>
        m.guard (address .instruction (a + rest.length)) >>= fun _ =>
          m.placeAll a (i :: rest) := by
    rw [← hlast]
    rfl
  rw [heq]
  by_cases hfirst : 0 ≤ a ∧ a < 65536
  · by_cases hend : 0 ≤ a + (rest.length : Int) ∧ a + (rest.length : Int) < 65536
    · refine .inl ⟨fun k hk => ?_, by rw [address, address, dif_pos hfirst, dif_pos hend]; rfl⟩
      rw [List.length_cons] at hk
      omega
    · refine .inr ⟨fun h => hend (h rest.length (by simp)), a + rest.length, ?_⟩
      rw [address, address, dif_pos hfirst, dif_neg hend]
      rfl
  · refine .inr ⟨fun h => hfirst (by simpa using h 0 (by simp)), a, ?_⟩
    rw [address, dif_neg hfirst]
    rfl

/-- Who is placed one by one is allowed. -/
theorem allows_of_addEach (hm : m.addEach instrs a = .ok m') (k : Nat) (hi : instrs[k]? = some i) :
    m.Allows i (a + k) := by
  induction instrs generalizing m a k with
  | nil => cases hi
  | cons j rest ih =>
    rw [addEach_cons] at hm
    rcases h₁ : m.addInstruction j a with fault | m₁ <;> rw [h₁] at hm
    · cases hm
    cases k with
    | zero =>
      obtain rfl : j = i := by simpa using hi
      simpa using (exists_addInstruction_iff.1 ⟨m₁, h₁⟩).2
    | succ k =>
      have hone : Placed m [j] a m₁ := .cons h₁ (.nil _ _)
      have := ih hm k (by simpa using hi)
      rwa [hone.allows_iff, show a + 1 + (k : Int) = a + (k + 1 : Nat) by omega] at this

/-- **What becomes of a list that is placed.** If the call succeeds the list
has been placed as its instructions are one by one, all were allowed, and
nothing else has changed. If it fails because the list reaches out of memory
nothing has changed. If it fails on an instruction, that is the first the
machine does not allow at its place, and just those before it have been
placed. -/
theorem addInstructions_places (m : Machine) (instrs : List Instruction) (a : Int) :
    (∀ m', m.addInstructions instrs a = .ok m' →
      m.addEach instrs a = .ok m' ∧ Placed m instrs a m' ∧ InMemory instrs a ∧
        ∀ (k : Nat) (i : Instruction), instrs[k]? = some i → m.Allows i (a + k)) ∧
    ∀ t, m.addInstructions instrs a = .error t →
      (¬ InMemory instrs a ∧ t.machine = m) ∨
        InMemory instrs a ∧ ∃ (k : Nat) (i : Instruction), instrs[k]? = some i ∧
          ¬ m.Allows i (a + k) ∧
          (∀ (l : Nat) (j : Instruction), l < k → instrs[l]? = some j → m.Allows j (a + l)) ∧
          t.machine.addInstruction i (a + k) = .error t.fault ∧
          m.addEach (instrs.take k) a = .ok t.machine ∧
          Placed m (instrs.take k) a t.machine := by
  rcases addInstructions_cases m instrs a with ⟨hin, heq⟩ | ⟨hout, b, heq⟩ <;> rw [heq]
  · rcases placeAll_cases m instrs a with
      ⟨m₁, hall, heach⟩ | ⟨k, i, t₁, hi, hall, heach, hrefused⟩ <;> rw [hall]
    · refine ⟨fun m' hm => ?_, fun t ht => by cases ht⟩
      cases hm
      exact ⟨heach, placed_of_addEach heach, hin, fun k i => allows_of_addEach heach k⟩
    · refine ⟨fun m' hm => (by cases hm), fun t ht => ?_⟩
      cases ht
      have hplaced := placed_of_addEach heach
      refine .inr ⟨hin, k, i, hi, fun hallowed => ?_, fun l j hl hj => ?_, hrefused, heach, hplaced⟩
      · -- It would not have been refused.
        have hrange := hin k (List.getElem?_eq_some_iff.1 hi).1
        obtain ⟨m', hok⟩ := exists_addInstruction_iff.2 ⟨hrange, hplaced.allows_iff.2 hallowed⟩
        rw [hok] at hrefused
        cases hrefused
      · exact allows_of_addEach heach l (by rwa [List.getElem?_take_of_lt hl])
  · refine ⟨fun m' hm => (by cases hm), fun t ht => ?_⟩
    cases ht
    exact .inl ⟨hout, rfl⟩

/-- Two instructions fill the memory to its end. Of three of which the second
has an offset that does not fit, the first is placed. -/
theorem addInstructions_places_samplePool :
    (∃ m', samplePool.addInstructions [.alu .add 1 2 3, .ret] 65534 = .ok m' ∧
      Placed samplePool [.alu .add 1 2 3, .ret] 65534 m') ∧
    ∃ t, samplePool.addInstructions [.ret, .load 1 2 20, .ret] 5 = .error t ∧
      Placed samplePool [.ret] 5 t.machine := by
  constructor
  · obtain ⟨m', hm, -⟩ := exists_of_any (p := fun _ => true)
      (x := samplePool.addInstructions [.alu .add 1 2 3, .ret] 65534) (by decide +kernel)
    exact ⟨m', hm, ((addInstructions_places samplePool _ 65534).1 m' hm).2.1⟩
  · obtain ⟨-, hstops⟩ := addInstructions_places samplePool [.ret, .load 1 2 20, .ret] 5
    have hfails : (samplePool.addInstructions [.ret, .load 1 2 20, .ret] 5).toOption.isSome =
        false := by
      decide +kernel
    rcases ht : samplePool.addInstructions [.ret, .load 1 2 20, .ret] 5 with t | m'
    · refine ⟨t, rfl, ?_⟩
      rcases hstops t ht with ⟨hout, -⟩ | ⟨-, k, i, hi, hno, hbefore, -, -, hplaced⟩
      · refine absurd (fun k hk => ?_) hout
        simp only [List.length_cons, List.length_nil] at hk
        omega
      rcases k with - | - | k
      · -- The first is allowed, and the second is not.
        obtain rfl := Option.some.inj hi
        exact absurd ⟨fun _ => rfl, nofun⟩ hno
      · exact hplaced
      · have hoff := (hbefore 1 (.load 1 2 20) (by omega) rfl).1 rfl
        exact absurd hoff (by decide)
    · rw [ht] at hfails
      cases hfails

/-- **A call that fails may have placed something**: the addition is in memory
and in the list, and the branch after it was refused. -/
theorem placed_before_refused :
    ∃ t, samplePool.addInstructions [.alu .add 1 2 3, .beq 0 0 (-16)] 0 = .error t ∧
      t.fault = .jumpTarget (-14) (.beq 0 0 (-16)) 1 ∧ t.machine.memory ≠ samplePool.memory ∧
      t.machine.loaded ≠ samplePool.loaded := by
  obtain ⟨x, hx⟩ : ∃ x, x = samplePool.addInstructions [.alu .add 1 2 3, .beq 0 0 (-16)] 0 :=
    ⟨_, rfl⟩
  have hran : ((x.mapError Trap.fault).map fun _ => ()) =
        .error (.jumpTarget (-14) (.beq 0 0 (-16)) 1) ∧
      (left x).memory.get 0 ≠ samplePool.memory.get 0 ∧ (left x).loaded ≠ samplePool.loaded := by
    rw [hx]
    decide +kernel
  rw [← hx]
  obtain ⟨hfault, hmemory, hloaded⟩ := hran
  rcases x with t | m'
  · exact ⟨t, rfl, Except.error.inj hfault, fun heq => hmemory (congrArg (·.get 0) heq), hloaded⟩
  · cases hfault

end Machine

end OutOfOrder
