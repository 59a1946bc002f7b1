import OutOfOrder.Proofs.Timing
/-!
# The rows of the timing table

The timing table joins three histories. Each issue has one row, and the row
takes its cycles from the other two histories by the number of the issue. This
mixes nothing up since no number is in a history twice, however often an
address was issued and whatever branches have dropped (`Machine.tells_row`).

The rows are in the order of addresses, and at one address in that of cycles.
No two instructions are issued in one cycle, so this order is strict, and a
list in it is known by its members. Hence the tables of the single addresses,
put one after the other, are the whole table, row for row (`timing_rows`).
-/

namespace OutOfOrder

/-! ## Lists without repetitions -/

section Repetitions

variable {a b : Int} {l : List Int}

theorem eraseReps_loop_eq (a : Int) (l acc : List Int) :
    List.eraseRepsBy.loop (· == ·) a l acc = acc.reverse ++ (a :: l).eraseReps := by
  change _ = acc.reverse ++ List.eraseRepsBy.loop (· == ·) a l []
  induction l generalizing a acc with
  | nil => simp only [List.eraseRepsBy.loop, List.reverse_cons, List.reverse_nil, List.nil_append]
  | cons b l ih =>
    unfold List.eraseRepsBy.loop
    cases a == b with
    | true => exact ih a acc
    | false =>
      dsimp only
      rw [ih b (a :: acc), ih b [a], List.reverse_cons, List.append_assoc, List.reverse_singleton]

/-- An element that is repeated at once is dropped, and any other is kept. -/
theorem eraseReps_cons_cons :
    (a :: b :: l).eraseReps =
      if a = b then (b :: l).eraseReps else a :: (b :: l).eraseReps := by
  change List.eraseRepsBy.loop (· == ·) a (b :: l) [] = _
  unfold List.eraseRepsBy.loop
  by_cases h : a = b
  · subst h
    rw [if_pos rfl, beq_self_eq_true]
    rfl
  · rw [if_neg h, beq_false_of_ne h]
    exact eraseReps_loop_eq b l [a]

theorem mem_eraseReps {c : Int} : c ∈ l.eraseReps ↔ c ∈ l := by
  induction l with
  | nil => exact Iff.rfl
  | cons a l ih =>
    cases l with
    | nil => exact Iff.rfl
    | cons b l =>
      rw [eraseReps_cons_cons]
      split
      · rename_i h
        rw [ih, h, List.mem_cons (b := b) (l := b :: l)]
        constructor
        · exact .inr
        · rintro (rfl | hc)
          · exact List.mem_cons_self
          · exact hc
      · rw [List.mem_cons, List.mem_cons, ih]

/-- **An ascending list without repetitions** is strictly ascending. -/
theorem pairwise_eraseReps (h : l.Pairwise (· ≤ ·)) : l.eraseReps.Pairwise (· < ·) := by
  induction l with
  | nil => exact .nil
  | cons a l ih =>
    obtain ⟨hle, hl⟩ := List.pairwise_cons.1 h
    cases l with
    | nil => exact List.pairwise_singleton _ _
    | cons b l =>
      rw [eraseReps_cons_cons]
      split
      · exact ih hl
      · rename_i hne
        refine List.pairwise_cons.2 ⟨?_, ih hl⟩
        intro c hc
        have hab := hle b List.mem_cons_self
        rcases List.mem_cons.1 (mem_eraseReps.1 hc) with rfl | hc
        · omega
        · have := (List.pairwise_cons.1 hl).1 c hc
          omega

end Repetitions

/-! ## The order of rows -/

/-- An issue comes first if its address is lower, or the same and its cycle
earlier. -/
def Entry.Before (a b : Entry) : Prop := a.pc < b.pc ∨ (a.pc = b.pc ∧ a.cycle < b.cycle)

/-- And so does a row. -/
def TimingRow.Before (a b : TimingRow) : Prop :=
  a.address < b.address ∨ (a.address = b.address ∧ a.issued < b.issued)

instance : Std.Irrefl Entry.Before where
  irrefl a := by
    unfold Entry.Before
    omega

instance : Std.Antisymm Entry.Before where
  antisymm a b h h' := by
    unfold Entry.Before at h h'
    omega

namespace Machine

variable {m : Machine} {e : Entry} {l : List Entry} {a : Int} {c : Nat}

/-- **Issues are sorted strictly**, since no cycle issues two instructions. -/
theorem pairwise_sortBy_rowOrder (h : l.Pairwise fun a b => a.cycle < b.cycle) :
    (sortBy rowOrder l).Pairwise Entry.Before := by
  have horder : ∀ {a b : Entry}, rowOrder a b = true ↔
      a.pc < b.pc ∨ (a.pc = b.pc ∧ a.cycle ≤ b.cycle) := by
    intro a b
    simp only [rowOrder, Bool.or_eq_true, Bool.and_eq_true, decide_eq_true_eq]
  have hsorted : (sortBy rowOrder l).Pairwise fun a b => rowOrder a b := by
    refine pairwise_sortBy ?_ ?_
    · intro a b
      rw [horder, horder]
      omega
    · intro a b c hab hbc
      rw [horder] at hab hbc ⊢
      omega
  have hapart : (sortBy rowOrder l).Pairwise fun a b => a.cycle ≠ b.cycle := by
    refine List.Perm.pairwise perm_sortBy.symm (h.imp ?_) Ne.symm
    intro a b hlt
    omega
  refine (hsorted.and hapart).imp ?_
  rintro a b ⟨hle, hne⟩
  rw [horder] at hle
  unfold Entry.Before
  omega

/-! ## Issued addresses -/

/-- **The issued addresses**, each once, in ascending order. -/
theorem pairwise_issuedAddresses (m : Machine) : m.issuedAddresses.Pairwise (· < ·) := by
  refine pairwise_eraseReps ((pairwise_sortBy ?_ ?_).imp of_decide_eq_true)
  · intro a b
    simpa using Int.le_total a b
  · intro a b c h h'
    simp only [decide_eq_true_eq] at h h' ⊢
    omega

theorem mem_issuedAddresses : a ∈ m.issuedAddresses ↔ ∃ e ∈ m.issued, e.pc = a := by
  unfold issuedAddresses
  rw [mem_eraseReps, mem_sortBy, List.mem_map]

/-- **A loop address** was issued twice at least. -/
theorem mem_loopAddresses :
    a ∈ m.loopAddresses ↔ 2 ≤ m.issued.countP fun e => e.pc = a := by
  unfold loopAddresses
  rw [List.mem_filter, mem_issuedAddresses, decide_eq_true_eq]
  constructor
  · intro h
    exact h.2
  · intro h
    have hpos : 0 < m.issued.countP fun e => e.pc = a := by omega
    obtain ⟨e, he, hpc⟩ := List.countP_pos_iff.1 hpos
    exact ⟨⟨e, he, of_decide_eq_true hpc⟩, h⟩

/-! ## What a row tells -/

/-- **A cycle that is found** is that of the entry of the number. -/
theorem cycleOf?_eq_some_iff {q : Int} (h : (l.map Entry.seq).Nodup) :
    cycleOf? l q = some c ↔ ∃ x ∈ l, x.seq = q ∧ x.cycle = c := by
  constructor
  · exact exists_of_cycleOf?
  · rintro ⟨x, hx, rfl, rfl⟩
    obtain ⟨c, hc⟩ := Option.isSome_iff_exists.1 (cycleOf?_isSome_iff.2 ⟨x, hx, rfl⟩)
    obtain ⟨y, hy, hseq, rfl⟩ := exists_of_cycleOf? hc
    rw [hc, List.inj_on_of_nodup_map h hy hx hseq]

end Machine

/-- **A row tells of an issue.** It says where, what and when that was. The
cycles of its execution and of its write-back are those that the histories
have for its number, and there are none if they have none. It is marked if
its address is a loop address. -/
structure TimingRow.Tells (m : Machine) (e : Entry) (row : TimingRow) : Prop where
  address : row.address = e.pc
  instruction : row.instruction = e.instr.text
  station : row.station = e.station
  issued : row.issued = e.cycle
  executed : ∀ c, row.executed = some c ↔ ∃ x ∈ m.executed, x.seq = e.seq ∧ x.cycle = c
  writtenBack : ∀ c, row.writtenBack = some c ↔ ∃ x ∈ m.writtenBack, x.seq = e.seq ∧ x.cycle = c
  latency : row.latency = row.writtenBack.map fun w : Nat => (w : Int) - e.cycle
  repeated : row.repeated ↔ row.address ∈ m.loopAddresses

/-- **The rows of these issues**: one for each, in the order of rows. -/
structure Tabulates (m : Machine) (entries : List Entry) (rows : List TimingRow) : Prop where
  tells : ∃ l, l.Perm entries ∧ List.Forall₂ (TimingRow.Tells m) l rows
  sorted : rows.Pairwise TimingRow.Before

namespace Machine

variable {m : Machine} {e : Entry} {l : List Entry}

theorem Recorded.tells_row (h : m.Recorded) (e : Entry) : (m.timingRow e).Tells m e where
  address := rfl
  instruction := rfl
  station := rfl
  issued := rfl
  executed c := cycleOf?_eq_some_iff h.executedOnce
  writtenBack c := cycleOf?_eq_some_iff h.writtenOnce
  latency := latency_timingRow
  repeated := by
    rw [mem_loopAddresses]
    exact decide_eq_true_iff

/-- **The table of a part of the issues.** -/
theorem Recorded.tabulates (h : m.Recorded) (hl : l.Pairwise fun a b => a.cycle < b.cycle) :
    Tabulates m l ((sortBy rowOrder l).map m.timingRow) where
  tells := by
    refine ⟨sortBy rowOrder l, perm_sortBy, ?_⟩
    rw [List.forall₂_map_right_iff, List.forall₂_same]
    intro e _
    exact h.tells_row e
  sorted := by
    refine List.pairwise_map.2 ((pairwise_sortBy_rowOrder hl).imp ?_)
    intro a b hbefore
    exact hbefore

/-- The rows of all issues. -/
theorem timingRows_none (m : Machine) :
    m.timingRows none = (sortBy rowOrder m.issued).map m.timingRow := by
  unfold timingRows
  rw [List.filter_eq_self.2]
  intro e _
  rfl

/-- The rows of the issues of an address. -/
theorem timingRows_some (m : Machine) (a : Int) :
    m.timingRows (some a) =
      (sortBy rowOrder (m.issued.filter fun e => e.pc = a)).map m.timingRow := rfl

/-- **The tables of single addresses** are the whole table, if the addresses
are those that were issued, in ascending order. -/
theorem flatMap_timingRows (hclock : m.issued.Pairwise fun a b => a.cycle < b.cycle)
    {addresses : List Int} (hsorted : addresses.Pairwise (· < ·))
    (hmem : ∀ a, a ∈ addresses ↔ ∃ e ∈ m.issued, e.pc = a) :
    (addresses.flatMap fun a => m.timingRows (some a)) = m.timingRows none := by
  have hat : ∀ {a : Int} {e : Entry}, e ∈ sortBy rowOrder (m.issued.filter fun e => e.pc = a) ↔
      e ∈ m.issued ∧ e.pc = a := by
    intro a e
    rw [mem_sortBy, List.mem_filter, decide_eq_true_eq]
  simp only [timingRows_none, timingRows_some]
  rw [← List.map_flatMap]
  refine congrArg (List.map m.timingRow) (List.Pairwise.eq_of_mem_iff (r := Entry.Before) ?_
    (pairwise_sortBy_rowOrder hclock) ?_)
  · -- At one address it is the order of cycles, and otherwise that of addresses.
    refine List.pairwise_flatMap.2 ⟨?_, hsorted.imp ?_⟩
    · intro a _
      exact pairwise_sortBy_rowOrder (hclock.filter _)
    · intro a b hlt x hx y hy
      have hxa := (hat.1 hx).2
      have hyb := (hat.1 hy).2
      unfold Entry.Before
      omega
  · intro e
    rw [List.mem_flatMap, mem_sortBy]
    constructor
    · rintro ⟨a, -, he⟩
      exact (hat.1 he).1
    · intro he
      exact ⟨e.pc, (hmem e.pc).2 ⟨e, he, rfl⟩, hat.2 ⟨he, rfl⟩⟩

/-- **The timing table loses, invents and mixes up nothing.** It tabulates the
history of issues, and with an address the issues of that address. The tables
of the issued addresses make up the whole. Loop addresses are those that were
issued twice at least. -/
theorem timing_rows (h : Reachable m) :
    Tabulates m m.issued (m.timingRows none) ∧
      (∀ a, Tabulates m (m.issued.filter fun e => e.pc = a) (m.timingRows (some a))) ∧
      (m.issuedAddresses.Pairwise (· < ·) ∧
        (∀ a, a ∈ m.issuedAddresses ↔ ∃ e ∈ m.issued, e.pc = a) ∧
        (m.issuedAddresses.flatMap fun a => m.timingRows (some a)) = m.timingRows none) ∧
      m.loopAddresses.Pairwise (· < ·) ∧
        ∀ a, a ∈ m.loopAddresses ↔ 2 ≤ m.issued.countP fun e => e.pc = a := by
  have hclock := h.clocked.inTurn
  have hsorted := m.pairwise_issuedAddresses
  refine ⟨?_, ?_, ⟨hsorted, fun a => mem_issuedAddresses, ?_⟩, hsorted.filter _,
    fun a => mem_loopAddresses⟩
  · rw [timingRows_none]
    exact h.recorded.tabulates hclock
  · intro a
    rw [timingRows_some]
    exact h.recorded.tabulates (hclock.filter _)
  · exact flatMap_timingRows hclock hsorted fun a => mem_issuedAddresses

/-- The sample with a loop in place of its program: a sum is taken again and
again, and each time the instruction after the branch is issued for nothing. -/
def loopSample : Machine :=
  left (samplePool.loadProgram [.alu .add 1 1 2, .beq 0 0 (-2), .store 1 0 10] 0 [] [(2, 5)])

theorem configured_loopSample : Configured loopSample :=
  .call configured_samplePool (.loadProgram ..)

/-- After eleven cycles the loop has been issued three times. The store after
it was dropped twice and is in flight once more. -/
theorem timing_rows_loopSample :
    ∃ m, loopSample.steps 11 = .ok m ∧ m.nextSeq = 9 ∧ m.issued.length = 7 ∧
      Tabulates m m.issued (m.timingRows none) ∧ m.loopAddresses = [0, 1] ∧
      m.timingRows (some 0) ++ m.timingRows (some 1) ++ m.timingRows (some 2) =
        m.timingRows none := by
  obtain ⟨m, hm, h⟩ := exists_of_any (x := loopSample.steps 11)
    (p := fun m => m.nextSeq = 9 ∧ m.issued.length = 7 ∧ m.loopAddresses = [0, 1] ∧
      m.issuedAddresses = [0, 1, 2]) (by decide +kernel)
  obtain ⟨hseq, hlength, hloop, haddresses⟩ := of_decide_eq_true h
  obtain ⟨htable, -, ⟨-, -, hparts⟩, -⟩ := timing_rows (configured_loopSample.reachable.steps hm)
  refine ⟨m, hm, hseq, hlength, htable, hloop, ?_⟩
  rw [← hparts, haddresses]
  simp only [List.flatMap_cons, List.flatMap_nil, List.append_nil, List.append_assoc]

end Machine

end OutOfOrder
