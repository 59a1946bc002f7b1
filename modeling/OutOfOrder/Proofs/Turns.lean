import Mathlib.Data.List.Sigma
import Mathlib.Data.List.Sort
import OutOfOrder.Proofs.Coherent.Cycle
/-!
# Turns

The Execute stage gives a turn to every instruction that is in flight, and
it gives them in the order of issue (`pairwise_turnOrder`). In a coherent
machine a turn stops on a fault for one reason only: a branch that is taken,
or a call, leads out of memory (`turn_cases`).

Whatever a cycle does, the pool stays what it is: `slots` are what does not
change about the stations.
-/

namespace OutOfOrder

/-! ## Sorting -/

section Sorting

variable {α : Type} {le : α → α → Bool} {l : List α}

theorem sortBy_eq_insertionSort (l : List α) :
    sortBy le l = l.insertionSort fun a b => le a b := by
  have insert_eq : ∀ (a : α) (l : List α),
      insertSorted le a l = l.orderedInsert (fun a b => le a b) a := by
    intro a l
    induction l with
    | nil => rfl
    | cons b l ih => rw [insertSorted, List.orderedInsert_cons, ih]
  induction l with
  | nil => rfl
  | cons a l ih => rw [sortBy, List.insertionSort_cons, ih, insert_eq]

theorem perm_sortBy : (sortBy le l).Perm l := by
  rw [sortBy_eq_insertionSort]
  exact List.perm_insertionSort ..

theorem mem_sortBy {a : α} : a ∈ sortBy le l ↔ a ∈ l := perm_sortBy.mem_iff

/-- **Sorting** puts a list in order, if any two elements have an order. -/
theorem pairwise_sortBy (htotal : ∀ a b, le a b ∨ le b a)
    (htrans : ∀ a b c, le a b → le b c → le a c) :
    (sortBy le l).Pairwise fun a b => le a b := by
  have : Std.Total fun a b => (le a b : Prop) := ⟨htotal⟩
  have : IsTrans α fun a b => (le a b : Prop) := ⟨htrans⟩
  rw [sortBy_eq_insertionSort]
  exact List.pairwise_insertionSort _ l

end Sorting

namespace Machine

variable {m m' : Machine} {n k : Nat} {s s' : Station} {o o' : Occupant} {e : Entry} {q : Int}
variable {barrier : Option Int}

/-! ## The order of turns -/

/-- The numbers of the instructions in flight, with the positions of their
stations, in the order of the pool. -/
def turnKeys (m : Machine) : List (Int × Nat) := m.stations.zipIdx.filterMap turnKey?

/-- The same in the order of issue. -/
def turnOrder (m : Machine) : List (Int × Nat) := sortBy (fun a b => a.1 ≤ b.1) m.turnKeys

theorem inFlight_eq : m.inFlight = m.turnOrder.map Prod.snd := rfl

theorem mem_turnKeys : (q, n) ∈ m.turnKeys ↔ ∃ s o, m.Holds n s o ∧ o.seq = q := by
  simp only [turnKeys, List.mem_filterMap, turnKey?, Option.map_eq_some_iff, Prod.mk.injEq,
    Prod.exists, List.mem_zipIdx_iff_getElem?, Holds]
  constructor
  · rintro ⟨s, k, hs, o, ho, rfl, rfl⟩
    exact ⟨s, o, ⟨hs, ho⟩, rfl⟩
  · rintro ⟨s, o, ⟨hs, ho⟩, rfl⟩
    exact ⟨s, n, hs, o, ho, rfl, rfl⟩

theorem perm_turnOrder : m.turnOrder.Perm m.turnKeys := perm_sortBy

theorem mem_turnOrder : (q, n) ∈ m.turnOrder ↔ ∃ s o, m.Holds n s o ∧ o.seq = q :=
  perm_turnOrder.mem_iff.trans mem_turnKeys

theorem nodup_turnKeys : m.turnKeys.Nodup := by
  have hzip : m.stations.zipIdx.Pairwise fun a b => a.2 ≠ b.2 :=
    List.pairwise_map.1 (List.nodup_zipIdx_map_snd m.stations)
  refine hzip.filterMap _ ?_
  intro a b hne x hx y hy hxy
  simp only [turnKey?, Option.map_eq_some_iff] at hx hy
  obtain ⟨o, -, rfl⟩ := hx
  obtain ⟨o', -, rfl⟩ := hy
  exact hne (Prod.mk.inj hxy).2

/-- **Turns are taken in the order of issue.** -/
theorem Coherent.pairwise_turnOrder (hc : m.Coherent) :
    m.turnOrder.Pairwise fun a b => a.1 < b.1 := by
  have hsorted : m.turnOrder.Pairwise fun a b => a.1 ≤ b.1 := by
    refine (pairwise_sortBy ?_ ?_).imp of_decide_eq_true
    · intro a b
      simpa using Int.le_total a.1 b.1
    · intro a b c h h'
      simp only [decide_eq_true_eq] at h h' ⊢
      omega
  -- Sorted, and no two of them have one number.
  refine (hsorted.and (perm_turnOrder.nodup_iff.2 nodup_turnKeys)).imp_of_mem ?_
  rintro ⟨q, n⟩ ⟨q', k⟩ ha hb ⟨hle, hne⟩
  obtain ⟨s, o, hold, rfl⟩ := mem_turnOrder.1 ha
  obtain ⟨s', o', hold', rfl⟩ := mem_turnOrder.1 hb
  refine lt_of_le_of_ne hle fun heq => hne ?_
  rw [hc.position_eq hold hold' heq, show o.seq = o'.seq from heq]

/-- The station at the position of a turn holds the instruction of its
number. -/
theorem seq_of_mem_turnOrder {a : Int × Nat} (ha : a ∈ m.turnOrder) (hold : m.Holds a.2 s o) :
    o.seq = a.1 := by
  obtain ⟨s', o', hold', hseq⟩ := mem_turnOrder.1 (show (a.1, a.2) ∈ m.turnOrder from ha)
  rw [(hold.unique hold').2, hseq]

/-- **Those older than an instruction in flight take their turns before it**,
and those younger after it. -/
theorem Coherent.turnOrder_eq_append (hc : m.Coherent) (hold : m.Holds n s o) :
    ∃ older younger, m.turnOrder = older ++ (o.seq, n) :: younger ∧
      (∀ a ∈ older, a.1 < o.seq) ∧ ∀ a ∈ younger, o.seq < a.1 := by
  obtain ⟨older, younger, heq⟩ := List.append_of_mem (mem_turnOrder.2 ⟨s, o, hold, rfl⟩)
  have hpair := hc.pairwise_turnOrder
  rw [heq] at hpair
  obtain ⟨-, hcons, hlt⟩ := List.pairwise_append.1 hpair
  exact ⟨older, younger, heq, fun a ha => hlt a ha _ List.mem_cons_self,
    (List.pairwise_cons.1 hcons).1⟩

/-! ## Turns that cannot fail -/

theorem address_toInt (use : AddressUse) (a : Word) : address use a.toInt = .ok a := by
  rw [address, dif_pos a.toInt_inRange]
  rfl

theorem jumpTo_toInt (a : Word) : m.jumpTo a.toInt = .ok { m with pc := a.val } := by
  rw [jumpTo, address_toInt]
  rfl

theorem read_toInt (mem : Memory) (a : Word) : mem.read a.toInt = .ok (mem.get a).toInt := by
  rw [Memory.read, Memory.address, dif_pos a.toInt_inRange]
  rfl

theorem write_toInt (mem : Memory) (a : Word) (v : Int) :
    mem.write a.toInt v = .ok (mem.set a (Word.ofInt v)) := by
  rw [Memory.write, Memory.address, dif_pos a.toInt_inRange]
  rfl

/-- A first operand that is there holds a word. -/
theorem Coherent.exists_j (hc : m.Coherent) (hold : m.Holds n s o) (hready : o.j.ready) {r : Reg}
    (hs : o.instr.sources.1 = some r) : ∃ v : Word, o.j.value? = some v.toInt := by
  obtain ⟨v, hv⟩ := Supplies.exists_value (hs ▸ (hc.sources n s o hold).1) hready
  exact ⟨v, by rw [hv]; rfl⟩

theorem Coherent.exists_k (hc : m.Coherent) (hold : m.Holds n s o) (hready : o.k.ready) {r : Reg}
    (hs : o.instr.sources.2 = some r) : ∃ v : Word, o.k.value? = some v.toInt := by
  obtain ⟨v, hv⟩ := Supplies.exists_value (hs ▸ (hc.sources n s o hold).2) hready
  exact ⟨v, by rw [hv]; rfl⟩

/-- **Computing an address does not fail.** -/
theorem Coherent.computeAddress_eq (hc : m.Coherent) (hold : m.Holds n s o)
    (kind : s.kind.isMemory) :
    (s.addressDue o = false ∧ m.computeAddress n = .ok m) ∨
      ∃ base offset, s.addressDue o ∧ o.j.value? = some base ∧ o.imm = some offset ∧
        m.computeAddress n = .ok (m.setStation n (s.withAddress (wrap (base + offset)))) := by
  rw [computeAddress, occupied?_eq_some_iff.2 hold]
  dsimp only
  split
  · rename_i due
    obtain ⟨r, offset, hj, hoff⟩ :
        ∃ r off, o.instr.sources.1 = some r ∧ o.instr.offset? = some off := by
      rcases hk : s.kind with _ | _ | _ | _ | _ | _ | _ <;> rw [hk] at kind
      case load | store =>
        obtain ⟨rA, rB, off, hi⟩ := (hc.fits n s o hold).instr_eq hk
        rw [hi]
        exact ⟨_, _, rfl, rfl⟩
      all_goals cases kind
    have hdue := due
    simp only [Station.addressDue, Bool.and_eq_true, Bool.not_eq_true'] at hdue
    obtain ⟨base, hbase⟩ := hc.exists_j hold hdue.1.2 hj
    have himm := (hc.fits n s o hold).offset hdue.1.1 offset hoff
    exact .inr ⟨base.toInt, offset, due, hbase, himm, by rw [hbase, himm]⟩
  · rename_i due
    exact .inl ⟨by simpa using due, rfl⟩

/-- **An access does not fail.** -/
theorem Coherent.access_eq (hc : m.Coherent) (hold : m.Holds n s o)
    (kind : s.kind = .load ∨ s.kind = .store) :
    ((accessDue s o && (m.hazard? n s o).isNone) = false ∧ m.access n = .ok m) ∨
      ∃ a : Word, accessDue s o ∧ m.hazard? n s o = none ∧ o.imm = some a.toInt ∧
        ((s.kind = .load ∧ m.access n = .ok (m.resulted n s o (m.memory.get a).toInt)) ∨
          (s.kind = .store ∧ ∃ v, o.k.value? = some v ∧
            m.access n = .ok (finish (m.stored a v) n s o))) := by
  rw [access, occupied?_eq_some_iff.2 hold]
  dsimp only
  rcases hgo : accessDue s o && (m.hazard? n s o).isNone with - | -
  · exact .inl ⟨rfl, rfl⟩
  obtain ⟨due, clear⟩ := Bool.and_eq_true_iff.1 hgo
  rw [Option.isNone_iff_eq_none] at clear
  have hdue := due
  simp only [accessDue, Bool.and_eq_true, decide_eq_true_eq] at hdue
  obtain ⟨-, -, a, himm⟩ := (hc.fits n s o hold).address hdue.1.1
  refine .inr ⟨a, due, clear, himm, ?_⟩
  rw [if_pos rfl]
  rcases kind with kind | kind
  · refine .inl ⟨kind, ?_⟩
    rw [if_pos kind, performLoad, himm]
    dsimp only
    rw [read_toInt]
    rfl
  · obtain ⟨rA, rB, off, hi⟩ := (hc.fits n s o hold).instr_eq kind
    obtain ⟨v, hv⟩ := hc.exists_k hold (hc.ready hold hdue.2).2 (r := rA) (by rw [hi]; rfl)
    refine .inr ⟨kind, v.toInt, hv, ?_⟩
    rw [if_neg (by simp [kind]), performStore, himm, hv]
    dsimp only
    rw [write_toInt]
    rfl

/-- **A unit that computes does not fail.** -/
theorem Coherent.compute_eq (hc : m.Coherent) (hold : m.Holds n s o)
    (kind : s.kind = .addSub ∨ s.kind = .nor ∨ s.kind = .mul) (elapsed : s.latency ≤ o.cycles) :
    ∃ op rA rB rC a b, o.instr = .alu op rA rB rC ∧ o.j.value? = some a ∧ o.k.value? = some b ∧
      m.compute n s o = .ok (m.resulted n s o (op.eval a b)) := by
  obtain ⟨op, rA, rB, rC, hi⟩ : ∃ op rA rB rC, o.instr = .alu op rA rB rC := by
    rcases kind with kind | kind | kind <;> exact (hc.fits n s o hold).instr_eq kind
  obtain ⟨hj, hk⟩ := hc.ready hold elapsed
  obtain ⟨a, ha⟩ := hc.exists_j hold hj (r := rB) (by rw [hi]; rfl)
  obtain ⟨b, hb⟩ := hc.exists_k hold hk (r := rC) (by rw [hi]; rfl)
  refine ⟨op, rA, rB, rC, a.toInt, b.toInt, hi, ha, hb, ?_⟩
  rw [compute, hi, ha, hb]
  rfl

/-- **A branch fails only where it would leave memory.** -/
theorem Coherent.resolveBranch_eq (hc : m.Coherent) (hold : m.Holds n s o) (kind : s.kind = .beq) :
    (taken o = false ∧ m.resolveBranch n s o = .ok (m.finish n s o).refreshFlags) ∨
      ∃ offset saved e, taken o ∧ o.imm = some offset ∧ o.checkpoint = some saved ∧ e ∈ m.issued ∧
        e.seq = o.seq ∧
        ((∃ target : Word, o.pc + 1 + offset = target.toInt ∧ m.resolveBranch n s o =
            .ok (m.branched n s o target (m.before o.seq ++ [e]) saved)) ∨
          ¬ (0 ≤ o.pc + 1 + offset ∧ o.pc + 1 + offset < 65536) ∧ m.resolveBranch n s o =
            .error ⟨.outOfBounds .programCounter (o.pc + 1 + offset), m⟩) := by
  rcases ht : taken o with - | -
  · exact .inl ⟨rfl, by simp [resolveBranch, ht, pure, Except.pure, bind, Except.bind]⟩
  obtain ⟨e, he, hof⟩ := hc.owner n s o hold
  obtain ⟨saved, hsaved, -⟩ := hc.saved n s o hold kind
  obtain ⟨-, -, offset, -, himm⟩ := (hc.fits n s o hold).exists_branch kind
  refine .inr ⟨offset, saved, e, rfl, himm, hsaved, he, hof.seq, ?_⟩
  by_cases hrange : 0 ≤ o.pc + 1 + offset ∧ o.pc + 1 + offset < 65536
  · obtain ⟨target, htarget⟩ := Word.exists_toInt hrange
    obtain ⟨i, hi⟩ : ∃ i, (m.issued.findIdx? fun e => e.seq = o.seq) = some i := by
      rw [← Option.isSome_iff_exists, List.findIdx?_isSome, List.any_eq_true]
      exact ⟨e, he, by simpa using hof.seq⟩
    refine .inl ⟨target, htarget, ?_⟩
    rw [resolveBranch, if_pos ht, takeBranch, himm]
    dsimp only
    rw [htarget, jumpTo_toInt]
    simp only [bind, Except.bind, hi, hsaved, pure, Except.pure, hc.kept_eq hi he hof.seq]
    rfl
  · refine .inr ⟨hrange, ?_⟩
    rw [resolveBranch, if_pos ht, takeBranch, himm]
    dsimp only
    rw [jumpTo, address, dif_neg hrange]
    rfl

/-- **A jump fails only where it would leave memory**, and a return never
does. A call that fails has written its return address by then. -/
theorem Coherent.resolveJump_eq (hc : m.Coherent) (hold : m.Holds n s o) (kind : s.kind = .callRet)
    (elapsed : s.latency ≤ o.cycles) :
    (∃ target : Word,
      (o.instr.isCall ∧ o.imm = some target.toInt ∧
          m.resolveJump n s o = .ok (finish (m.called o target) n s o)) ∨
        m.resolveJump n s o = .ok (finish (m.returned n s o target) n s o) ∧
          o.instr.isCall = false) ∨
      ∃ a, o.instr.isCall ∧ o.imm = some a ∧ ¬ (0 ≤ a ∧ a < 65536) ∧
        m.resolveJump n s o = .error ⟨.outOfBounds .programCounter a,
          { m with registers := (m.registers.set Reg.link (o.pc + 1)).commit Reg.link }⟩ := by
  rcases (hc.fits n s o hold).instr_eq kind with ⟨l, hi⟩ | hi
  · have himm := (hc.fits n s o hold).target l hi
    by_cases hrange : 0 ≤ (if m.relativeCalls then l.val + (o.pc + 1) else l.val) ∧
        (if m.relativeCalls then l.val + (o.pc + 1) else l.val) < 65536
    · obtain ⟨target, htarget⟩ := Word.exists_toInt hrange
      rw [htarget] at himm
      refine .inl ⟨target, .inl ⟨by rw [hi]; rfl, himm, ?_⟩⟩
      rw [resolveJump, departure, if_pos (by rw [hi]; rfl), himm]
      dsimp only
      rw [jumpTo_toInt]
      rfl
    · refine .inr ⟨_, by rw [hi]; rfl, himm, hrange, ?_⟩
      rw [resolveJump, departure, if_pos (by rw [hi]; rfl), himm]
      dsimp only
      rw [jumpTo, address, dif_neg hrange]
      rfl
  · -- What a register holds is an address.
    obtain ⟨target, hj⟩ := hc.exists_j hold (hc.ready hold elapsed).1 (r := Reg.link)
      (by rw [hi]; rfl)
    refine .inl ⟨target, .inr ⟨?_, by rw [hi]; rfl⟩⟩
    rw [resolveJump, departure, if_neg (by rw [hi]; decide), hj]
    dsimp only
    rw [jumpTo_toInt]
    simp only [returned, hj]
    rfl

/-! ## Turns -/

/-- Where the instruction at a position leads, if it leads away from the next
address. -/
def Aims (m : Machine) (n : Nat) (a : Int) : Prop :=
  ∃ s o, m.Holds n s o ∧ m.OnPath o.seq ∧ s.latency ≤ o.cycles ∧
    ((s.kind = .beq ∧ taken o ∧ ∃ offset, o.imm = some offset ∧ a = o.pc + 1 + offset) ∨
      (o.instr.isCall ∧ o.imm = some a))

/-- **A turn fails only where it would leave memory.** -/
theorem Coherent.turn_cases (hc : m.Coherent)
    (hb : ∀ q, speculative barrier q = false → m.OnPath q) :
    (∃ m', turn barrier m n = .ok m') ∨
      ∃ a left, m.Aims n a ∧ ¬ (0 ≤ a ∧ a < 65536) ∧
        (∀ s o, m.Holds n s o → speculative barrier o.seq = false) ∧
        turn barrier m n = .error ⟨.outOfBounds .programCounter a, left⟩ := by
  rw [turn]
  rcases hocc : m.occupied? n with - | ⟨s, o⟩
  · exact .inl ⟨m, rfl⟩
  have hold := occupied?_eq_some_iff.1 hocc
  dsimp only
  split
  · exact .inl ⟨m, rfl⟩
  rename_i hspec
  have hspec : speculative barrier o.seq = false := by simpa using hspec
  have path := hb o.seq hspec
  have honly : ∀ s' o', m.Holds n s' o' → speculative barrier o'.seq = false := by
    intro s' o' hold'
    rwa [← (hold.unique hold').2]
  -- An address may be computed and used in one turn.
  have memory : s.kind = .load ∨ s.kind = .store →
      ∃ m', (m.computeAddress n >>= fun m => m.access n) = .ok m' := by
    intro kind
    have kind' := UnitKind.isMemory_iff.2 kind
    obtain ⟨m₁, h₁⟩ : ∃ m₁, m.computeAddress n = .ok m₁ := by
      rcases hc.computeAddress_eq hold kind' with ⟨-, h⟩ | ⟨_, _, -, -, -, h⟩ <;> exact ⟨_, h⟩
    obtain ⟨s₁, o₁, hold₁, hs, -⟩ := holds_computeAddress hold h₁
    have hc₁ := (computeAddress_moves hold path kind' h₁).coherent hc
    rw [h₁]
    rcases hc₁.access_eq hold₁ (hs ▸ kind) with ⟨-, h⟩ | ⟨_, -, -, -, ⟨-, h⟩ | ⟨-, _, -, h⟩⟩ <;>
      exact ⟨_, h⟩
  rcases hk : s.kind with _ | _ | _ | _ | _ | _ | _ <;> dsimp only
  case load => exact .inl (memory (.inl hk))
  case store => exact .inl (memory (.inr hk))
  case beq =>
    split
    · rename_i elapsed
      rcases hc.resolveBranch_eq hold hk with
        ⟨-, h⟩ | ⟨offset, _, _, ht, himm, -, -, -, ⟨_, -, h⟩ | ⟨hout, h⟩⟩
      · exact .inl ⟨_, h⟩
      · exact .inl ⟨_, h⟩
      · exact .inr ⟨_, _, ⟨s, o, hold, path, elapsed, .inl ⟨hk, ht, offset, himm, rfl⟩⟩, hout,
          honly, h⟩
    · exact .inl ⟨_, rfl⟩
  case callRet =>
    split
    · rename_i elapsed
      rcases hc.resolveJump_eq hold hk elapsed with
        ⟨_, ⟨-, -, h⟩ | ⟨h, -⟩⟩ | ⟨a, hcall, himm, hout, h⟩
      · exact .inl ⟨_, h⟩
      · exact .inl ⟨_, h⟩
      · exact .inr ⟨_, _, ⟨s, o, hold, path, elapsed, .inr ⟨hcall, himm⟩⟩, hout, honly, h⟩
    · exact .inl ⟨_, rfl⟩
  all_goals
    split
    · rename_i due
      simp only [Bool.and_eq_true, decide_eq_true_eq] at due
      obtain ⟨_, _, _, _, _, _, -, -, -, h⟩ := hc.compute_eq hold (by simp [hk]) due.2
      exact .inl ⟨_, h⟩
    · exact .inl ⟨_, rfl⟩

/-- So it does not fail where nothing leads out of memory. -/
theorem Coherent.turn_ok (hc : m.Coherent) (hb : ∀ q, speculative barrier q = false → m.OnPath q)
    (hinside : ∀ a, m.Aims n a → 0 ≤ a ∧ a < 65536) : ∃ m', turn barrier m n = .ok m' := by
  rcases hc.turn_cases hb with h | ⟨a, -, haims, hout, -⟩
  · exact h
  · exact absurd (hinside a haims) hout

/-- **The Writeback stage never fails.** -/
theorem Coherent.writeBack_eq (hc : m.Coherent) :
    (m.nextSender? = none ∧ m.writeBack = .ok m) ∨
      ∃ x, m.nextSender? = some x ∧ m.writeBack = .ok (m.sent x) := by
  have hsaved : m.stations.find? Station.unsaved = none := by
    rw [List.find?_eq_none]
    intro s hs hun
    simp only [Station.unsaved, Bool.and_eq_true, decide_eq_true_eq, Option.any_eq_true] at hun
    obtain ⟨kind, o, ho, hnone⟩ := hun
    obtain ⟨n, hold⟩ := exists_holds_of_mem hs ho
    obtain ⟨table, htable, -⟩ := hc.saved n s o hold kind
    rw [htable] at hnone
    cases hnone
  rw [Machine.writeBack]
  rcases m.nextSender? with - | x
  · exact .inl ⟨rfl, rfl⟩
  · refine .inr ⟨x, rfl, ?_⟩
    dsimp only
    rw [hsaved]
    rfl

/-! ## The pool stays what it is -/

/-- What does not change about the stations. -/
def slots (m : Machine) : List Slot := m.stations.map Station.toSlot

theorem slots_set {s₀ : Station} (hs : m.stations[n]? = some s) (hslot : s₀.toSlot = s.toSlot) :
    (m.stations.set n s₀).map Station.toSlot = m.slots := by
  rw [slots, List.map_set, hslot]
  refine List.ext_getElem? fun k => ?_
  rw [List.getElem?_set]
  split
  · rename_i hk
    subst hk
    rw [List.getElem?_map, hs]
    simp [(List.getElem?_eq_some_iff.1 hs).1]
  · rfl

theorem Move.slots {acts : List Act} (hm : Move m acts m') : m'.slots = m.slots := by
  cases hm with
  | address hold => exact slots_set hold.1 rfl
  | load hold => exact slots_set hold.1 rfl
  | compute hold => exact slots_set hold.1 rfl
  | store hold => exact slots_set hold.1 rfl
  | fall hold => exact slots_set hold.1 rfl
  | call hold => exact slots_set hold.1 rfl
  | @ret n s o target hold =>
    exact (congrArg (List.map Station.toSlot) (List.set_set ..)).trans (slots_set hold.1 rfl)
  | @branch n s o offset target i saved hold =>
    have hmap : (m.stations.map (Station.squash o.seq)).map Station.toSlot = m.slots := by
      rw [List.map_map]
      refine List.map_congr_left fun s _ => ?_
      simp only [Function.comp_apply, Station.squash]
      split <;> rfl
    exact (slots_set (m := m.redirected o target (m.issued.take (i + 1)) saved)
      (holds_redirected.2 ⟨hold, Int.le_refl _⟩).1 (show s.clear.toSlot = s.toSlot from rfl)).trans
      hmap

theorem Moves.slots {acts : List Act} (hm : Moves m acts m') : m'.slots = m.slots := by
  induction hm with
  | refl => rfl
  | cons first rest ih => exact ih.trans first.slots

theorem slots_advance (m : Machine) : m.advance.slots = m.slots := by
  rw [slots, slots, advance, List.map_map]
  exact List.map_congr_left fun s _ => s.advance_toSlot.1

theorem slots_of_issue (hm : m.issue = .ok m') : m'.slots = m.slots := by
  rcases issue_eq_ok hm with ⟨i, s, n, -, -, hs, -, rfl⟩ | rfl
  · exact slots_set hs rfl
  · rfl

theorem slots_of_writeBack (hm : m.writeBack = .ok m') : m'.slots = m.slots := by
  rcases writeBack_cases hm with ⟨-, rfl⟩ | ⟨x, -, rfl⟩
  · rfl
  · refine List.ext_getElem? fun k => ?_
    rw [slots, slots, sent, deliver, List.getElem?_map, List.getElem?_mapIdx, List.getElem?_map]
    rcases m.stations[k]? with - | s
    · rfl
    · simp only [Option.map_some, Option.some.injEq]
      split
      · rfl
      · exact (s.told_toSlot x.station.tag x.value).1

/-- **A cycle keeps the pool.** -/
theorem slots_of_step (hm : m.step = .ok m') : m'.slots = m.slots := by
  obtain ⟨m₁, m₂, m₃, h₁, h₂, h₃, rfl, -⟩ := step_eq_ok hm
  calc m₃.slots = m₂.slots := slots_of_writeBack h₃
    _ = m₁.slots := (execute_moves h₂).slots
    _ = m.advance.slots := slots_of_issue h₁
    _ = m.slots := slots_advance m

end Machine

end OutOfOrder
