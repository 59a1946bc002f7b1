import Mathlib.Data.List.Basic
import OutOfOrder.Machine.Run
/-!
# What is in flight

An instruction is in flight while a station holds it. `Holds` says which
station that is, and `flight` collects the sequence numbers of all of them.

An instruction is on the path when no branch issued before it is pending.
What is not on the path is speculative: a branch that is taken drops it.
`path` is the part of the history of issues that is on the path, and
`before` the part that was issued before a given instruction.
-/

namespace OutOfOrder

namespace Machine

variable {m : Machine} {n k : Nat} {s : Station} {o : Occupant} {q : Int}

/-! ## Stations in use -/

/-- The station at a position holds an instruction. -/
def Holds (m : Machine) (n : Nat) (s : Station) (o : Occupant) : Prop :=
  m.stations[n]? = some s ∧ s.occupant = some o

theorem occupied?_eq_some_iff : m.occupied? n = some (s, o) ↔ m.Holds n s o := by
  simp only [occupied?, Holds, Option.bind_eq_some_iff, Option.map_eq_some_iff, Prod.mk.injEq]
  constructor
  · rintro ⟨s', hs, o', ho, rfl, rfl⟩
    exact ⟨hs, ho⟩
  · rintro ⟨hs, ho⟩
    exact ⟨s, hs, o, ho, rfl, rfl⟩

theorem occupied?_eq_none_iff : m.occupied? n = none ↔ ∀ s o, ¬ m.Holds n s o := by
  constructor
  · intro h s o hold
    rw [occupied?_eq_some_iff.2 hold] at h
    cases h
  · intro h
    rcases hc : m.occupied? n with - | ⟨s, o⟩
    · rfl
    · exact absurd (occupied?_eq_some_iff.1 hc) (h s o)

theorem Holds.lt_length (h : m.Holds n s o) : n < m.stations.length :=
  (List.getElem?_eq_some_iff.1 h.1).1

theorem Holds.mem (h : m.Holds n s o) : s ∈ m.stations := List.mem_of_getElem? h.1

theorem exists_holds_of_mem (h : s ∈ m.stations) (ho : s.occupant = some o) :
    ∃ n, m.Holds n s o := by
  obtain ⟨n, hn⟩ := List.mem_iff_getElem?.1 h
  exact ⟨n, hn, ho⟩

/-- A position holds one instruction. -/
theorem Holds.unique {s' : Station} {o' : Occupant} (h : m.Holds n s o) (h' : m.Holds n s' o') :
    s = s' ∧ o = o' := by
  obtain rfl : s = s' := by simpa [h.1] using h'.1
  exact ⟨rfl, by simpa [h.2] using h'.2⟩

/-- A free station holds nothing. -/
theorem not_holds_of_free {s' : Station} (hs : m.stations[n]? = some s)
    (hfree : s.occupant = none) : ¬ m.Holds n s' o := by
  rintro ⟨hs', ho⟩
  obtain rfl : s = s' := by simpa [hs] using hs'
  rw [hfree] at ho
  cases ho

/-- The sequence numbers of the instructions in flight. -/
def flight (m : Machine) : List Int :=
  m.stations.filterMap fun s => s.occupant.map Occupant.seq

theorem mem_flight : q ∈ m.flight ↔ ∃ n s o, m.Holds n s o ∧ o.seq = q := by
  simp only [flight, List.mem_filterMap, Option.map_eq_some_iff]
  constructor
  · rintro ⟨s, hs, o, ho, rfl⟩
    obtain ⟨n, hn⟩ := exists_holds_of_mem hs ho
    exact ⟨n, s, o, hn, rfl⟩
  · rintro ⟨n, s, o, h, rfl⟩
    exact ⟨s, h.mem, o, h.2, rfl⟩

theorem Holds.mem_flight (h : m.Holds n s o) : o.seq ∈ m.flight :=
  Machine.mem_flight.2 ⟨n, s, o, h, rfl⟩

/-- Replacing a station changes what its own position holds. -/
theorem holds_set {m' : Machine} {s₀ : Station} (hst : m'.stations = m.stations.set n s₀)
    (hn : n < m.stations.length) :
    m'.Holds k s o ↔ (k = n ∧ s = s₀ ∧ s₀.occupant = some o) ∨ (k ≠ n ∧ m.Holds k s o) := by
  simp only [Holds, hst, List.getElem?_set]
  by_cases h : n = k
  · subst h
    simp only [if_true, hn, Option.some.injEq, true_and, ne_eq, not_true_eq_false, false_and,
      or_false]
    constructor
    · rintro ⟨rfl, ho⟩
      exact ⟨rfl, ho⟩
    · rintro ⟨rfl, ho⟩
      exact ⟨rfl, ho⟩
  · have h' : k ≠ n := fun e => h e.symm
    simp [h, h']

/-! ## The path -/

/-- **No branch issued before this number is pending.** -/
def OnPath (m : Machine) (q : Int) : Prop :=
  ∀ n s o, m.Holds n s o → s.kind = .beq → q ≤ o.seq

theorem pendingSeq?_eq_some_iff :
    pendingSeq? s = some q ↔ s.kind = .beq ∧ ∃ o, s.occupant = some o ∧ o.seq = q := by
  simp only [pendingSeq?]
  split
  · rename_i h
    simp [h]
  · rename_i h
    simp [h]

theorem mem_filterMap_pendingSeq? :
    q ∈ m.stations.filterMap pendingSeq? ↔
      ∃ n s o, m.Holds n s o ∧ s.kind = .beq ∧ o.seq = q := by
  simp only [List.mem_filterMap, pendingSeq?_eq_some_iff]
  constructor
  · rintro ⟨s, hs, hk, o, ho, rfl⟩
    obtain ⟨n, hn⟩ := exists_holds_of_mem hs ho
    exact ⟨n, s, o, hn, hk, rfl⟩
  · rintro ⟨n, s, o, h, hk, rfl⟩
    exact ⟨s, h.mem, hk, o, h.2, rfl⟩

theorem barrier_eq_some_iff {b : Int} :
    m.barrier = some b ↔
      (∃ n s o, m.Holds n s o ∧ s.kind = .beq ∧ o.seq = b) ∧ m.OnPath b := by
  rw [barrier, List.min?_eq_some_iff, mem_filterMap_pendingSeq?]
  refine and_congr_right fun _ => ?_
  simp only [mem_filterMap_pendingSeq?, OnPath]
  constructor
  · intro h n s o hold hk
    exact h _ ⟨n, s, o, hold, hk, rfl⟩
  · rintro h _ ⟨n, s, o, hold, hk, rfl⟩
    exact h n s o hold hk

theorem barrier_eq_none_iff :
    m.barrier = none ↔ ∀ n s o, m.Holds n s o → s.kind ≠ .beq := by
  rw [barrier, List.min?_eq_none_iff, List.eq_nil_iff_forall_not_mem]
  simp only [mem_filterMap_pendingSeq?]
  constructor
  · intro h n s o hold hk
    exact h _ ⟨n, s, o, hold, hk, rfl⟩
  · rintro h _ ⟨n, s, o, hold, hk, -⟩
    exact h n s o hold hk

theorem barrier_isSome_iff :
    m.barrier.isSome ↔ ∃ n s o, m.Holds n s o ∧ s.kind = .beq := by
  rw [← not_iff_not, Bool.not_eq_true, Option.isSome_eq_false_iff, Option.isNone_iff_eq_none,
    barrier_eq_none_iff]
  simp only [not_exists, not_and]

/-- **The barrier divides the instructions on the path from those that are
speculative.** -/
theorem speculative_barrier_eq_false_iff :
    speculative m.barrier q = false ↔ m.OnPath q := by
  rcases hb : m.barrier with - | b
  · simp only [speculative, Option.any_none, true_iff]
    exact fun n s o hold hk => absurd hk (barrier_eq_none_iff.1 hb n s o hold)
  · obtain ⟨⟨n, s, o, hold, hk, hq⟩, hmin⟩ := barrier_eq_some_iff.1 hb
    simp only [speculative, Option.any_some, decide_eq_false_iff_not, Int.not_lt]
    constructor
    · intro h n s o hold hk
      exact Int.le_trans h (hmin n s o hold hk)
    · intro h
      exact hq ▸ h n s o hold hk

theorem OnPath.mono {q' : Int} (h : m.OnPath q) (hq : q' ≤ q) : m.OnPath q' :=
  fun n s o hold hk => Int.le_trans hq (h n s o hold hk)

/-! ## Parts of the history of issues -/

/-- What was issued before the instruction of this number. -/
def before (m : Machine) (q : Int) : List Entry := m.issued.filter fun e => e.seq < q

/-- What was issued up to the oldest pending branch, with that branch. -/
def path (m : Machine) : List Entry :=
  m.issued.takeWhile fun e => !speculative m.barrier e.seq

theorem mem_before {e : Entry} : e ∈ m.before q ↔ e ∈ m.issued ∧ e.seq < q := by
  simp [before]

theorem mem_issued_of_before : ∀ e ∈ m.before q, e ∈ m.issued :=
  fun _ he => (mem_before.1 he).1

end Machine

/-! ## Lists in the order of issue -/

/-- The entries of a history are in the order of issue. -/
abbrev InOrder (l : List Entry) : Prop := l.Pairwise fun a b => a.seq < b.seq

namespace InOrder

variable {l : List Entry} {q : Int}

/-- Two entries of one number are one entry. -/
theorem eq_of_seq_eq {a b : Entry} (h : InOrder l) (ha : a ∈ l) (hb : b ∈ l)
    (hseq : a.seq = b.seq) : a = b := by
  induction l with
  | nil => cases ha
  | cons x l ih =>
    rw [InOrder, List.pairwise_cons] at h
    rcases List.mem_cons.1 ha with rfl | ha' <;> rcases List.mem_cons.1 hb with rfl | hb'
    · rfl
    · have := h.1 b hb'
      omega
    · have := h.1 a ha'
      omega
    · exact ih h.2 ha' hb'

/-- What comes before some number is a first part of the list. -/
theorem takeWhile_eq_filter (h : InOrder l) (p : Entry → Bool)
    (hp : ∀ a ∈ l, ∀ b ∈ l, a.seq < b.seq → p b → p a) : l.takeWhile p = l.filter p := by
  induction l with
  | nil => rfl
  | cons x l ih =>
    rw [InOrder, List.pairwise_cons] at h
    have hl := ih h.2 fun a ha b hb => hp a (List.mem_cons_of_mem _ ha) b (List.mem_cons_of_mem _ hb)
    by_cases hx : p x
    · simp only [List.takeWhile_cons, hx, if_true, List.filter_cons, hl]
    · have hnone : l.filter p = [] := by
        rw [List.filter_eq_nil_iff]
        intro b hb hpb
        exact hx (hp x List.mem_cons_self b (List.mem_cons_of_mem _ hb) (h.1 b hb) hpb)
      simp [hx, hnone]

/-- What satisfies a condition that only holds from the beginning is a first
part of the history. -/
theorem eq_filter_append {p : Entry → Bool} (h : InOrder l)
    (hp : ∀ a ∈ l, ∀ b ∈ l, a.seq < b.seq → p b → p a) :
    ∃ rest, l = l.filter p ++ rest ∧ ∀ e ∈ rest, ¬ p e := by
  refine ⟨l.dropWhile p, ?_, fun e he hpe => ?_⟩
  · rw [← h.takeWhile_eq_filter p hp, List.takeWhile_append_dropWhile]
  · -- Otherwise it would be in both parts, and come before itself.
    have hsplit := h
    rw [← List.takeWhile_append_dropWhile (p := p) (l := l), h.takeWhile_eq_filter p hp] at hsplit
    have hmem : e ∈ l.filter p :=
      List.mem_filter.2 ⟨(List.dropWhile_sublist p).subset he, hpe⟩
    exact Int.lt_irrefl _ ((List.pairwise_append.1 hsplit).2.2 e hmem e he)

/-- An entry splits the list into what was issued before it and after it. -/
theorem eq_append_cons {e : Entry} (h : InOrder l) (he : e ∈ l) :
    l = l.filter (fun a => a.seq < e.seq) ++ e :: l.filter (fun a => e.seq < a.seq) := by
  induction l with
  | nil => cases he
  | cons x l ih =>
    rw [InOrder, List.pairwise_cons] at h
    rcases List.mem_cons.1 he with rfl | he
    · have h₁ : l.filter (fun a => a.seq < e.seq) = [] :=
        List.filter_eq_nil_iff.2 fun a ha => by have := h.1 a ha; simp; omega
      have h₂ : l.filter (fun a => e.seq < a.seq) = l :=
        List.filter_eq_self.2 fun a ha => by simp [h.1 a ha]
      simp [h₁, h₂]
    · have hx := h.1 e he
      have hx' : ¬ e.seq < x.seq := by omega
      simp only [List.filter_cons, hx, decide_true, if_true, hx', decide_false,
        Bool.false_eq_true, if_false, List.cons_append, List.cons.injEq, true_and]
      exact ih h.2 he

/-- What was issued up to an entry ends with it. -/
theorem filter_le_eq_append {e : Entry} (h : InOrder l) (he : e ∈ l) :
    l.filter (fun a => a.seq ≤ e.seq) = l.filter (fun a => a.seq < e.seq) ++ [e] := by
  conv_lhs => rw [h.eq_append_cons he]
  have h₁ : (l.filter fun a => e.seq < a.seq).filter (fun a => a.seq ≤ e.seq) = [] :=
    List.filter_eq_nil_iff.2 fun a ha => by
      have := (List.mem_filter.1 ha).2
      simp only [decide_eq_true_eq] at this ⊢
      omega
  have h₂ : (l.filter fun a => a.seq < e.seq).filter (fun a => a.seq ≤ e.seq)
      = l.filter fun a => a.seq < e.seq :=
    List.filter_eq_self.2 fun a ha => by
      have := (List.mem_filter.1 ha).2
      simp only [decide_eq_true_eq] at this ⊢
      omega
  simp [List.filter_append, h₁, h₂]

/-- The entry with the highest number is the last one. -/
theorem getLast?_eq_some {e : Entry} (h : InOrder l) (he : e ∈ l)
    (hmax : ∀ x ∈ l, x.seq ≤ e.seq) : l.getLast? = some e := by
  have hall : l.filter (fun x => x.seq ≤ e.seq) = l :=
    List.filter_eq_self.2 fun x hx => decide_eq_true (hmax x hx)
  rw [← hall, h.filter_le_eq_append he]
  exact List.getLast?_concat

end InOrder

end OutOfOrder
