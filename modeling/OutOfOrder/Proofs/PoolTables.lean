import Mathlib.Logic.Function.Basic
import OutOfOrder.Proofs.Reachable
/-!
# Pool tables

A machine is made from a table if the table is `Sensible`: each row names a
kind of unit, says how many stations it has, and the latencies of the rows
that ask for stations at all are those of a station. No two such rows ask for
stations of one kind.

The last condition is about names. The stations of a row are numbered from 1,
and a name tells its kind and its number (`numbered_inj`); so stations of
different kinds never get in each other's way, and `Numbered` says for each
kind up to which number the names are taken.
-/

namespace OutOfOrder

/-! ## Names -/

/-- The name of a station with a number among those of its kind. -/
def UnitKind.numbered (kind : UnitKind) (n : Nat) : String := s!"{kind.stationStem}{n}"

/-- The first letter of a name tells the kind. -/
theorem UnitKind.eq_of_head? {kind kind' : UnitKind}
    (h : kind.stationStem.toList.head? = kind'.stationStem.toList.head?) : kind = kind' := by
  cases kind <;> cases kind' <;> first | rfl | exact absurd h (by decide)

theorem UnitKind.toList_numbered (kind : UnitKind) (n : Nat) :
    (kind.numbered n).toList = kind.stationStem.toList ++ Nat.toDigits 10 n := by
  have happend : kind.numbered n = kind.stationStem ++ n.repr := rfl
  rw [happend, String.toList_append, Nat.toList_repr]

/-- **A name tells the kind and the number of its station.** -/
theorem UnitKind.numbered_inj {kind kind' : UnitKind} {n n' : Nat}
    (h : kind.numbered n = kind'.numbered n') : kind = kind' ∧ n = n' := by
  have hlist := congrArg String.toList h
  rw [toList_numbered, toList_numbered] at hlist
  have hhead : ∀ (kind : UnitKind) (l : List Char),
      (kind.stationStem.toList ++ l).head? = kind.stationStem.toList.head? := by
    intro kind l
    cases kind <;> rfl
  have hkind : kind = kind' := by
    refine eq_of_head? ?_
    rw [← hhead kind, hlist, hhead]
  subst hkind
  have hdigits := congrArg (Nat.ofDigitChars 10 · 0) (List.append_cancel_left hlist)
  simpa [Nat.ofDigitChars_toDigits] using hdigits

/-! ## Sensible rows -/

/-- **The latencies make a station** of the kind: there is a cycle at least,
and only an access of memory has them in two parts, which are not negative and
add up. -/
def Slot.Sound (kind : UnitKind) (latency : Int) (address memory : Option Int) : Prop :=
  1 ≤ latency ∧ ∀ a, Slot.addressSetting latency address memory = some a →
    kind.isMemory ∧ (0 ≤ a ∧ a ≤ latency) ∧ ∀ b, memory = some b → a + b = latency

theorem Slot.exists_make_iff {name : String} {kind : UnitKind} {latency : Int}
    {address memory : Option Int} {tag : Tag} :
    (∃ slot, Slot.make name kind latency address memory tag = .ok slot) ↔
      Slot.Sound kind latency address memory := by
  rw [make, Slot.Sound]
  by_cases hl : latency < 1
  · rw [dif_pos hl]
    refine iff_of_false (by simp) fun h => ?_
    omega
  rw [dif_neg hl]
  rcases hset : addressSetting latency address memory with - | a
  · exact iff_of_true ⟨_, rfl⟩ ⟨by omega, by simp⟩
  by_cases hkind : kind.isMemory
  swap
  · simp [hkind]
  by_cases ha : 0 ≤ a ∧ a ≤ latency
  swap
  · simp [hkind, ha]
  have hpos : 1 ≤ latency := Int.not_lt.1 hl
  rcases memory with - | b
  · simp [hkind, ha, hpos]
  · by_cases hsum : a + b = latency <;> simp [hkind, ha, hpos, hsum]

/-- The row has the latencies of a station of the kind. -/
def PoolRow.Makes (row : PoolRow) (kind : UnitKind) : Prop :=
  ∃ latency, row.latency = some latency ∧
    Slot.Sound kind latency row.addressLatency row.memoryLatency

/-- **A row asks for stations** of the kind that its name stands for. -/
def Asks (row : String × PoolRow) (kind : UnitKind) : Prop :=
  (Designation.name row.1).unitKind = .ok kind ∧
    ∃ count, row.2.stationCount = some count ∧ 1 ≤ count

/-- **A sensible table.** -/
structure PoolTable.Sensible (table : PoolTable) : Prop where
  /-- Each row names a kind. -/
  named : ∀ row ∈ table, ∃ kind, (Designation.name row.1).unitKind = .ok kind
  /-- Each row says how many stations it has. -/
  counted : ∀ row ∈ table, ∃ count, row.2.stationCount = some count
  /-- A row that asks for stations has their latencies. -/
  timed : ∀ row ∈ table, ∀ kind, Asks row kind → row.2.Makes kind
  /-- No two rows ask for stations of one kind. -/
  apart : table.Pairwise fun a b => ∀ kind, Asks a kind → ¬ Asks b kind

/-! ## Adding stations -/

namespace Machine

variable {m m' : Machine} {kind : UnitKind} {row : PoolRow} {tops : UnitKind → Nat}
variable {made : Nat}

/-- **A station is added** where the machine has not run, no station has the
name, and the latencies make a slot. -/
theorem addStationOfKind_eq_ok_iff {name : String} {latency : Int} {address memory : Option Int} :
    m.addStationOfKind name (.ok kind) latency address memory = .ok m' ↔
      m.cycle = 0 ∧ (∀ s ∈ m.stations, s.name ≠ name) ∧
        ∃ slot, Slot.make name kind latency address memory m.stations.length = .ok slot ∧
          m' = { m with stations := m.stations ++ [Station.ofSlot slot] } := by
  rw [addStationOfKind]
  by_cases hcycle : 0 < m.cycle
  · rw [if_pos hcycle]
    exact iff_of_false (by simp) fun h => Nat.ne_of_gt hcycle h.1
  by_cases hname : m.stations.any fun s => s.name = name
  · rw [if_neg hcycle, if_pos hname]
    refine iff_of_false (by simp) fun h => ?_
    obtain ⟨s, hs, heq⟩ := List.any_eq_true.1 hname
    exact h.2.1 s hs (of_decide_eq_true heq)
  have hfree : ∀ s ∈ m.stations, s.name ≠ name := by simpa using hname
  rw [if_neg hcycle, if_neg hname, and_iff_right (Nat.eq_zero_of_not_pos hcycle),
    and_iff_right hfree]
  simp only [bind, Except.bind, pure, Except.pure]
  rcases Slot.make name kind latency address memory m.stations.length with fault | slot
  · simp
  · simp [eq_comm]

/-- **The stations are numbered** in their kinds, up to these numbers. -/
structure Numbered (m : Machine) (tops : UnitKind → Nat) : Prop where
  cycle : m.cycle = 0
  names : ∀ s ∈ m.stations, ∃ kind n, s.name = kind.numbered n ∧ n ≤ tops kind

namespace Numbered

/-- **The next station of a kind is added.** -/
theorem addNumbered (h : m.Numbered tops) (hrow : row.Makes kind) (hmade : tops kind = made) :
    ∃ m', addNumbered kind row m made = .ok m' ∧
      m'.Numbered (Function.update tops kind (made + 1)) := by
  obtain ⟨latency, hlatency, hsound⟩ := hrow
  have hfree : ∀ s ∈ m.stations, s.name ≠ kind.numbered (made + 1) := by
    intro s hs hname
    obtain ⟨kind', n, hname', hle⟩ := h.names s hs
    obtain ⟨rfl, rfl⟩ := UnitKind.numbered_inj (hname'.symm.trans hname)
    omega
  obtain ⟨slot, hslot⟩ : ∃ slot, Slot.make (kind.numbered (made + 1)) kind latency
      row.addressLatency row.memoryLatency m.stations.length = .ok slot :=
    Slot.exists_make_iff.2 hsound
  refine ⟨{ m with stations := m.stations ++ [Station.ofSlot slot] }, ?_, h.cycle, fun s hs => ?_⟩
  · rw [Machine.addNumbered, hlatency]
    exact addStationOfKind_eq_ok_iff.2 ⟨h.cycle, hfree, slot, hslot, rfl⟩
  · rcases List.mem_append.1 hs with hs | hs
    · obtain ⟨kind', n, hname, hle⟩ := h.names s hs
      refine ⟨kind', n, hname, ?_⟩
      rcases eq_or_ne kind' kind with rfl | hne
      · rw [Function.update_self]
        omega
      · rwa [Function.update_of_ne hne]
    · rw [List.mem_singleton.1 hs]
      exact ⟨kind, made + 1, (make_eq_ok hslot).1,
        Nat.le_of_eq (Function.update_self kind (made + 1) tops).symm⟩

/-- And so are all that a row asks for. -/
theorem addCounted (h : m.Numbered tops) (more : Nat) (hrow : row.Makes kind)
    (hmade : tops kind = made) :
    ∃ m', addCounted kind row more made m = .ok m' ∧
      m'.Numbered (Function.update tops kind (made + more)) := by
  induction more generalizing m made tops with
  | zero =>
    refine ⟨m, rfl, ?_⟩
    rwa [Nat.add_zero, ← hmade, Function.update_eq_self]
  | succ more ih =>
    obtain ⟨m₁, h₁, hnumbered⟩ := h.addNumbered hrow hmade
    obtain ⟨m', h', hrest⟩ := ih hnumbered (Function.update_self ..)
    refine ⟨m', by rw [Machine.addCounted, h₁]; exact h', ?_⟩
    rwa [Function.update_idem, Nat.add_right_comm] at hrest

/-- **A row is added** if no station of its kind is there yet. The other kinds
have the stations they had. -/
theorem addRow {row : String × PoolRow} (h : m.Numbered tops)
    (hnamed : ∃ kind, (Designation.name row.1).unitKind = .ok kind)
    (hcounted : ∃ count, row.2.stationCount = some count)
    (htimed : ∀ kind, Asks row kind → row.2.Makes kind ∧ tops kind = 0) :
    ∃ m' tops', m.addRow row = .ok m' ∧ m'.Numbered tops' ∧
      ∀ kind, ¬ Asks row kind → tops' kind = tops kind := by
  obtain ⟨kind, hkind⟩ := hnamed
  obtain ⟨count, hcount⟩ := hcounted
  have heq : m.addRow row = Machine.addCounted kind row.2 count.toNat 0 m := by
    simp only [Machine.addRow, hkind, hcount, bind, Except.bind]
  rw [heq]
  by_cases hpos : 1 ≤ count
  · obtain ⟨hmakes, htop⟩ := htimed kind ⟨hkind, count, hcount, hpos⟩
    obtain ⟨m', hm', hnumbered⟩ := h.addCounted count.toNat hmakes htop
    refine ⟨m', _, hm', hnumbered, fun kind' hnot => Function.update_of_ne ?_ ..⟩
    rintro rfl
    exact hnot ⟨hkind, count, hcount, hpos⟩
  · rw [show count.toNat = 0 by omega]
    exact ⟨m, tops, rfl, h, fun _ _ => rfl⟩

/-- And so are the rows of a table, if it is sensible. -/
theorem addRows {table : PoolTable} (h : m.Numbered tops) (hsensible : table.Sensible)
    (htops : ∀ row ∈ table, ∀ kind, Asks row kind → tops kind = 0) :
    ∃ m', table.foldlM Machine.addRow m = .ok m' := by
  induction table generalizing m tops with
  | nil => exact ⟨m, rfl⟩
  | cons row rest ih =>
    obtain ⟨hnamed, hcounted, htimed, hapart⟩ := hsensible
    obtain ⟨hrow, hrest⟩ := List.pairwise_cons.1 hapart
    obtain ⟨m₁, tops₁, h₁, hnumbered, hsame⟩ := h.addRow (hnamed row List.mem_cons_self)
      (hcounted row List.mem_cons_self) fun kind hasks =>
        ⟨htimed row List.mem_cons_self kind hasks, htops row List.mem_cons_self kind hasks⟩
    rw [List.foldlM_cons, h₁]
    refine ih hnumbered ⟨fun r hr => hnamed r (List.mem_cons_of_mem _ hr),
      fun r hr => hcounted r (List.mem_cons_of_mem _ hr),
      fun r hr => htimed r (List.mem_cons_of_mem _ hr), hrest⟩ fun r hr kind hasks => ?_
    rw [hsame kind fun hasks' => hrow r hr kind hasks' hasks]
    exact htops r (List.mem_cons_of_mem _ hr) kind hasks

end Numbered

/-- **A sensible table makes a machine.** -/
theorem exists_ofTable {table : PoolTable} (h : table.Sensible)
    (offsetsChecked relativeCalls : Bool) :
    ∃ m, ofTable table offsetsChecked relativeCalls = .ok m := by
  have hbare : Numbered { offsetsChecked, relativeCalls } fun _ => 0 :=
    ⟨rfl, fun s hs => by cases hs⟩
  exact hbare.addRows h fun _ _ _ _ => rfl

end Machine

end OutOfOrder
