import OutOfOrder.Proofs.PoolTables
import OutOfOrder.Proofs.Timing
/-!
# The pool that a table makes

A table makes a machine exactly if it is sensible (`pool_of_table`). One
direction is in the theory of pool tables. For the other a table that makes a
machine is taken apart row by row: each row has a kind and a count, and if it
asks for stations the first of them could be made and had a name of its own.
This name is `numbered 1` of its kind, so no later row asks for the same kind,
under whatever name.

What has been made can be read off the table. `places` are the rows with the
numbers of their stations, in order, and the stations are what these places
`Provide`.
-/

namespace OutOfOrder

/-! ## Names of kinds -/

/-- **A name stands for a kind.** Without the white space around it, and in
capitals, it is the name of the kind or of an operation that needs it. -/
def UnitKind.IsNamed (kind : UnitKind) (name : String) : Prop :=
  kind.name = Text.capitals (Text.strip name) ∨
    ∃ op : OpCode, op.name = Text.capitals (Text.strip name) ∧ op.unit = kind

theorem UnitKind.ofName?_eq_some_iff {kind : UnitKind} {name : String} :
    UnitKind.ofName? name = some kind ↔ kind.name = name := by
  constructor
  · intro h
    have hname := List.find?_some h
    exact of_decide_eq_true hname
  · rintro rfl
    cases kind <;> decide

theorem OpCode.ofName?_eq_some_iff {op : OpCode} {name : String} :
    OpCode.ofName? name = some op ↔ op.name = name := by
  constructor
  · intro h
    have hname := List.find?_some h
    exact of_decide_eq_true hname
  · rintro rfl
    cases op <;> decide

/-- A kind and an operation of one name belong together. -/
theorem OpCode.unit_eq_of_name {op : OpCode} {kind : UnitKind} (h : op.name = kind.name) :
    op.unit = kind := by
  cases op <;> cases kind <;> first | rfl | exact absurd h (by decide)

theorem Designation.unitKind_eq_ok_iff {name : String} {kind : UnitKind} :
    (Designation.name name).unitKind = .ok kind ↔ kind.IsNamed name := by
  unfold Designation.unitKind UnitKind.IsNamed
  dsimp only
  generalize Text.capitals (Text.strip name) = text
  rcases hkind : UnitKind.ofName? text with - | kind'
  · have hnone : kind.name ≠ text := by
      intro h
      rw [UnitKind.ofName?_eq_some_iff.2 h] at hkind
      cases hkind
    rcases hop : OpCode.ofName? text with - | op
    · refine iff_of_false (by simp) ?_
      rintro (h | ⟨op, h, -⟩)
      · exact hnone h
      · rw [OpCode.ofName?_eq_some_iff.2 h] at hop
        cases hop
    · have hname := OpCode.ofName?_eq_some_iff.1 hop
      constructor
      · intro h
        exact .inr ⟨op, hname, Except.ok.inj h⟩
      · rintro (h | ⟨op', h, rfl⟩)
        · exact absurd h hnone
        · rw [OpCode.ofName?_eq_some_iff.2 h] at hop
          rw [Option.some.inj hop]
  · have hname := UnitKind.ofName?_eq_some_iff.1 hkind
    constructor
    · intro h
      obtain rfl : kind' = kind := Except.ok.inj h
      exact .inl hname
    · rintro (h | ⟨op, h, rfl⟩)
      · rw [UnitKind.ofName?_eq_some_iff.2 h] at hkind
        rw [Option.some.inj hkind]
      · rw [OpCode.unit_eq_of_name (h.trans hname.symm)]

/-! ## What a row provides -/

/-- **The station with a number among those of a row.** It is free, its name
tells its kind and its number, and its latencies are those of the row. A row
that does not divide the latency has all of it for the address. -/
structure Provides (row : String × PoolRow) (n : Nat) (s : Station) : Prop where
  kind : s.kind.IsNamed row.1
  name : s.name = s.kind.numbered n
  latency : row.2.latency = some (s.latency : Int)
  address : ∀ a, row.2.addressLatency = some a → (s.addressLatency : Int) = a
  memory : ∀ b, row.2.memoryLatency = some b → (s.memoryLatency : Int) = b
  undivided : row.2.addressLatency = none → row.2.memoryLatency = none →
    s.addressLatency = s.latency
  free : s.occupant = none ∧ s.result = none

/-- Both parts of the latency make up the whole. -/
theorem Slot.parts (s : Slot) : s.addressLatency + s.memoryLatency = s.latency := by
  have := s.addressLatency_le
  unfold memoryLatency
  omega

/-- **The latencies of a slot** are those it was made with. -/
theorem Slot.latencies_of_make {name : String} {kind : UnitKind} {latency : Int}
    {address memory : Option Int} {tag : Tag} {slot : Slot}
    (h : Slot.make name kind latency address memory tag = .ok slot) :
    slot.kind = kind ∧ (slot.latency : Int) = latency ∧
      (slot.addressLatency : Int) = (Slot.addressSetting latency address memory).getD latency := by
  have hsound := Slot.exists_make_iff.1 ⟨slot, h⟩
  have hpos := hsound.1
  rw [make, dif_neg (by omega)] at h
  rcases hset : addressSetting latency address memory with - | a <;> rw [hset] at h
  · cases h
    exact ⟨rfl, Int.toNat_of_nonneg (by omega), Int.toNat_of_nonneg (by omega)⟩
  · obtain ⟨hkind, ha, hsum⟩ := hsound.2 a hset
    dsimp only at h
    rw [if_pos hkind, dif_pos ha] at h
    have hslot : ∀ {s : Slot}, s = slot → s.kind = kind ∧ s.latency = latency.toNat ∧
        s.addressLatency = a.toNat → slot.kind = kind ∧ (slot.latency : Int) = latency ∧
          (slot.addressLatency : Int) = a := by
      rintro _ rfl ⟨hkind, hlatency, haddress⟩
      rw [hlatency, haddress]
      exact ⟨hkind, Int.toNat_of_nonneg (by omega), Int.toNat_of_nonneg ha.1⟩
    rcases memory with - | b
    · exact hslot (Except.ok.inj h) ⟨rfl, rfl, rfl⟩
    · dsimp only at h
      rw [if_pos (hsum b rfl)] at h
      exact hslot (Except.ok.inj h) ⟨rfl, rfl, rfl⟩

/-- The station of a slot that was made for a row. -/
theorem provides_ofSlot {row : String × PoolRow} {kind : UnitKind} {n : Nat} {latency : Int}
    {tag : Tag} {slot : Slot} (hkind : (Designation.name row.1).unitKind = .ok kind)
    (hlatency : row.2.latency = some latency)
    (h : Slot.make (kind.numbered n) kind latency row.2.addressLatency row.2.memoryLatency tag =
      .ok slot) : Provides row n (Station.ofSlot slot) := by
  obtain ⟨rfl, htotal, haddress⟩ := Slot.latencies_of_make h
  have hparts := slot.parts
  have hsum := (Slot.exists_make_iff.1 ⟨slot, h⟩).2
  constructor
  case kind => exact Designation.unitKind_eq_ok_iff.1 hkind
  case name => exact (Machine.make_eq_ok h).1
  case latency =>
    rw [hlatency, ← htotal]
    rfl
  case address =>
    intro a ha
    rw [ha] at haddress
    exact haddress
  case memory =>
    intro b hb
    rw [hb] at haddress hsum
    change ((slot.memoryLatency : Nat) : Int) = b
    rcases ha : row.2.addressLatency with - | a <;> rw [ha] at haddress hsum
    · simp only [Slot.addressSetting, Option.getD_some] at haddress
      omega
    · have := (hsum a rfl).2.2 b rfl
      simp only [Slot.addressSetting, Option.getD_some] at haddress
      omega
  case undivided =>
    intro ha hb
    rw [ha, hb] at haddress
    change slot.addressLatency = slot.latency
    simp only [Slot.addressSetting, Option.getD_none] at haddress
    omega
  case free => exact ⟨rfl, rfl⟩

/-- **The places of a row**: it, with each of the numbers of its stations. -/
def places (row : String × PoolRow) : List ((String × PoolRow) × Nat) :=
  (List.range' 1 (row.2.stationCount.getD 0).toNat).map fun n => (row, n)

/-- **The stations are those of the places**, one for each, in order. -/
def ProvidesAll (places : List ((String × PoolRow) × Nat)) (stations : List Station) : Prop :=
  List.Forall₂ (fun p s => Provides p.1 p.2 s) places stations

/-! ## A pool taken apart -/

namespace Machine

variable {m m' : Machine} {kind : UnitKind} {row : String × PoolRow} {made more : Nat}

/-- **One station that was added** is the one of its number, and it could be
made. -/
theorem addNumbered_eq_ok (hkind : (Designation.name row.1).unitKind = .ok kind)
    (h : addNumbered kind row.2 m made = .ok m') :
    row.2.Makes kind ∧ (∀ s ∈ m.stations, s.name ≠ kind.numbered (made + 1)) ∧
      ∃ s, Provides row (made + 1) s ∧ s.name = kind.numbered (made + 1) ∧
        m' = { m with stations := m.stations ++ [s] } := by
  unfold addNumbered at h
  rcases hlatency : row.2.latency with - | latency <;> rw [hlatency] at h
  · cases h
  · obtain ⟨-, hfree, slot, hslot, rfl⟩ := addStationOfKind_eq_ok_iff.1 h
    refine ⟨⟨latency, hlatency, Slot.exists_make_iff.1 ⟨slot, hslot⟩⟩, hfree,
      Station.ofSlot slot, provides_ofSlot hkind hlatency hslot, (make_eq_ok hslot).1, rfl⟩

/-- **The stations that a row has added.** If there are any, the row makes
stations of the kind, the name of the first was not taken, and it is now. -/
theorem addCounted_eq_ok (hkind : (Designation.name row.1).unitKind = .ok kind)
    (h : addCounted kind row.2 more made m = .ok m') :
    ∃ l, m' = { m with stations := m.stations ++ l } ∧
      ProvidesAll ((List.range' (made + 1) more).map fun n => (row, n)) l ∧
      (0 < more → row.2.Makes kind ∧ (∀ s ∈ m.stations, s.name ≠ kind.numbered (made + 1)) ∧
        ∃ s ∈ l, s.name = kind.numbered (made + 1)) := by
  induction more generalizing made m with
  | zero =>
    cases h
    exact ⟨[], by rw [List.append_nil], .nil, by omega⟩
  | succ more ih =>
    unfold addCounted at h
    rcases hfirst : addNumbered kind row.2 m made with fault | m₁ <;> rw [hfirst] at h
    · cases h
    · obtain ⟨hmakes, hfree, s, hs, hname, rfl⟩ := addNumbered_eq_ok hkind hfirst
      obtain ⟨l, rfl, hl, -⟩ := ih h
      refine ⟨s :: l, by rw [List.append_assoc, List.singleton_append], ?_, ?_⟩
      · rw [List.range'_succ, List.map_cons]
        exact .cons hs hl
      · intro _
        exact ⟨hmakes, hfree, s, List.mem_cons_self, hname⟩

/-- **A row that was added** has a kind and a count, and if it asks for
stations they could be made and were the first of their kind. -/
theorem addRow_eq_ok (h : m.addRow row = .ok m') :
    (∃ kind, (Designation.name row.1).unitKind = .ok kind) ∧
      (∃ count, row.2.stationCount = some count) ∧
      ∃ l, m' = { m with stations := m.stations ++ l } ∧ ProvidesAll (places row) l ∧
        ∀ kind, Asks row kind → row.2.Makes kind ∧
          (∀ s ∈ m.stations, s.name ≠ kind.numbered 1) ∧ ∃ s ∈ l, s.name = kind.numbered 1 := by
  rcases hkind : (Designation.name row.1).unitKind with fault | kind
  · simp only [Machine.addRow, hkind, bind, Except.bind] at h
    cases h
  rcases hcount : row.2.stationCount with - | count
  · simp only [Machine.addRow, hkind, hcount, bind, Except.bind] at h
    cases h
  simp only [Machine.addRow, hkind, hcount, bind, Except.bind] at h
  obtain ⟨l, rfl, hl, hfirst⟩ := addCounted_eq_ok hkind h
  refine ⟨⟨kind, rfl⟩, ⟨count, rfl⟩, l, rfl, ?_, ?_⟩
  · unfold places
    rwa [hcount]
  · rintro kind' ⟨hkind', count', hcount', hpos⟩
    obtain rfl : kind = kind' := Except.ok.inj (hkind.symm.trans hkind')
    obtain rfl : count = count' := Option.some.inj (hcount.symm.trans hcount')
    exact hfirst (by omega)

/-- **A table whose rows were added** is sensible, and the kinds it asks for
had no stations before. -/
theorem addRows_eq_ok {table : PoolTable} (h : table.foldlM Machine.addRow m = .ok m') :
    table.Sensible ∧
      (∀ row ∈ table, ∀ kind, Asks row kind → ∀ s ∈ m.stations, s.name ≠ kind.numbered 1) ∧
      ∃ l, m' = { m with stations := m.stations ++ l } ∧
        ProvidesAll (table.flatMap places) l := by
  induction table generalizing m with
  | nil =>
    cases h
    exact ⟨⟨nofun, nofun, nofun, .nil⟩, nofun, [], by rw [List.append_nil], .nil⟩
  | cons row rest ih =>
    rw [List.foldlM_cons] at h
    rcases hrow : m.addRow row with fault | m₁ <;> rw [hrow] at h
    · cases h
    obtain ⟨hnamed, hcounted, l, rfl, hl, hasks⟩ := addRow_eq_ok hrow
    obtain ⟨hrest, hfree, l', rfl, hl'⟩ := ih h
    refine ⟨⟨?_, ?_, ?_, ?_⟩, ?_, l ++ l', by rw [List.append_assoc], List.rel_append hl hl'⟩
    · exact List.forall_mem_cons.2 ⟨hnamed, hrest.named⟩
    · exact List.forall_mem_cons.2 ⟨hcounted, hrest.counted⟩
    · exact List.forall_mem_cons.2 ⟨fun kind h => (hasks kind h).1, hrest.timed⟩
    · refine List.pairwise_cons.2 ⟨?_, hrest.apart⟩
      intro r hr kind hfirst hlater
      -- The row has taken the name of the first station of the kind.
      obtain ⟨s, hs, hname⟩ := (hasks kind hfirst).2.2
      exact hfree r hr kind hlater s (List.mem_append_right _ hs) hname
    · refine List.forall_mem_cons.2 ⟨fun kind h => (hasks kind h).2.1, ?_⟩
      intro r hr kind h s hs
      exact hfree r hr kind h s (List.mem_append_left _ hs)

/-! ## The pool of a machine -/

/-- **A pool in order.** No two stations have one name, the tag of a station
is its position, and the parts of its latency make up the whole. -/
structure PoolInOrder (m : Machine) : Prop where
  names : (m.stations.map fun s => s.name).Nodup
  tags : ∀ (n : Nat) (s : Station), m.stations[n]? = some s → s.tag = n
  parts : ∀ s ∈ m.stations, s.addressLatency + s.memoryLatency = s.latency

theorem Reachable.poolInOrder (h : Reachable m) : m.PoolInOrder where
  names := by
    have hnames := h.nodup_names
    rwa [names, slots, List.map_map] at hnames
  tags := h.coherent.tags
  parts := fun s _ => s.parts

/-- **A table makes a machine exactly if it is sensible.** The stations are
then those of its rows, in order, and the pool is in order. It stays so
whatever is done with the machine, and a station that is refused leaves the
machine as it was. -/
theorem pool_of_table (table : PoolTable) (offsetsChecked relativeCalls : Bool) :
    ((∃ m, ofTable table offsetsChecked relativeCalls = .ok m) ↔ table.Sensible) ∧
      (∀ (name : String) (kind : UnitKind),
        (Designation.name name).unitKind = .ok kind ↔ kind.IsNamed name) ∧
      ∀ m, ofTable table offsetsChecked relativeCalls = .ok m →
        ProvidesAll (table.flatMap places) m.stations ∧ m.PoolInOrder ∧
          ∀ inputs m', m.undergo Machine.step inputs = .ok m' → m'.PoolInOrder ∧
            ∀ name kind latency address memory fault,
              m'.addStation name kind latency address memory = .error fault →
                m'.afterCall (.addStation name kind latency address memory) = m' := by
  refine ⟨⟨?_, ?_⟩, fun name kind => Designation.unitKind_eq_ok_iff, ?_⟩
  · rintro ⟨m, hm⟩
    exact (addRows_eq_ok hm).1
  · intro h
    exact exists_ofTable h offsetsChecked relativeCalls
  intro m hm
  obtain ⟨-, -, l, hl, hprovides⟩ := addRows_eq_ok hm
  have hreach : Reachable m := .made hm
  refine ⟨?_, hreach.poolInOrder, ?_⟩
  · rw [hl]
    exact hprovides
  intro inputs m' hm'
  refine ⟨(hreach.undergo hm').poolInOrder, ?_⟩
  intro name kind latency address memory fault hfault
  rw [afterCall, make, hfault]
  rfl

/-- A table with other names for the kinds, one of which it names twice. -/
def aliasTable : PoolTable :=
  [(" sub", { stationCount := some 2, latency := some 3 }),
    ("Store", { stationCount := some 1, latency := some 5, memoryLatency := some 3 }),
    ("ADD", { stationCount := some 0, latency := none })]

/-- It makes three stations, and refuses a second one of a name. Were stations
asked for under both names of a kind, it would make none. -/
theorem pool_of_table_aliasSample :
    ∃ m, ofTable aliasTable true false = .ok m ∧
      (m.stations.map fun s => s.name) = ["Add1", "Add2", "Store1"] ∧
      ProvidesAll (aliasTable.flatMap places) m.stations ∧
      m.afterCall (.addStation "Add2" (.name "MUL") 4 none none) = m ∧
      ¬ PoolTable.Sensible
        (("Add", { stationCount := some 1, latency := some 3 }) :: aliasTable) := by
  obtain ⟨m, hm, hnames⟩ := exists_of_any (x := ofTable aliasTable true false)
    (p := fun m => m.stations.map (fun s => s.name) = ["Add1", "Add2", "Store1"])
    (by decide +kernel)
  obtain ⟨fault, hrefused⟩ : ∃ fault,
      ofTable (("Add", { stationCount := some 1, latency := some 3 }) :: aliasTable) true false =
        .error fault :=
    exists_of_isNone (by decide +kernel)
  have hnames := of_decide_eq_true hnames
  obtain ⟨-, -, hmade⟩ := pool_of_table aliasTable true false
  obtain ⟨hprovides, -, hlater⟩ := hmade m hm
  have htaken : m.addStation "Add2" (.name "MUL") 4 none none =
      .error (.duplicateStation "Add2") := by
    have hcycle : m.cycle = 0 := (Fresh.ofTable hm).cycle
    have hany : (m.stations.any fun s => s.name = "Add2") = true := by
      have : "Add2" ∈ m.stations.map fun s => s.name := by
        rw [hnames]
        decide
      simpa using this
    unfold addStation addStationOfKind
    rw [if_neg (by omega), if_pos hany]
  refine ⟨m, hm, hnames, hprovides, (hlater [] m rfl).2 _ _ _ _ _ _ htaken, ?_⟩
  rw [← (pool_of_table _ true false).1, hrefused]
  rintro ⟨m', h⟩
  cases h

end Machine

end OutOfOrder
