import OutOfOrder.Proofs.Runs
import OutOfOrder.Proofs.Turns
/-!
# Who gets the bus

The Writeback stage finds the sender in the history of issues: it goes
through the path and takes the first entry whose station can send. That this
is the oldest of the stations that contend for the bus is a statement about
the stations alone, and has to be shown of the history.

Every station that contends is found, because what it holds was issued and
is on the path, and no entry is taken for another that had its station
before, because the numbers are compared (`Coherent.sender?_eq_some_iff`).
The oldest is found first, because the path is in order. So the scan gives
the least of those who contend, and gives nothing only if there are none
(`nextSender?_eq_some_iff`, `nextSender?_eq_none_iff`).

After its broadcast the sender is named nowhere. That needs no look at what
was broadcast: every tag that a coherent machine keeps is the tag of a
station in use (`Coherent.unnamed`).
-/

namespace OutOfOrder

namespace Machine

variable {m m₁ m₂ : Machine} {n : Nat} {e : Entry} {x y : Sender}

/-- **A station contends for the bus.** Its unit sends results, it holds one,
it is past its latency, and no branch issued before its instruction is
pending. -/
structure Contends (m : Machine) (x : Sender) : Prop where
  hold : m.Holds x.position x.station x.occupant
  bus : x.station.kind.usesBus
  result : x.station.result = some x.value
  late : x.station.latency < x.occupant.cycles
  path : m.OnPath x.occupant.seq

instance : Decidable (m.Contends x) :=
  decidable_of_iff (m.occupied? x.position = some (x.station, x.occupant) ∧
      x.station.kind.usesBus ∧ x.station.result = some x.value ∧
      x.station.latency < x.occupant.cycles ∧ speculative m.barrier x.occupant.seq = false) <| by
    rw [occupied?_eq_some_iff, speculative_barrier_eq_false_iff]
    exact ⟨fun ⟨hold, bus, result, late, path⟩ => ⟨hold, bus, result, late, path⟩,
      fun ⟨hold, bus, result, late, path⟩ => ⟨hold, bus, result, late, path⟩⟩

/-- **Nothing names a tag**: no operand, no register and no table saved with
a pending branch waits for it. -/
structure Unnamed (m : Machine) (t : Tag) : Prop where
  operands : ∀ k s o, m.Holds k s o → o.j ≠ .waiting t ∧ o.k ≠ .waiting t
  status : ∀ r, m.registers.status.get r ≠ some t
  saved : ∀ k s o table, m.Holds k s o → s.kind = .beq → o.checkpoint = some table →
    ∀ r, table.get r ≠ some t

/-! ## The scan finds the oldest -/

/-- Who contends is known by its number. -/
theorem Contends.eq_of_seq_eq (hc : m.Coherent) (hx : m.Contends x) (hy : m.Contends y)
    (hseq : x.occupant.seq = y.occupant.seq) : x = y := by
  obtain ⟨p, s, o, v⟩ := x
  obtain ⟨p', s', o', v'⟩ := y
  obtain rfl : p = p' := hc.position_eq hx.hold hy.hold hseq
  obtain ⟨rfl, rfl⟩ : s = s' ∧ o = o' := hx.hold.unique hy.hold
  obtain rfl : v = v' := Option.some.inj (hx.result.symm.trans hy.result)
  rfl

/-- **An entry of the path leads to the station that contends with its
number**, and to no other. -/
theorem Coherent.sender?_eq_some_iff (hc : m.Coherent) (he : e ∈ m.path) :
    m.sender? e = some x ↔ m.Contends x ∧ e.seq = x.occupant.seq := by
  obtain ⟨he, hpath⟩ := hc.mem_path.1 he
  constructor
  · intro hx
    obtain ⟨hold, hv, hbus, hlate, hseq⟩ := sender?_eq_some hx
    exact ⟨⟨hold, hbus, hv, hlate, hseq ▸ hpath⟩, hseq⟩
  · rintro ⟨⟨hold, hbus, hv, hlate, -⟩, hseq⟩
    have htag : e.tag.toNat = x.position := by rw [hc.tag_eq hold he hseq, Int.toNat_natCast]
    rw [sender?, htag, occupied?_eq_some_iff.2 hold]
    simp only [hv, hseq, hbus, hlate, decide_true, Bool.and_self, if_true]

/-- Who contends has its entry on the path. -/
theorem Contends.exists_entry (hx : m.Contends x) (hc : m.Coherent) :
    ∃ e ∈ m.path, e.seq = x.occupant.seq := by
  obtain ⟨e, he, hof⟩ := hc.owner _ _ _ hx.hold
  exact ⟨e, hc.mem_path.2 ⟨he, hof.seq ▸ hx.path⟩, hof.seq⟩

/-- **Nobody sends only if nobody contends.** -/
theorem Coherent.nextSender?_eq_none_iff (hc : m.Coherent) :
    m.nextSender? = none ↔ ∀ x, ¬ m.Contends x := by
  change m.path.findSome? m.sender? = none ↔ _
  rw [List.findSome?_eq_none_iff]
  constructor
  · intro hnone x hx
    obtain ⟨e, he, hseq⟩ := hx.exists_entry hc
    have hsome := (hc.sender?_eq_some_iff he).2 ⟨hx, hseq⟩
    rw [hnone e he] at hsome
    cases hsome
  · intro hnone e he
    rw [Option.eq_none_iff_forall_ne_some]
    exact fun x hx => hnone x ((hc.sender?_eq_some_iff he).1 hx).1

/-- The scan takes the oldest of those who contend. -/
theorem Coherent.contends_of_nextSender? (hc : m.Coherent) (hx : m.nextSender? = some x) :
    m.Contends x ∧ ∀ y, m.Contends y → x.occupant.seq ≤ y.occupant.seq := by
  obtain ⟨l, e, l', hsplit, hsend, hnone⟩ := List.findSome?_eq_some_iff.1 hx
  have hsplit : m.path = l ++ e :: l' := hsplit
  have mem : ∀ {a}, a ∈ l ++ e :: l' → a ∈ m.path := fun ha => hsplit ▸ ha
  obtain ⟨hcont, hseq⟩ := (hc.sender?_eq_some_iff (mem (by simp))).1 hsend
  refine ⟨hcont, fun y hy => ?_⟩
  obtain ⟨a, ha, haseq⟩ := hy.exists_entry hc
  have hsome := (hc.sender?_eq_some_iff ha).2 ⟨hy, haseq⟩
  rw [← hseq, ← haseq]
  rw [hsplit, List.mem_append, List.mem_cons] at ha
  rcases ha with ha | rfl | ha
  · -- Who comes before it in the path does not contend.
    rw [hnone a ha] at hsome
    cases hsome
  · exact Int.le_refl _
  · have hin := hc.path_inOrder
    rw [hsplit, InOrder, List.pairwise_append, List.pairwise_cons] at hin
    exact Int.le_of_lt (hin.2.1.1 a ha)

/-- **The scan is the minimum over the stations.** -/
theorem Coherent.nextSender?_eq_some_iff (hc : m.Coherent) :
    m.nextSender? = some x ↔
      m.Contends x ∧ ∀ y, m.Contends y → x.occupant.seq ≤ y.occupant.seq := by
  refine ⟨hc.contends_of_nextSender?, ?_⟩
  rintro ⟨hcont, hle⟩
  rcases hz : m.nextSender? with - | z
  · exact absurd hcont (hc.nextSender?_eq_none_iff.1 hz x)
  · obtain ⟨hcont', hle'⟩ := hc.contends_of_nextSender? hz
    rw [hcont'.eq_of_seq_eq hc hcont (Int.le_antisymm (hle' x hcont) (hle z hcont'))]

/-! ## What is free is named nowhere -/

/-- The producer of a register is in a station. -/
theorem Coherent.tag_ne_of_producer? (hc : m.Coherent) (hfree : ∀ s o, ¬ m.Holds n s o)
    {l : List Entry} (hl : ∀ e ∈ l, e ∈ m.issued) (hw : m.producer? l r = some e) :
    e.tag ≠ n := by
  intro htag
  obtain ⟨k, s, o, hold, hseq⟩ := mem_flight.1 (producer?_eq_some_iff.1 hw).2.2
  have hk := hc.tag_eq hold (hl e (mem_of_producer? hw).1) hseq.symm
  obtain rfl := Int.ofNat.inj (htag.symm.trans hk)
  exact hfree s o hold

/-- **A station that is free is named nowhere.** -/
theorem Coherent.unnamed (hc : m.Coherent) (hfree : ∀ s o, ¬ m.Holds n s o) : m.Unnamed n := by
  have table_ne : ∀ {l table}, (∀ e ∈ l, e ∈ m.issued) → m.Describes l table →
      ∀ r, table.get r ≠ some (n : Tag) := by
    intro l table hl hdesc r htag
    rw [hdesc r, Option.map_eq_some_iff] at htag
    obtain ⟨w, hw, htag⟩ := htag
    exact hc.tag_ne_of_producer? hfree hl hw htag
  have operand_ne : ∀ {q source v}, m.Supplies (m.before q) source v → v ≠ .waiting (n : Tag) := by
    rintro q source _ hsup rfl
    rcases source with - | r
    · cases hsup
    simp only [Supplies] at hsup
    split at hsup
    · rename_i w hw
      exact hc.tag_ne_of_producer? hfree mem_issued_of_before hw (Operand.waiting.inj hsup).symm
    · obtain ⟨v, hv⟩ := hsup
      cases hv
  constructor
  · intro k s o hold
    obtain ⟨hj, hk⟩ := hc.sources k s o hold
    exact ⟨operand_ne hj, operand_ne hk⟩
  · exact table_ne mem_issued_of_renamers hc.status
  · intro k s o table hold kind htable
    obtain ⟨table', htable', hdesc⟩ := hc.saved k s o hold kind
    obtain rfl := Option.some.inj (htable.symm.trans htable')
    exact table_ne mem_issued_of_before hdesc

/-! ## The Writeback stage -/

/-- The sender's station is free after its broadcast. -/
theorem stations_sent (hold : m.Holds x.position x.station x.occupant) :
    (m.sent x).stations[x.position]? = some x.station.clear := by
  simp only [sent, deliver, List.getElem?_mapIdx, hold.1, Option.map_some, if_true]

/-- **The bus goes to the oldest, and never idles.** Where nobody contends
the Writeback stage changes nothing. Otherwise it does not fail; of those who
contend the one with the least number sends its own result, its station is
free after it, and nothing names the station any more. -/
theorem writeBack_arbitrates (h : Reachable m) (h₁ : m.advance.issue = .ok m₁)
    (h₂ : m₁.execute = .ok m₂) :
    ((∀ x, ¬ m₂.Contends x) ∧ m₂.nextSender? = none ∧ m₂.writeBack = .ok m₂ ∧ m₂.onBus = none) ∨
      ∃ x m₃, m₂.Contends x ∧
        (∀ y, m₂.Contends y → y ≠ x → x.occupant.seq < y.occupant.seq) ∧
        m₂.nextSender? = some x ∧ m₂.writeBack = .ok m₃ ∧
        m₃.onBus = some (x.station.tag, x.value) ∧ m₃.broadcasts = m₂.broadcasts + 1 ∧
        x.station.tag = x.position ∧ m₃.stations[x.position]? = some x.station.clear ∧
        m₃.Unnamed x.station.tag := by
  have hmoves := execute_moves h₂
  have hc := hmoves.coherent (h.coherent.advance.issue h₁)
  rcases hc.writeBack_eq with ⟨hnone, heq⟩ | ⟨x, hx, heq⟩
  · refine .inl ⟨hc.nextSender?_eq_none_iff.1 hnone, hnone, heq, ?_⟩
    rw [hmoves.onBus.1, (issue_frame h₁).2.1]
    rfl
  · obtain ⟨hcont, hle⟩ := hc.nextSender?_eq_some_iff.1 hx
    have htag := hc.tags _ _ hcont.hold.1
    refine .inr ⟨x, m₂.sent x, hcont, fun y hy hne => ?_, hx, heq, rfl, rfl, htag,
      stations_sent hcont.hold, ?_⟩
    · exact lt_of_le_of_ne (hle y hy) fun hseq => hne (hcont.eq_of_seq_eq hc hy hseq).symm
    · rw [htag]
      exact (hc.writeBack heq).unnamed fun s o hold => (holds_sent.1 hold).1 rfl

/-- An adder, and a multiplier that takes a cycle longer. -/
def contendingTable : PoolTable :=
  [("ADD", { stationCount := some 1, latency := some 1 }),
    ("MUL", { stationCount := some 1, latency := some 2 })]

/-- The pool of these units. -/
def contendingPool : Machine :=
  (ofTable contendingTable true false).toOption.getD
    { offsetsChecked := true, relativeCalls := false }

theorem configured_contendingPool : Configured contendingPool :=
  @Configured.made contendingTable true false contendingPool rfl

/-- A product and a sum that are ready for the bus in the same cycle. -/
def contendingSample : Machine :=
  left (contendingPool.loadProgram [.alu .mul 1 2 3, .alu .add 4 2 3] 0 [] [(2, 5), (3, 6)])

/-- In its fourth cycle both contend, and the product goes out: it is the
older of the two. -/
theorem writeBack_arbitrates_contendingSample :
    ∃ m m₁ m₂ y x m₃, contendingSample.steps 3 = .ok m ∧ m.advance.issue = .ok m₁ ∧
      m₁.execute = .ok m₂ ∧ m₂.Contends y ∧ y.station.name = "Add1" ∧ m₂.Contends x ∧
      x.station.name = "Mul1" ∧ x.occupant.seq < y.occupant.seq ∧ m₂.writeBack = .ok m₃ ∧
      m₃.onBus = some (1, 30) ∧ m₃.Unnamed 1 := by
  have hran : ((contendingSample.steps 3).toOption.any fun m =>
      m.advance.issue.toOption.any fun m₁ => m₁.execute.toOption.any fun m₂ =>
        ((m₂.occupied? 0).any fun p =>
          p.1.name = "Add1" && decide (m₂.Contends ⟨0, p.1, p.2, 11⟩)) &&
        m₂.nextSender?.any fun x => x.station.name = "Mul1" && x.station.tag = 1 &&
          x.value = 30) = true := by
    decide +kernel
  obtain ⟨m, hm, h⟩ := exists_of_any hran
  obtain ⟨m₁, h₁, h⟩ := exists_of_any h
  obtain ⟨m₂, h₂, h⟩ := exists_of_any h
  simp only [Bool.and_eq_true, Option.any_eq_true, decide_eq_true_eq] at h
  obtain ⟨⟨p, -, hname, hy⟩, x, hx, ⟨hname', htag⟩, hvalue⟩ := h
  have hreach : Reachable contendingSample :=
    (Configured.call configured_contendingPool (.loadProgram ..)).reachable
  rcases writeBack_arbitrates (hreach.steps hm) h₁ h₂ with
    ⟨hnone, -⟩ | ⟨x', m₃, hcont, hlt, hx', heq, hbus, -, -, -, hunnamed⟩
  · exact absurd hy (hnone _)
  · obtain rfl : x' = x := Option.some.inj (hx'.symm.trans hx)
    have hne : (⟨0, p.1, p.2, 11⟩ : Sender) ≠ x' := by
      rintro rfl
      rw [hname] at hname'
      revert hname'
      decide
    rw [htag, hvalue] at hbus
    rw [htag] at hunnamed
    exact ⟨m, m₁, m₂, _, x', m₃, hm, h₁, h₂, hy, hname, hcont, hname', hlt _ hy hne, heq, hbus,
      hunnamed⟩

end Machine

end OutOfOrder
