import OutOfOrder.Proofs.Renumbering.Cycle
import OutOfOrder.Report.Rows
/-!
# What is read by name

Whoever looks at a machine sees stations by their names and not by their
tags: in the status table, in the rows of the stations, on the bus. Names
stay where tags change, so machines that are renumbered `ReadAlike`.

A tag below zero would name a station from the end of the pool. In a
reachable machine there is none (`Reachable.positions`).
-/

namespace OutOfOrder

namespace Machine

variable {ρ : Equiv.Perm Nat} {l : List Station} {m m' : Machine} {n : Nat} {s : Station}
variable {o : Occupant} {t : Tag} {table : StatusTable} {es : List Entry}

/-- The names of the stations. -/
def names (m : Machine) : List String := m.slots.map Slot.name

theorem getElem?_names : m.names[n]? = m.stations[n]?.map fun s => s.name := by
  rw [names, slots, List.map_map, List.getElem?_map]
  rfl

/-- The stations that a status table names. -/
def named (m : Machine) (table : StatusTable) : List (Option String) :=
  table.toList.map fun t => t.bind m.stationName?

/-- The stations that the table saved with a branch names. -/
def savedNames? (m : Machine) (s : Station) : Option (List (Option String)) :=
  if s.kind = .beq then s.occupant.bind fun o => o.checkpoint.map m.named else none

/-- The station that has sent a result in the last cycle, and the result. -/
def sentBy? (m : Machine) : Option (Option String × Int) :=
  m.onBus.map fun b => (m.stationName? b.1, b.2)

/-- **The machines read alike.** What is shown of one by the names of its
stations is shown of the other. -/
structure ReadAlike (m m' : Machine) : Prop where
  status : m'.registerStatus = m.registerStatus
  rows : ∀ name, (m'.station? name).map m'.stationRow = (m.station? name).map m.stationRow
  saved : ∀ name, (m'.station? name).bind m'.savedNames? = (m.station? name).bind m.savedNames?
  sent : m'.sentBy? = m.sentBy?

/-! ## Tags are positions -/

/-- **The tags of a machine are positions.** None is below zero. -/
structure Positions (m : Machine) : Prop where
  status : ∀ r t, m.registers.status.get r = some t → 0 ≤ t
  operands : ∀ n s o t, m.Holds n s o → o.j.tag? = some t ∨ o.k.tag? = some t → 0 ≤ t
  saved : ∀ n s o table r t, m.Holds n s o → s.kind = .beq → o.checkpoint = some table →
    table.get r = some t → 0 ≤ t
  onBus : ∀ b ∈ m.onBus, 0 ≤ b.1

/-- A tag of a table that describes a history is a position of the pool. -/
theorem Describes.placed {r : Reg} (h : m.Describes es table) (ha : m.Accounted)
    (hes : ∀ e ∈ es, e ∈ m.issued) (ht : table.get r = some t) :
    0 ≤ t ∧ t < m.stations.length := by
  rw [h r, Option.map_eq_some_iff] at ht
  obtain ⟨w, hw, rfl⟩ := ht
  exact ha.placed w (hes w (mem_of_producer? hw).1)

/-- And so is the tag of an operand that a history supplies. -/
theorem Supplies.placed {source : Option Reg} {x : Operand} (h : m.Supplies es source x)
    (ha : m.Accounted) (hes : ∀ e ∈ es, e ∈ m.issued) (ht : x.tag? = some t) :
    0 ≤ t ∧ t < m.stations.length := by
  rcases source with - | r
  · rw [show x = .unused from h] at ht
    cases ht
  · simp only [Supplies] at h
    split at h
    · rename_i w hw
      subst h
      cases ht
      exact ha.placed w (hes w (mem_of_producer? hw).1)
    · obtain ⟨v, rfl⟩ := h
      cases ht

/-- What is on the bus was sent from a position of the pool. -/
theorem Reachable.onBus_nonneg (h : Reachable m) : ∀ b ∈ m.onBus, 0 ≤ b.1 := by
  induction h with
  | made h =>
    exact ofTable_induction (P := fun m => ∀ b ∈ m.onBus, 0 ≤ b.1) (fun _ _ h _ => h) nofun h
  | call _ call ih =>
    rcases call.added_or_loads with ⟨slot, -, rfl⟩ | ⟨_, _, _, _, rfl⟩ <;> exact ih
  | @step m m' h hstep ih =>
    obtain ⟨m₁, m₂, m₃, h₁, h₂, h₃, rfl, -⟩ := step_eq_ok hstep
    have hc₂ := (execute_moves h₂).coherent (h.coherent.advance.issue h₁)
    -- The bus is cleared when the timers move.
    have hbus : m₂.onBus = none := by
      rw [(execute_moves h₂).onBus.1, (issue_frame h₁).2.1]
      rfl
    intro b hb
    change m₃.onBus = some b at hb
    rw [(writeBack_frame h₃).2.2, hbus, Option.or_none, Option.map_eq_some_iff] at hb
    obtain ⟨x, hx, rfl⟩ := hb
    dsimp only
    rw [hc₂.tags _ _ (nextSender?_eq_some hx).1.1]
    exact Int.natCast_nonneg _

section Reachable

variable {r : Reg} (h : Reachable m)
include h

theorem Reachable.status_placed (ht : m.registers.status.get r = some t) :
    0 ≤ t ∧ t < m.stations.length :=
  h.coherent.status.placed h.accounted mem_issued_of_renamers ht

theorem Reachable.operand_placed (hold : m.Holds n s o)
    (ht : o.j.tag? = some t ∨ o.k.tag? = some t) : 0 ≤ t ∧ t < m.stations.length := by
  obtain ⟨hj, hk⟩ := h.coherent.sources n s o hold
  rcases ht with ht | ht
  · exact hj.placed h.accounted mem_issued_of_before ht
  · exact hk.placed h.accounted mem_issued_of_before ht

theorem Reachable.saved_placed (hold : m.Holds n s o) (kind : s.kind = .beq)
    (hsaved : o.checkpoint = some table) (ht : table.get r = some t) :
    0 ≤ t ∧ t < m.stations.length := by
  obtain ⟨table', htable, hd⟩ := h.coherent.saved n s o hold kind
  obtain rfl : table' = table := Option.some.inj (htable.symm.trans hsaved)
  exact hd.placed h.accounted mem_issued_of_before ht

/-- **In a reachable machine every tag is a position.** -/
theorem Reachable.positions : m.Positions where
  status _ _ ht := (h.status_placed ht).1
  operands _ _ _ _ hold ht := (h.operand_placed hold ht).1
  saved _ _ _ _ _ _ hold kind hsaved ht := (h.saved_placed hold kind hsaved ht).1
  onBus := h.onBus_nonneg

end Reachable

/-! ## Names stay -/

theorem station?_eq_none_iff {name : String} :
    m.station? name = none ↔ ∀ s ∈ m.stations, s.name ≠ name := by
  simp only [station?, List.find?_eq_none, decide_eq_true_eq, ne_eq]

theorem mem_of_station? {name : String} (h : m.station? name = some s) :
    s ∈ m.stations ∧ s.name = name :=
  ⟨List.mem_of_find?_eq_some h, by simpa using List.find?_some h⟩

section

variable (h : Reordered ρ m.stations l)
include h

/-- **A tag stands for a station of the same name.** -/
theorem stationName?_renumber (ht : 0 ≤ t) :
    (m.renumber ρ l).stationName? (renumberTag ρ t) = m.stationName? t := by
  obtain ⟨n, rfl⟩ := Int.eq_ofNat_of_zero_le ht
  have hname : ∀ (z : Machine) (k : Nat),
      z.stationName? k = z.stations[k]?.map fun s => s.name := by
    intro z k
    have hk : ¬ (k : Int) < 0 := by omega
    simp only [stationName?, if_neg hk, Int.toNat_natCast]
  rw [renumberTag_natCast, hname, hname, show (m.renumber ρ l).stations[ρ n]? = l[ρ n]? from rfl,
    h n, Option.map_map]
  rfl

theorem named_renumber (ht : ∀ r t, table.get r = some t → 0 ≤ t) :
    (m.renumber ρ l).named (renumberTable ρ table) = m.named table := by
  rw [named, named, renumberTable, Vector.toList_map, List.map_map]
  refine List.map_congr_left fun x hx => ?_
  obtain ⟨k, hk, hget⟩ := Vector.mem_iff_getElem.1 (Vector.mem_toList_iff.1 hx)
  rcases x with - | t
  · rfl
  · exact stationName?_renumber h (ht ⟨k, hk⟩ t hget)

/-- **The station of a name is the same one**, if no two stations have one
name. -/
theorem station?_renumber (hnames : m.names.Nodup) (name : String) :
    (m.renumber ρ l).station? name = (m.station? name).map (Station.renumber ρ) := by
  rw [names, slots, List.map_map] at hnames
  rcases hs : m.station? name with - | s
  · refine station?_eq_none_iff.2 fun s' hs' => ?_
    obtain ⟨s, hmem, rfl⟩ := h.mem_iff.1 hs'
    exact station?_eq_none_iff.1 hs s hmem
  · obtain ⟨hmem, hname⟩ := mem_of_station? hs
    rcases hs' : (m.renumber ρ l).station? name with - | s'
    · exact absurd hname
        (station?_eq_none_iff.1 hs' (s.renumber ρ) (h.mem_iff.2 ⟨s, hmem, rfl⟩))
    · obtain ⟨hmem', hname'⟩ := mem_of_station? hs'
      obtain ⟨p, hp, rfl⟩ := h.mem_iff.1 hmem'
      rw [List.inj_on_of_nodup_map hnames hp hmem (hname'.trans hname.symm)]
      rfl

/-- The row of a station does not show its tags. -/
theorem stationRow_renumber (hp : m.Positions) (hs : s ∈ m.stations) :
    (m.renumber ρ l).stationRow (s.renumber ρ) = m.stationRow s := by
  have hwaits : ∀ x : Operand, (∀ t, x.tag? = some t → 0 ≤ t) →
      (x.renumber ρ).tag?.bind (m.renumber ρ l).stationName? = x.tag?.bind m.stationName? := by
    intro x hx
    rw [Operand.tag?_renumber]
    rcases hxt : x.tag? with - | t
    · rfl
    · exact stationName?_renumber h (hx t hxt)
  rcases ho : s.occupant with - | o
  · simp [stationRow, Station.cycles, ho]
  · obtain ⟨n, hold⟩ := exists_holds_of_mem hs ho
    have hj := hwaits o.j fun t ht => hp.operands n s o t hold (.inl ht)
    have hk := hwaits o.k fun t ht => hp.operands n s o t hold (.inr ht)
    simp only [stationRow, Station.cycles, Station.busy_renumber, Station.occupant_renumber, ho,
      Option.map_some, Option.bind_some, Occupant.value?_j_renumber, Occupant.value?_k_renumber,
      ← hj, ← hk]
    rfl

theorem savedNames?_renumber (hp : m.Positions) (hs : s ∈ m.stations) :
    (m.renumber ρ l).savedNames? (s.renumber ρ) = m.savedNames? s := by
  rw [savedNames?, savedNames?, Station.kind_renumber]
  by_cases kind : s.kind = .beq
  · rw [if_pos kind, if_pos kind, Station.occupant_renumber]
    rcases ho : s.occupant with - | o
    · rfl
    simp only [Option.map_some, Option.bind_some, Occupant.checkpoint_renumber]
    rcases hsaved : o.checkpoint with - | table
    · rfl
    obtain ⟨n, hold⟩ := exists_holds_of_mem hs ho
    exact congrArg some (named_renumber h (hp.saved n s o table · · hold kind hsaved))
  · rw [if_neg kind, if_neg kind]

end

/-- **Renumbered machines read alike.** -/
theorem Renumbered.readAlike (h : Renumbered ρ m m') (hp : m.Positions)
    (hnames : m.names.Nodup) : ReadAlike m m' := by
  obtain ⟨l, hl, rfl⟩ := h
  refine ⟨named_renumber hl hp.status, fun name => ?_, fun name => ?_, ?_⟩
  · rw [station?_renumber hl hnames, Option.map_map]
    rcases hs : m.station? name with - | s
    · rfl
    · exact congrArg some (stationRow_renumber hl hp (mem_of_station? hs).1)
  · rw [station?_renumber hl hnames]
    rcases hs : m.station? name with - | s
    · rfl
    · exact savedNames?_renumber hl hp (mem_of_station? hs).1
  · simp only [sentBy?]
    rcases hb : m.onBus with - | b
    · simp [renumber, hb]
    · simp [renumber, hb, ← stationName?_renumber hl (hp.onBus b hb)]

end Machine

end OutOfOrder
