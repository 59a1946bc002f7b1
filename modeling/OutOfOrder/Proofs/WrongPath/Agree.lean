import OutOfOrder.Proofs.Turns
/-!
# Machines that agree up to an instruction

Two machines agree up to an instruction when nothing tells them apart but
what was issued after it: the second one has none of it, in its stations or
in its history, and otherwise they have the same memory, the same values in
registers and the same histories. They may differ in what such instructions
leave in the status table, the program counter and the pending flags.

The lemmas say what becomes of this in the parts of a cycle: the timers and
the Issue stage of the first machine keep it, and so does a turn of an
instruction that was issued before.
-/

namespace OutOfOrder

namespace Machine

variable {m m' m₁ m₁' : Machine} {n k : Nat} {s s' : Station} {o o' : Occupant} {e : Entry}
variable {q x : Int} {v : Int}

/-- **The machines agree up to the instruction of a number.** -/
structure AgreeUpTo (q : Int) (m m' : Machine) : Prop where
  stations : m'.stations = m.stations.map (Station.squash q)
  issued : m'.issued = m.issued.filter fun e => e.seq ≤ q
  values : m'.registers.values = m.registers.values
  memory : m'.memory = m.memory
  executed : m'.executed = m.executed
  writtenBack : m'.writtenBack = m.writtenBack
  onBus : m'.onBus = m.onBus
  broadcasts : m'.broadcasts = m.broadcasts
  mispredictions : m'.mispredictions = m.mispredictions
  cycle : m'.cycle = m.cycle
  loaded : m'.loaded = m.loaded
  offsetsChecked : m'.offsetsChecked = m.offsetsChecked
  relativeCalls : m'.relativeCalls = m.relativeCalls

/-! ## Stations that are left out -/

theorem squash_of_le (h : ∀ o, s.occupant = some o → o.seq ≤ q) : s.squash q = s := by
  refine if_neg ?_
  rw [Option.any_eq_true]
  rintro ⟨o, ho, hlt⟩
  have := h o ho
  simp only [decide_eq_true_eq] at hlt
  omega

theorem squash_of_lt (ho : s.occupant = some o) (h : q < o.seq) : s.squash q = s.clear :=
  if_pos (by rw [ho, Option.any_some]; exact decide_eq_true h)

theorem squash_clear (s : Station) : s.clear.squash q = s.clear :=
  squash_of_le fun o ho => by cases ho

theorem clear_squash (s : Station) : (s.squash q).clear = s.clear := by
  rw [Station.squash]
  split <;> rfl

/-- To drop more, it does not matter what has been dropped before. -/
theorem squash_squash (hx : x ≤ q) (s : Station) : (s.squash q).squash x = s.squash x := by
  by_cases h : s.occupant.any fun o => q < o.seq
  · obtain ⟨o, ho, hlt⟩ := (Option.any_eq_true ..).1 h
    have hlt : q < o.seq := of_decide_eq_true hlt
    rw [squash_of_lt ho hlt, squash_clear, squash_of_lt ho (Int.lt_of_le_of_lt hx hlt)]
  · rw [show s.squash q = s from if_neg h]

theorem squash_advance (s : Station) : s.advance.squash q = (s.squash q).advance := by
  have hany : (s.advance.occupant.any fun o => q < o.seq) = s.occupant.any fun o => q < o.seq := by
    rw [Station.advance_occupant, Option.any_map]
    congr 1
    funext o
    rw [tick_eq]
  by_cases h : s.occupant.any fun o => q < o.seq
  · rw [show s.squash q = s.clear from if_pos h,
      show s.advance.squash q = s.advance.clear from if_pos (hany.trans h), Station.advance]
    split <;> rfl
  · rw [show s.squash q = s from if_neg h,
      show s.advance.squash q = s.advance from if_neg (by rw [hany]; exact h)]

/-- A free station hears nothing. -/
theorem clear_told (s : Station) (tag : Tag) (v : Int) : s.clear.told tag v = s.clear := by
  by_cases hk : s.kind = .beq <;>
    simp [Station.told, Station.settle, Station.hear, Station.clear, hk]

theorem told_clear (s : Station) (tag : Tag) (v : Int) : (s.told tag v).clear = s.clear := by
  simp only [Station.clear, (s.told_toSlot tag v).1]

theorem squash_told (s : Station) (tag : Tag) (v : Int) :
    (s.told tag v).squash q = (s.squash q).told tag v := by
  have hany : ((s.told tag v).occupant.any fun o => q < o.seq) =
      s.occupant.any fun o => q < o.seq := by
    rw [Station.told_occupant, Option.any_map]
    rfl
  by_cases h : s.occupant.any fun o => q < o.seq
  · rw [show s.squash q = s.clear from if_pos h, clear_told, ← told_clear s tag v]
    exact if_pos (hany.trans h)
  · rw [show s.squash q = s from if_neg h,
      show (s.told tag v).squash q = s.told tag v from if_neg (by rw [hany]; exact h)]

namespace AgreeUpTo

/-! ## What the second machine has -/

theorem holds_iff (h : AgreeUpTo q m m') : m'.Holds n s o ↔ m.Holds n s o ∧ o.seq ≤ q := by
  simp only [Holds, h.stations, List.getElem?_map, Option.map_eq_some_iff]
  constructor
  · rintro ⟨⟨s₁, hs₁, rfl⟩, ho⟩
    by_cases hany : s₁.occupant.any fun o => q < o.seq
    · rw [show s₁.squash q = s₁.clear from if_pos hany] at ho
      cases ho
    · rw [show s₁.squash q = s₁ from if_neg hany] at ho ⊢
      rw [ho] at hany
      exact ⟨⟨hs₁, ho⟩, by simpa using hany⟩
  · rintro ⟨⟨hs, ho⟩, hle⟩
    refine ⟨⟨s, hs, squash_of_le fun o' ho' => ?_⟩, ho⟩
    obtain rfl : o = o' := Option.some.inj (ho.symm.trans ho')
    exact hle

theorem occupied?_eq_none (h : AgreeUpTo q m m') (hn : ∀ s o, m.Holds n s o → q < o.seq) :
    m'.occupied? n = none := by
  rw [occupied?_eq_none_iff]
  intro s o hold'
  obtain ⟨hold, hle⟩ := h.holds_iff.1 hold'
  have := hn s o hold
  omega

theorem mem_flight_iff (h : AgreeUpTo q m m') : x ∈ m'.flight ↔ x ∈ m.flight ∧ x ≤ q := by
  simp only [mem_flight, h.holds_iff]
  constructor
  · rintro ⟨n, s, o, ⟨hold, hle⟩, rfl⟩
    exact ⟨⟨n, s, o, hold, rfl⟩, hle⟩
  · rintro ⟨⟨n, s, o, hold, rfl⟩, hle⟩
    exact ⟨n, s, o, ⟨hold, hle⟩, rfl⟩

theorem mem_issued_iff (h : AgreeUpTo q m m') : e ∈ m'.issued ↔ e ∈ m.issued ∧ e.seq ≤ q := by
  rw [h.issued, List.mem_filter, decide_eq_true_eq]

theorem before_eq (h : AgreeUpTo q m m') (hx : x ≤ q) : m'.before x = m.before x := by
  rw [before, before, h.issued, List.filter_filter]
  refine List.filter_congr fun e _ => ?_
  rw [Bool.eq_iff_iff, Bool.and_eq_true, decide_eq_true_eq, decide_eq_true_eq]
  omega

theorem onPath (h : AgreeUpTo q m m') (path : m.OnPath x) : m'.OnPath x :=
  fun n s o hold kind => path n s o (h.holds_iff.1 hold).1 kind

/-- Up to the instruction the path is the same. -/
theorem onPath_iff (h : AgreeUpTo q m m') (hx : x ≤ q) : m'.OnPath x ↔ m.OnPath x := by
  refine ⟨fun path n s o hold kind => ?_, h.onPath⟩
  by_cases hle : o.seq ≤ q
  · exact path n s o (h.holds_iff.2 ⟨hold, hle⟩) kind
  · omega

theorem entry_eq (h : AgreeUpTo q m m') : m'.entry s o = m.entry s o := by
  rw [entry, entry, h.cycle]

/-- An older instruction waits for the same accesses in both. -/
theorem hazard?_eq_none_iff (h : AgreeUpTo q m m') (ho : o.seq ≤ q) :
    m'.hazard? n s o = none ↔ m.hazard? n s o = none := by
  have hblocks : ∀ s₁ : Station, blocks s o (s₁.squash q) = blocks s o s₁ := by
    intro s₁
    by_cases hany : s₁.occupant.any fun p => q < p.seq
    · obtain ⟨p, hp, hlt⟩ := (Option.any_eq_true ..).1 hany
      rw [squash_of_lt hp (of_decide_eq_true hlt)]
      have hnot : ¬ p.seq ≤ o.seq := by
        have := of_decide_eq_true hlt
        omega
      simp [blocks, hp, Station.clear, hnot]
    · rw [show s₁.squash q = s₁ from if_neg hany]
  rw [Machine.hazard?_eq_none_iff, Machine.hazard?_eq_none_iff]
  simp only [h.stations, List.getElem?_map, Option.map_eq_some_iff]
  constructor
  · intro hn k s₁ hs₁ hk
    rw [← hblocks]
    exact hn k _ ⟨s₁, hs₁, rfl⟩ hk
  · rintro hn k _ ⟨s₁, hs₁, rfl⟩ hk
    rw [hblocks]
    exact hn k s₁ hs₁ hk

/-! ## What keeps machines in agreement -/

/-- A machine agrees with itself up to the last instruction issued. -/
theorem refl (hissued : ∀ e ∈ m.issued, e.seq ≤ q) (hflight : ∀ x ∈ m.flight, x ≤ q) :
    AgreeUpTo q m m where
  stations := by
    refine (List.map_id m.stations).symm.trans (List.map_congr_left fun s hs => ?_)
    refine (squash_of_le fun o ho => ?_).symm
    obtain ⟨n, hold⟩ := exists_holds_of_mem hs ho
    exact hflight _ hold.mem_flight
  issued := (List.filter_eq_self.2 fun e he => decide_eq_true (hissued e he)).symm
  values := rfl
  memory := rfl
  executed := rfl
  writtenBack := rfl
  onBus := rfl
  broadcasts := rfl
  mispredictions := rfl
  cycle := rfl
  loaded := rfl
  offsetsChecked := rfl
  relativeCalls := rfl

theorem advance (h : AgreeUpTo q m m') : AgreeUpTo q m.advance m'.advance :=
  { h with
    stations := by
      change m'.stations.map _ = (m.stations.map _).map _
      rw [h.stations, List.map_map, List.map_map]
      exact List.map_congr_left fun s _ => (squash_advance s).symm
    onBus := rfl }

/-- **What the first machine issues is left out.** -/
theorem issue (h : AgreeUpTo q m m') (hc : m.Coherent) (hq : q < m.nextSeq)
    (hm : m.issue = .ok m₁) :
    AgreeUpTo q m₁ m' := by
  rcases issue_eq_ok hm with ⟨i, s, n, -, -, hs, hfree, rfl⟩ | rfl
  · have hidle := hc.idle s (List.mem_of_getElem? hs) hfree
    exact
      { h with
        stations := by
          have hsquash : (m.filled i s).squash q = s.squash q := by
            rw [squash_of_lt (s := m.filled i s) (o := m.newcomer i) rfl hq,
              squash_of_le fun o ho => by rw [hfree] at ho; cases ho]
            rw [← show s.clear = s from by
              rw [Station.clear, ← hfree, ← hidle]]
            rfl
          refine h.stations.trans (List.ext_getElem? fun k => ?_)
          change _ = ((m.stations.set n (m.filled i s)).map _)[k]?
          rw [List.getElem?_map, List.getElem?_map, List.getElem?_set]
          split
          · rename_i hk
            subst hk
            rw [hs, if_pos (List.getElem?_eq_some_iff.1 hs).1, Option.map_some, Option.map_some,
              hsquash]
          · rfl
        issued := by
          refine h.issued.trans ?_
          change _ = (m.issued ++ [m.issueEntry i s]).filter _
          rw [List.filter_append, List.filter_cons_of_neg, List.filter_nil, List.append_nil]
          rw [decide_eq_true_eq]
          exact Int.not_le.2 hq
        values := by
          refine h.values.trans ?_
          change _ = (m.renamed i s.tag).values
          rw [renamed]
          split
          · rw [Registers.rename]
            split <;> rfl
          · rfl }
  · exact h

/-- A station of an older instruction is replaced in both. -/
theorem map_squash_set {l l' : List Station} (h : l' = l.map (Station.squash q))
    (hs : ∀ o, s.occupant = some o → o.seq ≤ q) :
    l'.set n s = (l.set n s).map (Station.squash q) := by
  rw [List.map_set, squash_of_le hs, h]

theorem setStation (h : AgreeUpTo q m m') (hs : ∀ o, s.occupant = some o → o.seq ≤ q) :
    AgreeUpTo q (m.setStation n s) (m'.setStation n s) :=
  { h with stations := map_squash_set h.stations hs }

theorem resulted (h : AgreeUpTo q m m') (hold : m.Holds n s o) (hle : o.seq ≤ q) :
    AgreeUpTo q (m.resulted n s o v) (m'.resulted n s o v) :=
  { h with
    stations := map_squash_set h.stations fun o' ho' => by
      obtain rfl : o = o' := Option.some.inj (hold.2.symm.trans ho')
      exact hle
    executed := by
      change m'.executed ++ _ = m.executed ++ _
      rw [h.executed, h.entry_eq] }

theorem finish (h : AgreeUpTo q m m') : AgreeUpTo q (m.finish n s o) (m'.finish n s o) :=
  { h with
    stations := map_squash_set h.stations fun o ho => by cases ho
    executed := by
      change m'.executed ++ _ = m.executed ++ _
      rw [h.executed, h.entry_eq]
    writtenBack := by
      change m'.writtenBack ++ _ = m.writtenBack ++ _
      rw [h.writtenBack, h.entry_eq] }

theorem stored {a : Word} (h : AgreeUpTo q m m') : AgreeUpTo q (m.stored a v) (m'.stored a v) :=
  { h with memory := by rw [Machine.stored, Machine.stored, h.memory] }

theorem refreshFlags (h : AgreeUpTo q m m') : AgreeUpTo q m.refreshFlags m'.refreshFlags :=
  { h with }

end AgreeUpTo

end Machine

end OutOfOrder
