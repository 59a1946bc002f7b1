import OutOfOrder.Proofs.Inputs
import OutOfOrder.Proofs.Renumbering.Names
/-!
# The order of a pool

Two pools have the `SameStations` if for each kind they have the same
stations in the same order. How the kinds are mixed is left open.

Then the stations are matched by their names, and a machine that has been
configured by the same calls but for this is renumbered: what a call loads
does not depend on the stations. So the order of stations of different kinds
never matters (`runs_renumbered`).
-/

namespace OutOfOrder

/-! ## Matching by names -/

section Matching

variable {N N' : List String} {n k : Nat} {a : String}

/-- Where the name at a position of one list is in the other. What is past
the end stays. -/
def shift (N N' : List String) (n : Nat) : Nat := (N[n]?.map fun a => N'.idxOf a).getD n

theorem shift_of_getElem? (hN' : N'.Nodup) (hn : N[n]? = some a) (hk : N'[k]? = some a) :
    shift N N' n = k := by
  obtain ⟨hlt, rfl⟩ := List.getElem?_eq_some_iff.1 hk
  rw [shift, hn, Option.map_some, Option.getD_some, hN'.idxOf_getElem k hlt]

theorem shift_shift (hN : N.Nodup) (hN' : N'.Nodup) (hmem : ∀ a, a ∈ N ↔ a ∈ N') :
    shift N' N (shift N N' n) = n := by
  rcases hn : N[n]? with - | a
  · have hlen := ((List.perm_ext_iff_of_nodup hN hN').2 hmem).length_eq
    have hn' : N'[n]? = none := by
      rw [List.getElem?_eq_none_iff] at hn ⊢
      omega
    simp only [shift, hn, hn', Option.map_none, Option.getD_none]
  · obtain ⟨k, hk⟩ := List.mem_iff_getElem?.1 ((hmem a).1 (List.mem_of_getElem? hn))
    rw [shift_of_getElem? hN' hn hk, shift_of_getElem? hN hk hn]

/-- **Two lists of the same names, matched.** -/
def matching (N N' : List String) (hN : N.Nodup) (hN' : N'.Nodup) (hmem : ∀ a, a ∈ N ↔ a ∈ N') :
    Equiv.Perm Nat where
  toFun := shift N N'
  invFun := shift N' N
  left_inv _ := shift_shift hN hN' hmem
  right_inv _ := shift_shift hN' hN fun a => (hmem a).symm

end Matching

/-- A slot without its tag. -/
def Slot.untagged (s : Slot) : Slot := { s with tag := 0 }

theorem Slot.eq_of_untagged_eq {s s' : Slot} (h : s'.untagged = s.untagged) :
    s' = { s with tag := s'.tag } := by
  obtain ⟨name, kind, tag, latency, addressLatency, hpos, hle⟩ := s
  obtain ⟨name', kind', tag', latency', addressLatency', hpos', hle'⟩ := s'
  simp only [untagged, Slot.mk.injEq] at h
  obtain ⟨rfl, rfl, -, rfl, rfl⟩ := h
  rfl

theorem Slot.name_eq_of_untagged_eq {s s' : Slot} (h : s'.untagged = s.untagged) :
    s'.name = s.name := by
  rw [eq_of_untagged_eq h]

/-- The call adds no station. -/
def Call.loads : Call → Bool
  | addStation .. => false
  | _ => true

namespace Machine

variable {ρ : Equiv.Perm Nat} {m m' : Machine} {n : Nat} {l : List Station}

/-- The stations of a kind, in the order of the pool. -/
def slotsOf (m : Machine) (kind : UnitKind) : List Slot :=
  (m.slots.filter fun s => s.kind = kind).map Slot.untagged

/-- **The same stations**: for each kind the same, in the same order. They
have the same names and take the same time. -/
def SameStations (m m' : Machine) : Prop := ∀ kind, m'.slotsOf kind = m.slotsOf kind

/-! ## The names of a pool -/

theorem slots_added (m : Machine) (slot : Slot) :
    slots { m with stations := m.stations ++ [Station.ofSlot slot] } = m.slots ++ [slot] := by
  rw [slots, List.map_append]
  rfl

/-- No two stations have one name where a station is added. -/
theorem Admits.nodup_names {slot : Slot} (h : m.Admits slot)
    (hnames : m.names.Nodup) :
    (names { m with stations := m.stations ++ [Station.ofSlot slot] }).Nodup := by
  rw [names, slots_added, List.map_append, List.nodup_append]
  refine ⟨hnames, List.nodup_singleton _, fun a ha b hb => ?_⟩
  obtain ⟨s, hs, rfl⟩ := List.mem_map.1 ha
  obtain ⟨p, hp, rfl⟩ := List.mem_map.1 hs
  rw [List.mem_singleton.1 hb]
  exact h.name p hp

/-- **No two stations have one name.** -/
theorem Configured.nodup_names (h : Configured m) : m.names.Nodup := by
  induction h with
  | made h =>
    exact ofTable_induction (P := fun m => m.names.Nodup) (fun _ _ h hslot => hslot.nodup_names h)
      List.nodup_nil h
  | call _ call ih =>
    rcases call.added_or_loads with ⟨slot, hslot, rfl⟩ | ⟨_, _, _, _, rfl⟩
    · exact hslot.nodup_names ih
    · exact ih

/-- A station of a machine that has not run is as it was made. -/
theorem Fresh.eq_ofSlot {s : Station} (h : Fresh m) (hs : s ∈ m.stations) :
    s = Station.ofSlot s.toSlot := by
  obtain ⟨slot, result, occupant⟩ := s
  obtain ⟨rfl, rfl⟩ := h.free _ hs
  rfl

/-! ## Pools with the same stations -/

namespace SameStations

theorem symm (h : SameStations m m') : SameStations m' m := fun kind => (h kind).symm

theorem exists_slot (h : SameStations m m') {s : Slot} (hs : s ∈ m.slots) :
    ∃ s' ∈ m'.slots, s'.untagged = s.untagged := by
  have hmem : s.untagged ∈ m'.slotsOf s.kind := by
    rw [h s.kind]
    exact List.mem_map.2 ⟨s, List.mem_filter.2 ⟨hs, decide_eq_true rfl⟩, rfl⟩
  obtain ⟨s', hs', heq⟩ := List.mem_map.1 hmem
  exact ⟨s', (List.mem_filter.1 hs').1, heq⟩

theorem mem_names (h : SameStations m m') (a : String) : a ∈ m.names ↔ a ∈ m'.names := by
  have key : ∀ {m m' : Machine}, SameStations m m' → a ∈ m.names → a ∈ m'.names := by
    intro m m' h ha
    obtain ⟨s, hs, rfl⟩ := List.mem_map.1 ha
    obtain ⟨s', hs', heq⟩ := h.exists_slot hs
    exact List.mem_map.2 ⟨s', hs', Slot.name_eq_of_untagged_eq heq⟩
  exact ⟨key h, key h.symm⟩

/-- A station is matched with the same station. -/
theorem exists_matched {s : Station} (h : SameStations m m') (hN' : m'.names.Nodup)
    (hs : m.stations[n]? = some s) :
    ∃ s', m'.stations[shift m.names m'.names n]? = some s' ∧
      s'.toSlot.untagged = s.toSlot.untagged := by
  obtain ⟨slot, hslot, heq⟩ := h.exists_slot (List.mem_map.2 ⟨s, List.mem_of_getElem? hs, rfl⟩)
  obtain ⟨s', hs', rfl⟩ := List.mem_map.1 hslot
  obtain ⟨k, hk⟩ := List.mem_iff_getElem?.1 hs'
  have hname : s'.name = s.name := Slot.name_eq_of_untagged_eq heq
  have hshift : shift m.names m'.names n = k := by
    refine shift_of_getElem? hN' (a := s.name) ?_ ?_
    · rw [getElem?_names, hs, Option.map_some]
    · rw [getElem?_names, hk, Option.map_some, hname]
  exact ⟨s', by rw [hshift, hk], heq⟩

/-- **The pools are the same in another order.** -/
theorem reordered (h : SameStations m m') (hm : Configured m) (hm' : Configured m') :
    Reordered (matching _ _ hm.nodup_names hm'.nodup_names h.mem_names) m.stations m'.stations := by
  have hN := hm.nodup_names
  have hN' := hm'.nodup_names
  intro n
  change m'.stations[shift m.names m'.names n]? = _
  rcases hs : m.stations[n]? with - | s
  · -- What stood there would be matched with a station past the end.
    rcases hs' : m'.stations[shift m.names m'.names n]? with - | s'
    · rfl
    obtain ⟨s, hs₀, -⟩ := h.symm.exists_matched hN hs'
    rw [shift_shift hN hN' h.mem_names, hs] at hs₀
    cases hs₀
  · obtain ⟨s', hs', heq⟩ := h.exists_matched hN' hs
    rw [hs', Option.map_some, Option.some.injEq]
    have htag := hm.fresh.tags n s hs
    have htag' := hm'.fresh.tags _ s' hs'
    rw [hm.fresh.eq_ofSlot (List.mem_of_getElem? hs),
      hm'.fresh.eq_ofSlot (List.mem_of_getElem? hs'), Slot.eq_of_untagged_eq heq, htag']
    simp only [Station.ofSlot, Station.renumber, htag]
    rfl

/-- **And the other order keeps that of each kind.** -/
theorem keepsOrder (h : SameStations m m') (hm : Configured m) (hm' : Configured m') :
    KeepsOrder (matching _ _ hm.nodup_names hm'.nodup_names h.mem_names) m.slots := by
  have hpool : m'.slots.Pairwise fun a b => m'.names.idxOf a.name < m'.names.idxOf b.name := by
    refine List.pairwise_iff_getElem.2 fun i j hi hj hij => ?_
    have hidx : ∀ (i : Nat) (hi : i < m'.slots.length), m'.names.idxOf m'.slots[i].name = i := by
      intro i hi
      have := hm'.nodup_names.idxOf_getElem i (by rwa [names, List.length_map])
      simpa only [names, List.getElem_map] using this
    rwa [hidx i hi, hidx j hj]
  intro n k s s' hn hk hkind hlt
  -- The stations of the kind stand in the same order in the first pool.
  have hof : (m.slotsOf s.kind).Pairwise fun a b =>
      m'.names.idxOf a.name < m'.names.idxOf b.name := by
    rw [← h s.kind]
    exact List.pairwise_map.2 (hpool.filter _)
  rw [slotsOf, List.pairwise_map, List.pairwise_filter] at hof
  obtain ⟨hn', rfl⟩ := List.getElem?_eq_some_iff.1 hn
  obtain ⟨hk', rfl⟩ := List.getElem?_eq_some_iff.1 hk
  have hbefore := List.pairwise_iff_getElem.1 hof n k hn' hk' hlt (decide_eq_true rfl)
    (decide_eq_true hkind.symm)
  change shift m.names m'.names n < shift m.names m'.names k
  simp only [shift, names, List.getElem?_map, hn, hk, Option.map_some, Option.getD_some]
  exact hbefore

end SameStations

/-! ## Calls that load -/

/-- The machine with other stations. -/
def withStations (l : List Station) (m : Machine) : Machine := { m with stations := l }

/-- What comes of an operation, with other stations. -/
def outcomeWith (l : List Station) : Outcome → Outcome
  | .ok m => .ok (m.withStations l)
  | .error t => .error ⟨t.fault, t.machine.withStations l⟩

theorem outcomeWith_bind {x : Outcome} {f : Machine → Outcome}
    (hf : ∀ m, f (m.withStations l) = outcomeWith l (f m)) :
    outcomeWith l (x >>= f) = outcomeWith l x >>= f := by
  rcases x with t | m
  · rfl
  · exact (hf m).symm

theorem outcomeWith_guard {α : Type} {x : Except Fault α} {f f' : α → Outcome}
    (hf : ∀ a, f' a = outcomeWith l (f a)) :
    (m.withStations l).guard x >>= f' = outcomeWith l (m.guard x >>= f) := by
  rcases x with fault | a
  · rfl
  · exact hf a

theorem jumpTo_withStations (a : Int) :
    (m.withStations l).jumpTo a = outcomeWith l (m.jumpTo a) := by
  rw [jumpTo, jumpTo]
  rcases address .programCounter a with fault | p <;> rfl

theorem addInstruction_withStations (i : Instruction) (a : Int) :
    (m.withStations l).guard ((m.withStations l).addInstruction i a) =
      outcomeWith l (m.guard (m.addInstruction i a)) := by
  have hcheck : (m.withStations l).checkTarget i a = m.checkTarget i a := rfl
  have hoffset : (m.withStations l).offsetsChecked = m.offsetsChecked := rfl
  simp only [addInstruction, hcheck, hoffset, bind, Except.bind, pure, Except.pure]
  rcases address .instruction a with fault | place
  · rfl
  dsimp only
  split
  · rfl
  · rcases m.checkTarget i a with fault | u <;> rfl

theorem placeAll_withStations (instrs : List Instruction) (a : Int) :
    (m.withStations l).placeAll a instrs = outcomeWith l (m.placeAll a instrs) := by
  induction instrs generalizing m a with
  | nil => rfl
  | cons i rest ih =>
    rw [placeAll_cons, placeAll_cons, addInstruction_withStations]
    exact (outcomeWith_bind fun _ => ih (a + 1)).symm

theorem addInstructions_withStations (instrs : List Instruction) (a : Int) :
    (m.withStations l).addInstructions instrs a = outcomeWith l (m.addInstructions instrs a) := by
  cases instrs with
  | nil => rfl
  | cons i rest =>
    exact outcomeWith_guard fun _ => outcomeWith_guard fun _ => placeAll_withStations (i :: rest) a

theorem setWords_withStations (pairs : List (Int × Int)) :
    (m.withStations l).setWords pairs = outcomeWith l (m.setWords pairs) := by
  rw [setWords, setWords, show (m.withStations l).memory = m.memory from rfl]
  split <;> rfl

theorem setRegisterPairs_withStations (pairs : List (Int × Int)) :
    (m.withStations l).setRegisterPairs pairs = outcomeWith l (m.setRegisterPairs pairs) := by
  rw [setRegisterPairs, setRegisterPairs, show (m.withStations l).registers = m.registers from rfl]
  split <;> rfl

theorem loadProgram_withStations (instrs : List Instruction) (start : Int)
    (memory registers : List (Int × Int)) :
    (m.withStations l).loadProgram instrs start memory registers =
      outcomeWith l (m.loadProgram instrs start memory registers) := by
  rw [loadProgram, loadProgram, addInstructions_withStations]
  refine (outcomeWith_bind fun m => ?_).symm
  rw [setWords_withStations]
  refine (outcomeWith_bind fun m => ?_).symm
  rw [setRegisterPairs_withStations]
  exact (outcomeWith_bind fun m => jumpTo_withStations start).symm

/-- What comes of a check, put into the machine. -/
theorem guard_map_withStations {α : Type} {x : Except Fault α} {f f' : α → Machine}
    (hf : ∀ a, f' a = (f a).withStations l) :
    (m.withStations l).guard (x.map f') = outcomeWith l (m.guard (x.map f)) := by
  rcases x with fault | a
  · rfl
  · exact congrArg Except.ok (hf a)

/-- **What a call loads does not depend on the stations.** -/
theorem afterCall_withStations {c : Call} (hc : c.loads) :
    (m.withStations l).afterCall c = (m.afterCall c).withStations l := by
  have hmake : (m.withStations l).make c = outcomeWith l (m.make c) := by
    cases c with
    | addStation => cases hc
    | addInstruction i a => exact addInstruction_withStations i a
    | addInstructions instrs a => exact addInstructions_withStations instrs a
    | addData values a => exact guard_map_withStations fun _ => rfl
    | setRegister i v => exact guard_map_withStations fun _ => rfl
    | setRegisters values => exact guard_map_withStations fun _ => rfl
    | loadProgram instrs start memory registers =>
      exact loadProgram_withStations instrs start memory registers
    | setStart a => exact jumpTo_withStations a
  rw [afterCall, afterCall, hmake]
  rcases m.make c with t | m' <;> rfl

/-- And a call that does not load changes nothing but the stations. -/
theorem afterCall_addStation {c : Call} (hc : c.loads = false) :
    (m.afterCall c).withStations l = m.withStations l := by
  cases c with
  | addStation name kind latency address memory =>
    rw [afterCall, make]
    rcases hadd : m.addStation name kind latency address memory with fault | m'
    · rfl
    · obtain ⟨slot, -, rfl⟩ := addStationOfKind_eq_ok hadd
      rfl
  | _ => cases hc

/-- The machine after calls. -/
def afterCalls (m : Machine) (calls : List Call) : Machine := calls.foldl afterCall m

/-- **Calls leave what those of them that load leave**, but for the
stations. -/
theorem afterCalls_withStations (calls : List Call) :
    (m.afterCalls calls).withStations l =
      (m.withStations l).afterCalls (calls.filter Call.loads) := by
  induction calls generalizing m with
  | nil => rfl
  | cons c calls ih =>
    rw [afterCalls, List.foldl_cons]
    refine ih.trans ?_
    rcases hc : c.loads with - | -
    · rw [List.filter_cons_of_neg (by simp [hc]), afterCall_addStation hc]
    · rw [List.filter_cons_of_pos hc, ← afterCall_withStations hc]
      rfl

theorem Configured.afterCalls (h : Configured m) (calls : List Call) :
    Configured (m.afterCalls calls) := by
  induction calls generalizing m with
  | nil => exact h
  | cons c calls ih =>
    refine ih (m := m.afterCall c) ?_
    rcases configures_afterCall m c with hc | heq
    · exact h.call hc
    · rwa [heq]

/-- A pool table makes stations and nothing else. -/
theorem withStations_ofTable {table : PoolTable} {offsetsChecked relativeCalls : Bool}
    (hm : ofTable table offsetsChecked relativeCalls = .ok m) :
    m.withStations l = withStations l
      { offsetsChecked := offsetsChecked, relativeCalls := relativeCalls } :=
  ofTable_induction (P := fun m => m.withStations l = withStations l
    { offsetsChecked := offsetsChecked, relativeCalls := relativeCalls }) (fun _ _ h _ => h) rfl hm

/-- In a machine that has not run nothing has been executed or sent. -/
theorem Configured.idle (h : Configured m) :
    m.executed = [] ∧ m.writtenBack = [] ∧ m.onBus = none := by
  induction h with
  | made h =>
    exact ofTable_induction (P := fun m => m.executed = [] ∧ m.writtenBack = [] ∧ m.onBus = none)
      (fun _ _ h _ => h) ⟨rfl, rfl, rfl⟩ h
  | call _ call ih =>
    rcases call.added_or_loads with ⟨slot, -, rfl⟩ | ⟨_, _, _, _, rfl⟩ <;> exact ih

/-- **A machine that has not run has no tags** but those of its stations. -/
theorem Configured.renumber_eq (h : Configured m) : m.renumber ρ l = m.withStations l := by
  obtain ⟨hexecuted, hwritten, hbus⟩ := h.idle
  have hnone : ∀ {es : List Entry}, es = [] → es.map (Entry.renumber ρ) = es := by
    rintro _ rfl
    rfl
  have hregisters : m.registers.renumber ρ = m.registers := by
    rw [Registers.renumber, h.fresh.status, renumberTable, Vector.map_replicate, Option.map_none,
      ← h.fresh.status]
  have hsent : (m.onBus.map fun b => (renumberTag ρ b.1, b.2)) = m.onBus := by
    rw [hbus]
    rfl
  rw [renumber, hregisters, hnone h.fresh.issued, hnone hexecuted, hnone hwritten, hsent]
  rfl

/-- **Machines configured by the same calls are renumbered**, if their pools
are the same in another order. -/
theorem renumbered_afterCalls {table table' : PoolTable} {offsetsChecked relativeCalls : Bool}
    {calls calls' : List Call} (hm : ofTable table offsetsChecked relativeCalls = .ok m)
    (hm' : ofTable table' offsetsChecked relativeCalls = .ok m')
    (hcalls : calls'.filter Call.loads = calls.filter Call.loads)
    (hpool : Reordered ρ (m.afterCalls calls).stations (m'.afterCalls calls').stations) :
    Renumbered ρ (m.afterCalls calls) (m'.afterCalls calls') := by
  refine ⟨_, hpool, ?_⟩
  rw [((Configured.made hm).afterCalls calls).renumber_eq]
  calc m'.afterCalls calls'
      = (m'.afterCalls calls').withStations (m'.afterCalls calls').stations := rfl
    _ = (m.afterCalls calls).withStations (m'.afterCalls calls').stations := by
      rw [afterCalls_withStations, afterCalls_withStations, withStations_ofTable hm,
        withStations_ofTable hm', hcalls]

/-! ## Runs -/

/-- **The order of stations of different kinds never matters.** Two machines
are made with the same settings, and the same calls are made on both in the
same order, but for those that add stations; and for each kind they come to
have the same stations in the same order. Then after any number of cycles
both have stopped on the same fault, or the machines are the same but for
the numbering of their stations, and stations with one number have one name.
So whatever is read by name is the same. -/
theorem runs_renumbered {table table' : PoolTable} {offsetsChecked relativeCalls : Bool}
    {calls calls' : List Call} (hm : ofTable table offsetsChecked relativeCalls = .ok m)
    (hm' : ofTable table' offsetsChecked relativeCalls = .ok m')
    (hcalls : calls'.filter Call.loads = calls.filter Call.loads)
    (hsame : SameStations (m.afterCalls calls) (m'.afterCalls calls')) :
    ∃ ρ : Equiv.Perm Nat,
      (∀ n, (m'.afterCalls calls').names[ρ n]? = (m.afterCalls calls).names[n]?) ∧
        ∀ n : Nat,
          (∃ t t', (m.afterCalls calls).steps n = .error t ∧
              (m'.afterCalls calls').steps n = .error t' ∧ t'.fault = t.fault) ∨
            ∃ z z', (m.afterCalls calls).steps n = .ok z ∧
              (m'.afterCalls calls').steps n = .ok z' ∧ Renumbered ρ z z' ∧ ReadAlike z z' := by
  have hconf := (Configured.made hm).afterCalls calls
  have hconf' := (Configured.made hm').afterCalls calls'
  have hpool := hsame.reordered hconf hconf'
  have hr := renumbered_afterCalls hm hm' hcalls hpool
  refine ⟨matching _ _ hconf.nodup_names hconf'.nodup_names hsame.mem_names, fun n => ?_,
    fun n => ?_⟩
  · rw [getElem?_names, getElem?_names, hpool n, Option.map_map]
    rfl
  · have hn := hr.steps (hsame.keepsOrder hconf hconf') hconf.reachable hconf'.reachable n
    rcases hz : (m.afterCalls calls).steps n with t | z <;>
      rcases hz' : (m'.afterCalls calls').steps n with t' | z' <;> rw [hz, hz'] at hn <;> cases hn
    case error.error hfault => exact .inl ⟨t, t', rfl, rfl, hfault⟩
    case ok.ok h =>
      refine .inr ⟨z, z', rfl, rfl, h, h.readAlike (hconf.reachable.steps hz).positions ?_⟩
      rw [names, slots_of_steps hz]
      exact hconf.nodup_names

/-- The program of the sample is loaded. -/
def sampleCalls : List Call :=
  [.loadProgram [.alu .add 1 2 3, .beq 0 0 1, .alu .add 4 1 1, .store 1 0 10] 0 [] [(2, 5), (3, 6)]]

/-- The machine with the settings of the sample and no station. -/
def barePool : Machine where
  offsetsChecked := true
  relativeCalls := false

/-- The same program, with the stations of the sample added before it and
after it in another order. -/
def reorderedCalls : List Call :=
  .addStation "BEQ1" (.name "beq") 2 none none ::
    .addStation "Store1" (.name "STORE") 2 (some 1) none :: sampleCalls ++
    [.addStation "Add1" (.name "ADD_SUB") 1 none none]

/-- The sample runs alike with both. -/
theorem runs_renumbered_sample :
    ∃ (ρ : Equiv.Perm Nat) (z z' : Machine), (samplePool.afterCalls sampleCalls).steps 7 = .ok z ∧
      (barePool.afterCalls reorderedCalls).steps 7 = .ok z' ∧ Renumbered ρ z z' ∧
      ReadAlike z z' := by
  have hsame : SameStations (samplePool.afterCalls sampleCalls)
      (barePool.afterCalls reorderedCalls) := by
    intro kind
    cases kind <;> decide +kernel
  have hm : ofTable [("ADD", { stationCount := some 1, latency := some 1 }),
      ("BEQ", { stationCount := some 1, latency := some 2 }),
      ("STORE", { stationCount := some 1, latency := some 2, addressLatency := some 1 })]
      true false = .ok samplePool := rfl
  have hm' : ofTable [] true false = .ok barePool := rfl
  obtain ⟨ρ, -, h⟩ := runs_renumbered hm hm' rfl hsame
  rcases h 7 with ⟨t, _, hz, -, -⟩ | ⟨z, z', hz, hz', hr, hread⟩
  · obtain ⟨z, hz', -⟩ := steps_sample
    change sample.steps 7 = .error t at hz
    rw [hz'] at hz
    cases hz
  · exact ⟨ρ, z, z', hz, hz', hr, hread⟩

end Machine

end OutOfOrder
