import OutOfOrder.Machine.Load
import OutOfOrder.Machine.Pool
import OutOfOrder.Proofs.Coherent.Cycle
/-!
# Reachable machines

A machine is made from a pool table and configured by calls: stations are
added, instructions and data are placed, registers and the program counter
are set. A machine is *configured* when only such calls have been made, and
*reachable* when there were cycles between them as well, none of which
stopped on a fault.

A call may be refused halfway, and then what it did stays done; so a call
counts whether it was finished or not.

Every configured machine is `Fresh`, and every reachable machine is
`Coherent`.
-/

namespace OutOfOrder

namespace Machine

/-- The machine that an operation leaves, whether or not it was finished. -/
def left : Outcome → Machine
  | .ok m => m
  | .error t => t.machine

/-- **One configuration call.** -/
inductive Configures (m : Machine) : Machine → Prop
  | addStation {name : String} {kind : Designation} {latency : Int} {address memory : Option Int}
      {m' : Machine} (h : m.addStation name kind latency address memory = .ok m') : Configures m m'
  | addInstruction {i : Instruction} {a : Int} {m' : Machine} (h : m.addInstruction i a = .ok m') :
      Configures m m'
  | addInstructions (instrs : List Instruction) (a : Int) :
      Configures m (left (m.addInstructions instrs a))
  | addData {values : List Int} {a : Int} {m' : Machine} (h : m.addData values a = .ok m') :
      Configures m m'
  | setRegister {i v : Int} {m' : Machine} (h : m.setRegister i v = .ok m') : Configures m m'
  | setRegisters {values : List Int} {m' : Machine} (h : m.setRegisters values = .ok m') :
      Configures m m'
  | loadProgram (instrs : List Instruction) (start : Int) (memory registers : List (Int × Int)) :
      Configures m (left (m.loadProgram instrs start memory registers))
  | setStart {a : Int} {m' : Machine} (h : m.jumpTo a = .ok m') : Configures m m'

/-- **A configured machine.** It has been made from a pool table, and there
have been configuration calls and nothing else. -/
inductive Configured : Machine → Prop
  | made {table : PoolTable} {offsetsChecked relativeCalls : Bool} {m : Machine}
      (h : ofTable table offsetsChecked relativeCalls = .ok m) : Configured m
  | call {m m' : Machine} (h : Configured m) (call : Configures m m') : Configured m'

/-- **A reachable machine.** There have been configuration calls and cycles
without a fault, in any order. -/
inductive Reachable : Machine → Prop
  | made {table : PoolTable} {offsetsChecked relativeCalls : Bool} {m : Machine}
      (h : ofTable table offsetsChecked relativeCalls = .ok m) : Reachable m
  | call {m m' : Machine} (h : Reachable m) (call : Configures m m') : Reachable m'
  | step {m m' : Machine} (h : Reachable m) (step : m.step = .ok m') : Reachable m'

/-- **A machine that has not run.** Its stations are free, nobody waits, and
the histories are empty. -/
structure Fresh (m : Machine) : Prop where
  tags : ∀ (n : Nat) (s : Station), m.stations[n]? = some s → s.tag = n
  free : ∀ s ∈ m.stations, s.occupant = none ∧ s.result = none
  issued : m.issued = []
  status : m.registers.status = Vector.replicate 8 none
  branchPending : m.branchPending = false
  jumpPending : m.jumpPending = false
  cycle : m.cycle = 0

variable {m m' m'' : Machine}

/-! ## What a call writes -/

/-- **A property that loading keeps**: each write that a call makes keeps
it. -/
structure KeptByLoading (P : Machine → Prop) : Prop where
  memory : ∀ (m : Machine) (memory : Memory) (loaded : List (Nat × Instruction)), P m →
    P { m with memory := memory, loaded := loaded }
  register : ∀ (m : Machine) (r : Reg) (v : Int), P m →
    P { m with registers := m.registers.set r v }
  registers : ∀ (m : Machine) (values : List Int) (f : Registers), P m →
    m.registers.load values = .ok f → P { m with registers := f }
  pc : ∀ (m : Machine) (a : Address), P m → P { m with pc := a.val }

section Left

variable {P : Machine → Prop}

/-- What the first of two operations leaves, and the second keeps, both
leave. -/
theorem left_bind {x : Outcome} {f : Machine → Outcome} (hx : P (left x))
    (hf : ∀ m, P m → P (left (f m))) : P (left (x >>= f)) := by
  rcases x with t | m
  · exact hx
  · exact hf m hx

/-- A check that fails leaves the machine as it was. -/
theorem left_guard {α : Type} {x : Except Fault α} {f : α → Outcome} (h : P m)
    (hf : ∀ a, P (left (f a))) : P (left (m.guard x >>= f)) := by
  rcases x with fault | a
  · exact h
  · exact hf a

end Left

namespace KeptByLoading

variable {P : Machine → Prop} (hP : KeptByLoading P)
include hP

theorem jumpTo (h : P m) (a : Int) : P (left (m.jumpTo a)) := by
  rw [Machine.jumpTo]
  rcases address .programCounter a with fault | a
  · exact h
  · exact hP.pc m a h

theorem addInstruction {i : Instruction} {a : Int} (h : P m)
    (hm : m.addInstruction i a = .ok m') : P m' := by
  simp only [Machine.addInstruction, bind, Except.bind, pure, Except.pure] at hm
  split at hm
  · cases hm
  · split at hm
    · cases hm
    · split at hm
      · cases hm
      · cases hm
        exact hP.memory m _ _ h

theorem placeAll (h : P m) (instrs : List Instruction) (a : Int) :
    P (left (m.placeAll a instrs)) := by
  induction instrs generalizing m a with
  | nil => exact h
  | cons i rest ih =>
    rw [Machine.placeAll]
    split
    · rename_i hm
      exact ih (hP.addInstruction h hm) _
    · exact h

theorem addInstructions (h : P m) (instrs : List Instruction) (a : Int) :
    P (left (m.addInstructions instrs a)) := by
  cases instrs with
  | nil => exact h
  | cons i rest => exact left_guard h fun _ => left_guard h fun _ => hP.placeAll h (i :: rest) a

theorem setWords (h : P m) (pairs : List (Int × Int)) : P (left (m.setWords pairs)) := by
  rw [Machine.setWords]
  split <;> exact hP.memory m _ m.loaded h

theorem writeRegister {f : Registers} {i v : Int} (h : P m) (hf : m.registers.write i v = .ok f) :
    P { m with registers := f } := by
  rw [Registers.write] at hf
  rcases hi : Registers.index i with fault | r <;> rw [hi] at hf <;> cases hf
  exact hP.register m r v h

/-- The registers are written one after the other, up to the one that is
refused. -/
theorem writePairs {f : Registers} (h : P { m with registers := f }) (pairs : List (Int × Int)) :
    (∀ f', f.writePairs pairs = .ok f' → P { m with registers := f' }) ∧
      ∀ fault f', f.writePairs pairs = .error (fault, f') → P { m with registers := f' } := by
  induction pairs generalizing f with
  | nil =>
    refine ⟨fun f' hf => ?_, nofun⟩
    cases hf
    exact h
  | cons p rest ih =>
    rw [Registers.writePairs]
    rcases hw : f.write p.1 p.2 with fault | f'
    · refine ⟨nofun, fun _ f' hf => ?_⟩
      cases hf
      exact h
    · exact ih (hP.writeRegister (m := { m with registers := f }) h hw)

theorem setRegisterPairs (h : P m) (pairs : List (Int × Int)) :
    P (left (m.setRegisterPairs pairs)) := by
  obtain ⟨hok, herror⟩ := hP.writePairs h pairs
  rw [Machine.setRegisterPairs]
  split
  · rename_i f hf
    exact hok f hf
  · rename_i fault f hf
    exact herror fault f hf

theorem loadProgram (h : P m) (instrs : List Instruction) (start : Int)
    (memory registers : List (Int × Int)) :
    P (left (m.loadProgram instrs start memory registers)) :=
  left_bind (hP.addInstructions h instrs start) fun _ h =>
    left_bind (hP.setWords h memory) fun _ h =>
      left_bind (hP.setRegisterPairs h registers) fun _ h => hP.jumpTo h start

theorem addData {values : List Int} {a : Int} (h : P m) (hm : m.addData values a = .ok m') :
    P m' := by
  rw [Machine.addData] at hm
  rcases hw : m.memory.writeBlock _ _ with fault | mem <;> rw [hw] at hm <;> cases hm
  exact hP.memory m mem m.loaded h

theorem setRegister {i v : Int} (h : P m) (hm : m.setRegister i v = .ok m') : P m' := by
  rw [Machine.setRegister] at hm
  rcases hw : m.registers.write _ _ with fault | f <;> rw [hw] at hm <;> cases hm
  exact hP.writeRegister h hw

theorem setRegisters {values : List Int} (h : P m) (hm : m.setRegisters values = .ok m') :
    P m' := by
  rw [Machine.setRegisters] at hm
  rcases hw : m.registers.load _ with fault | f <;> rw [hw] at hm <;> cases hm
  exact hP.registers m values f h hw

end KeptByLoading

/-! ## What a call changes -/

/-- A call that loads changes no more than memory, register values and the
program counter. -/
def Loads (m m' : Machine) : Prop :=
  ∃ memory values loaded pc, m' = { m with
    memory := memory
    registers := { m.registers with values := values }
    loaded := loaded
    pc := pc }

theorem Loads.refl (m : Machine) : Loads m m := ⟨_, _, _, _, rfl⟩

theorem status_set (f : Registers) (r : Reg) (v : Int) : (f.set r v).status = f.status := by
  rw [Registers.set]
  split <;> rfl

/-- Registers with other values and the same status. -/
theorem Loads.registers {f : Registers} (h : Loads m m') (hf : f.status = m'.registers.status) :
    Loads m { m' with registers := f } := by
  obtain ⟨memory, values, loaded, pc, rfl⟩ := h
  have hf : f = ⟨f.values, m.registers.status⟩ := by rw [← show f.status = _ from hf]
  exact ⟨memory, f.values, loaded, pc, by rw [hf]⟩

/-- **No write changes more.** -/
theorem keptByLoading_loads (m : Machine) : KeptByLoading (Loads m) where
  memory _ _ _ h := by
    obtain ⟨_, _, _, _, rfl⟩ := h
    exact ⟨_, _, _, _, rfl⟩
  register _ r v h := h.registers (status_set _ r v)
  registers _ values f h hf := by
    rw [Registers.load] at hf
    split at hf <;> cases hf
    exact h.registers rfl
  pc _ _ h := by
    obtain ⟨_, _, _, _, rfl⟩ := h
    exact ⟨_, _, _, _, rfl⟩

/-- A slot has the name and the tag it was made with. -/
theorem make_eq_ok {name : String} {kind : UnitKind} {latency : Int} {address memory : Option Int}
    {tag : Tag} {slot : Slot} (h : Slot.make name kind latency address memory tag = .ok slot) :
    slot.name = name ∧ slot.tag = tag := by
  rw [Slot.make] at h
  repeat' split at h
  all_goals cases h
  all_goals exact ⟨rfl, rfl⟩

/-- **A slot that a machine takes.** The machine has not run, no station has
its name, and its tag is the next position of the pool. -/
structure Admits (m : Machine) (slot : Slot) : Prop where
  cycle : m.cycle = 0
  name : ∀ s ∈ m.stations, s.name ≠ slot.name
  tag : slot.tag = m.stations.length

theorem addStationOfKind_eq_ok {name : String} {kind : Except Fault UnitKind} {latency : Int}
    {address memory : Option Int}
    (h : m.addStationOfKind name kind latency address memory = .ok m') :
    ∃ slot, m.Admits slot ∧ m' = { m with stations := m.stations ++ [Station.ofSlot slot] } := by
  rw [addStationOfKind] at h
  split at h
  · cases h
  rename_i hcycle
  split at h
  · cases h
  rename_i hname
  rcases kind with fault | kind
  · cases h
  simp only [bind, Except.bind] at h
  rcases hslot : Slot.make name kind latency address memory m.stations.length with fault | slot <;>
    rw [hslot] at h <;> cases h
  obtain ⟨rfl, htag⟩ := make_eq_ok hslot
  exact ⟨slot, ⟨by omega, by simpa using hname, htag⟩, rfl⟩

/-- **What a call can do.** It adds a station to a machine that has not run,
or it loads. -/
theorem Configures.added_or_kept {P : Machine → Prop} (hP : KeptByLoading P) (h : P m)
    (hm : Configures m m') :
    (∃ slot, m.Admits slot ∧ m' = { m with stations := m.stations ++ [Station.ofSlot slot] }) ∨
      P m' := by
  cases hm with
  | addStation hm => exact .inl (addStationOfKind_eq_ok hm)
  | addInstruction hm => exact .inr (hP.addInstruction h hm)
  | addInstructions instrs a => exact .inr (hP.addInstructions h instrs a)
  | addData hm => exact .inr (hP.addData h hm)
  | setRegister hm => exact .inr (hP.setRegister h hm)
  | setRegisters hm => exact .inr (hP.setRegisters h hm)
  | loadProgram instrs start memory registers =>
    exact .inr (hP.loadProgram h instrs start memory registers)
  | @setStart a _ hm =>
    have := hP.jumpTo h a
    rw [hm] at this
    exact .inr this

theorem Configures.added_or_loads (h : Configures m m') :
    (∃ slot, m.Admits slot ∧ m' = { m with stations := m.stations ++ [Station.ofSlot slot] }) ∨
      Loads m m' :=
  h.added_or_kept (keptByLoading_loads m) (.refl m)

/-! ## A station is added -/

section Added

variable {slot : Slot} {n : Nat} {s : Station} {o : Occupant}

/-- A station is added at the position that is its tag. -/
theorem tag_added (htag : slot.tag = m.stations.length)
    (tags : ∀ (n : Nat) (s : Station), m.stations[n]? = some s → s.tag = n)
    (hs : (m.stations ++ [Station.ofSlot slot])[n]? = some s) : s.tag = n := by
  rw [List.getElem?_append] at hs
  split at hs
  · exact tags n s hs
  · rename_i hn
    obtain ⟨hlt, rfl⟩ := List.getElem?_eq_some_iff.1 hs
    have hlt : n - m.stations.length < 1 := hlt
    obtain rfl : n = m.stations.length := by omega
    simp only [List.getElem_singleton]
    exact htag

/-- It holds nothing. -/
theorem holds_added :
    Holds { m with stations := m.stations ++ [Station.ofSlot slot] } n s o ↔ m.Holds n s o := by
  simp only [Holds, List.getElem?_append]
  split
  · rfl
  · rename_i hn
    refine iff_of_false ?_ fun h => hn (List.getElem?_eq_some_iff.1 h.1).1
    rintro ⟨hs, ho⟩
    rw [List.mem_singleton.1 (List.mem_of_getElem? hs)] at ho
    cases ho

end Added

/-! ## A pool is made -/

section Made

variable {P : Machine → Prop}
variable (added : ∀ (m : Machine) (slot : Slot), P m → m.Admits slot →
  P { m with stations := m.stations ++ [Station.ofSlot slot] })
include added

theorem addCounted_induction {kind : UnitKind} {row : PoolRow} {more made : Nat} (h : P m)
    (hm : addCounted kind row more made m = .ok m') : P m' := by
  induction more generalizing m made with
  | zero =>
    cases hm
    exact h
  | succ more ih =>
    rw [Machine.addCounted, addNumbered] at hm
    rcases hlat : row.latency with - | latency <;> rw [hlat] at hm
    · cases hm
    dsimp only at hm
    split at hm
    · rename_i hadd
      obtain ⟨slot, hslot, rfl⟩ := addStationOfKind_eq_ok hadd
      exact ih (added m slot h hslot) hm
    · cases hm

theorem addRow_induction {row : String × PoolRow} (h : P m) (hm : m.addRow row = .ok m') :
    P m' := by
  simp only [Machine.addRow, bind, Except.bind] at hm
  split at hm
  · cases hm
  · split at hm
    · cases hm
    · exact addCounted_induction added h hm

/-- **What adding a station keeps, a machine made from a pool table has**, if
the machine without stations has it. -/
theorem ofTable_induction {table : PoolTable} {offsetsChecked relativeCalls : Bool}
    (bare : P { offsetsChecked := offsetsChecked, relativeCalls := relativeCalls })
    (hm : ofTable table offsetsChecked relativeCalls = .ok m) : P m := by
  have key : ∀ (table : PoolTable) (m₀ : Machine), P m₀ →
      table.foldlM Machine.addRow m₀ = .ok m → P m := by
    intro table
    induction table with
    | nil =>
      intro m₀ h hm
      cases hm
      exact h
    | cons row rest ih =>
      intro m₀ h hm
      rw [List.foldlM_cons] at hm
      rcases hrow : m₀.addRow row with fault | m₁ <;> rw [hrow] at hm
      · cases hm
      · exact ih m₁ (addRow_induction added h hrow) hm
  exact key table _ bare hm

end Made

/-! ## Configured machines are fresh -/

/-- A machine without stations. -/
theorem fresh_bare (offsetsChecked relativeCalls : Bool) :
    Fresh { offsetsChecked := offsetsChecked, relativeCalls := relativeCalls } where
  tags n s hs := by cases hs
  free s hs := by cases hs
  issued := rfl
  status := rfl
  branchPending := rfl
  jumpPending := rfl
  cycle := rfl

namespace Fresh

theorem add (h : Fresh m) {slot : Slot} (htag : slot.tag = m.stations.length) :
    Fresh { m with stations := m.stations ++ [Station.ofSlot slot] } :=
  { h with
    tags := fun _ _ hs => tag_added htag h.tags hs
    free := fun s hs => by
      rcases List.mem_append.1 hs with hs | hs
      · exact h.free s hs
      · rw [List.mem_singleton.1 hs]
        exact ⟨rfl, rfl⟩ }

theorem load (h : Fresh m) (hl : Loads m m') : Fresh m' := by
  obtain ⟨_, _, _, _, rfl⟩ := hl
  exact { h with }

theorem configures (h : Fresh m) (hc : Configures m m') : Fresh m' := by
  rcases hc.added_or_loads with ⟨slot, hslot, rfl⟩ | hl
  · exact h.add hslot.tag
  · exact h.load hl

/-- A machine that is made from a pool table is fresh. -/
theorem ofTable {table : PoolTable} {offsetsChecked relativeCalls : Bool}
    (hm : ofTable table offsetsChecked relativeCalls = .ok m) : Fresh m :=
  ofTable_induction (fun _ _ h hslot => h.add hslot.tag) (fresh_bare _ _) hm

/-- Nothing is in flight. -/
theorem not_holds (h : Fresh m) {n : Nat} {s : Station} {o : Occupant} : ¬ m.Holds n s o := by
  intro hold
  have hnone := (h.free s hold.mem).1
  rw [hold.2] at hnone
  cases hnone

/-- **A fresh machine is coherent.** -/
theorem coherent (h : Fresh m) : m.Coherent where
  tags := h.tags
  idle s hs _ := (h.free s hs).2
  inOrder := by rw [h.issued]; exact List.Pairwise.nil
  fresh e he := by rw [h.issued] at he; cases he
  owner n s o hold := absurd hold h.not_holds
  fits n s o hold := absurd hold h.not_holds
  sources n s o hold := absurd hold h.not_holds
  saved n s o hold := absurd hold h.not_holds
  status r := by
    rw [renamers, h.issued, h.status, producer?_eq_none_iff.2 (.inr fun w hw => by cases hw)]
    exact Vector.getElem_replicate ..
  aloft e he := by rw [h.issued] at he; cases he
  waiting n s o hold := absurd hold h.not_holds
  jumpLast n s o hold := absurd hold h.not_holds
  branchFlag := by
    rw [h.branchPending, Bool.false_eq_true, false_iff]
    rintro ⟨n, s, o, hold, -⟩
    exact h.not_holds hold
  jumpFlag := by
    rw [h.jumpPending, Bool.false_eq_true, false_iff]
    rintro ⟨n, s, o, hold, -⟩
    exact h.not_holds hold

end Fresh

/-- **A configured machine has not run.** -/
theorem Configured.fresh (h : Configured m) : Fresh m := by
  induction h with
  | made h => exact Fresh.ofTable h
  | call _ call ih => exact ih.configures call

/-! ## Reachable machines are coherent -/

/-- A call keeps a machine coherent, in the middle of a run as well. -/
theorem Coherent.configures (h : m.Coherent) (hc : Configures m m') : m'.Coherent := by
  rcases hc.added_or_loads with ⟨slot, hslot, rfl⟩ | ⟨_, _, _, _, rfl⟩
  · refine h.congr (fun _ _ _ => holds_added) (fun _ _ hs => tag_added hslot.tag h.tags hs) ?_ rfl
      rfl rfl rfl rfl rfl
    intro s hs hnone
    rcases List.mem_append.1 hs with hs | hs
    · exact h.idle s hs hnone
    · rw [List.mem_singleton.1 hs]
      rfl
  · exact h.congr (fun _ _ _ => Iff.rfl) h.tags h.idle rfl rfl rfl rfl rfl rfl

/-- **A reachable machine is coherent.** -/
theorem Reachable.coherent (h : Reachable m) : m.Coherent := by
  induction h with
  | made h => exact (Fresh.ofTable h).coherent
  | call _ call ih => exact ih.configures call
  | step _ hm ih => exact ih.step hm

theorem Configured.reachable (h : Configured m) : Reachable m := by
  induction h with
  | made h => exact .made h
  | call _ call ih => exact .call ih call

end Machine

end OutOfOrder
