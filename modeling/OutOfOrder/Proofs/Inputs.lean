import OutOfOrder.Proofs.Runs
/-!
# Inputs

To ask what would have become of a machine, had it done something else, the
calls that were made on it have to be made on another machine. Here a call
is data, and `undergo` is the machine after a list of *inputs*, which are
calls and cycles.

What a call adds or loads depends on little of the machine, so it does the
same to machines that have this in common (`Alike.afterCall`). And every
machine has come to its history by inputs: whatever it has issued was the
last instruction issued at one time (`Reachable.exists_undergo`).
-/

namespace OutOfOrder

/-- **A configuration call**, with what it is given. -/
inductive Call where
  | addStation (name : String) (kind : Designation) (latency : Int) (address memory : Option Int)
  | addInstruction (i : Instruction) (a : Int)
  | addInstructions (instrs : List Instruction) (a : Int)
  | addData (values : List Int) (a : Int)
  | setRegister (i v : Int)
  | setRegisters (values : List Int)
  | loadProgram (instrs : List Instruction) (start : Int) (memory registers : List (Int × Int))
  | setStart (a : Int)

/-- **What is done with a machine**: a call is made, or it goes through a
cycle. -/
inductive Input where
  | call (c : Call)
  | cycle

namespace Machine

variable {m m' : Machine} {n : Nat} {q : Int} {e : Entry} {inputs : List Input}

/-- What comes of a call. -/
def make (m : Machine) : Call → Outcome
  | .addStation name kind latency address memory =>
    m.guard (m.addStation name kind latency address memory)
  | .addInstruction i a => m.guard (m.addInstruction i a)
  | .addInstructions instrs a => m.addInstructions instrs a
  | .addData values a => m.guard (m.addData values a)
  | .setRegister i v => m.guard (m.setRegister i v)
  | .setRegisters values => m.guard (m.setRegisters values)
  | .loadProgram instrs start memory registers => m.loadProgram instrs start memory registers
  | .setStart a => m.jumpTo a

/-- The machine that a call leaves, whether or not it was finished. -/
def afterCall (m : Machine) (c : Call) : Machine := left (m.make c)

/-- What comes of an input, with cycles of a kind. -/
def outcome (cycle : Machine → Outcome) (m : Machine) : Input → Outcome
  | .call c => .ok (m.afterCall c)
  | .cycle => cycle m

/-- **The machine after inputs**, if none of the cycles stops on a fault. -/
def undergo (cycle : Machine → Outcome) (m : Machine) (inputs : List Input) : Outcome :=
  inputs.foldlM (outcome cycle) m

/-! ## Calls -/

/-- Every configuration call is one of these. -/
theorem Configures.exists_call (h : Configures m m') : ∃ c, m.afterCall c = m' := by
  cases h with
  | @addStation name kind latency address memory _ h =>
    exact ⟨.addStation name kind latency address memory, by rw [afterCall, make, h]; rfl⟩
  | @addInstruction i a _ h => exact ⟨.addInstruction i a, by rw [afterCall, make, h]; rfl⟩
  | addInstructions instrs a => exact ⟨.addInstructions instrs a, rfl⟩
  | @addData values a _ h => exact ⟨.addData values a, by rw [afterCall, make, h]; rfl⟩
  | @setRegister i v _ h => exact ⟨.setRegister i v, by rw [afterCall, make, h]; rfl⟩
  | @setRegisters values _ h => exact ⟨.setRegisters values, by rw [afterCall, make, h]; rfl⟩
  | loadProgram instrs start memory registers =>
    exact ⟨.loadProgram instrs start memory registers, rfl⟩
  | @setStart a _ h => exact ⟨.setStart a, by rw [afterCall, make, h]; rfl⟩

theorem configures_guard {x : Except Fault Machine} (h : ∀ m', x = .ok m' → Configures m m') :
    Configures m (left (m.guard x)) ∨ left (m.guard x) = m := by
  rcases x with fault | m'
  · exact .inr rfl
  · exact .inl (h m' rfl)

/-- What a call leaves is what a configuration call leaves, or it was refused
at once and changes nothing. -/
theorem configures_afterCall (m : Machine) (c : Call) :
    Configures m (m.afterCall c) ∨ m.afterCall c = m := by
  cases c with
  | addStation => exact configures_guard fun _ h => .addStation h
  | addInstruction => exact configures_guard fun _ h => .addInstruction h
  | addInstructions instrs a => exact .inl (.addInstructions instrs a)
  | addData => exact configures_guard fun _ h => .addData h
  | setRegister => exact configures_guard fun _ h => .setRegister h
  | setRegisters => exact configures_guard fun _ h => .setRegisters h
  | loadProgram instrs start memory registers =>
    exact .inl (.loadProgram instrs start memory registers)
  | setStart a =>
    rw [afterCall, make, jumpTo]
    rcases h : address .programCounter a with fault | p
    · exact .inr rfl
    · exact .inl (.setStart (by rw [jumpTo, h]; rfl))

theorem Coherent.afterCall (h : m.Coherent) (c : Call) : (m.afterCall c).Coherent := by
  rcases configures_afterCall m c with hc | heq
  · exact h.configures hc
  · rwa [heq]

theorem Reachable.afterCall (h : Reachable m) (c : Call) : Reachable (m.afterCall c) := by
  rcases configures_afterCall m c with hc | heq
  · exact h.call hc
  · rwa [heq]

/-- A call that loads, or is refused. -/
theorem loads_left {x : Except Fault Machine} (h : ∀ {m'}, x = .ok m' → Loads m m') :
    Loads m (left (m.guard x)) := by
  rcases x with fault | m'
  · exact .refl m
  · exact h rfl

/-- What a call leaves alone. -/
theorem afterCall_frame (m : Machine) (c : Call) :
    (m.afterCall c).issued = m.issued ∧ (m.afterCall c).nextSeq = m.nextSeq ∧
      ∀ n s o, (m.afterCall c).Holds n s o ↔ m.Holds n s o := by
  rcases configures_afterCall m c with hc | heq
  · rcases hc.added_or_loads with ⟨slot, -, heq⟩ | ⟨_, _, _, _, heq⟩ <;> rw [heq]
    · exact ⟨rfl, rfl, fun _ _ _ => holds_added⟩
    · exact ⟨rfl, rfl, fun _ _ _ => Iff.rfl⟩
  · rw [heq]
    exact ⟨rfl, rfl, fun _ _ _ => Iff.rfl⟩

theorem mem_flight_afterCall {c : Call} : q ∈ (m.afterCall c).flight ↔ q ∈ m.flight := by
  simp only [mem_flight, (afterCall_frame m c).2.2]

/-- A list of instructions is placed one by one. -/
theorem placeAll_cons (m : Machine) (i : Instruction) (rest : List Instruction) (a : Int) :
    m.placeAll a (i :: rest) =
      m.guard (m.addInstruction i a) >>= fun m => m.placeAll (a + 1) rest := by
  rw [placeAll]
  rcases m.addInstruction i a with fault | m₁ <;> rfl

/-! ## The same call on two machines -/

/-- **Alike.** The machines have in common what a call reads of a machine,
and what it writes but for the program counter. -/
structure Alike (m m' : Machine) : Prop where
  memory : m'.memory = m.memory
  values : m'.registers.values = m.registers.values
  loaded : m'.loaded = m.loaded
  cycle : m'.cycle = m.cycle
  names : (m'.stations.map fun s => s.name) = m.stations.map fun s => s.name
  offsetsChecked : m'.offsetsChecked = m.offsetsChecked
  relativeCalls : m'.relativeCalls = m.relativeCalls

/-- Both operations are finished or both are refused, and they leave
machines that are alike. -/
inductive AlikeOutcomes : Outcome → Outcome → Prop
  | ok {m m' : Machine} (h : Alike m m') : AlikeOutcomes (.ok m) (.ok m')
  | error {t t' : Trap} (h : Alike t.machine t'.machine) : AlikeOutcomes (.error t) (.error t')

namespace AlikeOutcomes

theorem alike_left {x x' : Outcome} (h : AlikeOutcomes x x') : Alike (left x) (left x') := by
  cases h with
  | ok h => exact h
  | error h => exact h

/-- One operation after the other. -/
theorem bind {x x' : Outcome} {f f' : Machine → Outcome} (hx : AlikeOutcomes x x')
    (hf : ∀ m m', Alike m m' → AlikeOutcomes (f m) (f' m')) :
    AlikeOutcomes (x >>= f) (x' >>= f') := by
  cases hx with
  | ok h => exact hf _ _ h
  | error h => exact .error h

/-- The same check on both. -/
theorem guard {α : Type} {x : Except Fault α} {f f' : α → Outcome} (h : Alike m m')
    (hf : ∀ a, AlikeOutcomes (f a) (f' a)) :
    AlikeOutcomes (m.guard x >>= f) (m'.guard x >>= f') := by
  rcases x with fault | a
  · exact .error h
  · exact hf a

/-- The same check on both, and what it found is put into both. -/
theorem guard_map {α : Type} {x : Except Fault α} {f f' : α → Machine} (h : Alike m m')
    (hf : ∀ a, Alike (f a) (f' a)) :
    AlikeOutcomes (m.guard (x.map f)) (m'.guard (x.map f')) := by
  rcases x with fault | a
  · exact .error h
  · exact .ok (hf a)

end AlikeOutcomes

namespace Alike

theorem jumpTo (h : Alike m m') (a : Int) : AlikeOutcomes (m.jumpTo a) (m'.jumpTo a) := by
  rw [Machine.jumpTo, Machine.jumpTo]
  rcases address .programCounter a with fault | p
  · exact .error h
  · exact .ok { h with }

theorem addInstruction (h : Alike m m') (i : Instruction) (a : Int) :
    AlikeOutcomes (m.guard (m.addInstruction i a)) (m'.guard (m'.addInstruction i a)) := by
  have hcheck : m'.checkTarget i a = m.checkTarget i a := by
    rw [checkTarget, checkTarget, h.relativeCalls]
  simp only [Machine.addInstruction, hcheck, h.offsetsChecked, h.memory, h.loaded, bind,
    Except.bind, pure, Except.pure]
  split
  · exact .error h
  · split
    · exact .error h
    · split
      · exact .error h
      · exact .ok { h with memory := rfl, loaded := rfl, offsetsChecked := rfl }

theorem placeAll (h : Alike m m') (instrs : List Instruction) (a : Int) :
    AlikeOutcomes (m.placeAll a instrs) (m'.placeAll a instrs) := by
  induction instrs generalizing m m' a with
  | nil => exact .ok h
  | cons i rest ih =>
    rw [placeAll_cons, placeAll_cons]
    exact (h.addInstruction i a).bind fun _ _ h₁ => ih h₁ (a + 1)

theorem addInstructions (h : Alike m m') (instrs : List Instruction) (a : Int) :
    AlikeOutcomes (m.addInstructions instrs a) (m'.addInstructions instrs a) := by
  cases instrs with
  | nil => exact .ok h
  | cons i rest => exact .guard h fun _ => .guard h fun _ => h.placeAll (i :: rest) a

theorem setWords (h : Alike m m') (pairs : List (Int × Int)) :
    AlikeOutcomes (m.setWords pairs) (m'.setWords pairs) := by
  rw [Machine.setWords, Machine.setWords, h.memory]
  split
  · exact .ok { h with memory := rfl }
  · exact .error { h with memory := rfl }

end Alike

/-- A value is written to registers with the same values. -/
theorem values_set {f f' : Registers} (h : f'.values = f.values) (r : Reg) (v : Int) :
    (f'.set r v).values = (f.set r v).values := by
  rw [Registers.set, Registers.set]
  split
  · exact h
  · rw [h]

theorem values_writePairs {f f' : Registers} (h : f'.values = f.values)
    (pairs : List (Int × Int)) :
    (∃ g g', f.writePairs pairs = .ok g ∧ f'.writePairs pairs = .ok g' ∧ g'.values = g.values) ∨
      ∃ fault g g', f.writePairs pairs = .error (fault, g) ∧
        f'.writePairs pairs = .error (fault, g') ∧ g'.values = g.values := by
  induction pairs generalizing f f' with
  | nil => exact .inl ⟨f, f', rfl, rfl, h⟩
  | cons p rest ih =>
    simp only [Registers.writePairs, Registers.write]
    rcases Registers.index p.1 with fault | r
    · exact .inr ⟨fault, f, f', rfl, rfl, h⟩
    · exact ih (values_set h r p.2)

namespace Alike

theorem setRegisterPairs (h : Alike m m') (pairs : List (Int × Int)) :
    AlikeOutcomes (m.setRegisterPairs pairs) (m'.setRegisterPairs pairs) := by
  rw [Machine.setRegisterPairs, Machine.setRegisterPairs]
  rcases values_writePairs h.values pairs with
    ⟨g, g', heq, heq', hg⟩ | ⟨fault, g, g', heq, heq', hg⟩ <;> rw [heq, heq']
  · exact .ok { h with values := hg }
  · exact .error { h with values := hg }

theorem loadProgram (h : Alike m m') (instrs : List Instruction) (start : Int)
    (memory registers : List (Int × Int)) :
    AlikeOutcomes (m.loadProgram instrs start memory registers)
      (m'.loadProgram instrs start memory registers) :=
  (h.addInstructions instrs start).bind fun _ _ h => (h.setWords memory).bind fun _ _ h =>
    (h.setRegisterPairs registers).bind fun _ _ h => h.jumpTo start

theorem addData (h : Alike m m') (values : List Int) (a : Int) :
    AlikeOutcomes (m.guard (m.addData values a)) (m'.guard (m'.addData values a)) := by
  rw [Machine.addData, Machine.addData, h.memory]
  exact .guard_map h fun _ => { h with memory := rfl }

theorem setRegister (h : Alike m m') (i v : Int) :
    AlikeOutcomes (m.guard (m.setRegister i v)) (m'.guard (m'.setRegister i v)) := by
  rw [Machine.setRegister, Machine.setRegister, Registers.write, Registers.write]
  rcases Registers.index i with fault | r
  · exact .error h
  · exact .ok { h with values := values_set h.values r v }

theorem setRegisters (h : Alike m m') (values : List Int) :
    AlikeOutcomes (m.guard (m.setRegisters values)) (m'.guard (m'.setRegisters values)) := by
  rw [Machine.setRegisters, Machine.setRegisters, Registers.load, Registers.load]
  split
  · exact .error h
  · exact .ok { h with values := by simp only [h.values] }

/-- **A station is added to both**, or it is refused in both. -/
theorem addStation (h : Alike m m') (name : String) (kind : Designation) (latency : Int)
    (address memory : Option Int) :
    (∃ fault, m.addStation name kind latency address memory = .error fault ∧
        m'.addStation name kind latency address memory = .error fault) ∨
      ∃ slot, m.addStation name kind latency address memory =
          .ok { m with stations := m.stations ++ [Station.ofSlot slot] } ∧
        m'.addStation name kind latency address memory =
          .ok { m' with stations := m'.stations ++ [Station.ofSlot slot] } := by
  have hlen : m'.stations.length = m.stations.length := by
    simpa only [List.length_map] using congrArg List.length h.names
  have hany : (m'.stations.any fun s => s.name = name) = m.stations.any fun s => s.name = name := by
    have := congrArg (fun l => l.any fun s => decide (s = name)) h.names
    simpa only [List.any_map, Function.comp_def] using this
  simp only [Machine.addStation, addStationOfKind, h.cycle, hany, hlen]
  split
  · exact .inl ⟨_, rfl, rfl⟩
  split
  · exact .inl ⟨_, rfl, rfl⟩
  rcases kind.unitKind with fault | kind
  · exact .inl ⟨fault, rfl, rfl⟩
  simp only [bind, Except.bind]
  rcases Slot.make name kind latency address memory m.stations.length with fault | slot
  · exact .inl ⟨fault, rfl, rfl⟩
  · exact .inr ⟨slot, rfl, rfl⟩

/-- **A call does the same to machines that are alike.** It adds the same
station to both, or it loads into both and they stay alike. -/
theorem afterCall (h : Alike m m') (c : Call) :
    (∃ slot, m.afterCall c = { m with stations := m.stations ++ [Station.ofSlot slot] } ∧
        m'.afterCall c = { m' with stations := m'.stations ++ [Station.ofSlot slot] }) ∨
      Loads m (m.afterCall c) ∧ Loads m' (m'.afterCall c) ∧
        Alike (m.afterCall c) (m'.afterCall c) := by
  have hl := keptByLoading_loads m
  have hl' := keptByLoading_loads m'
  have r := Loads.refl m
  have r' := Loads.refl m'
  cases c with
  | addStation name kind latency address memory =>
    rcases h.addStation name kind latency address memory with
      ⟨fault, heq, heq'⟩ | ⟨slot, heq, heq'⟩ <;> simp only [Machine.afterCall, make, heq, heq']
    · exact .inr ⟨r, r', h⟩
    · exact .inl ⟨slot, rfl, rfl⟩
  | addInstruction i a =>
    exact .inr ⟨loads_left (hl.addInstruction r), loads_left (hl'.addInstruction r'),
      (h.addInstruction i a).alike_left⟩
  | addInstructions instrs a =>
    exact .inr ⟨hl.addInstructions r instrs a, hl'.addInstructions r' instrs a,
      (h.addInstructions instrs a).alike_left⟩
  | addData values a =>
    exact .inr ⟨loads_left (hl.addData r), loads_left (hl'.addData r'),
      (h.addData values a).alike_left⟩
  | setRegister i v =>
    exact .inr ⟨loads_left (hl.setRegister r), loads_left (hl'.setRegister r'),
      (h.setRegister i v).alike_left⟩
  | setRegisters values =>
    exact .inr ⟨loads_left (hl.setRegisters r), loads_left (hl'.setRegisters r'),
      (h.setRegisters values).alike_left⟩
  | loadProgram instrs start memory registers =>
    exact .inr ⟨hl.loadProgram r instrs start memory registers,
      hl'.loadProgram r' instrs start memory registers,
      (h.loadProgram instrs start memory registers).alike_left⟩
  | setStart a => exact .inr ⟨hl.jumpTo r a, hl'.jumpTo r' a, (h.jumpTo a).alike_left⟩

end Alike

/-! ## Inputs one after the other -/

/-- The first input comes before the others. -/
theorem undergo_cons_eq_ok {cycle : Machine → Outcome} {v : Input} :
    m.undergo cycle (v :: inputs) = .ok m' ↔
      ∃ m₁, outcome cycle m v = .ok m₁ ∧ m₁.undergo cycle inputs = .ok m' := by
  rw [undergo, List.foldlM_cons]
  rcases outcome cycle m v with t | m₁
  · simp [bind, Except.bind]
  · simp [bind, Except.bind, undergo]

/-- And the last one after them. -/
theorem undergo_concat_eq_ok {cycle : Machine → Outcome} {v : Input} :
    m.undergo cycle (inputs ++ [v]) = .ok m' ↔
      ∃ m₁, m.undergo cycle inputs = .ok m₁ ∧ outcome cycle m₁ v = .ok m' := by
  simp only [undergo, List.foldlM_append, List.foldlM_cons, List.foldlM_nil, bind_pure]
  rcases inputs.foldlM (outcome cycle) m with t | m₁
  · simp [bind, Except.bind]
  · simp [bind, Except.bind]

/-- A run is made of cycles and nothing else. -/
theorem undergo_replicate {cycle : Machine → Outcome} :
    m.undergo cycle (List.replicate n .cycle) = .ok m' ↔ m.times cycle n = .ok m' := by
  induction n generalizing m' with
  | zero => rfl
  | succ n ih =>
    simp only [List.replicate_succ', undergo_concat_eq_ok, times_succ_eq_ok, ih, outcome]

/-- A reachable machine stays reachable. -/
theorem Reachable.undergo (h : Reachable m) (hm : m.undergo Machine.step inputs = .ok m') :
    Reachable m' := by
  induction inputs generalizing m with
  | nil =>
    cases hm
    exact h
  | cons v inputs ih =>
    obtain ⟨m₁, h₁, hrest⟩ := undergo_cons_eq_ok.1 hm
    cases v with
    | call c =>
      cases h₁
      exact ih (h.afterCall c) hrest
    | cycle => exact ih (h.step h₁) hrest

/-- **A number is not given away again.** What has been issued and has left
its station stays away. -/
theorem Coherent.gone_of_undergo (hc : m.Coherent) (gone : q ∉ m.flight) (hlt : q < m.nextSeq)
    (hm : m.undergo Machine.step inputs = .ok m') :
    m'.Coherent ∧ q ∉ m'.flight ∧ q < m'.nextSeq := by
  induction inputs generalizing m with
  | nil =>
    cases hm
    exact ⟨hc, gone, hlt⟩
  | cons v inputs ih =>
    obtain ⟨m₁, h₁, hrest⟩ := undergo_cons_eq_ok.1 hm
    cases v with
    | call c =>
      cases h₁
      refine ih (hc.afterCall c) (fun hf => gone (mem_flight_afterCall.1 hf)) ?_ hrest
      rwa [(afterCall_frame m c).2.1]
    | cycle =>
      obtain ⟨gone₁, hlt₁⟩ := hc.not_mem_flight_of_step h₁ gone hlt
      exact ih (hc.step h₁) gone₁ hlt₁ hrest

/-- **Whatever has been issued was the last instruction issued at one
time**, and the inputs since then have led to the machine. -/
theorem Reachable.exists_undergo (h : Reachable m) (he : e ∈ m.issued) :
    ∃ z inputs, Reachable z ∧ z.issued.getLast? = some e ∧
      z.undergo Machine.step inputs = .ok m := by
  induction h with
  | made h =>
    rw [(Fresh.ofTable h).issued] at he
    cases he
  | @call m m' h call ih =>
    obtain ⟨c, rfl⟩ := call.exists_call
    rw [(afterCall_frame m c).1] at he
    obtain ⟨z, inputs, hz, hlast, hm⟩ := ih he
    exact ⟨z, inputs ++ [.call c], hz, hlast, undergo_concat_eq_ok.2 ⟨m, hm, rfl⟩⟩
  | @step m m' h hstep ih =>
    rcases mem_issued_of_step hstep he with hold | hnew
    · obtain ⟨z, inputs, hz, hlast, hm⟩ := ih hold
      refine ⟨z, inputs ++ [.cycle], hz, hlast, ?_⟩
      exact undergo_concat_eq_ok.2 ⟨m, hm, hstep⟩
    · -- It has been issued in this cycle.
      refine ⟨m', [], h.step hstep, ?_, rfl⟩
      refine (h.step hstep).coherent.inOrder.getLast?_eq_some he fun x hx => ?_
      rcases mem_issued_of_step hstep hx with hx | hx
      · have := h.coherent.fresh x hx
        omega
      · exact Int.le_of_eq (hx.trans hnew.symm)

end Machine

end OutOfOrder
