import OutOfOrder.Proofs.Refinement
import OutOfOrder.Proofs.Timing
/-!
# The end of a run

A run goes on until the machine is complete or its clock has reached the
limit (`Stops`). Nothing changes in a machine that is complete but the clock,
and the bus is cleared (`step_of_complete`): no timer moves where no station
is in use, no stage has an instruction to work on, and there is nothing to
fetch. So it stays complete.

A run is a loop, and its equation (`run_eq`) is all that the rest is read off.
The limit of a run is a time of the clock and not a number of cycles, so a run
that is cut in two and goes on to the same limit is the run that was not cut
(`run_run`). No machine has to be reachable for any of this, and a run that
stops on a fault is no exception.
-/

namespace OutOfOrder

/-- The timer of a free station stands still. -/
theorem Station.advance_of_free {s : Station} (h : s.occupant = none) : s.advance = s := by
  rw [advance, if_neg (by rw [advances, h]; exact Bool.false_ne_true)]

namespace Machine

variable {m m' z : Machine} {j k : Nat} {l l₁ l₂ : Int}

/-! ## A complete machine -/

/-- The machine after so many cycles in which nothing has happened. -/
def idled (m : Machine) (k : Nat) : Machine :=
  { m with
    cycle := m.cycle + k
    onBus := if k = 0 then m.onBus else none }

/-- Where nobody is in flight nobody has a turn. -/
theorem inFlight_of_empty (h : ∀ n s o, ¬ m.Holds n s o) : m.inFlight = [] := by
  rw [inFlight_eq, List.map_eq_nil_iff, List.eq_nil_iff_forall_not_mem]
  rintro ⟨q, n⟩ hmem
  obtain ⟨s, o, hold, -⟩ := mem_turnOrder.1 hmem
  exact h n s o hold

/-- And nobody sends. -/
theorem nextSender?_of_empty (h : ∀ n s o, ¬ m.Holds n s o) : m.nextSender? = none := by
  rw [nextSender?]
  refine List.findSome?_eq_none_iff.2 fun e _ => ?_
  rcases hocc : m.occupied? e.tag.toNat with - | ⟨s, o⟩
  · rw [sender?, hocc]
  · exact absurd (occupied?_eq_some_iff.1 hocc) (h _ s o)

theorem advance_of_empty (h : ∀ n s o, ¬ m.Holds n s o) : m.advance = { m with onBus := none } := by
  have hstations : m.stations.map Station.advance = m.stations := by
    refine (List.map_congr_left fun s hs => ?_).trans (List.map_id _)
    rcases ho : s.occupant with - | o
    · exact s.advance_of_free ho
    · obtain ⟨n, hold⟩ := exists_holds_of_mem hs ho
      exact absurd hold (h n s o)
  rw [advance, hstations]

/-- Where there is nothing to fetch nothing is issued. -/
theorem issue_of_not_fetches (h : ¬ ∃ i kind, m.fetch = .instruction i kind) : m.issue = .ok m := by
  rcases m.issue_cases with ⟨i, kind, _, _, -, hfetch, -⟩ | ⟨hissue, -⟩
  · exact absurd ⟨i, kind, hfetch⟩ h
  · exact hissue

/-- **A cycle of a complete machine changes nothing** but the clock, and clears
the bus. -/
theorem step_of_complete (h : m.complete) : m.step = .ok (m.idled 1) := by
  obtain ⟨hempty, -, -, hnone⟩ := complete_iff.1 h
  rw [step, advance_of_empty hempty,
    issue_of_not_fetches (m := { m with onBus := none }) hnone]
  change (execute { m with onBus := none } >>= _) = _
  rw [execute, inFlight_of_empty (m := { m with onBus := none }) hempty]
  change (writeBack { m with onBus := none } >>= _) = _
  rw [writeBack, nextSender?_of_empty (m := { m with onBus := none }) hempty]
  rfl

/-- And it is complete after that. -/
theorem complete_idled (h : m.complete) : (m.idled k).complete := h

theorem idled_idled : (m.idled j).idled k = m.idled (j + k) := by
  simp only [idled, Nat.add_assoc, Nat.add_eq_zero_iff]
  congr 1
  by_cases hj : j = 0 <;> by_cases hk : k = 0 <;> simp [hj, hk]

/-- **To be complete is final.** -/
theorem steps_of_complete (h : m.complete) : ∀ k, m.steps k = .ok (m.idled k) := by
  intro k
  induction k with
  | zero => rfl
  | succ k ih => exact times_succ_eq_ok.2 ⟨m.idled k, ih, by
      rw [step_of_complete (complete_idled h), idled_idled]⟩

/-! ## The loop -/

/-- A run with this limit stops here. -/
def Stops (m : Machine) (limit : Int) : Prop := m.complete ∨ limit ≤ m.cycle

theorem Stops.mono (h : m.Stops l₂) (hle : l₁ ≤ l₂) : m.Stops l₁ :=
  h.imp id hle.trans

/-- The clock moves by one. -/
theorem cycle_of_step (h : m.step = .ok m') : m'.cycle = m.cycle + 1 := by
  obtain ⟨m₁, m₂, m₃, h₁, h₂, h₃, rfl, -⟩ := step_eq_ok h
  have hissue : m₁.cycle = m.cycle := by
    rcases issue_eq_ok h₁ with ⟨i, s, n, -, -, -, -, rfl⟩ | rfl <;> rfl
  have hsend : m₃.cycle = m₂.cycle := by
    rcases writeBack_cases h₃ with ⟨-, rfl⟩ | ⟨x, -, rfl⟩ <;> rfl
  change m₃.cycle + 1 = m.cycle + 1
  rw [hsend, (execute_moves h₂).cycle, hissue]

theorem run_of_stops (h : m.Stops l) : m.run l = .ok m := by
  rw [run]
  rcases hn : (l - m.cycle).toNat with - | n
  · rfl
  · rw [runFor, if_pos (h.resolve_right (by omega))]

/-- **The loop goes round once.** -/
theorem run_of_not_stops (h : ¬ m.Stops l) : m.run l = m.step.bind fun z => z.run l := by
  rw [Stops, not_or, Int.not_le] at h
  obtain ⟨n, hn⟩ : ∃ n, (l - m.cycle).toNat = n + 1 := ⟨(l - m.cycle).toNat - 1, by omega⟩
  rw [run, hn, runFor, if_neg h.1]
  rcases hstep : m.step with t | z
  · rfl
  · have hclock := cycle_of_step hstep
    change z.runFor n = z.runFor (l - z.cycle).toNat
    rw [show (l - z.cycle).toNat = n by omega]

/-- **A run that is cut in two is the run**, and so is what it stops on. -/
theorem run_run (hle : l₁ ≤ l₂) : ((m.run l₁).bind fun z => z.run l₂) = m.run l₂ := by
  induction hn : (l₁ - m.cycle).toNat generalizing m with
  | zero => rw [run_of_stops (l := l₁) (.inr (by omega)), Except.bind]
  | succ n ih =>
    by_cases hstops : m.Stops l₁
    · rw [run_of_stops hstops, Except.bind]
    · rw [run_of_not_stops hstops, run_of_not_stops fun h => hstops (h.mono hle)]
      rcases hstep : m.step with t | z
      · rfl
      · have hclock := cycle_of_step hstep
        exact ih (by omega)

/-! ## Where a run stops -/

theorem steps_succ : m.steps (k + 1) = m.step.bind fun z => z.steps k := by
  induction k with
  | zero =>
    change m.step = m.step.bind .ok
    rcases m.step with t | z <;> rfl
  | succ k ih =>
    rw [steps, times, ← steps, ih]
    rcases m.step with t | z <;> rfl

/-- **The run goes on** over so many cycles: no machine before that stops it,
and none has stopped on a fault. -/
def GoesOn (m : Machine) (limit : Int) (k : Nat) : Prop :=
  ∀ j < k, ∃ z, m.steps j = .ok z ∧ ¬ z.Stops limit

theorem goesOn_one (h : ¬ m.Stops l) : m.GoesOn l 1 := by
  intro j hj
  obtain rfl := Nat.lt_one_iff.1 hj
  exact ⟨m, rfl, h⟩

theorem goesOn_succ (hstep : m.step = .ok z) :
    m.GoesOn l (k + 1) ↔ ¬ m.Stops l ∧ z.GoesOn l k := by
  have hsteps : ∀ j, m.steps (j + 1) = z.steps j := by
    intro j
    rw [steps_succ, hstep, Except.bind]
  constructor
  · intro h
    obtain ⟨m₀, hm₀, hnot⟩ := h 0 (Nat.succ_pos k)
    cases hm₀
    exact ⟨hnot, fun j hj => by simpa only [hsteps] using h (j + 1) (Nat.succ_lt_succ hj)⟩
  · rintro ⟨hnot, h⟩ (_ | j) hj
    · exact ⟨m, rfl, hnot⟩
    · simpa only [hsteps] using h j (Nat.lt_of_succ_lt_succ hj)

/-- **What comes of a run** is what comes of the least number of cycles that
leads to a machine that stops it, or to a fault. -/
theorem run_eq_iff {x : Outcome} :
    m.run l = x ↔ ∃ k, m.steps k = x ∧ m.GoesOn l k ∧ ∀ z, x = .ok z → z.Stops l := by
  constructor
  · rintro rfl
    have stop {m : Machine} (h : m.Stops l) :
        ∃ k, m.steps k = m.run l ∧ m.GoesOn l k ∧ ∀ z, m.run l = .ok z → z.Stops l := by
      rw [run_of_stops h]
      refine ⟨0, rfl, fun j hj => absurd hj (Nat.not_lt_zero j), fun z hz => ?_⟩
      cases hz
      exact h
    induction hn : (l - m.cycle).toNat generalizing m with
    | zero => exact stop (.inr (by omega))
    | succ n ih =>
      by_cases hstops : m.Stops l
      · exact stop hstops
      · rw [run_of_not_stops hstops]
        rcases hstep : m.step with t | z
        · exact ⟨1, by rw [steps_succ, hstep]; rfl, goesOn_one hstops, fun z hz => by cases hz⟩
        · have hclock := cycle_of_step hstep
          obtain ⟨k, hk, hon, hend⟩ := ih (m := z) (by omega)
          exact ⟨k + 1, by rw [steps_succ, hstep]; exact hk, (goesOn_succ hstep).2 ⟨hstops, hon⟩,
            hend⟩
  · rintro ⟨k, hk, hon, hend⟩
    induction k generalizing m with
    | zero => exact (run_of_stops (hend m hk.symm)).trans hk
    | succ k ih =>
      rw [steps_succ] at hk
      rcases hstep : m.step with t | z
      · obtain ⟨m₀, hm₀, hnot⟩ := hon 0 (Nat.succ_pos k)
        cases hm₀
        rw [run_of_not_stops hnot, ← hk, hstep]
        rfl
      · obtain ⟨hnot, hon⟩ := (goesOn_succ hstep).1 hon
        rw [hstep] at hk
        rw [run_of_not_stops hnot, hstep]
        exact ih hk hon

/-- **To be complete is final, and runs can be cut anywhere.** Cycles of a
complete machine move its clock, clear the bus and change nothing else, and it
stays complete. A run to a limit and from there to a limit that is no earlier
comes to the same as the run to the later one; and that is what comes of the
least number of cycles after which the machine is complete or its clock has
reached the limit, unless a cycle stops on a fault before. -/
theorem complete_final_and_run_cut (m : Machine) :
    (m.complete → ∀ k, m.steps k = .ok (m.idled k) ∧ (m.idled k).complete) ∧
      ∀ l₁ l₂, l₁ ≤ l₂ → ((m.run l₁).bind fun z => z.run l₂) = m.run l₂ ∧
        ∀ x, m.run l₂ = x ↔ ∃ k, m.steps k = x ∧ m.GoesOn l₂ k ∧ ∀ z, x = .ok z → z.Stops l₂ :=
  ⟨fun h k => ⟨steps_of_complete h k, complete_idled h⟩,
    fun _ _ hle => ⟨run_run hle, fun _ => run_eq_iff⟩⟩

/-- The sample has run to its end after seven cycles. It stays as it is, and
could have been stopped after three. -/
theorem complete_final_and_run_cut_sample :
    (∃ m, sample.steps 7 = .ok m ∧ m.complete ∧ m.steps 5 = .ok (m.idled 5)) ∧
      ((sample.run 3).bind fun z => z.run 20) = sample.run 20 ∧
      ∃ k, sample.steps k = sample.run 20 ∧ sample.GoesOn 20 k := by
  obtain ⟨m, hm, hcomplete⟩ := steps_sample
  obtain ⟨hcut, hends⟩ := (complete_final_and_run_cut sample).2 3 20 (by decide)
  obtain ⟨k, hk, hon, -⟩ := (hends _).1 rfl
  exact ⟨⟨m, hm, hcomplete, ((complete_final_and_run_cut m).1 hcomplete 5).1⟩, hcut, k, hk, hon⟩

end Machine

end OutOfOrder
