import OutOfOrder.Proofs.Tags
import OutOfOrder.Proofs.WrongPath.Traceless
/-!
# What a branch has saved

A branch saves the status table when it is issued, and every result that is
sent while the branch is pending is taken out of the table. So at any time
the table says of the instructions before the branch what the status table
would say of them, had nothing been issued after it (`checkpoint_tracks`).

That is meant in two ways. Any machine whose history ends with the branch,
and that has the same of the instructions before it in flight, has the saved
table as its status table. And there is such a machine: the one that was
told to wait when the branch was issued. It stays abreast of the machine
that went on, also while older branches are pending and whatever calls are
made on both, so it has the same instructions in flight.
-/

namespace OutOfOrder

namespace Machine

variable {m m' z : Machine} {n : Nat} {p : Int} {s : Station} {o : Occupant} {e x : Entry}
variable {l l' : List Entry} {saved : StatusTable}

/-- What was issued before another instruction is no call in flight. -/
theorem Coherent.not_call_in_flight (hc : m.Coherent) (hsplit : m.issued = l ++ e :: l')
    (hx : x ∈ l) : ¬ (x.instr.isCall ∧ x.seq ∈ m.flight) := by
  rintro ⟨hcall, hf⟩
  have hin := hc.inOrder
  rw [hsplit] at hin
  have hlt := (List.pairwise_append.1 hin).2.2 x hx e List.mem_cons_self
  have hle := hc.le_of_isCall (x := e) (hsplit ▸ List.mem_append_left _ hx) hcall hf
    (hsplit ▸ List.mem_append_right _ List.mem_cons_self)
  omega

/-- **A pending branch has saved a table that tracks the history before
it.** -/
theorem Coherent.saved_tracks (hc : m.Coherent) (ha : m.Accounted) (hold : m.Holds n s o)
    (kind : s.kind = .beq) :
    ∃ saved, o.checkpoint = some saved ∧ m.Tracks (m.before o.seq) saved := by
  obtain ⟨saved, hsaved, hdescribes⟩ := hc.saved n s o hold kind
  obtain ⟨e, l', hsplit, -⟩ := hc.issued_eq_append hold
  refine ⟨saved, hsaved, (hc.tracks_iff ha mem_issued_of_before).2 ?_⟩
  rwa [List.filter_eq_self.2 fun x hx => ?_]
  rw [Bool.not_eq_true', ← Bool.not_eq_true, Bool.and_eq_true, decide_eq_true_eq]
  exact hc.not_call_in_flight hsplit hx

/-- Register 0 is committed in it, so putting it back changes nothing of
it. -/
theorem Tracks.restore_eq (h : m.Tracks l saved) : (m.registers.restore saved).status = saved := by
  have hzero : saved.get 0 = none :=
    Option.eq_none_iff_forall_ne_some.2 fun t ht => ((h 0 t).1 ht).1 rfl
  change saved.set 0 none = saved
  rw [← hzero]
  exact Vector.set_getElem_self _

/-- **A history that ends with the branch has the saved table as its status
table**, where the same instructions before the branch are in flight. -/
theorem Coherent.status_eq_saved (hc : m.Coherent) (hold : m.Holds n s o) (kind : s.kind = .beq)
    (hsaved : o.checkpoint = some saved) (hof : e.IsOf s o) (hz : z.Coherent)
    (hissued : z.issued = m.before o.seq ++ [e])
    (hflight : ∀ x ∈ m.before o.seq, x.seq ∈ z.flight ↔ x.seq ∈ m.flight) :
    z.registers.status = saved := by
  obtain ⟨table, htable, hdescribes⟩ := hc.saved n s o hold kind
  obtain rfl : table = saved := Option.some.inj (htable.symm.trans hsaved)
  have hcall : o.instr.isCall = false :=
    Instruction.isCall_eq_false_of_isBranch ((hc.kind_eq_beq_iff hold).1 kind)
  have hrenamers : z.renamers = m.before o.seq ++ [e] := by
    rw [renamers, hissued, List.filter_eq_self.2 fun x hx => ?_]
    rw [Bool.not_eq_true', ← Bool.not_eq_true, Bool.and_eq_true, decide_eq_true_eq]
    rcases List.mem_append.1 hx with hx | hx
    · exact hz.not_call_in_flight hissued hx
    · rw [List.mem_singleton.1 hx, hof.instr, hcall]
      exact fun h => Bool.false_ne_true h.1
  have hwrites : ∀ r, ∀ x ∈ [e], ¬ x.instr.writes r := by
    intro r x hx
    rw [List.mem_singleton.1 hx, hof.instr]
    exact hc.not_writes hold (by rw [kind]; rfl) hcall
  have key : ∀ r, z.registers.status.get r = table.get r := by
    intro r
    rw [hz.status r, hdescribes r, hrenamers,
      producer?_congr_list (lastWriter_append_of_not_writes (hwrites r)),
      producer?_congr fun x hx _ => hflight x hx]
  exact Vector.ext fun i hi => key ⟨i, hi⟩

/-- A machine that has kept abreast of the branch, and has issued nothing
after it, has the saved table as its status table. -/
theorem Abreast.status_eq_saved (h : Abreast p e.seq m m') (hold : m.Holds n s o)
    (kind : s.kind = .beq) (hsaved : o.checkpoint = some saved) (he : e ∈ m.issued)
    (hof : e.IsOf s o) : m'.registers.status = saved := by
  have hseq := hof.seq
  refine h.coherent.status_eq_saved hold kind hsaved hof h.coherent' ?_ fun x hx => ?_
  · rw [h.agree.issued, h.coherent.inOrder.filter_le_eq_append he, before, hseq]
  · have hlt := (mem_before.1 hx).2
    rw [h.agree.mem_flight_iff, and_iff_left (by omega)]

/-- **What a branch has saved.** The table of a pending branch tracks the
history before it. Putting it back gives the status table that there would
be, had nothing been issued after the branch: that of any machine whose
history ends with the branch and that has the same of the instructions
before it in flight. And there was a time when the branch was the last
instruction issued; from any such time on, a machine on which the same
calls were made, and that has waited in every cycle since, has that table
now. -/
theorem checkpoint_tracks (h : Reachable m) (hold : m.Holds n s o) (kind : s.kind = .beq) :
    ∃ l e l' saved, m.issued = l ++ e :: l' ∧ e.IsOf s o ∧ o.checkpoint = some saved ∧
      m.Tracks l saved ∧
      (∀ z, Reachable z → z.issued = l ++ [e] → (∀ x ∈ l, z.Houses x ↔ m.Houses x) →
        z.registers.status = (m.registers.restore saved).status) ∧
      (∃ z inputs, Reachable z ∧ z.issued.getLast? = some e ∧
        z.undergo Machine.step inputs = .ok m) ∧
      ∀ z inputs, Reachable z → z.issued.getLast? = some e →
        z.undergo Machine.step inputs = .ok m →
          ∃ m', z.undergo stepNoIssue inputs = .ok m' ∧
            m'.registers.status = (m.registers.restore saved).status := by
  have hc := h.coherent
  obtain ⟨saved, hsaved, htracks⟩ := hc.saved_tracks h.accounted hold kind
  obtain ⟨e, l', hsplit, hof⟩ := hc.issued_eq_append hold
  have he : e ∈ m.issued := hsplit ▸ List.mem_append_right _ List.mem_cons_self
  refine ⟨_, e, l', saved, hsplit, hof, hsaved, htracks, ?_, h.exists_undergo he, ?_⟩ <;>
    rw [htracks.restore_eq]
  · intro z hz hissued hhouses
    refine hc.status_eq_saved hold kind hsaved hof hz.coherent hissued fun x hx => ?_
    rw [← hc.houses_iff (mem_issued_of_before x hx), ← hhouses x hx]
    exact (hz.coherent.houses_iff (hissued ▸ List.mem_append_left _ hx)).symm
  · intro z inputs hz hlast hm
    have hbranch : e.instr.isBranch := hof.instr ▸ (hc.kind_eq_beq_iff hold).1 kind
    obtain ⟨p, m', hm', habreast⟩ :=
      hz.coherent.abreast_of_undergo hlast hbranch hm (hof.seq ▸ hold.mem_flight)
    exact ⟨m', hm', habreast.status_eq_saved hold kind hsaved he hof⟩

/-- The sample issues its branch in the second cycle. A register is set, and
after the third cycle the branch is pending. -/
theorem checkpoint_tracks_sample :
    ∃ z m m' s o saved, sample.steps 2 = .ok z ∧
      z.undergo Machine.step [.call (.setRegister 6 9), .cycle] = .ok m ∧
      z.undergo stepNoIssue [.call (.setRegister 6 9), .cycle] = .ok m' ∧
      m.Holds 1 s o ∧ o.checkpoint = some saved ∧
      m'.registers.status = (m.registers.restore saved).status := by
  have h : ((sample.steps 2).toOption.any fun z =>
      (z.undergo Machine.step [.call (.setRegister 6 9), .cycle]).toOption.any fun m =>
        (m.occupied? 1).any fun p => z.issued.getLast?.any fun b =>
          decide (p.1.kind = .beq ∧ b ∈ m.issued ∧ b.seq = p.2.seq)) = true := by decide +kernel
  obtain ⟨z, hz, h⟩ := exists_of_any h
  obtain ⟨m, hm, h⟩ := exists_of_any h
  obtain ⟨⟨s, o⟩, hocc, h⟩ := (Option.any_eq_true ..).1 h
  obtain ⟨b, hlast, h⟩ := (Option.any_eq_true ..).1 h
  obtain ⟨kind, hb, hseq⟩ := of_decide_eq_true h
  have hold := occupied?_eq_some_iff.1 hocc
  have hreach := configured_sample.reachable.steps hz
  have hreach' := hreach.undergo hm
  obtain ⟨l, e, l', saved, hsplit, hof, hsaved, -, -, -, hwait⟩ :=
    checkpoint_tracks hreach' hold kind
  obtain rfl : b = e := hreach'.coherent.inOrder.eq_of_seq_eq hb
    (hsplit ▸ List.mem_append_right _ List.mem_cons_self) (hseq.trans hof.seq.symm)
  obtain ⟨m', hm', heq⟩ := hwait z _ hreach hlast hm
  exact ⟨z, m, m', s, o, saved, hz, hm, hm', hold, hsaved, heq⟩

end Machine

end OutOfOrder
