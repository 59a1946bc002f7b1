import OutOfOrder.Proofs.Histories
import OutOfOrder.Proofs.Renumbering.Basic
import OutOfOrder.Proofs.Runs
import OutOfOrder.Proofs.Turns
/-!
# A cycle in another numbering

Two machines are `Renumbered` if one is the other with its stations in
another order and every tag in the other numbering. A cycle takes them to
machines that are renumbered again, or stops both on the same fault.

The turns of the Execute stage and the choice of who sends go by sequence
numbers, and whatever else looks at the pool asks only whether some station
is like this or that. The one thing that goes by the order of the pool is
which of the free stations of a kind is taken first. So the other order has
to keep the stations of each kind in their order (`KeepsOrder`).
-/

namespace OutOfOrder

variable {ρ : Equiv.Perm Nat} {l l' : List Station} {n : Nat} {s s' : Station} {o : Occupant}

/-- **The same stations in another order.** The station at a position of the
first pool is at the other position in the second, with all its tags in the
other numbering. -/
def Reordered (ρ : Equiv.Perm Nat) (l l' : List Station) : Prop :=
  ∀ n : Nat, l'[ρ n]? = l[n]?.map (Station.renumber ρ)

/-- A sender in the other numbering. -/
def Sender.renumber (ρ : Equiv.Perm Nat) (x : Sender) : Sender :=
  ⟨ρ x.position, x.station.renumber ρ, x.occupant.renumber ρ, x.value⟩

/-- The other order keeps stations of one kind in their order. -/
def KeepsOrder (ρ : Equiv.Perm Nat) (slots : List Slot) : Prop :=
  ∀ (n k : Nat) (s s' : Slot), slots[n]? = some s → slots[k]? = some s' → s.kind = s'.kind →
    n < k → ρ n < ρ k

namespace Reordered

theorem getElem?_symm (h : Reordered ρ l l') (k : Nat) :
    l'[k]? = l[ρ.symm k]?.map (Station.renumber ρ) := by
  rw [← h, Equiv.apply_symm_apply]

theorem mem_iff (h : Reordered ρ l l') : s' ∈ l' ↔ ∃ s ∈ l, s.renumber ρ = s' := by
  simp only [List.mem_iff_getElem?]
  constructor
  · rintro ⟨k, hk⟩
    rw [h.getElem?_symm, Option.map_eq_some_iff] at hk
    obtain ⟨s, hs, rfl⟩ := hk
    exact ⟨s, ⟨_, hs⟩, rfl⟩
  · rintro ⟨s, ⟨n, hs⟩, rfl⟩
    exact ⟨ρ n, by rw [h n, hs, Option.map_some]⟩

/-- What holds of some station of one pool holds of some of the other. -/
theorem any_eq {p p' : Station → Bool} (h : Reordered ρ l l')
    (hp : ∀ s, p' (s.renumber ρ) = p s) : l'.any p' = l.any p := by
  rw [Bool.eq_iff_iff, List.any_eq_true, List.any_eq_true]
  constructor
  · rintro ⟨_, hmem', hs⟩
    obtain ⟨s, hmem, rfl⟩ := h.mem_iff.1 hmem'
    exact ⟨s, hmem, hp s ▸ hs⟩
  · rintro ⟨s, hmem, hs⟩
    exact ⟨_, h.mem_iff.2 ⟨s, hmem, rfl⟩, (hp s).symm ▸ hs⟩

theorem map {f : Station → Station} (h : Reordered ρ l l')
    (hf : ∀ s, f (s.renumber ρ) = (f s).renumber ρ) : Reordered ρ (l.map f) (l'.map f) := by
  intro n
  rw [List.getElem?_map, List.getElem?_map, h n, Option.map_map, Option.map_map]
  exact congrArg (l[n]?.map ·) (funext hf)

theorem lt_length_iff (h : Reordered ρ l l') : ρ n < l'.length ↔ n < l.length := by
  rw [← not_iff_not, Nat.not_lt, Nat.not_lt, ← List.getElem?_eq_none_iff,
    ← List.getElem?_eq_none_iff, h n, Option.map_eq_none_iff]

theorem set (h : Reordered ρ l l') (n : Nat) (s : Station) :
    Reordered ρ (l.set n s) (l'.set (ρ n) (s.renumber ρ)) := by
  intro k
  rw [List.getElem?_set, List.getElem?_set]
  by_cases hk : n = k
  · subst hk
    simp only [if_true, h.lt_length_iff]
    split <;> rfl
  · rw [if_neg hk, if_neg fun heq => hk (ρ.injective heq), h k]

end Reordered

namespace Machine

variable {m m' m₁ : Machine} {x x' : Outcome} {barrier : Option Int}

/-- The machine with these stations and all tags in the other numbering. -/
def renumber (ρ : Equiv.Perm Nat) (l : List Station) (m : Machine) : Machine :=
  { m with
    registers := m.registers.renumber ρ
    issued := m.issued.map (Entry.renumber ρ)
    executed := m.executed.map (Entry.renumber ρ)
    writtenBack := m.writtenBack.map (Entry.renumber ρ)
    onBus := m.onBus.map fun b => (renumberTag ρ b.1, b.2)
    stations := l }

/-- **The same machine with its stations in another order.** Nothing but the
tags tells the machines apart. -/
def Renumbered (ρ : Equiv.Perm Nat) (m m' : Machine) : Prop :=
  ∃ l, Reordered ρ m.stations l ∧ m' = m.renumber ρ l

/-- Both operations are finished, or both stop on the same fault, and they
leave machines that differ in the order of stations. -/
inductive RenumberedOutcomes (ρ : Equiv.Perm Nat) : Outcome → Outcome → Prop
  | ok {m m' : Machine} (h : Renumbered ρ m m') : RenumberedOutcomes ρ (.ok m) (.ok m')
  | error {t t' : Trap} (h : Renumbered ρ t.machine t'.machine) (fault : t'.fault = t.fault) :
      RenumberedOutcomes ρ (.error t) (.error t')

/-- One operation after the other. -/
theorem RenumberedOutcomes.bind {f f' : Machine → Outcome} (hx : RenumberedOutcomes ρ x x')
    (hf : ∀ m m', x = .ok m → x' = .ok m' → Renumbered ρ m m' →
      RenumberedOutcomes ρ (f m) (f' m')) :
    RenumberedOutcomes ρ (x >>= f) (x' >>= f') := by
  cases hx with
  | ok h => exact hf _ _ rfl rfl h
  | error h fault => exact .error h fault

/-- The same choice in both. -/
theorem RenumberedOutcomes.ite {p p' : Prop} [Decidable p] [Decidable p'] {y y' : Outcome}
    (hp : p' ↔ p) (hx : RenumberedOutcomes ρ x x') (hy : RenumberedOutcomes ρ y y') :
    RenumberedOutcomes ρ (if p then x else y) (if p' then x' else y') := by
  by_cases h : p
  · rwa [if_pos h, if_pos (hp.2 h)]
  · rwa [if_neg h, if_neg fun h' => h (hp.1 h')]

section

variable (h : Reordered ρ m.stations l)
include h

/-! ## What is read of the pool -/

theorem occupied?_renumber : (m.renumber ρ l).occupied? (ρ n) =
    (m.occupied? n).map fun p => (p.1.renumber ρ, p.2.renumber ρ) := by
  rw [occupied?, occupied?, show (m.renumber ρ l).stations[ρ n]? = l[ρ n]? from rfl, h n]
  rcases m.stations[n]? with - | s
  · rfl
  · simp only [Option.map_some, Option.bind_some, Station.occupant_renumber, Option.map_map]
    rfl

/-- **The barrier is the same.** -/
theorem barrier_renumber : (m.renumber ρ l).barrier = m.barrier := by
  have hmem : ∀ q, q ∈ l.filterMap pendingSeq? ↔ q ∈ m.stations.filterMap pendingSeq? := by
    intro q
    simp only [List.mem_filterMap]
    constructor
    · rintro ⟨_, hs', hq⟩
      obtain ⟨s, hs, rfl⟩ := h.mem_iff.1 hs'
      exact ⟨s, hs, Station.pendingSeq?_renumber ▸ hq⟩
    · rintro ⟨s, hs, hq⟩
      exact ⟨_, h.mem_iff.2 ⟨s, hs, rfl⟩, Station.pendingSeq?_renumber.trans hq⟩
  refine Option.ext fun b => ?_
  simp only [barrier, List.min?_eq_some_iff]
  change (b ∈ l.filterMap pendingSeq? ∧ ∀ q ∈ l.filterMap pendingSeq?, b ≤ q) ↔ _
  simp only [hmem]

/-- **The same accesses are in the way.** -/
theorem hazard?_renumber : ((m.renumber ρ l).hazard? (ρ n) (s.renumber ρ) (o.renumber ρ)).isNone =
    (m.hazard? n s o).isNone := by
  rw [Bool.eq_iff_iff, Option.isNone_iff_eq_none, Option.isNone_iff_eq_none, hazard?_eq_none_iff,
    hazard?_eq_none_iff]
  constructor
  · intro hnone k p hp hk
    rw [← Station.blocks_renumber (ρ := ρ)]
    refine hnone (ρ k) (p.renumber ρ) ?_ fun heq => hk (ρ.injective heq)
    exact (h k).trans (by rw [hp, Option.map_some])
  · intro hnone k p' hp' hk
    obtain ⟨p, hp, rfl⟩ := Option.map_eq_some_iff.1 ((h.getElem?_symm k).symm.trans hp')
    rw [Station.blocks_renumber]
    exact hnone _ p hp fun heq => hk (by rw [← heq, Equiv.apply_symm_apply])

/-! ## Turns -/

theorem renumbered_self : Renumbered ρ m (m.renumber ρ l) := ⟨l, h, rfl⟩

theorem finish_renumber :
    Renumbered ρ (m.finish n s o)
      ((m.renumber ρ l).finish (ρ n) (s.renumber ρ) (o.renumber ρ)) := by
  refine ⟨_, h.set n s.clear, ?_⟩
  simp only [finish, renumber, List.map_append]
  rfl

theorem resulted_renumber {v : Int} :
    Renumbered ρ (m.resulted n s o v)
      ((m.renumber ρ l).resulted (ρ n) (s.renumber ρ) (o.renumber ρ) v) := by
  refine ⟨_, h.set n (s.withResult v), ?_⟩
  simp only [resulted, renumber, List.map_append]
  rfl

theorem jumpTo_renumber {a : Int} :
    RenumberedOutcomes ρ (m.jumpTo a) ((m.renumber ρ l).jumpTo a) := by
  rw [jumpTo, jumpTo]
  rcases address .programCounter a with fault | p
  · exact .error (renumbered_self h) rfl
  · exact .ok ⟨l, h, rfl⟩

theorem computeAddress_renumber :
    RenumberedOutcomes ρ (m.computeAddress n) ((m.renumber ρ l).computeAddress (ρ n)) := by
  rw [computeAddress, computeAddress, occupied?_renumber h]
  rcases m.occupied? n with - | ⟨s, o⟩
  · exact .ok (renumbered_self h)
  refine .ite (by rw [Station.addressDue_renumber]) ?_ (.ok (renumbered_self h))
  simp only [Occupant.value?_j_renumber, Occupant.imm_renumber]
  rcases o.j.value? with - | base
  · exact .error (renumbered_self h) rfl
  rcases o.imm with - | offset
  · exact .error (renumbered_self h) rfl
  · refine .ok ⟨_, h.set n (s.withAddress (wrap (base + offset))), ?_⟩
    rw [← Station.renumber_withAddress]
    rfl

theorem performLoad_renumber :
    RenumberedOutcomes ρ (m.performLoad n s o)
      ((m.renumber ρ l).performLoad (ρ n) (s.renumber ρ) (o.renumber ρ)) := by
  simp only [performLoad, Occupant.imm_renumber, show (m.renumber ρ l).memory = m.memory from rfl]
  rcases o.imm with - | a
  · exact .error (renumbered_self h) rfl
  dsimp only
  rcases m.memory.read a with fault | v
  · exact .error (renumbered_self h) rfl
  · exact .ok (resulted_renumber h)

theorem performStore_renumber :
    RenumberedOutcomes ρ (m.performStore n s o)
      ((m.renumber ρ l).performStore (ρ n) (s.renumber ρ) (o.renumber ρ)) := by
  simp only [performStore, Occupant.imm_renumber, Occupant.value?_k_renumber,
    show (m.renumber ρ l).memory = m.memory from rfl]
  rcases o.imm with - | a
  · exact .error (renumbered_self h) rfl
  rcases o.k.value? with - | v
  · exact .error (renumbered_self h) rfl
  dsimp only
  rcases m.memory.write a v with fault | mem
  · exact .error (renumbered_self h) rfl
  · exact .ok (finish_renumber (m := { m with memory := mem }) h)

theorem access_renumber :
    RenumberedOutcomes ρ (m.access n) ((m.renumber ρ l).access (ρ n)) := by
  rw [access, access, occupied?_renumber h]
  rcases m.occupied? n with - | ⟨s, o⟩
  · exact .ok (renumbered_self h)
  refine .ite ?_ (.ite Iff.rfl (performLoad_renumber h) (performStore_renumber h))
    (.ok (renumbered_self h))
  rw [hazard?_renumber h, Station.accessDue_renumber]

/-- **A branch is taken in either numbering.** -/
theorem takeBranch_renumber :
    RenumberedOutcomes ρ (m.takeBranch s o)
      ((m.renumber ρ l).takeBranch (s.renumber ρ) (o.renumber ρ)) := by
  simp only [takeBranch, Occupant.imm_renumber, Occupant.pc_renumber, Occupant.checkpoint_renumber]
  rcases o.imm with - | offset
  · exact .error (renumbered_self h) rfl
  refine (jumpTo_renumber h).bind fun m₁ _ _ _ h₁ => ?_
  obtain ⟨l₁, h₁, rfl⟩ := h₁
  have hfind : ((m₁.renumber ρ l₁).issued.findIdx? fun e => e.seq = (o.renumber ρ).seq) =
      m₁.issued.findIdx? fun e => e.seq = o.seq := List.findIdx?_map ..
  rcases hi : (m₁.issued.findIdx? fun e => e.seq = o.seq) with - | i <;>
    simp only [hfind, hi]
  · exact .error ⟨l₁, h₁, rfl⟩ rfl
  have hkept : (m₁.renumber ρ l₁).issued.take (i + 1) =
      (m₁.issued.take (i + 1)).map (Entry.renumber ρ) := List.map_take.symm
  have hsquash := h₁.map fun s => Station.renumber_squash (s := s) (q := o.seq)
  simp only [hkept]
  rcases o.checkpoint with - | saved
  · exact .error ⟨_, hsquash, rfl⟩ rfl
  · refine .ok ⟨_, hsquash, ?_⟩
    simp only [renumber, ← Registers.restore_renumber]
    rfl

theorem refreshFlags_renumber : Renumbered ρ m.refreshFlags (m.renumber ρ l).refreshFlags := by
  have hcount : ((m.renumber ρ l).issued.countP fun e => speculative m.barrier e.seq) =
      m.issued.countP fun e => speculative m.barrier e.seq := List.countP_map ..
  have hjump : ((m.renumber ρ l).stations.any fun s => s.busy && s.kind = .callRet) =
      m.stations.any fun s => s.busy && s.kind = .callRet :=
    h.any_eq fun s => by rw [Station.busy_renumber, Station.kind_renumber]
  refine ⟨l, h, ?_⟩
  simp only [refreshFlags, barrier_renumber h, hcount, hjump]
  rfl

theorem resolveBranch_renumber :
    RenumberedOutcomes ρ (m.resolveBranch n s o)
      ((m.renumber ρ l).resolveBranch (ρ n) (s.renumber ρ) (o.renumber ρ)) := by
  simp only [resolveBranch, taken_renumber]
  have leave : ∀ {m₁ m₁' : Machine}, Renumbered ρ m₁ m₁' → RenumberedOutcomes ρ
      (.ok (m₁.finish n s o).refreshFlags)
      (.ok (m₁'.finish (ρ n) (s.renumber ρ) (o.renumber ρ)).refreshFlags) := by
    rintro m₁ _ ⟨l₁, h₁, rfl⟩
    obtain ⟨l₂, h₂, heq⟩ := finish_renumber (n := n) (s := s) (o := o) h₁
    rw [heq]
    exact .ok (refreshFlags_renumber h₂)
  split
  · exact (takeBranch_renumber h).bind fun _ _ _ _ h₁ => leave h₁
  · exact leave (renumbered_self h)

/-- A jump sets out to the same address. -/
theorem departure_renumber :
    Renumbered ρ (m.departure n s o).1
        ((m.renumber ρ l).departure (ρ n) (s.renumber ρ) (o.renumber ρ)).1 ∧
      ((m.renumber ρ l).departure (ρ n) (s.renumber ρ) (o.renumber ρ)).2 =
        (m.departure n s o).2 := by
  rw [departure, departure]
  by_cases hcall : o.instr.opCode? = some .call
  · rw [if_pos hcall, if_pos (show (o.renumber ρ).instr.opCode? = some .call from hcall)]
    refine ⟨⟨l, h, ?_⟩, rfl⟩
    simp only [renumber, ← Registers.commit_renumber, ← Registers.set_renumber]
    rfl
  · rw [if_neg hcall, if_neg (show ¬ (o.renumber ρ).instr.opCode? = some .call from hcall)]
    refine ⟨⟨_, h.set n { s with occupant := some { o with imm := o.j.value? } }, ?_⟩,
      Operand.value?_renumber⟩
    simp only [setStation, renumber, Occupant.value?_j_renumber]
    rfl

theorem resolveJump_renumber :
    RenumberedOutcomes ρ (m.resolveJump n s o)
      ((m.renumber ρ l).resolveJump (ρ n) (s.renumber ρ) (o.renumber ρ)) := by
  obtain ⟨hdep, htarget⟩ := departure_renumber (n := n) (s := s) (o := o) h
  rcases hd : m.departure n s o with ⟨m₁, target⟩
  rcases hd' : (m.renumber ρ l).departure (ρ n) (s.renumber ρ) (o.renumber ρ) with ⟨m₁', target'⟩
  rw [hd, hd'] at hdep htarget
  obtain rfl : target' = target := htarget
  rw [resolveJump, resolveJump, hd, hd']
  rcases target' with - | a
  · exact .error hdep rfl
  obtain ⟨l₁, h₁, rfl⟩ := hdep
  refine (jumpTo_renumber h₁).bind fun m₂ _ _ _ h₂ => ?_
  obtain ⟨l₂, h₂, rfl⟩ := h₂
  exact .ok (finish_renumber (m := { m₂ with jumpPending := false }) h₂)

theorem compute_renumber :
    RenumberedOutcomes ρ (m.compute n s o)
      ((m.renumber ρ l).compute (ρ n) (s.renumber ρ) (o.renumber ρ)) := by
  simp only [compute, Occupant.instr_renumber, Occupant.value?_j_renumber,
    Occupant.value?_k_renumber]
  split
  · rcases o.j.value? with - | a
    · exact .error (renumbered_self h) rfl
    rcases o.k.value? with - | b
    · exact .error (renumbered_self h) rfl
    · exact .ok (resulted_renumber h)
  · exact .error (renumbered_self h) rfl

/-- **A turn is the same in either numbering.** -/
theorem turn_renumber :
    RenumberedOutcomes ρ (turn barrier m n) (turn barrier (m.renumber ρ l) (ρ n)) := by
  have stay := RenumberedOutcomes.ok (renumbered_self h)
  rw [turn, turn, occupied?_renumber h]
  rcases m.occupied? n with - | ⟨s, o⟩
  · exact stay
  refine .ite Iff.rfl stay ?_
  have memory : RenumberedOutcomes ρ (m.computeAddress n >>= fun m => m.access n)
      ((m.renumber ρ l).computeAddress (ρ n) >>= fun m => m.access (ρ n)) := by
    refine (computeAddress_renumber h).bind fun m₁ _ _ _ h₁ => ?_
    obtain ⟨l₁, h₁, rfl⟩ := h₁
    exact access_renumber h₁
  rw [Station.kind_renumber]
  rcases s.kind <;> dsimp only
  case load => exact memory
  case store => exact memory
  case beq => exact .ite Iff.rfl (resolveBranch_renumber h) stay
  case callRet => exact .ite Iff.rfl (resolveJump_renumber h) stay
  all_goals exact .ite Iff.rfl (compute_renumber h) stay

theorem holds_renumber_iff {k : Nat} {o' : Occupant} :
    (m.renumber ρ l).Holds k s' o' ↔
      ∃ n s o, m.Holds n s o ∧ ρ n = k ∧ s.renumber ρ = s' ∧ o.renumber ρ = o' := by
  rw [← occupied?_eq_some_iff, ← Equiv.apply_symm_apply ρ k, occupied?_renumber h,
    Option.map_eq_some_iff]
  constructor
  · rintro ⟨⟨s, o⟩, hocc, heq⟩
    obtain ⟨rfl, rfl⟩ := Prod.mk.inj heq
    exact ⟨_, s, o, occupied?_eq_some_iff.1 hocc, rfl, rfl, rfl⟩
  · rintro ⟨n, s, o, hold, heq, rfl, rfl⟩
    refine ⟨(s, o), occupied?_eq_some_iff.2 ?_, rfl⟩
    rwa [← ρ.injective heq]

/-- **The turns are taken in the same order.** -/
theorem inFlight_renumber (hc : m.Coherent) (hc' : (m.renumber ρ l).Coherent) :
    (m.renumber ρ l).inFlight = m.inFlight.map ρ := by
  have hinj : Function.Injective fun a : Int × Nat => (a.1, ρ a.2) := fun a b heq =>
    Prod.ext (Prod.mk.inj heq).1 (ρ.injective (Prod.mk.inj heq).2)
  have hmem : ∀ a, a ∈ (m.renumber ρ l).turnOrder ↔ a ∈ m.turnOrder.map fun a => (a.1, ρ a.2) := by
    rintro ⟨q, k⟩
    simp only [mem_turnOrder, holds_renumber_iff h, List.mem_map, Prod.exists, Prod.mk.injEq]
    constructor
    · rintro ⟨_, _, ⟨n, s, o, hold, rfl, rfl, rfl⟩, rfl⟩
      exact ⟨o.seq, n, ⟨s, o, hold, rfl⟩, rfl, rfl⟩
    · rintro ⟨q, n, ⟨s, o, hold, rfl⟩, rfl, rfl⟩
      exact ⟨_, _, ⟨n, s, o, hold, rfl, rfl, rfl⟩, rfl⟩
  have hperm : (m.renumber ρ l).turnOrder.Perm (m.turnOrder.map fun a => (a.1, ρ a.2)) :=
    (List.perm_ext_iff_of_nodup (perm_turnOrder.nodup_iff.2 nodup_turnKeys)
      ((perm_turnOrder.nodup_iff.2 nodup_turnKeys).map hinj)).2 hmem
  -- Both are in the order of issue.
  have hsorted : (m.turnOrder.map fun a => (a.1, ρ a.2)).Pairwise fun a b => a.1 < b.1 :=
    List.pairwise_map.2 hc.pairwise_turnOrder
  have heq := hperm.eq_of_pairwise
    (fun a b _ _ hab hba => absurd hab (Int.not_lt.2 (Int.le_of_lt hba)))
    hc'.pairwise_turnOrder hsorted
  rw [inFlight_eq, inFlight_eq, heq, List.map_map, List.map_map]
  rfl

end

/-- Turns one after the other are the same. -/
theorem Renumbered.turns {ns : List Nat} (h : Renumbered ρ m m') :
    RenumberedOutcomes ρ (ns.foldlM (turn barrier) m) ((ns.map ρ).foldlM (turn barrier) m') := by
  induction ns generalizing m m' with
  | nil => exact .ok h
  | cons n ns ih =>
    rw [List.map_cons, List.foldlM_cons, List.foldlM_cons]
    obtain ⟨l, h, rfl⟩ := h
    exact (turn_renumber h).bind fun _ _ _ _ h₁ => ih h₁

/-! ## The stages -/

/-- **The Execute stage does the same in either numbering.** -/
theorem Renumbered.execute (h : Renumbered ρ m m') (hc : m.Coherent) (hc' : m'.Coherent) :
    RenumberedOutcomes ρ m.execute m'.execute := by
  obtain ⟨l, hl, rfl⟩ := h
  rw [Machine.execute, Machine.execute, inFlight_renumber hl hc hc', barrier_renumber hl]
  exact (renumbered_self hl).turns

theorem Renumbered.advance (h : Renumbered ρ m m') : Renumbered ρ m.advance m'.advance := by
  obtain ⟨l, hl, rfl⟩ := h
  exact ⟨_, hl.map fun _ => Station.renumber_advance, rfl⟩

theorem freeStation?_eq_none_iff {kind : UnitKind} :
    m.freeStation? kind = none ↔ ∀ s ∈ m.stations, s.kind = kind → s.busy = true := by
  simp only [freeStation?, List.find?_eq_none, Prod.forall, List.mem_zipIdx_iff_getElem?,
    Bool.and_eq_true, decide_eq_true_eq, Bool.not_eq_true', not_and, Bool.not_eq_false]
  constructor
  · intro h s hs
    obtain ⟨n, hn⟩ := List.mem_iff_getElem?.1 hs
    exact h s n hn
  · exact fun h s n hn => h s (List.mem_of_getElem? hn)

/-- **The station that is taken** is free, and none of its kind before it in
the pool is. -/
theorem freeStation?_eq_some_iff {kind : UnitKind} : m.freeStation? kind = some (s, n) ↔
    m.stations[n]? = some s ∧ s.kind = kind ∧ s.busy = false ∧
      ∀ k < n, ∀ s', m.stations[k]? = some s' → s'.kind = kind → s'.busy = true := by
  simp only [freeStation?, List.find?_eq_some_iff_getElem, List.getElem_zipIdx, Prod.mk.injEq,
    List.length_zipIdx, Bool.and_eq_true, decide_eq_true_eq, Bool.not_eq_true', Nat.zero_add,
    Bool.and_eq_false_iff, decide_eq_false_iff_not, Bool.not_eq_false', ← imp_iff_not_or]
  constructor
  · rintro ⟨⟨hkind, hfree⟩, i, hi, ⟨rfl, rfl⟩, hfirst⟩
    refine ⟨List.getElem?_eq_getElem hi, hkind, hfree, fun k hk s' hs' => ?_⟩
    obtain ⟨-, rfl⟩ := List.getElem?_eq_some_iff.1 hs'
    exact hfirst k hk
  · rintro ⟨hs, hkind, hfree, hfirst⟩
    obtain ⟨hn, rfl⟩ := List.getElem?_eq_some_iff.1 hs
    exact ⟨⟨hkind, hfree⟩, n, hn, ⟨rfl, rfl⟩, fun k hk =>
      hfirst k hk _ (List.getElem?_eq_getElem (Nat.lt_trans hk hn))⟩

/-- **The first free station of a kind is the same one**, since those of its
kind stand in the same order. -/
theorem freeStation?_renumber (h : Reordered ρ m.stations l) (hk : KeepsOrder ρ m.slots)
    (kind : UnitKind) : (m.renumber ρ l).freeStation? kind =
      (m.freeStation? kind).map fun p => (p.1.renumber ρ, ρ p.2) := by
  rcases hfree : m.freeStation? kind with - | ⟨s, n⟩
  · refine freeStation?_eq_none_iff.2 fun s' hs' => ?_
    obtain ⟨s, hs, rfl⟩ := h.mem_iff.1 hs'
    rw [Station.busy_renumber]
    exact freeStation?_eq_none_iff.1 hfree s hs
  · obtain ⟨hs, hkind, hidle, hfirst⟩ := freeStation?_eq_some_iff.1 hfree
    refine freeStation?_eq_some_iff.2 ⟨(h n).trans (by rw [hs, Option.map_some]), hkind,
      Station.busy_renumber.trans hidle, fun k hlt p' hp' hkind' => ?_⟩
    obtain ⟨p, hp, rfl⟩ := Option.map_eq_some_iff.1 ((h.getElem?_symm k).symm.trans hp')
    rw [Station.busy_renumber]
    -- What is before it in the other pool is before it in the first one.
    rcases Nat.lt_trichotomy (ρ.symm k) n with hn | rfl | hn
    · exact hfirst _ hn p hp hkind'
    · rw [Equiv.apply_symm_apply] at hlt
      exact absurd hlt (Nat.lt_irrefl k)
    · have hbefore := hk n (ρ.symm k) s.toSlot p.toSlot
        (by rw [slots, List.getElem?_map, hs, Option.map_some])
        (by rw [slots, List.getElem?_map, hp, Option.map_some]) (hkind.trans hkind'.symm) hn
      rw [Equiv.apply_symm_apply] at hbefore
      exact absurd hlt (Nat.lt_asymm hbefore)

/-- What an instruction finds when it is issued. -/
theorem newcomer_renumber {i : Instruction} :
    (m.renumber ρ l).newcomer i = (m.newcomer i).renumber ρ := by
  have hsource : ∀ r, (m.renumber ρ l).source r = (m.source r).renumber ρ := by
    rintro (- | r)
    · rfl
    · exact Registers.operand_renumber
  have himm : (m.renumber ρ l).immediate i = m.immediate i := by
    cases i <;> first | rfl | simp only [immediate, hsource, Operand.value?_renumber]
  have hsaved : (if i.isBranch then some (m.renumber ρ l).registers.status else none) =
      (if i.isBranch then some m.registers.status else none).map (renumberTable ρ) := by
    split <;> rfl
  simp only [newcomer, hsource, himm, hsaved, Occupant.renumber]
  rfl

theorem dispatched_renumber {i : Instruction} (h : Reordered ρ m.stations l) :
    Renumbered ρ (m.dispatched i s n)
      ((m.renumber ρ l).dispatched i (s.renumber ρ) (ρ n)) := by
  have hrenamed : (m.renumber ρ l).renamed i (s.renumber ρ).tag =
      (m.renamed i s.tag).renumber ρ := by
    rw [renamed, renamed]
    rcases i.destination? with - | r
    · rfl
    · exact Registers.rename_renumber
  have hfilled : (m.renumber ρ l).filled i (s.renumber ρ) = (m.filled i s).renumber ρ := by
    simp only [filled, newcomer_renumber]
    rfl
  have hissued : (m.renumber ρ l).issued ++ [(m.renumber ρ l).issueEntry i (s.renumber ρ)] =
      (m.issued ++ [m.issueEntry i s]).map (Entry.renumber ρ) := by
    rw [List.map_append]
    rfl
  refine ⟨_, h.set n (m.filled i s), ?_⟩
  simp only [dispatched, hrenamed, hfilled, hissued]
  rfl

/-- **The Issue stage does the same in either numbering.** -/
theorem Renumbered.issue (h : Renumbered ρ m m') (hk : KeepsOrder ρ m.slots) :
    RenumberedOutcomes ρ m.issue m'.issue := by
  obtain ⟨l, hl, rfl⟩ := h
  have stay := RenumberedOutcomes.ok (renumbered_self hl)
  rw [Machine.issue, Machine.issue]
  refine .ite Iff.rfl stay ?_
  rw [show (m.renumber ρ l).fetch = m.fetch from rfl]
  rcases m.fetch with - | w | ⟨i, kind⟩
  · exact stay
  · exact stay
  dsimp only
  rw [freeStation?_renumber hl hk]
  rcases hfree : m.freeStation? kind with - | ⟨s, n⟩
  · exact stay
  · have hidle := (freeStation?_eq_some hfree).2.2
    dsimp only [Option.map_some]
    rw [issueTo_of_free hidle, issueTo_of_free (by rw [Station.occupant_renumber, hidle]; rfl)]
    exact .ok (dispatched_renumber hl)

/-! ### Writeback -/

/-- Who may send for an entry is the same station. -/
theorem sender?_renumber {e : Entry} (h : Reordered ρ m.stations l) (he : 0 ≤ e.tag) :
    (m.renumber ρ l).sender? (e.renumber ρ) = (m.sender? e).map (Sender.renumber ρ) := by
  obtain ⟨n, hn⟩ := Int.eq_ofNat_of_zero_le he
  have htag : (e.renumber ρ).tag.toNat = ρ n := by
    rw [Entry.renumber, hn]
    exact Int.toNat_natCast _
  rw [sender?, sender?, htag, hn, Int.toNat_natCast, occupied?_renumber h]
  rcases m.occupied? n with - | ⟨s, o⟩
  · rfl
  simp only [Option.map_some, Station.result_renumber]
  rcases s.result with - | v
  · rfl
  dsimp only
  by_cases hgo : o.seq = e.seq && s.kind.usesBus && s.latency < o.cycles
  · rw [if_pos hgo]
    exact if_pos hgo
  · rw [if_neg hgo]
    exact if_neg hgo

/-- **The same station sends.** -/
theorem nextSender?_renumber (h : Reordered ρ m.stations l) (ha : m.Accounted) :
    (m.renumber ρ l).nextSender? = m.nextSender?.map (Sender.renumber ρ) := by
  have key : ∀ es : List Entry, (∀ e ∈ es, 0 ≤ e.tag) →
      (es.map (Entry.renumber ρ)).findSome? (m.renumber ρ l).sender? =
        (es.findSome? m.sender?).map (Sender.renumber ρ) := by
    intro es hes
    induction es with
    | nil => rfl
    | cons e es ih =>
      rw [List.map_cons, List.findSome?_cons, List.findSome?_cons,
        sender?_renumber h (hes e List.mem_cons_self)]
      rcases m.sender? e with - | x
      · exact ih fun e he => hes e (List.mem_cons_of_mem _ he)
      · rfl
  have hpath : (m.renumber ρ l).path = m.path.map (Entry.renumber ρ) := by
    rw [path, path, barrier_renumber h]
    exact List.takeWhile_map ..
  change (m.renumber ρ l).path.findSome? _ = (m.path.findSome? _).map _
  rw [hpath]
  exact key m.path fun e he => (ha.placed e ((List.takeWhile_sublist _).subset he)).1

/-- **A result reaches the same stations and registers.** -/
theorem sent_renumber {x : Sender} (h : Reordered ρ m.stations l) :
    Renumbered ρ (m.sent x) ((m.renumber ρ l).sent (x.renumber ρ)) := by
  have hthrough : ∀ t, (m.renumber ρ l).writeThrough (renumberTag ρ t) = m.writeThrough t := by
    intro t
    have hany : ∀ r, (l.any fun s => s.savedTag (renumberTag ρ t) r) =
        m.stations.any fun s => s.savedTag t r := fun r =>
      h.any_eq fun _ => Station.savedTag_renumber
    simp only [writeThrough, renumber, hany]
  have hstations : Reordered ρ (m.sent x).stations
      ((m.renumber ρ l).sent (x.renumber ρ)).stations := by
    intro n
    simp only [sent, deliver, List.getElem?_mapIdx]
    rw [show (m.renumber ρ l).stations[ρ n]? = l[ρ n]? from rfl, h n, Option.map_map,
      Option.map_map]
    refine congrArg (m.stations[n]?.map ·) (funext fun s => ?_)
    by_cases hn : n = x.position
    · simp only [Function.comp_apply, if_pos hn]
      exact if_pos (congrArg ρ hn)
    · simp only [Function.comp_apply, if_neg hn]
      exact (if_neg fun heq => hn (ρ.injective heq)).trans Station.told_renumber
  refine ⟨_, hstations, ?_⟩
  have hregisters : ((m.renumber ρ l).sent (x.renumber ρ)).registers =
      (m.sent x).registers.renumber ρ := by
    change (m.registers.renumber ρ).broadcast (renumberTag ρ x.station.tag) x.value
      ((m.renumber ρ l).writeThrough (renumberTag ρ x.station.tag)) = _
    rw [hthrough, Registers.broadcast_renumber]
    rfl
  have hwritten : ((m.renumber ρ l).sent (x.renumber ρ)).writtenBack =
      (m.sent x).writtenBack.map (Entry.renumber ρ) := by
    simp only [sent, deliver, List.map_append]
    rfl
  conv_rhs => rw [renumber, ← hregisters, ← hwritten]
  rfl

/-- **The Writeback stage does the same in either numbering.** -/
theorem Renumbered.writeBack (h : Renumbered ρ m m') (hc : m.Coherent) (hc' : m'.Coherent)
    (ha : m.Accounted) : RenumberedOutcomes ρ m.writeBack m'.writeBack := by
  obtain ⟨l, hl, rfl⟩ := h
  have hnext := nextSender?_renumber hl ha
  rcases hc.writeBack_eq with ⟨hx, heq⟩ | ⟨x, hx, heq⟩ <;>
    rcases hc'.writeBack_eq with ⟨hx', heq'⟩ | ⟨x', hx', heq'⟩ <;>
    rw [hx, hx'] at hnext <;> rw [heq, heq']
  · exact .ok (renumbered_self hl)
  · cases hnext
  · cases hnext
  · obtain rfl := Option.some.inj hnext
    exact .ok (sent_renumber hl)

/-! ## Cycles -/

/-- **A cycle does the same in either numbering**, if stations of one kind
stand in the same order. -/
theorem Renumbered.step (h : Renumbered ρ m m') (hk : KeepsOrder ρ m.slots) (hm : Reachable m)
    (hm' : Reachable m') : RenumberedOutcomes ρ m.step m'.step := by
  have hk' : KeepsOrder ρ m.advance.slots := by rwa [slots_advance]
  refine (h.advance.issue hk').bind fun m₁ m₁' h₁ h₁' hr₁ => ?_
  have hc₁ := hm.coherent.advance.issue h₁
  have hc₁' := hm'.coherent.advance.issue h₁'
  have ha₁ := hm.accounted.advance.issue hm.coherent.advance h₁
  refine (hr₁.execute hc₁ hc₁').bind fun m₂ m₂' h₂ h₂' hr₂ => ?_
  have hmoves := execute_moves h₂
  refine (hr₂.writeBack (hmoves.coherent hc₁) ((execute_moves h₂').coherent hc₁')
    (ha₁.moves hc₁ hmoves)).bind fun m₃ m₃' _ _ hr₃ => ?_
  obtain ⟨l, hl, rfl⟩ := hr₃
  exact .ok ⟨l, hl, rfl⟩

/-- A run keeps the pool. -/
theorem slots_of_steps (h : m.steps n = .ok m') : m'.slots = m.slots :=
  steps_induction (P := fun a => a.slots = m.slots) h rfl
    fun ha hstep => (slots_of_step hstep).trans ha

/-- **And so does a run.** -/
theorem Renumbered.steps (h : Renumbered ρ m m') (hk : KeepsOrder ρ m.slots) (hm : Reachable m)
    (hm' : Reachable m') (n : Nat) : RenumberedOutcomes ρ (m.steps n) (m'.steps n) := by
  induction n with
  | zero => exact .ok h
  | succ n ih =>
    refine ih.bind fun m₁ m₁' h₁ h₁' hr => hr.step ?_ (hm.steps h₁) (hm'.steps h₁')
    rwa [slots_of_steps h₁]

end Machine

end OutOfOrder
