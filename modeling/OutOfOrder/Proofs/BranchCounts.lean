import OutOfOrder.Log.Narration
import OutOfOrder.Proofs.Flags
import OutOfOrder.Proofs.Rounding
import OutOfOrder.Proofs.Timing
import Mathlib.Data.Rat.Cast.Order
/-!
# The counts of branches

The machine counts the branches that it issues, and those that are taken.
Neither count goes back when a branch is squashed, though the branch is gone
from its station and from the history of issues by then. So what the counts
are worth cannot be read off a machine, and is told over its run: `told` is
what the machine reports, and `resolutions` are the branches that resolve with
the operands they have then.

Each part of a cycle settles its account of the branches (`Settles`): a branch
that is pending was so before or has been issued, and resolves, is squashed or
stays pending. Accounts add up (`Settles.trans`), so this is shown a turn at a
time, and only the turn of a branch needs an argument.

No more than one branch resolves in a cycle. The barrier is taken once, before
the first turn; a branch that resolves is not beyond it and is pending, so it
is the oldest (`barrier_eq_of_mem_turnsResolutions`). Everything that has been
written back by then was issued before it.
-/

namespace OutOfOrder

namespace Happening

/-- A branch is issued. -/
def issuesBranch : Happening → Bool
  | issued i _ _ => i.isBranch
  | _ => false

/-- A branch is squashed. -/
def squashesBranch : Happening → Bool
  | squashed _ i => i.isBranch
  | _ => false

/-- Neither. -/
def SparesBranches (w : Happening) : Prop := w.issuesBranch = false ∧ w.squashesBranch = false

theorem SparesBranches.of_mem_singleton {w w' : Happening} (h : w'.SparesBranches)
    (hw : w ∈ [w']) : w.SparesBranches := by
  rwa [List.mem_singleton.1 hw]

end Happening

/-- What an event of a cycle tells. -/
def Event.happening? : Event → Option Happening
  | during _ w => some w
  | _ => none

/-- A branch is in the station. -/
def Station.holdsBranch (s : Station) : Bool := s.kind = .beq && s.busy

theorem Station.holdsBranch_of_kind {s : Station} (kind : s.kind ≠ .beq) :
    s.holdsBranch = false := by
  rw [holdsBranch, decide_eq_false kind, Bool.false_and]

/-- A branch that resolves: what the histories are going to say of it, and its
two operands. -/
structure Resolution where
  entry : Entry
  left : Option Int
  right : Option Int
deriving DecidableEq

/-- The operands are equal. -/
def Resolution.equal (r : Resolution) : Bool := r.left = r.right

namespace Machine

variable {m m' m'' m₁ : Machine} {n k : Nat} {s s₀ : Station} {o : Occupant} {x : Entry}
variable {barrier : Option Int} {ns : List Nat} {acts : List Act} {w : Happening}
variable {rs rs' : List Resolution} {ws ws' : List Happening} {r : Resolution}

/-! ## What there is to count -/

/-- The number of branches in the stations. -/
def pendingBranches (m : Machine) : Nat := m.stations.countP Station.holdsBranch

/-- The branches in the history of write-backs. -/
def writtenBranches (m : Machine) : List Entry := m.writtenBack.filter fun x => x.instr.isBranch

/-- The branch that resolves at the turn of the station at a position. -/
def turnResolutions (barrier : Option Int) (m : Machine) (n : Nat) : List Resolution :=
  match m.occupied? n with
  | none => []
  | some (s, o) =>
    if !speculative barrier o.seq && s.kind = .beq && s.latency ≤ o.cycles then
      [⟨m.entry s o, o.j.value?, o.k.value?⟩]
    else []

/-- The branches that resolve at the turns of the stations at the given
positions. -/
def turnsResolutions (barrier : Option Int) (m : Machine) : List Nat → List Resolution
  | [] => []
  | n :: rest =>
    turnResolutions barrier m n ++
      match turn barrier m n with
      | .ok after => turnsResolutions barrier after rest
      | .error _ => []

/-- The branches that resolve in a cycle. -/
def stepResolutions (m : Machine) : List Resolution :=
  match m.advance.issue with
  | .ok m => turnsResolutions m.barrier m m.inFlight
  | .error _ => []

/-- What is told of each of so many cycles, one after the other. -/
def gather {α : Type} (tell : Machine → List α) : Nat → Machine → List α
  | 0, _ => []
  | n + 1, m => gather tell n m ++
    match m.steps n with
    | .ok m => tell m
    | .error _ => []

theorem gather_succ {α : Type} {tell : Machine → List α} (h : m.steps n = .ok m') :
    gather tell (n + 1) m = gather tell n m ++ tell m' := by
  rw [gather, h]

/-- The branches that resolve in so many cycles. -/
def resolutions (n : Nat) (m : Machine) : List Resolution := gather stepResolutions n m

/-- What happens in a cycle. -/
def stepTold (m : Machine) : List Happening := m.stepEvents.filterMap Event.happening?

/-- What happens in so many cycles. -/
def told (n : Nat) (m : Machine) : List Happening := gather stepTold n m

/-! ## An account of the branches -/

/-- **An account of the branches** over a part of a run: the branches that
resolve are written back, those with equal operands count as mispredicted, and
those that are issued count as issued. What is pending or is issued resolves,
is squashed or stays pending. -/
structure Settles (m : Machine) (rs : List Resolution) (ws : List Happening) (m' : Machine) :
    Prop where
  written : m'.writtenBranches = m.writtenBranches ++ rs.map Resolution.entry
  mispredictions : m'.mispredictions = m.mispredictions + rs.countP Resolution.equal
  issued : m'.branches = m.branches + ws.countP Happening.issuesBranch
  pending : m.pendingBranches + ws.countP Happening.issuesBranch =
    m'.pendingBranches + rs.length + ws.countP Happening.squashesBranch

namespace Settles

theorem trans (h : m.Settles rs ws m') (h' : m'.Settles rs' ws' m'') :
    m.Settles (rs ++ rs') (ws ++ ws') m'' where
  written := by rw [h'.written, h.written, List.map_append, List.append_assoc]
  mispredictions := by
    rw [h'.mispredictions, h.mispredictions, List.countP_append, Nat.add_assoc]
  issued := by rw [h'.issued, h.issued, List.countP_append, Nat.add_assoc]
  pending := by
    have := h.pending
    have := h'.pending
    simp only [List.countP_append, List.length_append]
    omega

/-- Where nothing is told of branches the counts stay as they are. -/
theorem of_spared (hwritten : m'.writtenBranches = m.writtenBranches)
    (hmis : m'.mispredictions = m.mispredictions) (hcount : m'.branches = m.branches)
    (hpending : m'.pendingBranches = m.pendingBranches) (hws : ∀ w ∈ ws, w.SparesBranches) :
    m.Settles [] ws m' := by
  have hissues : ws.countP Happening.issuesBranch = 0 :=
    List.countP_eq_zero.2 fun w hw => by rw [(hws w hw).1]; exact Bool.false_ne_true
  have hsquashes : ws.countP Happening.squashesBranch = 0 :=
    List.countP_eq_zero.2 fun w hw => by rw [(hws w hw).2]; exact Bool.false_ne_true
  exact ⟨by simpa using hwritten, by simpa using hmis, by rw [hissues, hcount, Nat.add_zero],
    by rw [hissues, hsquashes, hpending]; rfl⟩

/-- And where nothing is told at all. -/
theorem of_silent (hwritten : m'.writtenBranches = m.writtenBranches)
    (hmis : m'.mispredictions = m.mispredictions) (hcount : m'.branches = m.branches)
    (hpending : m'.pendingBranches = m.pendingBranches) : m.Settles [] [] m' :=
  of_spared hwritten hmis hcount hpending fun _ hw => absurd hw List.not_mem_nil

end Settles

/-! ## What the parts of a cycle do to the counts -/

/-- One station is replaced in a list. -/
theorem countP_set_add {l : List Station} (p : Station → Bool) (s₀ : Station)
    (hs : l[n]? = some s) :
    (l.set n s₀).countP p + (if p s then 1 else 0) = l.countP p + (if p s₀ then 1 else 0) := by
  obtain ⟨hn, rfl⟩ := List.getElem?_eq_some_iff.1 hs
  have hle : (if p l[n] then 1 else 0) ≤ l.countP p := by
    split
    · rename_i hp
      exact List.countP_pos_iff.2 ⟨l[n], List.getElem_mem hn, hp⟩
    · exact Nat.zero_le _
  rw [List.countP_set hn]
  omega

/-- A station is replaced by one that holds a branch if that did. -/
theorem pendingBranches_set (hs : m.stations[n]? = some s)
    (hset : m'.stations = m.stations.set n s₀) (hsame : s₀.holdsBranch = s.holdsBranch) :
    m'.pendingBranches = m.pendingBranches := by
  have h := countP_set_add Station.holdsBranch s₀ hs
  rw [hsame] at h
  rw [pendingBranches, hset]
  exact Nat.add_right_cancel h

theorem pendingBranches_congr
    (h : m'.stations.map Station.holdsBranch = m.stations.map Station.holdsBranch) :
    m'.pendingBranches = m.pendingBranches := by
  have := congrArg (List.countP id) h
  rw [List.countP_map, List.countP_map] at this
  exact this

theorem writtenBranches_concat (hwritten : m'.writtenBack = m.writtenBack ++ [x]) :
    m'.writtenBranches = m.writtenBranches ++ if x.instr.isBranch then [x] else [] := by
  rw [writtenBranches, hwritten, List.filter_append, writtenBranches]
  cases hx : x.instr.isBranch <;> simp [hx]

theorem writtenBranches_of_not_branch (hwritten : m'.writtenBack = m.writtenBack ++ [x])
    (hx : x.instr.isBranch = false) : m'.writtenBranches = m.writtenBranches := by
  rw [writtenBranches_concat hwritten, hx]
  exact List.append_nil _

theorem Coherent.isBranch_entry (hc : m.Coherent) (hold : m.Holds n s o) :
    (m.entry s o).instr.isBranch = decide (s.kind = .beq) := by
  rw [Bool.eq_iff_iff, decide_eq_true_eq]
  exact (hc.kind_eq_beq_iff hold).symm

/-- **A move that resolves no branch** leaves all counts alone. -/
theorem Move.spares (hm : Move m acts m') (hc : m.Coherent) (hno : ∀ q t, .resolve q t ∉ acts) :
    m'.writtenBranches = m.writtenBranches ∧ m'.mispredictions = m.mispredictions ∧
      m'.branches = m.branches ∧ m'.pendingBranches = m.pendingBranches := by
  have other {n s o} (hold : m.Holds n s o) (kind : s.kind ≠ .beq) :
      (m.entry s o).instr.isBranch = false := by
    rw [hc.isBranch_entry hold, decide_eq_false kind]
  -- Neither the station that is left nor the one that takes its place holds a branch.
  have left {n s s₀} {m' : Machine} (hs : m.stations[n]? = some s) (kind : s.kind ≠ .beq)
      (hset : m'.stations = m.stations.set n s₀) (hkind : s₀.kind = s.kind) :
      m'.pendingBranches = m.pendingBranches := by
    refine pendingBranches_set hs hset ?_
    rw [Station.holdsBranch_of_kind kind, Station.holdsBranch_of_kind (hkind ▸ kind)]
  cases hm with
  | @address n s o _ _ hold path kind =>
    have kind : s.kind ≠ .beq := by
      intro heq
      rw [heq] at kind
      cases kind
    exact ⟨rfl, rfl, rfl, left hold.1 kind rfl rfl⟩
  | load hold path kind =>
    exact ⟨rfl, rfl, rfl, left hold.1 (by rw [kind]; decide) rfl rfl⟩
  | @store n s o _ _ hold path kind =>
    have kind : s.kind ≠ .beq := by rw [kind]; decide
    exact ⟨writtenBranches_of_not_branch rfl (other hold kind), rfl, rfl, left hold.1 kind rfl rfl⟩
  | @compute n s o op _ _ _ _ _ hold path hinstr =>
    have kind : s.kind ≠ .beq := by
      intro kind
      have hbranch := (hc.kind_eq_beq_iff hold).1 kind
      rw [hinstr] at hbranch
      cases op <;> cases hbranch
    exact ⟨rfl, rfl, rfl, left hold.1 kind rfl rfl⟩
  | fall => exact absurd List.mem_cons_self (hno _ _)
  | branch => exact absurd List.mem_cons_self (hno _ _)
  | @call n s o _ hold path kind =>
    have kind : s.kind ≠ .beq := by rw [kind]; decide
    exact ⟨writtenBranches_of_not_branch rfl (other hold kind), rfl, rfl, left hold.1 kind rfl rfl⟩
  | @ret n s o _ hold path kind =>
    have kind : s.kind ≠ .beq := by rw [kind]; decide
    exact ⟨writtenBranches_of_not_branch rfl (other hold kind), rfl, rfl,
      left hold.1 kind (List.set_set ..) rfl⟩

theorem Moves.spares (hm : Moves m acts m') (hc : m.Coherent)
    (hno : ∀ q t, .resolve q t ∉ acts) :
    m'.writtenBranches = m.writtenBranches ∧ m'.mispredictions = m.mispredictions ∧
      m'.branches = m.branches ∧ m'.pendingBranches = m.pendingBranches := by
  induction hm with
  | refl => exact ⟨rfl, rfl, rfl, rfl⟩
  | cons first rest ih =>
    obtain ⟨hwritten, hmis, hcount, hpending⟩ :=
      first.spares hc fun q t hmem => hno q t (List.mem_append_left _ hmem)
    obtain ⟨hwritten', hmis', hcount', hpending'⟩ :=
      ih (first.coherent hc) fun q t hmem => hno q t (List.mem_append_right _ hmem)
    exact ⟨hwritten'.trans hwritten, hmis'.trans hmis, hcount'.trans hcount,
      hpending'.trans hpending⟩

/-! ## The turn of a branch -/

/-- The branches that a taken branch squashes are those that are told of. -/
theorem Coherent.countP_squashEvents (hc : m.Coherent) (q : Int) :
    (m.squashEvents q).countP Happening.squashesBranch =
      m.stations.countP fun s => s.holdsBranch && s.occupant.any fun o => q < o.seq := by
  rw [squashEvents, List.countP_filterMap]
  refine List.countP_congr fun s hs => ?_
  rcases ho : s.occupant with - | o
  · simp
  obtain ⟨n, hold⟩ := exists_holds_of_mem hs ho
  have hkind : s.holdsBranch = o.instr.isBranch := by
    rw [Station.holdsBranch, Station.busy, ho, Option.isSome_some, Bool.and_true,
      ← hc.isBranch_entry hold]
    rfl
  by_cases hlt : q < o.seq <;> simp [hlt, hkind, Happening.squashesBranch]

/-- What a taken branch squashes is no longer pending. -/
theorem countP_map_squash (l : List Station) (q : Int) :
    l.countP Station.holdsBranch = (l.map (Station.squash q)).countP Station.holdsBranch +
      l.countP fun s => s.holdsBranch && s.occupant.any fun o => q < o.seq := by
  have hsquash : Station.holdsBranch ∘ Station.squash q =
      fun s => s.holdsBranch && !s.occupant.any fun o => q < o.seq := by
    funext s
    rcases hany : s.occupant.any fun o => q < o.seq <;>
      simp [Station.squash, hany, Station.clear, Station.holdsBranch, Station.busy]
  rw [List.countP_map, hsquash, Nat.add_comm,
    List.countP_eq_countP_filter_add l _ fun s => s.occupant.any fun o => q < o.seq,
    List.countP_filter, List.countP_filter]

/-- What is told of a branch that is taken. -/
theorem branchEvents_of_taken (htaken : taken o) (h : m.resolveBranch n s o = .ok m') :
    ∃ a dropped, m.branchEvents s o = m.squashEvents o.seq ++ [.taken s.name a dropped] := by
  rw [branchEvents, if_pos htaken]
  rcases htake : m.takeBranch s o with t | after
  · rw [resolveBranch, if_pos htaken, htake] at h
    cases h
  · exact ⟨_, _, rfl⟩

/-- **A branch that resolves settles its account.** If it is taken, the
branches after it are squashed. -/
theorem Coherent.settles_resolveBranch (hc : m.Coherent) (hold : m.Holds n s o)
    (kind : s.kind = .beq) (h : m.resolveBranch n s o = .ok m') :
    m.Settles [⟨m.entry s o, o.j.value?, o.k.value?⟩] (m.branchEvents s o) m' := by
  have hwritten {m' : Machine} (hm' : m'.writtenBack = m.writtenBack ++ [m.entry s o]) :
      m'.writtenBranches = m.writtenBranches ++ [m.entry s o] := by
    rw [writtenBranches_concat hm', hc.isBranch_entry hold, decide_eq_true kind]
    rfl
  have hholds : s.holdsBranch = true := by
    rw [Station.holdsBranch, Station.busy, decide_eq_true kind, hold.2]
    rfl
  have hclear : s.clear.holdsBranch = false := by
    rw [Station.holdsBranch, Station.busy, Station.clear]
    exact Bool.and_false _
  have hequal : Resolution.equal ⟨m.entry s o, o.j.value?, o.k.value?⟩ = taken o := rfl
  rcases hc.resolveBranch_eq hold kind with
    ⟨hfall, h'⟩ | ⟨offset, saved, e, htaken, -, -, -, -, ⟨target, -, h'⟩ | ⟨-, h'⟩⟩
  · have hevents : m.branchEvents s o = [.notTaken s.name m.pc] := by
      rw [branchEvents, hfall]
      rfl
    rw [h'] at h
    cases h
    have hset := countP_set_add Station.holdsBranch s.clear hold.1
    rw [hholds, hclear] at hset
    rw [hevents]
    refine ⟨hwritten rfl, ?_, rfl, hset.symm⟩
    rw [List.countP_singleton, hequal, hfall]
    rfl
  · obtain ⟨a, dropped, hevents⟩ := branchEvents_of_taken htaken h
    rw [h'] at h
    cases h
    -- The branch itself is not squashed, and then it leaves.
    have hself : (m.redirected o target m.issued saved).Holds n s o :=
      holds_redirected.2 ⟨hold, Int.le_refl _⟩
    have hkept : (m.stations.map (Station.squash o.seq))[n]? = some s := hself.1
    have hset := countP_set_add Station.holdsBranch s.clear hkept
    rw [hholds, hclear] at hset
    have hsplit := countP_map_squash m.stations o.seq
    rw [← hc.countP_squashEvents] at hsplit
    have hissues : (m.squashEvents o.seq).countP Happening.issuesBranch = 0 := by
      refine List.countP_eq_zero.2 fun w hw => ?_
      obtain ⟨s', -, hs'⟩ := List.mem_filterMap.1 hw
      obtain ⟨o', -, ho'⟩ := Option.bind_eq_some_iff.1 hs'
      split at ho' <;> cases ho'
      exact Bool.false_ne_true
    rw [hevents]
    refine ⟨hwritten rfl, ?_, ?_, ?_⟩
    · rw [List.countP_singleton, hequal, htaken]
      rfl
    · rw [List.countP_append, hissues]
      rfl
    · change m.stations.countP Station.holdsBranch + _ =
        ((m.stations.map (Station.squash o.seq)).set n s.clear).countP Station.holdsBranch + 1 + _
      rw [List.countP_append, List.countP_append, hissues, hsplit]
      simp only [List.countP_singleton, Happening.issuesBranch, Happening.squashesBranch] at hset ⊢
      simp only [if_true, Bool.false_eq_true, if_false] at hset ⊢
      omega
  · rw [h'] at h
    cases h

/-! ## The other turns -/

theorem sparesBranches_of_mem_addressEvents (h : w ∈ m.addressEvents n) : w.SparesBranches := by
  rw [addressEvents] at h
  repeat' split at h
  all_goals
    first
    | exact absurd h List.not_mem_nil
    | exact .of_mem_singleton ⟨rfl, rfl⟩ h

theorem sparesBranches_of_mem_accessEvents (h : w ∈ m.accessEvents n) : w.SparesBranches := by
  rw [accessEvents] at h
  repeat' split at h
  all_goals
    first
    | exact absurd h List.not_mem_nil
    | exact .of_mem_singleton ⟨rfl, rfl⟩ h

theorem sparesBranches_of_mem_jumpEvents (h : w ∈ m.jumpEvents n s o) : w.SparesBranches := by
  rw [jumpEvents] at h
  split at h
  · exact .of_mem_singleton ⟨rfl, rfl⟩ h
  · cases h

theorem sparesBranches_of_mem_computeEvents (h : w ∈ m.computeEvents n s o) :
    w.SparesBranches := by
  rw [computeEvents] at h
  repeat' split at h
  all_goals
    first
    | exact absurd h List.not_mem_nil
    | exact .of_mem_singleton ⟨rfl, rfl⟩ h

theorem not_mem_accessActs {q : Int} {t : Bool} : .resolve q t ∉ m.accessActs n := by
  intro h
  rw [accessActs] at h
  repeat' split at h
  all_goals
    first
    | exact absurd h List.not_mem_nil
    | cases List.mem_singleton.1 h

/-- **A turn is that of a branch that resolves, or it is not**, and then it has
nothing to do with the counts. -/
theorem turn_resolves_or_spares (h : turn barrier m n = .ok m') :
    (∃ s o, m.Holds n s o ∧ s.kind = .beq ∧ speculative barrier o.seq = false ∧
        s.latency ≤ o.cycles ∧
        turnResolutions barrier m n = [⟨m.entry s o, o.j.value?, o.k.value?⟩] ∧
        turnEvents barrier m n = m.branchEvents s o ∧ m.resolveBranch n s o = .ok m') ∨
      (turnResolutions barrier m n = [] ∧ (∀ w ∈ turnEvents barrier m n, w.SparesBranches) ∧
        ∀ q t, .resolve q t ∉ turnActs barrier m n) := by
  rw [turn] at h
  rw [turnResolutions, turnEvents, turnActs]
  rcases hocc : m.occupied? n with - | ⟨s, o⟩
  · exact .inr ⟨rfl, by simp, by simp⟩
  have hold := occupied?_eq_some_iff.1 hocc
  rw [hocc] at h
  dsimp only at h ⊢
  rcases hspec : speculative barrier o.seq with - | -
  swap
  · exact .inr ⟨rfl, by simp, by simp⟩
  rw [hspec, if_neg Bool.false_ne_true] at h
  simp only [Bool.not_false, Bool.true_and, Bool.false_eq_true, if_false]
  rcases hk : s.kind with _ | _ | _ | _ | _ | _ | _ <;> simp only [hk] at h ⊢
  case load | store =>
    refine .inr ⟨by simp, fun w hw => ?_, fun q t hmem => ?_⟩
    · split at hw
      · rcases List.mem_append.1 hw with hw | hw
        · exact sparesBranches_of_mem_addressEvents hw
        · exact sparesBranches_of_mem_accessEvents hw
      · cases hw
    · rw [memoryActs] at hmem
      split at hmem
      · exact not_mem_accessActs hmem
      · cases hmem
  case beq =>
    by_cases elapsed : s.latency ≤ o.cycles
    · rw [if_pos elapsed] at h
      exact .inl ⟨s, o, hold, hk, hspec, elapsed, by simp [elapsed], if_pos elapsed, h⟩
    · exact .inr ⟨by simp [elapsed], by simp [elapsed], by simp [elapsed]⟩
  case callRet =>
    refine .inr ⟨by simp, fun w hw => ?_, by simp⟩
    split at hw
    · exact sparesBranches_of_mem_jumpEvents hw
    · cases hw
  all_goals
    refine .inr ⟨by simp, fun w hw => ?_, by simp⟩
    split at hw
    · exact sparesBranches_of_mem_computeEvents hw
    · cases hw

/-- **Each turn settles its account.** -/
theorem Coherent.settles_turn (hc : m.Coherent)
    (hb : ∀ q, speculative barrier q = false → m.OnPath q) (h : turn barrier m n = .ok m') :
    m.Settles (turnResolutions barrier m n) (turnEvents barrier m n) m' := by
  rcases turn_resolves_or_spares h with
    ⟨s, o, hold, kind, -, -, hres, hevents, hbranch⟩ | ⟨hres, hevents, hacts⟩
  · rw [hres, hevents]
    exact hc.settles_resolveBranch hold kind hbranch
  · obtain ⟨hwritten, hmis, hcount, hpending⟩ := (turn_moves hb h).spares hc hacts
    rw [hres]
    exact .of_spared hwritten hmis hcount hpending hevents

/-- And so do turns one after the other. -/
theorem Coherent.settles_turns (hc : m.Coherent)
    (hb : ∀ q, speculative barrier q = false → m.OnPath q)
    (h : ns.foldlM (turn barrier) m = .ok m') :
    m.Settles (turnsResolutions barrier m ns) (turnsEvents barrier m ns) m' := by
  induction ns generalizing m with
  | nil =>
    cases h
    exact .of_silent rfl rfl rfl rfl
  | cons n ns ih =>
    rw [List.foldlM_cons] at h
    rw [turnsResolutions, turnsEvents]
    rcases hturn : turn barrier m n with t | m₁ <;> rw [hturn] at h
    · cases h
    have hmoves := turn_moves hb hturn
    exact (hc.settles_turn hb hturn).trans
      (ih (hmoves.coherent hc) (fun q hq => hmoves.onPath (hb q hq)) h)

/-! ## A cycle -/

theorem settles_advance (m : Machine) : m.Settles [] [] m.advance := by
  refine .of_silent rfl rfl rfl (pendingBranches_congr ?_)
  rw [advance, List.map_map]
  refine List.map_congr_left fun s _ => ?_
  rw [Function.comp_apply, Station.holdsBranch, Station.holdsBranch, s.advance_toSlot.1, Station.busy,
    Station.busy, Station.advance_occupant, Option.isSome_map]

theorem sparesBranches_of_mem_fetchEvents (h : w ∈ m.fetchEvents) : w.SparesBranches := by
  rw [fetchEvents] at h
  split at h
  · exact .of_mem_singleton ⟨rfl, rfl⟩ h
  · cases h

/-- **The Issue stage settles its account.** A branch that is issued is pending
and counts. -/
theorem settles_issue (h : m.issue = .ok m') : m.Settles [] m.issueEvents m' := by
  rcases issue_cases m with ⟨i, kind, s, n, hjump, hfetch, hfree, hissue⟩ | ⟨hissue, hwhy⟩ <;>
    rw [hissue] at h <;> cases h
  · have hevents : m.issueEvents = [.issued i m.pc s.name] := by
      rw [issueEvents, hjump, hfetch]
      dsimp only
      rw [hfree]
      rfl
    obtain ⟨hs, rfl, hnone⟩ := freeStation?_eq_some hfree
    have hbefore : s.holdsBranch = false := by
      rw [Station.holdsBranch, Station.busy, hnone]
      exact Bool.and_false _
    have hafter : (m.filled i s).holdsBranch = i.isBranch := by
      have hunit := (fetch_eq_instruction hfetch).1
      rw [Bool.eq_iff_iff, ← Instruction.unit?_eq_beq_iff, hunit, Option.some.injEq]
      simp only [Station.holdsBranch, Station.busy, filled, Option.isSome_some, Bool.and_true]
      exact decide_eq_true_iff
    have hset := countP_set_add Station.holdsBranch (m.filled i s) hs
    rw [hbefore, hafter] at hset
    rw [hevents]
    refine ⟨(List.append_nil _).symm, rfl, ?_, ?_⟩
    · rw [List.countP_singleton]
      rfl
    · rw [List.countP_singleton, List.countP_singleton]
      exact hset.symm
  · refine .of_spared rfl rfl rfl rfl fun w hw => ?_
    rw [issueEvents] at hw
    split at hw
    · exact .of_mem_singleton ⟨rfl, rfl⟩ hw
    rename_i hjump
    rcases hwhy with hpending | hnothing | ⟨i, kind, hfetch, hfree⟩
    · exact absurd hpending hjump
    · split at hw
      · rename_i hfetch
        exact absurd hfetch (hnothing _ _)
      · exact sparesBranches_of_mem_fetchEvents hw
    · rw [hfetch] at hw
      dsimp only at hw
      rw [hfree] at hw
      exact .of_mem_singleton ⟨rfl, rfl⟩ hw

/-- Who sends is no branch, and who hears stays what it is. -/
theorem Coherent.settles_writeBack (hc : m.Coherent) (h : m.writeBack = .ok m') :
    m.Settles [] m.writeBackEvents m' := by
  have hevents : ∀ w ∈ m.writeBackEvents, w.SparesBranches := by
    intro w hw
    rw [writeBackEvents] at hw
    split at hw
    · cases hw
    · rcases List.mem_cons.1 hw with rfl | hw
      · exact ⟨rfl, rfl⟩
      · obtain ⟨s, -, rfl⟩ := List.mem_map.1 hw
        exact ⟨rfl, rfl⟩
  rcases writeBack_cases h with ⟨-, rfl⟩ | ⟨x, hx, rfl⟩
  · exact .of_spared rfl rfl rfl rfl hevents
  · obtain ⟨hold, -⟩ := nextSender?_eq_some hx
    have kind := (kind_of_nextSender? hx).1
    have hinstr : (m.entry x.station x.occupant).instr.isBranch = false := by
      rw [hc.isBranch_entry hold, decide_eq_false kind]
    refine .of_spared (writtenBranches_of_not_branch rfl hinstr) rfl rfl
      (pendingBranches_congr ?_) hevents
    refine List.ext_getElem? fun k => ?_
    rw [Machine.sent, deliver, List.getElem?_map, List.getElem?_mapIdx, List.getElem?_map]
    rcases hs : m.stations[k]? with - | s
    · rfl
    · simp only [Option.map_some, Option.some.injEq]
      split
      · rename_i hk
        obtain rfl := Option.some.inj (hs.symm.trans (hk ▸ hold.1))
        rw [Station.holdsBranch_of_kind kind, Station.holdsBranch_of_kind (s := Station.clear _) kind]
      · change (s.told x.station.tag x.value).holdsBranch = _
        rw [Station.holdsBranch, Station.holdsBranch, (s.told_toSlot ..).1, Station.busy, Station.busy,
          Station.told_occupant, Option.isSome_map]

/-- **Each cycle settles its account.** -/
theorem Coherent.settles_step (hc : m.Coherent) (h : m.step = .ok m') :
    m.Settles m.stepResolutions m.stepTold m' := by
  obtain ⟨m₁, m₂, m₃, h₁, h₂, h₃, rfl, -⟩ := step_eq_ok h
  have hc₁ := hc.advance.issue h₁
  have hc₂ := (execute_moves h₂).coherent hc₁
  have hres : m.stepResolutions = turnsResolutions m₁.barrier m₁ m₁.inFlight := by
    rw [stepResolutions, h₁]
  have htold : m.stepTold = m.advance.issueEvents ++ (m₁.executeEvents ++ m₂.writeBackEvents) := by
    rw [stepTold, stepEvents]
    simp only [andThen, h₁, h₂, List.filterMap_map, Function.comp_def, Event.happening?,
      List.filterMap_some]
  have hturns := hc₁.settles_turns (fun _ hq => speculative_barrier_eq_false_iff.1 hq) h₂
  have hclock : m₃.Settles [] [] { m₃ with cycle := m₃.cycle + 1 } :=
    .of_silent rfl rfl rfl rfl
  have hall := (settles_advance m).trans
    ((settles_issue h₁).trans (hturns.trans ((hc₂.settles_writeBack h₃).trans hclock)))
  simp only [List.nil_append, List.append_nil] at hall
  rw [hres, htold]
  exact hall

/-! ## Which branch resolves -/

/-- A branch that resolves in a stage is in flight at its turn. -/
theorem mem_turnsResolutions (hb : ∀ q, speculative barrier q = false → m.OnPath q)
    (h : ns.foldlM (turn barrier) m = .ok m') (hr : r ∈ turnsResolutions barrier m ns) :
    ∃ z acts n s o, Moves m acts z ∧ z.Holds n s o ∧ s.kind = .beq ∧
      speculative barrier o.seq = false ∧ s.latency ≤ o.cycles ∧
      r = ⟨z.entry s o, o.j.value?, o.k.value?⟩ := by
  induction ns generalizing m with
  | nil => cases hr
  | cons n ns ih =>
    rw [List.foldlM_cons] at h
    rw [turnsResolutions] at hr
    rcases hturn : turn barrier m n with t | m₁ <;> rw [hturn] at h hr
    · cases h
    have hmoves := turn_moves hb hturn
    rcases List.mem_append.1 hr with hr | hr
    · rcases turn_resolves_or_spares hturn with
        ⟨s, o, hold, kind, certain, elapsed, hres, -, -⟩ | ⟨hres, -, -⟩ <;> rw [hres] at hr
      · exact ⟨m, [], n, s, o, .refl m, hold, kind, certain, elapsed, List.mem_singleton.1 hr⟩
      · cases hr
    · obtain ⟨z, acts, k, s, o, hz, hrest⟩ := ih (fun q hq => hmoves.onPath (hb q hq)) h hr
      exact ⟨z, _, k, s, o, hmoves.trans hz, hrest⟩

/-- **The branch that resolves is the oldest one** when the stage begins. It has
both its operands. -/
theorem Coherent.oldest_of_resolves (hc : m.Coherent) (h : m.execute = .ok m')
    (hr : r ∈ turnsResolutions m.barrier m m.inFlight) :
    (∃ s o, m.OldestBranch s o ∧ r.entry.seq = o.seq) ∧ r.entry.cycle = m.cycle ∧
      ∃ a b : Word, r.left = some a.toInt ∧ r.right = some b.toInt := by
  have hb : ∀ q, speculative m.barrier q = false → m.OnPath q :=
    fun _ => speculative_barrier_eq_false_iff.1
  obtain ⟨z, acts, n, s, o, hz, hold, kind, certain, elapsed, rfl⟩ := mem_turnsResolutions hb h hr
  have hcz := hz.coherent hc
  obtain ⟨s₀, o₀, hold₀, hslot, -, hseq, -⟩ := hz.origin hold
  obtain ⟨rA, rB, offset, hi, -⟩ := (hcz.fits n s o hold).exists_branch kind
  obtain ⟨hj, hk⟩ := hcz.ready hold elapsed
  obtain ⟨a, ha⟩ := hcz.exists_j hold hj (r := rA) (by rw [hi]; rfl)
  obtain ⟨b, hb'⟩ := hcz.exists_k hold hk (r := rB) (by rw [hi]; rfl)
  exact ⟨⟨s₀, o₀, ⟨⟨n, hold₀⟩, by rw [← kind, hslot], hseq ▸ hb _ certain⟩, hseq⟩, hz.cycle, a, b,
    ha, hb'⟩

/-- **At most one branch resolves in a cycle**, and those written back before
were issued before it, and in earlier cycles. -/
theorem Reachable.resolutions_of_step (h : Reachable m) (hm : m.step = .ok m') :
    (∀ r ∈ m.stepResolutions, (∃ a b : Word, r.left = some a.toInt ∧ r.right = some b.toInt) ∧
        ∀ x ∈ m.writtenBranches, x.seq < r.entry.seq ∧ x.cycle < r.entry.cycle) ∧
      m.stepResolutions.length ≤ 1 := by
  obtain ⟨m₁, m₂, m₃, h₁, h₂, h₃, rfl, -⟩ := step_eq_ok hm
  have hc₁ := h.coherent.advance.issue h₁
  have hr₁ := h.recorded.advance.issue h.coherent.advance h₁
  have hres : m.stepResolutions = turnsResolutions m₁.barrier m₁ m₁.inFlight := by
    rw [stepResolutions, h₁]
  have hissue : m₁.writtenBack = m.writtenBack ∧ m₁.cycle = m.cycle := by
    rcases issue_eq_ok h₁ with ⟨i, s, n, -, -, -, -, rfl⟩ | rfl <;> exact ⟨rfl, rfl⟩
  rw [hres]
  refine ⟨fun r hr => ?_, ?_⟩
  · obtain ⟨⟨s, o, holdest, hseq⟩, hcycle, hvalues⟩ := hc₁.oldest_of_resolves h₂ hr
    refine ⟨hvalues, fun x hx => ?_⟩
    have hx := (List.mem_filter.1 hx).1
    constructor
    · obtain ⟨y, hy, hxy⟩ := hr₁.executed x (hissue.1 ▸ hx)
      rw [Entry.seq_eq_of_untimed hxy, hseq]
      exact hr₁.lt_of_oldestBranch hc₁ holdest hy
    · rw [hcycle, hissue.2]
      exact h.clocked.written x hx
  · -- Two of them would be one branch, written back twice.
    have hsettles := hc₁.settles_turns (fun _ hq => speculative_barrier_eq_false_iff.1 hq) h₂
    have honce := (hr₁.moves hc₁ (execute_moves h₂)).writtenOnce
    have hsub : ((turnsResolutions m₁.barrier m₁ m₁.inFlight).map Resolution.entry).Sublist
        m₂.writtenBranches := by
      rw [hsettles.written]
      exact List.sublist_append_right ..
    have hnodup := honce.sublist ((hsub.trans List.filter_sublist).map Entry.seq)
    rcases hl : turnsResolutions m₁.barrier m₁ m₁.inFlight with - | ⟨a, - | ⟨b, l⟩⟩
    · exact Nat.zero_le _
    · exact Nat.le_refl _
    · exfalso
      have seq_of (r) (hr : r ∈ a :: b :: l) : m₁.barrier = some r.entry.seq := by
        obtain ⟨⟨s, o, ⟨⟨n, hold⟩, kind, hpath⟩, hseq⟩, -⟩ := hc₁.oldest_of_resolves h₂ (hl ▸ hr)
        rw [hseq]
        exact barrier_eq_some_iff.2 ⟨⟨n, s, o, hold, kind, rfl⟩, hpath⟩
      have hsame : a.entry.seq = b.entry.seq :=
        Option.some.inj ((seq_of a (by simp)).symm.trans (seq_of b (by simp)))
      rw [hl] at hnodup
      simp [hsame] at hnodup

/-! ## A run -/

/-- Nothing has been counted in a machine that has been configured only. -/
theorem Configured.uncounted (h : Configured m) : m.branches = 0 ∧ m.mispredictions = 0 := by
  induction h with
  | made h =>
    exact ofTable_induction (P := fun m => m.branches = 0 ∧ m.mispredictions = 0)
      (fun _ _ h _ => h) ⟨rfl, rfl⟩ h
  | call _ call ih =>
    rcases call.added_or_loads with ⟨slot, -, rfl⟩ | ⟨_, _, _, _, rfl⟩ <;> exact ih

/-- And there is no branch in it. -/
theorem Configured.branchless (h : Configured m) :
    m.writtenBranches = [] ∧ m.pendingBranches = 0 := by
  constructor
  · rw [writtenBranches, h.idle.2.1]
    rfl
  · refine List.countP_eq_zero.2 fun s hs => ?_
    rw [Station.holdsBranch, Station.busy, (h.fresh.free s hs).1, Option.isSome_none, Bool.and_false]
    exact Bool.false_ne_true

/-- **Each run settles its account.** -/
theorem Reachable.settles_steps (h : Reachable m) (hm : m.steps n = .ok m') :
    m.Settles (resolutions n m) (told n m) m' := by
  induction n generalizing m' with
  | zero =>
    cases hm
    exact .of_silent rfl rfl rfl rfl
  | succ n ih =>
    obtain ⟨m₁, h₁, hstep⟩ := times_succ_eq_ok.1 hm
    rw [resolutions, told, gather_succ h₁, gather_succ h₁]
    exact (ih h₁).trans ((h.steps h₁).coherent.settles_step hstep)

/-- **What the counts of branches are worth** at the end of so many cycles. -/
structure CountsBranches (start : Machine) (n : Nat) (m : Machine) : Prop where
  /-- Each branch that was issued counts, and no other. -/
  issued : m.branches = (told n start).countP Happening.issuesBranch
  /-- A branch that was issued has been written back, is in a station or has
  been squashed. -/
  divided : m.branches = m.writtenBranches.length + m.pendingBranches +
    (told n start).countP Happening.squashesBranch
  /-- What resolves is written back. -/
  written : m.writtenBranches = (resolutions n start).map Resolution.entry
  /-- Both operands are there when a branch resolves. -/
  operands : ∀ r ∈ resolutions n start,
    ∃ a b : Word, r.left = some a.toInt ∧ r.right = some b.toInt
  /-- The mispredictions are the branches whose operands were equal. -/
  mispredictions : m.mispredictions = (resolutions n start).countP Resolution.equal
  /-- Branches are written back in the order of issue, one a cycle. -/
  inOrder : m.writtenBranches.Pairwise fun x y => x.seq < y.seq ∧ x.cycle < y.cycle
  /-- No more are mispredicted than are issued. -/
  bounded : m.mispredictions ≤ m.branches
  rate : 0 ≤ m.mispredictionRate ∧ m.mispredictionRate ≤ 1
  /-- The rate that is reported has the same bounds, and is the rate but for its
  rounding. -/
  rounded : 0 ≤ m.roundedRate ∧ m.roundedRate ≤ 1 ∧
    |m.roundedRate - m.mispredictionRate| ≤ 1 / 2 ^ 53

/-- A run adds to the branches that have resolved one cycle at a time. -/
theorem Configured.resolutions_of_steps (h : Configured m) (hm : m.steps n = .ok m') :
    (∀ r ∈ resolutions n m, ∃ a b : Word, r.left = some a.toInt ∧ r.right = some b.toInt) ∧
      m'.writtenBranches.Pairwise fun x y => x.seq < y.seq ∧ x.cycle < y.cycle := by
  induction n generalizing m' with
  | zero =>
    cases hm
    exact ⟨fun _ hr => absurd hr List.not_mem_nil, h.branchless.1 ▸ List.Pairwise.nil⟩
  | succ n ih =>
    obtain ⟨m₁, h₁, hstep⟩ := times_succ_eq_ok.1 hm
    obtain ⟨hvalues, hpairs⟩ := ih h₁
    have hreach := h.reachable.steps h₁
    obtain ⟨hnew, hlen⟩ := hreach.resolutions_of_step hstep
    constructor
    · intro r hr
      rw [resolutions, gather_succ h₁] at hr
      rcases List.mem_append.1 hr with hr | hr
      · exact hvalues r hr
      · exact (hnew r hr).1
    · rw [(hreach.coherent.settles_step hstep).written]
      refine List.pairwise_append.2 ⟨hpairs, ?_, fun x hx y hy => ?_⟩
      · rcases hl : m₁.stepResolutions with - | ⟨a, - | ⟨b, l⟩⟩
        · exact List.Pairwise.nil
        · exact List.pairwise_singleton _ _
        · rw [hl] at hlen
          simp at hlen
      · obtain ⟨r, hr, rfl⟩ := List.mem_map.1 hy
        exact (hnew r hr).2 x hx

/-- **The counts of branches are exact.** After so many cycles of a machine that
has been configured, the branches it counts are those that were issued, the
squashed ones included, and the mispredictions are those whose operands were
equal when they resolved. -/
theorem branches_counted (hm : Configured m) (h : m.steps n = .ok m') :
    m.CountsBranches n m' := by
  have hsettles := hm.reachable.settles_steps h
  obtain ⟨hbranches, hmis⟩ := hm.uncounted
  obtain ⟨hwritten, hpending⟩ := hm.branchless
  obtain ⟨hvalues, hpairs⟩ := hm.resolutions_of_steps h
  have written : m'.writtenBranches = (resolutions n m).map Resolution.entry := by
    rw [hsettles.written, hwritten, List.nil_append]
  have mispredictions : m'.mispredictions = (resolutions n m).countP Resolution.equal := by
    rw [hsettles.mispredictions, hmis, Nat.zero_add]
  have issued : m'.branches = (told n m).countP Happening.issuesBranch := by
    rw [hsettles.issued, hbranches, Nat.zero_add]
  have divided : m'.branches = m'.writtenBranches.length + m'.pendingBranches +
      (told n m).countP Happening.squashesBranch := by
    have hsum := hsettles.pending
    rw [written, List.length_map]
    omega
  have bounded : m'.mispredictions ≤ m'.branches := by
    have hle : m'.mispredictions ≤ m'.writtenBranches.length := by
      rw [mispredictions, written, List.length_map]
      exact List.countP_le_length
    omega
  have hrate : 0 ≤ m'.mispredictionRate := div_nonneg (Nat.cast_nonneg _) (Nat.cast_nonneg _)
  have hone : m'.mispredictionRate ≤ 1 :=
    div_le_one_of_le₀ (Nat.cast_le.2 bounded) (Nat.cast_nonneg _)
  exact ⟨issued, divided, written, hvalues, mispredictions, hpairs, bounded, ⟨hrate, hone⟩,
    Text.binaryFraction_nonneg _, Text.binaryFraction_le_one hrate hone,
    Text.abs_binaryFraction_sub_le hrate hone⟩

/-! ## A run that counts

Three branches: the first falls through, the second is taken, and the third is
issued in the cycle in which the second squashes it. -/

/-- Two stations for branches. -/
def branchTable : PoolTable := [("BEQ", { stationCount := some 2, latency := some 2 })]

/-- The pool of these stations. -/
def branchPool : Machine :=
  (ofTable branchTable true false).toOption.getD
    { offsetsChecked := true, relativeCalls := false }

theorem configured_branchPool : Configured branchPool :=
  @Configured.made branchTable true false branchPool rfl

/-- The three branches. -/
def squashingSample : Machine :=
  left (branchPool.loadProgram [.beq 1 0 0, .beq 0 0 2, .beq 0 0 1] 0 [] [(1, 1)])

/-- Three are issued, two are written back, one of them was taken. -/
theorem branches_counted_squashingSample :
    ∃ m, squashingSample.steps 4 = .ok m ∧ m.branches = 3 ∧ m.mispredictions = 1 ∧
      m.writtenBranches.length = 2 ∧ m.pendingBranches = 0 ∧
      squashingSample.CountsBranches 4 m := by
  obtain ⟨m, hm, h⟩ := exists_of_any (x := squashingSample.steps 4)
    (p := fun m => m.branches = 3 ∧ m.mispredictions = 1 ∧ m.writtenBranches.length = 2 ∧
      m.pendingBranches = 0) (by decide +kernel)
  obtain ⟨hbranches, hmis, hwritten, hpending⟩ := of_decide_eq_true h
  exact ⟨m, hm, hbranches, hmis, hwritten, hpending,
    branches_counted (.call configured_branchPool (.loadProgram ..)) hm⟩

end Machine

end OutOfOrder
