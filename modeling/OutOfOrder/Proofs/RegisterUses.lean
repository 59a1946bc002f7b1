import OutOfOrder.Proofs.MemoryWrites
import OutOfOrder.Proofs.Ranges
/-!
# The register file under any use

Callers may number registers as they like and put back any saved status table.
Of what they do only one thing matters for all that is read later: nothing
reaches register 0, neither a value nor a tag (`ZeroFixed`). That values are
words is in their type, and what a broadcast changes follows from the status it
meets, whoever put it there.

A load is its writes one by one (`writePairs_numbered`). None of these can be
refused once the number of values has been looked at, so that a load that fails
has written nothing.
-/

namespace OutOfOrder

/-- **What is done with the register file.** It is loaded, a register is
written, made to wait or committed, the status table is saved or put back, and
a result is broadcast. -/
inductive RegisterUse where
  | load (values : List Int)
  | write (i v : Int)
  | rename (i : Int) (t : Option Tag)
  | commit (i : Int)
  | checkpoint
  | restore (saved : List (Option Tag))
  | broadcast (tag : Tag) (v : Int) (through : List Int)

/-- **A use is sensible** if it is of registers that there are, for a load and
a saved table of no more than there are and of exactly as many, and if a
register is to wait for a station. Register 0 never waits, so for it any tag
will do. -/
def RegisterUse.Sensible : RegisterUse → Prop
  | load values => values.length ≤ 8
  | write i _ => 0 ≤ i ∧ i < 8
  | rename i t => (0 ≤ i ∧ i < 8) ∧ (i = 0 ∨ ∃ s, t = some s ∧ 0 ≤ s)
  | commit i => 0 ≤ i ∧ i < 8
  | checkpoint => True
  | restore saved => saved.length = 8
  | broadcast _ _ _ => True

namespace Registers

variable {f f' : Registers} {r d : Reg} {i v : Int} {t : Option Tag} {values : List Int}
variable {x : RegisterUse}

/-- What comes of a use. -/
def attempt (f : Registers) : RegisterUse → Except Fault Registers
  | .load values => f.load values
  | .write i v => f.write i v
  | .rename i t => f.writeTag i t
  | .commit i => f.clearTag i
  | .checkpoint => .ok f
  | .restore saved => f.restoreList saved
  | .broadcast tag v through => .ok (f.broadcast tag v through)

/-- The registers after a use. One that is refused leaves them as they were. -/
def after (f : Registers) (x : RegisterUse) : Registers :=
  match f.attempt x with
  | .ok f' => f'
  | .error _ => f

/-- The registers after uses. -/
def afterAll (f : Registers) (uses : List RegisterUse) : Registers := uses.foldl after f

/-! ## Registers by number -/

/-- An integer in the range of registers is one. -/
theorem toNat_lt_of_reg (h : 0 ≤ i ∧ i < 8) : i.toNat < 8 := by omega

theorem index_of_inRange (h : 0 ≤ i ∧ i < 8) : index i = .ok ⟨i.toNat, toNat_lt_of_reg h⟩ :=
  dif_pos h

theorem index_of_not_inRange (h : ¬ (0 ≤ i ∧ i < 8)) : index i = .error (.registerIndex i) :=
  dif_neg h

/-- What is done with a register by its number is done if there is one. -/
theorem exists_map_index_iff {α : Type} {g : Reg → α} :
    (∃ a, (index i).map g = .ok a) ↔ 0 ≤ i ∧ i < 8 := by
  by_cases h : 0 ≤ i ∧ i < 8
  · rw [index_of_inRange h]
    exact iff_of_true ⟨_, rfl⟩ h
  · rw [index_of_not_inRange h]
    exact iff_of_false (fun ⟨_, ha⟩ => nomatch ha) h

theorem writeTag_of_inRange (h : 0 ≤ i ∧ i < 8) : f.writeTag i t =
    if i = 0 then .ok f
    else match t with
      | some s => if s < 0 then .error (.renameTag i (some s))
          else .ok (f.rename ⟨i.toNat, toNat_lt_of_reg h⟩ s)
      | none => .error (.renameTag i none) := by
  have hzero : (⟨i.toNat, toNat_lt_of_reg h⟩ : Reg) = 0 ↔ i = 0 := by
    rw [Fin.ext_iff]
    change i.toNat = 0 ↔ i = 0
    omega
  unfold writeTag
  rw [index_of_inRange h]
  simp only [bind, Except.bind, pure, Except.pure, hzero]
  rfl

theorem exists_writeTag_iff : (∃ f', f.writeTag i t = .ok f') ↔
    (0 ≤ i ∧ i < 8) ∧ (i = 0 ∨ ∃ s, t = some s ∧ 0 ≤ s) := by
  by_cases h : 0 ≤ i ∧ i < 8
  · rw [writeTag_of_inRange h]
    by_cases hzero : i = 0
    · simp [hzero]
    cases t with
    | none => simp [hzero]
    | some s =>
      by_cases hs : s < 0
      · simp [hzero, hs]
      · simp [hzero, hs, h, Int.not_lt.1 hs]
  · unfold writeTag
    rw [index_of_not_inRange h]
    exact iff_of_false (fun ⟨_, ha⟩ => nomatch ha) fun ha => h ha.1

/-- Making a register wait changes nothing, or renames it. -/
theorem writeTag_eq_ok (h : f.writeTag i t = .ok f') : f' = f ∨ ∃ r s, f' = f.rename r s := by
  obtain ⟨hrange, -⟩ := exists_writeTag_iff.1 ⟨f', h⟩
  rw [writeTag_of_inRange hrange] at h
  split at h
  · cases h
    exact .inl rfl
  · split at h
    · split at h <;> cases h
      exact .inr ⟨_, _, rfl⟩
    · cases h

theorem exists_load_iff : (∃ f', f.load values = .ok f') ↔ values.length ≤ 8 := by
  unfold load
  by_cases h : 8 < values.length
  · rw [if_pos h]
    exact iff_of_false (fun ⟨_, hf⟩ => nomatch hf) (Nat.not_le.2 h)
  · rw [if_neg h]
    exact iff_of_true ⟨_, rfl⟩ (Nat.not_lt.1 h)

theorem exists_restoreList_iff {saved : List (Option Tag)} :
    (∃ f', f.restoreList saved = .ok f') ↔ saved.length = 8 := by
  unfold restoreList
  by_cases h : saved.length = 8
  · rw [dif_pos h]
    exact iff_of_true ⟨_, rfl⟩ h
  · rw [dif_neg h]
    exact iff_of_false (fun ⟨_, hf⟩ => nomatch hf) h

/-- **A use is refused exactly if it is not sensible.** -/
theorem exists_attempt_iff : (∃ f', f.attempt x = .ok f') ↔ x.Sensible := by
  cases x with
  | load values => exact exists_load_iff
  | write i v => exact exists_map_index_iff
  | rename i t => exact exists_writeTag_iff
  | commit i => exact exists_map_index_iff
  | checkpoint => exact iff_of_true ⟨f, rfl⟩ trivial
  | restore saved => exact exists_restoreList_iff
  | broadcast tag v through => exact iff_of_true ⟨_, rfl⟩ trivial

/-! ## Register 0 -/

/-- **Register 0 holds zero and waits for nobody.** -/
structure ZeroFixed (f : Registers) : Prop where
  value : f.values.get 0 = 0
  status : f.status.get 0 = none

theorem status_commit : (f.commit d).status.get r = if d = r then none else f.status.get r := by
  by_cases h : d = r
  · subst h
    rw [if_pos rfl]
    exact Vector.getElem_set_self _
  · rw [if_neg h]
    exact Vector.getElem_set_ne d.isLt r.isLt fun hv => h (Fin.ext hv)

theorem status_load (h : f.load values = .ok f') : f'.status = f.status := by
  unfold load at h
  split at h <;> cases h
  rfl

theorem zeroFixed_empty : empty.ZeroFixed where
  value := Vector.getElem_replicate (0 : Reg).isLt
  status := Vector.getElem_replicate (0 : Reg).isLt

namespace ZeroFixed

theorem load (h : f.ZeroFixed) (hf : f.load values = .ok f') : f'.ZeroFixed where
  value := (zero_load hf).trans h.value
  status := by rw [status_load hf, h.status]

/-- **No use reaches register 0.** -/
theorem attempt (h : f.ZeroFixed) (hx : f.attempt x = .ok f') : f'.ZeroFixed := by
  cases x with
  | load values => exact h.load hx
  | write i v =>
    obtain ⟨r, -, rfl⟩ := exists_of_map_eq_ok hx
    exact ⟨zero_set.trans h.value, by rw [Machine.status_set, h.status]⟩
  | rename i t =>
    obtain rfl | ⟨r, s, rfl⟩ := writeTag_eq_ok hx
    · exact h
    · refine ⟨by rw [values_rename, h.value], ?_⟩
      rw [status_rename, if_neg fun hr => hr.1 hr.2, h.status]
  | commit i =>
    obtain ⟨r, -, rfl⟩ := exists_of_map_eq_ok hx
    refine ⟨h.value, ?_⟩
    rw [status_commit, h.status, ite_self]
  | checkpoint =>
    cases hx
    exact h
  | restore saved =>
    change f.restoreList saved = .ok f' at hx
    unfold restoreList at hx
    split at hx <;> cases hx
    -- Whatever was saved for register 0 is not put back.
    exact ⟨h.value, Vector.getElem_set_self _⟩
  | broadcast tag v through =>
    cases hx
    refine ⟨zero_broadcast.trans h.value, ?_⟩
    rw [status_broadcast, if_neg fun hr => hr.1 rfl, h.status]

theorem after (h : f.ZeroFixed) (x : RegisterUse) : (f.after x).ZeroFixed := by
  unfold Registers.after
  split
  · exact h.attempt ‹_›
  · exact h

theorem afterAll (h : f.ZeroFixed) (uses : List RegisterUse) : (f.afterAll uses).ZeroFixed := by
  induction uses generalizing f with
  | nil => exact h
  | cons x rest ih => exact ih (h.after x)

end ZeroFixed

/-! ## Loads -/

/-- Registers are told apart by what is read of them, by register 0 and by
their status. -/
theorem ext_get {g : Registers} (hzero : f.values.get 0 = g.values.get 0)
    (hget : ∀ r, r ≠ 0 → f.get r = g.get r) (hstatus : f.status = g.status) : f = g := by
  have hvalues : f.values = g.values := by
    refine Vector.ext fun n hn => ?_
    by_cases hr : (⟨n, hn⟩ : Reg) = 0
    · obtain rfl : n = 0 := congrArg Fin.val hr
      exact hzero
    · have heq := hget ⟨n, hn⟩ hr
      rw [get, get, if_neg hr, if_neg hr] at heq
      exact Word.toInt_inj.1 heq
  cases f
  cases g
  exact congrArg₂ mk hvalues hstatus

theorem get_set_of_ne_zero {n : Nat} (hn : n < 8) (hr : r ≠ 0) :
    (f.set ⟨n, hn⟩ v).get r = if r.val = n then wrap v else f.get r := by
  have hreg : (⟨n, hn⟩ : Reg) = r ↔ r.val = n := by rw [Fin.ext_iff, eq_comm]
  rw [get_set, Word.toInt_ofInt]
  simp only [hr, hreg, ne_eq, not_false_eq_true, true_and]

/-- Values that have registers are written one by one. -/
theorem writePairs_numbered (f : Registers) {n : Nat} (h : n + values.length ≤ 8) :
    ∃ g, f.writePairs (numbered n values) = .ok g ∧ g.status = f.status ∧
      g.values.get 0 = f.values.get 0 ∧ ∀ r : Reg, r ≠ 0 → g.get r =
        if n ≤ r.val then ((values[r.val - n]?).map wrap).getD (f.get r) else f.get r := by
  induction values generalizing f n with
  | nil => exact ⟨f, rfl, rfl, rfl, fun r _ => by simp⟩
  | cons v rest ih =>
    rw [List.length_cons] at h
    have hn : n < 8 := by omega
    obtain ⟨g, hg, hstatus, hzero, hget⟩ := ih (f.set ⟨n, hn⟩ v) (n := n + 1) (by omega)
    have hwrite : f.write n v = .ok (f.set ⟨n, hn⟩ v) := by
      rw [write, index_of_inRange ⟨by omega, by omega⟩]
      rfl
    refine ⟨g, ?_, by rw [hstatus, Machine.status_set], hzero.trans zero_set, fun r hr => ?_⟩
    · rw [numbered, writePairs, hwrite]
      exact hg
    · rw [hget r hr, get_set_of_ne_zero hn hr]
      -- The first value is for register `n`, and those behind it are written by the rest.
      obtain hlt | heq | hgt := Nat.lt_trichotomy r.val n
      · rw [if_neg (by omega : ¬ n + 1 ≤ r.val), if_neg (by omega : ¬ r.val = n),
          if_neg (by omega : ¬ n ≤ r.val)]
      · rw [if_neg (by omega : ¬ n + 1 ≤ r.val), if_pos heq, if_pos (by omega : n ≤ r.val), heq,
          Nat.sub_self]
        rfl
      · obtain ⟨k, hk⟩ : ∃ k, r.val - n = k + 1 := ⟨r.val - (n + 1), by omega⟩
        rw [if_pos (by omega : n + 1 ≤ r.val), if_neg (by omega : ¬ r.val = n),
          if_pos (by omega : n ≤ r.val), hk, List.getElem?_cons_succ,
          show r.val - (n + 1) = k by omega]

theorem get_load (h : f.load values = .ok f') (hr : r ≠ 0) :
    f'.get r = ((values[r.val]?).map wrap).getD (f.get r) := by
  unfold load at h
  split at h <;> cases h
  rw [get, get, if_neg hr, if_neg hr]
  refine (congrArg Word.toInt (Vector.getElem_ofFn r.isLt)).trans ?_
  rcases values[r.val]? with - | v
  · rfl
  · dsimp only
    rw [if_neg hr, Word.toInt_ofInt]
    rfl

/-- **A load is its writes one by one**, and none of them is refused. -/
theorem writePairs_of_load (h : f.load values = .ok f') :
    f.writePairs (numbered 0 values) = .ok f' := by
  have hle := exists_load_iff.1 ⟨f', h⟩
  obtain ⟨g, hg, hstatus, hzero, hget⟩ :=
    f.writePairs_numbered (n := 0) (by omega : 0 + values.length ≤ 8)
  have heq : g = f' := by
    refine ext_get (hzero.trans (zero_load h).symm) (fun r hr => ?_)
      (hstatus.trans (status_load h).symm)
    rw [hget r hr, if_pos (Nat.zero_le _), get_load h hr]
    rfl
  exact heq ▸ hg

/-! ## Sources -/

/-- **A source is a value or a tag**, and never both. -/
theorem readOperand_cases (f : Registers) (h : 0 ≤ i ∧ i < 8) :
    ∃ o, f.readOperand i = .ok o ∧
      ((∃ v, o.value? = some v ∧ o.tag? = none ∧ InWord v ∧ f.readTag i = .ok none ∧
          f.read i = .ok v) ∨
        ∃ t, o.value? = none ∧ o.tag? = some t ∧ f.readTag i = .ok (some t)) := by
  unfold readOperand readTag read
  rw [index_of_inRange h]
  refine ⟨_, rfl, ?_⟩
  unfold operand
  cases htag : f.tag ⟨i.toNat, toNat_lt_of_reg h⟩ with
  | none => exact .inl ⟨_, rfl, rfl, inWord_get, congrArg Except.ok htag, rfl⟩
  | some t => exact .inr ⟨t, rfl, rfl, congrArg Except.ok htag⟩

/-! ## Broadcasts -/

theorem tag_of_ne (h : r ≠ 0) : f.tag r = f.status.get r := if_neg h

theorem mem_updatedBy_iff {tag : Tag} {through : List Int} : r ∈ f.updatedBy tag through ↔
    r ≠ 0 ∧ (f.tag r = some tag ∨ (r.val : Int) ∈ through) := by
  unfold updatedBy hears
  rw [List.mem_filter, Bool.and_eq_true, Bool.or_eq_true, decide_eq_true_iff, decide_eq_true_iff,
    decide_eq_true_iff]
  constructor
  · rintro ⟨-, hr, hheard⟩
    exact ⟨hr, by rwa [tag_of_ne hr]⟩
  · rintro ⟨hr, hheard⟩
    exact ⟨List.mem_finRange r, hr, by rwa [tag_of_ne hr] at hheard⟩

theorem tag_broadcast (f : Registers) (tag : Tag) (v : Int) (through : List Int) (r : Reg) :
    (f.broadcast tag v through).tag r = if f.tag r = some tag then none else f.tag r := by
  by_cases hr : r = 0
  · subst hr
    rfl
  · rw [tag_of_ne hr, tag_of_ne hr, status_broadcast]
    simp only [hr, ne_eq, not_false_eq_true, true_and]

/-- **What a broadcast does.** It is heard by the registers that wait for its
tag and by those in `through`, but not by register 0. They take the value as a
word. Those that waited for the tag are committed, and nothing else changes. -/
structure Hears (f : Registers) (tag : Tag) (v : Int) (through : List Int) : Prop where
  sorted : (f.updatedBy tag through).Pairwise (· < ·)
  mem : ∀ r, r ∈ f.updatedBy tag through ↔
    r ≠ 0 ∧ (f.tag r = some tag ∨ (r.val : Int) ∈ through)
  value : ∀ r, (f.broadcast tag v through).get r =
    if r ∈ f.updatedBy tag through then wrap v else f.get r
  status : ∀ r, (f.broadcast tag v through).tag r =
    if f.tag r = some tag then none else f.tag r

theorem hears_broadcast (f : Registers) (tag : Tag) (v : Int) (through : List Int) :
    f.Hears tag v through where
  sorted := (List.pairwise_lt_finRange 8).filter _
  mem _ := mem_updatedBy_iff
  value r := by
    have hheard : r ∈ f.updatedBy tag through ↔ f.hears tag through r := by
      unfold updatedBy
      rw [List.mem_filter]
      exact and_iff_right (List.mem_finRange r)
    rw [get_broadcast, Word.toInt_ofInt]
    simp only [hheard]
  status := f.tag_broadcast tag v through

/-! ## Any use -/

/-- **The laws of the register file.** -/
structure Lawful (f : Registers) : Prop where
  /-- Register 0 holds zero and has no tag, in the file and when it is read. -/
  zero : f.ZeroFixed ∧ f.read 0 = .ok 0 ∧ f.readTag 0 = .ok none
  /-- There are eight registers, and their values are words. -/
  words : f.snapshot.length = 8 ∧ ∀ v ∈ f.snapshot, InWord v
  /-- A source is a word without a tag, or a tag without a value. -/
  source : ∀ i, 0 ≤ i → i < 8 → ∃ o, f.readOperand i = .ok o ∧
    ((∃ v, o.value? = some v ∧ o.tag? = none ∧ InWord v ∧ f.readTag i = .ok none ∧
        f.read i = .ok v) ∨
      ∃ t, o.value? = none ∧ o.tag? = some t ∧ f.readTag i = .ok (some t))
  /-- A use is refused exactly if it is not sensible, and then it changes
  nothing. -/
  refused : ∀ x, ((∃ fault, f.attempt x = .error fault) ↔ ¬ x.Sensible) ∧
    ∀ fault, f.attempt x = .error fault → f.after x = f
  /-- Nor has a load written anything when it is refused: one that is not is
  its writes one by one, of which none is. -/
  load : ∀ values f', f.load values = .ok f' → f.writePairs (numbered 0 values) = .ok f'
  /-- A broadcast reaches whom it is for. -/
  broadcast : ∀ tag v through, f.Hears tag v through

/-- **The register file keeps its laws under any use.** It is made of values
that are accepted, and then there are uses with any numbers, finished or
refused. -/
theorem lawful_afterAll {values : List Int} {f₀ : Registers} (h : empty.load values = .ok f₀)
    (uses : List RegisterUse) : (f₀.afterAll uses).Lawful := by
  have hzero : (f₀.afterAll uses).ZeroFixed := (zeroFixed_empty.load h).afterAll uses
  generalize f₀.afterAll uses = f at hzero
  constructor
  case zero => exact ⟨hzero, rfl, rfl⟩
  case words =>
    refine ⟨by rw [snapshot, List.length_map, List.length_finRange], fun v hv => ?_⟩
    obtain ⟨r, -, rfl⟩ := List.mem_map.1 hv
    exact inWord_get
  case source => exact fun i hlo hhi => f.readOperand_cases ⟨hlo, hhi⟩
  case refused =>
    intro x
    refine ⟨?_, fun fault hx => by rw [after, hx]⟩
    rw [← exists_attempt_iff (f := f)]
    cases f.attempt x <;> simp
  case load => exact fun values f' => writePairs_of_load
  case broadcast => exact f.hears_broadcast

/-- Uses that would reach register 0 and registers that there are not. -/
def sampleUses : List RegisterUse :=
  [.rename 0 (some 3), .restore [some 1, none, some 4, some (-2), none, none, none, some 4],
    .load (List.replicate 9 1), .write 8 1, .rename 5 (some (-1)), .write 0 7,
    .broadcast 6 70000 [0, 3, -5, 100]]

/-- Two registers wait for the station that broadcasts, and a third is listed.
Register 3 has been written past its tag before. -/
theorem lawful_afterAll_sampleUses :
    ∃ f₀, empty.load [99, 10, 70000, -1] = .ok f₀ ∧ (f₀.afterAll sampleUses).read 0 = .ok 0 ∧
      (f₀.afterAll sampleUses).readTag 0 = .ok none ∧
      (f₀.afterAll sampleUses).updatedBy 4 [0, 3, -5, 100] = [2, 3, 7] ∧
      ((f₀.afterAll sampleUses).broadcast 4 (-1) [0, 3, -5, 100]).get 7 = 65535 ∧
      ((f₀.afterAll sampleUses).broadcast 4 (-1) [0, 3, -5, 100]).tag 3 = some (-2) := by
  obtain ⟨f₀, h, hran⟩ := Machine.exists_of_any (x := empty.load [99, 10, 70000, -1])
    (p := fun f₀ => (f₀.afterAll sampleUses).updatedBy 4 [0, 3, -5, 100] = [2, 3, 7] ∧
      (f₀.afterAll sampleUses).tag 3 = some (-2)) (by decide +kernel)
  obtain ⟨hupdated, htag⟩ := of_decide_eq_true hran
  have hlaws := lawful_afterAll h sampleUses
  have hheard := hlaws.broadcast 4 (-1) [0, 3, -5, 100]
  refine ⟨f₀, h, hlaws.zero.2.1, hlaws.zero.2.2, hupdated, ?_, ?_⟩
  · rw [hheard.value, hupdated, if_pos (by decide)]
    rfl
  · rw [hheard.status, htag, if_neg (by decide)]

end Registers

end OutOfOrder
