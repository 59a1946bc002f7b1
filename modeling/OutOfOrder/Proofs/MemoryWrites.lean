import OutOfOrder.Proofs.Loading
/-!
# Memory after any writes

A block is written as its words are written one by one at consecutive
addresses (`numbered`), but for one thing: that all of it lies in memory is
looked at before the first word is written. So a write is carried out whole or
not at all, and what any history of writes comes to is told by the pairs of
those that lie in memory (`carriedOut`). The others might as well not have
been.

An address then holds the last of its values, or zero (`lastValue?`). A listing
is known by its members, since its addresses ascend; so the words that are not
zero are those of the listing of all of memory.
-/

namespace OutOfOrder

/-- Values with consecutive numbers, from a first number on. -/
def numbered (a : Int) : List Int → List (Int × Int)
  | [] => []
  | v :: rest => (a, v) :: numbered (a + 1) rest

/-- **A write to memory**: of one word, or of a block. -/
inductive MemoryWrite where
  | word (a v : Int)
  | block (a : Int) (values : List Int)
deriving DecidableEq

namespace MemoryWrite

/-- The words that a write is of, with their addresses. -/
def pairs : MemoryWrite → List (Int × Int)
  | word a v => [(a, v)]
  | block a values => numbered a values

/-- **All of the write lies in memory.** -/
def Fits (x : MemoryWrite) : Prop := ∀ w ∈ x.pairs, 0 ≤ w.1 ∧ w.1 < 65536

instance : DecidablePred Fits := fun x =>
  inferInstanceAs (Decidable (∀ w ∈ x.pairs, 0 ≤ w.1 ∧ w.1 < 65536))

/-- The words of all writes that lie in memory. -/
def carriedOut (writes : List MemoryWrite) : List (Int × Int) :=
  (writes.filter fun x => x.Fits).flatMap pairs

theorem carriedOut_cons (x : MemoryWrite) (writes : List MemoryWrite) :
    carriedOut (x :: writes) = (if x.Fits then x.pairs else []) ++ carriedOut writes := by
  unfold carriedOut
  by_cases h : x.Fits <;> simp [h]

end MemoryWrite

/-- The value that comes last for an address. -/
def lastValue? (pairs : List (Int × Int)) (a : Int) : Option Int :=
  ((pairs.filter fun w => w.1 = a).getLast?).map Prod.snd

theorem lastValue?_eq_none_iff {pairs : List (Int × Int)} {a : Int} :
    lastValue? pairs a = none ↔ ∀ w ∈ pairs, w.1 ≠ a := by
  simp [lastValue?]

/-- Behind the last value for an address there is none. -/
theorem exists_of_lastValue? {pairs : List (Int × Int)} {a v : Int}
    (h : lastValue? pairs a = some v) :
    ∃ before after, pairs = before ++ (a, v) :: after ∧ ∀ w ∈ after, w.1 ≠ a := by
  obtain ⟨⟨b, u⟩, hlast, rfl⟩ := Option.map_eq_some_iff.1 h
  obtain ⟨front, hfilter⟩ := List.getLast?_eq_some_iff.1 hlast
  obtain ⟨l, l', rfl, -, hback⟩ := List.filter_eq_append_iff.1 hfilter
  obtain ⟨before, after, rfl, -, hb, hafter⟩ := List.filter_eq_cons_iff.1 hback
  obtain rfl : b = a := by simpa using hb
  exact ⟨l ++ before, after, (List.append_assoc ..).symm, by simpa using hafter⟩

namespace Memory

variable {m m' : Memory} {pairs : List (Int × Int)} {values : List Int} {x : MemoryWrite}
variable {a v : Int}

/-- What comes of a write. -/
def attempt (m : Memory) : MemoryWrite → Except Fault Memory
  | .word a v => m.write a v
  | .block a values => m.writeBlock a values

/-- The memory after a write. One that is refused leaves it as it was. -/
def after (m : Memory) (x : MemoryWrite) : Memory :=
  match m.attempt x with
  | .ok m' => m'
  | .error _ => m

/-- The memory after writes. -/
def afterAll (m : Memory) (writes : List MemoryWrite) : Memory := writes.foldl after m

/-! ## Blocks -/

theorem mem_numbered_iff {w : Int × Int} : w ∈ numbered a values ↔
      ∃ k : Nat, values[k]? = some w.2 ∧ w.1 = a + k := by
  induction values generalizing a with
  | nil => simp [numbered]
  | cons v rest ih =>
    rw [numbered, List.mem_cons, ih]
    constructor
    · rintro (rfl | ⟨k, hk, hw⟩)
      · exact ⟨0, rfl, by simp⟩
      · exact ⟨k + 1, hk, by omega⟩
    · rintro ⟨- | k, hk, hw⟩
      · exact .inl (Prod.ext (by simpa using hw) (by simpa using hk.symm))
      · exact .inr ⟨k, hk, by omega⟩

/-- A block lies in memory if both its ends do. -/
theorem fits_block_iff : (MemoryWrite.block a values).Fits ↔
    values = [] ∨ (0 ≤ a ∧ a + values.length ≤ 65536) := by
  unfold MemoryWrite.Fits MemoryWrite.pairs
  constructor
  · intro h
    by_cases hempty : values = []
    · exact .inl hempty
    right
    have hpos := List.length_pos_iff.2 hempty
    have hat : ∀ k : Nat, k < values.length → 0 ≤ a + k ∧ a + k < 65536 := fun k hk =>
      h (a + k, values[k]) (mem_numbered_iff.2 ⟨k, List.getElem?_eq_getElem hk, rfl⟩)
    have hfirst := hat 0 hpos
    have hlast := hat (values.length - 1) (by omega)
    omega
  · rintro (rfl | ⟨hlo, hhi⟩) w hw
    · cases hw
    · obtain ⟨k, hk, hwk⟩ := mem_numbered_iff.1 hw
      have := (List.getElem?_eq_some_iff.1 hk).1
      omega

/-- What lies in memory is put there word by word. -/
theorem writePairs_numbered (m : Memory) {a : Nat} (h : a + values.length ≤ 65536) :
    m.writePairs (numbered a values) = .ok (m.setBlock a values) := by
  induction values generalizing m a with
  | nil => rfl
  | cons v rest ih =>
    rw [List.length_cons] at h
    have ha : a < 65536 := by omega
    have hwrite : m.write a v = .ok (m.set ⟨a, ha⟩ (Word.ofInt v)) :=
      Machine.write_toInt m ⟨a, ha⟩ v
    rw [numbered, writePairs, hwrite, setBlock, dif_pos ha]
    exact ih (a := a + 1) _ (by omega)

theorem address_of_inRange (h : 0 ≤ a ∧ a < 65536) :
    address a = .ok ⟨a.toNat, toNat_lt_of_inRange h⟩ := dif_pos h

theorem address_of_not_inRange (h : ¬ (0 ≤ a ∧ a < 65536)) :
    address a = .error (.memoryAddress a) := dif_neg h

/-- Both ends of a block are looked at before it is written. -/
theorem writeBlock_of_ne_nil (h : values ≠ []) : m.writeBlock a values =
    address a >>= fun first => address (a + values.length - 1) >>= fun _ =>
      .ok (m.setBlock first values) := by
  cases values with
  | nil => exact absurd rfl h
  | cons v rest => rfl

/-- **A block in memory** is written as its words are one by one. -/
theorem writeBlock_of_fits (m : Memory) (h : (MemoryWrite.block a values).Fits) :
    ∃ m', m.writePairs (numbered a values) = .ok m' ∧ m.writeBlock a values = .ok m' := by
  by_cases hempty : values = []
  · subst hempty
    exact ⟨m, rfl, rfl⟩
  have hpos := List.length_pos_iff.2 hempty
  obtain ⟨hlo, hhi⟩ := (fits_block_iff.1 h).resolve_left hempty
  obtain ⟨n, rfl⟩ := Int.eq_ofNat_of_zero_le hlo
  refine ⟨_, writePairs_numbered m (by omega), ?_⟩
  rw [writeBlock_of_ne_nil hempty, address_of_inRange (by omega), address_of_inRange (by omega)]
  rfl

/-- **Any other is refused** for one of its ends. -/
theorem writeBlock_of_not_fits (m : Memory) (h : ¬ (MemoryWrite.block a values).Fits) :
    ∃ w ∈ numbered a values, ¬ (0 ≤ w.1 ∧ w.1 < 65536) ∧
      m.writeBlock a values = .error (.memoryAddress w.1) := by
  obtain ⟨hempty, hends⟩ := not_or.1 fun hor => h (fits_block_iff.2 hor)
  have hpos := List.length_pos_iff.2 hempty
  have hmem : ∀ k : Nat, (hk : k < values.length) → (a + k, values[k]) ∈ numbered a values :=
    fun k hk => mem_numbered_iff.2 ⟨k, List.getElem?_eq_getElem hk, rfl⟩
  rw [writeBlock_of_ne_nil hempty]
  by_cases hfirst : 0 ≤ a ∧ a < 65536
  · have hlast : a + ((values.length - 1 : Nat) : Int) = a + values.length - 1 := by omega
    have hout : ¬ (0 ≤ a + ((values.length - 1 : Nat) : Int) ∧
        a + ((values.length - 1 : Nat) : Int) < 65536) := by omega
    refine ⟨_, hmem (values.length - 1) (by omega), hout, ?_⟩
    rw [address_of_inRange hfirst, ← hlast, address_of_not_inRange hout]
    rfl
  · have hzero : a + ((0 : Nat) : Int) = a := Int.add_zero a
    refine ⟨_, hmem 0 hpos, by rwa [hzero], ?_⟩
    rw [address_of_not_inRange hfirst, hzero]
    rfl

/-! ## Histories -/

/-- **A write that lies in memory is carried out**, word by word. -/
theorem attempt_of_fits (m : Memory) (h : x.Fits) :
    ∃ m', m.writePairs x.pairs = .ok m' ∧ m.attempt x = .ok m' := by
  cases x with
  | word a v =>
    obtain ⟨m', hm⟩ := m.exists_write v (h (a, v) List.mem_cons_self)
    refine ⟨m', ?_, hm⟩
    rw [MemoryWrite.pairs, writePairs, hm]
    rfl
  | block a values => exact m.writeBlock_of_fits h

/-- **Any other is refused** for an address it is to write. -/
theorem attempt_of_not_fits (m : Memory) (h : ¬ x.Fits) :
    ∃ w ∈ x.pairs, ¬ (0 ≤ w.1 ∧ w.1 < 65536) ∧ m.attempt x = .error (.memoryAddress w.1) := by
  cases x with
  | word a v =>
    have ha : ¬ (0 ≤ a ∧ a < 65536) := fun ha => h fun w hw => by
      rwa [List.mem_singleton.1 hw]
    refine ⟨(a, v), List.mem_cons_self, ha, ?_⟩
    rw [attempt, write, address_of_not_inRange ha]
    rfl
  | block a values => exact m.writeBlock_of_not_fits h

theorem writePairs_append {mem₁ : Memory} {more : List (Int × Int)}
    (h : m.writePairs pairs = .ok mem₁) : m.writePairs (pairs ++ more) = mem₁.writePairs more := by
  induction pairs generalizing m with
  | nil =>
    cases h
    rfl
  | cons w rest ih =>
    obtain ⟨a, v⟩ := w
    rw [List.cons_append, writePairs]
    rw [writePairs] at h
    cases hwrite : m.write a v <;> rw [hwrite] at h
    · cases h
    · exact ih h

/-- **A history of writes** comes to the words of those that lie in memory. -/
theorem writePairs_carriedOut (m : Memory) (writes : List MemoryWrite) :
    m.writePairs (MemoryWrite.carriedOut writes) = .ok (m.afterAll writes) := by
  induction writes generalizing m with
  | nil => rfl
  | cons x rest ih =>
    have hstep : m.afterAll (x :: rest) = (m.after x).afterAll rest := rfl
    rw [MemoryWrite.carriedOut_cons, hstep]
    by_cases hfits : x.Fits
    · obtain ⟨m', hpairs, hm⟩ := m.attempt_of_fits hfits
      rw [if_pos hfits, writePairs_append hpairs, ih, after, hm]
    · obtain ⟨w, -, -, hm⟩ := m.attempt_of_not_fits hfits
      rw [if_neg hfits, List.nil_append, ih, after, hm]

/-- **An address holds the last of its values**, or what it held before. -/
theorem get_writePairs (h : m.writePairs pairs = .ok m') (p : Address) :
    m'.get p = ((lastValue? pairs p.val).map Word.ofInt).getD (m.get p) := by
  cases hlast : lastValue? pairs p.val with
  | none => exact get_writePairs_of_ne h (lastValue?_eq_none_iff.1 hlast)
  | some v =>
    obtain ⟨before, after, rfl, hafter⟩ := exists_of_lastValue? hlast
    obtain ⟨q, hq, hget⟩ := get_writePairs_of_last h hafter
    obtain rfl : q = p := Fin.ext (by omega)
    exact hget

/-! ## Listings -/

theorem mem_slice_iff {first count : Nat} {w : Int × Int} : w ∈ m.slice first count ↔
    ∃ p : Address, first ≤ p.val ∧ p.val < first + count ∧
      w = ((p.val : Int), (m.get p).toInt) := by
  unfold slice
  rw [List.mem_filterMap]
  constructor
  · rintro ⟨n, hn, hw⟩
    obtain ⟨hlo, hhi⟩ := List.mem_range'_1.1 hn
    split at hw
    · rename_i hlt
      exact ⟨⟨n, hlt⟩, hlo, hhi, (Option.some.inj hw).symm⟩
    · cases hw
  · rintro ⟨p, hlo, hhi, rfl⟩
    exact ⟨p.val, List.mem_range'_1.2 ⟨hlo, hhi⟩, dif_pos p.isLt⟩

/-- The addresses of a listing ascend. -/
theorem pairwise_slice (m : Memory) (first count : Nat) :
    (m.slice first count).Pairwise fun w w' => w.1 < w'.1 := by
  unfold slice
  rw [List.pairwise_filterMap]
  refine (List.pairwise_lt_range' 1).imp fun hlt w hw w' hw' => ?_
  split at hw <;> cases hw
  split at hw' <;> cases hw'
  exact Int.ofNat_lt.2 hlt

theorem mem_nonZero_iff {w : Int × Int} : w ∈ m.nonZero ↔
    ∃ p : Address, m.get p ≠ 0 ∧ w = ((p.val : Int), (m.get p).toInt) := by
  unfold nonZero
  rw [List.mem_filterMap]
  constructor
  · rintro ⟨p, -, hw⟩
    split at hw <;> cases hw
    exact ⟨p, ‹_›, rfl⟩
  · rintro ⟨p, hp, rfl⟩
    exact ⟨p, List.mem_finRange p, if_neg hp⟩

theorem pairwise_nonZero (m : Memory) : m.nonZero.Pairwise fun w w' => w.1 < w'.1 := by
  unfold nonZero
  rw [List.pairwise_filterMap]
  refine (List.pairwise_lt_finRange _).imp fun hlt w hw w' hw' => ?_
  split at hw <;> cases hw
  split at hw' <;> cases hw'
  exact Int.ofNat_lt.2 hlt

/-- **The whole listing without its zeros.** -/
theorem nonZero_eq_filter (m : Memory) :
    m.nonZero = (m.slice 0 65536).filter fun w => w.2 ≠ 0 := by
  refine List.Pairwise.eq_of_mem_iff (pairwise_nonZero m)
    ((pairwise_slice m 0 65536).filter _) fun w => ?_
  rw [mem_nonZero_iff, List.mem_filter, mem_slice_iff, decide_eq_true_iff]
  constructor
  · rintro ⟨p, hp, rfl⟩
    exact ⟨⟨p, Nat.zero_le _, by omega, rfl⟩, fun h => hp (Word.toInt_inj.1 h)⟩
  · rintro ⟨⟨p, -, -, rfl⟩, hp⟩
    exact ⟨p, fun h => hp (congrArg Word.toInt h), rfl⟩

/-! ## The words as a list -/

/-- **A block takes the place of a slice** of the same length. -/
theorem toList_setBlock (m : Memory) {a : Nat} (h : a + values.length ≤ 65536) :
    (m.setBlock a values).words.toList = m.words.toList.take a ++
      (values.map Word.ofInt ++ m.words.toList.drop (a + values.length)) := by
  induction values generalizing m a with
  | nil => exact (List.take_append_drop ..).symm
  | cons v rest ih =>
    rw [List.length_cons] at h ⊢
    have ha : a < 65536 := by omega
    have hset : (m.set ⟨a, ha⟩ (Word.ofInt v)).words.toList = m.words.toList.set a (Word.ofInt v) :=
      Vector.toList_set ha
    have hfront : (m.words.toList.set a (Word.ofInt v)).take (a + 1) =
        m.words.toList.take a ++ [Word.ofInt v] := by
      have hlength : m.words.toList.length = 65536 := Vector.length_toList
      rw [List.set_eq_take_append_cons_drop, if_pos (by omega), List.append_cons]
      exact List.take_left' (by simp; omega)
    have hback : (m.words.toList.set a (Word.ofInt v)).drop (a + 1 + rest.length) =
        m.words.toList.drop (a + (rest.length + 1)) := by
      rw [List.drop_set_of_lt (by omega), Nat.add_assoc, Nat.add_comm 1]
    rw [setBlock, dif_pos ha, ih _ (by omega), hset, hfront, hback, List.map_cons,
      List.append_assoc, List.singleton_append, List.cons_append]

/-- A block that is written is there as a slice. -/
theorem toList_of_writeBlock (h : m.writeBlock a values = .ok m') :
    m'.words.toList = m.words.toList.take a.toNat ++
      (values.map Word.ofInt ++ m.words.toList.drop (a.toNat + values.length)) := by
  by_cases hempty : values = []
  · subst hempty
    cases h
    exact (List.take_append_drop ..).symm
  by_cases hfits : (MemoryWrite.block a values).Fits
  · obtain ⟨hlo, hhi⟩ := (fits_block_iff.1 hfits).resolve_left hempty
    obtain ⟨n, rfl⟩ := Int.eq_ofNat_of_zero_le hlo
    obtain ⟨m₁, hpairs, hm⟩ := m.writeBlock_of_fits hfits
    cases h.symm.trans hm
    cases hpairs.symm.trans (writePairs_numbered m (by omega))
    exact toList_setBlock m (by omega)
  · obtain ⟨w, -, -, hm⟩ := m.writeBlock_of_not_fits hfits
    cases h.symm.trans hm

/-! ## All of memory -/

/-- **A listing of the words from one address to another**, which it does not
reach, in ascending order. -/
structure Lists (m : Memory) (listing : List (Int × Int)) (first stop : Int) : Prop where
  sorted : listing.Pairwise fun w w' => w.1 < w'.1
  mem : ∀ w, w ∈ listing ↔ (first ≤ w.1 ∧ w.1 < stop) ∧ m.read w.1 = .ok w.2

theorem dump_lists (m : Memory) {start : Int} (count : Int) (h : 0 ≤ start ∧ start < 65536) :
    ∃ listing, m.dump start count = .ok listing ∧
      m.Lists listing start (min (start + count) 65536) := by
  have heq : m.dump start count = address start >>= fun first =>
      .ok (m.slice first (min (start + count) 65536 - start).toNat) := rfl
  rw [heq, address_of_inRange h]
  refine ⟨_, rfl, pairwise_slice m _ _, fun w => mem_slice_iff.trans ?_⟩
  dsimp only
  constructor
  · rintro ⟨p, hlo, hhi, rfl⟩
    exact ⟨⟨by omega, by omega⟩, Machine.read_toInt m p⟩
  · rintro ⟨⟨hlo, hhi⟩, hread⟩
    obtain ⟨p, hp, hv⟩ := Machine.read_eq_ok hread
    have hval : w.1 = p.val := hp
    exact ⟨p, by omega, by omega, Prod.ext hp hv⟩

/-- **Memory is an array of 65536 words** that holds what was written to it. -/
structure IsArray (m : Memory) (written : List (Int × Int)) : Prop where
  /-- There are 65536 words, and they are read at their addresses. -/
  size : m.words.toList.length = 65536 ∧ ∀ a, (∃ v, m.read a = .ok v) ↔ 0 ≤ a ∧ a < 65536
  /-- An address holds the last of its values as a word, or zero. -/
  read : ∀ a, 0 ≤ a → a < 65536 →
    m.read a = .ok (((lastValue? written a).map wrap).getD 0)
  /-- A word is written if it has an address. -/
  word_iff : ∀ a v, (∃ m', m.write a v = .ok m') ↔ 0 ≤ a ∧ a < 65536
  /-- A block is written if it is empty or all of it lies in memory, -/
  block_iff : ∀ a values, (∃ m', m.writeBlock a values = .ok m') ↔
    values = [] ∨ (0 ≤ a ∧ a + values.length ≤ 65536)
  /-- and then as its words are one by one, in the place of a slice. -/
  block : ∀ a values m', m.writeBlock a values = .ok m' →
    m.writePairs (numbered a values) = .ok m' ∧
      m'.words.toList = m.words.toList.take a.toNat ++
        (values.map Word.ofInt ++ m.words.toList.drop (a.toNat + values.length))
  /-- A write is refused for one of its addresses, and changes nothing. -/
  refused : ∀ x fault, m.attempt x = .error fault →
    m.after x = m ∧ ∃ w ∈ x.pairs, ¬ (0 ≤ w.1 ∧ w.1 < 65536) ∧ fault = .memoryAddress w.1
  /-- A listing from an address on ends with its count or with memory. -/
  dump : ∀ start count, 0 ≤ start → start < 65536 → ∃ listing,
    m.dump start count = .ok listing ∧ m.Lists listing start (min (start + count) 65536)
  /-- The words that are not zero are those of the whole listing. -/
  nonZero : ∃ listing, m.dump 0 65536 = .ok listing ∧
    m.nonZero = listing.filter fun w => w.2 ≠ 0

theorem exists_read_iff {m : Memory} : (∃ v, m.read a = .ok v) ↔ 0 ≤ a ∧ a < 65536 := by
  constructor
  · rintro ⟨v, hread⟩
    obtain ⟨p, rfl, -⟩ := Machine.read_eq_ok hread
    exact p.toInt_inRange
  · intro ha
    obtain ⟨p, rfl⟩ := Word.exists_toInt ha
    exact ⟨_, Machine.read_toInt m p⟩

theorem exists_attempt_iff {m : Memory} : (∃ m', m.attempt x = .ok m') ↔ x.Fits := by
  constructor
  · rintro ⟨m', hm⟩
    by_contra hfits
    obtain ⟨w, -, -, hrefused⟩ := m.attempt_of_not_fits hfits
    cases hm.symm.trans hrefused
  · intro hfits
    obtain ⟨m', -, hm⟩ := m.attempt_of_fits hfits
    exact ⟨m', hm⟩

/-- What is read after writes to a memory of zeros. -/
theorem read_of_writePairs (h : empty.writePairs pairs = .ok m) (ha : 0 ≤ a ∧ a < 65536) :
    m.read a = .ok (((lastValue? pairs a).map wrap).getD 0) := by
  obtain ⟨p, rfl⟩ := Word.exists_toInt ha
  have hempty : empty.get p = 0 := Vector.getElem_replicate p.isLt
  rw [Machine.read_toInt, get_writePairs h, hempty]
  change _ = Except.ok (((lastValue? pairs p.val).map wrap).getD 0)
  cases lastValue? pairs p.val with
  | none => rfl
  | some v => exact congrArg Except.ok (Word.toInt_ofInt v)

/-- **Memory is an array under any history.** It is made of pairs that are
accepted, and then there are writes of words and of blocks, with any addresses
and values, some of them refused. -/
theorem isArray_afterAll {init : List (Int × Int)} {m₀ : Memory}
    (h : empty.writePairs init = .ok m₀) (writes : List MemoryWrite) :
    (m₀.afterAll writes).IsArray (init ++ MemoryWrite.carriedOut writes) := by
  have hall : empty.writePairs (init ++ MemoryWrite.carriedOut writes) =
      .ok (m₀.afterAll writes) := by
    rw [writePairs_append h, writePairs_carriedOut]
  generalize m₀.afterAll writes = m at hall
  constructor
  case size => exact ⟨Vector.length_toList, fun a => exists_read_iff⟩
  case read => exact fun a hlo hhi => read_of_writePairs hall ⟨hlo, hhi⟩
  case word_iff =>
    intro a v
    refine (exists_attempt_iff (x := .word a v)).trans ?_
    unfold MemoryWrite.Fits
    rw [MemoryWrite.pairs, List.forall_mem_singleton]
  case block_iff =>
    intro a values
    exact (exists_attempt_iff (x := .block a values)).trans fits_block_iff
  case block =>
    intro a values m' hm
    obtain ⟨m₁, hpairs, hm₁⟩ := m.writeBlock_of_fits
      ((exists_attempt_iff (x := .block a values)).1 ⟨m', hm⟩)
    cases hm.symm.trans hm₁
    exact ⟨hpairs, toList_of_writeBlock hm⟩
  case refused =>
    intro x fault hx
    have hfits : ¬ x.Fits := by
      intro hfits
      obtain ⟨m', -, hm⟩ := m.attempt_of_fits hfits
      cases hx.symm.trans hm
    obtain ⟨w, hw, hout, hrefused⟩ := m.attempt_of_not_fits hfits
    cases hx.symm.trans hrefused
    exact ⟨by rw [after, hx], w, hw, hout, rfl⟩
  case dump => exact fun start count hlo hhi => m.dump_lists count ⟨hlo, hhi⟩
  case nonZero => exact ⟨_, rfl, m.nonZero_eq_filter⟩

/-- Writes at the end of memory and beyond it. -/
def sampleWrites : List MemoryWrite :=
  [.word 65536 5, .block 65534 [1, 65538], .block 65535 [9, 9], .block (-3) [], .word 100 (-2)]

/-- The block that fits is there, and of the one that does not nothing is. -/
theorem isArray_afterAll_sampleWrites :
    ∃ m₀, empty.writePairs [(100, 42), (7, 3), (7, -1)] = .ok m₀ ∧
      (m₀.afterAll sampleWrites).read 7 = .ok 65535 ∧
      (m₀.afterAll sampleWrites).read 100 = .ok 65534 ∧
      (m₀.afterAll sampleWrites).read 65535 = .ok 2 ∧
      (m₀.afterAll sampleWrites).read 8 = .ok 0 := by
  have hinit : ∀ w ∈ [(100, 42), (7, 3), (7, (-1 : Int))], 0 ≤ w.1 ∧ w.1 < (65536 : Int) := by
    decide
  obtain ⟨m₀, h⟩ := exists_writePairs empty hinit
  have hread := (isArray_afterAll h sampleWrites).read
  exact ⟨m₀, h, hread 7 (by decide) (by decide), hread 100 (by decide) (by decide),
    hread 65535 (by decide) (by decide), hread 8 (by decide) (by decide)⟩

end Memory

end OutOfOrder
