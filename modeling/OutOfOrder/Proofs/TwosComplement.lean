import Mathlib.Data.Int.Bitwise
import OutOfOrder.Proofs.Codec
/-!
# Fields in two's complement

An integer has infinitely many bits, and those of a negative one end in ones.
A mask of `n` ones leaves the `n` lowest (`lowBits`), and that is the remainder
modulo the power of two whatever the sign.

What is read of a field rests on these bits alone. The highest of them is the
sign: where it is set, the reading is the low bits less one period
(`signExtend_eq_sub`). One integer in the range of the field has the same low
bits, and it is the reading (`eq_signExtend_iff`). So a whole word may be read
as the field at its low end: the bits above do not matter
(`signExtend_reads_lowBits`).
-/

namespace OutOfOrder

/-! ## Masks -/

/-- The `n` lowest bits of an integer. All others are masked out. -/
def lowBits (v : Int) (n : Nat) : Int := v.land (2 ^ n - 1)

/-- The mask of a field is a natural number. -/
theorem mask_eq_natCast (n : Nat) : (2 ^ n - 1 : Int) = ((2 ^ n - 1 : Nat) : Int) := by
  have hpos := Nat.two_pow_pos n
  push_cast [Nat.cast_sub hpos]
  rfl

/-- **A mask of ones takes a remainder**, of a negative integer as well. -/
theorem lowBits_eq_emod (v : Int) (n : Nat) : lowBits v n = v % 2 ^ n := by
  unfold lowBits
  rw [mask_eq_natCast]
  cases v with
  | ofNat m =>
    change ((m &&& (2 ^ n - 1) : Nat) : Int) = (m : Int) % 2 ^ n
    rw [Nat.and_two_pow_sub_one_eq_mod]
    push_cast
    rfl
  | negSucc m =>
    -- The bits of a negative integer are those of its complement, flipped.
    have hlt : m % 2 ^ n < 2 ^ n := Nat.mod_lt m (Nat.two_pow_pos n)
    have hflip : (2 ^ n - 1).ldiff m = 2 ^ n - (m % 2 ^ n + 1) := by
      refine Nat.eq_of_testBit_eq fun i => ?_
      rw [Nat.testBit_ldiff, Nat.testBit_two_pow_sub_one, Nat.testBit_two_pow_sub_succ hlt,
        Nat.testBit_mod_two_pow]
      by_cases hi : i < n <;> simp [hi]
    change (((2 ^ n - 1).ldiff m : Nat) : Int) = _
    rw [hflip, Int.negSucc_emod m (Int.pow_pos (by decide)),
      Nat.cast_sub (Nat.succ_le_of_lt hlt)]
    push_cast
    omega

/-- Integers have the same low bits if they are congruent. -/
theorem lowBits_eq_lowBits_iff {u v : Int} {n : Nat} :
    lowBits u n = lowBits v n ↔ u ≡ v [ZMOD 2 ^ n] := by
  rw [lowBits_eq_emod, lowBits_eq_emod]
  exact Iff.rfl

theorem testBit_iff_le_mod {m n : Nat} : m.testBit n ↔ 2 ^ n ≤ m % 2 ^ (n + 1) := by
  have hrest : m % 2 ^ n < 2 ^ n := Nat.mod_lt m (Nat.two_pow_pos n)
  rw [Nat.testBit_eq_decide_div_mod_eq, decide_eq_true_iff, Nat.mod_pow_succ]
  rcases Nat.mod_two_eq_zero_or_one (m / 2 ^ n) with h | h <;> rw [h] <;> omega

/-- **The highest bit of a field** tells the upper half of the period. -/
theorem testBit_iff_le_lowBits {v : Int} {n : Nat} :
    v.testBit n ↔ 2 ^ n ≤ lowBits v (n + 1) := by
  rw [lowBits_eq_emod]
  cases v with
  | ofNat m =>
    change m.testBit n ↔ (2 : Int) ^ n ≤ (m : Int) % 2 ^ (n + 1)
    rw [testBit_iff_le_mod]
    exact_mod_cast Iff.rfl
  | negSucc m =>
    change (!m.testBit n) = true ↔ _
    have hperiod : (2 : Int) ^ (n + 1) = 2 * 2 ^ n := Int.pow_succ' ..
    rw [Int.negSucc_emod m (Int.pow_pos (by decide)), Bool.not_eq_true', ← Bool.not_eq_true,
      testBit_iff_le_mod, Nat.not_le, ← Int.ofNat_lt]
    push_cast
    omega

/-! ## The reading of a field -/

/-- **The reading is the low bits, less one period if the highest is set.** -/
theorem signExtend_eq_sub (value : Int) (n : Nat) :
    signExtend value (n + 1) =
      lowBits value (n + 1) - if value.testBit n then 2 ^ (n + 1) else 0 := by
  unfold signExtend
  rw [Nat.add_sub_cancel, Nat.one_shiftLeft, Nat.one_shiftLeft]
  push_cast
  rw [← lowBits_eq_emod]
  by_cases hsign : value.testBit n
  · rw [if_pos (testBit_iff_le_lowBits.1 hsign), if_pos hsign]
  · rw [if_neg fun h => hsign (testBit_iff_le_lowBits.2 h), if_neg hsign, Int.sub_zero]

/-- **One integer in the range of a field** has the low bits of a value. -/
theorem eq_signExtend_iff {value v : Int} {n : Nat} :
    v = signExtend value (n + 1) ↔
      (-2 ^ n ≤ v ∧ v ≤ 2 ^ n - 1) ∧ v ≡ value [ZMOD 2 ^ (n + 1)] := by
  rw [eq_comm, signExtend_eq_iff, Nat.one_shiftLeft, Nat.one_shiftLeft, Int.ModEq]
  push_cast
  omega

theorem signExtend?_succ (value : Int) (n : Nat) :
    signExtend? value ((n + 1 : Nat) : Int) = .ok (signExtend value (n + 1)) := by
  unfold signExtend?
  rw [if_pos (by omega), Int.toNat_natCast]

/-- What has the same low bits is read the same. -/
theorem signExtend_congr {u v : Int} {n : Nat} (h : lowBits u (n + 1) = lowBits v (n + 1)) :
    signExtend u (n + 1) = signExtend v (n + 1) := by
  obtain ⟨hrange, hmod⟩ := eq_signExtend_iff.1 (rfl : signExtend u (n + 1) = _)
  exact eq_signExtend_iff.2 ⟨hrange, hmod.trans (lowBits_eq_lowBits_iff.1 h)⟩

namespace Instruction

/-! ## The fields of a word -/

theorem offset?_decode {w : Word} (hop : w.val / 4096 ≤ 2) :
    (decode w).offset? = some (signExtend w.toInt 5) := by
  unfold decode
  split <;> rename_i h
  case h_1 | h_2 | h_3 => rfl
  all_goals omega

theorem label?_decode {w : Word} (hop : w.val / 4096 = 3) :
    (decode w).label? = some (signExtend w.toInt 7) := by
  unfold decode
  split <;> rename_i h
  case h_4 => rfl
  all_goals omega

/-- **A field is read in two's complement**, from whatever it stands in. The
reading of one bit or more is the low bits, less a period if the highest is
set; it is the one integer in the range of the field that is congruent to the
value. It is its own reading, an integer in the range is read back from its
low bits, and what agrees in the low bits is read the same. In particular the
offset and the label of a word are read from any integer that agrees with the
word in five and in seven bits. -/
theorem signExtend_reads_lowBits :
    (∀ (value : Int) (n : Nat), 1 ≤ n → ∃ v, signExtend? value n = .ok v ∧
      v = lowBits value n - (if value.testBit (n - 1) then 2 ^ n else 0) ∧
      (∀ u, u = v ↔ (-2 ^ (n - 1) ≤ u ∧ u ≤ 2 ^ (n - 1) - 1) ∧ u ≡ value [ZMOD 2 ^ n]) ∧
      signExtend? v n = .ok v ∧
      (∀ u, -2 ^ (n - 1) ≤ u → u ≤ 2 ^ (n - 1) - 1 → signExtend? (lowBits u n) n = .ok u) ∧
      ∀ u, lowBits u n = lowBits value n → signExtend? u n = .ok v) ∧
    ∀ w : Int, 0 ≤ w → w ≤ 65535 → ∃ i, decode? w = .ok i ∧
      (w / 4096 ≤ 2 → ∀ u, lowBits u 5 = lowBits w 5 →
        ∃ o, i.offset? = some o ∧ signExtend? u 5 = .ok o) ∧
      (w / 4096 = 3 → ∀ u, lowBits u 7 = lowBits w 7 →
        ∃ l, i.label? = some l ∧ signExtend? u 7 = .ok l) := by
  constructor
  · intro value n hn
    obtain ⟨n, rfl⟩ : ∃ k, n = k + 1 := ⟨n - 1, by omega⟩
    rw [Nat.add_sub_cancel]
    have hread := eq_signExtend_iff.1 (rfl : signExtend value (n + 1) = _)
    refine ⟨_, signExtend?_succ value n, signExtend_eq_sub value n, fun u => eq_signExtend_iff,
      ?_, fun u hlo hhi => ?_, fun u hu => ?_⟩
    · rw [signExtend?_succ, ← eq_signExtend_iff.2 ⟨hread.1, Int.ModEq.refl _⟩]
    · have hmod : u ≡ lowBits u (n + 1) [ZMOD 2 ^ (n + 1)] := by
        rw [lowBits_eq_emod]
        exact (Int.mod_modEq u _).symm
      rw [signExtend?_succ, ← eq_signExtend_iff.2 ⟨⟨hlo, hhi⟩, hmod⟩]
    · rw [signExtend?_succ, signExtend_congr hu]
  · intro v hlo hhi
    obtain ⟨w, rfl⟩ := Word.exists_toInt (a := v) ⟨hlo, by omega⟩
    have hcode : w.toInt / 4096 = ((w.val / 4096 : Nat) : Int) := rfl
    refine ⟨decode w, decode?_toInt w, fun hop u hu => ?_, fun hop u hu => ?_⟩
    · refine ⟨_, offset?_decode (by omega), ?_⟩
      rw [← signExtend_congr (n := 4) hu]
      exact signExtend?_succ u 4
    · refine ⟨_, label?_decode (by omega), ?_⟩
      rw [← signExtend_congr (n := 6) hu]
      exact signExtend?_succ u 6

/-- A large negative integer ends in the bits of −3, and −3 is read back from
a mask of ninety bits. A branch whose offset field ends in 30 has the offset
−2, and a call with seven ones has the label −1, whatever is above them. -/
theorem signExtend_reads_lowBits_negative :
    signExtend? (-2 ^ 80 - 3) 5 = .ok (-3) ∧ signExtend? (lowBits (-3) 90) 90 = .ok (-3) ∧
      (∃ i, decode? 0x2E5E = .ok i ∧ i.offset? = some (-2)) ∧
      ∃ i, decode? 0x3FFF = .ok i ∧ i.label? = some (-1) := by
  obtain ⟨hread, hwords⟩ := signExtend_reads_lowBits
  refine ⟨?_, ?_, ?_, ?_⟩
  · obtain ⟨v, hv, -, hunique, -⟩ := hread (-2 ^ 80 - 3) 5 (by decide)
    rw [(hunique (-3)).2 ⟨by decide, by decide⟩]
    exact hv
  · obtain ⟨-, -, -, -, -, hback, -⟩ := hread 0 90 (by decide)
    exact hback (-3) (by decide) (by decide)
  · obtain ⟨i, hi, hoffset, -⟩ := hwords 0x2E5E (by decide) (by decide)
    obtain ⟨o, ho, hread⟩ := hoffset (by decide) 30 (by simp only [lowBits_eq_emod]; rfl)
    cases hread
    exact ⟨i, hi, ho⟩
  · obtain ⟨i, hi, -, hlabel⟩ := hwords 0x3FFF (by decide) (by decide)
    obtain ⟨l, hl, hread⟩ := hlabel (by decide) 127 (by simp only [lowBits_eq_emod]; rfl)
    cases hread
    exact ⟨i, hi, hl⟩

end Instruction

end OutOfOrder
