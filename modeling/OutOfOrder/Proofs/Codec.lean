import Mathlib.Data.Int.ModEq
import OutOfOrder.Instruction.Build
import OutOfOrder.Instruction.Codec
import OutOfOrder.Machine.Load
/-!
# The laws of the instruction words

Encoding keeps all of an instruction but the high bits of its offset, so
what is read back of a word is the instruction it was made of, reduced
(`decode_encode`). Decoding keeps all of a word but the bits that its format
has no field for, so what is written back is the word, masked
(`encode_decode`). Each of the two is a retraction of the other: an
instruction that was read, or whose offset was checked, is its own
reduction, and a word that was written is its own mask.

`codec_laws` puts this together for the instructions that `Draft.build`
accepts and for all words, those of an undefined opcode included.
-/

namespace OutOfOrder

/-- What is computed in two parts has a first part. -/
theorem exists_of_bind_eq_ok {α β : Type} {x : Except Fault α} {f : α → Except Fault β} {b : β}
    (h : x >>= f = .ok b) : ∃ a, x = .ok a ∧ f a = .ok b := by
  cases x with
  | error => cases h
  | ok a => exact ⟨a, rfl, h⟩

/-- What is computed from a part has that part. -/
theorem exists_of_map_eq_ok {α β : Type} {x : Except Fault α} {f : α → β} {b : β}
    (h : x.map f = .ok b) : ∃ a, x = .ok a ∧ f a = b := by
  cases x with
  | error => cases h
  | ok a => exact ⟨a, rfl, Except.ok.inj h⟩

/-- **The reading of a bit field** is the one integer in the range of its
two's complement that has the same low bits. -/
theorem signExtend_eq_iff {value v : Int} {n : Nat} :
    signExtend value (n + 1) = v ↔
      -((1 <<< n : Nat) : Int) ≤ v ∧ v < (1 <<< n : Nat) ∧
        v % (1 <<< (n + 1) : Nat) = value % (1 <<< (n + 1) : Nat) := by
  have hd : 1 <<< (n + 1) = 2 * 1 <<< n := Nat.shiftLeft_succ ..
  have hlow := signExtend_bounds value n
  have hmod : signExtend value (n + 1) % (1 <<< (n + 1) : Nat) =
      value % (1 <<< (n + 1) : Nat) := by
    simp only [signExtend]
    split
    · rw [Int.sub_emod_right, Int.emod_emod]
    · rw [Int.emod_emod]
  constructor
  · rintro rfl
    exact ⟨hlow.1, hlow.2, hmod⟩
  · rintro ⟨hlo, hhi, heq⟩
    -- Both lie in one period of the remainder.
    have hdvd : ((1 <<< (n + 1) : Nat) : Int) ∣ v - signExtend value (n + 1) :=
      Int.ModEq.dvd (hmod.trans heq.symm)
    have hzero := Int.eq_zero_of_abs_lt_dvd hdvd (abs_lt.2 ⟨by omega, by omega⟩)
    omega

namespace Field

/-- The bits of a word that hold the field. -/
def mask : Field → Nat
  | rA => 0x0E00
  | rB => 0x01C0
  | rC => 0x0038
  | offset => 0x001F
  | label => 0x007F

end Field

namespace Instruction

variable {i i' : Instruction}

/-- The instruction with its offset reduced to five bits. -/
def truncated : Instruction → Instruction
  | load rA rB o => load rA rB (signExtend o 5)
  | store rA rB o => store rA rB (signExtend o 5)
  | beq rA rB o => beq rA rB (signExtend o 5)
  | i => i

/-- A word of the format with two registers and an offset. -/
theorem fields_of_offset {w : Word} {c : Nat} {rA rB : Reg} {o : Int}
    (h : w.val = c * 4096 + (rA * 512 + rB * 64 + (o % 32).toNat)) :
    w.val / 4096 = c ∧ regField w 512 = rA ∧ regField w 64 = rB ∧
      signExtend w.toInt 5 = signExtend o 5 := by
  obtain ⟨hlo, hhi, hmod⟩ := signExtend_eq_iff.1 (rfl : signExtend o (4 + 1) = _)
  refine ⟨by omega, Fin.ext ?_, Fin.ext ?_, signExtend_eq_iff.2 ⟨hlo, hhi, hmod.trans ?_⟩⟩
  · simp only [regField]
    omega
  · simp only [regField]
    omega
  · change o % 32 = (w.val : Int) % 32
    omega

/-- A word of the format with three registers. -/
theorem fields_of_registers {w : Word} {c : Nat} {rA rB rC : Reg}
    (h : w.val = c * 4096 + (rA * 512 + rB * 64 + rC * 8)) :
    w.val / 4096 = c ∧ regField w 512 = rA ∧ regField w 64 = rB ∧ regField w 8 = rC := by
  refine ⟨by omega, Fin.ext ?_, Fin.ext ?_, Fin.ext ?_⟩ <;> simp only [regField] <;> omega

/-- A word of the format with a label. -/
theorem fields_of_label {w : Word} {c : Nat} {l : Label}
    (h : w.val = c * 4096 + (l.val % 128).toNat) : w.val / 4096 = c ∧ labelField w = l := by
  refine ⟨by omega, Subtype.ext (signExtend_eq_iff.2 ⟨?_, ?_, ?_⟩)⟩
  · exact l.property.1
  · exact Int.lt_of_le_of_lt l.property.2 (by decide)
  · change l.val % 128 = (w.val : Int) % 128
    omega

/-- A word whose opcode names no operation. -/
theorem decode_of_undefined {w : Word} {code : Fin 7} (h : w.val / 4096 = code + 9) :
    decode w = undefined code (regField w 512) (regField w 64) (regField w 8) := by
  unfold decode
  split <;> rename_i h' <;> cases h.symm.trans h'
  rfl

/-- **What is read back of an instruction.** A word keeps all of it but the
high bits of its offset. -/
theorem decode_encode (i : Instruction) : decode i.encode = i.truncated := by
  rcases i with ⟨rA, rB, o⟩ | ⟨rA, rB, o⟩ | ⟨rA, rB, o⟩ | l | _ | ⟨op, rA, rB, rC⟩ |
    ⟨code, rA, rB, rC⟩
  case load =>
    obtain ⟨hop, hA, hB, ho⟩ := fields_of_offset (w := encode (load rA rB o)) (c := 0) rfl
    unfold decode
    split <;> rename_i h <;> cases hop.symm.trans h
    rw [hA, hB, ho, truncated]
  case store =>
    obtain ⟨hop, hA, hB, ho⟩ := fields_of_offset (w := encode (store rA rB o)) (c := 1) rfl
    unfold decode
    split <;> rename_i h <;> cases hop.symm.trans h
    rw [hA, hB, ho, truncated]
  case beq =>
    obtain ⟨hop, hA, hB, ho⟩ := fields_of_offset (w := encode (beq rA rB o)) (c := 2) rfl
    unfold decode
    split <;> rename_i h <;> cases hop.symm.trans h
    rw [hA, hB, ho, truncated]
  case call =>
    obtain ⟨hop, hl⟩ := fields_of_label (w := encode (call l)) (c := 3) rfl
    unfold decode
    split <;> rename_i h <;> cases hop.symm.trans h
    rw [hl]
    rfl
  case ret => rfl
  case alu =>
    obtain ⟨hop, hA, hB, hC⟩ := fields_of_registers (w := encode (alu op rA rB rC)) rfl
    unfold decode
    cases op <;> split <;> rename_i h <;> cases hop.symm.trans h
    all_goals
      rw [hA, hB, hC]
      rfl
  case undefined =>
    obtain ⟨hop, hA, hB, hC⟩ := fields_of_registers (w := encode (undefined code rA rB rC)) rfl
    rw [decode_of_undefined hop, hA, hB, hC]
    rfl

theorem truncated_of_offsetFits (h : i.offsetFits) : i.truncated = i := by
  have key : ∀ o : Int, -16 ≤ o ∧ o ≤ 15 → signExtend o 5 = o := fun o ho =>
    signExtend_eq_iff.2 ⟨ho.1, Int.lt_of_le_of_lt ho.2 (by decide), rfl⟩
  cases i with
  | load rA rB o | store rA rB o | beq rA rB o =>
    rw [truncated, key o (by simpa [offsetFits, offset?] using h)]
  | _ => rfl

/-- **An instruction whose offset fits is read back.** -/
theorem decode_encode_of_offsetFits (h : i.offsetFits) : decode i.encode = i := by
  rw [decode_encode, truncated_of_offsetFits h]

/-- The reduction is a matter of the word: it changes no bit of it. -/
theorem encode_truncated (i : Instruction) : i.truncated.encode = i.encode := by
  have key : ∀ o : Int, signExtend o 5 % 32 = o % 32 := fun o =>
    (signExtend_eq_iff.1 (rfl : signExtend o (4 + 1) = _)).2.2
  cases i with
  | load rA rB o | store rA rB o | beq rA rB o =>
    exact Fin.ext (by simp only [truncated, encode, opcode, fieldBits, key])
  | _ => rfl

/-- **Two instructions share a word** exactly if they have one reduction. -/
theorem encode_eq_encode_iff : i.encode = i'.encode ↔ i.truncated = i'.truncated := by
  constructor
  · intro h
    rw [← decode_encode, ← decode_encode, h]
  · intro h
    rw [← encode_truncated, h, encode_truncated]

/-- The instruction with another offset, where it has one. -/
def withOffset (v : Int) : Instruction → Instruction
  | load rA rB _ => load rA rB v
  | store rA rB _ => store rA rB v
  | beq rA rB _ => beq rA rB v
  | i => i

/-- `i'` is `i` where `i` has no offset, and else `i` with the one offset
from −16 to 15 that is congruent to its own modulo 32. -/
def ReducesTo (i i' : Instruction) : Prop :=
  match i.offset? with
  | none => i' = i
  | some o => ∃ v, (∀ v', v' = v ↔ -16 ≤ v' ∧ v' ≤ 15 ∧ v' % 32 = o % 32) ∧ i' = i.withOffset v

theorem reducesTo_truncated (i : Instruction) : i.ReducesTo i.truncated := by
  have key : ∀ o v : Int, v = signExtend o 5 ↔ -16 ≤ v ∧ v ≤ 15 ∧ v % 32 = o % 32 := by
    intro o v
    rw [eq_comm, signExtend_eq_iff]
    change -16 ≤ v ∧ v < 16 ∧ v % 32 = o % 32 ↔ _
    omega
  cases i with
  | load rA rB o | store rA rB o | beq rA rB o => exact ⟨signExtend o 5, key o, rfl⟩
  | _ => rfl

end Instruction

/-- **What a mask of two runs of bits keeps**: the bits from the `k`-th on,
and the `l` lowest. -/
theorem and_two_runs {n j k l : Nat} (hn : n < 2 ^ (k + j)) (hl : l ≤ k) :
    n &&& (2 ^ k * (2 ^ j - 1) + (2 ^ l - 1)) = 2 ^ k * (n / 2 ^ k) + n % 2 ^ l := by
  have hpow : 2 ^ l ≤ 2 ^ k := Nat.pow_le_pow_right (by decide) hl
  have hlow : 2 ^ l - 1 < 2 ^ k := Nat.lt_of_lt_of_le (Nat.pred_lt (Nat.two_pow_pos l).ne') hpow
  have hrest : n % 2 ^ l < 2 ^ k := Nat.lt_of_lt_of_le (Nat.mod_lt n (Nat.two_pow_pos l)) hpow
  have hhigh : n / 2 ^ k &&& 2 ^ j - 1 = n / 2 ^ k := by
    rw [Nat.and_two_pow_sub_one_eq_mod, Nat.mod_eq_of_lt]
    exact Nat.div_lt_of_lt_mul (by rwa [← Nat.pow_add])
  refine Nat.eq_of_testBit_eq fun b => ?_
  rw [Nat.testBit_and, Nat.testBit_two_pow_mul_add _ hlow, Nat.testBit_two_pow_mul_add _ hrest]
  by_cases hb : b < k
  · rw [if_pos hb, if_pos hb, ← Nat.testBit_and, Nat.and_two_pow_sub_one_eq_mod]
  · -- Above the first run a bit of `n` is one of its quotient.
    have hquot : n.testBit b = (n / 2 ^ k).testBit (b - k) := by
      rw [Nat.testBit_div_two_pow, Nat.sub_add_cancel (Nat.le_of_not_lt hb)]
    rw [if_neg hb, if_neg hb, hquot, ← Nat.testBit_and, hhigh]

/-! ### The bits that each format uses -/

section Masks

variable {n : Nat} (hn : n < 65536)
include hn

theorem and_offset_mask :
    n &&& 0xFFDF = n / 4096 * 4096 + (n / 512 % 8 * 512 + n / 64 % 8 * 64 + n % 32) := by
  refine (and_two_runs (k := 6) (j := 10) (l := 5) hn (by decide)).trans ?_
  omega

theorem and_registers_mask :
    n &&& 0xFFF8 = n / 4096 * 4096 + (n / 512 % 8 * 512 + n / 64 % 8 * 64 + n / 8 % 8 * 8) := by
  refine (and_two_runs (k := 3) (j := 13) (l := 0) hn (by decide)).trans ?_
  omega

theorem and_label_mask : n &&& 0xF07F = n / 4096 * 4096 + n % 128 := by
  refine (and_two_runs (k := 12) (j := 4) (l := 7) hn (by decide)).trans ?_
  omega

theorem and_opcode_mask : n &&& 0xF000 = n / 4096 * 4096 + 0 := by
  refine (and_two_runs (k := 12) (j := 4) (l := 0) hn (by decide)).trans ?_
  omega

end Masks

namespace Instruction

variable {i : Instruction} {op : OpCode} {d : Draft} {checked : Bool}

/-- The fields of the format. An undefined opcode has those of a computing
instruction. -/
def fields (i : Instruction) : List Field :=
  match i.opCode? with
  | some op => op.fields
  | none => [.rA, .rB, .rC]

/-- The bits of a word that the format uses: the opcode and the fields. -/
def formatMask (i : Instruction) : Nat :=
  i.fields.foldl (fun bits f => bits ||| f.mask) 0xF000

theorem opcode_decode (w : Word) : (decode w).opcode = w.val / 4096 := by
  unfold decode
  split <;> rename_i h <;> exact h.symm

/-- **What is written back of a word.** All of it is kept but the bits that
the format does not use. -/
theorem encode_decode (w : Word) : (decode w).encode.val = w.val &&& (decode w).formatMask := by
  have hoffset : (signExtend w.toInt 5 % 32).toNat = w.val % 32 := by
    have hmod : signExtend w.toInt 5 % 32 = (w.val : Int) % 32 :=
      (signExtend_eq_iff.1 (rfl : signExtend w.toInt (4 + 1) = _)).2.2
    omega
  have hlabel : (signExtend w.toInt 7 % 128).toNat = w.val % 128 := by
    have hmod : signExtend w.toInt 7 % 128 = (w.val : Int) % 128 :=
      (signExtend_eq_iff.1 (rfl : signExtend w.toInt (6 + 1) = _)).2.2
    omega
  rw [show (decode w).encode.val = (decode w).opcode * 4096 + (decode w).fieldBits from rfl,
    opcode_decode]
  unfold decode
  split
  case h_1 | h_2 | h_3 =>
    simp only [fieldBits, regField, hoffset]
    exact (and_offset_mask w.isLt).symm
  case h_4 =>
    simp only [fieldBits, labelField, hlabel]
    exact (and_label_mask w.isLt).symm
  case h_5 => exact (and_opcode_mask w.isLt).symm
  all_goals exact (and_registers_mask w.isLt).symm

theorem offsetFits_decode (w : Word) : (decode w).offsetFits := by
  have hfits : -16 ≤ signExtend w.toInt 5 ∧ signExtend w.toInt 5 < 16 :=
    signExtend_bounds w.toInt 4
  unfold decode
  split <;> simp only [offsetFits, offset?, Option.all_none, Option.all_some, Bool.and_eq_true,
    decide_eq_true_eq] <;> omega

/-- **An instruction that was read is written and read again as it is.** -/
theorem decode_encode_decode (w : Word) : decode (decode w).encode = decode w :=
  decode_encode_of_offsetFits (offsetFits_decode w)

theorem decode?_toInt (w : Word) : decode? w.toInt = .ok (decode w) := by
  have hw := Word.toInt_inRange w
  rw [decode?, if_pos ⟨hw.1, by omega⟩, Word.ofInt_toInt]

theorem opCode?_isSome_iff : i.opCode?.isSome ↔ i.opcode ≤ 8 := by
  cases i with
  | alu op => cases op <;> simp [opCode?, opcode, AluOp.opCode, OpCode.code]
  | _ => simp [opCode?, opcode]

/-- The draft that gives an instruction by the number of its opcode and the
fields it has. -/
def draft (i : Instruction) : Draft where
  opcode := .number i.opcode
  rA := i.rA?.map fun r => r.val
  rB := i.rB?.map fun r => r.val
  rC := i.rC?.map fun r => r.val
  offset := i.offset?
  label := i.label?

theorem regOfField_val (f : Field) (r : Reg) : regOfField f (some (r.val : Int)) = .ok r := by
  rw [regOfField]
  simp only [Option.getD_some]
  rw [dif_pos ⟨by omega, by omega⟩]
  exact congrArg Except.ok (Fin.ext (by simp))

theorem labelOfField_val (l : Label) : labelOfField (some l.val) = .ok l := by
  rw [labelOfField]
  exact dif_pos l.property

theorem offsetOfField_eq_ok_iff {given : Option Int} {o : Int} :
    offsetOfField checked given = .ok o ↔
      given.getD 0 = o ∧ (checked → -16 ≤ o ∧ o ≤ 15) := by
  cases checked
  · simp [offsetOfField]
  · simp only [offsetOfField, Bool.true_and, Bool.not_eq_true', Bool.and_eq_false_iff,
      decide_eq_false_iff_not]
    split <;> simp <;> omega

theorem offsetFits_iff : i.offsetFits ↔ ∀ o, i.offset? = some o → -16 ≤ o ∧ o ≤ 15 := by
  cases h : i.offset? <;> simp [offsetFits, h]

/-- **Every instruction of a defined opcode can be built** from its own
fields, if its offset is allowed. -/
theorem build_draft (hop : i.opCode? = some op) (hoff : checked → i.offsetFits) :
    i.draft.build checked = .ok i := by
  have hoffset : ∀ o, i.offset? = some o → offsetOfField checked (some o) = .ok o := fun o ho =>
    offsetOfField_eq_ok_iff.2 ⟨rfl, fun hc => offsetFits_iff.1 (hoff hc) o ho⟩
  have hcode : i.draft.opcode.opCode? = some op := by
    cases i <;> cases hop
    case alu op' rA rB rC => cases op' <;> rfl
    all_goals rfl
  have hstray : i.draft.strayField? op = none := by
    cases i <;> cases hop
    case alu op' rA rB rC => cases op' <;> rfl
    all_goals rfl
  rw [Draft.build, hcode]
  simp only [hstray]
  cases i <;> cases hop
  case load rA rB o | store rA rB o | beq rA rB o =>
    simp only [Draft.fill, Draft.offsetFields, draft, rA?, rB?, offset?, Option.map_some,
      regOfField_val, hoffset o rfl]
    rfl
  case call l =>
    simp only [Draft.fill, draft, label?, labelOfField_val]
    rfl
  case ret => rfl
  case alu op' rA rB rC =>
    cases op' <;> simp only [AluOp.opCode, Draft.fill, Draft.computing, draft, rA?, rB?, rC?,
      Option.map_some, regOfField_val] <;> rfl

theorem fits_of_offsetFields {rA rB : Reg} {o : Int} (h : d.offsetFields true = .ok (rA, rB, o)) :
    -16 ≤ o ∧ o ≤ 15 := by
  obtain ⟨rA', -, h⟩ := exists_of_bind_eq_ok h
  obtain ⟨rB', -, h⟩ := exists_of_bind_eq_ok h
  obtain ⟨o', hoff, h⟩ := exists_of_bind_eq_ok h
  cases h
  exact (offsetOfField_eq_ok_iff.1 hoff).2 rfl

theorem offset?_of_computing {op : AluOp} (h : d.computing op = .ok i) : i.offset? = none := by
  obtain ⟨rA, -, h⟩ := exists_of_bind_eq_ok h
  obtain ⟨rB, -, h⟩ := exists_of_bind_eq_ok h
  obtain ⟨rC, -, h⟩ := exists_of_bind_eq_ok h
  cases h
  rfl

/-- What is built with offsets checked has an offset that fits. -/
theorem offsetFits_of_build (h : d.build true = .ok i) : i.offsetFits := by
  obtain ⟨op, h⟩ : ∃ op, d.fill true op = .ok i := by
    unfold Draft.build at h
    split at h
    · cases h
    · split at h
      · cases h
      · exact ⟨_, h⟩
  refine offsetFits_iff.2 fun o ho => ?_
  cases op
  case load | store | beq =>
    obtain ⟨⟨rA, rB, o'⟩, hfields, rfl⟩ := exists_of_map_eq_ok h
    cases ho
    exact fits_of_offsetFields hfields
  case call =>
    obtain ⟨l, -, rfl⟩ := exists_of_map_eq_ok h
    cases ho
  case ret =>
    cases h
    cases ho
  all_goals
    rw [offset?_of_computing h] at ho
    cases ho

/-- **The laws of the codec.** An instruction that is accepted has a word,
and the word reads back as the instruction with its offset reduced to five
bits, hence as itself where offsets are checked; two share a word exactly if
they reduce to the same. A word is the word of what it reads as but for the
bits that the format does not use, which are cleared, and it reads again as
the same; with an opcode that is defined it reads as an instruction that is
accepted with offsets checked. -/
theorem codec_laws :
    (∀ (d : Draft) (checked : Bool) (i : Instruction), d.build checked = .ok i →
      (0 ≤ i.encode.toInt ∧ i.encode.toInt ≤ 65535) ∧
      decode? i.encode.toInt = .ok i.truncated ∧ i.ReducesTo i.truncated ∧
      (checked → i.truncated = i) ∧
      ∀ (d' : Draft) (checked' : Bool) (i' : Instruction), d'.build checked' = .ok i' →
        (i.encode = i'.encode ↔ i.truncated = i'.truncated)) ∧
    ∀ v : Int, 0 ≤ v → v ≤ 65535 → ∃ i, decode? v = .ok i ∧
      i.opcode = v / 4096 ∧ (i.opCode?.isSome ↔ v / 4096 ≤ 8) ∧
      i.encode.val = v.toNat &&& i.formatMask ∧
      decode? i.encode.toInt = .ok i ∧
      (i.opCode?.isSome → ∃ d : Draft, d.build true = .ok i) := by
  constructor
  · intro d checked i hbuild
    have hword := Word.toInt_inRange i.encode
    refine ⟨⟨hword.1, by omega⟩, by rw [decode?_toInt, decode_encode], reducesTo_truncated i,
      fun hchecked => ?_, fun _ _ _ _ => encode_eq_encode_iff⟩
    subst hchecked
    exact truncated_of_offsetFits (offsetFits_of_build hbuild)
  · intro v hlo hhi
    obtain ⟨w, rfl⟩ := Word.exists_toInt (a := v) ⟨hlo, by omega⟩
    have hcode : ((decode w).opcode : Int) = w.toInt / 4096 := by
      rw [opcode_decode]
      rfl
    refine ⟨decode w, decode?_toInt w, hcode, ?_, encode_decode w, ?_, fun hop => ?_⟩
    · rw [opCode?_isSome_iff]
      omega
    · rw [decode?_toInt, decode_encode_decode]
    · obtain ⟨op, hop⟩ := Option.isSome_iff_exists.1 hop
      exact ⟨_, build_draft hop fun _ => offsetFits_decode w⟩

/-- An offset of 45 is accepted where offsets are not checked, and the word
reads back with the offset 13. The largest word has an undefined opcode, and
loses its three lowest bits. -/
theorem codec_laws_truncated :
    (∃ i, Draft.build { opcode := .number 2, offset := some 45 } false = .ok i ∧
      decode? i.encode.toInt = .ok (beq 0 0 13)) ∧
    ∃ i, decode? 65535 = .ok i ∧ i.opCode? = none ∧ i.encode.val = 65535 &&& i.formatMask ∧
      decode? i.encode.toInt = .ok i := by
  have hbuild : Draft.build { opcode := .number 2, offset := some 45 } false =
      .ok (beq 0 0 45) := rfl
  constructor
  · obtain ⟨-, hread, -⟩ := codec_laws.1 _ _ _ hbuild
    exact ⟨_, hbuild, hread⟩
  · obtain ⟨i, hread, -, hdefined, hmask, hagain, -⟩ := codec_laws.2 65535 (by decide) (by decide)
    refine ⟨i, hread, ?_, hmask, hagain⟩
    simpa using hdefined

end Instruction

end OutOfOrder
