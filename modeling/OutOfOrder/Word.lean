/-!
# Words of the machine

The machine computes on words of sixteen bits. Memory holds words and is
addressed by words; the eight registers hold words. Values in flight are
integers and become words when they are stored, so `Word.ofInt` is where
a value loses its high bits.

`signExtend` reads the low bits of an integer in two's complement. The
offset and label fields of an instruction are read that way.
-/

namespace OutOfOrder

/-- A machine word: sixteen bits, read as an unsigned number. -/
abbrev Word := Fin 65536

/-- The bits of a word. -/
def Word.bits : Nat := 16

/-- A word of memory is found by its address, which is itself a word. -/
abbrev Address := Fin 65536

/-- One of the eight registers. -/
abbrev Reg := Fin 8

/-- There are words, so a numeral may stand for one. -/
instance (priority := high) wordsNeZero : @NeZero Nat Zero.ofOfNat0 65536 := ⟨by decide⟩

/-- There are registers, so a numeral may stand for one. -/
instance (priority := high) regsNeZero : @NeZero Nat Zero.ofOfNat0 8 := ⟨by decide⟩

/-- The low sixteen bits of an integer. -/
def Word.ofInt (v : Int) : Word := ⟨(v % 65536).toNat, by omega⟩

/-- The integer a word stands for when it is read. -/
def Word.toInt (w : Word) : Int := w.val

/-- The register that CALL writes its return address to and RET reads. -/
def Reg.link : Reg := 1

/-- **The value kept of an integer.** What is left after a result has gone
through a word: its remainder modulo 65536. -/
def wrap (v : Int) : Int := v % 65536

theorem Word.toInt_ofInt (v : Int) : (Word.ofInt v).toInt = wrap v := by
  simp only [Word.toInt, Word.ofInt, wrap]
  omega

theorem wrap_nonneg (v : Int) : 0 ≤ wrap v := by
  simp only [wrap]
  omega

theorem wrap_lt (v : Int) : wrap v < 65536 := by
  simp only [wrap]
  omega

/-- An integer in the range of addresses is one. -/
theorem toNat_lt_of_inRange {a : Int} (h : 0 ≤ a ∧ a < 65536) : a.toNat < 65536 := by omega

namespace Word

theorem toInt_inRange (w : Word) : 0 ≤ w.toInt ∧ w.toInt < 65536 := by
  rw [toInt]
  omega

theorem toInt_toNat {a : Int} (h : 0 ≤ a ∧ a < 65536) :
    Word.toInt ⟨a.toNat, toNat_lt_of_inRange h⟩ = a := by
  simp only [toInt]
  omega

theorem exists_toInt {a : Int} (h : 0 ≤ a ∧ a < 65536) : ∃ w : Word, a = w.toInt :=
  ⟨_, (toInt_toNat h).symm⟩

theorem ofInt_toInt (w : Word) : Word.ofInt w.toInt = w := by
  apply Fin.ext
  simp only [ofInt, toInt]
  omega

theorem toInt_inj {a b : Word} : a.toInt = b.toInt ↔ a = b := by
  simp only [toInt, Fin.ext_iff]
  omega

end Word

/-- The low `bits` bits of an integer, read in two's complement. -/
def signExtend (value : Int) (bits : Nat) : Int :=
  let low := value % (1 <<< bits : Nat)
  if ((1 <<< (bits - 1) : Nat) : Int) ≤ low then low - (1 <<< bits : Nat) else low

/-- The reading of one bit or more lies in the two's complement range of
that many bits. -/
theorem signExtend_bounds (value : Int) (n : Nat) :
    -((1 <<< n : Nat) : Int) ≤ signExtend value (n + 1) ∧
      signExtend value (n + 1) < (1 <<< n : Nat) := by
  have hp : 0 < 1 <<< n := by
    rw [Nat.one_shiftLeft]
    exact Nat.two_pow_pos n
  have hd : 1 <<< (n + 1) = 2 * 1 <<< n := Nat.shiftLeft_succ ..
  have hlo := Int.emod_nonneg value (b := (1 <<< (n + 1) : Nat)) (by omega)
  have hhi := Int.emod_lt_of_pos value (b := (1 <<< (n + 1) : Nat)) (by omega)
  simp only [signExtend, Nat.add_sub_cancel]
  omega

end OutOfOrder
