import Mathlib.Algebra.Order.Field.Basic
import Mathlib.Algebra.Order.Ring.Abs
import Mathlib.Data.Rat.Cast.Order
import Mathlib.Tactic.Linarith
import OutOfOrder.Text.Decimal
/-!
# Rates as they are kept

A rate is rounded twice over: to a natural number of binary places, and with
that to a number of fifty-three binary digits. The first rounding is to the
nearest (`roundDiv_nearest`). So a bound that is a whole number of places is
kept (`roundDiv_le`), and a rate between zero and one stays there
(`binaryFraction_le_one`). It is kept with fifty-two places at least, which
bounds what the rounding takes or adds (`abs_binaryFraction_sub_le`).
-/

namespace OutOfOrder.Text

variable {num den c : Nat} {q : Rat}

/-- **What is rounded is off by a half at most.** -/
theorem roundDiv_nearest (num : Nat) (h : 0 < den) :
    2 * (roundDiv num den * den) ≤ 2 * num + den ∧
      2 * num ≤ 2 * (roundDiv num den * den) + den := by
  have hdiv := Nat.div_add_mod' num den
  have hmod := Nat.mod_lt num h
  have hup : (num / den + 1) * den = num / den * den + den := Nat.succ_mul ..
  simp only [roundDiv]
  split
  · omega
  · split
    · rw [hup]
      omega
    · -- In the middle either neighbour is as near.
      rcases Nat.mod_two_eq_zero_or_one (num / den) with h | h <;> rw [h]
      · rw [Nat.add_zero]
        omega
      · rw [hup]
        omega

/-- A natural number that is not exceeded is not exceeded by what is
rounded. -/
theorem roundDiv_le (h : 0 < den) (hle : num ≤ c * den) : roundDiv num den ≤ c := by
  by_contra hlt
  have hmul : (c + 1) * den ≤ roundDiv num den * den := Nat.mul_le_mul_right _ (by omega)
  have hnear := (roundDiv_nearest num h).1
  rw [Nat.succ_mul] at hmul
  omega

/-- A rate below one is kept with fifty-two places at least. -/
theorem le_binaryPlaces (h : num ≤ den) : 52 ≤ binaryPlaces num den := by
  have hlog : num.log2 ≤ den.log2 := by
    rcases Nat.eq_zero_or_pos num with rfl | hpos
    · exact Nat.zero_le _
    · exact (Nat.le_log2 (by omega)).2 ((Nat.log2_self_le (by omega)).trans h)
  simp only [binaryPlaces]
  split <;> omega

/-- The value of a rate as a quotient of two natural numbers. -/
theorem eq_toNat_div_den (h : 0 ≤ q) : q = (q.num.toNat : Rat) / q.den := by
  have hnum : ((q.num.toNat : Int) : Rat) = q.num := by
    rw [Int.toNat_of_nonneg (Rat.num_nonneg.2 h)]
  rw [← Int.cast_natCast q.num.toNat, hnum, Rat.num_div_den]

theorem toNat_num_le_den (h : 0 ≤ q) (hle : q ≤ 1) : q.num.toNat ≤ q.den := by
  rw [eq_toNat_div_den h, div_le_one (Nat.cast_pos.2 q.den_pos)] at hle
  exact Nat.cast_le.1 hle

theorem binaryFraction_eq (q : Rat) : binaryFraction q =
    (roundDiv (q.num.toNat * 2 ^ binaryPlaces q.num.toNat q.den) q.den : Rat) /
      2 ^ binaryPlaces q.num.toNat q.den := by
  rw [binaryFraction]
  simp [Rat.mkRat_eq_div, Nat.shiftLeft_eq]

theorem binaryFraction_nonneg (q : Rat) : 0 ≤ binaryFraction q := by
  rw [binaryFraction_eq]
  exact div_nonneg (Nat.cast_nonneg _) (pow_nonneg (by norm_num) _)

/-- **A rate of at most one is kept as one of at most one.** -/
theorem binaryFraction_le_one (h : 0 ≤ q) (hle : q ≤ 1) : binaryFraction q ≤ 1 := by
  rw [binaryFraction_eq, div_le_one (pow_pos (by norm_num) _)]
  have hround := roundDiv_le q.den_pos
    ((Nat.mul_comm ..).trans_le (Nat.mul_le_mul_left (2 ^ binaryPlaces q.num.toNat q.den)
      (toNat_num_le_den h hle)))
  exact_mod_cast hround

/-- **And it is kept as what it is**, but for half a unit of the last place. -/
theorem abs_binaryFraction_sub_le (h : 0 ≤ q) (hle : q ≤ 1) :
    |binaryFraction q - q| ≤ 1 / 2 ^ 53 := by
  obtain ⟨s, hs⟩ : ∃ s, binaryPlaces q.num.toNat q.den = s := ⟨_, rfl⟩
  obtain ⟨r, hr⟩ : ∃ r, roundDiv (q.num.toNat * 2 ^ s) q.den = r := ⟨_, rfl⟩
  have hplaces : (2 : Rat) ^ 52 ≤ 2 ^ s :=
    pow_le_pow_right₀ (by norm_num) (hs ▸ le_binaryPlaces (toNat_num_le_den h hle))
  have hden : (0 : Rat) < q.den := Nat.cast_pos.2 q.den_pos
  have hpow : (0 : Rat) < 2 ^ s := pow_pos (by norm_num) _
  have hnear : |(r : Rat) * q.den - 2 ^ s * q.num.toNat| ≤ q.den / 2 := by
    obtain ⟨hlo, hhi⟩ := roundDiv_nearest (q.num.toNat * 2 ^ s) q.den_pos
    rw [hr] at hlo hhi
    have hlo' : (2 : Rat) * (r * q.den) ≤ 2 * (q.num.toNat * 2 ^ s) + q.den := by
      exact_mod_cast hlo
    have hhi' : (2 : Rat) * (q.num.toNat * 2 ^ s) ≤ 2 * (r * q.den) + q.den := by
      exact_mod_cast hhi
    rw [abs_le]
    constructor <;> linarith
  calc |binaryFraction q - q|
      = |(r : Rat) / 2 ^ s - q.num.toNat / q.den| := by
        rw [binaryFraction_eq, hs, hr, ← eq_toNat_div_den h]
    _ = |(r : Rat) * q.den - 2 ^ s * q.num.toNat| / (2 ^ s * q.den) := by
        rw [div_sub_div _ _ hpow.ne' hden.ne', abs_div, abs_of_pos (mul_pos hpow hden)]
    _ ≤ q.den / 2 / (2 ^ s * q.den) := by gcongr
    _ = 1 / (2 * 2 ^ s) := by
        rw [div_div, ← mul_assoc, div_mul_cancel_right₀ hden.ne', one_div]
    _ ≤ 1 / 2 ^ 53 := one_div_le_one_div_of_le (by norm_num) (by linarith)

end OutOfOrder.Text
