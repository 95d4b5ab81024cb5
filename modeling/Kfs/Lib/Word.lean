import Mathlib.Data.Nat.Bitwise
import Mathlib.Tactic.Common

/-!
# Splitting a machine word at a bit

A mask of the low `k` bits is a remainder, a mask of the bits from `k` up is a rounding down,
and the `or` of an aligned word with a word below `2 ^ k` is their sum.  The width and the
split point are parameters.
-/

namespace Lib.Word

variable {w k : Nat}

private theorem and_high_nat {x : Nat} (hx : x < 2 ^ w) (hk : k ≤ w) :
    x &&& (2 ^ w - 2 ^ k) = 2 ^ k * (x / 2 ^ k) := by
  have hmask : 2 ^ w - 2 ^ k = 2 ^ k * (2 ^ (w - k) - 1) := by
    rw [Nat.mul_sub, ← Nat.pow_add, Nat.add_sub_cancel' hk, Nat.mul_one]
  apply Nat.eq_of_testBit_eq
  intro i
  rw [Nat.testBit_and, hmask, Nat.testBit_two_pow_mul, Nat.testBit_two_pow_mul,
    Nat.testBit_two_pow_sub_one, Nat.testBit_div_two_pow]
  by_cases hi : k ≤ i
  · rw [Nat.sub_add_cancel hi]
    by_cases hiw : i < w
    · simp [hi, show i - k < w - k by omega]
    · have hbit : x.testBit i = false := Nat.testBit_lt_two_pow
        (Nat.lt_of_lt_of_le hx (Nat.pow_le_pow_right (by decide) (by omega)))
      simp [hbit]
  · simp [hi]

/-- The bits from `k` up. -/
theorem toNat_and_high (x : BitVec w) {m : BitVec w} (hk : k ≤ w)
    (hm : m.toNat = 2 ^ w - 2 ^ k) : (x &&& m).toNat = 2 ^ k * (x.toNat / 2 ^ k) := by
  rw [BitVec.toNat_and, hm]
  exact and_high_nat x.isLt hk

/-- The bits below `k`. -/
theorem toNat_and_low (x : BitVec w) {m : BitVec w} (hm : m.toNat = 2 ^ k - 1) :
    (x &&& m).toNat = x.toNat % 2 ^ k := by
  rw [BitVec.toNat_and, hm]
  exact Nat.and_two_pow_sub_one_eq_mod _ _

theorem toNat_shiftRight (x : BitVec w) (i : Nat) : (x >>> i).toNat = x.toNat / 2 ^ i := by
  rw [BitVec.toNat_ushiftRight, Nat.shiftRight_eq_div_pow]

/-- An aligned word and a word below the alignment do not share a bit. -/
theorem toNat_or_of_aligned {x y : BitVec w} (hx : x.toNat % 2 ^ k = 0) (hy : y.toNat < 2 ^ k) :
    (x ||| y).toNat = x.toNat + y.toNat := by
  obtain ⟨q, hq⟩ : 2 ^ k ∣ x.toNat := Nat.dvd_of_mod_eq_zero hx
  rw [BitVec.toNat_or, hq, Nat.two_pow_add_eq_or_of_lt hy]

/-- The `or` of two words below `2 ^ k` is below `2 ^ k`. -/
theorem toNat_or_lt {x y : BitVec w} (hx : x.toNat < 2 ^ k) (hy : y.toNat < 2 ^ k) :
    (x ||| y).toNat < 2 ^ k := by
  rw [BitVec.toNat_or]
  exact Nat.or_lt_two_pow hx hy

/-- A test of one bit. -/
theorem and_twoPow_eq_zero (x : BitVec w) (i : Nat) :
    x &&& BitVec.twoPow w i = 0#w ↔ x.getLsbD i = false := by
  rw [BitVec.and_twoPow]
  cases h : x.getLsbD i with
  | false => simp
  | true =>
    have hi : i < w := BitVec.lt_of_getLsbD h
    simp only [if_true, Bool.true_eq_false, iff_false]
    intro h0
    have hbit := congrArg (fun y => y.getLsbD i) h0
    simp [hi] at hbit

/-- A low bit does not see the bits from `k` up. -/
theorem getLsbD_or_of_aligned {x : BitVec w} (hx : x.toNat % 2 ^ k = 0) (y : BitVec w) {i : Nat}
    (hi : i < k) : (x ||| y).getLsbD i = y.getLsbD i := by
  have hbit : x.getLsbD i = false := by
    obtain ⟨q, hq⟩ : 2 ^ k ∣ x.toNat := Nat.dvd_of_mod_eq_zero hx
    rw [BitVec.getLsbD, hq, Nat.testBit_two_pow_mul]
    simp [Nat.not_le.mpr hi]
  rw [BitVec.getLsbD_or, hbit, Bool.false_or]

end Lib.Word
