import Mathlib.Data.Nat.Bitwise
import Mathlib.Tactic.Ring

/-!
# Masks of low bits

With the mask `2 ^ k - 1`, `x & m` is the remainder of `x` modulo `2 ^ k`, and `x & ~m` the
greatest multiple of `2 ^ k` that is not above `x`.
-/

namespace Masks

variable {w k : ℕ} {m : BitVec w}

theorem toNat_and_mask (x : BitVec w) (hm : m.toNat = 2 ^ k - 1) :
    (x &&& m).toNat = x.toNat % 2 ^ k := by
  rw [BitVec.toNat_and, hm, Nat.and_two_pow_sub_one_eq_mod]

theorem getLsbD_not_mask (hm : m.toNat = 2 ^ k - 1) {i : ℕ} (hi : i < w) :
    (~~~m).getLsbD i = decide (k ≤ i) := by
  rw [BitVec.getLsbD_not, BitVec.getLsbD, hm, Nat.testBit_two_pow_sub_one]
  by_cases hki : k ≤ i
  · simp [hi, hki, Nat.not_lt.mpr hki]
  · simp [hi, hki, Nat.lt_of_not_le hki]

theorem toNat_and_not_mask (x : BitVec w) (hm : m.toNat = 2 ^ k - 1) :
    (x &&& ~~~m).toNat = x.toNat / 2 ^ k * 2 ^ k := by
  have hshift : x &&& ~~~m = (x >>> k) <<< k := by
    apply BitVec.eq_of_getLsbD_eq
    intro i hi
    rw [BitVec.getLsbD_and, getLsbD_not_mask hm hi]
    simp only [BitVec.getLsbD_shiftLeft, BitVec.getLsbD_ushiftRight, hi]
    by_cases hki : k ≤ i
    · simp [hki, Nat.not_lt.mpr hki]
    · simp [hki, Nat.lt_of_not_le hki]
  have hle := Nat.div_mul_le_self x.toNat (2 ^ k)
  rw [hshift, BitVec.toNat_shiftLeft, BitVec.toNat_ushiftRight, Nat.shiftRight_eq_div_pow,
    Nat.shiftLeft_eq, Nat.mod_eq_of_lt (Nat.lt_of_le_of_lt hle x.isLt)]

/-- The field of `k` bits from the bit `i` on. -/
theorem toNat_field (x : BitVec w) (i : ℕ) (hm : m.toNat = 2 ^ k - 1) :
    ((x >>> i) &&& m).toNat = x.toNat / 2 ^ i % 2 ^ k := by
  rw [toNat_and_mask _ hm, BitVec.toNat_ushiftRight, Nat.shiftRight_eq_div_pow]

/-- A field is put above the bits of `x`. -/
theorem toNat_or_shiftLeft {x y : BitVec w} (hx : x.toNat < 2 ^ k) (hy : y.toNat * 2 ^ k < 2 ^ w) :
    (x ||| y <<< k).toNat = x.toNat + y.toNat * 2 ^ k := by
  rw [BitVec.toNat_or, BitVec.toNat_shiftLeft, Nat.shiftLeft_eq, Nat.mod_eq_of_lt hy,
    Nat.or_comm, ← Nat.shiftLeft_eq, ← Nat.shiftLeft_add_eq_or_of_lt hx, Nat.add_comm]

/-- Rounding up to a multiple of `d`. -/
theorem round_up {d n : ℕ} (hd : 0 < d) :
    d ∣ (n + (d - 1)) / d * d ∧ n ≤ (n + (d - 1)) / d * d ∧ (n + (d - 1)) / d * d < n + d := by
  have hmod := Nat.mod_lt (n + (d - 1)) hd
  have hdiv := Nat.div_add_mod (n + (d - 1)) d
  rw [Nat.mul_comm] at hdiv
  exact ⟨Nat.dvd_mul_left _ _, by omega, by omega⟩

end Masks
