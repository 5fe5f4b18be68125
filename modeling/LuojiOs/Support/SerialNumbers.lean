import Mathlib.Algebra.Order.Ring.Nat
import Mathlib.Algebra.Ring.Int.Defs

/-!
# Serial numbers

Positions counted in words of `w` bits.  Two positions that are less than half the words apart are
compared through the sign of the difference of their numbers.
-/

namespace SerialNumbers

variable {w : ℕ} (base : BitVec w) {m n : ℕ}

/-- The number of a position. -/
def num (n : ℕ) : BitVec w := base + BitVec.ofNat w n

theorem num_add (n k : ℕ) : num base (n + k) = num base n + BitVec.ofNat w k := by
  unfold num
  rw [BitVec.ofNat_add, BitVec.add_assoc]

theorem num_add_sub (n k : ℕ) : num base (n + k) - num base n = BitVec.ofNat w k := by
  rw [num_add, BitVec.add_comm, BitVec.add_sub_cancel]

/-- Two positions are less than half the words apart. -/
def Near (w m n : ℕ) : Prop := m < n + 2 ^ (w - 1) ∧ n < m + 2 ^ (w - 1)

theorem num_sub (m n : ℕ) : num base m - num base n = BitVec.ofInt w (m - n) := by
  have hm : BitVec.ofNat w m = BitVec.ofInt w (m - n) + BitVec.ofNat w n := by
    rw [← BitVec.ofInt_natCast w n, ← BitVec.ofInt_add, Int.sub_add_cancel, BitVec.ofInt_natCast]
  unfold num
  rw [hm, BitVec.add_comm (BitVec.ofInt w _), ← BitVec.add_assoc, BitVec.add_comm,
    BitVec.add_sub_cancel]

/-- The difference of the numbers, as one with a sign, is that of the positions. -/
theorem toInt_num_sub (hw : 0 < w) (h : Near w m n) :
    (num base m - num base n).toInt = (m : ℤ) - n := by
  obtain ⟨hmn, hnm⟩ := h
  have hpow : ((2 ^ (w - 1) : ℕ) : ℤ) = 2 ^ (w - 1) := Int.natCast_pow 2 _
  rw [num_sub]
  apply BitVec.toInt_ofInt_eq_self hw <;> omega

theorem num_inj (hw : 0 < w) (h : Near w m n) : num base m = num base n ↔ m = n := by
  refine ⟨fun heq => ?_, congrArg _⟩
  have hsub := toInt_num_sub base hw h
  rw [heq, BitVec.sub_self, BitVec.toInt_zero] at hsub
  omega

end SerialNumbers
