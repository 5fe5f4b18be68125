import LuojiOs.Kernel.Scheduler
import Mathlib.Logic.Basic

/-!
# The ready bitmap

What `__rt_ffs` computes from its byte table, and the bits that the masks of the
thread priorities set and clear.
-/

namespace LuojiOs

/-- `p` is the index of the lowest set bit of `g`. -/
structure IsLowestBit (g : BitVec 32) (p : ℕ) : Prop where
  lt : p < 32
  set : g.getLsbD p = true
  below : ∀ q < p, g.getLsbD q = false

theorem IsLowestBit.le_of_set {g : BitVec 32} {p q : ℕ} (h : IsLowestBit g p)
    (hq : g.getLsbD q = true) : p ≤ q := by
  by_contra hlt
  simp [h.below q (by omega)] at hq

/-- The table holds, for every byte that is not zero, its lowest set bit. -/
theorem lowestBitBitmap_spec :
    ∀ b < 256, b ≠ 0 →
      lowestBitBitmap.getD b 0 < 8 ∧
      b.testBit (lowestBitBitmap.getD b 0) = true ∧
      ∀ q < lowestBitBitmap.getD b 0, b.testBit q = false := by
  decide +kernel

/-- One byte branch of `__rt_ffs`: the bits below byte `s` are zero and the byte,
cut out by `mask`, is not. -/
theorem isLowestBit_of_byte {g mask : BitVec 32} {s : ℕ} (hs : s + 8 ≤ 32)
    (hmask : ∀ i < 32, mask.getLsbD i = decide (s ≤ i ∧ i < s + 8))
    (hlow : ∀ q < s, g.getLsbD q = false) (hne : g &&& mask ≠ 0) :
    IsLowestBit g (lowestBitBitmap.getD ((g &&& mask) >>> s).toNat 0 + s) := by
  have hbit : ∀ q, ((g &&& mask) >>> s).toNat.testBit q =
      (decide (q < 8) && g.getLsbD (s + q)) := by
    intro q
    change ((g &&& mask) >>> s).getLsbD q = _
    rw [BitVec.getLsbD_ushiftRight, BitVec.getLsbD_and]
    by_cases hq : s + q < 32
    · rw [hmask _ hq]
      have hdec : decide (s ≤ s + q ∧ s + q < s + 8) = decide (q < 8) := by
        rw [decide_eq_decide]
        omega
      rw [hdec, Bool.and_comm]
    · have hq8 : ¬q < 8 := by omega
      simp [BitVec.getLsbD_of_ge g (s + q) (by omega), hq8]
  have hlt : ((g &&& mask) >>> s).toNat < 256 := by
    apply Nat.lt_pow_two_of_testBit (n := 8)
    intro q hq
    rw [hbit, decide_eq_false (by omega), Bool.false_and]
  have hnz : ((g &&& mask) >>> s).toNat ≠ 0 := by
    intro hz
    apply hne
    apply BitVec.eq_of_getLsbD_eq
    intro i hi
    rw [BitVec.getLsbD_and, hmask i hi]
    by_cases hin : s ≤ i ∧ i < s + 8
    · have hb := hbit (i - s)
      rw [hz, Nat.zero_testBit, show s + (i - s) = i by omega] at hb
      have hi8 : i - s < 8 := by omega
      simp_all
    · simp [hin]
  obtain ⟨h8, hset, hbelow⟩ := lowestBitBitmap_spec _ hlt hnz
  refine ⟨by omega, ?_, ?_⟩
  · rw [hbit] at hset
    rw [Nat.add_comm]
    exact (Bool.and_eq_true_iff.mp hset).2
  · intro q hq
    by_cases hqs : q < s
    · exact hlow q hqs
    · have hb := hbelow (q - s) (by omega)
      rw [hbit, show s + (q - s) = q by omega] at hb
      have hq8 : q - s < 8 := by omega
      simpa [hq8] using hb

/-- A byte that is masked to zero has no bit set. -/
theorem getLsbD_of_and_mask_eq_zero {g mask : BitVec 32} {q : ℕ}
    (hz : g &&& mask = 0) (hq : mask.getLsbD q = true) : g.getLsbD q = false := by
  have h := congrArg (fun x => x.getLsbD q) hz
  simpa [hq] using h

theorem rtFfs_spec {g : BitVec 32} (hg : g ≠ 0) :
    ∃ p, rtFfs g = p + 1 ∧ IsLowestBit g p := by
  have hm0 : ∀ i < 32, (0xff#32).getLsbD i = decide (0 ≤ i ∧ i < 0 + 8) := by decide
  have hm1 : ∀ i < 32, (0xff00#32).getLsbD i = decide (8 ≤ i ∧ i < 8 + 8) := by decide
  have hm2 : ∀ i < 32, (0xff0000#32).getLsbD i = decide (16 ≤ i ∧ i < 16 + 8) := by decide
  have hm3 : ∀ i < 32, (0xff000000#32).getLsbD i = decide (24 ≤ i ∧ i < 24 + 8) := by
    decide
  by_cases h0 : g &&& 0xff#32 = 0
  · have hlow0 : ∀ q < 8, g.getLsbD q = false := fun q hq =>
      getLsbD_of_and_mask_eq_zero h0 (by rw [hm0 q (by omega)]; simpa using hq)
    by_cases h1 : g &&& 0xff00#32 = 0
    · have hlow1 : ∀ q < 16, g.getLsbD q = false := by
        intro q hq
        by_cases hq8 : q < 8
        · exact hlow0 q hq8
        · exact getLsbD_of_and_mask_eq_zero h1
            (by rw [hm1 q (by omega)]; exact decide_eq_true (by omega))
      by_cases h2 : g &&& 0xff0000#32 = 0
      · have hlow2 : ∀ q < 24, g.getLsbD q = false := by
          intro q hq
          by_cases hq16 : q < 16
          · exact hlow1 q hq16
          · exact getLsbD_of_and_mask_eq_zero h2
              (by rw [hm2 q (by omega)]; exact decide_eq_true (by omega))
        have h3 : g &&& 0xff000000#32 ≠ 0 := by
          intro h3
          apply hg
          apply BitVec.eq_of_getLsbD_eq
          intro i hi
          by_cases hi24 : i < 24
          · simp [hlow2 i hi24]
          · rw [getLsbD_of_and_mask_eq_zero h3
              (by rw [hm3 i hi]; exact decide_eq_true (by omega))]
            simp
        refine ⟨_, ?_, isLowestBit_of_byte (by omega) hm3 hlow2 h3⟩
        rw [rtFfs, if_neg hg, if_neg (not_not.mpr h0), if_neg (not_not.mpr h1),
          if_neg (not_not.mpr h2)]
      · refine ⟨_, ?_, isLowestBit_of_byte (by omega) hm2 hlow1 h2⟩
        rw [rtFfs, if_neg hg, if_neg (not_not.mpr h0), if_neg (not_not.mpr h1), if_pos h2]
    · refine ⟨_, ?_, isLowestBit_of_byte (by omega) hm1 hlow0 h1⟩
      rw [rtFfs, if_neg hg, if_neg (not_not.mpr h0), if_pos h1]
  · refine ⟨_, ?_, isLowestBit_of_byte (by omega) hm0 (by omega) h0⟩
    rw [rtFfs, if_neg hg, if_pos h0, BitVec.ushiftRight_zero]

/-! ## Priority masks -/

theorem getLsbD_priorityMask {p q : ℕ} (hp : p < 32) (hq : q < 32) :
    (priorityMask p).getLsbD q = decide (q = p) := by
  rw [priorityMask, Nat.mod_eq_of_lt hp, BitVec.getLsbD_shiftLeft, BitVec.getLsbD_one]
  by_cases hqp : q = p
  · subst hqp
    simp [hq]
  · by_cases hlt : q < p
    · simp [hlt, hqp]
    · have : q - p ≠ 0 := by omega
      simp [this, hqp]

theorem getLsbD_or_priorityMask (g : BitVec 32) {p q : ℕ} (hp : p < 32) (hq : q < 32) :
    (g ||| priorityMask p).getLsbD q = true ↔ g.getLsbD q = true ∨ q = p := by
  rw [BitVec.getLsbD_or, getLsbD_priorityMask hp hq]
  simp

theorem getLsbD_clear_priorityMask (g : BitVec 32) {p q : ℕ} (hp : p < 32) (hq : q < 32) :
    (g &&& ~~~priorityMask p).getLsbD q = true ↔ g.getLsbD q = true ∧ q ≠ p := by
  rw [BitVec.getLsbD_and, BitVec.getLsbD_not, getLsbD_priorityMask hp hq]
  simp [hq]

end LuojiOs
