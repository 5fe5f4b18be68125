import Mathlib.Algebra.Order.Ring.Nat

/-!
# Byte memory

A memory is a function from addresses to bytes.  Numbers of several bytes are stored with
the least significant byte first.  A store changes the bytes it covers and no others, so
loads from elsewhere are unaffected.
-/

/-- Contents of a byte-addressed memory. -/
abbrev Bytes := ℕ → BitVec 8

namespace Bytes

/-- The number whose `k` bytes start at `a`. -/
def loadLE (m : Bytes) (a : ℕ) : ℕ → ℕ
  | 0 => 0
  | k + 1 => (m a).toNat + 256 * loadLE m (a + 1) k

/-- Write the `k` low bytes of `v` from `a` on. -/
def storeLE (m : Bytes) (a k v : ℕ) : Bytes :=
  fun x => if a ≤ x ∧ x < a + k then BitVec.ofNat 8 (v / 256 ^ (x - a)) else m x

def load16 (m : Bytes) (a : ℕ) : BitVec 16 := BitVec.ofNat 16 (loadLE m a 2)

def load32 (m : Bytes) (a : ℕ) : BitVec 32 := BitVec.ofNat 32 (loadLE m a 4)

def store16 (m : Bytes) (a : ℕ) (v : BitVec 16) : Bytes := storeLE m a 2 v.toNat

def store32 (m : Bytes) (a : ℕ) (v : BitVec 32) : Bytes := storeLE m a 4 v.toNat

/-- `memcpy`, which this library writes as `memmove`: the areas may overlap. -/
def copy (m : Bytes) (dst src n : ℕ) : Bytes :=
  fun x => if dst ≤ x ∧ x < dst + n then m (src + (x - dst)) else m x

/-- `memset` -/
def fill (m : Bytes) (dst : ℕ) (c : BitVec 8) (n : ℕ) : Bytes :=
  fun x => if dst ≤ x ∧ x < dst + n then c else m x

section

variable {m m' : Bytes} {a b k n v x : ℕ}

theorem loadLE_congr (h : ∀ i < k, m' (b + i) = m (a + i)) : loadLE m' b k = loadLE m a k := by
  induction k generalizing a b with
  | zero => rfl
  | succ k ih =>
      have hfirst : m' b = m a := h 0 (Nat.succ_pos k)
      have hrest : ∀ i < k, m' (b + 1 + i) = m (a + 1 + i) := by
        intro i hi
        have := h (i + 1) (Nat.succ_lt_succ hi)
        rwa [show b + (i + 1) = b + 1 + i by omega,
          show a + (i + 1) = a + 1 + i by omega] at this
      rw [loadLE, loadLE, hfirst, ih hrest]

theorem storeLE_of_outside (h : x < a ∨ a + k ≤ x) : storeLE m a k v x = m x := by
  unfold storeLE
  rw [if_neg]
  omega

theorem storeLE_of_inside (h : a ≤ x) (hx : x < a + k) :
    storeLE m a k v x = BitVec.ofNat 8 (v / 256 ^ (x - a)) :=
  if_pos ⟨h, hx⟩

theorem loadLE_storeLE_of_disjoint {j : ℕ} (h : b + j ≤ a ∨ a + k ≤ b) :
    loadLE (storeLE m a k v) b j = loadLE m b j := by
  apply loadLE_congr
  intro i hi
  apply storeLE_of_outside
  omega

/-- The bytes of `v` read back as `v`, up to its size. -/
theorem loadLE_of_bytes
    (h : ∀ i < k, m (a + i) = BitVec.ofNat 8 (v / 256 ^ i)) : loadLE m a k = v % 256 ^ k := by
  induction k generalizing a v with
  | zero => simp [loadLE, Nat.mod_one]
  | succ k ih =>
      have hfirst : m a = BitVec.ofNat 8 v := by simpa using h 0 (Nat.succ_pos k)
      have hrest : ∀ i < k, m (a + 1 + i) = BitVec.ofNat 8 (v / 256 / 256 ^ i) := by
        intro i hi
        rw [show a + 1 + i = a + (i + 1) by omega, h (i + 1) (Nat.succ_lt_succ hi),
          Nat.div_div_eq_div_mul, ← Nat.pow_succ']
      have hsplit : v % 256 ^ (k + 1) = v % 256 + 256 * (v / 256 % 256 ^ k) := by
        rw [show 256 ^ (k + 1) = 256 * 256 ^ k from Nat.pow_succ', Nat.mod_mul]
      rw [loadLE, ih hrest, hfirst, BitVec.toNat_ofNat, hsplit]

theorem loadLE_storeLE_self : loadLE (storeLE m a k v) a k = v % 256 ^ k := by
  apply loadLE_of_bytes
  intro i hi
  rw [storeLE_of_inside (Nat.le_add_right a i) (Nat.add_lt_add_left hi a), Nat.add_sub_cancel_left]

@[simp] theorem load16_store16 (v : BitVec 16) : load16 (store16 m a v) a = v := by
  unfold load16 store16
  rw [loadLE_storeLE_self]
  apply BitVec.eq_of_toNat_eq
  have := v.isLt
  simp only [BitVec.toNat_ofNat]
  omega

@[simp] theorem load32_store32 (v : BitVec 32) : load32 (store32 m a v) a = v := by
  unfold load32 store32
  rw [loadLE_storeLE_self]
  apply BitVec.eq_of_toNat_eq
  have := v.isLt
  simp only [BitVec.toNat_ofNat]
  omega

theorem load16_store16_of_disjoint {v : BitVec 16} (h : b + 2 ≤ a ∨ a + 2 ≤ b) :
    load16 (store16 m a v) b = load16 m b := by
  unfold load16 store16
  rw [loadLE_storeLE_of_disjoint h]

theorem load16_store32_of_disjoint {v : BitVec 32} (h : b + 2 ≤ a ∨ a + 4 ≤ b) :
    load16 (store32 m a v) b = load16 m b := by
  unfold load16 store32
  rw [loadLE_storeLE_of_disjoint h]

theorem load32_store16_of_disjoint {v : BitVec 16} (h : b + 4 ≤ a ∨ a + 2 ≤ b) :
    load32 (store16 m a v) b = load32 m b := by
  unfold load32 store16
  rw [loadLE_storeLE_of_disjoint h]

theorem load32_store32_of_disjoint {v : BitVec 32} (h : b + 4 ≤ a ∨ a + 4 ≤ b) :
    load32 (store32 m a v) b = load32 m b := by
  unfold load32 store32
  rw [loadLE_storeLE_of_disjoint h]

theorem load16_congr (h : ∀ i < 2, m' (a + i) = m (a + i)) : load16 m' a = load16 m a := by
  unfold load16
  rw [loadLE_congr h]

theorem load32_congr (h : ∀ i < 4, m' (a + i) = m (a + i)) : load32 m' a = load32 m a := by
  unfold load32
  rw [loadLE_congr h]

theorem store16_of_outside {v : BitVec 16} (h : x < a ∨ a + 2 ≤ x) : store16 m a v x = m x :=
  storeLE_of_outside h

theorem store32_of_outside {v : BitVec 32} (h : x < a ∨ a + 4 ≤ x) : store32 m a v x = m x :=
  storeLE_of_outside h

theorem copy_of_inside {dst src i : ℕ} (h : i < n) : copy m dst src n (dst + i) = m (src + i) := by
  unfold copy
  rw [if_pos (by omega), Nat.add_sub_cancel_left]

theorem copy_of_outside {dst src : ℕ} (h : x < dst ∨ dst + n ≤ x) :
    copy m dst src n x = m x := by
  unfold copy
  rw [if_neg]
  omega

theorem fill_of_outside {dst : ℕ} {c : BitVec 8} (h : x < dst ∨ dst + n ≤ x) :
    fill m dst c n x = m x := by
  unfold fill
  rw [if_neg]
  omega

end

end Bytes
