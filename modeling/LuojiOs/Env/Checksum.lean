import LuojiOs.Env.Nvram

/-!
# The checksum

The two bytes of the checksum make the sum of all words zero.  A sum of words changes when
one of its bytes does, since a word determines its two bytes.
-/

namespace LuojiOs

open Bytes

variable {m m' : Bytes} {s sz sp x : ℕ} {sum : BitVec 16}

/-! ## The sum of the words -/

/-- The word at `x`. -/
def wordAt (m : Bytes) (x : ℕ) : BitVec 16 :=
  (m x).setWidth 16 <<< 8 + (m (x + 1)).setWidth 16

theorem wordSum_succ : wordSum m (sz + 1) sp sum = wordSum m sz (sp + 2) (sum + wordAt m sp) := by
  unfold wordAt
  rw [wordSum, BitVec.add_assoc]

theorem wordSum_eq_add : wordSum m sz sp sum = sum + wordSum m sz sp 0 := by
  induction sz generalizing sp sum with
  | zero => exact (BitVec.add_zero sum).symm
  | succ sz ih =>
      have hzero : (0 : BitVec 16) + wordAt m sp = wordAt m sp := BitVec.zero_add _
      have hfirst : wordSum m (sz + 1) sp 0 = wordAt m sp + wordSum m sz (sp + 2) 0 := by
        rw [wordSum_succ, hzero, ih]
      calc wordSum m (sz + 1) sp sum
        _ = sum + wordAt m sp + wordSum m sz (sp + 2) 0 := by rw [wordSum_succ, ih]
        _ = sum + (wordAt m sp + wordSum m sz (sp + 2) 0) := BitVec.add_assoc _ _ _
        _ = sum + wordSum m (sz + 1) sp 0 := by rw [hfirst]

/-- The first word, and the others. -/
theorem wordSum_succ_zero : wordSum m (sz + 1) sp 0 = wordAt m sp + wordSum m sz (sp + 2) 0 := by
  have hzero : (0 : BitVec 16) + wordAt m sp = wordAt m sp := BitVec.zero_add _
  rw [wordSum_succ, hzero, wordSum_eq_add]

theorem wordAt_congr (hhigh : m' x = m x) (hlow : m' (x + 1) = m (x + 1)) :
    wordAt m' x = wordAt m x := by
  unfold wordAt
  rw [hhigh, hlow]

theorem wordSum_congr (h : ∀ x, sp ≤ x → x < sp + 2 * sz → m' x = m x) :
    wordSum m' sz sp sum = wordSum m sz sp sum := by
  induction sz generalizing sp sum with
  | zero => rfl
  | succ sz ih =>
      rw [wordSum_succ, wordSum_succ,
        wordAt_congr (h sp (by omega) (by omega)) (h (sp + 1) (by omega) (by omega))]
      apply ih
      intro x hlo hhi
      exact h x (by omega) (by omega)

/-- The value of a word. -/
theorem toNat_wordAt : (wordAt m x).toNat = 256 * (m x).toNat + (m (x + 1)).toNat := by
  have hhigh := (m x).isLt
  have hlow := (m (x + 1)).isLt
  unfold wordAt
  rw [BitVec.toNat_add, BitVec.toNat_shiftLeft, BitVec.toNat_setWidth, BitVec.toNat_setWidth,
    Nat.shiftLeft_eq]
  omega

/-- A word determines its two bytes. -/
theorem bytes_eq_of_wordAt_eq (h : wordAt m' x = wordAt m x) :
    m' x = m x ∧ m' (x + 1) = m (x + 1) := by
  have hvalue := congrArg BitVec.toNat h
  rw [toNat_wordAt, toNat_wordAt] at hvalue
  have hlow := (m (x + 1)).isLt
  have hlow' := (m' (x + 1)).isLt
  constructor
  · exact BitVec.eq_of_toNat_eq (by omega)
  · exact BitVec.eq_of_toNat_eq (by omega)

/-- The sum changes with a byte if no other byte does. -/
theorem wordSum_ne (hlo : sp ≤ x) (hhi : x < sp + 2 * sz) (hx : m' x ≠ m x)
    (hrest : ∀ y, y ≠ x → m' y = m y) : wordSum m' sz sp 0 ≠ wordSum m sz sp 0 := by
  induction sz generalizing sp with
  | zero => omega
  | succ sz ih =>
      rw [wordSum_succ_zero, wordSum_succ_zero]
      by_cases hfirst : x < sp + 2
      · -- the byte is one of the first word, and the others are the same
        have htail : wordSum m' sz (sp + 2) 0 = wordSum m sz (sp + 2) 0 := by
          apply wordSum_congr
          intro y hy _
          exact hrest y (by omega)
        rw [htail, Ne, BitVec.add_left_inj]
        intro hword
        obtain ⟨hhigh, hlow⟩ := bytes_eq_of_wordAt_eq hword
        obtain rfl | rfl : x = sp ∨ x = sp + 1 := by omega
        · exact hx hhigh
        · exact hx hlow
      · have hhead : wordAt m' sp = wordAt m sp :=
          wordAt_congr (hrest sp (by omega)) (hrest (sp + 1) (by omega))
        rw [hhead, Ne, BitVec.add_right_inj]
        exact ih (by omega) (by omega)

/-! ## `cksum` -/

theorem cksum_false : (cksum s false m).1 = wordSum m (s / 2) 0 0 := by
  unfold cksum
  simp only [Bool.false_eq_true, if_false]

/-- Only the bytes of the buffer are summed up. -/
theorem cksum_congr (hm : ∀ x < s, m' x = m x) :
    (cksum s false m').1 = (cksum s false m).1 := by
  rw [cksum_false, cksum_false]
  apply wordSum_congr
  intro x _ hx
  exact hm x (by omega)

/-- The checksum changes nothing behind the first two bytes. -/
theorem cksum_of_ge (hx : 2 ≤ x) : (cksum s true m).2 x = m x := by
  unfold cksum
  simp only [if_true]
  rw [set_of_ne (by omega), set_of_ne (by omega), set_of_ne (by omega), set_of_ne (by omega)]

/-- The two bytes of the checksum are a word. -/
theorem wordAt_cksum :
    wordAt (cksum s true m).2 0 = -wordSum ((m.set 0 0).set 1 0) (s / 2) 0 0 := by
  unfold cksum
  simp only [if_true]
  generalize -wordSum ((m.set 0 0).set 1 0) (s / 2) 0 0 = v
  apply BitVec.eq_of_toNat_eq
  rw [toNat_wordAt, set_of_ne (by omega), set_self, set_self, BitVec.toNat_setWidth,
    BitVec.toNat_setWidth, BitVec.toNat_ushiftRight, Nat.shiftRight_eq_div_pow]
  omega

/-- A buffer with a new checksum is valid. -/
theorem cksum_valid (hs : 2 ≤ s) : (cksum s false (cksum s true m).2).1 = 0 := by
  obtain ⟨sz, hsz⟩ : ∃ sz, s / 2 = sz + 1 := ⟨s / 2 - 1, by omega⟩
  have hrest : wordSum (cksum s true m).2 sz 2 0 = wordSum ((m.set 0 0).set 1 0) sz 2 0 := by
    apply wordSum_congr
    intro x hx _
    rw [cksum_of_ge hx, set_of_ne (by omega), set_of_ne (by omega)]
  have hcleared : wordAt ((m.set 0 0).set 1 0) 0 = 0 := by
    apply BitVec.eq_of_toNat_eq
    rw [toNat_wordAt, set_of_ne (by omega), set_self, set_self]
    rfl
  have hsum : wordSum ((m.set 0 0).set 1 0) (s / 2) 0 0 =
      wordSum ((m.set 0 0).set 1 0) sz 2 0 := by
    rw [hsz, wordSum_succ_zero, hcleared]
    exact BitVec.zero_add _
  rw [cksum_false, hsz, wordSum_succ_zero, wordAt_cksum, hrest, hsum]
  exact BitVec.add_left_neg _

/-- Setting the checksum makes the buffer valid and leaves what it protects alone, and the
checksum of a valid buffer notices a change of any byte. -/
theorem cksum_detects (m : Bytes) (hs : 2 ≤ s) (heven : s % 2 = 0) :
    ((cksum s false (cksum s true m).2).1 = 0 ∧ ∀ x, 2 ≤ x → (cksum s true m).2 x = m x) ∧
      ((cksum s false m).1 = 0 →
        ∀ x < s, ∀ v, v ≠ m x → (cksum s false (m.set x v)).1 ≠ 0) := by
  refine ⟨⟨cksum_valid hs, fun x hx => cksum_of_ge hx⟩, ?_⟩
  intro hvalid x hx v hv
  have hne : wordSum (m.set x v) (s / 2) 0 0 ≠ wordSum m (s / 2) 0 0 := by
    apply wordSum_ne (Nat.zero_le x) (by omega)
    · rwa [set_self]
    · intro y hy
      exact set_of_ne hy
  rw [cksum_false] at hvalid ⊢
  rwa [hvalid] at hne

theorem cksum_detects_last :
    (cksum 4 false (cksum 4 true fun _ => 7).2).1 = 0 ∧
      (cksum 4 false (Bytes.set (fun _ => 0) 3 1)).1 ≠ 0 :=
  ⟨(cksum_detects (fun _ => 7) (by decide) (by decide)).1.1,
    (cksum_detects (fun _ => 0) (by decide) (by decide)).2 (by decide) 3 (by decide) 1 (by decide)⟩

end LuojiOs
