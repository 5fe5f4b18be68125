import LuojiOs.Nand.Ecc
import Mathlib.Algebra.BigOperators.Fin

/-!
# What the error correction corrects

The code of a block is its paired parity, over the eleven bits of the address of a bit.  So one
flip, in the block or in the stored code, is undone, and two flips are reported.
-/

namespace LuojiOs

namespace Nand

open PairedParity

variable {m : Bytes} {dat i j b c : ℕ}

/-! ## The pairs of the three bytes -/

/-- The bit of the three bytes which has the line `k`: three of the column, eight of the byte. -/
def lineBit (s : EccCode) (k : ℕ) : Bool :=
  if k < 3 then s.code2.getLsbD (2 * k + 3)
  else if k < 7 then s.code1.getLsbD (2 * (k - 3) + 1)
  else s.code0.getLsbD (2 * (k - 7) + 1)

/-- The other bit of the pair. -/
def complementBit (s : EccCode) (k : ℕ) : Bool :=
  if k < 3 then s.code2.getLsbD (2 * k + 2)
  else if k < 7 then s.code1.getLsbD (2 * (k - 3))
  else s.code0.getLsbD (2 * (k - 7))

def EccCode.syndrome (s : EccCode) : Syndrome (Fin 11) where
  line k := lineBit s k
  complement k := complementBit s k

/-- The address of the bit `b` of the byte `i`. -/
def address (i b : ℕ) (k : Fin 11) : Bool :=
  if (k : ℕ) < 3 then b.testBit k else i.testBit (k - 3)

theorem syndrome_xor (s t : EccCode) : (s.xor t).syndrome = s.syndrome.xor t.syndrome := by
  ext k
  · simp only [EccCode.syndrome, Syndrome.xor, lineBit, EccCode.xor, BitVec.getLsbD_xor]
    split <;> [rfl; split <;> rfl]
  · simp only [EccCode.syndrome, Syndrome.xor, complementBit, EccCode.xor, BitVec.getLsbD_xor]
    split <;> [rfl; split <;> rfl]

/-! ## The checks of the source -/

theorem check_eq (s : BitVec 8) :
    ((s ^^^ s >>> 1) &&& 0x55#8 == 0x55#8) =
      decide (∀ k : Fin 4, s.getLsbD (2 * k + 1) ≠ s.getLsbD (2 * k)) := by
  revert s
  decide

theorem check_eq' (s : BitVec 8) :
    ((s ^^^ s >>> 1) &&& 0x54#8 == 0x54#8) =
      decide (∀ k : Fin 3, s.getLsbD (2 * k + 3) ≠ s.getLsbD (2 * k + 2)) := by
  revert s
  decide

theorem lineBit_ne_iff (s : EccCode) (k : ℕ) :
    lineBit s k ≠ complementBit s k ↔
      if k < 3 then s.code2.getLsbD (2 * k + 3) ≠ s.code2.getLsbD (2 * k + 2)
      else if k < 7 then s.code1.getLsbD (2 * (k - 3) + 1) ≠ s.code1.getLsbD (2 * (k - 3))
      else s.code0.getLsbD (2 * (k - 7) + 1) ≠ s.code0.getLsbD (2 * (k - 7)) := by
  unfold lineBit complementBit
  split
  · rfl
  · split <;> rfl

theorem singleBit_iff (s : EccCode) :
    singleBit s.code1 s.code0 s.code2 = true ↔ s.syndrome.IsData := by
  unfold singleBit
  rw [check_eq, check_eq, check_eq', Bool.and_eq_true, Bool.and_eq_true, decide_eq_true_iff,
    decide_eq_true_iff, decide_eq_true_iff]
  constructor
  · rintro ⟨⟨h1, h0⟩, h2⟩ k
    refine (lineBit_ne_iff s k).mpr ?_
    split
    · next hk => exact h2 ⟨k, hk⟩
    · split
      · exact h1 ⟨k - 3, by omega⟩
      · exact h0 ⟨k - 7, by omega⟩
  · intro h
    refine ⟨⟨fun k => ?_, fun k => ?_⟩, fun k => ?_⟩
    · have hk := (lineBit_ne_iff s (k + 3)).mp (h ⟨k + 3, by omega⟩)
      rwa [if_neg (by omega), if_pos (by omega), Nat.add_sub_cancel] at hk
    · have hk := (lineBit_ne_iff s (k + 7)).mp (h ⟨k + 7, by omega⟩)
      rwa [if_neg (by omega), if_neg (by omega), Nat.add_sub_cancel] at hk
    · have hk := (lineBit_ne_iff s k).mp (h ⟨k, by omega⟩)
      rwa [if_pos k.isLt] at hk

/-! ## Counting the bits -/

theorem countbitsLoop_eq (fuel : ℕ) (x : BitVec 32) (res : ℕ) :
    countbitsLoop fuel x res = res + ∑ k ∈ Finset.range fuel, (x.getLsbD k).toNat := by
  induction fuel generalizing x res with
  | zero => rfl
  | succ fuel ih =>
      rw [countbitsLoop]
      split
      · next hx => simp [hx]
      · rw [ih, Finset.sum_range_succ', Nat.add_assoc, Nat.add_comm _ (x.getLsbD 0).toNat]
        have hlow : (x &&& 1#32).toNat = (x.getLsbD 0).toNat := by
          rw [BitVec.and_one_eq_setWidth_ofBool_getLsbD]
          cases x.getLsbD 0 <;> rfl
        have hrest : ∀ k, (x >>> 1).getLsbD k = x.getLsbD (k + 1) := by
          intro k
          rw [BitVec.getLsbD_ushiftRight, Nat.add_comm]
        rw [hlow]
        simp only [hrest]

/-- The number of ones of a byte. -/
def ones (x : BitVec 8) : ℕ := ∑ k ∈ Finset.range 8, (x.getLsbD k).toNat

theorem countbits_bytes (x y z : BitVec 8) :
    countbits (x.setWidth 32 ||| y.setWidth 32 <<< 8 ||| z.setWidth 32 <<< 16) =
      ones x + ones y + ones z := by
  unfold countbits ones
  rw [countbitsLoop_eq]
  simp only [Finset.sum_range_succ, Finset.sum_range_zero]
  simp [Nat.add_assoc]

/-- The ones of the code are those of its pairs, and the two bits that are in none. -/
theorem ones_eq (s : EccCode) :
    ones s.code1 + ones s.code0 + ones s.code2 =
      s.syndrome.weight + (s.code2.getLsbD 0).toNat + (s.code2.getLsbD 1).toNat := by
  have hweight : s.syndrome.weight =
      ∑ k ∈ Finset.range 11, ((lineBit s k).toNat + (complementBit s k).toNat) :=
    (Finset.sum_range fun k => (lineBit s k).toNat + (complementBit s k).toNat).symm
  rw [hweight]
  simp only [ones, Finset.sum_range_succ, Finset.sum_range_zero, lineBit, complementBit]
  simp
  omega

/-! ## Flips -/

/-- What may be flipped: a bit of the 256 bytes, or a bit of the stored code. -/
inductive Flip
  | data (i : Fin 256) (b : Fin 8)
  | code (t : Fin 3) (b : Fin 8)
  deriving DecidableEq

/-- One bit of the three bytes. -/
def EccCode.unit (t : Fin 3) (b : ℕ) : EccCode where
  code0 := if t = 0 then 1#8 <<< b else 0
  code1 := if t = 1 then 1#8 <<< b else 0
  code2 := if t = 2 then 1#8 <<< b else 0

namespace Flip

/-- The memory after a flip, with the block from `dat` on. -/
def mem (dat : ℕ) : Flip → Bytes → Bytes
  | data i b, m => flipByte m (dat + i) b
  | code _ _, m => m

/-- The stored code after it. -/
def ecc : Flip → EccCode → EccCode
  | data _ _, c => c
  | code t b, c => c.xor (.unit t b)

/-- How the computed code and the stored one differ after it. -/
def change : Flip → EccCode
  | data i b => flipCode i b
  | code t b => .unit t b

/-- The two low bits of the last byte are in no pair. -/
def Spare : Flip → Prop
  | data _ _ => False
  | code t b => t = 2 ∧ b < 2

/-- The place of a flip in the pairs. -/
def place : Flip → Place (Fin 11)
  | data i b => .data (address i b)
  | code t b =>
    .check (Fin.ofNat 11 (if t = 0 then 7 + b / 2 else if t = 1 then 3 + b / 2 else b / 2 - 1))
      (b % 2 == 1)

end Flip

theorem column_bits : ∀ b : Fin 8, ∀ k : Fin 3,
    (column (1#8 <<< b.val) <<< 2).getLsbD (2 * k + 3) = b.val.testBit k ∧
      (column (1#8 <<< b.val) <<< 2).getLsbD (2 * k + 2) = !b.val.testBit k := by
  decide

theorem lineLow_bits (x : BitVec 8) : ∀ k : Fin 4,
    (lineLow (~~~x) x).getLsbD (2 * k + 1) = x.getLsbD k ∧
      (lineLow (~~~x) x).getLsbD (2 * k) = !x.getLsbD k := by
  rintro ⟨k, hk⟩
  unfold lineLow
  interval_cases k <;> constructor <;> simp

theorem lineHigh_bits (x : BitVec 8) : ∀ k : Fin 4,
    (lineHigh (~~~x) x).getLsbD (2 * k + 1) = x.getLsbD (k + 4) ∧
      (lineHigh (~~~x) x).getLsbD (2 * k) = !x.getLsbD (k + 4) := by
  rintro ⟨k, hk⟩
  unfold lineHigh
  interval_cases k <;> constructor <;> simp

theorem getLsbD_ofNat_of_lt (i : ℕ) {k : ℕ} (hk : k < 8) :
    (BitVec.ofNat 8 i).getLsbD k = i.testBit k := by
  rw [BitVec.getLsbD_ofNat, decide_eq_true hk, Bool.true_and]

theorem flipCode_bits (i : ℕ) (b : Fin 8) (k : Fin 11) :
    lineBit (flipCode i b) k = address i b k ∧ complementBit (flipCode i b) k = !address i b k := by
  unfold lineBit complementBit address flipCode
  by_cases h3 : (k : ℕ) < 3
  · rw [if_pos h3, if_pos h3, if_pos h3]
    exact column_bits b ⟨k, h3⟩
  · rw [if_neg h3, if_neg h3, if_neg h3]
    have hbit := getLsbD_ofNat_of_lt i (k := k - 3) (by omega)
    by_cases h7 : (k : ℕ) < 7
    · rw [if_pos h7, if_pos h7, ← hbit]
      exact lineLow_bits _ ⟨k - 3, by omega⟩
    · rw [if_neg h7, if_neg h7, ← hbit]
      have hhigh := lineHigh_bits (BitVec.ofNat 8 i) ⟨k - 7, by omega⟩
      rwa [show (k : ℕ) - 7 + 4 = k - 3 by omega] at hhigh

theorem unit_bits : ∀ (t : Fin 3) (b : Fin 8), ¬(Flip.code t b).Spare → ∀ k : Fin 11,
    lineBit (.unit t b) k = (Flip.code t b).place.syndrome.line k ∧
      complementBit (.unit t b) k = (Flip.code t b).place.syndrome.complement k := by
  unfold Flip.Spare
  decide

theorem syndrome_change {p : Flip} (hp : ¬p.Spare) : p.change.syndrome = p.place.syndrome := by
  cases p with
  | data i b =>
      ext k
      · exact (flipCode_bits i b k).1
      · exact (flipCode_bits i b k).2
  | code t b =>
      ext k
      · exact (unit_bits t b hp k).1
      · exact (unit_bits t b hp k).2

theorem address_injective {i i' : Fin 256} {b b' : Fin 8} (h : address i b = address i' b') :
    i = i' ∧ b = b' := by
  constructor
  · apply Fin.ext
    apply Nat.eq_of_testBit_eq
    intro k
    by_cases hk : k < 8
    · have := congrFun h ⟨k + 3, by omega⟩
      simpa [address] using this
    · have hle : 2 ^ 8 ≤ 2 ^ k := Nat.pow_le_pow_right (by decide) (by omega)
      rw [Nat.testBit_lt_two_pow (by omega), Nat.testBit_lt_two_pow (by omega)]
  · apply Fin.ext
    apply Nat.eq_of_testBit_eq
    intro k
    by_cases hk : k < 3
    · have := congrFun h ⟨k, by omega⟩
      simpa [address, hk] using this
    · have hle : 2 ^ 3 ≤ 2 ^ k := Nat.pow_le_pow_right (by decide) (by omega)
      rw [Nat.testBit_lt_two_pow (by omega), Nat.testBit_lt_two_pow (by omega)]

theorem place_code_injective : ∀ (t t' : Fin 3) (b b' : Fin 8), ¬(Flip.code t b).Spare →
    ¬(Flip.code t' b').Spare → (t, b) ≠ (t', b') →
      ∃ k, (Flip.code t b).place.syndrome.line k ≠ (Flip.code t' b').place.syndrome.line k ∨
        (Flip.code t b).place.syndrome.complement k ≠
          (Flip.code t' b').place.syndrome.complement k := by
  unfold Flip.Spare
  decide

theorem place_ne {p q : Flip} (hp : ¬p.Spare) (hq : ¬q.Spare) (h : p ≠ q) : p.place ≠ q.place := by
  cases p with
  | data i b =>
      cases q with
      | data i' b' =>
          intro hpq
          have haddress : address i b = address i' b' := by
            simpa [Flip.place] using hpq
          obtain ⟨rfl, rfl⟩ := address_injective haddress
          exact h rfl
      | code t b' => exact fun hpq => by cases hpq
  | code t b =>
      cases q with
      | data i' b' => exact fun hpq => by cases hpq
      | code t' b' =>
          intro hpq
          have hne : (t, b) ≠ (t', b') := by
            rintro htb
            rw [Prod.mk.injEq] at htb
            exact h (by rw [htb.1, htb.2])
          obtain ⟨k, hk⟩ := place_code_injective t t' b b' hp hq hne
          rw [hpq] at hk
          exact hk.elim (fun hk => hk rfl) fun hk => hk rfl

/-! ## The change of the code -/

theorem EccCode.xor_comm (c d : EccCode) : c.xor d = d.xor c := by
  ext1 <;> exact BitVec.xor_comm _ _

theorem EccCode.xor_assoc (c d e : EccCode) : (c.xor d).xor e = c.xor (d.xor e) := by
  ext1 <;> exact BitVec.xor_assoc _ _ _

theorem EccCode.xor_self (c : EccCode) : c.xor c = ⟨0, 0, 0⟩ := by
  ext1 <;> exact BitVec.xor_self

theorem EccCode.zero_xor (c : EccCode) : EccCode.xor ⟨0, 0, 0⟩ c = c := by
  ext1 <;> exact BitVec.zero_xor

/-- A flip changes the difference of the two codes in the same way, wherever it is. -/
theorem xor_of_flip (p : Flip) (m : Bytes) (dat : ℕ) (c : EccCode) :
    (nandCalculateEcc (p.mem dat m) dat).xor (p.ecc c) =
      ((nandCalculateEcc m dat).xor c).xor p.change := by
  cases p with
  | data i b =>
      change (nandCalculateEcc (flipByte m (dat + i) b) dat).xor c = _
      rw [nandCalculateEcc_flipByte m dat i.isLt b.isLt, EccCode.xor_assoc, EccCode.xor_assoc,
        EccCode.xor_comm c]
      rfl
  | code t b => exact (EccCode.xor_assoc _ _ _).symm

theorem xor_of_one (p : Flip) (m : Bytes) (dat : ℕ) :
    (nandCalculateEcc (p.mem dat m) dat).xor (p.ecc (nandCalculateEcc m dat)) = p.change := by
  rw [xor_of_flip, EccCode.xor_self, EccCode.zero_xor]

theorem xor_of_two (p q : Flip) (m : Bytes) (dat : ℕ) :
    (nandCalculateEcc (q.mem dat (p.mem dat m)) dat).xor (q.ecc (p.ecc (nandCalculateEcc m dat))) =
      p.change.xor q.change := by
  rw [xor_of_flip, xor_of_one]

/-! ## What is done about it -/

/-- `nand_correct_data` uses the two codes through their difference. -/
def correctBy (m : Bytes) (dat : ℕ) (s : EccCode) : Corrected :=
  if s = ⟨0, 0, 0⟩ then ⟨0, m⟩
  else if singleBit s.code1 s.code0 s.code2 then
    ⟨1, flipByte m (dat + (byteoffs s.code1 s.code0).toNat) (bitnum s.code2).toNat⟩
  else if ones s.code1 + ones s.code0 + ones s.code2 = 1 then ⟨1, m⟩
  else ⟨-1, m⟩

theorem or_eq_zero_iff (x y z : BitVec 8) :
    x ||| y ||| z = 0#8 ↔ x = 0#8 ∧ y = 0#8 ∧ z = 0#8 := by
  rw [BitVec.or_eq_zero_iff, BitVec.or_eq_zero_iff, and_assoc]

theorem nandCorrectData_eq (m : Bytes) (dat : ℕ) (readEcc calcEcc : EccCode) :
    nandCorrectData m dat readEcc calcEcc = correctBy m dat (calcEcc.xor readEcc) := by
  unfold nandCorrectData correctBy
  simp only [countbits_bytes, or_eq_zero_iff]
  have hzero : (calcEcc.xor readEcc).code1 = 0#8 ∧ (calcEcc.xor readEcc).code0 = 0#8 ∧
      (calcEcc.xor readEcc).code2 = 0#8 ↔ calcEcc.xor readEcc = ⟨0, 0, 0⟩ := by
    rw [EccCode.ext_iff]
    exact and_left_comm
  rw [← if_congr hzero rfl rfl]
  rfl

theorem byteoffs_bits (s0 s1 : BitVec 8) {i : ℕ} (hi : i < 8) : (byteoffs s0 s1).getLsbD i =
    if i < 4 then s0.getLsbD (2 * i + 1) else s1.getLsbD (2 * (i - 4) + 1) := by
  unfold byteoffs
  interval_cases i <;> simp

theorem byteoffs_line (x : BitVec 8) :
    byteoffs (lineLow (~~~x) x) (lineHigh (~~~x) x) = x := by
  apply BitVec.eq_of_getLsbD_eq
  intro i hi
  rw [byteoffs_bits _ _ hi]
  split
  · next h => exact (lineLow_bits x ⟨i, h⟩).1
  · next h =>
    have := (lineHigh_bits x ⟨i - 4, by omega⟩).1
    rwa [Nat.sub_add_cancel (Nat.le_of_not_lt h)] at this

theorem bitnum_column : ∀ b : Fin 8, (bitnum (column (1#8 <<< b.val) <<< 2)).toNat = b := by
  decide

theorem not_zero_of_isData {s : EccCode} (h : s.syndrome.IsData) : s ≠ ⟨0, 0, 0⟩ := by
  rintro rfl
  exact h 0 rfl

theorem correctBy_flipCode (m : Bytes) (dat : ℕ) (i : Fin 256) (b : Fin 8) :
    correctBy m dat (flipCode i b) = ⟨1, flipByte m (dat + i) b⟩ := by
  have hdata : (flipCode i b).syndrome.IsData := by
    have hsyndrome := syndrome_change (p := .data i b) id
    exact hsyndrome ▸ isData_data (address i b)
  unfold correctBy
  rw [if_neg (not_zero_of_isData hdata), if_pos ((singleBit_iff _).mpr hdata)]
  change Corrected.mk 1 (flipByte m (dat + (byteoffs (lineLow _ _) (lineHigh _ _)).toNat)
    (bitnum (column _ <<< 2)).toNat) = _
  rw [byteoffs_line, bitnum_column, BitVec.toNat_ofNat, Nat.mod_eq_of_lt i.isLt]

theorem unit_checks : ∀ (t : Fin 3) (b : Fin 8), EccCode.unit t b ≠ ⟨0, 0, 0⟩ ∧
    singleBit (EccCode.unit t b).code1 (EccCode.unit t b).code0 (EccCode.unit t b).code2 = false ∧
      ones (EccCode.unit t b).code1 + ones (EccCode.unit t b).code0 +
        ones (EccCode.unit t b).code2 = 1 := by
  decide

theorem correctBy_unit (m : Bytes) (dat : ℕ) (t : Fin 3) (b : Fin 8) :
    correctBy m dat (.unit t b) = ⟨1, m⟩ := by
  obtain ⟨hzero, hsingle, hones⟩ := unit_checks t b
  unfold correctBy
  rw [if_neg hzero, hsingle, if_neg Bool.false_ne_true, if_pos hones]

theorem correctBy_double {s : EccCode} (h : s.syndrome.Double) (m : Bytes) (dat : ℕ) :
    correctBy m dat s = ⟨-1, m⟩ := by
  have hweight := h.two_le
  have hones := ones_eq s
  have hzero : s ≠ ⟨0, 0, 0⟩ := by
    rintro rfl
    have : (EccCode.mk 0 0 0).syndrome.weight = 0 := by decide
    omega
  unfold correctBy
  rw [if_neg hzero, if_neg (mt (singleBit_iff s).mp h.not_isData), if_neg (by omega)]

/-! ## One flip and two -/

/-- An undisturbed block is left alone. -/
theorem correct_of_none (m : Bytes) (dat : ℕ) :
    nandCorrectData m dat (nandCalculateEcc m dat) (nandCalculateEcc m dat) = ⟨0, m⟩ := by
  rw [nandCorrectData_eq, EccCode.xor_self]
  exact if_pos rfl

theorem mem_mem (p : Flip) (m : Bytes) (dat : ℕ) : p.mem dat (p.mem dat m) = m := by
  cases p with
  | data i b => exact flipByte_flipByte m _ _
  | code t b => rfl

/-- One flip, in the block or in the code stored with it, is found and undone. -/
theorem correct_of_one (p : Flip) (m : Bytes) (dat : ℕ) :
    nandCorrectData (p.mem dat m) dat (p.ecc (nandCalculateEcc m dat))
      (nandCalculateEcc (p.mem dat m) dat) = ⟨1, m⟩ := by
  rw [nandCorrectData_eq, xor_of_one]
  cases p with
  | data i b =>
      refine (correctBy_flipCode _ dat i b).trans ?_
      exact congrArg _ (mem_mem (.data i b) m dat)
  | code t b => exact correctBy_unit m dat t b

/-- Two flips are reported, and nothing is changed. -/
theorem correct_of_two {p q : Flip} (hp : ¬p.Spare) (hq : ¬q.Spare) (h : p ≠ q) (m : Bytes)
    (dat : ℕ) :
    nandCorrectData (q.mem dat (p.mem dat m)) dat (q.ecc (p.ecc (nandCalculateEcc m dat)))
      (nandCalculateEcc (q.mem dat (p.mem dat m)) dat) = ⟨-1, q.mem dat (p.mem dat m)⟩ := by
  rw [nandCorrectData_eq, xor_of_two]
  apply correctBy_double
  rw [syndrome_xor, syndrome_change hp, syndrome_change hq]
  exact double_of_ne (by decide) (place_ne hp hq h)

/-- Single errors are corrected and double errors are detected, in the 256 bytes of a block and in
its code alike, but for the two spare bits of the code. -/
theorem nandCorrectData_spec (m : Bytes) (dat : ℕ) :
    nandCorrectData m dat (nandCalculateEcc m dat) (nandCalculateEcc m dat) = ⟨0, m⟩ ∧
      (∀ p : Flip, nandCorrectData (p.mem dat m) dat (p.ecc (nandCalculateEcc m dat))
        (nandCalculateEcc (p.mem dat m) dat) = ⟨1, m⟩) ∧
      ∀ p q : Flip, ¬p.Spare → ¬q.Spare → p ≠ q →
        nandCorrectData (q.mem dat (p.mem dat m)) dat (q.ecc (p.ecc (nandCalculateEcc m dat)))
          (nandCalculateEcc (q.mem dat (p.mem dat m)) dat) = ⟨-1, q.mem dat (p.mem dat m)⟩ :=
  ⟨correct_of_none m dat, fun p => correct_of_one p m dat,
    fun _ _ hp hq h => correct_of_two hp hq h m dat⟩

end Nand

end LuojiOs
