import LuojiOs.Mtd.Mtdfile
import LuojiOs.Support.Masks
import LuojiOs.Support.Places

/-!
# Reading around bad blocks, on any device

`nand_util.c` knows a device only by its `nand_info_t`.  Its two loops are taken here as they
are, with a number of rounds after which nothing is said; the device may have any size, and
`nand_read` is the function that it provides.
-/

namespace LuojiOs

namespace Mtd

open Places Masks

/-- What `nand_util.c` uses of a `nand_info_t`. -/
structure NandInfo where
  size : ℕ
  eraseShift : ℕ
  bbt : ℕ → Bool
  read : ℕ → ℕ → Flash → Chip.ReadResult
  size_lt : size < 2 ^ 32
  shift_lt : eraseShift < 32
  erase_dvd : 2 ^ eraseShift ∣ size

namespace NandInfo

section Functions

variable (nand : NandInfo)

def erasesize : ℕ := 2 ^ nand.eraseShift

/-- `nand_block_isbad`; it fails behind the end of the device, which is not 0 either. -/
def nandBlockIsbad (offs : ℕ) : Bool :=
  if nand.size < offs then true else nand.bbt (offs / nand.erasesize)

/-- `offset & (nand->erasesize - 1)` -/
def blockOffset (offset : ℕ) : ℕ := offset &&& (nand.erasesize - 1)

/-- `offset & ~(loff_t)(nand->erasesize - 1)` -/
def blockStart (offset : ℕ) : ℕ :=
  (BitVec.ofNat 64 offset &&& ~~~BitVec.ofNat 64 (nand.erasesize - 1)).toNat

/-- `offset & ~(nand->erasesize - 1)`, where the mask has 32 bits. -/
def blockStartOfMask32 (offset : ℕ) : ℕ :=
  (BitVec.ofNat 64 offset &&& (~~~BitVec.ofNat 32 (nand.erasesize - 1)).setWidth 64).toNat

/-- The loop of `check_skip_len`. -/
def checkSkipLoop (length : ℕ) : ℕ → ℕ → ℕ → ℤ → Option ℤ
  | 0, _, _, _ => none
  | fuel + 1, offset, lenExclBad, ret =>
    if lenExclBad < length then
      if nand.size ≤ offset then some (-1)
      else
        let blockLen := nand.erasesize - nand.blockOffset offset
        if nand.nandBlockIsbad (nand.blockStart offset) then
          checkSkipLoop length fuel (offset + blockLen) lenExclBad 1
        else checkSkipLoop length fuel (offset + blockLen) (uint32 (lenExclBad + blockLen)) ret
    else some ret

/-- `check_skip_len`: 0 if there are no bad blocks, 1 if there are, and -1 if the length does
not fit. -/
def checkSkipLen (fuel offset length : ℕ) : Option ℤ := nand.checkSkipLoop length fuel offset 0 0

/-- The loop of `nand_read_skip_bad`. -/
def readLoop (length : ℕ) :
    ℕ → ℕ → ℕ → List (BitVec 8) → Flash → Option Chip.ReadResult
  | 0, _, _, _, _ => none
  | fuel + 1, offset, leftToRead, data, flash =>
    if leftToRead = 0 then some ⟨0, length, data, flash⟩
    else
      let blockLen := nand.erasesize - nand.blockOffset offset
      if nand.nandBlockIsbad (nand.blockStartOfMask32 offset) then
        readLoop length fuel (offset + blockLen) leftToRead data flash
      else
        let readLength := if leftToRead < blockLen then leftToRead else blockLen
        let r := nand.read offset readLength flash
        if r.ret ≠ 0 ∧ r.ret ≠ -EUCLEAN then
          some ⟨r.ret, uint32 (length - leftToRead), data, r.flash⟩
        else
          readLoop length fuel (offset + r.len) (uint32 (leftToRead - r.len)) (data ++ r.data)
            r.flash

/-- `nand_read_skip_bad` -/
def nandReadSkipBad (fuel offset length : ℕ) (flash : Flash) : Option Chip.ReadResult :=
  (nand.checkSkipLen fuel offset length).bind fun needSkip =>
    if needSkip < 0 then some ⟨-EINVAL, 0, [], flash⟩
    else if needSkip = 0 then
      let r := nand.read offset length flash
      if r.ret = 0 ∨ r.ret = -EUCLEAN then some { r with ret := 0 }
      else some ⟨r.ret, 0, [], r.flash⟩
    else nand.readLoop length fuel offset length [] flash

/-- An address of the device, in a block that is not bad. -/
def good (x : ℕ) : Bool := decide (x < nand.size) && !nand.bbt (x / nand.erasesize)

/-- The addresses in good blocks from `offset` on. -/
def goodFrom (offset : ℕ) : List ℕ := places nand.good offset nand.size

/-- The end of the block of `offset`. -/
def blockEnd (offset : ℕ) : ℕ := offset + (nand.erasesize - offset % nand.erasesize)

end Functions

variable {nand : NandInfo} {offset x : ℕ}

/-! ## The geometry -/

theorem erasesize_pos : 0 < nand.erasesize := Nat.two_pow_pos _

theorem erasesize_lt : nand.erasesize < 2 ^ 32 := Nat.pow_lt_pow_right (by decide) nand.shift_lt

theorem size_div_mul : nand.size / nand.erasesize * nand.erasesize = nand.size :=
  Nat.div_mul_cancel nand.erase_dvd

theorem blockEnd_eq (nand : NandInfo) (offset : ℕ) :
    nand.blockEnd offset = (offset / nand.erasesize + 1) * nand.erasesize := by
  have hmod := Nat.mod_lt offset (nand.erasesize_pos)
  have hdiv := Nat.div_add_mod' offset nand.erasesize
  unfold blockEnd
  rw [Nat.succ_mul]
  omega

theorem lt_blockEnd (nand : NandInfo) (offset : ℕ) : offset < nand.blockEnd offset := by
  have hmod := Nat.mod_lt offset (nand.erasesize_pos)
  unfold blockEnd
  omega

theorem blockEnd_le_size (h : offset < nand.size) : nand.blockEnd offset ≤ nand.size := by
  rw [blockEnd_eq, ← nand.size_div_mul]
  refine Nat.mul_le_mul_right _ ?_
  rw [Nat.succ_le_iff, Nat.div_lt_iff_lt_mul erasesize_pos, size_div_mul]
  exact h

theorem blockEnd_div (nand : NandInfo) (offset : ℕ) :
    nand.blockEnd offset / nand.erasesize = offset / nand.erasesize + 1 := by
  rw [blockEnd_eq, Nat.mul_div_cancel _ erasesize_pos]

/-- The addresses up to the end of a block lie in it. -/
theorem div_eq_of_lt_blockEnd (h : offset ≤ x) (hx : x < nand.blockEnd offset) :
    x / nand.erasesize = offset / nand.erasesize := by
  apply Nat.le_antisymm
  · rw [blockEnd_eq] at hx
    exact Nat.lt_succ_iff.mp ((Nat.div_lt_iff_lt_mul erasesize_pos).mpr hx)
  · exact Nat.div_le_div_right h

/-- A block is skipped or taken as a whole. -/
theorem good_eq_of_lt_blockEnd (hoffset : offset < nand.size) (h : offset ≤ x)
    (hx : x < nand.blockEnd offset) : nand.good x = !nand.bbt (offset / nand.erasesize) := by
  unfold good
  rw [div_eq_of_lt_blockEnd h hx, decide_eq_true (hx.trans_le (blockEnd_le_size hoffset)),
    Bool.true_and]

theorem goodFrom_of_le (h : nand.size ≤ offset) : nand.goodFrom offset = [] := places_of_le h

theorem goodFrom_of_bad (hoffset : offset < nand.size)
    (hbad : nand.bbt (offset / nand.erasesize) = true) :
    nand.goodFrom offset = nand.goodFrom (nand.blockEnd offset) := by
  have hskip : places nand.good offset (nand.blockEnd offset) = [] := by
    apply places_eq_nil
    intro x hx hlt
    rw [good_eq_of_lt_blockEnd hoffset hx hlt, hbad]
    rfl
  unfold goodFrom
  rw [← places_append (lt_blockEnd nand offset).le (blockEnd_le_size hoffset), hskip]
  rfl

theorem goodFrom_of_good (hoffset : offset < nand.size)
    (hgood : nand.bbt (offset / nand.erasesize) = false) :
    nand.goodFrom offset = List.range' offset (nand.erasesize - offset % nand.erasesize) ++
      nand.goodFrom (nand.blockEnd offset) := by
  have htake : places nand.good offset (nand.blockEnd offset) =
      List.range' offset (nand.blockEnd offset - offset) := by
    apply places_eq_range'
    intro x hx hlt
    rw [good_eq_of_lt_blockEnd hoffset hx hlt, hgood]
    rfl
  unfold goodFrom
  rw [← places_append (lt_blockEnd nand offset).le (blockEnd_le_size hoffset), htake]
  unfold blockEnd
  rw [Nat.add_sub_cancel_left]

/-! ## Masks -/

theorem blockOffset_eq (nand : NandInfo) (offset : ℕ) :
    nand.blockOffset offset = offset % nand.erasesize :=
  Nat.and_two_pow_sub_one_eq_mod _ _

theorem blockStart_eq (h : offset < nand.size) :
    nand.blockStart offset = offset / nand.erasesize * nand.erasesize := by
  have hsize := nand.size_lt
  have herase := nand.erasesize_lt
  have hmask : (BitVec.ofNat 64 (nand.erasesize - 1)).toNat = 2 ^ nand.eraseShift - 1 := by
    rw [BitVec.toNat_ofNat, Nat.mod_eq_of_lt (by omega)]
    rfl
  unfold blockStart
  rw [toNat_and_not_mask _ hmask, BitVec.toNat_ofNat, Nat.mod_eq_of_lt (by omega)]
  rfl

/-- The upper bits that the narrow mask clears are 0 on a device of this size. -/
theorem blockStartOfMask32_eq (h : offset < nand.size) :
    nand.blockStartOfMask32 offset = nand.blockStart offset := by
  have hsize := nand.size_lt
  have herase := nand.erasesize_lt
  have hmask : (BitVec.ofNat 32 (nand.erasesize - 1)).toNat = 2 ^ nand.eraseShift - 1 := by
    rw [BitVec.toNat_ofNat, Nat.mod_eq_of_lt (by omega)]
    rfl
  have hnarrow := toNat_and_not_mask (BitVec.ofNat 32 offset) hmask
  rw [BitVec.toNat_and, BitVec.toNat_ofNat, Nat.mod_eq_of_lt (by omega)] at hnarrow
  rw [blockStart_eq h]
  unfold blockStartOfMask32
  rw [BitVec.toNat_and, BitVec.toNat_setWidth_of_le (by decide), BitVec.toNat_ofNat,
    Nat.mod_eq_of_lt (by omega)]
  exact hnarrow

theorem nandBlockIsbad_blockStart (h : offset < nand.size) :
    nand.nandBlockIsbad (nand.blockStart offset) = nand.bbt (offset / nand.erasesize) := by
  have hle := Nat.div_mul_le_self offset nand.erasesize
  unfold nandBlockIsbad
  rw [blockStart_eq h, if_neg (by omega), Nat.mul_div_cancel _ erasesize_pos]

end NandInfo

end Mtd

end LuojiOs
