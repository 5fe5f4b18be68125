import LuojiOs.Mtd.NandUtil

/-!
# The read and its fast path

`nand_read_skip_bad` looks for bad blocks first and reads at once where there are none.  Both
ways deliver the bytes of the same addresses, the first good ones from the offset on.
-/

namespace LuojiOs

namespace Mtd

open Places

namespace NandInfo

variable {nand : NandInfo} {flash : Flash} {data : List (BitVec 8)} {r : Chip.ReadResult}
  {offset length lenExclBad left fuel x : ℕ} {ret : ℤ}

/-- What the callers of `nand_read` take for success. -/
def Accepted (r : Chip.ReadResult) : Prop := r.ret = 0 ∨ r.ret = -EUCLEAN

/-- A read that succeeds has returned the addressed bytes. -/
structure ReadsAddressed (nand : NandInfo) : Prop where
  len : ∀ addr len flash, Accepted (nand.read addr len flash) →
    (nand.read addr len flash).len = len
  data : ∀ addr len flash, Accepted (nand.read addr len flash) →
    (nand.read addr len flash).data = (List.range' addr len).map flash.bytes
  bytes : ∀ addr len flash, Accepted (nand.read addr len flash) →
    (nand.read addr len flash).flash.bytes = flash.bytes

/-- No read on the device fails. -/
def Reliable (nand : NandInfo) : Prop :=
  ∀ addr len flash, addr + len ≤ nand.size → Accepted (nand.read addr len flash)

/-- The bytes of the first `left` good addresses stand behind `data`. -/
structure Delivered (nand : NandInfo) (offset length left : ℕ) (data : List (BitVec 8))
    (flash : Flash) (r : Chip.ReadResult) : Prop where
  len : r.len = length
  data : r.data = data ++ ((nand.goodFrom offset).take left).map flash.bytes

/-! ## `check_skip_len` -/

/-- The rounds that are left behind the block of `offset`. -/
theorem rounds_blockEnd (hoffset : offset < nand.size)
    (hfuel : nand.size / nand.erasesize - offset / nand.erasesize < fuel + 1) :
    nand.size / nand.erasesize - nand.blockEnd offset / nand.erasesize < fuel := by
  have hblock : offset / nand.erasesize < nand.size / nand.erasesize := by
    rw [Nat.div_lt_iff_lt_mul erasesize_pos, size_div_mul]
    exact hoffset
  rw [blockEnd_div]
  omega

/-- The loop ends.  It does not fail if and only if there are enough good bytes, and if it returns
0 they follow one another. -/
theorem checkSkipLoop_spec
    (hfuel : nand.size / nand.erasesize - offset / nand.erasesize < fuel)
    (hwrap : lenExclBad + (nand.size - offset) < 2 ^ 32) (hret : 0 ≤ ret) :
    ∃ needSkip, nand.checkSkipLoop length fuel offset lenExclBad ret = some needSkip ∧
      (0 ≤ needSkip ↔ length ≤ lenExclBad + (nand.goodFrom offset).length) ∧
      (needSkip = 0 → ret = 0 ∧
        ∀ x, offset ≤ x → x < offset + (length - lenExclBad) → nand.good x = true) := by
  induction fuel generalizing offset lenExclBad ret with
  | zero => exact absurd hfuel (Nat.not_lt_zero _)
  | succ fuel ih =>
      rw [checkSkipLoop]
      by_cases hmore : lenExclBad < length
      · rw [if_pos hmore]
        by_cases hend : nand.size ≤ offset
        · rw [if_pos hend, goodFrom_of_le hend, List.length_nil]
          exact ⟨-1, rfl, by omega, by omega⟩
        have hoffset := Nat.lt_of_not_le hend
        have hnext := rounds_blockEnd hoffset hfuel
        have hmod := Nat.mod_lt offset (nand.erasesize_pos)
        have hstop := blockEnd_le_size hoffset
        have hblock : nand.blockEnd offset =
          offset + (nand.erasesize - offset % nand.erasesize) := rfl
        rw [if_neg hend]
        dsimp only
        rw [nandBlockIsbad_blockStart hoffset, blockOffset_eq, ← hblock]
        cases hbad : nand.bbt (offset / nand.erasesize) with
        | true =>
            rw [if_pos rfl, goodFrom_of_bad hoffset hbad]
            obtain ⟨needSkip, hcheck, hfits, hzero⟩ :=
              @ih (nand.blockEnd offset) lenExclBad 1 hnext (by omega) (by decide)
            refine ⟨needSkip, hcheck, hfits, fun hneed => ?_⟩
            have hone := (hzero hneed).1
            omega
        | false =>
            have hsum : uint32 (lenExclBad + (nand.erasesize - offset % nand.erasesize : ℕ)) =
                lenExclBad + (nand.erasesize - offset % nand.erasesize) := by
              rw [uint32_eq (by omega) (by omega)]
              omega
            rw [if_neg Bool.false_ne_true, hsum, goodFrom_of_good hoffset hbad,
              List.length_append, List.length_range']
            obtain ⟨needSkip, hcheck, hfits, hzero⟩ := @ih (nand.blockEnd offset)
              (lenExclBad + (nand.erasesize - offset % nand.erasesize)) ret hnext (by omega) hret
            refine ⟨needSkip, hcheck, hfits.trans (by omega), fun hneed =>
              ⟨(hzero hneed).1, fun x hx hlt => ?_⟩⟩
            rcases Nat.lt_or_ge x (nand.blockEnd offset) with hin | hafter
            · rw [good_eq_of_lt_blockEnd hoffset hx hin, hbad]
              rfl
            · exact (hzero hneed).2 x hafter (by omega)
      · rw [if_neg hmore]
        exact ⟨ret, rfl, by omega, fun hzero => ⟨hzero, by omega⟩⟩

theorem checkSkipLen_spec (hfuel : nand.size / nand.erasesize < fuel) :
    ∃ needSkip, nand.checkSkipLen fuel offset length = some needSkip ∧
      (0 ≤ needSkip ↔ length ≤ (nand.goodFrom offset).length) ∧
      (needSkip = 0 → ∀ x, offset ≤ x → x < offset + length → nand.good x = true) := by
  have hsize := nand.size_lt
  obtain ⟨needSkip, hcheck, hfits, hzero⟩ := @checkSkipLoop_spec nand offset length 0 fuel 0
    ((Nat.sub_le _ _).trans_lt hfuel) (by omega) (Int.le_refl 0)
  rw [Nat.zero_add] at hfits
  exact ⟨needSkip, hcheck, hfits, fun hneed => (hzero hneed).2⟩

/-! ## The loop over the blocks -/

theorem take_goodFrom (hoffset : offset < nand.size)
    (hgood : nand.bbt (offset / nand.erasesize) = false) :
    (nand.goodFrom offset).take left =
      List.range' offset (min left (nand.erasesize - offset % nand.erasesize)) ++
        (nand.goodFrom (nand.blockEnd offset)).take
          (left - (nand.erasesize - offset % nand.erasesize)) := by
  rw [goodFrom_of_good hoffset hgood, List.take_append, take_range', List.length_range']

theorem readLoop_zero : nand.readLoop length (fuel + 1) offset 0 data flash =
    some ⟨0, length, data, flash⟩ := by
  rw [readLoop, if_pos rfl]

/-- A bad block is left out. -/
theorem readLoop_bad (hoffset : offset < nand.size) (hleft : left ≠ 0)
    (hbad : nand.bbt (offset / nand.erasesize) = true) :
    nand.readLoop length (fuel + 1) offset left data flash =
      nand.readLoop length fuel (nand.blockEnd offset) left data flash := by
  rw [readLoop, if_neg hleft]
  dsimp only
  rw [blockStartOfMask32_eq hoffset, nandBlockIsbad_blockStart hoffset, if_pos hbad,
    blockOffset_eq]
  rfl

/-- Of a good block the rest is read, or as much as is still wanted. -/
theorem readLoop_good (hoffset : offset < nand.size) (hleft : left ≠ 0)
    (hgood : nand.bbt (offset / nand.erasesize) = false) :
    nand.readLoop length (fuel + 1) offset left data flash =
      let r := nand.read offset (min left (nand.erasesize - offset % nand.erasesize)) flash
      if r.ret ≠ 0 ∧ r.ret ≠ -EUCLEAN then some ⟨r.ret, uint32 (length - left), data, r.flash⟩
      else nand.readLoop length fuel (offset + r.len) (uint32 (left - r.len)) (data ++ r.data)
        r.flash := by
  have hmin : (if left < nand.erasesize - offset % nand.erasesize then left
      else nand.erasesize - offset % nand.erasesize) =
      min left (nand.erasesize - offset % nand.erasesize) := by
    split <;> omega
  rw [readLoop, if_neg hleft]
  dsimp only
  rw [blockStartOfMask32_eq hoffset, nandBlockIsbad_blockStart hoffset, hgood,
    if_neg Bool.false_ne_true, blockOffset_eq, hmin]

theorem length_goodFrom_lt : (nand.goodFrom offset).length < 2 ^ 32 := by
  have hle : (nand.goodFrom offset).length ≤ nand.size - offset := length_places_le
  have hsize := nand.size_lt
  omega

/-- The loop ends where there are enough good bytes.  If it returns 0 they are all delivered. -/
theorem readLoop_spec (hread : nand.ReadsAddressed)
    (hfuel : nand.size / nand.erasesize - offset / nand.erasesize < fuel)
    (hleft : left ≤ (nand.goodFrom offset).length) :
    ∃ r, nand.readLoop length fuel offset left data flash = some r ∧
      (r.ret = 0 → nand.Delivered offset length left data flash r) ∧
      (nand.Reliable → r.ret = 0) := by
  induction fuel generalizing offset left data flash with
  | zero => exact absurd hfuel (Nat.not_lt_zero _)
  | succ fuel ih =>
      by_cases hzero : left = 0
      · obtain rfl := hzero
        rw [readLoop_zero]
        exact ⟨_, rfl, fun _ => ⟨rfl, (List.append_nil data).symm⟩, fun _ => rfl⟩
      have hoffset : offset < nand.size := by
        by_contra hend
        rw [goodFrom_of_le (Nat.le_of_not_lt hend), List.length_nil] at hleft
        omega
      have hnext := rounds_blockEnd hoffset hfuel
      have hword := hleft.trans_lt length_goodFrom_lt
      have hstop := blockEnd_le_size hoffset
      have hlt := lt_blockEnd nand offset
      have hblock : nand.blockEnd offset =
        offset + (nand.erasesize - offset % nand.erasesize) := rfl
      cases hbad : nand.bbt (offset / nand.erasesize) with
      | true =>
          rw [readLoop_bad hoffset hzero hbad]
          rw [goodFrom_of_bad hoffset hbad] at hleft
          obtain ⟨r, hr, hdelivered, hreliable⟩ := @ih flash data (nand.blockEnd offset) left
            hnext hleft
          refine ⟨r, hr, fun hret => ⟨(hdelivered hret).len, ?_⟩, hreliable⟩
          rw [goodFrom_of_bad hoffset hbad]
          exact (hdelivered hret).data
      | false =>
          rw [readLoop_good hoffset hzero hbad]
          dsimp only
          have htake := @take_goodFrom nand offset left hoffset hbad
          rw [goodFrom_of_good hoffset hbad, List.length_append, List.length_range'] at hleft
          generalize nand.erasesize - offset % nand.erasesize = blockLen at *
          by_cases hok : Accepted (nand.read offset (min left blockLen) flash)
          · rw [if_neg fun hfailed => (not_or.mpr hfailed) hok]
            have hlen := hread.len _ _ _ hok
            have hbytes := hread.bytes _ _ _ hok
            have hdata := hread.data _ _ _ hok
            have hrest : uint32 (left - (min left blockLen : ℕ)) = left - min left blockLen := by
              rw [uint32_eq (by omega) (by omega)]
              omega
            rw [hlen, hrest, hdata]
            rcases Nat.lt_or_ge blockLen left with hmore | hlast
            · rw [Nat.min_eq_right hmore.le] at htake hbytes ⊢
              rw [← hblock]
              obtain ⟨r, hr, hdelivered, hreliable⟩ := @ih
                (nand.read offset blockLen flash).flash
                (data ++ (List.range' offset blockLen).map flash.bytes) (nand.blockEnd offset)
                (left - blockLen) hnext (by omega)
              refine ⟨r, hr, fun hret => ⟨(hdelivered hret).len, ?_⟩, hreliable⟩
              rw [(hdelivered hret).data, htake, hbytes, List.map_append, List.append_assoc]
            -- the last block is not left
            · rw [Nat.min_eq_left hlast] at htake ⊢
              rw [Nat.sub_eq_zero_of_le hlast, List.take_zero, List.append_nil] at htake
              obtain ⟨fuel, rfl⟩ : ∃ rounds, fuel = rounds + 1 := ⟨fuel - 1, by omega⟩
              rw [Nat.sub_self, readLoop_zero]
              refine ⟨_, rfl, fun _ => ⟨rfl, ?_⟩, fun _ => rfl⟩
              rw [htake]
          · rw [if_pos (not_or.mp hok)]
            refine ⟨_, rfl, fun hret => absurd (Or.inl hret) hok, fun hreliable => ?_⟩
            exact absurd (hreliable _ _ _ (by omega)) hok

/-! ## Reading at once -/

/-- Good addresses that follow one another are the first good ones. -/
theorem take_of_all_good (hfits : length ≤ (nand.goodFrom offset).length)
    (hgood : ∀ x, offset ≤ x → x < offset + length → nand.good x = true) :
    (nand.goodFrom offset).take length = List.range' offset length := by
  by_cases hlength : length = 0
  · rw [hlength]
    rfl
  have hwide : length ≤ nand.size - offset := hfits.trans length_places_le
  have hsplit : places nand.good offset (offset + length) ++
      places nand.good (offset + length) nand.size = places nand.good offset nand.size :=
    places_append (by omega) (by omega)
  unfold goodFrom
  rw [← hsplit, places_eq_range' hgood, Nat.add_sub_cancel_left]
  exact List.take_left' List.length_range'

/-- The fast path. -/
theorem delivered_read (hread : nand.ReadsAddressed)
    (hfits : length ≤ (nand.goodFrom offset).length)
    (hgood : ∀ x, offset ≤ x → x < offset + length → nand.good x = true)
    (hok : Accepted (nand.read offset length flash)) :
    nand.Delivered offset length length [] flash
      { nand.read offset length flash with ret := 0 } := by
  refine ⟨hread.len _ _ _ hok, ?_⟩
  rw [take_of_all_good hfits hgood]
  exact hread.data _ _ _ hok

/-- `nand_read_skip_bad` where there are enough good bytes. -/
theorem nandReadSkipBad_spec (hread : nand.ReadsAddressed)
    (hfuel : nand.size / nand.erasesize < fuel)
    (hfits : length ≤ (nand.goodFrom offset).length) :
    ∃ r, nand.nandReadSkipBad fuel offset length flash = some r ∧
      (r.ret = 0 → nand.Delivered offset length length [] flash r) ∧
      (nand.Reliable → 0 < length → r.ret = 0) := by
  obtain ⟨needSkip, hcheck, hnonneg, hzero⟩ :=
    @checkSkipLen_spec nand offset length fuel hfuel
  unfold nandReadSkipBad
  rw [hcheck, Option.bind_some, if_neg (Int.not_lt.mpr (hnonneg.mpr hfits))]
  by_cases hneed : needSkip = 0
  · rw [if_pos hneed]
    dsimp only
    by_cases hok : Accepted (nand.read offset length flash)
    · rw [if_pos (show _ ∨ _ from hok)]
      exact ⟨_, rfl, fun _ => delivered_read hread hfits (hzero hneed) hok, fun _ _ => rfl⟩
    · rw [if_neg (show ¬(_ ∨ _) from hok)]
      refine ⟨_, rfl, fun hret => absurd (Or.inl hret) hok, fun hreliable hpos => ?_⟩
      have hwide : length ≤ nand.size - offset := hfits.trans length_places_le
      exact absurd (hreliable _ _ _ (by omega)) hok
  · rw [if_neg hneed]
    obtain ⟨r, hr, hdelivered, hret⟩ := @readLoop_spec nand flash [] offset length length fuel
      hread ((Nat.sub_le _ _).trans_lt hfuel) hfits
    exact ⟨r, hr, hdelivered, fun hreliable _ => hret hreliable⟩

/-- Otherwise nothing is read. -/
theorem nandReadSkipBad_of_short (hfuel : nand.size / nand.erasesize < fuel)
    (hshort : (nand.goodFrom offset).length < length) :
    nand.nandReadSkipBad fuel offset length flash = some ⟨-EINVAL, 0, [], flash⟩ := by
  obtain ⟨needSkip, hcheck, hnonneg, -⟩ := @checkSkipLen_spec nand offset length fuel hfuel
  have hneg : needSkip < 0 :=
    Int.not_le.mp fun hle => Nat.not_le.mpr hshort (hnonneg.mp hle)
  unfold nandReadSkipBad
  rw [hcheck, Option.bind_some, if_pos hneg]

/-- If `nand_read_skip_bad` returns 0, the buffer holds the first `length` bytes of the good
blocks from the offset on.  If there are fewer of them it fails without a read.  The loop over
the blocks delivers the same bytes as the function, which may have read them at once. -/
theorem nandReadSkipBad_correct (hread : nand.ReadsAddressed) (offset length : ℕ)
    (flash : Flash) :
    ∃ enough, ∀ fuel, enough ≤ fuel →
      ∃ r, nand.nandReadSkipBad fuel offset length flash = some r ∧
        (r.ret = 0 → length ≤ (nand.goodFrom offset).length ∧ r.len = length ∧
          r.data = ((nand.goodFrom offset).take length).map flash.bytes) ∧
        ((nand.goodFrom offset).length < length →
          r.ret = -EINVAL ∧ r.len = 0 ∧ r.flash = flash) ∧
        (nand.Reliable → 0 < length → length ≤ (nand.goodFrom offset).length → r.ret = 0) ∧
        (r.ret = 0 → ∃ r', nand.readLoop length fuel offset length [] flash = some r' ∧
          (nand.Reliable → r'.ret = 0) ∧
          (r'.ret = 0 → r'.len = r.len ∧ r'.data = r.data)) := by
  refine ⟨nand.size / nand.erasesize + 1, fun fuel hfuel => ?_⟩
  rcases Nat.lt_or_ge (nand.goodFrom offset).length length with hshort | hfits
  · have hfailed : (-EINVAL : ℤ) ≠ 0 := by decide
    refine ⟨_, nandReadSkipBad_of_short hfuel hshort, fun hret => absurd hret hfailed,
      fun _ => ⟨rfl, rfl, rfl⟩, fun _ _ hfits => ?_, fun hret => absurd hret hfailed⟩
    exact absurd hfits (Nat.not_le.mpr hshort)
  · obtain ⟨r, hr, hdelivered, hret⟩ := @nandReadSkipBad_spec nand flash offset length fuel
      hread hfuel hfits
    obtain ⟨r', hr', hdelivered', hret'⟩ := @readLoop_spec nand flash [] offset length length
      fuel hread ((Nat.sub_le _ _).trans_lt hfuel) hfits
    refine ⟨r, hr, fun hzero => ⟨hfits, (hdelivered hzero).len, (hdelivered hzero).data⟩,
      fun hshort => absurd hfits (Nat.not_le.mpr hshort), fun hreliable hpos _ =>
        hret hreliable hpos, fun hzero => ⟨r', hr', hret', fun hzero' => ⟨?_, ?_⟩⟩⟩
    · rw [(hdelivered hzero).len, (hdelivered' hzero').len]
    · rw [(hdelivered hzero).data, (hdelivered' hzero').data]

/-- Three blocks of four bytes, without faults other than the block that is marked bad. -/
def threeBlocks (bad : ℕ) : NandInfo where
  size := 12
  eraseShift := 2
  bbt block := decide (block = bad)
  read addr len flash :=
    if 12 < addr + len then ⟨-EINVAL, len, [], flash⟩
    else ⟨0, len, (List.range' addr len).map flash.bytes, flash.read addr len⟩
  size_lt := by decide
  shift_lt := by decide
  erase_dvd := by decide

theorem threeBlocks_read {bad addr len : ℕ}
    (h : Accepted ((threeBlocks bad).read addr len flash)) : (threeBlocks bad).read addr len flash =
      ⟨0, len, (List.range' addr len).map flash.bytes, flash.read addr len⟩ := by
  unfold threeBlocks at h ⊢
  dsimp only at h ⊢
  split at h
  · exact absurd h (show ¬((-EINVAL : ℤ) = 0 ∨ -EINVAL = -EUCLEAN) by decide)
  · next hin => exact if_neg hin

theorem threeBlocks_readsAddressed (bad : ℕ) : (threeBlocks bad).ReadsAddressed where
  len _ _ _ h := congrArg Chip.ReadResult.len (threeBlocks_read h)
  data _ _ _ h := congrArg Chip.ReadResult.data (threeBlocks_read h)
  bytes _ _ _ h := congrArg (fun r => r.flash.bytes) (threeBlocks_read h)

theorem threeBlocks_reliable (bad : ℕ) : (threeBlocks bad).Reliable := by
  intro addr len flash hfits
  left
  unfold threeBlocks
  dsimp only
  rw [if_neg (Nat.not_lt.mpr (show addr + len ≤ 12 from hfits))]

/-- A read that begins in the bad block. -/
theorem nandReadSkipBad_correct_small :
    ∃ enough, ∀ fuel, enough ≤ fuel →
      ∃ r, (threeBlocks 1).nandReadSkipBad fuel 5 3 ⟨fun x => BitVec.ofNat 8 x, []⟩ = some r ∧
        r.ret = 0 ∧ r.data = [8, 9, 10] := by
  obtain ⟨enough, h⟩ := nandReadSkipBad_correct (threeBlocks_readsAddressed 1) 5 3
    ⟨fun x => BitVec.ofNat 8 x, []⟩
  refine ⟨enough, fun fuel hfuel => ?_⟩
  obtain ⟨r, hr, hdelivered, -, hserved, -⟩ := h fuel hfuel
  have hret := hserved (threeBlocks_reliable 1) (by decide) (by decide)
  exact ⟨r, hr, hret, (hdelivered hret).2.2⟩

end NandInfo

end Mtd

end LuojiOs
