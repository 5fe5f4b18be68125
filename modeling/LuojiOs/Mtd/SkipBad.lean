import LuojiOs.Mtd.SkipRead

/-!
# Reads that skip bad blocks

`nand_read_skip_bad` delivers the bytes of the first addresses behind its offset that lie in
good blocks, if the device has enough of them.
-/

namespace LuojiOs

namespace Mtd

open Places

/-! ## Accesses -/

/-- The accesses that `flash'` has on top of `flash` are all allowed. -/
def Touches (allowed : Access → Prop) (flash flash' : Flash) : Prop :=
  ∀ access ∈ flash'.accesses, access ∈ flash.accesses ∨ allowed access

section Touches

variable {allowed allowed' : Access → Prop} {flash flash' flash'' : Flash}

theorem Touches.refl (allowed : Access → Prop) (flash : Flash) : Touches allowed flash flash :=
  fun _ h => Or.inl h

theorem Touches.trans (h : Touches allowed flash flash') (h' : Touches allowed flash' flash'') :
    Touches allowed flash flash'' := by
  intro access hmem
  rcases h' access hmem with hearlier | hallowed
  · exact h access hearlier
  · exact Or.inr hallowed

theorem Touches.mono (h : Touches allowed flash flash')
    (hle : ∀ access, allowed access → allowed' access) : Touches allowed' flash flash' := by
  intro access hmem
  exact (h access hmem).imp_right (hle access)

/-- One more access. -/
theorem Touches.cons {access : Access} {bytes : ℕ → BitVec 8} (h : allowed access) :
    Touches allowed flash ⟨bytes, access :: flash.accesses⟩ := by
  intro other hmem
  rcases List.mem_cons.mp hmem with rfl | hearlier
  · exact Or.inr h
  · exact Or.inl hearlier

end Touches

namespace Chip

variable {chip : Chip} {flash : Flash} {data : List (BitVec 8)}
  {offset length lenExclBad left blocks addr len x : ℕ} {ret : ℤ}

/-- An address of the device, in a block that is not bad. -/
def good (chip : Chip) (x : ℕ) : Bool :=
  decide (x < chip.size) && !chip.bbt (x / chip.erasesize)

/-- The addresses in good blocks from `offset` on. -/
def goodFrom (chip : Chip) (offset : ℕ) : List ℕ := places chip.good offset chip.size

/-- The page of `x` can be read. -/
def Readable (chip : Chip) (x : ℕ) : Prop := chip.ecc (x / chip.writesize) ≠ .failed

instance : DecidablePred chip.Readable := fun _ => inferInstanceAs (Decidable (_ ≠ _))

/-! ## The geometry -/

theorem erasesize_pos : 0 < chip.erasesize := Nat.two_pow_pos _

theorem writesize_pos : 0 < chip.writesize := Nat.two_pow_pos _

theorem two_mul_size_le : 2 * chip.size ≤ 2 ^ 32 := by
  unfold size
  rw [← Nat.pow_succ']
  exact Nat.pow_le_pow_right (by decide) chip.chip_lt

theorem erasesize_le_size : chip.erasesize ≤ chip.size :=
  Nat.pow_le_pow_right (by decide) chip.erase_le

theorem size_lt : chip.size < 2 ^ 32 := Nat.pow_lt_pow_right (by decide) chip.chip_lt

theorem erasesize_dvd_size : chip.erasesize ∣ chip.size := Nat.pow_dvd_pow 2 chip.erase_le

theorem writesize_dvd_erasesize : chip.writesize ∣ chip.erasesize :=
  Nat.pow_dvd_pow 2 chip.page_le

theorem blocks_mul : chip.blocks * chip.erasesize = chip.size :=
  Nat.div_mul_cancel erasesize_dvd_size

theorem div_lt_blocks : offset / chip.erasesize < chip.blocks ↔ offset < chip.size := by
  rw [Nat.div_lt_iff_lt_mul erasesize_pos, blocks_mul]

/-- What `nand_util.c` sees of the chip. -/
def nandInfo (chip : Chip) : NandInfo where
  size := chip.size
  eraseShift := chip.physEraseShift
  bbt := chip.bbt
  read := chip.nandRead
  size_lt := size_lt
  shift_lt := chip.erase_le.trans_lt chip.chip_lt
  erase_dvd := erasesize_dvd_size

/-- The end of the block of `offset`. -/
def blockEnd (chip : Chip) (offset : ℕ) : ℕ :=
  offset + (chip.erasesize - offset % chip.erasesize)

theorem blockEnd_eq (chip : Chip) (offset : ℕ) :
    chip.blockEnd offset = (offset / chip.erasesize + 1) * chip.erasesize :=
  chip.nandInfo.blockEnd_eq offset

theorem lt_blockEnd (chip : Chip) (offset : ℕ) : offset < chip.blockEnd offset :=
  chip.nandInfo.lt_blockEnd offset

theorem blockEnd_le_size (h : offset < chip.size) : chip.blockEnd offset ≤ chip.size :=
  chip.nandInfo.blockEnd_le_size h

theorem blockEnd_div (chip : Chip) (offset : ℕ) :
    chip.blockEnd offset / chip.erasesize = offset / chip.erasesize + 1 :=
  chip.nandInfo.blockEnd_div offset

theorem nandBlockIsbad_eq (h : offset < chip.size) :
    chip.nandBlockIsbad (offset - offset % chip.erasesize) =
      chip.bbt (offset / chip.erasesize) := by
  unfold nandBlockIsbad
  have hle := Nat.mod_le offset chip.erasesize
  have hstart : offset - offset % chip.erasesize = offset / chip.erasesize * chip.erasesize := by
    have hdiv := Nat.div_add_mod' offset chip.erasesize
    omega
  rw [if_neg (by omega), hstart, Nat.mul_div_cancel _ erasesize_pos]

/-- A block is skipped or taken as a whole. -/
theorem good_eq_of_lt_blockEnd (hoffset : offset < chip.size) (h : offset ≤ x)
    (hx : x < chip.blockEnd offset) : chip.good x = !chip.bbt (offset / chip.erasesize) :=
  chip.nandInfo.good_eq_of_lt_blockEnd hoffset h hx

theorem goodFrom_of_le (h : chip.size ≤ offset) : chip.goodFrom offset = [] := places_of_le h

theorem goodFrom_of_bad (hoffset : offset < chip.size)
    (hbad : chip.bbt (offset / chip.erasesize) = true) :
    chip.goodFrom offset = chip.goodFrom (chip.blockEnd offset) :=
  chip.nandInfo.goodFrom_of_bad hoffset hbad

theorem goodFrom_of_good (hoffset : offset < chip.size)
    (hgood : chip.bbt (offset / chip.erasesize) = false) :
    chip.goodFrom offset = List.range' offset (chip.erasesize - offset % chip.erasesize) ++
      chip.goodFrom (chip.blockEnd offset) :=
  chip.nandInfo.goodFrom_of_good hoffset hgood

/-! ## `check_skip_len`

Over the blocks that are left, the loop does what the one of `nand_util.c` does on the same chip.
-/

theorem nandInfo_erasesize : chip.nandInfo.erasesize = chip.erasesize := rfl

theorem nandInfo_read : chip.nandInfo.read = chip.nandRead := rfl

theorem nandInfo_blockEnd : chip.nandInfo.blockEnd offset = chip.blockEnd offset := rfl

theorem nandInfo_isbad (h : offset < chip.size) :
    chip.nandInfo.nandBlockIsbad (chip.nandInfo.blockStart offset) =
      chip.bbt (offset / chip.erasesize) :=
  chip.nandInfo.nandBlockIsbad_blockStart h

theorem checkSkipLoop_eq {fuel : ℕ} (hblocks : blocks = chip.blocks - offset / chip.erasesize)
    (hfuel : blocks < fuel) (hwrap : lenExclBad + (chip.size - offset) < 2 ^ 32) :
    chip.nandInfo.checkSkipLoop length fuel offset lenExclBad ret =
      some (chip.checkSkipBlocks length blocks offset lenExclBad ret) := by
  induction fuel generalizing blocks offset lenExclBad ret with
  | zero => exact absurd hfuel (Nat.not_lt_zero _)
  | succ fuel ih =>
      rw [NandInfo.checkSkipLoop]
      by_cases hmore : lenExclBad < length
      · rw [if_pos hmore]
        by_cases hend : chip.size ≤ offset
        · have hdone : blocks = 0 := by
            have hout := mt div_lt_blocks.mp (Nat.not_lt.mpr hend)
            omega
          rw [hdone, checkSkipBlocks, if_pos hmore]
          exact if_pos hend
        have hoffset := Nat.lt_of_not_le hend
        have hin := div_lt_blocks.mpr hoffset
        have hdiv := blockEnd_div chip offset
        have hmod := Nat.mod_lt offset (chip.erasesize_pos)
        have hstop := blockEnd_le_size hoffset
        have hblock : chip.blockEnd offset =
          offset + (chip.erasesize - offset % chip.erasesize) := rfl
        obtain ⟨rest, rfl⟩ : ∃ rest, blocks = rest + 1 := ⟨blocks - 1, by omega⟩
        have hin' : ¬chip.nandInfo.size ≤ offset := hend
        rw [checkSkipBlocks, if_pos hmore, if_neg hend, if_neg hin']
        dsimp only
        rw [nandInfo_isbad hoffset, nandBlockIsbad_eq hoffset, NandInfo.blockOffset_eq,
          nandInfo_erasesize, ← hblock]
        cases hbad : chip.bbt (offset / chip.erasesize) with
        | true =>
            rw [if_pos rfl, if_pos rfl]
            exact ih (by omega) (by omega) (by omega)
        | false =>
            have hsum : uint32 (lenExclBad + (chip.erasesize - offset % chip.erasesize : ℕ)) =
                lenExclBad + (chip.erasesize - offset % chip.erasesize) := by
              rw [uint32_eq (by omega) (by omega)]
              omega
            rw [if_neg Bool.false_ne_true, if_neg Bool.false_ne_true, hsum]
            exact ih (by omega) (by omega) (by omega)
      · rw [if_neg hmore]
        cases blocks with
        | zero => rw [checkSkipBlocks, if_neg hmore]
        | succ blocks => rw [checkSkipBlocks, if_neg hmore]

theorem checkSkipLen_eq {fuel : ℕ} (hfuel : chip.blocks < fuel) :
    chip.nandInfo.checkSkipLen fuel offset length = some (chip.checkSkipLen offset length) := by
  have hsize := chip.size_lt
  exact checkSkipLoop_eq rfl ((Nat.sub_le _ _).trans_lt hfuel) (by omega)

theorem checkSkipLen_spec : (0 ≤ chip.checkSkipLen offset length ↔
      length ≤ (chip.goodFrom offset).length) ∧
    (chip.checkSkipLen offset length = 0 →
      ∀ x, offset ≤ x → x < offset + length → chip.good x = true) := by
  obtain ⟨needSkip, hcheck, hspec⟩ :=
    @NandInfo.checkSkipLen_spec chip.nandInfo offset length _ (Nat.lt_succ_self chip.blocks)
  cases Option.some.inj (hcheck.symm.trans (checkSkipLen_eq (Nat.lt_succ_self chip.blocks)))
  exact hspec

theorem checkSkipLen_nonneg :
    0 ≤ chip.checkSkipLen offset length ↔ length ≤ (chip.goodFrom offset).length :=
  checkSkipLen_spec.1

theorem good_of_checkSkipLen (h : chip.checkSkipLen offset length = 0) (hx : offset ≤ x)
    (hlt : x < offset + length) : chip.good x = true :=
  checkSkipLen_spec.2 h x hx hlt

/-! ## `nand_read` -/

theorem eccOf_accepted :
    chip.eccOf addr len = 0 ∨ chip.eccOf addr len = -EUCLEAN ↔
      ∀ x, addr ≤ x → x < addr + len → chip.Readable x := by
  have hmem : Ecc.failed ∈ (List.range' addr len).map (fun x => chip.ecc (x / chip.writesize)) ↔
      ∃ x, (addr ≤ x ∧ x < addr + len) ∧ chip.ecc (x / chip.writesize) = .failed := by
    simp only [List.mem_map, List.mem_range'_1]
  unfold eccOf
  dsimp only
  split
  · next hfailed =>
    obtain ⟨x, ⟨hx, hlt⟩, hecc⟩ := hmem.mp hfailed
    constructor
    · intro hret
      exact absurd hret (by decide)
    · intro hall
      exact absurd hecc (hall x hx hlt)
  · next hfailed =>
    constructor
    · intro _ x hx hlt hecc
      exact hfailed (hmem.mpr ⟨x, ⟨hx, hlt⟩, hecc⟩)
    · intro _
      split
      · exact Or.inr rfl
      · exact Or.inl rfl

theorem eccOf_le : chip.eccOf addr len ≤ 0 := by
  unfold eccOf
  dsimp only
  split
  · decide
  · split
    · decide
    · exact Int.le_refl 0

theorem nandRead_eq (h : addr + len ≤ chip.size) (hlen : len ≠ 0) :
    chip.nandRead addr len flash = ⟨chip.eccOf addr len, len,
      (List.range' addr len).map flash.bytes, chip.readPages addr len flash⟩ := by
  unfold nandRead
  rw [if_neg (Nat.not_lt.mpr h), if_neg hlen]

/-! ## `nand_read_skip_bad` -/

/-- A read of pages that each hold an address in `xs`. -/
def ReadIn (chip : Chip) (xs : List ℕ) (access : Access) : Prop :=
  access.op = .read ∧ 0 < access.len ∧ ∀ x, access.addr ≤ x → x < access.addr + access.len →
    ∃ y ∈ xs, x / chip.writesize = y / chip.writesize

/-- `flash'` differs from `flash` in reads of pages with an address in `xs` only. -/
structure ReadsFrom (chip : Chip) (xs : List ℕ) (flash flash' : Flash) : Prop where
  bytes : flash'.bytes = flash.bytes
  touches : Touches (chip.ReadIn xs) flash flash'

/-- The bytes of the addresses `xs` are put behind `data`, unless one of them is not readable. -/
structure Delivers (chip : Chip) (xs : List ℕ) (data : List (BitVec 8)) (flash : Flash)
    (r : ReadResult) : Prop where
  reads : ReadsFrom chip xs flash r.flash
  ret_le : r.ret ≤ 0
  whole : (∀ x ∈ xs, chip.Readable x) →
    r.ret = 0 ∧ r.len = data.length + xs.length ∧ r.data = data ++ xs.map flash.bytes
  short : r.len = data.length + xs.length → ∀ x ∈ xs, chip.Readable x

section Delivers

variable {xs ys : List ℕ} {r : ReadResult} {flash' flash'' : Flash}

theorem ReadIn.mono {access : Access} (h : chip.ReadIn xs access) (hsub : xs ⊆ ys) :
    chip.ReadIn ys access := by
  refine ⟨h.1, h.2.1, fun x hx hlt => ?_⟩
  obtain ⟨y, hy, hpage⟩ := h.2.2 x hx hlt
  exact ⟨y, hsub hy, hpage⟩

theorem ReadsFrom.refl (xs : List ℕ) (flash : Flash) : ReadsFrom chip xs flash flash :=
  ⟨rfl, .refl _ flash⟩

theorem ReadsFrom.mono (h : ReadsFrom chip xs flash flash') (hsub : xs ⊆ ys) :
    ReadsFrom chip ys flash flash' :=
  ⟨h.bytes, h.touches.mono fun _ hread => hread.mono hsub⟩

theorem ReadsFrom.trans (h : ReadsFrom chip xs flash flash')
    (h' : ReadsFrom chip ys flash' flash'') : ReadsFrom chip (xs ++ ys) flash flash'' :=
  ⟨h'.bytes.trans h.bytes, (h.mono (List.subset_append_left xs ys)).touches.trans
    (h'.mono (List.subset_append_right xs ys)).touches⟩

theorem pageStart_le (chip : Chip) (x : ℕ) : chip.pageStart x ≤ x := Nat.div_mul_le_self x _

theorem lt_pageStart (chip : Chip) (x : ℕ) : x < chip.pageStart x + chip.writesize :=
  Nat.lt_div_mul_add chip.writesize_pos

theorem pageStart_mono {y : ℕ} (h : x ≤ y) : chip.pageStart x ≤ chip.pageStart y :=
  Nat.mul_le_mul_right _ (Nat.div_le_div_right h)

theorem div_writesize_eq {y : ℕ} (hlo : chip.pageStart y ≤ x)
    (hhi : x < chip.pageStart y + chip.writesize) : x / chip.writesize = y / chip.writesize := by
  refine Nat.div_eq_of_lt_le hlo ?_
  rw [Nat.succ_mul]
  exact hhi

/-- Each page that is read holds one of the bytes that are asked for. -/
theorem readsFrom_read (addr : ℕ) (hlen : len ≠ 0) :
    ReadsFrom chip (List.range' addr len) flash (chip.readPages addr len flash) := by
  have hfirst := chip.pageStart_le addr
  have hlast := chip.lt_pageStart (addr + len - 1)
  have hbefore := chip.lt_pageStart addr
  have hle : chip.pageStart addr ≤ chip.pageStart (addr + len - 1) := pageStart_mono (by omega)
  refine ⟨rfl, .cons ⟨rfl, by dsimp only; omega, fun x hx hlt => ?_⟩⟩
  dsimp only at hx hlt
  rcases Nat.lt_or_ge x addr with hfront | hinside
  · exact ⟨addr, List.mem_range'_1.mpr ⟨le_rfl, by omega⟩, div_writesize_eq hx (by omega)⟩
  rcases Nat.lt_or_ge x (addr + len) with hwithin | hbehind
  · exact ⟨x, List.mem_range'_1.mpr ⟨hinside, hwithin⟩, rfl⟩
  · have hend := chip.pageStart_le (addr + len - 1)
    exact ⟨addr + len - 1, List.mem_range'_1.mpr ⟨by omega, by omega⟩,
      div_writesize_eq (by omega) (by omega)⟩

/-- A read that fails before the last address is short. -/
theorem delivers_failed (hreads : ReadsFrom chip xs flash r.flash) (hret : r.ret ≤ 0)
    (hlen : r.len < data.length + xs.length) (hx : x ∈ xs) (hfailed : ¬chip.Readable x) :
    Delivers chip xs data flash r :=
  ⟨hreads, hret, fun hall => absurd (hall x hx) hfailed, fun hlong => absurd hlong hlen.ne⟩

theorem delivers_nil (data : List (BitVec 8)) (flash : Flash) :
    Delivers chip [] data flash ⟨0, data.length, data, flash⟩ :=
  ⟨.refl [] flash, Int.le_refl 0, fun _ => ⟨rfl, rfl, (List.append_nil data).symm⟩,
    fun _ _ hx => nomatch hx⟩

/-- The rest is delivered behind what has been read already. -/
theorem Delivers.append (hread : ReadsFrom chip xs flash flash') (hall : ∀ x ∈ xs, chip.Readable x)
    (h : Delivers chip ys (data ++ xs.map flash.bytes) flash' r) :
    Delivers chip (xs ++ ys) data flash r := by
  have hlength : (data ++ xs.map flash.bytes).length + ys.length =
      data.length + (xs ++ ys).length := by
    rw [List.length_append, List.length_append, List.length_map, Nat.add_assoc]
  refine ⟨hread.trans h.reads, h.ret_le, fun hboth => ?_, fun hlong x hx => ?_⟩
  · obtain ⟨hret, hlen, hdata⟩ := h.whole fun x hx => hboth x (List.mem_append_right xs hx)
    refine ⟨hret, hlen.trans hlength, hdata.trans ?_⟩
    rw [hread.bytes, List.map_append, List.append_assoc]
  · rcases List.mem_append.mp hx with hfirst | hrest
    · exact hall x hfirst
    · exact h.short (hlong.trans hlength.symm) x hrest

end Delivers

theorem readBlocks_zero : chip.readBlocks length blocks offset 0 data flash =
    ⟨0, length, data, flash⟩ := by
  cases blocks with
  | zero => rfl
  | succ blocks => rfl

theorem take_goodFrom (hoffset : offset < chip.size)
    (hgood : chip.bbt (offset / chip.erasesize) = false) :
    (chip.goodFrom offset).take left =
      List.range' offset (min left (chip.erasesize - offset % chip.erasesize)) ++
        (chip.goodFrom (chip.blockEnd offset)).take
          (left - (chip.erasesize - offset % chip.erasesize)) :=
  chip.nandInfo.take_goodFrom hoffset hgood

theorem delivers_readBlocks (hblocks : blocks = chip.blocks - offset / chip.erasesize)
    (hleft : left ≤ (chip.goodFrom offset).length) (hlength : length = data.length + left) :
    Delivers chip ((chip.goodFrom offset).take left) data flash
      (chip.readBlocks length blocks offset left data flash) := by
  induction blocks generalizing offset left data flash with
  | zero =>
      have hend : chip.size ≤ offset := by
        apply Nat.le_of_not_lt
        intro hlt
        have hin := div_lt_blocks.mpr hlt
        omega
      rw [goodFrom_of_le hend] at hleft ⊢
      obtain rfl : left = 0 := Nat.le_zero.mp hleft
      obtain rfl : length = data.length := hlength
      exact delivers_nil data flash
  | succ blocks ih =>
      have hoffset : offset < chip.size := div_lt_blocks.mp (by omega)
      have hnext : blocks = chip.blocks - chip.blockEnd offset / chip.erasesize := by
        rw [blockEnd_div]
        omega
      unfold readBlocks
      by_cases hzero : left = 0
      · obtain rfl := hzero
        obtain rfl : length = data.length := hlength
        rw [if_pos rfl]
        exact delivers_nil data flash
      rw [if_neg hzero]
      dsimp only
      rw [nandBlockIsbad_eq hoffset]
      cases hbad : chip.bbt (offset / chip.erasesize) with
      | true =>
          rw [if_pos rfl, goodFrom_of_bad hoffset hbad]
          rw [goodFrom_of_bad hoffset hbad] at hleft
          exact ih hnext hleft hlength
      | false =>
          rw [if_neg Bool.false_ne_true, take_goodFrom hoffset hbad]
          have hend := blockEnd_le_size hoffset
          have hlt := lt_blockEnd chip offset
          rw [goodFrom_of_good hoffset hbad, List.length_append, List.length_range'] at hleft
          have hnext' : chip.blockEnd offset =
              offset + (chip.erasesize - offset % chip.erasesize) := rfl
          generalize chip.erasesize - offset % chip.erasesize = blockLen at *
          have hpos : min left blockLen ≠ 0 := by omega
          have hread := @readsFrom_read chip flash (min left blockLen) offset hpos
          rw [nandRead_eq (by omega) hpos]
          dsimp only
          by_cases hall : ∀ x, offset ≤ x → x < offset + min left blockLen → chip.Readable x
          · rw [if_neg fun hret => (not_or.mpr hret) (eccOf_accepted.mpr hall)]
            refine Delivers.append hread (fun x hx => ?_) ?_
            · rw [List.mem_range'_1] at hx
              exact hall x hx.1 hx.2
            by_cases hlast : left ≤ blockLen
            -- the last block is not left
            · rw [Nat.sub_eq_zero_of_le hlast, Nat.min_eq_left hlast, Nat.sub_self, readBlocks_zero,
                List.take_zero]
              have hdone : length =
                  (data ++ (List.range' offset left).map flash.bytes).length := by
                rw [List.length_append, List.length_map, List.length_range', hlength]
              rw [hdone]
              exact delivers_nil _ _
            · have hmin : min left blockLen = blockLen := by omega
              rw [hmin, ← hnext']
              refine ih hnext (by omega) ?_
              rw [List.length_append, List.length_map, List.length_range']
              omega
          · rw [if_pos (not_or.mp fun hret => hall (eccOf_accepted.mp hret))]
            simp only [not_forall] at hall
            obtain ⟨x, hx, hlt', hfailed⟩ := hall
            refine delivers_failed (hread.mono (List.subset_append_left _ _)) eccOf_le ?_
              (List.mem_append_left _ (List.mem_range'_1.mpr ⟨hx, hlt'⟩)) hfailed
            dsimp only
            rw [List.length_append, List.length_range']
            omega

/-- `nand_read_skip_bad` reads nothing if the device has too few good blocks. -/
theorem nandReadSkipBad_of_short (h : (chip.goodFrom offset).length < length) :
    chip.nandReadSkipBad offset length flash = ⟨-EINVAL, 0, [], flash⟩ := by
  have hneg : chip.checkSkipLen offset length < 0 :=
    Int.not_le.mp fun hle => Nat.not_le.mpr h (checkSkipLen_nonneg.mp hle)
  unfold nandReadSkipBad
  rw [if_pos hneg]

/-- Otherwise it delivers the bytes of good blocks. -/
theorem delivers_nandReadSkipBad (h : length ≤ (chip.goodFrom offset).length)
    (hlength : length ≠ 0) :
    Delivers chip ((chip.goodFrom offset).take length) [] flash
      (chip.nandReadSkipBad offset length flash) := by
  unfold nandReadSkipBad
  rw [if_neg (Int.not_lt.mpr (checkSkipLen_nonneg.mpr h))]
  by_cases hneed : chip.checkSkipLen offset length = 0
  · rw [if_pos hneed]
    have hwide : length ≤ chip.size - offset := h.trans length_places_le
    have htake : (chip.goodFrom offset).take length = List.range' offset length :=
      chip.nandInfo.take_of_all_good h fun x hx hlt => good_of_checkSkipLen hneed hx hlt
    rw [htake, nandRead_eq (by omega) hlength]
    have hread := @readsFrom_read chip flash length offset hlength
    dsimp only
    by_cases hok : ∀ x, offset ≤ x → x < offset + length → chip.Readable x
    · rw [if_pos (eccOf_accepted.mpr hok)]
      refine ⟨hread, Int.le_refl 0, fun _ => ⟨rfl, ?_, rfl⟩, fun _ x hx => ?_⟩
      · rw [List.length_nil, Nat.zero_add, List.length_range']
      · rw [List.mem_range'_1] at hx
        exact hok x hx.1 hx.2
    · rw [if_neg fun hret => hok (eccOf_accepted.mp hret)]
      simp only [not_forall] at hok
      obtain ⟨x, hx, hlt, hfailed⟩ := hok
      refine delivers_failed hread eccOf_le ?_ (List.mem_range'_1.mpr ⟨hx, hlt⟩) hfailed
      rw [List.length_range']
      exact Nat.add_pos_right _ (Nat.pos_of_ne_zero hlength)
  · rw [if_neg hneed]
    exact delivers_readBlocks rfl h (Nat.zero_add length).symm

/-- Only pages of good blocks are read. -/
theorem readsFrom_nandReadSkipBad :
    ReadsFrom chip ((chip.goodFrom offset).take length) flash
      (chip.nandReadSkipBad offset length flash).flash := by
  rcases Nat.lt_or_ge (chip.goodFrom offset).length length with hshort | hfits
  · rw [nandReadSkipBad_of_short hshort]
    exact .refl _ flash
  by_cases hlength : length = 0
  · obtain rfl := hlength
    have hneed : chip.checkSkipLen offset 0 = 0 := by
      unfold checkSkipLen
      cases chip.blocks - offset / chip.erasesize with
      | zero => rfl
      | succ blocks => rfl
    unfold nandReadSkipBad nandRead
    rw [hneed, if_neg (by decide), if_pos rfl]
    dsimp only
    split
    · exact .refl _ flash
    · exact .refl _ flash
  · exact (delivers_nandReadSkipBad hfits hlength).reads

/-! ## The loops of the source -/

theorem readLoop_eq {fuel : ℕ} (hblocks : blocks = chip.blocks - offset / chip.erasesize)
    (hfuel : blocks < fuel) (hleft : left ≤ (chip.goodFrom offset).length) (hle : left ≤ length)
    (hlength : length < 2 ^ 32) :
    chip.nandInfo.readLoop length fuel offset left data flash =
      some (chip.readBlocks length blocks offset left data flash) := by
  induction fuel generalizing blocks offset left data flash with
  | zero => exact absurd hfuel (Nat.not_lt_zero _)
  | succ fuel ih =>
      by_cases hzero : left = 0
      · rw [hzero, readBlocks_zero, NandInfo.readLoop_zero]
      have hoffset : offset < chip.size := by
        by_contra hend
        rw [goodFrom_of_le (Nat.le_of_not_lt hend), List.length_nil] at hleft
        omega
      have hin := div_lt_blocks.mpr hoffset
      have hdiv := blockEnd_div chip offset
      have hlt := lt_blockEnd chip offset
      have hstop := blockEnd_le_size hoffset
      have hblock : chip.blockEnd offset =
        offset + (chip.erasesize - offset % chip.erasesize) := rfl
      obtain ⟨rest, rfl⟩ : ∃ rest, blocks = rest + 1 := ⟨blocks - 1, by omega⟩
      rw [readBlocks, if_neg hzero]
      dsimp only
      rw [nandBlockIsbad_eq hoffset]
      cases hbad : chip.bbt (offset / chip.erasesize) with
      | true =>
          rw [chip.nandInfo.readLoop_bad hoffset hzero hbad, nandInfo_blockEnd, if_pos rfl]
          rw [goodFrom_of_bad hoffset hbad] at hleft
          exact ih (by omega) (by omega) hleft hle
      | false =>
          rw [chip.nandInfo.readLoop_good hoffset hzero hbad, if_neg Bool.false_ne_true]
          rw [goodFrom_of_good hoffset hbad, List.length_append, List.length_range'] at hleft
          dsimp only
          rw [nandInfo_erasesize]
          generalize chip.erasesize - offset % chip.erasesize = blockLen at *
          rw [nandInfo_read, nandRead_eq (by omega) (by omega : min left blockLen ≠ 0)]
          dsimp only
          have hdone : uint32 (length - left) = length - left := by
            rw [uint32_eq (by omega) (by omega)]
            omega
          have hrest : uint32 (left - (min left blockLen : ℕ)) = left - min left blockLen := by
            rw [uint32_eq (by omega) (by omega)]
            omega
          rw [hdone, hrest]
          split
          · rfl
          rcases Nat.lt_or_ge blockLen left with hmore | hlast
          · rw [Nat.min_eq_right hmore.le, ← hblock]
            exact ih (by omega) (by omega) (by omega) (by omega)
          -- the last block is not left
          · obtain ⟨fuel, rfl⟩ : ∃ rounds, fuel = rounds + 1 := ⟨fuel - 1, by omega⟩
            rw [Nat.min_eq_left hlast, Nat.sub_self, readBlocks_zero, NandInfo.readLoop_zero]

/-- `nand_read_skip_bad` of `nand_util.c`, on a chip of `nand_base.c`. -/
theorem nandReadSkipBad_eq {fuel : ℕ} (hfuel : chip.blocks < fuel) :
    chip.nandInfo.nandReadSkipBad fuel offset length flash =
      some (chip.nandReadSkipBad offset length flash) := by
  rcases Nat.lt_or_ge (chip.goodFrom offset).length length with hshort | hfits
  · rw [nandReadSkipBad_of_short hshort]
    exact NandInfo.nandReadSkipBad_of_short hfuel hshort
  have hword : (chip.goodFrom offset).length < 2 ^ 32 :=
    @NandInfo.length_goodFrom_lt chip.nandInfo offset
  unfold NandInfo.nandReadSkipBad nandReadSkipBad
  rw [checkSkipLen_eq hfuel, Option.bind_some, nandInfo_read]
  dsimp only
  split
  · rfl
  split
  · split
    · rfl
    · rfl
  · exact readLoop_eq rfl ((Nat.sub_le _ _).trans_lt hfuel) hfits le_rfl (by omega)

end Chip

end Mtd

end LuojiOs
