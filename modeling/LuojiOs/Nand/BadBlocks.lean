import LuojiOs.Nand.Medium

/-!
# The table of bad blocks

The table has two bits for a block, four blocks in a byte.  A block can be marked without the
others; and marking one never reaches the array: `chip->ops.ooblen` is 0, as long as no blocks
have been formatted for JFFS2, so that none of the zero bytes is copied.
-/

namespace LuojiOs

namespace Nand

open Mtd (EINVAL)

variable {g : Geometry} {med : Medium} {d d' : Dev} {bbt : Bytes} {n x block block' : ℕ}

/-! ## Entries -/

/-- The entry of a block. -/
def entry (bbt : Bytes) (block : ℕ) : Bool :=
  (bbt (block / 4) >>> (2 * (block % 4))) &&& 0x03#8 != 0

/-- An entry, or'ed into its byte. -/
def mark (bbt : Bytes) (v : BitVec 8) (block : ℕ) : Bytes :=
  bbt.set (block / 4) (bbt (block / 4) ||| v <<< (2 * (block % 4)))

/-- One entry of a byte is marked, and the other three are left. -/
theorem mark_bits {v : BitVec 8} (hv : v = 0x01#8 ∨ v = 0x03#8) (x : BitVec 8) {k j : ℕ}
    (hk : k < 4) (hj : j < 4) :
    ((x ||| v <<< (2 * k)) >>> (2 * j) &&& 0x03#8 != 0) =
      (decide (j = k) || (x >>> (2 * j) &&& 0x03#8 != 0)) := by
  have hone : ∀ k < 4, ∀ j < 4,
      (0x01#8 <<< (2 * k) >>> (2 * j) &&& 0x03#8 != 0) = decide (j = k) := by decide
  have hboth : ∀ k < 4, ∀ j < 4,
      (0x03#8 <<< (2 * k) >>> (2 * j) &&& 0x03#8 != 0) = decide (j = k) := by decide
  have hmark : (v <<< (2 * k) >>> (2 * j) &&& 0x03#8 != 0) = decide (j = k) := by
    obtain rfl | rfl := hv
    · exact hone k hk j hj
    · exact hboth k hk j hj
  have hor : ∀ a b : BitVec 8, (a ||| b != 0) = (b != 0 || a != 0) := fun a b => by
    rw [bne, bne, bne, ← Bool.not_and, Bool.not_inj_iff, Bool.eq_iff_iff, Bool.and_eq_true,
      beq_iff_eq, beq_iff_eq, beq_iff_eq, and_comm]
    exact BitVec.or_eq_zero_iff
  have hsplit : (x ||| v <<< (2 * k)) >>> (2 * j) &&& 0x03#8 =
      (x >>> (2 * j) &&& 0x03#8) ||| (v <<< (2 * k) >>> (2 * j) &&& 0x03#8) := by
    rw [BitVec.ushiftRight_or_distrib, BitVec.and_or_distrib_right]
  rw [hsplit, hor, hmark]

theorem entry_mark {v : BitVec 8} (hv : v = 0x01#8 ∨ v = 0x03#8) (bbt : Bytes) (block b : ℕ) :
    entry (mark bbt v block) b = (decide (b = block) || entry bbt b) := by
  unfold entry mark
  by_cases hbyte : b / 4 = block / 4
  · have hsame : b % 4 = block % 4 ↔ b = block := by omega
    rw [hbyte, Bytes.set_self, mark_bits hv _ (Nat.mod_lt _ (by decide)) (Nat.mod_lt _ (by decide)),
      decide_eq_decide.mpr hsame]
  · have hne : b ≠ block := fun h => hbyte (congrArg (· / 4) h)
    rw [Bytes.set_of_ne hbyte, decide_eq_false hne, Bool.false_or]

theorem and_six (n : ℕ) : n &&& 6 = 2 * (n / 2 % 4) := by
  have hlow : ∀ k < 8, k &&& 6 = 2 * (k / 2 % 4) := by decide
  have hmod : n % 8 &&& 6 = n &&& 6 := by
    rw [← Nat.and_two_pow_sub_one_eq_mod n 3, Nat.and_assoc]
    rfl
  rw [← hmod, hlow _ (Nat.mod_lt _ (by decide))]
  omega

/-- Half blocks, counted in blocks. -/
theorem half_eq (g : Geometry) (offs : ℕ) :
    offs >>> (g.eraseShift - 1) / 2 = offs / g.erasesize := by
  obtain ⟨k, hk⟩ := Nat.exists_eq_add_of_le' (show 1 ≤ g.eraseShift from by
    have := g.page_ge.trans g.page_le
    omega)
  unfold Geometry.erasesize
  rw [hk, Nat.add_sub_cancel, Nat.shiftRight_eq_div_pow, Nat.div_div_eq_div_mul, Nat.pow_succ]

theorem nandIsbadBbt_eq (g : Geometry) (bbt : Bytes) (offs : ℕ) :
    nandIsbadBbt g bbt offs = entry bbt (offs / g.erasesize) := by
  unfold nandIsbadBbt entry
  dsimp only
  rw [← half_eq, and_six, Nat.div_div_eq_div_mul, Nat.shiftRight_eq_div_pow _ 3]

theorem badBlock_eq (g : Geometry) (bbt : Bytes) (block : ℕ) :
    badBlock g bbt block = entry bbt block := by
  unfold badBlock
  rw [nandIsbadBbt_eq, Nat.mul_div_cancel _ (erasesize_pos g)]

/-! ## Marking a block -/

/-- The table after `nand_default_block_markbad`. -/
theorem markbad_bbt (g : Geometry) (ofs : ℕ) (bbt : Bytes) :
    bbt.set (ofs >>> g.eraseShift >>> 2)
        (bbt (ofs >>> g.eraseShift >>> 2) ||| 0x01#8 <<< ((ofs >>> g.eraseShift &&& 0x03) <<< 1)) =
      mark bbt 0x01#8 (ofs / g.erasesize) := by
  unfold mark Geometry.erasesize
  rw [Nat.shiftRight_eq_div_pow _ 2, Nat.shiftRight_eq_div_pow, Nat.shiftLeft_eq, Nat.mul_comm 2]
  congr 4
  exact Nat.and_two_pow_sub_one_eq_mod _ 2

/-- The table after `create_bbt` has found a bad block. -/
theorem createBbt_bbt (block : ℕ) (bbt : Bytes) :
    bbt.set ((2 * block) >>> 3)
        (bbt ((2 * block) >>> 3) ||| 0x03#8 <<< (2 * block &&& 0x6)) = mark bbt 0x03#8 block := by
  unfold mark
  rw [and_six, Nat.shiftRight_eq_div_pow, show 2 * block / 2 ^ 3 = block / 4 by omega,
    Nat.mul_div_cancel_left _ (by decide)]

theorem fill_oob (oob : Bytes) (v : BitVec 8) (n x : ℕ) :
    Bytes.fill oob 0 v n x = if x < n then v else oob x := by
  unfold Bytes.fill
  simp

/-- Spare bytes that are all 0xff change nothing. -/
theorem program_erased (cells : ℕ → Bytes) (page column n : ℕ) (buf : Bytes)
    (h : ∀ x < n, buf x = 0xff#8) : program cells page column n buf = cells := by
  funext p x
  unfold program
  split
  · next hin =>
    rw [h _ (by omega)]
    exact BitVec.and_allOnes
  · rfl

/-- No spare byte is written: the cache, `oob_poi` and the table at most are changed. -/
structure Unwritten (g : Geometry) (bbt : Bytes) (d d' : Dev) : Prop where
  cells : d'.cells = d.cells
  databuf : d'.chip.databuf = d.chip.databuf
  pagebuf : ∀ p, d'.chip.pagebuf = some p → d.chip.pagebuf = some p
  oobwbuf : ∀ x < g.oobsize, d'.chip.oobwbuf x = 0xff#8 ∨ d'.chip.oobwbuf x = d.chip.oobwbuf x
  ooblen : d'.chip.ops.ooblen = d.chip.ops.ooblen
  bbt : d'.chip.bbt = bbt

theorem Unwritten.refl (g : Geometry) (d : Dev) : Unwritten g d.chip.bbt d d :=
  ⟨rfl, rfl, fun _ h => h, fun _ _ => Or.inr rfl, rfl, rfl⟩

/-- Programming the spare bytes alone, when all of them are 0xff. -/
theorem nandWriteOobStd_cells (page : ℕ) (h : ∀ x < g.oobsize, d.chip.oobwbuf x = 0xff#8) :
    (nandWriteOobStd g page d).cells = d.cells := by
  have hlen : min g.oobsize (g.writesize + g.oobsize - g.writesize - 0) = g.oobsize := by omega
  refine program_erased _ _ _ _ _ fun x hx => ?_
  simp only [cmdfunc, writeBuf, hlen] at hx ⊢
  rw [memcpy_zero_of_lt (by omega)]
  exact h x (by omega)

theorem nandDoWriteOob_spec (to_ : ℕ) (h : d.chip.ops.ooblen = 0) :
    Unwritten g d.chip.bbt d (nandDoWriteOob g to_ d).2 := by
  unfold nandDoWriteOob
  dsimp only
  by_cases hsize : g.oobsize < d.chip.ops.ooboffs + d.chip.ops.len
  · rw [if_pos hsize]
    exact .refl g d
  · rw [if_neg hsize]
    obtain ⟨hwp, hcells, hchip⟩ := nandCheckWp_eq g (cmdfunc g .reset d)
    generalize nandCheckWp g (cmdfunc g .reset d) = r at hwp hcells hchip ⊢
    simp only [hwp, Bool.false_eq_true, if_false]
    refine ⟨?_, ?_, fun p hp => ?_, fun x hx => Or.inl ?_, ?_, ?_⟩
    · rw [nandWriteOobStd_cells]
      · exact hcells
      · intro x hx
        dsimp only
        rw [h, memcpy_of_outside (by omega), fill_oob, if_pos hx]
    · change r.2.chip.databuf = d.chip.databuf
      rw [hchip]
      rfl
    · change (if r.2.chip.pagebuf = some (to_ >>> g.pageShift) then none else r.2.chip.pagebuf) =
        some p at hp
      rw [hchip] at hp
      split at hp
      · cases hp
      · exact hp
    · change Bytes.fill _ 0 0xff#8 g.oobsize x = 0xff#8
      rw [fill_oob, if_pos hx]
    · change r.2.chip.ops.ooblen = d.chip.ops.ooblen
      rw [hchip]
      rfl
    · change r.2.chip.bbt = d.chip.bbt
      rw [hchip]
      rfl

/-- The table after a block is marked, where the address is on the chip. -/
def markedBbt (g : Geometry) (ofs : ℕ) (bbt : Bytes) : Bytes :=
  if g.size < ofs ∨ nandIsbadBbt g bbt ofs = true then bbt
  else mark bbt 0x01#8 (ofs / g.erasesize)

theorem entry_markedBbt (g : Geometry) (ofs : ℕ) (bbt : Bytes) (b : ℕ) :
    entry (markedBbt g ofs bbt) b =
      (decide (ofs ≤ g.size ∧ b = ofs / g.erasesize) || entry bbt b) := by
  unfold markedBbt
  rw [nandIsbadBbt_eq]
  by_cases hsize : g.size < ofs
  · rw [if_pos (Or.inl hsize), decide_eq_false (by omega), Bool.false_or]
  · by_cases hbad : entry bbt (ofs / g.erasesize) = true
    · rw [if_pos (Or.inr hbad)]
      by_cases hb : b = ofs / g.erasesize
      · rw [hb, hbad, Bool.or_true]
      · rw [decide_eq_false fun h => hb h.2, Bool.false_or]
    · rw [if_neg (by tauto), entry_mark (Or.inl rfl)]
      congr 1
      rw [decide_eq_decide]
      omega

theorem nandDefaultBlockMarkbad_spec (ofs : ℕ) (h : d.chip.ops.ooblen = 0) :
    Unwritten g (mark d.chip.bbt 0x01#8 (ofs / g.erasesize)) d
      (nandDefaultBlockMarkbad g ofs d).2 := by
  unfold nandDefaultBlockMarkbad
  dsimp only
  rw [markbad_bbt]
  have hoob := nandDoWriteOob_spec (g := g) (ofs + g.oobsize)
    (d := { d with chip := { d.chip with
      bbt := mark d.chip.bbt 0x01#8 (ofs / g.erasesize)
      ops := { d.chip.ops with
        len := 2, oobbuf := fun _ => 0, ooboffs := g.badblockpos / 2 * 2 } } }) h
  split
  · exact ⟨hoob.cells, hoob.databuf, hoob.pagebuf, hoob.oobwbuf, hoob.ooblen, hoob.bbt⟩
  · exact ⟨hoob.cells, hoob.databuf, hoob.pagebuf, hoob.oobwbuf, hoob.ooblen, hoob.bbt⟩

/-- Marking a block changes the table, and nothing in the array. -/
theorem nandBlockMarkbad_spec (ofs : ℕ) (h : d.chip.ops.ooblen = 0) :
    Unwritten g (markedBbt g ofs d.chip.bbt) d (nandBlockMarkbad g ofs d).2 := by
  unfold nandBlockMarkbad nandBlockIsbad markedBbt
  by_cases hsize : g.size < ofs
  · rw [if_pos hsize, if_pos (Or.inl hsize)]
    exact .refl g d
  · rw [if_neg hsize]
    by_cases hbad : nandIsbadBbt g d.chip.bbt ofs = true
    · rw [if_pos hbad, if_pos (Or.inr hbad)]
      exact .refl g d
    · rw [if_neg hbad, if_neg (by tauto)]
      exact nandDefaultBlockMarkbad_spec ofs h

/-! ## The scan -/

/-- Does the pattern stand in the spare bytes of a page? -/
def hasPattern (g : Geometry) (c : Bytes) : Bool :=
  (List.range g.patternLen).all fun k => c (g.writesize + (g.patternOffs + k)) == 0xff#8

/-- Is there a mark in the first `n` pages from `page` on? -/
def markedPages (g : Geometry) (cells : ℕ → Bytes) (page n : ℕ) : Bool :=
  (List.range n).any fun j => !hasPattern g (cells (page + j))

/-- Is there a mark of a bad block in a block? -/
def hasMark (g : Geometry) (cells : ℕ → Bytes) (block : ℕ) : Bool :=
  markedPages g cells (block * g.pagesPerBlock) g.scanPages

/-- What the scan leaves as it is. -/
structure Scanned (d d' : Dev) : Prop where
  cells : d'.cells = d.cells
  pagebuf : d'.chip.pagebuf = d.chip.pagebuf
  oobwbuf : d'.chip.oobwbuf = d.chip.oobwbuf
  ops : d'.chip.ops = d.chip.ops

theorem Scanned.refl (d : Dev) : Scanned d d := ⟨rfl, rfl, rfl, rfl⟩

theorem Scanned.trans {d'' : Dev} (h : Scanned d d') (h' : Scanned d' d'') : Scanned d d'' where
  cells := h'.cells.trans h.cells
  pagebuf := h'.pagebuf.trans h.pagebuf
  oobwbuf := h'.oobwbuf.trans h.oobwbuf
  ops := h'.ops.trans h.ops

/-- The spare bytes of a page are read as they stand. -/
theorem nandDoReadOob_apply {page : ℕ} (hpage : page < g.pages) (buf : Bytes) (d : Dev)
    (hx : x < g.oobsize) :
    (nandDoReadOob g (page * g.writesize) buf d).1 x = d.cells page (g.writesize + x) := by
  have hlen : min g.oobsize (g.oobsize - 0) = g.oobsize := by omega
  have hshift : (page * g.writesize) >>> g.pageShift &&& g.pagemask = page := by
    rw [shiftRight_page, Nat.mul_div_cancel _ g.writesize_pos, and_pagemask hpage]
  unfold nandDoReadOob
  rw [hshift]
  simp only [readBuf, cmdfunc, hlen]
  rw [memcpy_zero_of_lt hx, memcpy_zero_of_lt hx, Nat.zero_add, memcpy_zero_of_lt hx]

theorem checkShortPattern_readOob {page : ℕ} (hpage : page < g.pages) (buf : Bytes) (d : Dev) :
    checkShortPattern g (nandDoReadOob g (page * g.writesize) buf d).1 =
      hasPattern g (d.cells page) := by
  unfold checkShortPattern hasPattern
  rw [Bool.eq_iff_iff, List.all_eq_true, List.all_eq_true]
  refine forall₂_congr fun k hk => ?_
  have hle := g.pattern_le
  rw [nandDoReadOob_apply hpage buf d (by have := List.mem_range.mp hk; omega)]

theorem scanBlockFast_spec (n page : ℕ) (hpage : page + n ≤ g.pages) (d : Dev) :
    (scanBlockFast g n (page * g.writesize) d).1 = markedPages g d.cells page n ∧
      Scanned d (scanBlockFast g n (page * g.writesize) d).2 ∧
      (scanBlockFast g n (page * g.writesize) d).2.chip.bbt = d.chip.bbt := by
  induction n generalizing page d with
  | zero => exact ⟨rfl, .refl d, rfl⟩
  | succ n ih =>
      have hfirst : markedPages g d.cells page (n + 1) =
          (!hasPattern g (d.cells page) || markedPages g d.cells (page + 1) n) := by
        unfold markedPages
        rw [List.range_succ_eq_map, List.any_cons, List.any_map]
        congr 2
        funext j
        exact congrArg (fun p => !hasPattern g (d.cells p)) (by omega)
      rw [scanBlockFast, hfirst]
      dsimp only
      rw [checkShortPattern_readOob (by omega), ← Nat.add_one_mul]
      cases hasPattern g (d.cells page) with
      | false => exact ⟨rfl, ⟨rfl, rfl, rfl, rfl⟩, rfl⟩
      | true =>
          rw [if_pos rfl]
          obtain ⟨hbad, hscan, hbbt⟩ := ih (page + 1) (by omega)
            { (nandDoReadOob g (page * g.writesize) d.chip.databuf d).2 with
              chip := { (nandDoReadOob g (page * g.writesize) d.chip.databuf d).2.chip with
                databuf := (nandDoReadOob g (page * g.writesize) d.chip.databuf d).1 } }
          exact ⟨hbad, ⟨hscan.cells, hscan.pagebuf, hscan.oobwbuf, hscan.ops⟩, hbbt⟩

/-- The blocks of the chip. -/
def Geometry.blocks (g : Geometry) : ℕ := g.size / g.erasesize

theorem pages_eq (g : Geometry) : g.pages = g.blocks * g.pagesPerBlock := by
  unfold Geometry.blocks Geometry.pages Geometry.pagesPerBlock Geometry.size Geometry.erasesize
  rw [Nat.pow_div g.erase_le (by decide), ← Nat.pow_add]
  congr 1
  have hpage := g.page_le
  have herase := g.erase_le
  omega

theorem block_le {g : Geometry} (h : block < g.blocks) :
    block * g.pagesPerBlock + g.pagesPerBlock ≤ g.pages := by
  rw [pages_eq, ← Nat.succ_mul]
  exact Nat.mul_le_mul_right _ h

theorem createBbt_spec (n block : ℕ) (h : block + n ≤ g.blocks) (d : Dev) :
    Scanned d (createBbt g n (2 * block) (block * g.erasesize) d) ∧
      ∀ b, entry (createBbt g n (2 * block) (block * g.erasesize) d).chip.bbt b =
        (entry d.chip.bbt b || (decide (block ≤ b ∧ b < block + n) && hasMark g d.cells b)) := by
  induction n generalizing block d with
  | zero =>
      refine ⟨.refl d, fun b => ?_⟩
      rw [decide_eq_false (by omega), Bool.false_and, Bool.or_false]
      rfl
  | succ n ih =>
      have hpages := block_le (g := g) (show block < g.blocks by omega)
      have hstart : block * g.erasesize = block * g.pagesPerBlock * g.writesize := by
        rw [erasesize_eq, Nat.mul_assoc]
      have hscanLe : g.scanPages ≤ g.pagesPerBlock := g.scan_le
      obtain ⟨hbad, hscan, hbbt⟩ :=
        scanBlockFast_spec (g := g) g.scanPages (block * g.pagesPerBlock) (by omega) d
      rw [createBbt]
      dsimp only
      rw [show 2 * block + 2 = 2 * (block + 1) by omega, ← Nat.add_one_mul]
      rw [← hstart] at hbad hscan hbbt
      generalize scanBlockFast g g.scanPages (block * g.erasesize) d = r at hbad hscan hbbt ⊢
      have hsplit : ∀ b, decide (block ≤ b ∧ b < block + (n + 1)) =
          (decide (b = block) || decide (block + 1 ≤ b ∧ b < block + 1 + n)) := fun b => by
        rw [← Bool.decide_or, decide_eq_decide]
        omega
      have hmark : ∀ b, (decide (b = block) && hasMark g d.cells b) =
          (decide (b = block) && r.1) := fun b => by
        by_cases hb : b = block
        · rw [hb, hbad]
          rfl
        · rw [decide_eq_false hb, Bool.false_and, Bool.false_and]
      by_cases hr : r.1 = true
      · rw [if_pos hr]
        obtain ⟨hrest, hentry⟩ := ih (block + 1) (by omega)
          { r.2 with chip := { r.2.chip with
            bbt := r.2.chip.bbt.set ((2 * block) >>> 3)
              (r.2.chip.bbt ((2 * block) >>> 3) ||| 0x03#8 <<< (2 * block &&& 0x6))
            badblocks := r.2.chip.badblocks + 1 } }
        refine ⟨⟨hrest.cells.trans hscan.cells, hrest.pagebuf.trans hscan.pagebuf,
          hrest.oobwbuf.trans hscan.oobwbuf, hrest.ops.trans hscan.ops⟩, fun b => ?_⟩
        rw [hentry]
        dsimp only
        rw [createBbt_bbt, entry_mark (Or.inr rfl), hscan.cells, hbbt, hsplit,
          Bool.and_or_distrib_right, hmark, hr, Bool.and_true, Bool.or_assoc, Bool.or_left_comm]
      · rw [if_neg hr]
        obtain ⟨hrest, hentry⟩ := ih (block + 1) (by omega) r.2
        refine ⟨hscan.trans hrest, fun b => ?_⟩
        rw [hentry, hscan.cells, hbbt, hsplit, Bool.and_or_distrib_right, hmark,
          Bool.eq_false_of_not_eq_true hr, Bool.and_false, Bool.false_or]

/-- The scan finds the blocks with a mark, and nothing but the table and buffers is changed. -/
theorem nandScanBbt_spec (g : Geometry) (d : Dev) :
    Scanned d (nandScanBbt g d) ∧ ∀ b, entry (nandScanBbt g d).chip.bbt b =
      (decide (b < g.blocks) && hasMark g d.cells b) := by
  have hzero : ∀ b, entry (fun _ => 0) b = false := fun b => by
    change (0#8 >>> (2 * (b % 4)) &&& 0x03#8 != 0) = false
    rw [BitVec.zero_ushiftRight]
    rfl
  obtain ⟨hscan, hentry⟩ := createBbt_spec (g := g) g.blocks 0 (by omega)
    { d with chip := { d.chip with bbt := fun _ => 0 } }
  rw [Nat.zero_mul] at hscan hentry
  refine ⟨⟨hscan.cells, hscan.pagebuf, hscan.oobwbuf, hscan.ops⟩, fun b => ?_⟩
  have hb := hentry b
  rw [hzero, Bool.false_or] at hb
  exact hb.trans (congrArg (· && _) (decide_eq_decide.mpr (by omega)))

end Nand

end LuojiOs
