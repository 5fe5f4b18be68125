import LuojiOs.Mtd.Nand
import LuojiOs.Nand.Correction

/-!
# The NAND driver

`nand_base.c` with the error correction in software, on the controller of `ls1x_nand.c`: the
commands, pages with their spare bytes, the page cache, and the requests of the partitions.
There is one chip, so `select_chip` does nothing, and `ls1x_nand_waitfunc` reports no failure.
Left out are requests for data together with spare bytes, and the waiting for the device.
-/

namespace LuojiOs

namespace Nand

open Mtd (EBADMSG EUCLEAN EINVAL)

def EIO : ℤ := 5

def EROFS : ℤ := 30

/-- What `nand_scan` finds out about the chip: the shifts, the layout of the spare bytes
(`eccpos`), and where the mark of a bad block stands (`badblockpos`, and the pattern). -/
structure Geometry where
  pageShift : ℕ
  eraseShift : ℕ
  chipShift : ℕ
  oobsize : ℕ
  eccpos : ℕ → ℕ
  badblockpos : ℕ
  patternOffs : ℕ
  patternLen : ℕ
  scanPages : ℕ
  page_ge : 8 ≤ pageShift
  page_le : pageShift ≤ eraseShift
  erase_le : eraseShift ≤ chipShift
  chip_lt : chipShift < 32
  eccpos_lt : ∀ i < 3 * 2 ^ (pageShift - 8), eccpos i < oobsize
  eccpos_inj : ∀ i < 3 * 2 ^ (pageShift - 8), ∀ j < 3 * 2 ^ (pageShift - 8),
    eccpos i = eccpos j → i = j
  pattern_le : patternOffs + patternLen ≤ oobsize
  pattern_free : ∀ k < patternLen, ∀ i < 3 * 2 ^ (pageShift - 8), eccpos i ≠ patternOffs + k
  scan_le : scanPages ≤ 2 ^ (eraseShift - pageShift)
  oob_le : oobsize ≤ 2 ^ pageShift

namespace Geometry

variable (g : Geometry)

def writesize : ℕ := 2 ^ g.pageShift

/-- `ecc.steps` -/
def steps : ℕ := 2 ^ (g.pageShift - 8)

/-- `ecc.total` -/
def total : ℕ := 3 * g.steps

def erasesize : ℕ := 2 ^ g.eraseShift

def pagesPerBlock : ℕ := 2 ^ (g.eraseShift - g.pageShift)

def size : ℕ := 2 ^ g.chipShift

def pages : ℕ := 2 ^ (g.chipShift - g.pageShift)

def pagemask : ℕ := g.pages - 1

end Geometry

/-- Pages of 2048 bytes with `nand_oob_64` and `largepage_memorybased`, on a chip of 128 MiB. -/
def nandOob64 : Geometry where
  pageShift := 11
  eraseShift := 17
  chipShift := 27
  oobsize := 64
  eccpos i := 40 + i
  badblockpos := 0
  patternOffs := 0
  patternLen := 2
  scanPages := 1
  page_ge := Nat.le_of_ble_eq_true rfl
  page_le := Nat.le_of_ble_eq_true rfl
  erase_le := Nat.le_of_ble_eq_true rfl
  chip_lt := Nat.le_of_ble_eq_true rfl
  eccpos_lt _ hi := Nat.add_lt_add_left hi 40
  eccpos_inj i _ j _ h := Nat.add_left_cancel h
  pattern_le := Nat.le_of_ble_eq_true rfl
  pattern_free k hk i _ := by
    have hlt : 0 + k < 40 + i := by
      rw [Nat.zero_add]
      exact Nat.lt_of_lt_of_le hk (Nat.le_trans (Nat.le_of_ble_eq_true rfl) (Nat.le_add_right 40 i))
    exact Nat.ne_of_gt hlt
  scan_le := Nat.le_of_ble_eq_true rfl
  oob_le := Nat.le_of_ble_eq_true rfl

/-! ## The controller -/

/-- `struct ls1x_nand_info` -/
structure Info where
  dataBuff : Bytes
  bufStart : ℕ
  bufCount : ℕ
  seqinColumn : ℕ
  seqinPageAddr : ℕ

/-- `struct mtd_oob_ops`, with what `nand_default_block_markbad` uses of it. -/
structure OobOps where
  len : ℕ
  ooblen : ℕ
  ooboffs : ℕ
  oobbuf : Bytes

/-- `struct nand_chip`, its buffers, and the statistics of the `mtd_info`. -/
structure Chip where
  databuf : Bytes
  oobrbuf : Bytes
  oobwbuf : Bytes
  pagebuf : Option ℕ
  bbt : Bytes
  ops : OobOps
  failed : ℕ
  corrected : ℕ
  badblocks : ℕ

/-- The driver and the array: for each page its bytes, the spare ones behind the others. -/
structure Dev where
  cells : ℕ → Bytes
  /-- the status register -/
  idh : BitVec 8
  info : Info
  chip : Chip

inductive Cmd
  | readoob (column page : ℕ)
  | read0 (column page : ℕ)
  | seqin (column page : ℕ)
  | pageprog
  | reset
  | erase1 (page : ℕ)
  | status
  | erase2

/-- `memcpy` from the start of another buffer. -/
def memcpy (dst : Bytes) (start : ℕ) (src : Bytes) (n : ℕ) : Bytes :=
  fun x => if start ≤ x ∧ x < start + n then src (x - start) else dst x

/-- The array is programmed: a bit that is 0 stays so. -/
def program (cells : ℕ → Bytes) (page column n : ℕ) (buf : Bytes) : ℕ → Bytes :=
  fun p x =>
    if p = page ∧ column ≤ x ∧ x < column + n then cells p x &&& buf (x - column) else cells p x

/-- The block of `page` is erased. -/
def eraseBlock (g : Geometry) (cells : ℕ → Bytes) (page : ℕ) : ℕ → Bytes :=
  fun p x => if p / g.pagesPerBlock = page / g.pagesPerBlock then 0xff#8 else cells p x

/-- `ls1x_nand_cmdfunc` -/
def cmdfunc (g : Geometry) (command : Cmd) (d : Dev) : Dev :=
  match command with
  | .readoob column page =>
    { d with info := { d.info with
        bufCount := g.oobsize
        bufStart := column
        dataBuff := memcpy d.info.dataBuff 0 (fun x => d.cells page (g.writesize + x)) g.oobsize } }
  | .read0 column page =>
    { d with info := { d.info with
        bufCount := g.writesize + g.oobsize
        bufStart := column
        dataBuff := memcpy d.info.dataBuff 0 (d.cells page) (g.writesize + g.oobsize) } }
  | .seqin column page =>
    { d with info := { d.info with
        bufCount := g.writesize + g.oobsize - column
        bufStart := 0
        seqinColumn := column
        seqinPageAddr := page } }
  | .pageprog =>
    { d with cells :=
        program d.cells d.info.seqinPageAddr d.info.seqinColumn d.info.bufCount d.info.dataBuff }
  | .reset => { d with info := { d.info with bufCount := 0, bufStart := 0 } }
  | .erase1 page =>
    { d with
      cells := eraseBlock g d.cells page
      info := { d.info with bufCount := 0, bufStart := 0 } }
  | .status =>
    { d with info := { d.info with
        bufCount := 1
        bufStart := 0
        dataBuff := d.info.dataBuff.set 0 (d.idh ||| 0x80#8) } }
  | .erase2 => { d with info := { d.info with bufCount := 0, bufStart := 0 } }

/-- `ls1x_nand_read_byte` -/
def readByte (info : Info) : BitVec 8 × Info :=
  if info.bufStart < info.bufCount then
    (info.dataBuff info.bufStart, { info with bufStart := info.bufStart + 1 })
  else (0xff#8, info)

/-- `ls1x_nand_read_buf`, into the buffer `buf`. -/
def readBuf (info : Info) (buf : Bytes) (len : ℕ) : Bytes × Info :=
  let realLen := min len (info.bufCount - info.bufStart)
  (memcpy buf 0 (fun i => info.dataBuff (info.bufStart + i)) realLen,
    { info with bufStart := info.bufStart + realLen })

/-- `ls1x_nand_write_buf`, from the buffer `buf`. -/
def writeBuf (info : Info) (buf : Bytes) (len : ℕ) : Info :=
  let realLen := min len (info.bufCount - info.bufStart)
  { info with
    dataBuff := memcpy info.dataBuff info.bufStart buf realLen
    bufStart := info.bufStart + realLen }

/-- `nand_check_wp`: not 0 if the chip is write protected. -/
def nandCheckWp (g : Geometry) (d : Dev) : Bool × Dev :=
  let d := cmdfunc g .status d
  let (byte, info) := readByte d.info
  (byte &&& 0x80#8 == 0, { d with info })

/-! ## Pages -/

/-- A byte of the code. -/
def EccCode.byte (c : EccCode) (t : ℕ) : BitVec 8 :=
  if t = 0 then c.code0 else if t = 1 then c.code1 else c.code2

/-- `ecc_calc`, three bytes for each step. -/
def eccCalc (buf : Bytes) (i : ℕ) : BitVec 8 := (nandCalculateEcc buf (256 * (i / 3))).byte (i % 3)

/-- The three bytes of a step in an array of codes. -/
def codeAt (ecc : ℕ → BitVec 8) (s : ℕ) : EccCode := ⟨ecc (3 * s), ecc (3 * s + 1), ecc (3 * s + 2)⟩

/-- The second loop of `nand_read_page_swecc`: the page, and the two counts. -/
def correctStep (calcEcc readEcc : ℕ → BitVec 8) (r : Bytes × ℕ × ℕ) (s : ℕ) : Bytes × ℕ × ℕ :=
  let c := nandCorrectData r.1 (256 * s) (codeAt readEcc s) (codeAt calcEcc s)
  if c.stat = -1 then (c.mem, r.2.1 + 1, r.2.2) else (c.mem, r.2.1, r.2.2 + c.stat.toNat)

/-- `nand_read_page_swecc`, into `buf`, with `oob_poi` at `oobrbuf`. -/
def nandReadPageSwecc (g : Geometry) (buf : Bytes) (d : Dev) : Bytes × Dev :=
  -- nand_read_page_raw
  let (page, info) := readBuf d.info buf g.writesize
  let (oob, info) := readBuf info d.chip.oobrbuf g.oobsize
  let r := (List.range g.steps).foldl
    (correctStep (eccCalc page) fun i => oob (g.eccpos i)) (page, d.chip.failed, d.chip.corrected)
  (r.1,
    { d with info, chip := { d.chip with oobrbuf := oob, failed := r.2.1, corrected := r.2.2 } })

/-- `nand_write_page_swecc`, with `oob_poi` at `oobwbuf`. -/
def nandWritePageSwecc (g : Geometry) (buf : Bytes) (d : Dev) : Dev :=
  -- software ecc calculation
  let oob := (List.range g.total).foldl (fun oob i => oob.set (g.eccpos i) (eccCalc buf i))
    d.chip.oobwbuf
  -- nand_write_page_raw
  let info := writeBuf d.info buf g.writesize
  let info := writeBuf info oob g.oobsize
  { d with info, chip := { d.chip with oobwbuf := oob } }

/-- `nand_write_page`; it does not fail, as `waitfunc` returns 0. -/
def nandWritePage (g : Geometry) (buf : Bytes) (page : ℕ) (d : Dev) : Dev :=
  cmdfunc g .pageprog (nandWritePageSwecc g buf (cmdfunc g (.seqin 0 page) d))

/-! ## Reading -/

/-- One round of the loop of `nand_do_read_ops`: `bytes` of a page, from `col` on, to
`buf + pos`. -/
def readRound (g : Geometry) (realpage col bytes pos : ℕ) (buf : Bytes) (d : Dev) : Bytes × Dev :=
  -- is the current page in the buffer ?
  if d.chip.pagebuf ≠ some realpage then
    let d := cmdfunc g (.read0 0 (realpage &&& g.pagemask)) d
    if bytes = g.writesize then
      let r := nandReadPageSwecc g (fun x => buf (pos + x)) d
      (memcpy buf pos r.1 g.writesize, r.2)
    else
      -- transfer not aligned data
      let r := nandReadPageSwecc g d.chip.databuf d
      (memcpy buf pos (fun x => r.1 (col + x)) bytes,
        { r.2 with chip := { r.2.chip with databuf := r.1, pagebuf := some realpage } })
  else (memcpy buf pos (fun x => d.chip.databuf (col + x)) bytes, d)

/-- The loop of `nand_do_read_ops`, with `pos` bytes in the buffer so far.  A round reads one byte
at least, so that `fuel` bytes are enough. -/
def readLoop (g : Geometry) : ℕ → ℕ → ℕ → ℕ → ℕ → Bytes → Dev → Bytes × Dev
  | 0, _, _, _, _, buf, d => (buf, d)
  | fuel + 1, realpage, col, readlen, pos, buf, d =>
    let bytes := min (g.writesize - col) readlen
    let r := readRound g realpage col bytes pos buf d
    if readlen - bytes = 0 then r
    else readLoop g fuel (realpage + 1) 0 (readlen - bytes) (pos + bytes) r.1 r.2

/-- What a request returns, the length that it leaves in `*retlen`, and the buffer. -/
structure Reply where
  ret : ℤ
  retlen : ℕ
  buf : Bytes

/-- `nand_do_read_ops` -/
def nandDoReadOps (g : Geometry) (start len : ℕ) (buf : Bytes) (d : Dev) : Reply × Dev :=
  let r := readLoop g len (start >>> g.pageShift) (start &&& (g.writesize - 1)) len 0 buf d
  let ret :=
    if r.2.chip.failed ≠ d.chip.failed then -EBADMSG
    else if r.2.chip.corrected ≠ d.chip.corrected then -EUCLEAN
    else 0
  (⟨ret, len, r.1⟩, r.2)

/-- `nand_read` -/
def nandRead (g : Geometry) (start len retlen : ℕ) (buf : Bytes) (d : Dev) : Reply × Dev :=
  if g.size < start + len then (⟨-EINVAL, retlen, buf⟩, d)
  else if len = 0 then (⟨0, retlen, buf⟩, d)
  else nandDoReadOps g start len buf d

/-! ## Writing -/

/-- The loop of `nand_do_write_ops`, over the pages from `realpage` on. -/
def writeLoop (g : Geometry) : ℕ → ℕ → ℕ → Bytes → Dev → Dev
  | 0, _, _, _, d => d
  | pages + 1, realpage, pos, buf, d =>
    writeLoop g pages (realpage + 1) (pos + g.writesize) buf
      (nandWritePage g (fun x => buf (pos + x)) (realpage &&& g.pagemask) d)

/-- Invalidate the page cache, when we write to the cached page. -/
def invalidate (g : Geometry) (to_ len : ℕ) (d : Dev) : Dev :=
  match d.chip.pagebuf with
  | none => d
  | some p =>
    if to_ ≤ p <<< g.pageShift ∧ p <<< g.pageShift < to_ + len then
      { d with chip := { d.chip with pagebuf := none } }
    else d

/-- `nand_do_write_ops` -/
def nandDoWriteOps (g : Geometry) (to_ len : ℕ) (buf : Bytes) (d : Dev) : Reply × Dev :=
  -- reject writes, which are not page aligned
  if to_ &&& (g.writesize - 1) ≠ 0 ∨ len &&& (g.writesize - 1) ≠ 0 then (⟨-EINVAL, 0, buf⟩, d)
  else if len = 0 then (⟨0, 0, buf⟩, d)
  else
    let (wp, d) := nandCheckWp g d
    if wp then (⟨- EIO, 0, buf⟩, d)
    else
      let d := invalidate g to_ len d
      (⟨0, len, buf⟩, writeLoop g (len / g.writesize) (to_ >>> g.pageShift) 0 buf d)

/-- `nand_write` -/
def nandWrite (g : Geometry) (to_ len retlen : ℕ) (buf : Bytes) (d : Dev) : Reply × Dev :=
  if g.size < to_ + len then (⟨-EINVAL, retlen, buf⟩, d)
  else if len = 0 then (⟨0, retlen, buf⟩, d)
  else nandDoWriteOps g to_ len buf d

/-- `nand_write_oob_std`, with `oob_poi` at `oobwbuf`. -/
def nandWriteOobStd (g : Geometry) (page : ℕ) (d : Dev) : Dev :=
  let d := cmdfunc g (.seqin g.writesize page) d
  cmdfunc g .pageprog { d with info := writeBuf d.info d.chip.oobwbuf g.oobsize }

/-- `nand_do_write_oob` with `chip->ops`, whose mode is `MTD_OOB_PLACE`. -/
def nandDoWriteOob (g : Geometry) (to_ : ℕ) (d : Dev) : ℤ × Dev :=
  let ops := d.chip.ops
  -- do not allow write past end of page
  if g.oobsize < ops.ooboffs + ops.len then (-EINVAL, d)
  else
    let page := to_ >>> g.pageShift
    let d := cmdfunc g .reset d
    let (wp, d) := nandCheckWp g d
    if wp then (- EROFS, d)
    else
      -- invalidate the page cache, if we write to the cached page
      let pagebuf := if d.chip.pagebuf = some page then none else d.chip.pagebuf
      let oob := Bytes.fill d.chip.oobwbuf 0 0xff#8 g.oobsize
      -- nand_fill_oob
      let oob := memcpy oob ops.ooboffs ops.oobbuf ops.ooblen
      let d := nandWriteOobStd g (page &&& g.pagemask)
        { d with chip := { d.chip with pagebuf, oobwbuf := oob } }
      (0, { d with chip := { d.chip with
        oobwbuf := Bytes.fill d.chip.oobwbuf 0 0xff#8 g.oobsize } })

/-! ## The table of bad blocks -/

/-- `nand_isbad_bbt`, without access to the area of a table. -/
def nandIsbadBbt (g : Geometry) (bbt : Bytes) (offs : ℕ) : Bool :=
  -- block number * 2
  let block := offs >>> (g.eraseShift - 1)
  (bbt (block >>> 3) >>> (block &&& 0x06)) &&& 0x03#8 != 0

/-- `nand_block_isbad`, where a number below 0 is an error. -/
def nandBlockIsbad (g : Geometry) (offs : ℕ) (d : Dev) : ℤ :=
  if g.size < offs then -EINVAL else if nandIsbadBbt g d.chip.bbt offs then 1 else 0

/-- `nand_default_block_markbad` -/
def nandDefaultBlockMarkbad (g : Geometry) (ofs : ℕ) (d : Dev) : ℤ × Dev :=
  -- get block number
  let block := ofs >>> g.eraseShift
  let bbt := d.chip.bbt.set (block >>> 2)
    (d.chip.bbt (block >>> 2) ||| 0x01#8 <<< ((block &&& 0x03) <<< 1))
  let ops := { d.chip.ops with
    len := 2, oobbuf := fun _ => 0, ooboffs := g.badblockpos / 2 * 2 }
  let r := nandDoWriteOob g (ofs + g.oobsize) { d with chip := { d.chip with bbt, ops } }
  if r.1 = 0 then
    (r.1, { r.2 with chip := { r.2.chip with badblocks := r.2.chip.badblocks + 1 } })
  else r

/-- `nand_block_markbad` -/
def nandBlockMarkbad (g : Geometry) (ofs : ℕ) (d : Dev) : ℤ × Dev :=
  let ret := nandBlockIsbad g ofs d
  if ret ≠ 0 then (if 0 < ret then 0 else ret, d) else nandDefaultBlockMarkbad g ofs d

/-! ## Erasing -/

/-- The loop of `nand_erase_nand`, over the blocks from `page` on. -/
def eraseLoop (g : Geometry) : ℕ → ℕ → Dev → ℤ × Dev
  | 0, _, d => (0, d)
  | blocks + 1, page, d =>
    if nandIsbadBbt g d.chip.bbt (page <<< g.pageShift) then (- EIO, d)
    else
      -- invalidate the page cache, if we erase the block which contains the cached page
      let pagebuf := d.chip.pagebuf.filter fun p => !(page ≤ p && p < page + g.pagesPerBlock)
      let d := { d with chip := { d.chip with pagebuf } }
      -- single_erease_cmd
      let d := cmdfunc g .erase2 (cmdfunc g (.erase1 (page &&& g.pagemask)) d)
      eraseLoop g blocks (page + g.pagesPerBlock) d

/-- `nand_erase`, with `addr` and `len` of the instruction. -/
def nandErase (g : Geometry) (addr len : ℕ) (d : Dev) : ℤ × Dev :=
  if addr &&& (g.erasesize - 1) ≠ 0 then (-EINVAL, d)
  else if len &&& (g.erasesize - 1) ≠ 0 then (-EINVAL, d)
  -- the sum is one of 32 bits
  else if g.size < (len + addr) % 2 ^ 32 then (-EINVAL, d)
  else
    let (wp, d) := nandCheckWp g d
    if wp then (- EIO, d) else eraseLoop g (len / g.erasesize) (addr >>> g.pageShift) d

/-! ## The scan for bad blocks -/

/-- `nand_do_read_oob` of one page, into `buf`. -/
def nandDoReadOob (g : Geometry) (start : ℕ) (buf : Bytes) (d : Dev) : Bytes × Dev :=
  let page := start >>> g.pageShift &&& g.pagemask
  -- nand_read_oob_std
  let d := cmdfunc g (.readoob 0 page) d
  let (oob, info) := readBuf d.info d.chip.oobrbuf g.oobsize
  (memcpy buf 0 oob g.oobsize, { d with info, chip := { d.chip with oobrbuf := oob } })

/-- `check_short_pattern` with `scan_ff_pattern`: does the pattern stand in the buffer? -/
def checkShortPattern (g : Geometry) (buf : Bytes) : Bool :=
  (List.range g.patternLen).all fun i => buf (g.patternOffs + i) == 0xff#8

/-- `scan_block_fast`: is one of the pages from `offs` on without the pattern? -/
def scanBlockFast (g : Geometry) : ℕ → ℕ → Dev → Bool × Dev
  | 0, _, d => (false, d)
  | len + 1, offs, d =>
    let (buf, d) := nandDoReadOob g offs d.chip.databuf d
    let d := { d with chip := { d.chip with databuf := buf } }
    if checkShortPattern g buf then scanBlockFast g len (offs + g.writesize) d else (true, d)

/-- The loop of `create_bbt`, where `i` is the number of the block * 2. -/
def createBbt (g : Geometry) : ℕ → ℕ → ℕ → Dev → Dev
  | 0, _, _, d => d
  | blocks + 1, i, start, d =>
    let (bad, d) := scanBlockFast g g.scanPages start d
    let d :=
      if bad then
        { d with chip := { d.chip with
          bbt := d.chip.bbt.set (i >>> 3) (d.chip.bbt (i >>> 3) ||| 0x03#8 <<< (i &&& 0x6))
          badblocks := d.chip.badblocks + 1 } }
      else d
    createBbt g blocks (i + 2) (start + g.erasesize) d

/-- `nand_scan_bbt` for a table in memory. -/
def nandScanBbt (g : Geometry) (d : Dev) : Dev :=
  createBbt g (g.size / g.erasesize) 0 0 { d with chip := { d.chip with bbt := fun _ => 0 } }

/-- `nand_scan_tail`, as far as it is about the state. -/
def nandScanTail (g : Geometry) (d : Dev) : Dev :=
  nandScanBbt g { d with chip := { d.chip with
    -- preset the internal oob write buffer
    oobwbuf := Bytes.fill d.chip.oobwbuf 0 0xff#8 g.oobsize
    -- invalidate the pagebuffer reference
    pagebuf := none } }

/-- `ls1x_nand_init`: the structures are allocated and cleared, and the chip is scanned. -/
def ls1xNandInit (g : Geometry) (d : Dev) : Dev :=
  nandScanTail g { d with
    info := ⟨d.info.dataBuff, 0, 0, 0, 0⟩
    chip :=
      { databuf := fun _ => 0
        oobrbuf := fun _ => 0
        oobwbuf := fun _ => 0
        -- not yet -1
        pagebuf := some 0
        bbt := fun _ => 0
        ops := ⟨0, 0, 0, fun _ => 0⟩
        failed := 0
        corrected := 0
        badblocks := 0 } }

end Nand

end LuojiOs
