import LuojiOs.Mtd.Partition

/-!
# The NAND flash

What `nand_base.c` does with a request of the partitions: `nand_read`, `nand_write` and
`nand_erase_nand`, and the functions of `nand_util.c` that skip bad blocks.  Every access to
the array is recorded.  Left out are the commands on the bus and the page cache: a page that is
still in `databuf` is recorded as one that is read, and is corrected anew.
-/

namespace LuojiOs

namespace Mtd

def EBADMSG : ℤ := 1

def EUCLEAN : ℤ := 2

def EIO : ℤ := 5

def EINVAL : ℤ := 22

/-- What the error correction says of a page. -/
inductive Ecc
  | clean
  | corrected
  | failed
  deriving DecidableEq

/-- `struct mtd_info` and `struct nand_chip`: the geometry, the table of bad blocks, and what
goes wrong in a page or a block. -/
structure Chip where
  pageShift : ℕ
  physEraseShift : ℕ
  chipShift : ℕ
  page_le : pageShift ≤ physEraseShift
  erase_le : physEraseShift ≤ chipShift
  chip_lt : chipShift < 32
  bbt : ℕ → Bool
  ecc : ℕ → Ecc
  eraseFails : ℕ → Bool
  programFails : ℕ → Bool

inductive FlashOp
  | read
  | program
  | erase
  deriving DecidableEq, Repr

structure Access where
  op : FlashOp
  addr : ℕ
  len : ℕ
  deriving DecidableEq, Repr

/-- The bytes of the array, and the accesses to it, the last one first. -/
structure Flash where
  bytes : ℕ → BitVec 8
  accesses : List Access

namespace Flash

def read (addr len : ℕ) (flash : Flash) : Flash :=
  { flash with accesses := ⟨.read, addr, len⟩ :: flash.accesses }

/-- A programmed bit stays 0 until it is erased. -/
def program (addr len : ℕ) (buf : ℕ → BitVec 8) (flash : Flash) : Flash where
  bytes x := if addr ≤ x ∧ x < addr + len then flash.bytes x &&& buf (x - addr) else flash.bytes x
  accesses := ⟨.program, addr, len⟩ :: flash.accesses

def erase (addr len : ℕ) (flash : Flash) : Flash where
  bytes x := if addr ≤ x ∧ x < addr + len then 0xff else flash.bytes x
  accesses := ⟨.erase, addr, len⟩ :: flash.accesses

end Flash

namespace Chip

variable (chip : Chip)

def writesize : ℕ := 2 ^ chip.pageShift

def erasesize : ℕ := 2 ^ chip.physEraseShift

def size : ℕ := 2 ^ chip.chipShift

/-- The number of erase blocks. -/
def blocks : ℕ := chip.size / chip.erasesize

/-- `nand_block_isbad`; it fails behind the end of the device, which is not 0 either. -/
def nandBlockIsbad (offs : ℕ) : Bool :=
  if chip.size < offs then true else chip.bbt (offs / chip.erasesize)

/-! ## Reading -/

/-- What the error correction says of the pages from `addr` on. -/
def eccOf (addr len : ℕ) : ℤ :=
  let pages := (List.range' addr len).map fun x => chip.ecc (x / chip.writesize)
  if .failed ∈ pages then -EBADMSG else if .corrected ∈ pages then -EUCLEAN else 0

/-- What a function returns, the length that it leaves in `*length`, and as many bytes of the
buffer. -/
structure ReadResult where
  ret : ℤ
  len : ℕ
  data : List (BitVec 8)
  flash : Flash

/-- The beginning of the page of an address. -/
def pageStart (x : ℕ) : ℕ := x / chip.writesize * chip.writesize

/-- The pages of these bytes are read, the first and the last one as a whole. -/
def readPages (addr len : ℕ) (flash : Flash) : Flash :=
  flash.read (chip.pageStart addr)
    (chip.pageStart (addr + len - 1) + chip.writesize - chip.pageStart addr)

/-- `nand_read`; of a page that is not asked for as a whole, a part is copied from `databuf`. -/
def nandRead (addr len : ℕ) (flash : Flash) : ReadResult :=
  if chip.size < addr + len then ⟨-EINVAL, len, [], flash⟩
  else if len = 0 then ⟨0, len, [], flash⟩
  else
    ⟨chip.eccOf addr len, len, (List.range' addr len).map flash.bytes,
      chip.readPages addr len flash⟩

/-- The loop of `check_skip_len`, over the blocks from `offset` on. -/
def checkSkipBlocks (length : ℕ) : ℕ → ℕ → ℕ → ℤ → ℤ
  | 0, _, lenExclBad, ret => if lenExclBad < length then -1 else ret
  | blocks + 1, offset, lenExclBad, ret =>
    if lenExclBad < length then
      if chip.size ≤ offset then -1
      else
        let blockOff := offset % chip.erasesize
        let blockLen := chip.erasesize - blockOff
        if chip.nandBlockIsbad (offset - blockOff) then
          checkSkipBlocks length blocks (offset + blockLen) lenExclBad 1
        else checkSkipBlocks length blocks (offset + blockLen) (lenExclBad + blockLen) ret
    else ret

/-- `check_skip_len`: 0 if there are no bad blocks, 1 if there are, and -1 if the length does
not fit. -/
def checkSkipLen (offset length : ℕ) : ℤ :=
  chip.checkSkipBlocks length (chip.blocks - offset / chip.erasesize) offset 0 0

/-- The loop of `nand_read_skip_bad`, over the blocks from `offset` on. -/
def readBlocks (length : ℕ) : ℕ → ℕ → ℕ → List (BitVec 8) → Flash → ReadResult
  -- `check_skip_len` has seen that nothing is left to read behind the last block
  | 0, _, leftToRead, data, flash => ⟨0, length - leftToRead, data, flash⟩
  | blocks + 1, offset, leftToRead, data, flash =>
    if leftToRead = 0 then ⟨0, length, data, flash⟩
    else
      let blockOffset := offset % chip.erasesize
      let blockLen := chip.erasesize - blockOffset
      if chip.nandBlockIsbad (offset - blockOffset) then
        readBlocks length blocks (offset + blockLen) leftToRead data flash
      else
        let r := chip.nandRead offset (min leftToRead blockLen) flash
        if r.ret ≠ 0 ∧ r.ret ≠ -EUCLEAN then ⟨r.ret, length - leftToRead, data, r.flash⟩
        else
          readBlocks length blocks (offset + r.len) (leftToRead - r.len) (data ++ r.data) r.flash

/-- `nand_read_skip_bad` -/
def nandReadSkipBad (offset length : ℕ) (flash : Flash) : ReadResult :=
  let needSkip := chip.checkSkipLen offset length
  if needSkip < 0 then ⟨-EINVAL, 0, [], flash⟩
  else if needSkip = 0 then
    let r := chip.nandRead offset length flash
    if r.ret = 0 ∨ r.ret = -EUCLEAN then { r with ret := 0 } else ⟨r.ret, 0, [], r.flash⟩
  else chip.readBlocks length (chip.blocks - offset / chip.erasesize) offset length [] flash

/-! ## Writing -/

structure WriteResult where
  ret : ℤ
  len : ℕ
  flash : Flash

/-- The loop of `nand_do_write_ops`, with the bytes written so far. -/
def writePages (buf : ℕ → BitVec 8) : ℕ → ℕ → ℕ → Flash → WriteResult
  | 0, _, written, flash => ⟨0, written, flash⟩
  | pages + 1, page, written, flash =>
    let flash := flash.program (page * chip.writesize) chip.writesize fun i => buf (written + i)
    if chip.programFails page then ⟨- EIO, written, flash⟩
    else writePages buf pages (page + 1) (written + chip.writesize) flash

def nandDoWriteOps (addr len : ℕ) (buf : ℕ → BitVec 8) (flash : Flash) : WriteResult :=
  -- writes that are not page aligned are rejected
  if addr % chip.writesize ≠ 0 ∨ len % chip.writesize ≠ 0 then ⟨-EINVAL, 0, flash⟩
  else chip.writePages buf (len / chip.writesize) (addr / chip.writesize) 0 flash

/-- `nand_write`, where the length is also what is returned through `retlen`. -/
def nandWrite (addr len : ℕ) (buf : ℕ → BitVec 8) (flash : Flash) : WriteResult :=
  if chip.size < addr + len then ⟨-EINVAL, len, flash⟩
  else if len = 0 then ⟨0, len, flash⟩
  else chip.nandDoWriteOps addr len buf flash

/-! ## Erasing -/

/-- The loop of `nand_erase_nand`, over the blocks from `block` on.  The chip takes the address
of a page without its upper bits. -/
def eraseBlocks : ℕ → ℕ → Flash → ℤ × Flash
  | 0, _, flash => (0, flash)
  | blocks + 1, block, flash =>
    if chip.bbt block then (- EIO, flash)
    else
      let flash := flash.erase (block * chip.erasesize % chip.size) chip.erasesize
      if chip.eraseFails block then (- EIO, flash) else eraseBlocks blocks (block + 1) flash

/-- `nand_erase_nand`, with `addr` and `len` of the instruction. -/
def nandErase (addr len : ℕ) (flash : Flash) : ℤ × Flash :=
  if addr % chip.erasesize ≠ 0 then (-EINVAL, flash)
  else if len % chip.erasesize ≠ 0 then (-EINVAL, flash)
  -- the sum is one of 32 bits
  else if chip.size < (len + addr) % 2 ^ 32 then (-EINVAL, flash)
  else chip.eraseBlocks (len / chip.erasesize) (addr / chip.erasesize) flash

end Chip

end Mtd

end LuojiOs
