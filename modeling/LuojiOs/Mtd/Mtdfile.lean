import LuojiOs.Mtd.Nand

/-!
# Files on the flash

The operations of `mtdfs` on a partition of a NAND flash, and the command `mtd_erase`.  What
they print, and the other branches for a NOR flash, are left out.
-/

namespace LuojiOs

namespace Mtd

/-- `yaf_use` and `yaf_w`, which nothing sets. -/
def yafUse : Bool := false

def yafW : Bool := true

/-- Conversion to a word of 32 bits. -/
def uint32 (x : ℤ) : ℕ := (x % 2 ^ 32).toNat

theorem uint32_eq {z : ℤ} (hz : 0 ≤ z) (hlt : z < 2 ^ 32) : uint32 z = z.toNat := by
  unfold uint32
  rw [Int.emod_eq_of_lt hz hlt]

/-- `(x + m - 1) & ~(m - 1)` for a power `m` of two. -/
def roundUp (m x : ℕ) : ℕ := (x + m - 1) % 2 ^ 32 / m * m

/-- `n` bytes at `posn`, cut at the end of the window.  The difference is one of 32 bits. -/
def clamp (posn : ℤ) (n openSize : ℕ) : ℕ :=
  if openSize < posn + n then uint32 (openSize - posn) else n

/-- `_file[fd].posn + priv->open_offset + p->part_offset` -/
def flashAddr (p : Mtdfile) (priv : Mtdpriv) (posn : ℤ) : ℤ :=
  posn + priv.openOffset + p.partOffset

namespace Chip

variable (chip : Chip)

/-- What is returned, the bytes read, and the position behind them. -/
structure FileRead where
  ret : ℕ
  data : List (BitVec 8)
  posn : ℤ
  flash : Flash

/-- `mtdfile_read`.  In front of the flash the table of bad blocks has no entries, so that
nothing is said of a read there. -/
def mtdfileRead (p : Mtdfile) (priv : Mtdpriv) (posn : ℤ) (n : ℕ) (flash : Flash) :
    Option FileRead :=
  let n := clamp posn n priv.openSize
  if flashAddr p priv posn < 0 ∧ n ≠ 0 then none
  else
    let r := chip.nandReadSkipBad (flashAddr p priv posn).toNat n flash
    let posn := if 0 < r.ret then posn + r.ret * chip.erasesize else posn
    some ⟨r.len, r.data, posn + r.len, r.flash⟩

/-- Where a write begins, after bad blocks have been skipped. -/
structure WriteStart where
  addr : ℕ
  posn : ℤ
  flash : Flash

/-- The loop of `mtdfile_write` that erases `len` bytes.  After `2 ^ 32 / erasesize` rounds the
address is back where it was, so that the loop does not end. -/
def eraseLoop (len : ℕ) : ℕ → ℕ → WriteStart → Option WriteStart
  | 0, _, _ => none
  | rounds + 1, addr, start =>
    let r := chip.nandErase addr len start.flash
    if r.1 = 0 then some { start with flash := r.2 }
    else
      eraseLoop len rounds ((addr + chip.erasesize) % 2 ^ 32)
        ⟨(start.addr + chip.erasesize) % 2 ^ 32, start.posn + chip.erasesize, r.2⟩

/-- The loop of `mtdfile_write` that only looks for a bad block. -/
def badLoop : ℕ → WriteStart → Option WriteStart
  | 0, _ => none
  | rounds + 1, start =>
    if chip.nandBlockIsbad (start.addr / chip.erasesize * chip.erasesize) then
      badLoop rounds
        ⟨(start.addr + chip.erasesize) % 2 ^ 32, start.posn + chip.erasesize, start.flash⟩
    else some start

/-- Where `mtdfile_write` programs `n` bytes. -/
def writeStart (n : ℕ) (start : WriteStart) : Option WriteStart :=
  let rounds := 2 ^ 32 / chip.erasesize
  let addr := roundUp chip.erasesize start.addr
  let len := roundUp chip.erasesize n
  if yafW then
    if start.addr ≤ addr ∧ addr < (start.addr + len) % 2 ^ 32 then
      chip.eraseLoop len rounds addr start
    else some start
  else chip.badLoop rounds start

/-- `mtdfile_write`: what is returned, the position, and the flash.  Rounded up to pages, the
length may reach behind the end of the data. -/
def mtdfileWrite (p : Mtdfile) (priv : Mtdpriv) (posn : ℤ) (data : ℕ → BitVec 8) (n : ℕ)
    (flash : Flash) : Option (ℕ × ℤ × Flash) :=
  let size := if yafUse then uint32 (n - 4 * 1024) else n
  let size := roundUp chip.writesize (clamp posn size priv.openSize)
  (chip.writeStart size ⟨uint32 (flashAddr p priv posn), posn, flash⟩).map fun start =>
    let r := chip.nandWrite start.addr size data start.flash
    (n, start.posn + r.len, r.flash)

/-- The loop of `mtd_erase`; a block that cannot be erased is left alone. -/
def eraseEach : ℕ → ℕ → Flash → Flash
  | 0, _, flash => flash
  | count + 1, addr, flash =>
    eraseEach count ((addr + chip.erasesize) % 2 ^ 32) (chip.nandErase addr chip.erasesize flash).2

/-- `mtd_erase`.  When the partition cannot be opened, the source goes on with the descriptor
-1, of which nothing is said. -/
def mtdErase (fname : CString) (mtdfiles : List Mtdfile) (flash : Flash) :
    Option (List Mtdfile × Flash) :=
  (mtdfileOpen fname mtdfiles).bind fun (priv, mtdfiles) =>
    mtdfiles[priv.file]?.map fun p =>
      let addr := roundUp chip.erasesize (uint32 (flashAddr p priv 0))
      (mtdfileClose priv mtdfiles, chip.eraseEach (p.partSize / chip.erasesize) addr flash)

end Chip

/-- `whence` of `lseek` -/
inductive Whence
  | set
  | cur
  | stop
  | other
  deriving DecidableEq

/-- `mtdfile_lseek`: what is returned, and the position. -/
def mtdfileLseek (priv : Mtdpriv) (posn offset : ℤ) : Whence → ℤ × ℤ
  | .set => (offset, offset)
  | .cur => (posn + offset, posn + offset)
  | .stop => (priv.openSize + offset, priv.openSize + offset)
  | .other => (-1, posn)

/-! ## A file in use -/

/-- An open file, with the partitions and the flash that it shares with `mtd_erase`. -/
structure OpenFile where
  mtdfiles : List Mtdfile
  priv : Mtdpriv
  posn : ℤ
  flash : Flash

inductive Request
  | lseek (offset : ℤ) (whence : Whence)
  | read (n : ℕ)
  | write (data : ℕ → BitVec 8) (n : ℕ)
  | erase (fname : CString)

namespace OpenFile

/-- `priv->file` -/
def part (file : OpenFile) : Option Mtdfile := file.mtdfiles[file.priv.file]?

def step (chip : Chip) (file : OpenFile) : Request → Option OpenFile
  | .lseek offset whence =>
    some { file with posn := (mtdfileLseek file.priv file.posn offset whence).2 }
  | .read n => file.part.bind fun p =>
    (chip.mtdfileRead p file.priv file.posn n file.flash).map fun r =>
      { file with posn := r.posn, flash := r.flash }
  | .write data n => file.part.bind fun p =>
    (chip.mtdfileWrite p file.priv file.posn data n file.flash).map fun (_, posn, flash) =>
      { file with posn := posn, flash := flash }
  | .erase fname =>
    (chip.mtdErase fname file.mtdfiles file.flash).map fun (mtdfiles, flash) =>
      { file with mtdfiles := mtdfiles, flash := flash }

end OpenFile

/-! ## The board -/

/-- A chip of 128 MB with pages of 2 KB and erase blocks of 128 KB, without faults other than
the blocks that are marked bad. -/
def board (bbt : ℕ → Bool) : Chip :=
  ⟨11, 17, 27, by decide, by decide, by decide, bbt, fun _ => .clean, fun _ => false,
    fun _ => false⟩

/-- The partitions that `ls1x_nand_init` makes. -/
def ls1xPartitions : List Mtdfile :=
  [⟨0, 0, 14 * 1024 * 1024, 0, cstr "kernel"⟩,
    ⟨0, 1, 100 * 1024 * 1024, 14 * 1024 * 1024, cstr "rootfs"⟩,
    ⟨0, 2, 14 * 1024 * 1024, (100 + 14) * 1024 * 1024, cstr "data"⟩]

end Mtd

end LuojiOs
