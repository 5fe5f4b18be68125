import LuojiOs.Mtd.SkipBad
import LuojiOs.Support.Runs
import Mathlib.Data.List.Induction

/-!
# Staying in the partition

The functions below `mtdfs` know the end of the device, and not that of a partition or of a
window in it.  What is read, programmed and erased stays inside if the bad blocks, and the
rounding to blocks, leave enough room in front of that end.
-/

namespace LuojiOs

namespace Mtd

open Places

/-! ## The conditions -/

/-- The end of the window, or of the partition where the window reaches further. -/
def windowEnd (p : Mtdfile) (priv : Mtdpriv) : ℕ :=
  min (p.partOffset + priv.openOffset + priv.openSize) (p.partOffset + p.partSize)

/-- The next multiple of `m`. -/
def nextMultiple (m x : ℕ) : ℕ := (x + m - 1) / m * m

namespace Chip

/-- The blocks of `len` bytes from `addr` on are not bad, and can be erased. -/
def Erasable (chip : Chip) (addr len : ℕ) : Prop :=
  ∀ block, addr ≤ block * chip.erasesize → block * chip.erasesize < addr + len →
    chip.bbt block = false ∧ chip.eraseFails block = false

/-- The page of an address lies in the window. -/
def PageInside (chip : Chip) (p : Mtdfile) (priv : Mtdpriv) (x : ℕ) : Prop :=
  p.partOffset + priv.openOffset ≤ chip.pageStart x ∧
    chip.pageStart x + chip.writesize ≤ windowEnd p priv

instance (chip : Chip) (p : Mtdfile) (priv : Mtdpriv) : DecidablePred (chip.PageInside p priv) :=
  fun _ => inferInstanceAs (Decidable (_ ∧ _))

/-- Nothing is to be read in front of the end of the window, or the device has fewer good bytes,
so that nothing is read, or the pages of the first good bytes from the position on lie in the
window. -/
def ReadStays (chip : Chip) (p : Mtdfile) (priv : Mtdpriv) (posn : ℤ) (n : ℕ) : Prop :=
  let size := clamp posn n priv.openSize
  let addr := flashAddr p priv posn
  size = 0 ∨ 0 ≤ addr ∧ ((chip.goodFrom addr.toNat).length < size ∨
    ∀ x ∈ (chip.goodFrom addr.toNat).take size, chip.PageInside p priv x)

/-- Nothing is to be written, or the position is behind the window, or the blocks that are erased
lie in the partition and the pages that are programmed in the window, where both have been moved
by `k` blocks. -/
def WriteStays (chip : Chip) (p : Mtdfile) (priv : Mtdpriv) (posn : ℤ) (n : ℕ) : Prop :=
  let size := roundUp chip.writesize (clamp posn n priv.openSize)
  let addr := flashAddr p priv posn
  size = 0 ∨ (priv.openSize < posn ∧ addr < 2 ^ 32) ∨
    0 ≤ posn ∧ posn ≤ priv.openSize ∧ ∃ k,
      let start := nextMultiple chip.erasesize addr.toNat + k * chip.erasesize
      let len := nextMultiple chip.erasesize size
      chip.Erasable start len ∧ start + len ≤ min (p.partOffset + p.partSize) chip.size ∧
        (chip.writesize ∣ addr.toNat →
          addr.toNat + k * chip.erasesize + size ≤ windowEnd p priv)

/-- The block at `addr` lies in the partition, or it is bad, or the driver refuses to erase it. -/
def BlockStays (chip : Chip) (p : Mtdfile) (addr : ℕ) : Prop :=
  chip.size < (chip.erasesize + addr) % 2 ^ 32 ∨ chip.bbt (addr / chip.erasesize) = true ∨
    p.partOffset ≤ addr % chip.size ∧
      addr % chip.size + chip.erasesize ≤ p.partOffset + p.partSize

instance (chip : Chip) (p : Mtdfile) : DecidablePred (chip.BlockStays p) :=
  fun _ => inferInstanceAs (Decidable (_ ∨ _ ∨ _))

/-- As many blocks as the partition has are erased from the window on. -/
def EraseStays (chip : Chip) (p : Mtdfile) (openOffset : ℕ) : Prop :=
  ∀ i < p.partSize / chip.erasesize,
    chip.BlockStays p ((roundUp chip.erasesize (uint32 (openOffset + p.partOffset)) +
      i * chip.erasesize) % 2 ^ 32)

end Chip

/-- The condition on a request; `mtd_erase` is given a name of the same partition. -/
def OpenFile.Stays (chip : Chip) (file : OpenFile) : Request → Prop
  | .lseek _ _ => True
  | .read n => ∀ p, file.part = some p → chip.ReadStays p file.priv file.posn n
  | .write _ n => ∀ p, file.part = some p → chip.WriteStays p file.priv file.posn n
  | .erase fname => ∀ p, file.part = some p → ∃ poffset,
      findPartition file.mtdfiles fname = some (file.priv.file, poffset) ∧
        chip.EraseStays p (openWindow poffset p.partSize).1

/-- The access lies in the partition, and one that reads or programs lies in the window. -/
structure Confined (p : Mtdfile) (priv : Mtdpriv) (access : Access) : Prop where
  partition_le : p.partOffset ≤ access.addr
  le_partition : access.addr + access.len ≤ p.partOffset + p.partSize
  window : access.op ≠ .erase → p.partOffset + priv.openOffset ≤ access.addr ∧
    access.addr + access.len ≤ p.partOffset + priv.openOffset + priv.openSize

/-! ## Rounding -/

section Rounding

variable {m x y k : ℕ}

theorem le_nextMultiple (hm : 0 < m) : x ≤ nextMultiple m x := by
  have hmod := Nat.mod_lt (x + m - 1) hm
  have hdiv := Nat.div_add_mod' (x + m - 1) m
  unfold nextMultiple
  omega

theorem nextMultiple_lt (hm : 0 < m) : nextMultiple m x < x + m := by
  have hdiv := Nat.div_mul_le_self (x + m - 1) m
  unfold nextMultiple
  omega

theorem dvd_nextMultiple : m ∣ nextMultiple m x := Nat.dvd_mul_left _ _

theorem roundUp_eq (h : x + m - 1 < 2 ^ 32) : roundUp m x = nextMultiple m x := by
  unfold roundUp nextMultiple
  rw [Nat.mod_eq_of_lt h]

theorem dvd_roundUp : m ∣ roundUp m x := Nat.dvd_mul_left _ _

/-- What is left of a difference that has become negative is rounded up to 0, or stays as far
below `2 ^ 32`. -/
theorem roundUp_wrap (hm : 0 < m) (hdvd : m ∣ 2 ^ 32) (hx : 0 < x) (hle : x ≤ 2 ^ 32) :
    roundUp m (2 ^ 32 - x) = 0 ∨ ∃ y, 0 < y ∧ y ≤ x ∧ roundUp m (2 ^ 32 - x) = 2 ^ 32 - y := by
  have hm32 : m ≤ 2 ^ 32 := Nat.le_of_dvd (by decide) hdvd
  obtain ⟨q, hq⟩ := hdvd
  have hmod := Nat.mod_lt x hm
  have hdiv := Nat.div_add_mod x m
  unfold roundUp
  rcases Nat.lt_or_ge x m with hlt | hge
  · left
    have hsum : 2 ^ 32 - x + m - 1 = (m - 1 - x) + 2 ^ 32 := by omega
    rw [hsum, Nat.add_mod_right, Nat.mod_eq_of_lt (by omega), Nat.div_eq_of_lt (by omega),
      Nat.zero_mul]
  · right
    have hpos : 0 < x / m := Nat.div_pos hge hm
    refine ⟨m * (x / m), Nat.mul_pos hm hpos, Nat.mul_div_le x m, ?_⟩
    have hquot : x / m ≤ q := Nat.div_le_of_le_mul (hle.trans hq.le)
    have hsum : 2 ^ 32 - x + m - 1 = (m - 1 - x % m) + m * (q - x / m) := by
      rw [Nat.mul_sub, ← hq]
      have hfar : m * (x / m) ≤ 2 ^ 32 := (Nat.mul_div_le x m).trans hle
      omega
    rw [Nat.mod_eq_of_lt (by omega), hsum, Nat.add_mul_div_left _ _ hm,
      Nat.div_eq_of_lt (by omega), Nat.zero_add, Nat.mul_comm, Nat.mul_sub, ← hq]

end Rounding

namespace Chip

variable {chip : Chip} {p : Mtdfile} {priv : Mtdpriv} {posn : ℤ} {flash : Flash}
  {n addr len block blocks page pages written rounds k : ℕ} {buf : ℕ → BitVec 8}

/-! ## Reading -/

/-- A read of pages that all lie in the window is confined to it. -/
theorem confined_of_readIn {xs : List ℕ} {access : Access} (h : chip.ReadIn xs access)
    (hxs : ∀ x ∈ xs, chip.PageInside p priv x) : Confined p priv access := by
  obtain ⟨hop, hlen, hin⟩ := h
  have hinside : ∀ x, access.addr ≤ x → x < access.addr + access.len →
      chip.PageInside p priv x := by
    intro x hx hlt
    obtain ⟨y, hy, hpage⟩ := hin x hx hlt
    have hbegin : chip.pageStart x = chip.pageStart y := congrArg (· * chip.writesize) hpage
    unfold PageInside
    rw [hbegin]
    exact hxs y hy
  have hfirst := hinside access.addr (Nat.le_refl _) (by omega)
  have hlast := hinside (access.addr + access.len - 1) (by omega) (by omega)
  have hbefore := chip.pageStart_le access.addr
  have hbehind := chip.lt_pageStart (access.addr + access.len - 1)
  unfold PageInside windowEnd at hfirst hlast
  refine ⟨?_, ?_, fun _ => ⟨hfirst.1.trans hbefore, ?_⟩⟩
  · omega
  · omega
  · omega

theorem mtdfileRead_stays (h : chip.ReadStays p priv posn n) :
    ∃ r, chip.mtdfileRead p priv posn n flash = some r ∧
      Touches (Confined p priv) flash r.flash := by
  unfold ReadStays at h
  unfold mtdfileRead
  dsimp only at h ⊢
  generalize hsize : clamp posn n priv.openSize = size at h ⊢
  have hnonneg : ¬(flashAddr p priv posn < 0 ∧ size ≠ 0) := by
    rintro ⟨hneg, hpos⟩
    rcases h with hzero | ⟨haddr, -⟩
    · exact hpos hzero
    · exact absurd hneg (Int.not_lt.mpr haddr)
  rw [if_neg hnonneg]
  refine ⟨_, rfl, ?_⟩
  dsimp only
  have hreads := @readsFrom_nandReadSkipBad chip flash (flashAddr p priv posn).toNat size
  rcases h with hzero | ⟨-, hshort | hinside⟩
  · refine hreads.touches.mono fun access hread => ?_
    rw [hzero, List.take_zero] at hread
    obtain ⟨-, hlen, hin⟩ := hread
    obtain ⟨y, hy, -⟩ := hin access.addr (Nat.le_refl _) (by omega)
    exact absurd hy List.not_mem_nil
  · rw [nandReadSkipBad_of_short hshort]
    exact .refl _ flash
  · exact hreads.touches.mono fun access hread => confined_of_readIn hread hinside

/-! ## Erasing -/

/-- Erasing of one block from `addr` on and in front of `stop`. -/
def EraseIn (chip : Chip) (addr stop : ℕ) (access : Access) : Prop :=
  access.op = .erase ∧ access.len = chip.erasesize ∧ chip.bbt (access.addr / chip.erasesize) = false ∧
    addr ≤ access.addr ∧ access.addr + access.len ≤ stop

theorem EraseIn.mono {access : Access} {addr' stop stop' : ℕ}
    (h : chip.EraseIn addr stop access) (haddr : addr' ≤ addr) (hstop : stop ≤ stop') :
    chip.EraseIn addr' stop' access :=
  ⟨h.1, h.2.1, h.2.2.1, haddr.trans h.2.2.2.1, h.2.2.2.2.trans hstop⟩

theorem touches_eraseBlocks (hstop : (block + blocks) * chip.erasesize ≤ chip.size) :
    Touches (chip.EraseIn (block * chip.erasesize) ((block + blocks) * chip.erasesize)) flash
      (chip.eraseBlocks blocks block flash).2 := by
  have hes := chip.erasesize_pos
  induction blocks generalizing block flash with
  | zero => exact .refl _ flash
  | succ blocks ih =>
      have hnext : block + 1 + blocks = block + (blocks + 1) := by omega
      have hle : (block + 1) * chip.erasesize ≤ (block + (blocks + 1)) * chip.erasesize :=
        Nat.mul_le_mul_right _ (by omega)
      have hwidth : (block + 1) * chip.erasesize = block * chip.erasesize + chip.erasesize :=
        Nat.succ_mul block chip.erasesize
      have haddr : block * chip.erasesize % chip.size = block * chip.erasesize :=
        Nat.mod_eq_of_lt (by omega)
      unfold eraseBlocks
      cases hbad : chip.bbt block with
      | true =>
          rw [if_pos rfl]
          exact .refl _ flash
      | false =>
          rw [if_neg Bool.false_ne_true]
          dsimp only
          rw [haddr]
          have hfirst : Touches (chip.EraseIn (block * chip.erasesize)
              ((block + (blocks + 1)) * chip.erasesize)) flash
              (flash.erase (block * chip.erasesize) chip.erasesize) := by
            refine .cons ⟨rfl, rfl, ?_, Nat.le_refl _, ?_⟩
            · rw [Nat.mul_div_cancel _ hes, hbad]
            · exact hwidth.ge.trans hle
          split
          · exact hfirst
          · refine hfirst.trans ((ih (hnext ▸ hstop)).mono fun access h => ?_)
            exact h.mono (by omega) (hnext ▸ Nat.le_refl _)

theorem eraseBlocks_ok (h : ∀ i, i < blocks →
      chip.bbt (block + i) = false ∧ chip.eraseFails (block + i) = false) :
    (chip.eraseBlocks blocks block flash).1 = 0 := by
  induction blocks generalizing block flash with
  | zero => rfl
  | succ blocks ih =>
      obtain ⟨hgood, hworks⟩ := h 0 (Nat.succ_pos blocks)
      unfold eraseBlocks
      rw [Nat.add_zero] at hgood hworks
      rw [hgood, if_neg Bool.false_ne_true]
      dsimp only
      rw [hworks, if_neg Bool.false_ne_true]
      refine ih fun i hi => ?_
      rw [Nat.add_assoc, Nat.add_comm 1 i]
      exact h (i + 1) (Nat.succ_lt_succ hi)

/-- An instruction for whole blocks of the device. -/
theorem nandErase_eq (haddr : chip.erasesize ∣ addr) (hlen : chip.erasesize ∣ len)
    (hstop : addr + len ≤ chip.size) :
    chip.nandErase addr len flash =
      chip.eraseBlocks (len / chip.erasesize) (addr / chip.erasesize) flash := by
  have hsize := chip.size_lt
  unfold nandErase
  rw [if_neg (not_not.mpr (Nat.mod_eq_zero_of_dvd haddr)),
    if_neg (not_not.mpr (Nat.mod_eq_zero_of_dvd hlen)),
    Nat.mod_eq_of_lt (by omega), if_neg (by omega)]

theorem touches_nandErase (haddr : chip.erasesize ∣ addr) (hlen : chip.erasesize ∣ len)
    (hstop : addr + len ≤ chip.size) :
    Touches (chip.EraseIn addr (addr + len)) flash (chip.nandErase addr len flash).2 := by
  have hstart := Nat.div_mul_cancel haddr
  have hend : (addr / chip.erasesize + len / chip.erasesize) * chip.erasesize = addr + len := by
    rw [Nat.add_mul, hstart, Nat.div_mul_cancel hlen]
  have htouches := @touches_eraseBlocks chip flash (addr / chip.erasesize)
    (len / chip.erasesize) (hend.trans_le hstop)
  rw [hend, hstart] at htouches
  rw [nandErase_eq haddr hlen hstop]
  exact htouches

theorem nandErase_ok (haddr : chip.erasesize ∣ addr) (hlen : chip.erasesize ∣ len)
    (hstop : addr + len ≤ chip.size) (h : chip.Erasable addr len) :
    (chip.nandErase addr len flash).1 = 0 := by
  rw [nandErase_eq haddr hlen hstop]
  refine eraseBlocks_ok fun i hi => h _ ?_ ?_
  · rw [Nat.add_mul, Nat.div_mul_cancel haddr]
    exact Nat.le_add_right _ _
  · rw [Nat.add_mul, Nat.div_mul_cancel haddr]
    apply Nat.add_lt_add_left
    exact (Nat.mul_lt_mul_of_pos_right hi erasesize_pos).trans_eq (Nat.div_mul_cancel hlen)

/-! ## Writing -/

/-- The loop ends at the first place where all blocks can be erased, which is at most `k` blocks
further, and has erased nothing behind them. -/
theorem eraseLoop_spec (haddr : chip.erasesize ∣ addr) (hlen : chip.erasesize ∣ len)
    (hstop : addr + k * chip.erasesize + len ≤ chip.size)
    (h : chip.Erasable (addr + k * chip.erasesize) len) (hrounds : k < rounds) (start : WriteStart)
    (hstart : start.addr ≤ addr) :
    ∃ start' j, chip.eraseLoop len rounds addr start = some start' ∧ j ≤ k ∧
      start'.addr = start.addr + j * chip.erasesize ∧
      Touches (chip.EraseIn addr (addr + k * chip.erasesize + len)) start.flash start'.flash := by
  have hsize := chip.size_lt
  induction k generalizing addr rounds start with
  | zero =>
      obtain ⟨rounds, rfl⟩ := Nat.exists_eq_succ_of_ne_zero hrounds.ne'
      rw [Nat.zero_mul, Nat.add_zero] at hstop h ⊢
      unfold eraseLoop
      dsimp only
      rw [if_pos (nandErase_ok haddr hlen hstop h)]
      refine ⟨_, 0, rfl, Nat.le_refl 0, (Nat.zero_mul _).symm ▸ rfl, ?_⟩
      exact touches_nandErase haddr hlen hstop
  | succ k ih =>
      obtain ⟨rounds, rfl⟩ := Nat.exists_eq_succ_of_ne_zero (Nat.zero_lt_of_lt hrounds).ne'
      have hnext : addr + chip.erasesize + k * chip.erasesize = addr + (k + 1) * chip.erasesize := by
        rw [Nat.succ_mul]
        omega
      have htouches := @touches_nandErase chip start.flash addr len haddr hlen (by omega)
      have hfirst : Touches (chip.EraseIn addr (addr + (k + 1) * chip.erasesize + len)) start.flash
          (chip.nandErase addr len start.flash).2 :=
        htouches.mono fun access herase => herase.mono (Nat.le_refl addr) (by omega)
      unfold eraseLoop
      dsimp only
      split
      · exact ⟨_, 0, rfl, Nat.zero_le _, (Nat.zero_mul _).symm ▸ rfl, hfirst⟩
      · rw [Nat.mod_eq_of_lt (by omega), Nat.mod_eq_of_lt (by omega)]
        obtain ⟨start', j, hrun, hj, haddr', hrest⟩ := @ih (addr + chip.erasesize) rounds
          ((Nat.dvd_add_right haddr).mpr (dvd_refl _)) (by omega) (hnext ▸ h) (by omega)
          ⟨start.addr + chip.erasesize, start.posn + chip.erasesize,
            (chip.nandErase addr len start.flash).2⟩ (Nat.add_le_add_right hstart _)
        refine ⟨start', j + 1, hrun, Nat.succ_le_succ hj, ?_, ?_⟩
        · rw [haddr', Nat.succ_mul]
          dsimp only
          omega
        · refine hfirst.trans (hrest.mono fun access herase => ?_)
          exact herase.mono (Nat.le_add_right _ _) (by omega)

/-- A page is programmed in front of `stop`. -/
def ProgramIn (addr stop : ℕ) (access : Access) : Prop :=
  access.op = .program ∧ addr ≤ access.addr ∧ access.addr + access.len ≤ stop

theorem touches_writePages :
    Touches (ProgramIn (page * chip.writesize) ((page + pages) * chip.writesize)) flash
      (chip.writePages buf pages page written flash).flash := by
  induction pages generalizing page written flash with
  | zero => exact .refl _ flash
  | succ pages ih =>
      have hnext : page + 1 + pages = page + (pages + 1) := by omega
      have hwidth : (page + 1) * chip.writesize = page * chip.writesize + chip.writesize :=
        Nat.succ_mul page chip.writesize
      have hle : (page + 1) * chip.writesize ≤ (page + (pages + 1)) * chip.writesize :=
        Nat.mul_le_mul_right _ (by omega)
      unfold writePages
      dsimp only
      have hfirst : Touches (ProgramIn (page * chip.writesize)
          ((page + (pages + 1)) * chip.writesize)) flash
          (flash.program (page * chip.writesize) chip.writesize fun i => buf (written + i)) :=
        .cons ⟨rfl, Nat.le_refl _, hwidth.ge.trans hle⟩
      split
      · exact hfirst
      · refine hfirst.trans (ih.mono fun access h => ?_)
        exact ⟨h.1, (Nat.le_add_right _ _).trans (hwidth.symm.trans_le h.2.1), hnext ▸ h.2.2⟩

/-- Only aligned pages are programmed, and none behind the length. -/
theorem touches_nandWrite :
    Touches (fun access => chip.writesize ∣ addr ∧ ProgramIn addr (addr + len) access) flash
      (chip.nandWrite addr len buf flash).flash := by
  unfold nandWrite
  split
  · exact .refl _ flash
  split
  · exact .refl _ flash
  unfold nandDoWriteOps
  split
  · exact .refl _ flash
  · next haligned =>
    rw [not_or, not_not, not_not] at haligned
    obtain ⟨haddr, hlen⟩ := haligned
    have hdvd := Nat.dvd_of_mod_eq_zero haddr
    have hend : (addr / chip.writesize + len / chip.writesize) * chip.writesize = addr + len := by
      rw [Nat.add_mul, Nat.div_mul_cancel hdvd, Nat.div_mul_cancel (Nat.dvd_of_mod_eq_zero hlen)]
    have htouches := @touches_writePages chip flash (addr / chip.writesize)
      (len / chip.writesize) 0 buf
    rw [hend, Nat.div_mul_cancel hdvd] at htouches
    exact htouches.mono fun access h => ⟨hdvd, h⟩

/-- Unless the block behind the start lies in front of the sum of start and length, which is one
of 32 bits, nothing is erased. -/
theorem writeStart_of_le {start : WriteStart}
    (h : (start.addr + roundUp chip.erasesize n) % 2 ^ 32 ≤ start.addr) :
    chip.writeStart n start = some start := by
  unfold writeStart
  dsimp only
  rw [show yafW = true from rfl, if_pos rfl, if_neg]
  rintro ⟨hle, hlt⟩
  exact Nat.lt_irrefl _ (hlt.trans_le (h.trans hle))

theorem mtdfileWrite_of_start {start : WriteStart} {size : ℕ}
    (hsize : roundUp chip.writesize (clamp posn n priv.openSize) = size)
    (hstart : chip.writeStart size ⟨uint32 (flashAddr p priv posn), posn, flash⟩ = some start) :
    chip.mtdfileWrite p priv posn buf n flash =
      let r := chip.nandWrite start.addr size buf start.flash
      some (n, start.posn + r.len, r.flash) := by
  unfold mtdfileWrite
  dsimp only
  rw [show yafUse = false from rfl, if_neg Bool.false_ne_true, hsize, hstart]
  rfl

theorem uint32_lt (z : ℤ) : uint32 z < 2 ^ 32 := by
  unfold uint32
  have hlt := Int.emod_lt_of_pos z (b := 2 ^ 32) (by decide)
  have hnonneg := Int.emod_nonneg z (b := 2 ^ 32) (by decide)
  omega

theorem roundUp_zero : roundUp chip.erasesize 0 = 0 := by
  have hpos := chip.erasesize_pos
  have hle := chip.erasesize_le_size
  have hsize := chip.size_lt
  unfold roundUp
  rw [Nat.mod_eq_of_lt (by omega), Nat.div_eq_of_lt (by omega), Nat.zero_mul]

/-- Nothing is to be written. -/
theorem mtdfileWrite_zero (h : roundUp chip.writesize (clamp posn n priv.openSize) = 0) :
    ∃ r, chip.mtdfileWrite p priv posn buf n flash = some r ∧ r.2.2 = flash := by
  have hlt := uint32_lt (flashAddr p priv posn)
  refine ⟨_, mtdfileWrite_of_start h (writeStart_of_le ?_), ?_⟩
  · rw [roundUp_zero, Nat.add_zero]
    exact Nat.mod_le _ _
  · unfold nandWrite
    dsimp only
    rw [if_pos rfl]
    split
    · rfl
    · rfl

/-- Behind the window the length becomes so large that every request is refused. -/
theorem mtdfileWrite_of_posn_behind (hposn : priv.openSize < posn)
    (haddr : flashAddr p priv posn < 2 ^ 32) :
    ∃ r, chip.mtdfileWrite p priv posn buf n flash = some r ∧ r.2.2 = flash := by
  have hstart : uint32 (flashAddr p priv posn) = (flashAddr p priv posn).toNat :=
    uint32_eq (by unfold flashAddr; omega) haddr
  obtain ⟨x, hx⟩ : ∃ x : ℕ, posn = priv.openSize + x := ⟨(posn - priv.openSize).toNat, by omega⟩
  have hxle : x ≤ (flashAddr p priv posn).toNat := by
    unfold flashAddr
    omega
  have hclamp : clamp posn n priv.openSize = 2 ^ 32 - x := by
    unfold clamp uint32
    rw [if_pos (by omega), hx]
    omega
  have hes : chip.erasesize ∣ 2 ^ 32 :=
    Nat.pow_dvd_pow 2 (chip.erase_le.trans (Nat.le_of_lt chip.chip_lt))
  have hws : chip.writesize ∣ 2 ^ 32 := writesize_dvd_erasesize.trans hes
  rcases roundUp_wrap writesize_pos hws (x := x) (by omega) (by omega) with hzero | ⟨y, hy, hyx, hsize⟩
  · exact mtdfileWrite_zero (hclamp ▸ hzero)
  have hlen : (uint32 (flashAddr p priv posn) + roundUp chip.erasesize (2 ^ 32 - y)) % 2 ^ 32 ≤
      uint32 (flashAddr p priv posn) := by
    have hlt := uint32_lt (flashAddr p priv posn)
    rcases roundUp_wrap erasesize_pos hes hy (by omega) with hzero | ⟨z, hz, hzy, hlen⟩
    · omega
    · omega
  have hdevice := chip.size_lt
  refine ⟨_, mtdfileWrite_of_start (hclamp ▸ hsize) (writeStart_of_le hlen), ?_⟩
  unfold nandWrite
  dsimp only
  rw [if_pos (by omega)]

theorem mtdfileWrite_stays (h : chip.WriteStays p priv posn n) :
    ∃ r, chip.mtdfileWrite p priv posn buf n flash = some r ∧
      Touches (Confined p priv) flash r.2.2 := by
  by_cases hzero : roundUp chip.writesize (clamp posn n priv.openSize) = 0
  · obtain ⟨r, hr, hflash⟩ := @mtdfileWrite_zero chip p priv posn flash n buf hzero
    exact ⟨r, hr, hflash.symm ▸ .refl _ flash⟩
  rcases h with hnone | ⟨hposn, haddr⟩ | ⟨hposn, hle, k, herasable, hstop, hwindow⟩
  · exact absurd hnone hzero
  · obtain ⟨r, hr, hflash⟩ := @mtdfileWrite_of_posn_behind chip p priv posn flash n buf hposn haddr
    exact ⟨r, hr, hflash.symm ▸ .refl _ flash⟩
  generalize hsize : roundUp chip.writesize (clamp posn n priv.openSize) = size at *
  have hnonneg : 0 ≤ flashAddr p priv posn := by
    unfold flashAddr
    omega
  have hoffset : p.partOffset + priv.openOffset ≤ (flashAddr p priv posn).toNat := by
    unfold flashAddr
    omega
  generalize haddr : (flashAddr p priv posn).toNat = addr at *
  have hes := chip.erasesize_pos
  have hdevice := chip.two_mul_size_le
  have hblock := chip.erasesize_le_size
  have hstart := le_nextMultiple (x := addr) hes
  have hnear := nextMultiple_lt (x := addr) hes
  have hlen := le_nextMultiple (x := size) hes
  have hwide : chip.erasesize ≤ nextMultiple chip.erasesize size :=
    Nat.le_of_dvd (by omega) dvd_nextMultiple
  have hin : nextMultiple chip.erasesize addr + k * chip.erasesize +
      nextMultiple chip.erasesize size ≤ chip.size := hstop.trans (Nat.min_le_right _ _)
  have hrounds : k < 2 ^ 32 / chip.erasesize := by
    rw [← Nat.succ_le_iff, Nat.le_div_iff_mul_le hes, Nat.succ_mul]
    omega
  have huint : uint32 (flashAddr p priv posn) = addr := by
    rw [uint32_eq hnonneg (by omega), haddr]
  obtain ⟨start, j, hrun, hj, hstart', htouches⟩ := eraseLoop_spec dvd_nextMultiple dvd_nextMultiple
    hin herasable hrounds ⟨addr, posn, flash⟩ hstart
  have hwriteStart : chip.writeStart size ⟨uint32 (flashAddr p priv posn), posn, flash⟩ =
      some start := by
    unfold writeStart
    dsimp only
    rw [show yafW = true from rfl, if_pos rfl, huint, roundUp_eq (x := addr) (by omega),
      roundUp_eq (x := size) (by omega), Nat.mod_eq_of_lt (by omega), if_pos ⟨hstart, by omega⟩]
    exact hrun
  refine ⟨_, mtdfileWrite_of_start hsize hwriteStart, ?_⟩
  dsimp only at hstart' htouches ⊢
  have hmoved : j * chip.erasesize ≤ k * chip.erasesize := Nat.mul_le_mul_right _ hj
  refine (htouches.mono fun access h => ?_).trans (touches_nandWrite.mono fun access h => ?_)
  · obtain ⟨hop, -, -, hfirst, hlast⟩ := h
    refine ⟨by omega, by omega, fun hne => absurd hop hne⟩
  · obtain ⟨hdvd, hop, hfirst, hlast⟩ := h
    rw [hstart'] at hdvd hfirst hlast
    have haligned : chip.writesize ∣ addr :=
      (Nat.dvd_add_left (writesize_dvd_erasesize.mul_left j)).mp hdvd
    have hend := hwindow haligned
    unfold windowEnd at hend
    exact ⟨by omega, by omega, fun _ => ⟨by omega, by omega⟩⟩

/-! ## Erasing the partition -/

theorem erasesize_dvd_word : chip.erasesize ∣ 2 ^ 32 :=
  Nat.pow_dvd_pow 2 (chip.erase_le.trans (Nat.le_of_lt chip.chip_lt))

/-- One block is erased if it is not bad and the driver takes its address. -/
theorem touches_nandErase_block (haddr : chip.erasesize ∣ addr) :
    Touches (fun access => access = ⟨.erase, addr % chip.size, chip.erasesize⟩ ∧
        ¬chip.size < (chip.erasesize + addr) % 2 ^ 32 ∧ chip.bbt (addr / chip.erasesize) = false)
      flash (chip.nandErase addr chip.erasesize flash).2 := by
  unfold nandErase
  rw [if_neg (not_not.mpr (Nat.mod_eq_zero_of_dvd haddr)), if_neg (not_not.mpr (Nat.mod_self _))]
  by_cases hroom : chip.size < (chip.erasesize + addr) % 2 ^ 32
  · rw [if_pos hroom]
    exact .refl _ flash
  rw [if_neg hroom, Nat.div_self erasesize_pos]
  unfold eraseBlocks
  by_cases hbad : chip.bbt (addr / chip.erasesize) = true
  · rw [if_pos hbad]
    exact .refl _ flash
  rw [if_neg hbad, Nat.div_mul_cancel haddr]
  have hone : Touches (fun access => access = ⟨.erase, addr % chip.size, chip.erasesize⟩ ∧
      ¬chip.size < (chip.erasesize + addr) % 2 ^ 32 ∧ chip.bbt (addr / chip.erasesize) = false)
      flash (flash.erase (addr % chip.size) chip.erasesize) :=
    .cons ⟨rfl, hroom, Bool.eq_false_iff.mpr hbad⟩
  dsimp only
  split
  · exact hone
  · exact hone

theorem nandErase_confined (priv : Mtdpriv) (haddr : chip.erasesize ∣ addr)
    (h : chip.BlockStays p addr) :
    Touches (Confined p priv) flash (chip.nandErase addr chip.erasesize flash).2 := by
  refine (touches_nandErase_block haddr).mono ?_
  rintro access ⟨rfl, hroom, hgood⟩
  rcases h with hrefused | hbad | ⟨hlo, hhi⟩
  · exact absurd hrefused hroom
  · rw [hgood] at hbad
    cases hbad
  · exact ⟨hlo, hhi, fun hne => absurd rfl hne⟩

theorem eraseEach_confined (priv : Mtdpriv) {count : ℕ} (haddr : chip.erasesize ∣ addr)
    (hlt : addr < 2 ^ 32)
    (h : ∀ i < count, chip.BlockStays p ((addr + i * chip.erasesize) % 2 ^ 32)) :
    Touches (Confined p priv) flash (chip.eraseEach count addr flash) := by
  induction count generalizing addr flash with
  | zero => exact .refl _ flash
  | succ count ih =>
      have hfirst := h 0 (Nat.succ_pos count)
      rw [Nat.zero_mul, Nat.add_zero, Nat.mod_eq_of_lt hlt] at hfirst
      have hnext : chip.erasesize ∣ (addr + chip.erasesize) % 2 ^ 32 :=
        (Nat.dvd_mod_iff erasesize_dvd_word).mpr (Nat.dvd_add haddr (Nat.dvd_refl _))
      unfold eraseEach
      refine (nandErase_confined priv haddr hfirst).trans
        (ih hnext (Nat.mod_lt _ (Nat.two_pow_pos 32)) fun i hi => ?_)
      have hplace : addr + chip.erasesize + i * chip.erasesize =
          addr + (i + 1) * chip.erasesize := by
        rw [Nat.succ_mul, Nat.add_comm (i * chip.erasesize), Nat.add_assoc]
      rw [Nat.mod_add_mod, hplace]
      exact h (i + 1) (Nat.succ_lt_succ hi)

/-- `mtd_erase` on the partition at the place `i`. -/
theorem mtdErase_stays {fname : CString} {mtdfiles : List Mtdfile} {i : ℕ}
    {poffset : Option CString} (priv : Mtdpriv)
    (hfind : findPartition mtdfiles fname = some (i, poffset)) (hp : mtdfiles[i]? = some p)
    (h : chip.EraseStays p (openWindow poffset p.partSize).1) :
    ∃ flash', chip.mtdErase fname mtdfiles flash = some (mtdfiles, flash') ∧
      Touches (Confined p priv) flash flash' := by
  obtain ⟨hi, rfl⟩ := List.getElem?_eq_some_iff.mp hp
  have hclose : mtdfiles[i].refs + 1 - 1 = mtdfiles[i].refs := by omega
  unfold mtdErase mtdfileOpen
  rw [hfind]
  dsimp only
  rw [hp]
  simp only [Option.bind_some, mtdfileClose, List.getElem?_set_self hi, Option.map_some,
    List.set_set, hclose]
  refine ⟨_, congrArg (fun files => some (files, _)) (List.set_getElem_self hi),
    eraseEach_confined priv dvd_roundUp ?_ ?_⟩
  · exact (Nat.div_mul_le_self _ _).trans_lt (Nat.mod_lt _ (Nat.two_pow_pos 32))
  · intro i hi
    unfold flashAddr
    rw [Int.zero_add]
    exact h i hi

end Chip

/-! ## Runs -/

namespace OpenFile

variable {chip : Chip} {file : OpenFile} {p : Mtdfile} {r : Request}

/-- A partition that has just been opened, and a flash that nothing has been done to. -/
structure Opened (file : OpenFile) : Prop where
  opened : ∃ fname mtdfiles, mtdfileOpen fname mtdfiles = some (file.priv, file.mtdfiles)
  posn : file.posn = 0
  accesses : file.flash.accesses = []

theorem Opened.exists_part (h : file.Opened) : ∃ p, file.part = some p := by
  obtain ⟨fname, mtdfiles, hopen⟩ := h.opened
  unfold mtdfileOpen at hopen
  split at hopen
  · cases hopen
  · next i poffset _ =>
    split at hopen
    · cases hopen
    · next p hp =>
      obtain ⟨hi, -⟩ := List.getElem?_eq_some_iff.mp hp
      obtain ⟨hpriv, hfiles⟩ := Prod.ext_iff.mp (Option.some.inj hopen)
      dsimp only at hpriv hfiles
      unfold part
      rw [← hpriv, ← hfiles]
      exact ⟨_, List.getElem?_set_self hi⟩

/-- A request that stays inside returns, and neither the partition nor the window changes. -/
theorem step_stays (hp : file.part = some p) (h : Stays chip file r) :
    ∃ file', file.step chip r = some file' ∧ file'.part = some p ∧ file'.priv = file.priv ∧
      Touches (Confined p file.priv) file.flash file'.flash := by
  cases r with
  | lseek offset whence => exact ⟨_, rfl, hp, rfl, .refl _ _⟩
  | read n =>
      obtain ⟨r, hr, htouches⟩ := @Chip.mtdfileRead_stays chip p file.priv file.posn file.flash n
        (h p hp)
      unfold step
      dsimp only
      rw [hp, Option.bind_some, hr]
      exact ⟨_, rfl, hp, rfl, htouches⟩
  | write data n =>
      obtain ⟨r, hr, htouches⟩ := @Chip.mtdfileWrite_stays chip p file.priv file.posn file.flash n
        data (h p hp)
      unfold step
      dsimp only
      rw [hp, Option.bind_some, hr]
      exact ⟨_, rfl, hp, rfl, htouches⟩
  | erase fname =>
      obtain ⟨poffset, hfind, hstays⟩ := h p hp
      obtain ⟨flash', hrun, htouches⟩ := @Chip.mtdErase_stays chip p file.flash fname
        file.mtdfiles _ poffset file.priv hfind hp hstays
      unfold step
      dsimp only
      rw [hrun]
      exact ⟨_, rfl, hp, rfl, htouches⟩

end OpenFile

/-- In every run whose requests all stay inside, every access lies in the partition, and what is
read or programmed in the window.  Every further request of this kind returns. -/
theorem confined_of_reach {chip : Chip} {file : OpenFile}
    (h : Runs.Reach (OpenFile.step chip) (OpenFile.Stays chip) OpenFile.Opened file) :
    ∃ p, file.part = some p ∧ (∀ access ∈ file.flash.accesses, Confined p file.priv access) ∧
      ∀ r, OpenFile.Stays chip file r → (file.step chip r).isSome := by
  have hinv : ∃ p, file.part = some p ∧
      ∀ access ∈ file.flash.accesses, Confined p file.priv access := by
    refine h.invariant (P := fun file => ∃ p, file.part = some p ∧
      ∀ access ∈ file.flash.accesses, Confined p file.priv access) ?_ ?_
    · intro file hfile
      obtain ⟨p, hp⟩ := hfile.exists_part
      refine ⟨p, hp, ?_⟩
      rw [hfile.accesses]
      exact fun access hmem => absurd hmem List.not_mem_nil
    · rintro file r file' ⟨p, hp, hconfined⟩ hstays hstep
      obtain ⟨file'', hrun, hpart, hpriv, htouches⟩ := OpenFile.step_stays hp hstays
      obtain rfl := Option.some.inj (hstep.symm.trans hrun)
      refine ⟨p, hpart, fun access hmem => ?_⟩
      rw [hpriv]
      exact (htouches access hmem).elim (hconfined access) id
  obtain ⟨p, hp, hconfined⟩ := hinv
  refine ⟨p, hp, hconfined, fun r hr => ?_⟩
  obtain ⟨file', hrun, -⟩ := OpenFile.step_stays hp hr
  rw [hrun]
  rfl

/-- A chip of 32 bytes with a bad block. -/
def smallChip : Chip :=
  ⟨1, 2, 5, by decide, by decide, by decide, (· = 3), fun _ => .clean, fun _ => false,
    fun _ => false⟩

/-- The upper twelve bytes of a partition of sixteen. -/
def smallFile (posn : ℤ) (flash : Flash) : OpenFile :=
  ⟨[⟨1, 1, 16, 8, cstr "data"⟩], ⟨0, 4, 12⟩, posn, flash⟩

theorem smallFile_opened : (smallFile 0 ⟨fun _ => 0xff, []⟩).Opened :=
  ⟨⟨cstr "/dev/mtd1@4,12", [⟨0, 1, 16, 8, cstr "data"⟩], rfl⟩, rfl, rfl⟩

/-- A bad block is skipped, the next one is erased and written, and then all can be erased. -/
theorem confined_small :
    ∃ flash p, Runs.Reach (OpenFile.step smallChip) (OpenFile.Stays smallChip) OpenFile.Opened
        (smallFile 6 flash) ∧
      flash.accesses = [⟨.program, 16, 2⟩, ⟨.erase, 16, 4⟩, ⟨.read, 16, 4⟩] ∧
      (∀ access ∈ flash.accesses, Confined p ⟨0, 4, 12⟩ access) ∧
        ((smallFile 6 flash).step smallChip (.erase (cstr "mtd1"))).isSome := by
  have hopened : Runs.Reach (OpenFile.step smallChip) (OpenFile.Stays smallChip) OpenFile.Opened
      (smallFile 0 ⟨fun _ => 0xff, []⟩) := .start smallFile_opened
  have hread := hopened.step
    (show OpenFile.Stays smallChip _ (.read 4) from fun p hp => by
      obtain rfl := Option.some.inj hp
      exact Or.inr ⟨by decide, Or.inr (by decide)⟩)
    (show _ = some (smallFile 4 ⟨fun _ => 0xff, [⟨.read, 16, 4⟩]⟩) from rfl)
  have hwrite := hread.step
    (show OpenFile.Stays smallChip _ (.write (fun _ => 0) 2) from fun p hp => by
      obtain rfl := Option.some.inj hp
      refine Or.inr (Or.inr ⟨by decide, by decide, 0, ?_, by decide, fun _ => by decide⟩)
      intro block (hlo : 16 ≤ block * 4) (hhi : block * 4 < 20)
      obtain rfl : block = 4 := by omega
      exact ⟨by decide, rfl⟩)
    (show _ = some (smallFile 6 ⟨_, [⟨.program, 16, 2⟩, ⟨.erase, 16, 4⟩, ⟨.read, 16, 4⟩]⟩) from rfl)
  obtain ⟨p, -, hconfined, hreturns⟩ := confined_of_reach hwrite
  refine ⟨_, p, hwrite, rfl, hconfined, hreturns _ fun p hp => ?_⟩
  obtain rfl := Option.some.inj hp
  refine ⟨none, by decide, ?_⟩
  unfold Chip.EraseStays
  decide

/-- The first partition of the board. -/
def kernelFile : OpenFile :=
  ⟨[⟨1, 0, 14 * 1024 * 1024, 0, cstr "kernel"⟩], ⟨0, 0, 14 * 1024 * 1024⟩, 0,
    ⟨fun _ => 0xff, []⟩⟩

/-- With an offset, `mtd_erase` goes on behind the partition. -/
theorem not_confined_by_erase :
    ∃ file p, Runs.Reach (OpenFile.step (board fun _ => false)) (fun _ _ => True)
        OpenFile.Opened file ∧ file.part = some p ∧
      ∃ access ∈ file.flash.accesses, ¬Confined p file.priv access := by
  have hopened : kernelFile.Opened :=
    ⟨⟨cstr "/dev/mtd0", [⟨0, 0, 14 * 1024 * 1024, 0, cstr "kernel"⟩], rfl⟩, rfl, rfl⟩
  have hrun : ((kernelFile.step (board fun _ => false) (.erase (cstr "/dev/mtd0@0x20000"))).any
      fun file => decide (file.part = kernelFile.part) &&
        file.flash.accesses.any fun access => 14 * 1024 * 1024 < access.addr + access.len) =
      true := by
    decide +kernel
  obtain ⟨file, hstep, hend⟩ := Runs.exists_of_any hrun
  obtain ⟨hpart, hbehind⟩ := Bool.and_eq_true_iff.mp hend
  obtain ⟨access, hmem, hlt⟩ := List.any_eq_true.mp hbehind
  refine ⟨file, _, (Runs.Reach.start hopened).step trivial hstep, of_decide_eq_true hpart,
    access, hmem, ?_⟩
  intro hconfined
  have hle : access.addr + access.len ≤ 0 + 14 * 1024 * 1024 := hconfined.le_partition
  have hlt := of_decide_eq_true hlt
  omega

end Mtd

end LuojiOs
