import LuojiOs.Nand.Requests

/-!
# The driver as the plain flash

The partitions are read and written on a flash of plain bytes, without spare bytes, a cache and
bits that flip.  In every run of the driver each byte that is known is the one of this flash, after
the same requests, and the answers of the driver are those of the flash, but for the report that
bits have been corrected.
-/

namespace LuojiOs

namespace Nand

open Mtd (EUCLEAN)

variable {g : Geometry} {med : Medium} {flash : Mtd.Flash} {buf : Bytes} {bad : ℕ → Bool}
  {n p pos block : ℕ}

/-- The chip with this table of bad blocks, in which nothing goes wrong. -/
def Geometry.plain (g : Geometry) (bad : ℕ → Bool) : Mtd.Chip where
  pageShift := g.pageShift
  physEraseShift := g.eraseShift
  chipShift := g.chipShift
  page_le := g.page_le
  erase_le := g.erase_le
  chip_lt := g.chip_lt
  bbt := bad
  ecc _ := .clean
  eraseFails _ := false
  programFails _ := false

/-- The bytes that are known are those of the flash. -/
def Shows (g : Geometry) (med : Medium) (flash : Mtd.Flash) : Prop :=
  ∀ x v, med.byte g x = some v → flash.bytes x = v

/-! ## Writing -/

/-- The bytes of a page. -/
theorem div_eq_iff (x : ℕ) : x / g.writesize = p ↔
    p * g.writesize ≤ x ∧ x < p * g.writesize + g.writesize := by
  constructor
  · rintro rfl
    exact ⟨Nat.div_mul_le_self _ _, Nat.lt_div_mul_add g.writesize_pos⟩
  · rintro ⟨hle, hlt⟩
    refine Nat.div_eq_of_lt_le hle ?_
    rwa [Nat.succ_mul]

theorem shows_program (h : Shows g med flash) (data : Bytes) :
    Shows g (med.set p ((med p).program data))
      (flash.program (p * g.writesize) g.writesize data) := by
  intro x v hv
  unfold Medium.byte Medium.set at hv
  unfold Mtd.Flash.program
  dsimp only
  by_cases hx : x / g.writesize = p
  · rw [if_pos hx] at hv
    rw [if_pos ((div_eq_iff x).mp hx)]
    cases hmed : med p with
    | blank =>
        rw [hmed] at hv
        obtain rfl : data (x % g.writesize) = v := Option.some.inj hv
        have hblank : flash.bytes x = 0xff#8 := h x _ (by rw [Medium.byte, hx, hmed]; rfl)
        have hmod : x - p * g.writesize = x % g.writesize := by
          have hsplit := Nat.div_add_mod' x g.writesize
          rw [hx] at hsplit
          omega
        rw [hblank, hmod]
        exact BitVec.allOnes_and
    | holds data' =>
        rw [hmed] at hv
        cases hv
    | lost =>
        rw [hmed] at hv
        cases hv
  · rw [if_neg hx] at hv
    rw [if_neg fun hin => hx ((div_eq_iff x).mpr hin)]
    exact h x v hv

theorem shows_writePages (h : Shows g med flash) :
    ((g.plain bad).writePages buf n p pos flash).ret = 0 ∧
      Shows g (med.write g buf n p pos) ((g.plain bad).writePages buf n p pos flash).flash := by
  induction n generalizing p pos med flash with
  | zero => exact ⟨rfl, h⟩
  | succ n ih => exact ih (shows_program h fun i => buf (pos + i))

theorem shows_write (h : Shows g med flash) (to_ len : ℕ) (buf : Bytes) :
    Shows g (med.afterWrite g to_ len buf) ((g.plain bad).nandWrite to_ len buf flash).flash := by
  unfold Medium.afterWrite Mtd.Chip.nandWrite Mtd.Chip.nandDoWriteOps
  by_cases hsize : g.size < to_ + len
  · rw [if_neg fun hok => absurd hok.1 (Nat.not_le.mpr hsize), if_pos]
    · exact h
    · exact hsize
  · rw [if_neg (show ¬(g.plain bad).size < to_ + len from hsize)]
    by_cases hlen : len = 0
    · rw [if_pos hlen, hlen, Nat.zero_div]
      split <;> exact h
    · rw [if_neg hlen]
      by_cases haligned : to_ % g.writesize = 0 ∧ len % g.writesize = 0
      · rw [if_pos ⟨Nat.not_lt.mp hsize, haligned⟩, if_neg]
        · exact (shows_writePages h).2
        · rw [not_or, not_not, not_not]
          exact haligned
      · rw [if_neg fun hok => haligned hok.2, if_pos]
        · exact h
        · rw [← not_and_or]
          exact haligned

/-! ## Erasing -/

/-- The pages of a block. -/
theorem div_div_eq_iff (x : ℕ) : x / g.writesize / g.pagesPerBlock = block ↔
    block * g.erasesize ≤ x ∧ x < block * g.erasesize + g.erasesize := by
  rw [Nat.div_div_eq_div_mul, Nat.mul_comm g.writesize, ← erasesize_eq]
  constructor
  · rintro rfl
    exact ⟨Nat.div_mul_le_self _ _, Nat.lt_div_mul_add (erasesize_pos g)⟩
  · rintro ⟨hle, hlt⟩
    refine Nat.div_eq_of_lt_le hle ?_
    rwa [Nat.succ_mul]

theorem shows_eraseBlock (h : Shows g med flash) (block : ℕ) :
    Shows g (med.eraseBlock g block) (flash.erase (block * g.erasesize) g.erasesize) := by
  intro x v hv
  unfold Medium.byte Medium.eraseBlock at hv
  unfold Mtd.Flash.erase
  dsimp only
  by_cases hx : x / g.writesize / g.pagesPerBlock = block
  · rw [if_pos hx] at hv
    rw [if_pos ((div_div_eq_iff x).mp hx)]
    exact Option.some.inj hv
  · rw [if_neg hx] at hv
    rw [if_neg fun hin => hx ((div_div_eq_iff x).mpr hin)]
    exact h x v hv

theorem shows_eraseBlocks (h : Shows g med flash) (hsize : (block + n) * g.erasesize ≤ g.size) :
    let r := (g.plain bad).eraseBlocks n block flash
    (r.1 = 0 ↔ (med.erase g bad n block).1 = true) ∧ Shows g (med.erase g bad n block).2 r.2 := by
  induction n generalizing block med flash with
  | zero => exact ⟨iff_of_true rfl rfl, h⟩
  | succ n ih =>
      unfold Mtd.Chip.eraseBlocks Medium.erase
      by_cases hbad : bad block = true
      · rw [if_pos (show (g.plain bad).bbt block = true from hbad), if_pos hbad]
        exact ⟨iff_of_false (by decide : (-Mtd.EIO : ℤ) ≠ 0) Bool.false_ne_true, h⟩
      · rw [if_neg (show ¬(g.plain bad).bbt block = true from hbad), if_neg hbad]
        have hlt : block * g.erasesize < g.size := by
          have hpos := erasesize_pos g
          rw [← Nat.add_assoc, Nat.succ_mul, Nat.add_mul] at hsize
          omega
        have hmod : block * (g.plain bad).erasesize % (g.plain bad).size = block * g.erasesize :=
          Nat.mod_eq_of_lt hlt
        dsimp only
        rw [hmod, if_neg (show ¬(g.plain bad).eraseFails block = true from Bool.false_ne_true)]
        exact ih (shows_eraseBlock h block) (by rwa [Nat.add_right_comm])

theorem shows_erase (h : Shows g med flash) {addr len : ℕ} (hword : addr + len < 2 ^ 32) :
    let r := (g.plain bad).nandErase addr len flash
    (r.1 = 0 ↔ (med.afterErase g bad addr len).1 = true) ∧
      Shows g (med.afterErase g bad addr len).2 r.2 := by
  unfold Medium.afterErase Mtd.Chip.nandErase
  rw [Nat.add_comm len, Nat.mod_eq_of_lt hword]
  by_cases haddr : addr % g.erasesize = 0
  swap
  · rw [if_pos (show addr % (g.plain bad).erasesize ≠ 0 from haddr), if_neg fun hok => haddr hok.1]
    exact ⟨iff_of_false (by decide : (-Mtd.EINVAL : ℤ) ≠ 0) Bool.false_ne_true, h⟩
  rw [if_neg (not_not.mpr (show addr % (g.plain bad).erasesize = 0 from haddr))]
  by_cases hlen : len % g.erasesize = 0
  swap
  · rw [if_pos (show len % (g.plain bad).erasesize ≠ 0 from hlen), if_neg fun hok => hlen hok.2.1]
    exact ⟨iff_of_false (by decide : (-Mtd.EINVAL : ℤ) ≠ 0) Bool.false_ne_true, h⟩
  rw [if_neg (not_not.mpr (show len % (g.plain bad).erasesize = 0 from hlen))]
  by_cases hsize : addr + len ≤ g.size
  · rw [if_neg (show ¬(g.plain bad).size < addr + len from Nat.not_lt.mpr hsize),
      if_pos ⟨haddr, hlen, hsize⟩]
    have hbound : (addr / g.erasesize + len / g.erasesize) * g.erasesize ≤ g.size := by
      rw [Nat.add_mul, Nat.div_mul_cancel (Nat.dvd_of_mod_eq_zero haddr),
        Nat.div_mul_cancel (Nat.dvd_of_mod_eq_zero hlen)]
      exact hsize
    exact shows_eraseBlocks h hbound
  · rw [if_pos (show (g.plain bad).size < addr + len from Nat.not_le.mp hsize),
      if_neg fun hok => hsize hok.2.2]
    exact ⟨iff_of_false (by decide : (-Mtd.EINVAL : ℤ) ≠ 0) Bool.false_ne_true, h⟩

/-! ## Runs -/

/-- The flash after a request, with the table of bad blocks before it. -/
def plainAfter (g : Geometry) (bad : ℕ → Bool) (flash : Mtd.Flash) : Event → Mtd.Flash
  | .read start len _ _ => ((g.plain bad).nandRead start len flash).flash
  | .write to_ len _ buf => ((g.plain bad).nandWrite to_ len buf flash).flash
  | .erase addr len => ((g.plain bad).nandErase addr len flash).2
  | .markbad _ => flash
  | .decay _ => flash
  | .boot => flash

/-- The driver with what it is for, and the flash. -/
def plainStep (g : Geometry) (s : (Dev × Flash) × Mtd.Flash) (e : Event) :
    Option ((Dev × Flash) × Mtd.Flash) :=
  (step g s.1 e).map fun t => (t, plainAfter g s.1.2.bad s.2 e)

theorem nandRead_bytes (chip : Mtd.Chip) (start len : ℕ) (flash : Mtd.Flash) :
    (chip.nandRead start len flash).flash.bytes = flash.bytes := by
  unfold Mtd.Chip.nandRead
  split
  · rfl
  · split <;> rfl

theorem shows_after {s : Dev × Flash} (h : Shows g s.2.pages flash) (e : Event)
    (he : Bounded g s e) : Shows g (s.2.after g e).pages (plainAfter g s.2.bad flash e) := by
  cases e with
  | read start len retlen buf =>
      intro x v hv
      exact (congrFun (nandRead_bytes _ start len flash) x).trans (h x v hv)
  | write to_ len retlen buf => exact shows_write h to_ len buf
  | erase addr len => exact (shows_erase h he).2
  | markbad ofs => exact h
  | decay cells => exact h
  | boot => exact h

variable {d : Dev} {s : (Dev × Flash) × Mtd.Flash}

/-- In a run that begins with a boot the flash shows what is known of the pages. -/
theorem shows_of_reach
    (h : Runs.Reach (plainStep g) (fun s e => Bounded g s.1 e) (fun t => t.1 = booted g d) s) :
    Refines g s.1.1 s.1.2 ∧ Shows g s.1.2.pages s.2 := by
  refine h.invariant (P := fun t => Refines g t.1.1 t.1.2 ∧ Shows g t.1.2.pages t.2)
    (fun t ht => ?_) fun s e s' hs he hstep => ?_
  · rw [ht]
    exact ⟨refines_booted g d, fun x v hv => nomatch hv⟩
  · obtain rfl := Option.some.inj hstep
    exact ⟨hs.1.after e he, shows_after hs.2 e he⟩

theorem eccOf_plain (start len : ℕ) : (g.plain bad).eccOf start len = 0 := by
  have hclean : ∀ e : Mtd.Ecc, e ≠ .clean →
      e ∉ (List.range' start len).map fun x => (g.plain bad).ecc (x / (g.plain bad).writesize) := by
    intro e hne hmem
    obtain ⟨x, -, hx⟩ := List.mem_map.mp hmem
    exact hne hx.symm
  exact (if_neg (hclean .failed nofun)).trans (if_neg (hclean .corrected nofun))

/-- What the driver reads of known bytes is what the flash gives. -/
theorem nandRead_plain
    (h : Runs.Reach (plainStep g) (fun s e => Bounded g s.1 e) (fun t => t.1 = booted g d) s)
    {start len : ℕ} (retlen : ℕ) (buf : Bytes) (hsize : start + len ≤ g.size) (hlen : 0 < len)
    (hknown : ∀ i < len, s.1.2.pages.byte g (start + i) ≠ none) :
    let r := (nandRead g start len retlen buf s.1.1).1
    let r' := (g.plain s.1.2.bad).nandRead start len s.2
    (r.ret = r'.ret ∨ r.ret = -EUCLEAN) ∧ r.retlen = r'.len ∧
      r'.data = (List.range len).map r.buf := by
  obtain ⟨hrefines, hshows⟩ := shows_of_reach h
  obtain ⟨hret, hretlen, hinside, -⟩ := (nandRead_spec start len retlen buf hrefines.rel).2.2 hsize
    hlen hknown
  have hplain : (g.plain s.1.2.bad).nandRead start len s.2 =
      ⟨0, len, (List.range' start len).map s.2.bytes,
        (g.plain s.1.2.bad).readPages start len s.2⟩ := by
    unfold Mtd.Chip.nandRead
    rw [if_neg (show ¬(g.plain s.1.2.bad).size < start + len from Nat.not_lt.mpr hsize),
      if_neg (Nat.ne_of_gt hlen), eccOf_plain]
  dsimp only
  rw [hplain]
  refine ⟨hret, hretlen, ?_⟩
  dsimp only
  rw [List.range'_eq_map_range, List.map_map]
  refine List.map_congr_left fun i hi => ?_
  exact hshows _ _ (hinside i (List.mem_range.mp hi))

/-- An erasure succeeds where it does on the flash. -/
theorem nandErase_plain
    (h : Runs.Reach (plainStep g) (fun s e => Bounded g s.1 e) (fun t => t.1 = booted g d) s)
    {addr len : ℕ} (hword : addr + len < 2 ^ 32) :
    (nandErase g addr len s.1.1).1 = 0 ↔ ((g.plain s.1.2.bad).nandErase addr len s.2).1 = 0 := by
  obtain ⟨hrefines, hshows⟩ := shows_of_reach h
  have hbad : badBlock g s.1.1.chip.bbt = s.1.2.bad :=
    funext fun b => (badBlock_eq g _ b).trans (hrefines.bad b)
  have herase := (nandErase_spec hrefines.rel hword).2
  rw [hbad] at herase
  exact herase.trans (shows_erase hshows hword).1.symm

/-- A block is bad where it is on the flash. -/
theorem nandBlockIsbad_plain
    (h : Runs.Reach (plainStep g) (fun s e => Bounded g s.1 e) (fun t => t.1 = booted g d) s)
    {ofs : ℕ} (hofs : ofs < g.size) :
    nandBlockIsbad g ofs s.1.1 ≠ 0 ↔ (g.plain s.1.2.bad).nandBlockIsbad ofs = true := by
  have hbad := (shows_of_reach h).1.bad (ofs / g.erasesize)
  unfold nandBlockIsbad Mtd.Chip.nandBlockIsbad
  rw [if_neg (Nat.not_lt.mpr hofs.le), nandIsbadBbt_eq, hbad,
    if_neg (show ¬(g.plain s.1.2.bad).size < ofs from Nat.not_lt.mpr hofs.le)]
  change _ ↔ s.1.2.bad (ofs / g.erasesize) = true
  cases s.1.2.bad (ofs / g.erasesize) with
  | false => exact iff_of_false (fun hne => hne rfl) Bool.false_ne_true
  | true => exact iff_of_true (by decide) rfl

end Nand

end LuojiOs
