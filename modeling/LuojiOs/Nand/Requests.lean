import LuojiOs.Nand.BadBlocks
import LuojiOs.Support.Runs

/-!
# Runs of requests

The driver between the partitions and the array: reads, writes, erasing, marks of bad blocks,
bits of the array that flip, and boots, which forget the state of the driver and scan the array.
Over any run it refines a flash of pages and bad blocks.
-/

namespace LuojiOs

namespace Nand

open Mtd (EBADMSG EUCLEAN)

variable {g : Geometry} {med : Medium} {d d' : Dev} {buf : Bytes} {n x block : ℕ}

/-! ## The spare bytes without a code -/

/-- Is a spare byte not one of the code? -/
def Free (g : Geometry) (x : ℕ) : Prop := x < g.oobsize ∧ ∀ i < g.total, g.eccpos i ≠ x

/-- What writing leaves as it is: the spare bytes that are free, and the table. -/
structure FreeKept (g : Geometry) (d d' : Dev) : Prop where
  cells : ∀ p x, Free g x → d'.cells p (g.writesize + x) = d.cells p (g.writesize + x)
  oobwbuf : ∀ x, Free g x → d'.chip.oobwbuf x = d.chip.oobwbuf x
  bbt : d'.chip.bbt = d.chip.bbt
  ooblen : d'.chip.ops.ooblen = d.chip.ops.ooblen

theorem FreeKept.refl (g : Geometry) (d : Dev) : FreeKept g d d :=
  ⟨fun _ _ _ => rfl, fun _ _ => rfl, rfl, rfl⟩

theorem FreeKept.trans {d'' : Dev} (h : FreeKept g d d') (h' : FreeKept g d' d'') :
    FreeKept g d d'' where
  cells p x hx := (h'.cells p x hx).trans (h.cells p x hx)
  oobwbuf x hx := (h'.oobwbuf x hx).trans (h.oobwbuf x hx)
  bbt := h'.bbt.trans h.bbt
  ooblen := h'.ooblen.trans h.ooblen

/-- `oob_poi` is 0xff but for the code. -/
def Blank (g : Geometry) (d : Dev) : Prop := ∀ x, Free g x → d.chip.oobwbuf x = 0xff#8

theorem freeKept_writePage (h : Blank g d) (data : Bytes) (page : ℕ) :
    FreeKept g d (nandWritePage g data page d) := by
  refine ⟨fun p x hx => ?_, fun x hx => withCode_of_free hx.2 _ _, rfl, rfl⟩
  rw [nandWritePage_cells]
  split
  · rw [image, if_neg (by omega), Nat.add_sub_cancel_left, withCode_of_free hx.2, h x hx]
    exact BitVec.and_allOnes
  · rfl

theorem freeKept_writeLoop (h : Blank g d) (n page pos : ℕ) (buf : Bytes) :
    FreeKept g d (writeLoop g n page pos buf d) := by
  induction n generalizing page pos d with
  | zero => exact .refl g d
  | succ n ih =>
      have hpage := freeKept_writePage h (fun x => buf (pos + x)) (page &&& g.pagemask)
      exact hpage.trans (ih (fun x hx => (hpage.oobwbuf x hx).trans (h x hx)) _ _)

theorem freeKept_nandWrite (h : Blank g d) (to_ len retlen : ℕ) (buf : Bytes) :
    FreeKept g d (nandWrite g to_ len retlen buf d).2 := by
  by_cases hok : to_ + len ≤ g.size ∧ len ≠ 0 ∧ to_ % g.writesize = 0 ∧ len % g.writesize = 0
  · rw [nandWrite_of_aligned retlen buf d hok.1 hok.2.1 hok.2.2.1 hok.2.2.2]
    have hinv : FreeKept g d (invalidate g to_ len (nandCheckWp g d).2) := by
      unfold invalidate
      split
      · exact ⟨fun _ _ _ => rfl, fun _ _ => rfl, rfl, rfl⟩
      · split <;> exact ⟨fun _ _ _ => rfl, fun _ _ => rfl, rfl, rfl⟩
    exact hinv.trans (freeKept_writeLoop (fun x hx => (hinv.oobwbuf x hx).trans (h x hx)) _ _ _ _)
  · rw [nandWrite_of_not retlen buf d hok]
    exact .refl g d

/-! ## Marks -/

theorem free_pattern (g : Geometry) {k : ℕ} (hk : k < g.patternLen) : Free g (g.patternOffs + k) :=
  ⟨by have := g.pattern_le; omega, g.pattern_free k hk⟩

theorem hasPattern_congr {c c' : Bytes}
    (h : ∀ x, Free g x → c' (g.writesize + x) = c (g.writesize + x)) :
    hasPattern g c' = hasPattern g c := by
  unfold hasPattern
  rw [Bool.eq_iff_iff, List.all_eq_true, List.all_eq_true]
  refine forall₂_congr fun k hk => ?_
  rw [h _ (free_pattern g (List.mem_range.mp hk))]

theorem markedPages_congr {cells cells' : ℕ → Bytes} {page : ℕ}
    (h : ∀ j < n, ∀ x, Free g x →
      cells' (page + j) (g.writesize + x) = cells (page + j) (g.writesize + x)) :
    markedPages g cells' page n = markedPages g cells page n := by
  unfold markedPages
  rw [Bool.eq_iff_iff, List.any_eq_true, List.any_eq_true]
  refine exists_congr fun j => and_congr_right fun hj => ?_
  rw [hasPattern_congr (h j (List.mem_range.mp hj))]

theorem hasMark_congr {cells cells' : ℕ → Bytes}
    (h : ∀ p x, Free g x → cells' p (g.writesize + x) = cells p (g.writesize + x)) (block : ℕ) :
    hasMark g cells' block = hasMark g cells block :=
  markedPages_congr fun _ _ => h _

/-- The block of one of its pages. -/
theorem block_of_page {j : ℕ} (block : ℕ) (hj : j < g.scanPages) :
    (block * g.pagesPerBlock + j) / g.pagesPerBlock = block := by
  have hlt : j < g.pagesPerBlock := Nat.lt_of_lt_of_le hj g.scan_le
  rw [Nat.add_comm, Nat.add_mul_div_right _ _ (pagesPerBlock_pos g), Nat.div_eq_of_lt hlt,
    Nat.zero_add]

/-- Erasing a block without a mark changes no mark. -/
theorem hasMark_eraseBlock {cells : ℕ → Bytes} (h : hasMark g cells block = false) (b : ℕ) :
    hasMark g (eraseBlock g cells (block * g.pagesPerBlock)) b = hasMark g cells b := by
  have hdiv : block * g.pagesPerBlock / g.pagesPerBlock = block :=
    Nat.mul_div_cancel _ (pagesPerBlock_pos g)
  by_cases hb : b = block
  · rw [hb, h]
    unfold hasMark markedPages
    refine List.any_eq_false.mpr fun j hj => ?_
    have hpattern : hasPattern g
        (eraseBlock g cells (block * g.pagesPerBlock) (block * g.pagesPerBlock + j)) = true := by
      refine List.all_eq_true.mpr fun k _ => ?_
      rw [eraseBlock, hdiv, if_pos (block_of_page block (List.mem_range.mp hj))]
      rfl
    rw [hpattern]
    exact Bool.false_ne_true
  · refine markedPages_congr fun j hj x _ => ?_
    rw [eraseBlock, hdiv, if_neg]
    rw [block_of_page b hj]
    exact hb

/-- What erasing leaves as it is: the marks, and the table. -/
structure MarksKept (g : Geometry) (d d' : Dev) : Prop where
  marks : ∀ b, hasMark g d'.cells b = hasMark g d.cells b
  oobwbuf : d'.chip.oobwbuf = d.chip.oobwbuf
  bbt : d'.chip.bbt = d.chip.bbt
  ops : d'.chip.ops = d.chip.ops

theorem marksKept_eraseLoop (hsize : (block + n) * g.pagesPerBlock ≤ g.pages)
    (h : ∀ b < block + n, hasMark g d.cells b = true → entry d.chip.bbt b = true) :
    MarksKept g d (eraseLoop g n (block * g.pagesPerBlock) d).2 := by
  induction n generalizing block d with
  | zero => exact ⟨fun _ => rfl, rfl, rfl, rfl⟩
  | succ n ih =>
      have hpages : block * g.pagesPerBlock < g.pages := by
        have hpos := pagesPerBlock_pos g
        have hle : (block + 1) * g.pagesPerBlock ≤ (block + (n + 1)) * g.pagesPerBlock :=
          Nat.mul_le_mul_right _ (by omega)
        rw [Nat.add_one_mul] at hle
        omega
      have hblock : (block * g.pagesPerBlock) <<< g.pageShift = block * g.erasesize := by
        rw [shiftLeft_page, erasesize_eq, Nat.mul_assoc]
      rw [eraseLoop, hblock, ← Nat.add_one_mul, and_pagemask hpages]
      by_cases hbad : nandIsbadBbt g d.chip.bbt (block * g.erasesize) = true
      · rw [if_pos hbad]
        exact ⟨fun _ => rfl, rfl, rfl, rfl⟩
      · rw [if_neg hbad]
        have hmark : hasMark g d.cells block = false := by
          refine Bool.eq_false_of_not_eq_true fun hmark => hbad ?_
          exact (badBlock_eq g _ _).trans (h block (by omega) hmark)
        have herase := hasMark_eraseBlock hmark
        dsimp only
        obtain ⟨hmarks, hoob, hbbt, hops⟩ := @ih
          (cmdfunc g .erase2 (cmdfunc g (.erase1 (block * g.pagesPerBlock))
            { d with chip := { d.chip with pagebuf := d.chip.pagebuf.filter fun p =>
              !(block * g.pagesPerBlock ≤ p && p < (block + 1) * g.pagesPerBlock) } }))
          (block + 1)
          (by rwa [Nat.add_right_comm]) fun b hb hmark =>
            h b (by omega) ((herase b).symm.trans hmark)
        exact ⟨fun b => (hmarks b).trans (herase b), hoob, hbbt, hops⟩

theorem marksKept_nandErase {addr len : ℕ} (hword : addr + len < 2 ^ 32)
    (h : ∀ b < g.blocks, hasMark g d.cells b = true → entry d.chip.bbt b = true) :
    MarksKept g d (nandErase g addr len d).2 := by
  by_cases hok : addr % g.erasesize = 0 ∧ len % g.erasesize = 0 ∧ addr + len ≤ g.size
  · obtain ⟨herase, hbound⟩ := nandErase_of_aligned d hword hok.1 hok.2.1 hok.2.2
    have hblocks : addr / g.erasesize + len / g.erasesize ≤ g.blocks := by
      rw [pages_eq] at hbound
      exact Nat.le_of_mul_le_mul_right hbound (pagesPerBlock_pos g)
    rw [herase]
    obtain ⟨hmarks, hoob, hbbt, hops⟩ := marksKept_eraseLoop (d := (nandCheckWp g d).2) hbound
      fun b hb hmark => h b (by omega) hmark
    exact ⟨hmarks, hoob, hbbt, hops⟩
  · rw [nandErase_of_not d hword hok]
    exact ⟨fun _ => rfl, rfl, rfl, rfl⟩

/-! ## Boots -/

/-- What a boot leaves: the array, and a driver without a cache whose table is that of the marks. -/
structure Booted (g : Geometry) (d d' : Dev) : Prop where
  cells : d'.cells = d.cells
  pagebuf : d'.chip.pagebuf = none
  ooblen : d'.chip.ops.ooblen = d.chip.ops.ooblen
  blank : Blank g d'
  entry : ∀ b, entry d'.chip.bbt b = (decide (b < g.blocks) && hasMark g d.cells b)

theorem nandScanTail_spec (g : Geometry) (d : Dev) : Booted g d (nandScanTail g d) := by
  obtain ⟨hscan, hentry⟩ := nandScanBbt_spec g { d with chip := { d.chip with
    oobwbuf := Bytes.fill d.chip.oobwbuf 0 0xff#8 g.oobsize
    pagebuf := none } }
  refine ⟨hscan.cells, hscan.pagebuf, ?_, fun x hx => ?_, hentry⟩
  · exact congrArg OobOps.ooblen hscan.ops
  · exact (congrFun hscan.oobwbuf x).trans ((fill_oob _ _ _ _).trans (if_pos hx.1))

theorem ls1xNandInit_spec (g : Geometry) (d : Dev) :
    (ls1xNandInit g d).cells = d.cells ∧ (ls1xNandInit g d).chip.pagebuf = none ∧
      (ls1xNandInit g d).chip.ops.ooblen = 0 ∧ Blank g (ls1xNandInit g d) ∧
      ∀ b, entry (ls1xNandInit g d).chip.bbt b =
        (decide (b < g.blocks) && hasMark g d.cells b) := by
  obtain ⟨hcells, hpagebuf, hooblen, hblank, hentry⟩ := nandScanTail_spec g { d with
    info := ⟨d.info.dataBuff, 0, 0, 0, 0⟩
    chip :=
      ⟨fun _ => 0, fun _ => 0, fun _ => 0, some 0, fun _ => 0, ⟨0, 0, 0, fun _ => 0⟩, 0, 0, 0⟩ }
  exact ⟨hcells, hpagebuf, hooblen, hblank, hentry⟩

/-! ## The system -/

/-- What the driver is for: pages, and blocks of which some are bad.  The marks are those that the
array has itself. -/
structure Flash where
  pages : Medium
  bad : ℕ → Bool
  marks : ℕ → Bool

inductive Event
  | read (start len retlen : ℕ) (buf : Bytes)
  | write (to_ len retlen : ℕ) (buf : Bytes)
  | erase (addr len : ℕ)
  | markbad (ofs : ℕ)
  /-- bits of the array have flipped -/
  | decay (cells : ℕ → Bytes)
  | boot

def Dev.after (g : Geometry) (d : Dev) : Event → Dev
  | .read start len retlen buf => (nandRead g start len retlen buf d).2
  | .write to_ len retlen buf => (nandWrite g to_ len retlen buf d).2
  | .erase addr len => (nandErase g addr len d).2
  | .markbad ofs => (nandBlockMarkbad g ofs d).2
  | .decay cells => { d with cells }
  | .boot => ls1xNandInit g d

def Flash.after (g : Geometry) (f : Flash) : Event → Flash
  | .read .. => f
  | .write to_ len _ buf => { f with pages := f.pages.afterWrite g to_ len buf }
  | .erase addr len => { f with pages := (f.pages.afterErase g f.bad addr len).2 }
  | .markbad ofs =>
    { f with bad := fun b => decide (ofs < g.size ∧ b = ofs / g.erasesize) || f.bad b }
  | .decay _ => f
  | .boot => { f with bad := fun b => decide (b < g.blocks) && f.marks b }

/-- The end of an erasure does not overflow.  No block is marked at the end of the chip, where the
table of bad blocks has no entry any more.  Bits flip in pages that are known, but no step of one
has more than one bit that is not as it was written; and no bit flips in the free spare bytes. -/
def Bounded (g : Geometry) (s : Dev × Flash) : Event → Prop
  | .erase addr len => addr + len < 2 ^ 32
  | .markbad ofs => ofs ≠ g.size
  | .decay cells =>
    (∀ p data, (s.2.pages p).bytes? = some data → Stores g (cells p) data) ∧
      ∀ p x, Free g x → cells p (g.writesize + x) = s.1.cells p (g.writesize + x)
  | _ => True

def step (g : Geometry) (s : Dev × Flash) (e : Event) : Option (Dev × Flash) :=
  some (s.1.after g e, s.2.after g e)

/-- The driver has booted, and nothing is known of the pages. -/
def booted (g : Geometry) (d : Dev) : Dev × Flash :=
  (ls1xNandInit g d,
    ⟨fun _ => .lost, fun b => decide (b < g.blocks) && hasMark g d.cells b, hasMark g d.cells⟩)

structure Refines (g : Geometry) (d : Dev) (f : Flash) : Prop where
  rel : Rel g d f.pages
  bad : ∀ b, entry d.chip.bbt b = f.bad b
  marks : ∀ b, hasMark g d.cells b = f.marks b
  marked : ∀ b < g.blocks, f.marks b = true → f.bad b = true
  ooblen : d.chip.ops.ooblen = 0
  blank : Blank g d

variable {f : Flash}

theorem Refines.boot (h : Refines g d f) :
    Refines g (ls1xNandInit g d)
      { f with bad := fun b => decide (b < g.blocks) && f.marks b } := by
  obtain ⟨hcells, hpagebuf, hooblen, hblank, hentry⟩ := ls1xNandInit_spec g d
  refine ⟨⟨?_, fun p data hp => ?_⟩, fun b => ?_, fun b => ?_, fun b hb hmark => ?_, hooblen,
    hblank⟩
  · rw [hcells]
    exact h.rel.stores
  · rw [hpagebuf] at hp
    cases hp
  · rw [hentry, h.marks]
  · rw [hcells]
    exact h.marks b
  · dsimp only at hmark ⊢
    rw [decide_eq_true hb, hmark]
    rfl

theorem Refines.markbad (h : Refines g d f) {ofs : ℕ} (hofs : ofs ≠ g.size) :
    Refines g (nandBlockMarkbad g ofs d).2
      { f with bad := fun b => decide (ofs < g.size ∧ b = ofs / g.erasesize) || f.bad b } := by
  have hmark := nandBlockMarkbad_spec (g := g) ofs h.ooblen
  have hinside : ofs ≤ g.size ↔ ofs < g.size := by omega
  refine ⟨h.rel.congr hmark.cells hmark.databuf hmark.pagebuf, fun b => ?_, fun b => ?_,
    fun b hb hb' => ?_, hmark.ooblen.trans h.ooblen, fun x hx => ?_⟩
  · rw [hmark.bbt, entry_markedBbt, h.bad, decide_eq_decide.mpr (and_congr_left' hinside)]
  · rw [hmark.cells]
    exact h.marks b
  · dsimp only
    rw [h.marked b hb hb', Bool.or_true]
  · exact (hmark.oobwbuf x hx.1).elim id fun heq => heq.trans (h.blank x hx)

theorem Refines.decay (h : Refines g d f) {cells : ℕ → Bytes}
    (hstores : ∀ p data, (f.pages p).bytes? = some data → Stores g (cells p) data)
    (hfree : ∀ p x, Free g x → cells p (g.writesize + x) = d.cells p (g.writesize + x)) :
    Refines g { d with cells } f :=
  ⟨⟨hstores, h.rel.cache⟩, h.bad, fun b => (hasMark_congr hfree b).trans (h.marks b), h.marked,
    h.ooblen, h.blank⟩

theorem Refines.erase (h : Refines g d f) {addr len : ℕ} (hword : addr + len < 2 ^ 32) :
    Refines g (nandErase g addr len d).2
      { f with pages := (f.pages.afterErase g f.bad addr len).2 } := by
  have hbad : badBlock g d.chip.bbt = f.bad := funext fun b => (badBlock_eq g _ b).trans (h.bad b)
  have hkept := marksKept_nandErase (g := g) hword fun b hb hmark =>
    (h.bad b).trans (h.marked b hb ((h.marks b).symm.trans hmark))
  refine ⟨hbad ▸ (nandErase_spec h.rel hword).1, fun b => ?_,
    fun b => (hkept.marks b).trans (h.marks b), h.marked, ?_, fun x hx => ?_⟩
  · rw [hkept.bbt]
    exact h.bad b
  · rw [hkept.ops]
    exact h.ooblen
  · rw [hkept.oobwbuf]
    exact h.blank x hx

theorem Refines.write (h : Refines g d f) (to_ len retlen : ℕ) (buf : Bytes) :
    Refines g (nandWrite g to_ len retlen buf d).2
      { f with pages := f.pages.afterWrite g to_ len buf } := by
  have hkept := freeKept_nandWrite h.blank to_ len retlen buf
  refine ⟨nandWrite_spec h.rel buf, fun b => ?_,
    fun b => (hasMark_congr hkept.cells b).trans (h.marks b), h.marked,
    hkept.ooblen.trans h.ooblen, fun x hx => (hkept.oobwbuf x hx).trans (h.blank x hx)⟩
  rw [hkept.bbt]
  exact h.bad b

theorem Refines.read (h : Refines g d f) (start len retlen : ℕ) (buf : Bytes) :
    Refines g (nandRead g start len retlen buf d).2 f := by
  obtain ⟨hrel, hsame, -⟩ := nandRead_spec start len retlen buf h.rel
  refine ⟨hrel, fun b => ?_, fun b => ?_, h.marked, ?_, fun x hx => ?_⟩
  · rw [hsame.bbt]
    exact h.bad b
  · rw [hsame.cells]
    exact h.marks b
  · rw [hsame.ops]
    exact h.ooblen
  · rw [hsame.oobwbuf]
    exact h.blank x hx

/-- Every event is one of the flash. -/
theorem Refines.after (h : Refines g d f) (e : Event) (he : Bounded g (d, f) e) :
    Refines g (d.after g e) (f.after g e) := by
  cases e with
  | read start len retlen buf => exact h.read start len retlen buf
  | write to_ len retlen buf => exact h.write to_ len retlen buf
  | erase addr len => exact h.erase he
  | markbad ofs => exact h.markbad he
  | decay cells => exact h.decay he.1 he.2
  | boot => exact h.boot

theorem refines_booted (g : Geometry) (d : Dev) : Refines g (booted g d).1 (booted g d).2 := by
  obtain ⟨hcells, hpagebuf, hooblen, hblank, hentry⟩ := ls1xNandInit_spec g d
  refine ⟨⟨fun p data hp => (by cases hp), fun p data _ hp => (by cases hp)⟩, hentry, fun b => ?_,
    fun b hb hmark => ?_, hooblen, hblank⟩
  · unfold booted
    rw [hcells]
  · dsimp only [booted] at hmark ⊢
    rw [decide_eq_true hb, hmark]
    rfl

/-- In a run that begins with a boot the driver refines the flash, whose marks stay. -/
theorem refines_of_reach {s : Dev × Flash}
    (h : Runs.Reach (step g) (Bounded g) (fun t => t = booted g d) s) :
    Refines g s.1 s.2 ∧ s.2.marks = hasMark g d.cells := by
  refine h.invariant (P := fun t => Refines g t.1 t.2 ∧ t.2.marks = hasMark g d.cells)
    (fun t ht => ?_) fun s e s' hs he hstep => ?_
  · rw [ht]
    exact ⟨refines_booted g d, rfl⟩
  · obtain rfl := Option.some.inj hstep
    refine ⟨hs.1.after e he, Eq.trans ?_ hs.2⟩
    cases e <;> rfl

/-- Whatever has been requested, marked and booted, and whichever bits have flipped: what is known
of the pages is read, and it is no more than reported that bits have been corrected. -/
theorem read_after_run {s : Dev × Flash}
    (h : Runs.Reach (step g) (Bounded g) (fun t => t = booted g d) s) {start len : ℕ} (retlen : ℕ)
    (buf : Bytes) (hsize : start + len ≤ g.size) (hlen : 0 < len)
    (hknown : ∀ i < len, s.2.pages.byte g (start + i) ≠ none) :
    Read g s.2.pages start len buf (nandRead g start len retlen buf s.1).1 :=
  (nandRead_spec _ _ _ _ (refines_of_reach h).1.rel).2.2 hsize hlen hknown

/-- A chip that is erased, before its first boot. -/
def fresh : Dev where
  cells _ := erased
  idh := 0
  info := ⟨erased, 0, 0, 0, 0⟩
  chip := ⟨erased, erased, erased, none, erased, ⟨0, 0, 0, erased⟩, 0, 0, 0⟩

/-- An array that is erased stays so. -/
theorem eraseLoop_erased {page : ℕ} (h : d.cells = fun _ => erased) :
    (eraseLoop g n page d).2.cells = fun _ => erased := by
  induction n generalizing page d with
  | zero => exact h
  | succ n ih =>
      rw [eraseLoop]
      split
      · exact h
      · refine ih (funext fun p => funext fun x => ?_)
        change eraseBlock g d.cells _ p x = _
        rw [h]
        unfold eraseBlock
        split <;> rfl

theorem nandErase_erased {addr len : ℕ} (hword : addr + len < 2 ^ 32)
    (h : d.cells = fun _ => erased) : (nandErase g addr len d).2.cells = fun _ => erased := by
  by_cases hok : addr % g.erasesize = 0 ∧ len % g.erasesize = 0 ∧ addr + len ≤ g.size
  · rw [(nandErase_of_aligned d hword hok.1 hok.2.1 hok.2.2).1]
    exact eraseLoop_erased h
  · rw [nandErase_of_not d hword hok]
    exact h

/-- Where nothing has been written, the pages that are known are erased. -/
theorem Medium.erase_known (bad : ℕ → Bool)
    (h : ∀ p data, (med p).bytes? = some data → data = erased) (n block : ℕ) :
    ∀ p data, ((med.erase g bad n block).2 p).bytes? = some data → data = erased := by
  induction n generalizing block med with
  | zero => exact h
  | succ n ih =>
      rw [Medium.erase]
      split
      · exact h
      · refine ih (fun p data hp => ?_) (block + 1)
        unfold Medium.eraseBlock at hp
        split at hp
        · exact (Option.some.inj hp).symm
        · exact h p data hp

theorem Medium.afterErase_known (bad : ℕ → Bool) (addr len : ℕ)
    (h : ∀ p data, (med p).bytes? = some data → data = erased) :
    ∀ p data, ((med.afterErase g bad addr len).2 p).bytes? = some data → data = erased := by
  unfold Medium.afterErase
  split
  · exact Medium.erase_known bad h _ _
  · exact h

/-- A bit of a block of an erased page has flipped. -/
theorem stores_flipByte (g : Geometry) (s₀ : ℕ) (i : Fin 256) (b : Fin 8)
    (hs₀ : s₀ < g.steps) : Stores g (flipByte erased (256 * s₀ + i) b) erased := by
  intro s hs
  have hcode : ∀ t < 3, flipByte erased (256 * s₀ + i) b (g.writesize + g.eccpos (3 * s + t)) =
      (nandCalculateEcc erased (256 * s)).byte t := fun t _ => by
    have hlt := Geometry.step_lt hs₀ i.isLt
    rw [nandCalculateEcc_erased, erased_byte]
    exact Bytes.set_of_ne (by omega)
  by_cases heq : s = s₀
  · subst heq
    exact ⟨some (.data i b), fun _ _ => rfl, hcode⟩
  · refine ⟨none, fun j hj => ?_, hcode⟩
    exact Bytes.set_of_ne (by omega)

/-- A bit of the second page has flipped. -/
def flipped : ℕ → Bytes := fun p => if p = 1 then flipByte erased 3 1 else erased

/-- A block is erased, a bit of it flips, the page with the bit is written, and the driver boots
again; then another block is marked bad. -/
def used : Dev × Flash :=
  [Event.erase 0 (2 ^ 17), .decay flipped, .write 2048 2048 0 fun x => BitVec.ofNat 8 x, .boot,
    .markbad (2 ^ 17)].foldl
    (fun s e => (s.1.after nandOob64 e, s.2.after nandOob64 e)) (booted nandOob64 fresh)

/-- The bit may flip after an erasure of an array that is erased. -/
theorem bounded_flipped (hd : d.cells = fun _ => erased) {addr len : ℕ}
    (hword : addr + len < 2 ^ 32) :
    Bounded g ((booted g d).1.after g (.erase addr len), (booted g d).2.after g (.erase addr len))
      (.decay flipped) := by
  have hsteps : 0 < g.steps := Nat.two_pow_pos _
  have hcells : (nandErase g addr len (booted g d).1).2.cells = fun _ => erased :=
    nandErase_erased hword ((ls1xNandInit_spec g d).1.trans hd)
  constructor
  · intro p data hp
    have hlost : ∀ p data, ((fun _ => .lost : Medium) p).bytes? = some data → data = erased :=
      fun _ _ h => nomatch h
    obtain rfl := Medium.afterErase_known (booted g d).2.bad addr len hlost p data hp
    unfold flipped
    split
    · exact stores_flipByte g 0 3 1 hsteps
    · exact stores_erased g
  · intro p x _
    refine Eq.trans ?_ (congrFun (congrFun hcells p) _).symm
    unfold flipped
    split
    · refine Bytes.set_of_ne ?_
      have hpos := Geometry.step_lt hsteps (show 3 < 256 by decide)
      omega
    · rfl

theorem reach_used :
    Runs.Reach (step nandOob64) (Bounded nandOob64) (fun t => t = booted nandOob64 fresh) used := by
  have hboot : Runs.Reach (step nandOob64) (Bounded nandOob64)
    (fun t => t = booted nandOob64 fresh) (booted nandOob64 fresh) := .start rfl
  have herase := hboot.step (e := Event.erase 0 (2 ^ 17)) (by decide : 0 + 2 ^ 17 < 2 ^ 32) rfl
  have hdecay := herase.step (e := Event.decay flipped)
    (bounded_flipped rfl (by decide : 0 + 2 ^ 17 < 2 ^ 32)) rfl
  have hwrite := hdecay.step (e := Event.write 2048 2048 0 fun x => BitVec.ofNat 8 x) trivial rfl
  have hagain := hwrite.step (e := Event.boot) trivial rfl
  exact hagain.step (e := Event.markbad (2 ^ 17)) (by decide : 2 ^ 17 ≠ 2 ^ 27) rfl

theorem read_used :
    Read nandOob64 used.2.pages 2050 3 erased (nandRead nandOob64 2050 3 0 erased used.1).1 := by
  refine read_after_run reach_used 0 erased (by decide) (by decide) ?_
  decide

theorem Medium.erase_true (bad : ℕ → Bool) (n block : ℕ) (med : Medium) :
    (med.erase g bad n block).1 = true ↔ ∀ i < n, bad (block + i) = false := by
  induction n generalizing block med with
  | zero => exact ⟨fun _ i hi => absurd hi (by omega), fun _ => rfl⟩
  | succ n ih =>
      rw [erase]
      by_cases hbad : bad block = true
      · rw [if_pos hbad]
        refine ⟨fun h => absurd h Bool.false_ne_true, fun h => ?_⟩
        exact absurd ((h 0 (by omega)).symm.trans hbad) Bool.false_ne_true
      · rw [if_neg hbad, ih]
        constructor
        · intro h i hi
          cases i with
          | zero => exact Bool.eq_false_of_not_eq_true hbad
          | succ i =>
              rw [← Nat.add_assoc, Nat.add_right_comm]
              exact h i (by omega)
        · intro h i hi
          rw [Nat.add_assoc, Nat.add_comm 1]
          exact h (i + 1) (by omega)

/-- After any run an erasure succeeds if and only if it is aligned and in range and none of its
blocks is bad, by a mark in the array or by a request since the last boot. -/
theorem erase_after_run {s : Dev × Flash}
    (h : Runs.Reach (step g) (Bounded g) (fun t => t = booted g d) s) {addr len : ℕ}
    (hword : addr + len < 2 ^ 32) :
    (nandErase g addr len s.1).1 = 0 ↔
      (addr % g.erasesize = 0 ∧ len % g.erasesize = 0 ∧ addr + len ≤ g.size) ∧
        ∀ i < len / g.erasesize, s.2.bad (addr / g.erasesize + i) = false := by
  have hrefines := (refines_of_reach h).1
  have hbad : badBlock g s.1.chip.bbt = s.2.bad :=
    funext fun b => (badBlock_eq g _ b).trans (hrefines.bad b)
  have herase := (nandErase_spec hrefines.rel hword).2
  rw [hbad] at herase
  rw [herase]
  unfold Medium.afterErase
  by_cases hok : addr % g.erasesize = 0 ∧ len % g.erasesize = 0 ∧ addr + len ≤ g.size
  · rw [if_pos hok, Medium.erase_true]
    exact ⟨fun hall => ⟨hok, hall⟩, fun hall => hall.2⟩
  · rw [if_neg hok]
    exact ⟨fun hfalse => absurd hfalse Bool.false_ne_true, fun hall => absurd hall.1 hok⟩

theorem erase_used :
    (nandErase nandOob64 0 (2 ^ 18) used.1).1 = 0 ↔
      (0 % nandOob64.erasesize = 0 ∧ 2 ^ 18 % nandOob64.erasesize = 0 ∧
          0 + 2 ^ 18 ≤ nandOob64.size) ∧
        ∀ i < 2 ^ 18 / nandOob64.erasesize, used.2.bad (0 / nandOob64.erasesize + i) = false :=
  erase_after_run reach_used (by decide)

/-- The marks of the array are all that a boot goes by, and no run makes or loses one: a block
that was marked by request only is good again. -/
theorem isbad_after_boot {s : Dev × Flash}
    (h : Runs.Reach (step g) (Bounded g) (fun t => t = booted g d) s) {ofs : ℕ}
    (hofs : ofs < g.size) :
    nandBlockIsbad g ofs (ls1xNandInit g s.1) =
      if hasMark g d.cells (ofs / g.erasesize) then 1 else 0 := by
  obtain ⟨hrefines, hmarks⟩ := refines_of_reach h
  obtain ⟨-, -, -, -, hentry⟩ := ls1xNandInit_spec g s.1
  have hblock : ofs / g.erasesize < g.blocks :=
    Nat.div_lt_div_of_lt_of_dvd (Nat.pow_dvd_pow 2 g.erase_le) hofs
  unfold nandBlockIsbad
  rw [if_neg (by omega), nandIsbadBbt_eq, hentry, hrefines.marks, hmarks, decide_eq_true hblock,
    Bool.true_and]

theorem isbad_used : nandBlockIsbad nandOob64 (2 ^ 17) (ls1xNandInit nandOob64 used.1) =
    if hasMark nandOob64 fresh.cells (2 ^ 17 / nandOob64.erasesize) then 1 else 0 :=
  isbad_after_boot reach_used (by decide)

/-! ## Reports -/

/-- A part of a page is read in one round. -/
theorem nandRead_of_part {start len : ℕ} (retlen : ℕ) (buf : Bytes) (d : Dev)
    (hsize : start + len ≤ g.size) (hlen : 0 < len)
    (hpart : start % g.writesize + len ≤ g.writesize) :
    nandRead g start len retlen buf d =
      let r := readRound g (start / g.writesize) (start % g.writesize) len 0 buf d
      (⟨if r.2.chip.failed ≠ d.chip.failed then -EBADMSG
        else if r.2.chip.corrected ≠ d.chip.corrected then -EUCLEAN else 0, len, r.1⟩, r.2) := by
  obtain ⟨k, rfl⟩ := Nat.exists_eq_add_of_lt hlen
  unfold nandRead nandDoReadOps
  rw [if_neg (by omega), if_neg (by omega), shiftRight_page, and_writesize, Nat.zero_add, readLoop]
  simp only [Nat.min_eq_right (show k + 1 ≤ g.writesize - start % g.writesize by omega),
    Nat.sub_self, if_true]

/-- A part of a page is left in the cache, and so it is read from there. -/
theorem readRound_part (realpage col : ℕ) {bytes : ℕ} (hbytes : bytes ≠ g.writesize) (buf : Bytes)
    (d : Dev) :
    let r := readRound g realpage col bytes 0 buf d
    r.2.chip.pagebuf = some realpage ∧ ∀ i < bytes, r.1 i = r.2.chip.databuf (col + i) := by
  unfold readRound
  by_cases hcache : d.chip.pagebuf ≠ some realpage
  · rw [if_pos hcache, if_neg hbytes]
    dsimp only
    exact ⟨rfl, fun i hi => memcpy_zero_of_lt hi⟩
  · rw [if_neg hcache]
    dsimp only
    exact ⟨not_not.mp hcache, fun i hi => memcpy_zero_of_lt hi⟩

/-- A part of a page of which a step has two flips is not read without a report. -/
theorem nandRead_of_two {start len k : ℕ} {data : Bytes} {p q : Flip} (retlen : ℕ) (buf : Bytes)
    (hsize : start + len ≤ g.size) (hlen : 0 < len) (hpart : start % g.writesize + len < g.writesize)
    (hcache : d.chip.pagebuf ≠ some (start / g.writesize))
    (h : HoldsTwo g (d.cells (start / g.writesize)) data k p q) (hk : k < g.steps) :
    (nandRead g start len retlen buf d).1.ret = -EBADMSG := by
  have hpage : start / g.writesize < g.pages := by
    rw [size_eq] at hsize
    exact Nat.div_lt_of_lt_mul (by rw [Nat.mul_comm]; omega)
  rw [nandRead_of_part retlen buf d hsize hlen hpart.le]
  refine if_pos (Nat.ne_of_gt ?_)
  unfold readRound
  rw [if_pos hcache, and_pagemask hpage, if_neg (by omega)]
  exact readPage_of_two h hk _

/-- That a part of a page could not be corrected is reported once: the same bytes are given again
without a report. -/
theorem report_once {start len : ℕ} (retlen retlen' : ℕ) (buf buf' : Bytes) (d : Dev)
    (hsize : start + len ≤ g.size) (hlen : 0 < len)
    (hpart : start % g.writesize + len ≤ g.writesize) (hne : len ≠ g.writesize) :
    let r := nandRead g start len retlen buf d
    let r' := nandRead g start len retlen' buf' r.2
    r'.1.ret = 0 ∧ r'.2 = r.2 ∧ ∀ i < len, r'.1.buf i = r.1.buf i := by
  dsimp only
  rw [nandRead_of_part retlen buf d hsize hlen hpart]
  dsimp only
  obtain ⟨hcache, hbuf⟩ := readRound_part (g := g) (start / g.writesize)
    (start % g.writesize) hne buf d
  generalize readRound g (start / g.writesize) (start % g.writesize) len 0 buf d = r
    at hcache hbuf ⊢
  rw [nandRead_of_part retlen' buf' r.2 hsize hlen hpart]
  unfold readRound
  rw [if_neg (not_not.mpr hcache)]
  dsimp only
  rw [if_neg (not_not.mpr rfl), if_neg (not_not.mpr rfl)]
  refine ⟨rfl, rfl, fun i hi => ?_⟩
  rw [memcpy_zero_of_lt hi, hbuf i hi]

/-- Two bits of the second page have flipped. -/
def damaged : Dev :=
  { fresh with cells := fun p => if p = 1 then flipByte (flipByte erased 2 0) 3 1 else erased }

theorem holdsTwo_damaged :
    HoldsTwo nandOob64 (damaged.cells 1) erased 0 (.data 2 0) (.data 3 1) := by
  refine ⟨fun _ _ => rfl, fun t ht => ?_, by decide, id, id⟩
  have hwrite : nandOob64.writesize = 2048 := by decide
  rw [nandCalculateEcc_erased]
  refine Eq.trans ?_ (erased_byte t).symm
  exact (Bytes.set_of_ne (by omega)).trans (Bytes.set_of_ne (by omega))

/-- The first read reports the failure, the second one does not. -/
theorem report_once_damaged :
    (nandRead nandOob64 2050 3 0 erased damaged).1.ret = -EBADMSG ∧
      let r := nandRead nandOob64 2050 3 0 erased damaged
      let r' := nandRead nandOob64 2050 3 0 erased r.2
      r'.1.ret = 0 ∧ r'.2 = r.2 ∧ ∀ i < 3, r'.1.buf i = r.1.buf i :=
  ⟨nandRead_of_two 0 erased (by decide) (by decide) (by decide) (by decide) holdsTwo_damaged
      (by decide),
    report_once 0 0 erased erased damaged (by decide) (by decide) (by decide) (by decide)⟩

end Nand

end LuojiOs
