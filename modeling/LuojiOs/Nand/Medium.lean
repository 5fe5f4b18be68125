import LuojiOs.Nand.Pages
import LuojiOs.Support.Masks

/-!
# The driver as a medium of pages

A medium has pages that are blank, that hold what has been written to them, or that are lost
because they were written to twice.  The driver refines it: whatever bits have flipped, one in a
step of a page, the requests of the partitions find the pages as the medium has them, and the
page cache does not show.
-/

namespace LuojiOs

namespace Nand

open Mtd (EUCLEAN EINVAL)

/-! ## The medium -/

/-- What is known of a page. -/
inductive Page
  | blank
  | holds (data : Bytes)
  | lost

/-- The bytes of a page, where they are known. -/
def Page.bytes? : Page → Option Bytes
  | blank => some erased
  | holds data => some data
  | lost => none

def Page.program (data : Bytes) : Page → Page
  | blank => holds data
  | holds _ => lost
  | lost => lost

abbrev Medium := ℕ → Page

namespace Medium

/-- The byte at an address, where it is known. -/
def byte (g : Geometry) (med : Medium) (x : ℕ) : Option (BitVec 8) :=
  (med (x / g.writesize)).bytes?.map fun data => data (x % g.writesize)

def set (med : Medium) (p : ℕ) (page : Page) : Medium := fun q => if q = p then page else med q

/-- `n` pages are written, from the page `p` on, with the bytes of `buf` from `pos` on. -/
def write (g : Geometry) (buf : Bytes) : ℕ → ℕ → ℕ → Medium → Medium
  | 0, _, _, med => med
  | n + 1, p, pos, med =>
    write g buf n (p + 1) (pos + g.writesize) (med.set p ((med p).program fun x => buf (pos + x)))

def eraseBlock (g : Geometry) (med : Medium) (block : ℕ) : Medium :=
  fun q => if q / g.pagesPerBlock = block then .blank else med q

/-- `n` blocks are erased, up to the first bad one; is there none? -/
def erase (g : Geometry) (bad : ℕ → Bool) : ℕ → ℕ → Medium → Bool × Medium
  | 0, _, med => (true, med)
  | n + 1, block, med =>
    if bad block then (false, med) else erase g bad n (block + 1) (med.eraseBlock g block)

end Medium

variable {g : Geometry} {med : Medium} {d d' : Dev} {buf data : Bytes} {i n p x : ℕ}

/-! ## The relation -/

/-- The array stores the pages of the medium, and the cache holds a page of it. -/
structure Rel (g : Geometry) (d : Dev) (med : Medium) : Prop where
  stores : ∀ p data, (med p).bytes? = some data → Stores g (d.cells p) data
  cache : ∀ p data, d.chip.pagebuf = some p → (med p).bytes? = some data →
    ∀ x < g.writesize, d.chip.databuf x = data x

/-- What reading leaves as it is, the cache apart. -/
structure Undisturbed (d d' : Dev) : Prop where
  cells : d'.cells = d.cells
  oobwbuf : d'.chip.oobwbuf = d.chip.oobwbuf
  bbt : d'.chip.bbt = d.chip.bbt
  ops : d'.chip.ops = d.chip.ops

theorem Undisturbed.refl (d : Dev) : Undisturbed d d := ⟨rfl, rfl, rfl, rfl⟩

theorem Undisturbed.trans {d'' : Dev} (h : Undisturbed d d') (h' : Undisturbed d' d'') :
    Undisturbed d d'' where
  cells := h'.cells.trans h.cells
  oobwbuf := h'.oobwbuf.trans h.oobwbuf
  bbt := h'.bbt.trans h.bbt
  ops := h'.ops.trans h.ops

/-! ## Reading -/

theorem and_pagemask (h : p < g.pages) : p &&& g.pagemask = p := by
  unfold Geometry.pagemask Geometry.pages at *
  rw [Nat.and_two_pow_sub_one_eq_mod, Nat.mod_eq_of_lt h]

/-- What a round of reading does. -/
structure Round (g : Geometry) (med : Medium) (realpage col bytes pos : ℕ) (buf : Bytes) (d : Dev)
    (r : Bytes × Dev) : Prop where
  inside : ∀ data, (med realpage).bytes? = some data → ∀ i < bytes, r.1 (pos + i) = data (col + i)
  outside : ∀ x, x < pos ∨ pos + bytes ≤ x → r.1 x = buf x
  rel : Rel g r.2 med
  undisturbed : Undisturbed d r.2
  failed : (med realpage).bytes? ≠ none → r.2.chip.failed = d.chip.failed

theorem readRound_spec {realpage col bytes : ℕ} (h : Rel g d med) (hpage : realpage < g.pages)
    (hcol : col + bytes ≤ g.writesize) (pos : ℕ) (buf : Bytes) :
    Round g med realpage col bytes pos buf d (readRound g realpage col bytes pos buf d) := by
  have hread := fun data (hdata : (med realpage).bytes? = some data) =>
    readPage_of_stores (h.stores realpage data hdata)
  unfold readRound
  rw [and_pagemask hpage]
  by_cases hcache : d.chip.pagebuf ≠ some realpage
  · rw [if_pos hcache]
    by_cases haligned : bytes = g.writesize
    · obtain rfl : col = 0 := by omega
      have hkept := kept_readPage g (fun x => buf (pos + x)) realpage d
      rw [if_pos haligned]
      dsimp only
      refine ⟨fun data hdata i hi => ?_, fun x hx => ?_, ?_,
        ⟨hkept.cells, hkept.oobwbuf, hkept.bbt, hkept.ops⟩, fun hknown => ?_⟩
      · dsimp only
        rw [memcpy_of_inside (by omega), Nat.zero_add]
        exact (hread data hdata _).1 i (by omega)
      · dsimp only
        rw [memcpy_of_outside (by omega)]
      · constructor
        · rw [hkept.cells]
          exact h.stores
        · rw [hkept.pagebuf, hkept.databuf]
          exact h.cache
      · obtain ⟨data, hdata⟩ := Option.ne_none_iff_exists'.mp hknown
        exact (hread data hdata _).2
    · have hkept := kept_readPage g (cmdfunc g (.read0 0 realpage) d).chip.databuf realpage d
      rw [if_neg haligned]
      dsimp only
      refine ⟨fun data hdata i hi => ?_, fun x hx => ?_, ?_,
        ⟨hkept.cells, hkept.oobwbuf, hkept.bbt, hkept.ops⟩, fun hknown => ?_⟩
      · dsimp only
        rw [memcpy_of_inside hi]
        exact (hread data hdata _).1 (col + i) (by omega)
      · dsimp only
        rw [memcpy_of_outside hx]
      · constructor
        · intro p data hdata
          exact hkept.cells ▸ h.stores p data hdata
        · intro p data hp hdata
          obtain rfl : realpage = p := Option.some.inj hp
          exact (hread data hdata _).1
      · obtain ⟨data, hdata⟩ := Option.ne_none_iff_exists'.mp hknown
        exact (hread data hdata _).2
  · rw [if_neg hcache]
    refine ⟨fun data hdata i hi => ?_, fun x hx => ?_, h, .refl d, fun _ => rfl⟩
    · dsimp only
      rw [memcpy_of_inside hi]
      exact h.cache realpage data (not_not.mp hcache) hdata _ (by omega)
    · dsimp only
      rw [memcpy_of_outside hx]

theorem size_eq (g : Geometry) : g.size = g.pages * g.writesize := by
  unfold Geometry.size Geometry.pages Geometry.writesize
  rw [← Nat.pow_add, Nat.sub_add_cancel (g.page_le.trans g.erase_le)]

theorem div_mod_of_col (realpage : ℕ) {col : ℕ} (h : col < g.writesize) :
    (realpage * g.writesize + col) / g.writesize = realpage ∧
      (realpage * g.writesize + col) % g.writesize = col := by
  rw [Nat.add_comm, Nat.add_mul_div_right _ _ g.writesize_pos, Nat.add_mul_mod_self_right,
    Nat.div_eq_of_lt h, Nat.mod_eq_of_lt h, Nat.zero_add]
  exact ⟨rfl, rfl⟩

theorem Medium.byte_of_col (med : Medium) {realpage col : ℕ} (h : col < g.writesize) :
    med.byte g (realpage * g.writesize + col) = (med realpage).bytes?.map fun data => data col := by
  obtain ⟨hdiv, hmod⟩ := div_mod_of_col realpage h
  unfold byte
  rw [hdiv, hmod]

/-- What a read of `len` bytes from the address `a` on does. -/
structure ReadDone (g : Geometry) (med : Medium) (a len pos : ℕ) (buf : Bytes) (d : Dev)
    (r : Bytes × Dev) : Prop where
  inside : ∀ i < len, ∀ v, med.byte g (a + i) = some v → r.1 (pos + i) = v
  outside : ∀ x, x < pos ∨ pos + len ≤ x → r.1 x = buf x
  rel : Rel g r.2 med
  undisturbed : Undisturbed d r.2
  failed : (∀ i < len, med.byte g (a + i) ≠ none) → r.2.chip.failed = d.chip.failed

/-- A round seen from the addresses. -/
theorem Round.done {realpage col bytes pos : ℕ} {r : Bytes × Dev}
    (h : Round g med realpage col bytes pos buf d r) (hcol : col + bytes ≤ g.writesize)
    (hpos : 0 < bytes) : ReadDone g med (realpage * g.writesize + col) bytes pos buf d r := by
  have hbyte : ∀ i < bytes, med.byte g (realpage * g.writesize + col + i) =
      (med realpage).bytes?.map fun data => data (col + i) := fun i hi => by
    rw [Nat.add_assoc]
    exact Medium.byte_of_col med (by omega)
  refine ⟨fun i hi v hv => ?_, h.outside, h.rel, h.undisturbed, fun hknown => h.failed ?_⟩
  · rw [hbyte i hi] at hv
    obtain ⟨data, hdata, rfl⟩ := Option.map_eq_some_iff.mp hv
    exact h.inside data hdata i hi
  · intro hnone
    have hzero := hknown 0 hpos
    rw [hbyte 0 hpos, hnone] at hzero
    exact hzero rfl

theorem ReadDone.append {a m n pos : ℕ} {r r' : Bytes × Dev}
    (h : ReadDone g med a m pos buf d r) (h' : ReadDone g med (a + m) n (pos + m) r.1 r.2 r') :
    ReadDone g med a (m + n) pos buf d r' where
  inside i hi v hv := by
    by_cases him : i < m
    · rw [h'.outside _ (Or.inl (by omega))]
      exact h.inside i him v hv
    · obtain ⟨k, rfl⟩ := Nat.exists_eq_add_of_le (Nat.le_of_not_lt him)
      rw [← Nat.add_assoc] at hv ⊢
      exact h'.inside k (by omega) v hv
  outside x hx := by
    rw [h'.outside x (by omega), h.outside x (by omega)]
  rel := h'.rel
  undisturbed := h.undisturbed.trans h'.undisturbed
  failed hknown := by
    rw [h'.failed fun i hi => Nat.add_assoc a m i ▸ hknown (m + i) (by omega)]
    exact h.failed fun i hi => hknown i (by omega)

theorem readLoop_spec (fuel realpage col readlen : ℕ) (h : Rel g d med) (hfuel : readlen ≤ fuel)
    (hlen : 0 < readlen) (hcol : col < g.writesize)
    (hsize : realpage * g.writesize + col + readlen ≤ g.size) (pos : ℕ) (buf : Bytes) :
    ReadDone g med (realpage * g.writesize + col) readlen pos buf d
      (readLoop g fuel realpage col readlen pos buf d) := by
  induction fuel generalizing realpage col readlen pos buf d with
  | zero => omega
  | succ fuel ih =>
      have hpage : realpage < g.pages := by
        rw [size_eq] at hsize
        exact Nat.lt_of_mul_lt_mul_right (a := g.writesize) (by omega)
      obtain ⟨bytes, hbytes⟩ : ∃ bytes, min (g.writesize - col) readlen = bytes := ⟨_, rfl⟩
      have hle : col + bytes ≤ g.writesize := by omega
      have hround := (readRound_spec h hpage hle pos buf).done hle (by omega)
      rw [readLoop]
      simp only [hbytes]
      generalize readRound g realpage col bytes pos buf d = r at hround ⊢
      by_cases hend : readlen - bytes = 0
      · rw [if_pos hend]
        rwa [show readlen = bytes by omega]
      · rw [if_neg hend]
        have hnext : realpage * g.writesize + col + bytes = (realpage + 1) * g.writesize + 0 := by
          rw [Nat.succ_mul]
          omega
        have hrest := ih (realpage + 1) 0 (readlen - bytes) hround.rel (by omega) (by omega)
          g.writesize_pos (by omega) (pos + bytes) r.1
        rw [← hnext] at hrest
        have happend := hround.append hrest
        rwa [show bytes + (readlen - bytes) = readlen by omega] at happend

/-- What a successful request to read gives. -/
structure Read (g : Geometry) (med : Medium) (start len : ℕ) (buf : Bytes) (r : Reply) : Prop where
  ret : r.ret = 0 ∨ r.ret = -EUCLEAN
  retlen : r.retlen = len
  inside : ∀ i < len, med.byte g (start + i) = some (r.buf i)
  outside : ∀ x, len ≤ x → r.buf x = buf x

theorem start_split (g : Geometry) (start : ℕ) :
    (start >>> g.pageShift) * g.writesize + (start &&& (g.writesize - 1)) = start ∧
      start &&& (g.writesize - 1) < g.writesize := by
  unfold Geometry.writesize
  rw [Nat.and_two_pow_sub_one_eq_mod, Nat.shiftRight_eq_div_pow]
  exact ⟨Nat.div_add_mod' _ _, Nat.mod_lt _ (Nat.two_pow_pos _)⟩

/-- The driver reads what the medium has, and a read changes neither. -/
theorem nandRead_spec (start len retlen : ℕ) (buf : Bytes) (h : Rel g d med) :
    Rel g (nandRead g start len retlen buf d).2 med ∧
      Undisturbed d (nandRead g start len retlen buf d).2 ∧
      (start + len ≤ g.size → 0 < len → (∀ i < len, med.byte g (start + i) ≠ none) →
        Read g med start len buf (nandRead g start len retlen buf d).1) := by
  obtain ⟨hstart, hcol⟩ := start_split g start
  unfold nandRead
  by_cases hsize : g.size < start + len
  · rw [if_pos hsize]
    exact ⟨h, .refl d, fun hle => absurd hle (by omega)⟩
  · rw [if_neg hsize]
    by_cases hlen : len = 0
    · rw [if_pos hlen]
      exact ⟨h, .refl d, fun _ hpos => absurd hpos (by omega)⟩
    · rw [if_neg hlen]
      have hdone := readLoop_spec len _ _ len h le_rfl (by omega) hcol (by rw [hstart]; omega) 0 buf
      rw [hstart] at hdone
      refine ⟨hdone.rel, hdone.undisturbed, fun _ _ hknown => ?_⟩
      refine ⟨?_, rfl, fun i hi => ?_, fun x hx => hdone.outside x (Or.inr (by omega))⟩
      · unfold nandDoReadOps
        simp only [hdone.failed hknown, ne_eq, not_true_eq_false, if_false]
        split
        · exact Or.inr rfl
        · exact Or.inl rfl
      · obtain ⟨v, hv⟩ := Option.ne_none_iff_exists'.mp (hknown i hi)
        have hinside := hdone.inside i hi v hv
        rw [Nat.zero_add] at hinside
        rw [hv]
        exact congrArg some hinside.symm

/-! ## Writing -/

/-- The controller says of no chip that it is write protected. -/
theorem nandCheckWp_eq (g : Geometry) (d : Dev) :
    (nandCheckWp g d).1 = false ∧ (nandCheckWp g d).2.cells = d.cells ∧
      (nandCheckWp g d).2.chip = d.chip := by
  refine ⟨?_, rfl, rfl⟩
  have hbit : ∀ x : BitVec 8, ((x ||| 0x80#8) &&& 0x80#8 == 0) = false := by decide
  exact hbit d.idh

theorem Rel.congr (h : Rel g d med) (hcells : d'.cells = d.cells)
    (hdatabuf : d'.chip.databuf = d.chip.databuf)
    (hpagebuf : ∀ p, d'.chip.pagebuf = some p → d.chip.pagebuf = some p) : Rel g d' med where
  stores := by
    rw [hcells]
    exact h.stores
  cache p data hp hdata x hx := by
    rw [hdatabuf]
    exact h.cache p data (hpagebuf p hp) hdata x hx

theorem rel_writePage (h : Rel g d med) (hcache : d.chip.pagebuf ≠ some p) (data : Bytes) :
    Rel g (nandWritePage g data p d) (med.set p ((med p).program data)) := by
  constructor
  · intro q e hq
    unfold Medium.set at hq
    by_cases hqp : q = p
    · subst hqp
      rw [if_pos rfl] at hq
      cases hmed : med q with
      | blank =>
          rw [hmed] at hq
          obtain rfl : data = e := Option.some.inj hq
          exact stores_write (h.stores q erased (by rw [hmed]; rfl))
      | holds data' => rw [hmed] at hq; cases hq
      | lost => rw [hmed] at hq; cases hq
    · rw [if_neg hqp] at hq
      have hcells : (nandWritePage g data p d).cells q = d.cells q := by
        funext x
        rw [nandWritePage_cells, if_neg fun hx => hqp hx.1]
      rw [hcells]
      exact h.stores q e hq
  · intro q e hpage hq x hx
    have hqp : q ≠ p := fun heq => hcache (heq ▸ hpage)
    unfold Medium.set at hq
    rw [if_neg hqp] at hq
    exact h.cache q e hpage hq x hx

theorem rel_writeLoop {pos : ℕ} (h : Rel g d med) (hp : p + n ≤ g.pages)
    (hcache : ∀ q, d.chip.pagebuf = some q → q < p ∨ p + n ≤ q) (buf : Bytes) :
    Rel g (writeLoop g n p pos buf d) (med.write g buf n p pos) := by
  induction n generalizing p pos d med with
  | zero => exact h
  | succ n ih =>
      rw [writeLoop, Medium.write, and_pagemask (by omega)]
      have hne : d.chip.pagebuf ≠ some p := fun hpage => by
        have := hcache p hpage
        omega
      refine ih (rel_writePage h hne _) (by omega) fun q hq => ?_
      have := hcache q hq
      have hqp : q ≠ p := fun heq => hne (heq ▸ hq)
      omega

theorem and_writesize (g : Geometry) (x : ℕ) : x &&& (g.writesize - 1) = x % g.writesize :=
  Nat.and_two_pow_sub_one_eq_mod _ _

/-- The medium after a request to write. -/
def Medium.afterWrite (g : Geometry) (to_ len : ℕ) (buf : Bytes) (med : Medium) : Medium :=
  if to_ + len ≤ g.size ∧ to_ % g.writesize = 0 ∧ len % g.writesize = 0 then
    med.write g buf (len / g.writesize) (to_ / g.writesize) 0
  else med

theorem shiftLeft_page (g : Geometry) (p : ℕ) : p <<< g.pageShift = p * g.writesize :=
  Nat.shiftLeft_eq _ _

theorem shiftRight_page (g : Geometry) (x : ℕ) : x >>> g.pageShift = x / g.writesize :=
  Nat.shiftRight_eq_div_pow _ _

theorem invalidate_spec (to_ len : ℕ) (h : Rel g d med) :
    Rel g (invalidate g to_ len d) med ∧ ∀ q, (invalidate g to_ len d).chip.pagebuf = some q →
      q * g.writesize < to_ ∨ to_ + len ≤ q * g.writesize := by
  unfold invalidate
  cases hpage : d.chip.pagebuf with
  | none => exact ⟨h, fun q hq => by rw [hpage] at hq; cases hq⟩
  | some p =>
      dsimp only
      rw [shiftLeft_page]
      by_cases hin : to_ ≤ p * g.writesize ∧ p * g.writesize < to_ + len
      · rw [if_pos hin]
        exact ⟨h.congr rfl rfl fun q hq => (by cases hq), fun q hq => (by cases hq)⟩
      · rw [if_neg hin]
        refine ⟨h, fun q hq => ?_⟩
        rw [hpage] at hq
        obtain rfl : p = q := Option.some.inj hq
        omega

/-- A request to write that is in range and aligned programs the pages, one after the other. -/
theorem nandWrite_of_aligned {to_ len : ℕ} (retlen : ℕ) (buf : Bytes) (d : Dev)
    (hsize : to_ + len ≤ g.size) (hlen : len ≠ 0) (hto : to_ % g.writesize = 0)
    (hlen' : len % g.writesize = 0) :
    (nandWrite g to_ len retlen buf d).2 =
      writeLoop g (len / g.writesize) (to_ / g.writesize) 0 buf
        (invalidate g to_ len (nandCheckWp g d).2) := by
  unfold nandWrite nandDoWriteOps
  rw [if_neg (by omega), if_neg hlen, and_writesize, and_writesize, if_neg (by omega), if_neg hlen]
  dsimp only
  rw [(nandCheckWp_eq g d).1, if_neg Bool.false_ne_true, shiftRight_page]

/-- Any other request to write is none. -/
theorem nandWrite_of_not {to_ len : ℕ} (retlen : ℕ) (buf : Bytes) (d : Dev)
    (h : ¬(to_ + len ≤ g.size ∧ len ≠ 0 ∧ to_ % g.writesize = 0 ∧ len % g.writesize = 0)) :
    (nandWrite g to_ len retlen buf d).2 = d := by
  unfold nandWrite nandDoWriteOps
  rw [and_writesize, and_writesize]
  by_cases hsize : g.size < to_ + len
  · rw [if_pos hsize]
  · rw [if_neg hsize]
    by_cases hlen : len = 0
    · rw [if_pos hlen]
    · rw [if_neg hlen, if_pos (by omega)]

/-- The driver writes as the medium does. -/
theorem nandWrite_spec {to_ len retlen : ℕ} (h : Rel g d med) (buf : Bytes) :
    Rel g (nandWrite g to_ len retlen buf d).2 (med.afterWrite g to_ len buf) := by
  unfold Medium.afterWrite
  by_cases hok : to_ + len ≤ g.size ∧ len ≠ 0 ∧ to_ % g.writesize = 0 ∧ len % g.writesize = 0
  · obtain ⟨hsize, hlen, hto, hmod⟩ := hok
    rw [nandWrite_of_aligned retlen buf d hsize hlen hto hmod, if_pos ⟨hsize, hto, hmod⟩]
    obtain ⟨-, hcells, hchip⟩ := nandCheckWp_eq g d
    have hrel : Rel g (nandCheckWp g d).2 med :=
      h.congr hcells (congrArg _ hchip) fun p hp => by rwa [hchip] at hp
    obtain ⟨hinv, hcache⟩ := invalidate_spec to_ len hrel
    have hto' := Nat.div_mul_cancel (Nat.dvd_of_mod_eq_zero hto)
    have hlen' := Nat.div_mul_cancel (Nat.dvd_of_mod_eq_zero hmod)
    refine rel_writeLoop hinv ?_ (fun q hq => ?_) buf
    · apply Nat.le_of_mul_le_mul_right _ g.writesize_pos
      rw [Nat.add_mul, hto', hlen', ← size_eq]
      exact hsize
    · refine (hcache q hq).imp (fun hlt => ?_) fun hle => ?_
      · exact Nat.lt_of_mul_lt_mul_right (a := g.writesize) (by omega)
      · apply Nat.le_of_mul_le_mul_right _ g.writesize_pos
        rw [Nat.add_mul, hto', hlen']
        exact hle
  · rw [nandWrite_of_not retlen buf d hok]
    by_cases hlen : len = 0
    · rw [hlen, Nat.zero_div]
      split <;> exact h
    · rw [if_neg fun hall => hok ⟨hall.1, hlen, hall.2⟩]
      exact h

/-! ## Erasing -/

/-- What the table says of a block. -/
def badBlock (g : Geometry) (bbt : Bytes) (block : ℕ) : Bool :=
  nandIsbadBbt g bbt (block * g.erasesize)

theorem erasesize_eq (g : Geometry) : g.erasesize = g.pagesPerBlock * g.writesize := by
  unfold Geometry.erasesize Geometry.pagesPerBlock Geometry.writesize
  rw [← Nat.pow_add, Nat.sub_add_cancel g.page_le]

theorem pagesPerBlock_pos (g : Geometry) : 0 < g.pagesPerBlock := Nat.two_pow_pos _

theorem erasesize_pos (g : Geometry) : 0 < g.erasesize := Nat.two_pow_pos _

theorem rel_eraseBlock {block : ℕ} (h : Rel g d med)
    (hcells : d'.cells = eraseBlock g d.cells (block * g.pagesPerBlock))
    (hdatabuf : d'.chip.databuf = d.chip.databuf)
    (hpagebuf : ∀ p, d'.chip.pagebuf = some p →
      d.chip.pagebuf = some p ∧ p / g.pagesPerBlock ≠ block) :
    Rel g d' (med.eraseBlock g block) := by
  have hdiv : block * g.pagesPerBlock / g.pagesPerBlock = block :=
    Nat.mul_div_cancel _ (pagesPerBlock_pos g)
  constructor
  · intro q data hq
    unfold Medium.eraseBlock at hq
    by_cases hblock : q / g.pagesPerBlock = block
    · rw [if_pos hblock] at hq
      obtain rfl : erased = data := Option.some.inj hq
      have hcell : d'.cells q = erased := by
        funext x
        rw [hcells, eraseBlock, hdiv, if_pos hblock]
        rfl
      rw [hcell]
      exact stores_erased g
    · rw [if_neg hblock] at hq
      have hcell : d'.cells q = d.cells q := by
        funext x
        rw [hcells, eraseBlock, hdiv, if_neg hblock]
      rw [hcell]
      exact h.stores q data hq
  · intro q data hq hmed x hx
    obtain ⟨hpage, hblock⟩ := hpagebuf q hq
    unfold Medium.eraseBlock at hmed
    rw [if_neg hblock] at hmed
    rw [hdatabuf]
    exact h.cache q data hpage hmed x hx

theorem rel_eraseLoop {block : ℕ} (h : Rel g d med)
    (hsize : (block + n) * g.pagesPerBlock ≤ g.pages) :
    let r := eraseLoop g n (block * g.pagesPerBlock) d
    let m := med.erase g (badBlock g d.chip.bbt) n block
    Rel g r.2 m.2 ∧ (r.1 = 0 ↔ m.1 = true) := by
  induction n generalizing block d med with
  | zero => exact ⟨h, fun _ => rfl, fun _ => rfl⟩
  | succ n ih =>
      have hshift : (block * g.pagesPerBlock) <<< g.pageShift = block * g.erasesize := by
        rw [shiftLeft_page, erasesize_eq, Nat.mul_assoc]
      have hnext : block * g.pagesPerBlock + g.pagesPerBlock = (block + 1) * g.pagesPerBlock :=
        (Nat.succ_mul _ _).symm
      have hpages : block * g.pagesPerBlock < g.pages := by
        have hpos := pagesPerBlock_pos g
        have hle : (block + 1) * g.pagesPerBlock ≤ (block + (n + 1)) * g.pagesPerBlock :=
          Nat.mul_le_mul_right _ (by omega)
        omega
      rw [eraseLoop, Medium.erase, hshift, hnext, and_pagemask hpages]
      unfold badBlock
      by_cases hbad : nandIsbadBbt g d.chip.bbt (block * g.erasesize) = true
      · simp only [hbad, if_true]
        exact ⟨h, fun hr => absurd hr (by decide), fun hr => absurd hr (by decide)⟩
      · simp only [hbad]
        refine ih (rel_eraseBlock h rfl rfl fun p hp => ?_) (by rwa [Nat.add_right_comm])
        obtain ⟨hpage, hout⟩ := Option.filter_eq_some_iff.mp hp
        refine ⟨hpage, fun hblock => ?_⟩
        have hlo := Nat.div_mul_le_self p g.pagesPerBlock
        have hhi := Nat.lt_div_mul_add (a := p) (pagesPerBlock_pos g)
        rw [hblock] at hlo hhi
        rw [hnext] at hhi
        simp [hlo, hhi] at hout

/-- The medium after a request to erase, and whether it succeeds. -/
def Medium.afterErase (g : Geometry) (bad : ℕ → Bool) (addr len : ℕ) (med : Medium) :
    Bool × Medium :=
  if addr % g.erasesize = 0 ∧ len % g.erasesize = 0 ∧ addr + len ≤ g.size then
    med.erase g bad (len / g.erasesize) (addr / g.erasesize)
  else (false, med)

theorem and_erasesize (g : Geometry) (x : ℕ) : x &&& (g.erasesize - 1) = x % g.erasesize :=
  Nat.and_two_pow_sub_one_eq_mod _ _

/-- A request to erase that is in range and aligned erases the blocks, one after the other. -/
theorem nandErase_of_aligned {addr len : ℕ} (d : Dev) (hword : addr + len < 2 ^ 32)
    (haddr : addr % g.erasesize = 0) (hlen : len % g.erasesize = 0)
    (hsize : addr + len ≤ g.size) :
    nandErase g addr len d =
        eraseLoop g (len / g.erasesize) (addr / g.erasesize * g.pagesPerBlock)
          (nandCheckWp g d).2 ∧
      (addr / g.erasesize + len / g.erasesize) * g.pagesPerBlock ≤ g.pages := by
  have haddr' := Nat.div_mul_cancel (Nat.dvd_of_mod_eq_zero haddr)
  have hlen' := Nat.div_mul_cancel (Nat.dvd_of_mod_eq_zero hlen)
  have hpage : addr >>> g.pageShift = addr / g.erasesize * g.pagesPerBlock := by
    apply Nat.eq_of_mul_eq_mul_right g.writesize_pos
    rw [Nat.mul_assoc, ← erasesize_eq, haddr', shiftRight_page]
    apply Nat.div_mul_cancel
    exact (Dvd.intro_left _ (erasesize_eq g).symm).trans (Nat.dvd_of_mod_eq_zero haddr)
  constructor
  · unfold nandErase
    rw [and_erasesize, and_erasesize, Nat.add_comm len, Nat.mod_eq_of_lt hword,
      if_neg (not_not.mpr haddr), if_neg (not_not.mpr hlen), if_neg (by omega)]
    dsimp only
    rw [(nandCheckWp_eq g d).1, if_neg Bool.false_ne_true, hpage]
  · apply Nat.le_of_mul_le_mul_right _ g.writesize_pos
    rw [Nat.mul_assoc, ← erasesize_eq, Nat.add_mul, haddr', hlen', ← size_eq]
    exact hsize

/-- Any other request to erase is refused. -/
theorem nandErase_of_not {addr len : ℕ} (d : Dev) (hword : addr + len < 2 ^ 32)
    (h : ¬(addr % g.erasesize = 0 ∧ len % g.erasesize = 0 ∧ addr + len ≤ g.size)) :
    nandErase g addr len d = (-EINVAL, d) := by
  unfold nandErase
  rw [and_erasesize, and_erasesize, Nat.add_comm len, Nat.mod_eq_of_lt hword]
  by_cases haddr : addr % g.erasesize ≠ 0
  · rw [if_pos haddr]
  · rw [if_neg haddr]
    by_cases hlen : len % g.erasesize ≠ 0
    · rw [if_pos hlen]
    · rw [if_neg hlen, if_pos]
      omega

/-- The driver erases as the medium does. -/
theorem nandErase_spec {addr len : ℕ} (h : Rel g d med) (hword : addr + len < 2 ^ 32) :
    Rel g (nandErase g addr len d).2 (med.afterErase g (badBlock g d.chip.bbt) addr len).2 ∧
      ((nandErase g addr len d).1 = 0 ↔
        (med.afterErase g (badBlock g d.chip.bbt) addr len).1 = true) := by
  unfold Medium.afterErase
  by_cases hok : addr % g.erasesize = 0 ∧ len % g.erasesize = 0 ∧ addr + len ≤ g.size
  · obtain ⟨herase, hbound⟩ := nandErase_of_aligned d hword hok.1 hok.2.1 hok.2.2
    obtain ⟨-, hcells, hchip⟩ := nandCheckWp_eq g d
    have hrel : Rel g (nandCheckWp g d).2 med :=
      h.congr hcells (congrArg _ hchip) fun p hp => by rwa [hchip] at hp
    have hloop := rel_eraseLoop hrel hbound
    rw [hchip] at hloop
    rw [herase, if_pos hok]
    exact hloop
  · have hno : (-EINVAL = 0 ↔ false = true) := by decide
    rw [nandErase_of_not d hword hok, if_neg hok]
    exact ⟨h, hno⟩

end Nand

end LuojiOs
