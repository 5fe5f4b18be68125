import LuojiOs.Heap.WellFormed
import LuojiOs.Support.Climb

/-!
# The search of `malloc`

The search visits the blocks from `lfree` on and stops at the offset
`mem_size_aligned - size`.  It finds the first free block that is large enough and starts
below this bound.  A block that starts at the bound has room for `size` bytes only if it is
the last one and has no byte more; it is not found.
-/

namespace LuojiOs

open Tiling Climb

/-! ## The loops -/

/-- A round of the search: `none` if the loop is left, the next offset otherwise. -/
def searchNext (size : BitVec 32) (σ : Heap) (ptr : BitVec 32) : Option (BitVec 32) :=
  if ptr < σ.memSizeAligned - size then
    let mem := σ.hdr (σ.heapPtr + ptr)
    if mem.used = 0 ∧ size ≤ mem.next - (ptr + SIZEOF_STRUCT_MEM) then none else some mem.next
  else none

/-- A round of the loop that advances `lfree`. -/
def lfreeNext (σ : Heap) (lfree : BitVec 32) : Option (BitVec 32) :=
  if (σ.hdr lfree).used ≠ 0 ∧ lfree ≠ σ.heapEnd then some (σ.heapPtr + (σ.hdr lfree).next)
  else none

section Loops

variable {σ : Heap} {as bs : List Block} {b : Block} {o fuel f : ℕ} {size ptr p : BitVec 32}

/-- A free block with room for `n` bytes. -/
def Block.Fits (n : ℕ) (b : Block) : Prop := b.used = false ∧ b.start + 16 + n ≤ b.stop

instance (n : ℕ) : DecidablePred (Block.Fits n) := fun _ => inferInstanceAs (Decidable (_ ∧ _))

/-- The bound of the search, if the heap is not smaller than the request. -/
theorem lt_bound_iff (h : Geometry σ) (hsize : size.toNat ≤ σ.memSizeAligned.toNat)
    (ho : o ≤ σ.endOff) :
    BitVec.ofNat 32 o < σ.memSizeAligned - size ↔ o + size.toNat < σ.memSizeAligned.toNat := by
  rw [BitVec.lt_def, h.toNat_ofNat ho, BitVec.toNat_sub]
  have := h.room
  omega

/-- The test of the search at a block. -/
theorem Shape.fits_iff (h : Shape σ bs) (hb : b ∈ bs) :
    ((σ.hdr (σ.ptr b.start)).used = 0 ∧
      size ≤ (σ.hdr (σ.ptr b.start)).next - (BitVec.ofNat 32 b.start + SIZEOF_STRUCT_MEM)) ↔
        b.Fits size.toNat := by
  have hroom := h.room_of_mem hb
  have hhdr := h.hdr_ptr hb
  rw [hhdr.1, hhdr.2, BitVec.le_def, h.room_eq hb]
  exact and_congr_right fun _ => by omega

/-- What the search finds from a block on. -/
theorem Shape.findFree_eq (h : Shape σ (as ++ bs))
    (ht : Tiles Block.start Block.stop o bs σ.endOff)
    (hsize : size.toNat ≤ σ.memSizeAligned.toNat) (hfuel : bs.length < fuel) :
    findFree size σ fuel (BitVec.ofNat 32 o) =
      .ok ((bs.find? fun b => b.Fits size.toNat ∧
        b.start + size.toNat < σ.memSizeAligned.toNat).map fun b => BitVec.ofNat 32 b.start) := by
  induction bs generalizing as o fuel with
  | nil =>
      obtain ⟨k, rfl⟩ := Nat.exists_eq_add_of_lt hfuel
      have ho : o = σ.endOff := ht
      unfold findFree
      rw [if_neg]
      · rfl
      · rw [lt_bound_iff h.geometry hsize (Nat.le_of_eq ho), ho]
        unfold Heap.endOff
        omega
  | cons b bs ih =>
      obtain ⟨k, rfl⟩ := Nat.exists_eq_add_of_lt hfuel
      have ho : b.start = o := ht.1
      have hb : b ∈ as ++ b :: bs := by simp
      have hle := (h.tiles.mem_bounds hb).2
      have hbound := lt_bound_iff h.geometry hsize (show b.start ≤ σ.endOff by omega)
      have h' : Shape σ ((as ++ [b]) ++ bs) := by simpa using h
      unfold findFree
      rw [← ho, List.find?_cons]
      split
      · next hlt =>
        have hlow := hbound.mp hlt
        dsimp only
        rw [heapPtr_add_ofNat]
        by_cases hfits : b.Fits size.toNat
        · rw [if_pos ((h.fits_iff hb).mpr hfits)]
          simp [hfits, hlow]
        · rw [if_neg fun hf => hfits ((h.fits_iff hb).mp hf), (h.hdr_ptr hb).1]
          rw [ih h' ht.2.2 (by simp only [List.length_cons]; omega)]
          simp [hfits]
      · next hge =>
        -- all blocks from here on start at the bound or above it
        have hnone : ∀ d ∈ b :: bs, ¬(d.Fits size.toNat ∧
            d.start + size.toNat < σ.memSizeAligned.toNat) := by
          rintro d hd ⟨-, hlt⟩
          have hd' := (ht.mem_bounds hd).1
          exact hge (hbound.mpr (by omega))
        have hfind := List.find?_eq_none.mpr fun d hd =>
          Bool.not_eq_true _ ▸ decide_eq_false (hnone d hd)
        rw [List.find?_cons] at hfind
        rw [hfind]
        rfl

/-- The loop that advances `lfree` is left. -/
theorem Shape.exists_nextFree (h : Shape σ (as ++ bs))
    (ht : Tiles Block.start Block.stop o bs σ.endOff) (hfuel : bs.length < fuel) :
    ∃ p, nextFree σ fuel (σ.ptr o) = .ok p := by
  induction bs generalizing as o fuel with
  | nil =>
      obtain ⟨k, rfl⟩ := Nat.exists_eq_add_of_lt hfuel
      have ho : o = σ.endOff := ht
      unfold nextFree
      rw [if_neg (by rw [h.geometry.heapEnd, ho]; exact fun htest => htest.2 rfl)]
      exact ⟨_, rfl⟩
  | cons b bs ih =>
      obtain ⟨k, rfl⟩ := Nat.exists_eq_add_of_lt hfuel
      have ho : b.start = o := ht.1
      have h' : Shape σ ((as ++ [b]) ++ bs) := by simpa using h
      unfold nextFree
      rw [← ho, (h.hdr_ptr (b := b) (by simp)).1]
      split
      · exact ih h' ht.2.2 (by simp only [List.length_cons]; omega)
      · exact ⟨_, rfl⟩

end Loops

/-! ## What `malloc` returns -/

section Returns

variable {σ : Heap} {as bs cs : List Block} {b : Block} {f n : ℕ} {size : BitVec 32}

theorem toNat_and_seven (x : BitVec 32) : (x &&& (8 - 1)).toNat = x.toNat % 8 :=
  Masks.toNat_and_mask (k := 3) x rfl

/-- The assertions of `malloc` about the block it gives out. -/
theorem Shape.malloc_asserts (h : Shape σ bs) (hb : b ∈ bs) (hsize : size.toNat + 32 < 2 ^ 32)
    (hfit : b.start + 16 + size.toNat ≤ b.stop) :
    σ.ptr b.start + SIZEOF_STRUCT_MEM + size ≤ σ.heapEnd ∧
      (σ.ptr b.start + SIZEOF_STRUCT_MEM) % 8 = 0 ∧ σ.ptr b.start &&& (8 - 1) = 0 := by
  have hle := h.stop_le hb
  have hal := h.aligned b hb
  have hbase := h.geometry.base
  have hgeo := h.geometry.room
  have hnat := h.geometry.toNat_ptr (show b.start ≤ σ.endOff by omega)
  have hnat' := h.geometry.toNat_ptr (show b.start + 16 ≤ σ.endOff by omega)
  have hend : σ.endOff = σ.memSizeAligned.toNat + 16 := rfl
  have h8 : (8 : BitVec 32).toNat = 8 := rfl
  rw [ptr_add_header]
  refine ⟨?_, ?_, ?_⟩
  · rw [BitVec.le_def, BitVec.toNat_add, hnat', h.geometry.heapEnd,
      h.geometry.toNat_ptr (Nat.le_refl _)]
    omega
  · apply BitVec.eq_of_toNat_eq
    rw [BitVec.toNat_umod, hnat', h8]
    exact show (σ.heapPtr.toNat + (b.start + 16)) % 8 = 0 by omega
  · apply BitVec.eq_of_toNat_eq
    rw [toNat_and_seven, hnat]
    exact show (σ.heapPtr.toNat + b.start) % 8 = 0 by omega

theorem Shape.length_lt (h : Shape σ bs) : bs.length < maxRounds := by
  have hgeo := h.geometry.room
  have hlength := h.tiles.length_le
  unfold maxRounds
  unfold Heap.endOff at hlength
  omega

/-- `lfree` is advanced in finitely many rounds. -/
theorem Arena.exists_moveLfree (h : Arena σ (as ++ b :: bs) f)
    (hsize : size.toNat + 32 < 2 ^ 32) (hal : size.toNat % 8 = 0) :
    ∃ σ', moveLfree (σ.ptr b.start) (takeBlock (BitVec.ofNat 32 b.start) size σ) = .ok σ' := by
  have hshape := h.shape.takeBlock hsize hal
  have hs : SameStatics σ (takeBlock (BitVec.ofNat 32 b.start) size σ) := sameStatics_takeBlock
  unfold moveLfree
  split
  · next heq =>
    have hlength := hshape.length_lt
    rw [List.length_append] at hlength
    rw [← ptr_congr hs] at heq
    have hfuel : (taken size.toNat b ++ bs).length < maxRounds := by omega
    obtain ⟨p, hp⟩ := hshape.exists_nextFree hshape.tiles_from_taken hfuel
    rw [← heq, hp]
    exact ⟨_, rfl⟩
  · exact ⟨_, rfl⟩

/-- `malloc` returns if it looks for no more than the heap has.  It finds nothing just if no
free block from `lfree` on is large enough and starts below the bound. -/
theorem Arena.exists_mallocAligned (h : Arena σ (as ++ cs) f)
    (ht : Tiles Block.start Block.stop f cs σ.endOff)
    (hsize : size.toNat ≤ σ.memSizeAligned.toNat) (hal : size.toNat % 8 = 0) :
    ∃ r, LuojiOs.mallocAligned size σ = .ok r ∧
      (r.1 = 0 ↔ ∀ b ∈ cs, ¬(b.Fits size.toNat ∧
        b.start + size.toNat < σ.memSizeAligned.toNat)) := by
  have hgeo := h.shape.geometry.room
  have hlength := h.shape.length_lt
  rw [List.length_append] at hlength
  have hfind := h.shape.findFree_eq ht hsize (show cs.length < maxRounds by omega)
  unfold LuojiOs.mallocAligned
  rw [h.lfree, ptr_sub_heapPtr, hfind]
  cases hb : cs.find? fun b => b.Fits size.toNat ∧
      b.start + size.toNat < σ.memSizeAligned.toNat with
  | none =>
      refine ⟨_, rfl, fun _ => ?_, fun _ => rfl⟩
      intro b hbmem
      exact of_decide_eq_false (Bool.eq_false_iff.mpr (List.find?_eq_none.mp hb b hbmem))
  | some b =>
      have hmem := List.mem_of_find?_eq_some hb
      have hfound := List.find?_some hb
      obtain ⟨hfits, hlow⟩ := of_decide_eq_true hfound
      obtain ⟨ds, es, rfl⟩ := List.append_of_mem hmem
      have h' : Arena σ ((as ++ ds) ++ b :: es) f := by simpa using h
      have hbmem : b ∈ (as ++ ds) ++ b :: es := by simp
      have hle := h'.shape.stop_le hbmem
      have hroom := h'.shape.room_of_mem hbmem
      have hsize : size.toNat + 32 < 2 ^ 32 := by omega
      obtain ⟨σ₁, hmove⟩ := h'.exists_moveLfree hsize hal
      obtain ⟨hend, hmod, hand⟩ := h'.shape.malloc_asserts hbmem (by omega) hfits.2
      have hs := (sameStatics_takeBlock.trans (sameStatics_moveLfree hmove)).heapEnd
      refine ⟨(σ.ptr b.start + SIZEOF_STRUCT_MEM, releaseHeapSem σ₁), ?_, ?_⟩
      · rw [bind_eq_ok_iff]
        refine ⟨some (BitVec.ofNat 32 b.start), rfl, ?_⟩
        dsimp only
        rw [heapPtr_add_ofNat]
        simp only [bind_eq_ok_iff, rtAssert_eq_ok_iff]
        refine ⟨σ₁, hmove, (), ?_, (), hmod, (), hand, rfl⟩
        rw [hs]
        exact hend
      · rw [ptr_add_header]
        constructor
        · intro hnull
          exact absurd hnull (h'.shape.geometry.ptr_ne_zero (by omega))
        · intro hnone
          exact absurd ⟨hfits, hlow⟩ (hnone b hmem)

end Returns

/-! ## Completeness -/

/-- The payload that `malloc(n)` asks for. -/
def requestSize (n : ℕ) : ℕ := max 16 ((n + 7) / 8 * 8)

namespace Heap

/-- `malloc(n)` returns `NULL` only if no free block is large enough. -/
def Complete (n : BitVec 32) (σ : Heap) : Prop :=
  ∀ σ', malloc n σ = .ok (0, σ') → ∀ b ∈ σ.blocks, ¬b.Fits (requestSize n.toNat)

/-- A free block has room for `n` bytes, but the only such block is the last one, and it has
room for no byte more. -/
def OnlyLast (n : ℕ) (σ : Heap) : Prop :=
  (∃ b ∈ σ.blocks, b.Fits n) ∧ ∀ b ∈ σ.blocks, b.Fits n → b.start + 16 + n = σ.endOff

end Heap

section Completeness

variable {σ : Heap} {bs : List Block} {b : Block} {f : ℕ} {n : BitVec 32}

theorem toNat_searchSize_eq (h : n.toNat + 7 < 2 ^ 32) :
    (searchSize n).toNat = requestSize n.toNat := by
  have halign := toNat_rtAlign n
  have h16 : MIN_SIZE_ALIGNED.toNat = 16 := rfl
  unfold searchSize requestSize
  split
  · next hlt =>
    rw [BitVec.lt_def, h16] at hlt
    omega
  · next hge =>
    rw [BitVec.lt_def, h16] at hge
    omega

/-- `malloc` returns if the lock is free and the heap has room for the smallest block. -/
theorem Arena.exists_malloc (h : Arena σ bs f) (hsem : 0 < σ.heapSem) (hzero : n ≠ 0)
    (hfit : rtAlign n ≤ σ.memSizeAligned) (hroom : 16 ≤ σ.memSizeAligned.toNat) :
    ∃ as cs r, bs = as ++ cs ∧ (∀ b ∈ as, b.start < f) ∧
      LuojiOs.malloc n σ = .ok r ∧ (r.1 = 0 ↔ ∀ b ∈ cs, ¬(b.Fits (searchSize n).toNat ∧
        b.start + (searchSize n).toNat < σ.memSizeAligned.toNat)) := by
  obtain ⟨as, cs, rfl, htiles, hbelow⟩ := h.exists_from
  have hgeo := h.shape.geometry.room
  have hle := BitVec.le_def.mp hfit
  have hsmall : (rtAlign n).toNat + 32 < 2 ^ 32 := by omega
  obtain ⟨-, hal, -, -⟩ := toNat_searchSize hsmall
  have hsize : (searchSize n).toNat ≤ σ.memSizeAligned.toNat := by
    have h16 : MIN_SIZE_ALIGNED.toNat = 16 := rfl
    unfold searchSize
    split
    · rw [h16]
      exact hroom
    · exact hle
  obtain ⟨r, hr, hnull⟩ := h.locked.exists_mallocAligned htiles hsize hal
  refine ⟨as, cs, r, rfl, hbelow, ?_, hnull⟩
  unfold LuojiOs.malloc
  rw [bind_eq_ok_iff]
  refine ⟨σ.locked, takeHeapSem_eq_ok_iff.mpr ⟨hsem, rfl⟩, ?_⟩
  rw [if_neg hzero]
  dsimp only
  rw [if_neg (show ¬σ.locked.memSizeAligned < rtAlign n from BitVec.not_lt.mpr hfit)]
  exact hr

/-- A well-formed heap has room for the smallest block. -/
theorem Heap.WellFormed.sixteen_le (hw : σ.WellFormed) : 16 ≤ σ.memSizeAligned.toNat := by
  obtain ⟨f, h, ht⟩ := hw
  have htiles := h.shape.tiles
  generalize σ.blocks = bs at *
  cases bs with
  | nil =>
      have hend : 0 = σ.endOff := htiles
      unfold Heap.endOff at hend
      omega
  | cons b bs =>
      have hroom := ht.room b (by simp)
      have hle := h.shape.stop_le (b := b) (by simp)
      unfold Heap.endOff at hle
      omega

/-- `malloc` is complete unless all that is left for the request is a last block of just
its size. -/
theorem malloc_complete_iff (hw : σ.WellFormed) (hpos : 0 < n)
    (hle : n ≤ σ.memSizeAligned) :
    σ.Complete n ↔ ¬(0 < σ.heapSem ∧ σ.OnlyLast (requestSize n.toNat)) := by
  have hroom := hw.sixteen_le
  obtain ⟨f, h, ht⟩ := hw
  have hgeo := h.shape.geometry.room
  have hsize := h.shape.geometry.size
  have hend : σ.endOff = σ.memSizeAligned.toNat + 16 := rfl
  rw [BitVec.le_def] at hle
  have hzero : n ≠ 0 := by
    rintro rfl
    exact absurd hpos (by decide)
  have hreq := toNat_searchSize_eq (n := n) (by omega)
  have halign := toNat_rtAlign n
  have hfit : rtAlign n ≤ σ.memSizeAligned := by
    rw [BitVec.le_def]
    omega
  by_cases hsem : 0 < σ.heapSem
  · obtain ⟨as, cs, r, hsplit, hbelow, hr, hnull⟩ := h.exists_malloc hsem hzero hfit hroom
    rw [hreq] at hnull
    -- a free block is not below `lfree`
    have hfrom : ∀ b ∈ σ.blocks, b.Fits (requestSize n.toNat) → b ∈ cs := by
      intro b hb hfits
      have hlow := ht.lowest b hb hfits.1
      rw [hsplit] at hb
      rcases List.mem_append.mp hb with hb | hb
      · exact absurd (hbelow b hb) (Nat.not_lt.mpr hlow)
      · exact hb
    constructor
    · rintro hc ⟨-, ⟨b, hb, hfits⟩, hlast⟩
      have hr0 : r.1 = 0 := by
        apply hnull.mpr
        rintro d hd ⟨hdfits, hlt⟩
        have hdmem : d ∈ σ.blocks := by
          rw [hsplit]
          exact List.mem_append_right as hd
        have := hlast d hdmem hdfits
        omega
      apply hc r.2 ?_ b hb hfits
      rw [hr, ← hr0]
    · intro hnot σ' hmalloc b hb hfits
      apply hnot
      have hr0 : r.1 = 0 := by
        obtain rfl := Except.ok.inj (hr.symm.trans hmalloc)
        rfl
      refine ⟨hsem, ⟨b, hb, hfits⟩, ?_⟩
      intro d hd hdfits
      have hge := Nat.not_lt.mp fun hlt => hnull.mp hr0 d (hfrom d hd hdfits) ⟨hdfits, hlt⟩
      have hdle := h.shape.stop_le hd
      have := hdfits.2
      omega
  · refine iff_of_true ?_ fun hlost => hsem hlost.1
    intro σ' hmalloc
    exact absurd (malloc_cases hmalloc).1 hsem

end Completeness

/-- The heap of 224 bytes is well-formed, and is one free block. -/
theorem smallHeap_blocks :
    ∃ σ, smallHeap = some σ ∧ σ.heapSem = 1 ∧ σ.memSizeAligned = 224 ∧ σ.WellFormed ∧
      σ.blocks = [⟨0, 240, false⟩] ∧ σ.endOff = 240 := by
  obtain ⟨σ, hσ, hsem, hsize⟩ := smallHeap_eq
  have hinit : rtSystemHeapInit (fun _ => 0) 0x1000 0x1100 = some σ := hσ
  have hend : σ.endOff = 240 := by
    unfold Heap.endOff
    rw [hsize]
    rfl
  refine ⟨σ, hσ, hsem, hsize, wellFormed_init hinit ?_, ?_, hend⟩
  · rw [hsize]
    decide
  · rw [(arena_init hinit).shape.blocks_eq, hend]

/-- A request for 16 bytes. -/
theorem malloc_complete_sixteen : ∃ σ, smallHeap = some σ ∧ σ.Complete 16 := by
  obtain ⟨σ, hσ, hsem, hsize, hw, hblocks, hend⟩ := smallHeap_blocks
  refine ⟨σ, hσ, (malloc_complete_iff hw (by decide) (by rw [hsize]; decide)).mpr ?_⟩
  rintro ⟨-, -, hlast⟩
  rw [hblocks, hend] at hlast
  have := hlast ⟨0, 240, false⟩ (by simp) (by decide)
  revert this
  decide

/-- A request for the whole heap returns `NULL`, though nothing has been given out. -/
theorem malloc_incomplete :
    ∃ σ, smallHeap = some σ ∧ σ.WellFormed ∧ (224 : BitVec 32) ≤ σ.memSizeAligned ∧
      ¬σ.Complete 224 := by
  obtain ⟨σ, hσ, hsem, hsize, hw, hblocks, -⟩ := smallHeap_blocks
  refine ⟨σ, hσ, hw, by rw [hsize]; decide, ?_⟩
  intro hc
  obtain ⟨σ', hσ', hr⟩ := Runs.exists_of_any (show smallHeap.any (fun σ =>
    (malloc 224 σ).toOption.any fun r => r.1 = 0) = true by decide)
  obtain rfl := Option.some.inj (hσ.symm.trans hσ')
  obtain ⟨r, hr, hnull⟩ := Runs.exists_of_any hr
  have hmalloc := HeapSys.ok_of_toOption hr
  have hr0 : r = (0, r.2) := Prod.ext (of_decide_eq_true hnull) rfl
  rw [hr0] at hmalloc
  apply hc r.2 hmalloc ⟨0, 240, false⟩
  · rw [hblocks]
    simp
  · decide

/-! ## Termination -/

section Termination

variable {σ : Heap} {as bs cs : List Block} {b : Block} {f o : ℕ} {size n ptr p : BitVec 32}

/-- The search of `malloc(n)` and the loop that advances `lfree` after it visit higher and
higher offsets, and both end. -/
def Heap.SearchEnds (n : BitVec 32) (σ : Heap) : Prop :=
  0 < σ.heapSem → n ≠ 0 → rtAlign n ≤ σ.memSizeAligned →
    Climbs (searchNext (searchSize n) σ) BitVec.toNat (σ.lfree - σ.heapPtr) ∧
      ∀ ptr fuel, findFree (searchSize n) σ fuel (σ.lfree - σ.heapPtr) = .ok (some ptr) →
        σ.heapPtr + ptr = σ.lfree →
          Climbs (lfreeNext (takeBlock ptr (searchSize n) σ))
            (fun lfree => (lfree - σ.heapPtr).toNat) σ.lfree

/-- The offset `o` is that of a block or of `heap_end`. -/
def AtHeader (bs : List Block) (e o : ℕ) : Prop :=
  ∃ as cs, bs = as ++ cs ∧ Tiles Block.start Block.stop o cs e

theorem AtHeader.le (h : AtHeader bs σ.endOff o) : o ≤ σ.endOff := by
  obtain ⟨as, cs, -, ht⟩ := h
  exact ht.le

/-- A round of the search leads from a block to the next one. -/
theorem Shape.searchNext_rises (h : Shape σ bs) (ho : AtHeader bs σ.endOff o)
    (hsize : size.toNat ≤ σ.memSizeAligned.toNat)
    (hnext : searchNext size σ (BitVec.ofNat 32 o) = some ptr) :
    ∃ o', ptr = BitVec.ofNat 32 o' ∧ AtHeader bs σ.endOff o' ∧ o < o' := by
  have hle := ho.le
  obtain ⟨as, cs, rfl, ht⟩ := ho
  unfold searchNext at hnext
  split at hnext
  · next hlt =>
    rw [lt_bound_iff h.geometry hsize hle] at hlt
    cases cs with
    | nil =>
        have ho : o = σ.endOff := ht
        unfold Heap.endOff at ho
        omega
    | cons b cs =>
        obtain ⟨rfl, hroom, hcs⟩ := ht
        dsimp only at hnext
        split at hnext
        · cases hnext
        · rw [heapPtr_add_ofNat, (h.hdr_ptr (b := b) (by simp)).1] at hnext
          exact ⟨b.stop, (Option.some.inj hnext).symm, ⟨as ++ [b], cs, by simp, hcs⟩, hroom⟩
  · cases hnext

/-- A round of the loop that advances `lfree` leads from a block to the next one. -/
theorem Shape.lfreeNext_rises (h : Shape σ bs) (ho : AtHeader bs σ.endOff o)
    (hnext : lfreeNext σ (σ.ptr o) = some p) :
    ∃ o', p = σ.ptr o' ∧ AtHeader bs σ.endOff o' ∧ o < o' := by
  obtain ⟨as, cs, rfl, ht⟩ := ho
  unfold lfreeNext at hnext
  split at hnext
  · next htest =>
    cases cs with
    | nil =>
        have ho : o = σ.endOff := ht
        exact absurd (by rw [ho, h.geometry.heapEnd]) htest.2
    | cons b cs =>
        obtain ⟨rfl, hroom, hcs⟩ := ht
        rw [(h.hdr_ptr (b := b) (by simp)).1] at hnext
        exact ⟨b.stop, (Option.some.inj hnext).symm, ⟨as ++ [b], cs, by simp, hcs⟩, hroom⟩
  · cases hnext

theorem Shape.climbs_search (h : Shape σ bs) (ho : AtHeader bs σ.endOff o)
    (hsize : size.toNat ≤ σ.memSizeAligned.toNat) :
    Climbs (searchNext size σ) BitVec.toNat (BitVec.ofNat 32 o) := by
  apply climbs_of_invariant (P := fun ptr => ∃ o, ptr = BitVec.ofNat 32 o ∧
    AtHeader bs σ.endOff o) (t := σ.endOff) ⟨o, rfl, ho⟩
  · rintro b c ⟨o, rfl, ho⟩ hnext
    obtain ⟨o', rfl, ho', hlt⟩ := h.searchNext_rises ho hsize hnext
    refine ⟨⟨o', rfl, ho'⟩, ?_⟩
    rw [h.geometry.toNat_ofNat ho.le, h.geometry.toNat_ofNat ho'.le]
    exact hlt
  · rintro b ⟨o, rfl, ho⟩
    rw [h.geometry.toNat_ofNat ho.le]
    exact ho.le

theorem Shape.climbs_lfree (h : Shape σ bs) (ho : AtHeader bs σ.endOff o) :
    Climbs (lfreeNext σ) (fun lfree => (lfree - σ.heapPtr).toNat) (σ.ptr o) := by
  apply climbs_of_invariant (P := fun p => ∃ o, p = σ.ptr o ∧ AtHeader bs σ.endOff o)
    (t := σ.endOff) ⟨o, rfl, ho⟩
  · rintro b c ⟨o, rfl, ho⟩ hnext
    obtain ⟨o', rfl, ho', hlt⟩ := h.lfreeNext_rises ho hnext
    refine ⟨⟨o', rfl, ho'⟩, ?_⟩
    rw [ptr_sub_heapPtr, ptr_sub_heapPtr, h.geometry.toNat_ofNat ho.le,
      h.geometry.toNat_ofNat ho'.le]
    exact hlt
  · rintro b ⟨o, rfl, ho⟩
    rw [ptr_sub_heapPtr, h.geometry.toNat_ofNat ho.le]
    exact ho.le

theorem searchSize_of_lt (h : (rtAlign n).toNat < 16) : (searchSize n).toNat = 16 := by
  have h16 : MIN_SIZE_ALIGNED.toNat = 16 := rfl
  unfold searchSize
  rw [if_pos (by rw [BitVec.lt_def, h16]; exact h), h16]

/-- If the heap is too small for the smallest block the bound of the search wraps, and the
search goes round at `heap_end`. -/
theorem Shape.not_stops_search (h : Shape σ bs) (ho : AtHeader bs σ.endOff o)
    (hsmall : σ.memSizeAligned.toNat < 16) (hsize : size.toNat = 16) (fuel : ℕ) :
    stops (searchNext size σ) fuel (BitVec.ofNat 32 o) = false := by
  have hend : σ.endOff = σ.memSizeAligned.toNat + 16 := rfl
  induction fuel generalizing o with
  | zero => rfl
  | succ fuel ih =>
      have hle := ho.le
      obtain ⟨as, cs, rfl, ht⟩ := ho
      have hlt : BitVec.ofNat 32 o < σ.memSizeAligned - size := by
        rw [BitVec.lt_def, h.geometry.toNat_ofNat hle, BitVec.toNat_sub, hsize]
        omega
      cases cs with
      | nil =>
          have ho : o = σ.endOff := ht
          have hnext : searchNext size σ (BitVec.ofNat 32 o) = some (BitVec.ofNat 32 o) := by
            have hlast : (σ.hdr (σ.ptr o)).used = 1 ∧
                (σ.hdr (σ.ptr o)).next = BitVec.ofNat 32 o := ho ▸ h.last
            unfold searchNext
            dsimp only
            rw [if_pos hlt, heapPtr_add_ofNat, hlast.1, hlast.2,
              if_neg fun htest => absurd htest.1 (by decide)]
          unfold stops
          rw [hnext]
          exact ih ⟨as, [], rfl, ht⟩
      | cons b cs =>
          obtain ⟨rfl, hroom, hcs⟩ := ht
          have hb : b ∈ as ++ b :: cs := by simp
          have hstop := h.stop_le hb
          have hnext : searchNext size σ (BitVec.ofNat 32 b.start) =
              some (BitVec.ofNat 32 b.stop) := by
            unfold searchNext
            dsimp only
            rw [if_pos hlt, heapPtr_add_ofNat, if_neg, (h.hdr_ptr hb).1]
            rw [h.fits_iff hb]
            rintro ⟨-, hfit⟩
            omega
          unfold stops
          rw [hnext]
          exact ih ⟨as ++ [b], cs, by simp, hcs⟩

/-- The loops of `malloc(n)` end unless the heap is smaller than the smallest block and the
request passes the test against its size. -/
theorem Arena.searchEnds_iff (h : Arena σ bs f) :
    σ.SearchEnds n ↔ ¬(0 < σ.heapSem ∧ n ≠ 0 ∧ rtAlign n ≤ σ.memSizeAligned ∧
      σ.memSizeAligned < MIN_SIZE_ALIGNED) := by
  obtain ⟨as, cs, hsplit, htiles, -⟩ := h.exists_from
  have hat : AtHeader bs σ.endOff f := ⟨as, cs, hsplit, htiles⟩
  have h16 : MIN_SIZE_ALIGNED.toNat = 16 := rfl
  have hgeo := h.shape.geometry.room
  unfold Heap.SearchEnds
  rw [h.lfree, ptr_sub_heapPtr]
  constructor
  · rintro hends ⟨hsem, hzero, hfit, hsmall⟩
    obtain ⟨⟨-, fuel, hstops⟩, -⟩ := hends hsem hzero hfit
    rw [BitVec.le_def] at hfit
    rw [BitVec.lt_def, h16] at hsmall
    rw [h.shape.not_stops_search hat hsmall (searchSize_of_lt (by omega))] at hstops
    cases hstops
  · intro hnot hsem hzero hfit
    have hle := BitVec.le_def.mp hfit
    have hsmall : (rtAlign n).toNat + 32 < 2 ^ 32 := by omega
    obtain ⟨hroom, hal, -, -⟩ := toNat_searchSize hsmall
    have hsize : (searchSize n).toNat ≤ σ.memSizeAligned.toNat := by
      have hlarge := BitVec.not_lt.mp fun hsmall => hnot ⟨hsem, hzero, hfit, hsmall⟩
      unfold searchSize
      split
      · exact BitVec.le_def.mp hlarge
      · exact hle
    refine ⟨h.shape.climbs_search hat hsize, ?_⟩
    intro ptr fuel hfind hlow
    subst hsplit
    obtain ⟨ds, b, es, rfl, -, rfl, -⟩ := h.shape.findFree_some htiles hfind
    have h' : Shape σ ((as ++ ds) ++ b :: es) := by simpa using h.shape
    have hshape := h'.takeBlock hroom hal
    have hs : SameStatics σ (takeBlock (BitVec.ofNat 32 b.start) (searchSize n) σ) :=
      sameStatics_takeBlock
    have hclimbs := hshape.climbs_lfree ⟨as ++ ds, _, rfl, hshape.tiles_from_taken⟩
    rw [ptr_congr hs, hs.heapPtr] at hclimbs
    rw [← hlow]
    exact hclimbs

end Termination

/-! ## Runs -/

namespace HeapSys

/-- One event, where `realloc` and `free` may also be called with a null pointer. -/
def callStep (s : HeapSys) : HeapEvent → Option HeapSys
  | .realloc rmem newsize =>
    if rmem = 0 then
      (LuojiOs.realloc 0 newsize s.heap).toOption.map fun r =>
        ⟨r.2, give r.1 newsize.toNat s.live⟩
    else s.step (.realloc rmem newsize)
  | .free rmem =>
    if rmem = 0 then (LuojiOs.free 0 s.heap).toOption.map fun σ => ⟨σ, s.live⟩
    else s.step (.free rmem)
  | e => s.step e

end HeapSys

/-- `calloc` clears no more than the block it has got: the size can be aligned. -/
def HeapEvent.Clears : HeapEvent → Prop
  | .calloc count size => (count * size).toNat + 7 < 2 ^ 32
  | _ => True

instance : DecidablePred HeapEvent.Clears
  | .calloc count size => inferInstanceAs (Decidable ((count * size).toNat + 7 < 2 ^ 32))
  | .malloc _ => inferInstanceAs (Decidable True)
  | .realloc _ _ => inferInstanceAs (Decidable True)
  | .free _ => inferInstanceAs (Decidable True)
  | .store _ _ _ => inferInstanceAs (Decidable True)

section Runs

variable {s s' : HeapSys} {bs : List Block} {f : ℕ} {e : HeapEvent}

theorem HeapEvent.Clears.grants (h : e.Clears) : e.Grants fun _ _ => True := by
  cases e with
  | calloc count size => exact ⟨h, fun _ _ _ => trivial⟩
  | malloc _ => exact fun _ _ _ => trivial
  | realloc _ _ => exact fun _ _ _ => trivial
  | free _ => trivial
  | store _ _ _ => trivial

theorem Holds.freeNull {P : Live → Block → Prop} {σ : Heap} (h : Holds P s bs f)
    (hr : LuojiOs.free 0 s.heap = .ok σ) : Holds P ⟨σ, s.live⟩ bs f := by
  obtain ⟨-, ⟨-, rfl⟩ | ⟨hnull, -⟩⟩ := free_cases hr
  · exact ⟨h.arena.locked, h.nodup, h.live⟩
  · exact absurd rfl hnull

theorem Holds.callStep (h : Holds (fun _ _ => True) s bs f) (he : e.Clears)
    (hs : s.callStep e = some s') : ∃ bs' f', Holds (fun _ _ => True) s' bs' f' := by
  cases e with
  | malloc _ => exact h.step he.grants hs
  | calloc _ _ => exact h.step he.grants hs
  | store _ _ _ => exact h.step he.grants hs
  | realloc rmem newsize =>
      simp only [HeapSys.callStep] at hs
      split at hs
      · obtain ⟨r, hr, rfl⟩ := HeapSys.toOption_map_eq_some hs
        cases realloc_cases hr with
        | large _ => exact ⟨bs, f, h⟩
        | zero _ hfree => exact ⟨bs, f, h.freeNull hfree⟩
        | null _ _ _ hmalloc =>
            have hpos := Holds.sixteen_le_searchSize (rtAlign newsize)
            exact h.allocates (by omega) (fun _ _ _ => trivial) (h.arena.leaves_malloc hmalloc)
        | keep _ _ hnull _ _ => exact absurd rfl hnull
        | shrink _ _ hnull _ _ _ _ _ => exact absurd rfl hnull
        | move _ _ hnull _ _ _ _ _ => exact absurd rfl hnull
      · exact h.step he.grants hs
  | free rmem =>
      simp only [HeapSys.callStep] at hs
      split at hs
      · obtain ⟨σ, hr, rfl⟩ := HeapSys.toOption_map_eq_some hs
        exact ⟨bs, f, h.freeNull hr⟩
      · exact h.step he.grants hs

/-- In every heap that calls lead to, whatever range it was set up in, the loops of `malloc`
end for all requests but those that the heap is too small for. -/
theorem mallocSearch_ends_iff
    (h : Runs.Reach HeapSys.callStep (fun _ e => e.Clears) HeapSys.Fresh s) (n : BitVec 32) :
    s.heap.SearchEnds n ↔ ¬(0 < s.heap.heapSem ∧ n ≠ 0 ∧ rtAlign n ≤ s.heap.memSizeAligned ∧
      s.heap.memSizeAligned < MIN_SIZE_ALIGNED) := by
  have hheld : ∃ bs f, Holds (fun _ _ => True) s bs f := by
    refine h.invariant (P := fun s => ∃ bs f, Holds (fun _ _ => True) s bs f) ?_ ?_
    · intro s hfresh
      exact Holds.of_fresh hfresh
    · rintro s e s' ⟨bs, f, hs⟩ he hstep
      exact hs.callStep he hstep
  obtain ⟨bs, f, hheld⟩ := hheld
  exact hheld.arena.searchEnds_iff

end Runs

/-- A block is given out and given back. -/
theorem mallocSearch_ends_freed :
    ∃ s, smallSys.bind (fun s => Runs.runChecked HeapSys.callStep
        (fun _ e => decide e.Clears) s [.malloc 20, .realloc 0 16, .free 0x1010]) = some s ∧
      s.heap.SearchEnds 100 := by
  obtain ⟨s, hs, hsize⟩ := Runs.exists_of_any (show (smallSys.bind fun s =>
      Runs.runChecked HeapSys.callStep (fun _ e => decide e.Clears) s
        [.malloc 20, .realloc 0 16, .free 0x1010]).any
      (fun s => decide (s.heap.memSizeAligned = 224)) = true by decide)
  obtain ⟨s₀, hs₀, hrun⟩ := Option.bind_eq_some_iff.mp hs
  have hstart : Runs.Reach HeapSys.callStep (fun _ e => decide e.Clears = true)
      HeapSys.Fresh s₀ := .start (fresh_smallSys hs₀)
  have hreach := (hstart.of_runChecked hrun).mono fun _ _ he => of_decide_eq_true he
  refine ⟨s, hs, (mallocSearch_ends_iff hreach 100).mpr ?_⟩
  rintro ⟨-, -, -, hsmall⟩
  rw [of_decide_eq_true hsize] at hsmall
  revert hsmall
  decide

/-- The heaps of 8 bytes and of none: a request for one byte, and one that is aligned to
zero. -/
theorem mallocSearch_endless :
    (∃ σ, rtSystemHeapInit (fun _ => 0) 0x1000 0x1028 = some σ ∧ ¬σ.SearchEnds 1) ∧
      ∃ σ, rtSystemHeapInit (fun _ => 0) 0x1000 0x1020 = some σ ∧ ¬σ.SearchEnds 0xffffffff := by
  constructor
  · obtain ⟨σ, hσ, hvalues⟩ := Runs.exists_of_any (show
      (rtSystemHeapInit (fun _ => 0) 0x1000 0x1028).any (fun σ => decide
        (0 < σ.heapSem ∧ rtAlign 1 ≤ σ.memSizeAligned ∧
          σ.memSizeAligned < MIN_SIZE_ALIGNED)) = true by decide)
    obtain ⟨hsem, hfit, hsmall⟩ := of_decide_eq_true hvalues
    refine ⟨σ, hσ, fun hends => (arena_init hσ).searchEnds_iff.mp hends ?_⟩
    exact ⟨hsem, by decide, hfit, hsmall⟩
  · obtain ⟨σ, hσ, hvalues⟩ := Runs.exists_of_any (show
      (rtSystemHeapInit (fun _ => 0) 0x1000 0x1020).any (fun σ => decide
        (0 < σ.heapSem ∧ rtAlign 0xffffffff ≤ σ.memSizeAligned ∧
          σ.memSizeAligned < MIN_SIZE_ALIGNED)) = true by decide)
    obtain ⟨hsem, hfit, hsmall⟩ := of_decide_eq_true hvalues
    refine ⟨σ, hσ, fun hends => (arena_init hσ).searchEnds_iff.mp hends ?_⟩
    exact ⟨hsem, by decide, hfit, hsmall⟩

end LuojiOs
