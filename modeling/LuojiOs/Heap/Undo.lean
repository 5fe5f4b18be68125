import LuojiOs.Heap.Search

/-!
# `free` undoes `malloc`

In a well-formed heap the neighbours of a free block are used.  So a block that `malloc` has
given out, split or whole, becomes the free block it was made of when it is given back.
-/

namespace LuojiOs

open Tiling

/-! ## The block list -/

section Lists

variable {as bs cs es bs' : List Block} {b d : Block} {e f f' g n o : ℕ}

/-- `malloc` gives out the first of the blocks that it makes of a free one. -/
theorem exists_taken (n : ℕ) (b : Block) :
    ∃ d es, taken n b = d :: es ∧ d.start = b.start ∧ d.used = true := by
  unfold taken
  split
  · exact ⟨_, _, rfl, rfl, rfl⟩
  · exact ⟨_, _, rfl, rfl, rfl⟩

/-- Giving the block back joins it with the rest of the block it was made of, and with no
other. -/
theorem Plugged.of_taken (hchain : (as ++ b :: cs).IsChain Parted) (hb : b.used = false)
    (htaken : taken n b ++ cs = d :: es)
    (hplug : Plugged as ⟨d.start, d.stop, false⟩ es g bs' f') : bs' = as ++ b :: cs := by
  obtain ⟨-, hlast, hhead, -⟩ := (isChain_free hb).mp hchain
  obtain ⟨b₁, ds, f₁, ls, b₂, hnext, hprev, rfl⟩ := hplug.exists_joins
  have hleft : ls = as ∧ b₂ = b₁ := by
    cases hprev with
    | keep _ => exact ⟨rfl, rfl⟩
    | join ha => simp [hlast _ (List.getLast?_concat ..)] at ha
  have hright : b₁ = b ∧ ds = cs := by
    obtain ⟨start, stop, used⟩ := b
    obtain rfl : used = false := hb
    unfold taken at htaken
    split at htaken
    · obtain ⟨rfl, rfl⟩ := List.cons.inj htaken
      cases hnext with
      | keep hused => exact absurd (hused _ rfl) (by simp)
      | join _ => exact ⟨rfl, rfl⟩
    · obtain ⟨rfl, rfl⟩ := List.cons.inj htaken
      cases hnext with
      | keep _ => exact ⟨rfl, rfl⟩
      | join hc => simp [hhead _ rfl] at hc
  rw [hleft.1, hleft.2, hright.1, hright.2]

/-- The lowest free block is determined by the blocks. -/
theorem Tidy.lowest_unique (h : Tidy bs f) (h' : Tidy bs f')
    (ht : Tiles Block.start Block.stop o bs e) (hf : FreeSpot e bs f)
    (hf' : FreeSpot e bs f') : f = f' := by
  rcases hf with rfl | ⟨b, hb, hfree, rfl⟩
  · rcases hf' with rfl | ⟨c, hc, hcfree, rfl⟩
    · rfl
    · have := h.lowest c hc hcfree
      have := ht.mem_bounds hc
      omega
  · have hle := h'.lowest b hb hfree
    rcases hf' with rfl | ⟨c, hc, hcfree, rfl⟩
    · have := ht.mem_bounds hb
      omega
    · exact Nat.le_antisymm (h.lowest c hc hcfree) hle

end Lists

/-! ## `used_mem` -/

/-- The bytes that the statistics count for the block at `mem`. -/
def Heap.sizeAt (mem : BitVec 32) (σ : Heap) : BitVec 32 :=
  (σ.hdr mem).next - (mem - σ.heapPtr)

section Used

variable {σ σ' : Heap} {as bs : List Block} {b d : Block} {f : ℕ} {size n p mem : BitVec 32}
  {r : BitVec 32 × Heap}

theorem Shape.sizeAt_ptr (h : Shape σ bs) (hb : b ∈ bs) :
    σ.sizeAt (σ.ptr b.start) = BitVec.ofNat 32 b.stop - BitVec.ofNat 32 b.start := by
  unfold Heap.sizeAt
  rw [(h.hdr_ptr hb).1, ptr_sub_heapPtr]

theorem usedMem_splitBlock {ptr : BitVec 32} (take : Bool) :
    (splitBlock ptr size take σ).usedMem = σ.usedMem := by
  have hheaders : (splitHeaders ptr size take σ).usedMem = σ.usedMem := by
    cases take <;> rfl
  rw [LuojiOs.splitBlock_eq]
  dsimp only
  split
  · exact hheaders
  · exact hheaders

theorem usedMem_setMagic (v : BitVec 16) : (σ.setMagic mem v).usedMem = σ.usedMem := rfl

theorem usedMem_countUsed (k : BitVec 32) : (σ.countUsed k).usedMem = σ.usedMem + k := rfl

/-- `malloc` counts the size that the block has when it is given out. -/
theorem Shape.usedMem_takeBlock (h : Shape σ (as ++ b :: bs))
    (hsize : size.toNat + 32 < 2 ^ 32) (hal : size.toNat % 8 = 0) :
    (LuojiOs.takeBlock (BitVec.ofNat 32 b.start) size σ).usedMem = σ.usedMem +
      (LuojiOs.takeBlock (BitVec.ofNat 32 b.start) size σ).sizeAt (σ.ptr b.start) := by
  have hshape := h.takeBlock hsize hal
  have hs : SameStatics σ (LuojiOs.takeBlock (BitVec.ofNat 32 b.start) size σ) :=
    sameStatics_takeBlock
  obtain ⟨d, es, htaken, hstart, -⟩ := exists_taken size.toNat b
  have hcounted := hshape.sizeAt_ptr (b := d) (by simp [htaken])
  rw [ptr_congr hs, hstart] at hcounted
  rw [hcounted, h.takeBlock_eq hsize]
  unfold taken at htaken
  split at htaken
  · next hfit =>
    obtain ⟨rfl, -⟩ := List.cons.inj htaken
    rw [if_pos hfit]
    have hcount : BitVec.ofNat 32 (b.start + 16 + size.toNat) - BitVec.ofNat 32 b.start =
        size + SIZEOF_STRUCT_MEM := by
      have h16 : SIZEOF_STRUCT_MEM = BitVec.ofNat 32 16 := rfl
      rw [Nat.add_assoc, BitVec.ofNat_add, BitVec.ofNat_add, BitVec.ofNat_toNat,
        BitVec.setWidth_eq, h16, BitVec.add_comm, BitVec.add_sub_cancel, BitVec.add_comm]
    dsimp only
    rw [hcount, usedMem_setMagic, usedMem_countUsed, usedMem_splitBlock]
  · next hfit =>
    obtain ⟨rfl, -⟩ := List.cons.inj htaken
    rw [if_neg hfit]
    have hnext : ((σ.setUsed (σ.ptr b.start) 1).hdr (σ.ptr b.start)).next =
        BitVec.ofNat 32 b.stop := by
      rw [hdr_setUsed]
      exact (h.hdr_ptr (by simp)).1
    rw [hnext, ptr_sub_heapPtr]
    rfl

theorem usedMem_moveLfree (h : moveLfree mem σ = .ok σ') :
    σ'.usedMem = σ.usedMem ∧ σ'.bytes = σ.bytes := by
  rcases moveLfree_cases h with ⟨-, rfl⟩ | ⟨f, -, -, rfl⟩
  · exact ⟨rfl, rfl⟩
  · exact ⟨rfl, rfl⟩

theorem usedMem_plugHoles (h : plugHoles mem σ = .ok σ') : σ'.usedMem = σ.usedMem := by
  obtain ⟨-, -, -, rfl⟩ := plugHoles_cases h
  have hforward : (LuojiOs.plugForward mem σ).usedMem = σ.usedMem := by
    unfold LuojiOs.plugForward
    dsimp only
    split
    · split <;> rfl
    · rfl
  have hbackward : ∀ τ, (LuojiOs.plugBackward mem τ).usedMem = τ.usedMem := by
    intro τ
    unfold LuojiOs.plugBackward
    dsimp only
    split
    · split <;> rfl
    · rfl
  rw [hbackward, hforward]

theorem usedMem_releaseBlock :
    (LuojiOs.releaseBlock mem σ).usedMem = σ.usedMem - σ.sizeAt mem := by
  have hnext : ∀ τ : Heap, τ.hdr mem = ((σ.setUsed mem 0).setMagic mem HEAP_MAGIC).hdr mem →
      τ.heapPtr = σ.heapPtr → τ.usedMem = σ.usedMem →
      (τ.countFreed ((τ.hdr mem).next - (mem - τ.heapPtr))).usedMem =
        σ.usedMem - σ.sizeAt mem := by
    intro τ hhdr hptr hused
    unfold Heap.countFreed Heap.sizeAt
    rw [hhdr, hptr, hused, hdr_setMagic, hdr_setUsed]
  unfold LuojiOs.releaseBlock
  dsimp only
  split
  · exact hnext _ rfl rfl rfl
  · exact hnext _ rfl rfl rfl

theorem usedMem_free (h : LuojiOs.free p σ = .ok σ') (hp : p ≠ 0) :
    σ'.usedMem = σ.usedMem - σ.sizeAt (p - SIZEOF_STRUCT_MEM) := by
  obtain ⟨-, ⟨hzero, -⟩ | ⟨-, -, -, σ₁, hplug, rfl⟩⟩ := free_cases h
  · exact absurd hzero hp
  · exact (usedMem_plugHoles hplug).trans usedMem_releaseBlock

theorem Arena.usedMem_malloc (h : Arena σ bs f) (hr : LuojiOs.malloc n σ = .ok r)
    (hp : r.1 ≠ 0) : r.2.usedMem = σ.usedMem + r.2.sizeAt (r.1 - SIZEOF_STRUCT_MEM) := by
  obtain ⟨-, ⟨-, rfl⟩ | ⟨-, hle, hr⟩⟩ := malloc_cases hr
  · exact absurd rfl hp
  · have hgeo := h.shape.geometry.room
    have hlocked := h.locked
    rw [BitVec.le_def] at hle
    have hsmall : (rtAlign n).toNat + 32 < 2 ^ 32 := by omega
    obtain ⟨hroom, hal, -, -⟩ := toNat_searchSize hsmall
    rcases mallocAligned_cases hr with ⟨-, rfl⟩ | ⟨ptr, σ₁, hfind, hmove, rfl⟩
    · exact absurd rfl hp
    · obtain ⟨as, cs, rfl, htiles, -⟩ := hlocked.exists_from
      rw [hlocked.lfree, ptr_sub_heapPtr] at hfind
      obtain ⟨ds, b, es, rfl, -, rfl, -⟩ := hlocked.shape.findFree_some htiles hfind
      have hshape : Shape σ.locked ((as ++ ds) ++ b :: es) := by simpa using hlocked.shape
      obtain ⟨hused, hbytes⟩ := usedMem_moveLfree hmove
      have htake := hshape.usedMem_takeBlock hroom hal
      rw [heapPtr_add_ofNat, ptr_add_header, ptr_sub_header]
      have hsame : (releaseHeapSem σ₁).sizeAt (σ.ptr b.start) =
          (LuojiOs.takeBlock (BitVec.ofNat 32 b.start) (searchSize n) σ.locked).sizeAt
            (σ.ptr b.start) := by
        have hptr : (releaseHeapSem σ₁).heapPtr = (LuojiOs.takeBlock (BitVec.ofNat 32 b.start)
            (searchSize n) σ.locked).heapPtr := (sameStatics_moveLfree hmove).heapPtr
        have hhdr : (releaseHeapSem σ₁).hdr (σ.ptr b.start) = (LuojiOs.takeBlock
            (BitVec.ofNat 32 b.start) (searchSize n) σ.locked).hdr (σ.ptr b.start) :=
          hdr_congr fun i _ => congrFun hbytes _
        unfold Heap.sizeAt
        rw [hhdr, hptr]
      exact hused.trans (htake.trans (congrArg (σ.usedMem + ·) hsame.symm))

end Used

/-! ## `free` returns -/

section Returns

variable {σ : Heap} {as bs : List Block} {b : Block} {f : ℕ}

theorem Shape.exists_plugHoles {p : BitVec 32} (h : Shape σ (as ++ b :: bs))
    (hb : b.used = false) (hp : p = σ.ptr b.start) : ∃ σ', LuojiOs.plugHoles p σ = .ok σ' := by
  subst hp
  have hmem : b ∈ as ++ b :: bs := by simp
  have hroom := h.room_of_mem hmem
  have hle := h.stop_le hmem
  refine ⟨LuojiOs.plugBackward (σ.ptr b.start) (LuojiOs.plugForward (σ.ptr b.start) σ), ?_⟩
  unfold LuojiOs.plugHoles
  simp only [bind_eq_ok_iff, rtAssert_eq_ok_iff]
  refine ⟨(), ?_, (), ?_, (), (h.hdr_ptr hmem).2.mpr hb, rfl⟩
  · rw [BitVec.le_def, h.geometry.toNat_ptr (by omega)]
    omega
  · rw [h.geometry.heapEnd, h.geometry.ptr_lt (by omega) (Nat.le_refl _)]
    omega

/-- `free` returns for the payload of a used block if the lock is free. -/
theorem Arena.exists_free (h : Arena σ (as ++ b :: bs) f) (hb : b.used = true)
    (hroom : b.start + 16 < b.stop) (hsem : 0 < σ.heapSem) :
    ∃ σ', LuojiOs.free (σ.ptr (b.start + 16)) σ = .ok σ' := by
  have hmem : b ∈ as ++ b :: bs := by simp
  have hle := h.shape.stop_le hmem
  have hal := h.shape.aligned b hmem
  have hbase := h.shape.geometry.base
  have hnat := h.shape.geometry.toNat_ptr (show b.start + 16 ≤ σ.endOff by omega)
  have hnull : σ.ptr (b.start + 16) ≠ 0 := h.shape.geometry.ptr_ne_zero (by omega)
  have hlo : σ.heapPtr ≤ σ.ptr (b.start + 16) := by
    rw [BitVec.le_def, hnat]
    omega
  have hhi : σ.ptr (b.start + 16) < σ.heapEnd := by
    rw [h.shape.geometry.heapEnd, h.shape.geometry.ptr_lt (by omega) (Nat.le_refl _)]
    omega
  have hand : σ.ptr (b.start + 16) &&& (8 - 1) = 0 := by
    apply BitVec.eq_of_toNat_eq
    rw [toNat_and_seven, hnat]
    exact show (σ.heapPtr.toNat + (b.start + 16)) % 8 = 0 by omega
  have hrel := h.locked.releaseBlock
  have hs : SameStatics σ.locked (LuojiOs.releaseBlock (σ.ptr b.start) σ.locked) :=
    sameStatics_releaseBlock
  have hptr : (LuojiOs.releaseBlock (σ.ptr b.start) σ.locked).ptr b.start =
      σ.locked.ptr b.start := ptr_congr hs
  obtain ⟨σ', hplug⟩ := hrel.shape.exists_plugHoles rfl hptr.symm
  obtain ⟨p, hoff⟩ := h.shape.off_of_mem hmem
  have hhdr : σ.hdr (σ.ptr b.start) = b.header p := hoff
  refine ⟨releaseHeapSem σ', ?_⟩
  unfold LuojiOs.free
  rw [bind_eq_ok_iff]
  refine ⟨σ.locked, takeHeapSem_eq_ok_iff.mpr ⟨hsem, rfl⟩, ?_⟩
  rw [if_neg hnull]
  simp only [bind_eq_ok_iff, rtAssert_eq_ok_iff]
  refine ⟨(), hand, (), ⟨hlo, hhi⟩, ?_⟩
  rw [if_neg (by rintro (hlt | hge)
                 · exact absurd hlo (BitVec.not_le.mpr hlt)
                 · exact absurd hhi (BitVec.not_lt.mpr hge))]
  simp only [bind_eq_ok_iff, rtAssert_eq_ok_iff, ptr_sub_header]
  refine ⟨(), ?_, (), ?_, σ', hplug, rfl⟩
  · change (σ.hdr (σ.ptr b.start)).used ≠ 0
    rw [Ne, (h.shape.hdr_ptr hmem).2, hb]
    decide
  · change (σ.hdr (σ.ptr b.start)).magic = HEAP_MAGIC
    rw [hhdr]
    rfl

end Returns

/-! ## The pair of calls -/

/-- The heap `σ'` has the blocks of `σ` with the same headers, and the same `lfree` and
`used_mem`.  The `prev` of `heap_end` may differ. -/
structure Heap.SameBlocks (σ σ' : Heap) : Prop where
  blocks : σ'.blocks = σ.blocks
  headers : ∀ b ∈ σ.blocks, σ'.off b.start = σ.off b.start
  last : (σ'.off σ.endOff).used = (σ.off σ.endOff).used ∧
    (σ'.off σ.endOff).next = (σ.off σ.endOff).next
  lfree : σ'.lfree = σ.lfree
  usedMem : σ'.usedMem = σ.usedMem

/-- The headers of the blocks are determined by the list. -/
theorem Shape.off_eq {σ σ' : Heap} {bs : List Block} {b : Block} (h : Shape σ bs)
    (h' : Shape σ' bs) (hb : b ∈ bs) : σ'.off b.start = σ.off b.start := by
  obtain ⟨as, cs, rfl⟩ := List.append_of_mem hb
  rw [(chain_append_cons.mp h.chain).2.1, (chain_append_cons.mp h'.chain).2.1]

/-- A block that `malloc` gives out is given back. -/
theorem free_undoes_malloc {σ σ₁ : Heap} {n p : BitVec 32} (hw : σ.WellFormed)
    (hr : malloc n σ = .ok (p, σ₁)) (hp : p ≠ 0) :
    ∃ σ₂, free p σ₁ = .ok σ₂ ∧ σ.SameBlocks σ₂ := by
  have hsem : 0 < σ₁.heapSem := by
    obtain ⟨hpos, ⟨-, hnone⟩ | ⟨hzero, hle, -⟩⟩ := malloc_cases hr
    · exact absurd (congrArg Prod.fst hnone) hp
    · have hbalanced := malloc_balanced (by
        rintro ⟨-, hz | hlarge⟩
        · exact hzero hz
        · exact absurd hle (BitVec.not_le.mpr hlarge)) hr
      have hbalanced' : σ₁.heapSem = σ.heapSem := hbalanced
      rw [hbalanced']
      exact hpos
  have hw' := hw
  obtain ⟨f, h, ht⟩ := hw'
  have hused := h.usedMem_malloc hr hp
  have hw₁ : σ₁.WellFormed := wellFormed_malloc hw h hr
  generalize hbs : σ.blocks = bs at h ht
  cases h.malloc hr with
  | none _ _ _ => exact absurd rfl hp
  | @some _ as cs b f₁ hsplit hfree hfit hnext harena hplace hkeeps =>
      subst hsplit
      obtain ⟨d, es, htaken, hstart, hdused⟩ := exists_taken (searchSize n).toNat b
      rw [htaken, List.cons_append] at harena
      have hdmem : d ∈ as ++ d :: (es ++ cs) := by simp
      have hd16 := (hw₁.tidy harena).room d hdmem
      have hptr : σ.ptr (b.start + 16) = σ₁.ptr (d.start + 16) := by
        rw [hplace.ptr_eq, hstart]
      obtain ⟨σ₂, hfreed⟩ := harena.exists_free hdused (by omega) hsem
      obtain ⟨bs', f', hplug, harena₂, hplace₂, -⟩ := harena.free hfreed
      have htaken' : taken (searchSize n).toNat b ++ cs = d :: (es ++ cs) := by
        rw [htaken, List.cons_append]
      obtain rfl := hplug.of_taken ht.parted hfree htaken'
      have hw₂ := wellFormed_of_plugged harena.shape.tiles (hw₁.tidy harena) hdused hplug harena₂
      have hend : σ₂.endOff = σ.endOff := hplace₂.endOff_eq.trans hplace.endOff_eq
      have hspot := harena₂.spot
      rw [hend] at hspot
      have hf := ht.lowest_unique (hw₂.tidy harena₂) h.shape.tiles h.spot hspot
      have hblocks : σ₂.blocks = σ.blocks := harena₂.shape.blocks_eq.trans hbs.symm
      refine ⟨σ₂, by rw [hptr]; exact hfreed, hblocks, ?_, ?_, ?_, ?_⟩
      · rw [hbs]
        intro c hc
        exact h.shape.off_eq harena₂.shape hc
      · have hlast := harena₂.shape.last
        rw [hend] at hlast
        rw [hlast.1, hlast.2, h.shape.last.1, h.shape.last.2]
        exact ⟨rfl, rfl⟩
      · rw [harena₂.lfree, ← hf, h.lfree, hplace₂.ptr_eq, hplace.ptr_eq]
      · rw [hptr] at hp hused
        have hback := usedMem_free hfreed hp
        rw [hback]
        dsimp only at hused
        rw [hused, BitVec.add_sub_cancel]

/-- A block is split off the heap of 224 bytes and given back. -/
theorem free_undoes_malloc_small :
    ∃ σ p σ₁ σ₂, smallHeap = some σ ∧ malloc 20 σ = .ok (p, σ₁) ∧ free p σ₁ = .ok σ₂ ∧
      σ.SameBlocks σ₂ := by
  obtain ⟨σ, hσ, hsem, hsize, hw, hblocks, -⟩ := smallHeap_blocks
  obtain ⟨σ', hσ', hr⟩ := Runs.exists_of_any (show smallHeap.any (fun σ =>
    (malloc 20 σ).toOption.any fun r => r.1 ≠ 0) = true by decide)
  obtain rfl := Option.some.inj (hσ.symm.trans hσ')
  obtain ⟨⟨p, σ₁⟩, hr, hnull⟩ := Runs.exists_of_any hr
  have hmalloc := HeapSys.ok_of_toOption hr
  obtain ⟨σ₂, hfree, hsame⟩ := free_undoes_malloc hw hmalloc (of_decide_eq_true hnull)
  exact ⟨σ, p, σ₁, σ₂, hσ, hmalloc, hfree, hsame⟩

end LuojiOs
