import LuojiOs.Heap.Undo
import Mathlib.Data.Set.Insert
import Mathlib.Order.Bounds.Defs

/-!
# Memory accounting

The calls count the bytes in use in four ways: by the size they cut off, by the extent of a
block, by the difference of two sizes and by the extent of the block before it is joined.
They agree with the blocks: `used_mem` is the extent of the used ones, headers included, and
`max_mem` is the largest value that `used_mem` has had.
-/

namespace LuojiOs

open Tiling

/-- `rt_memory_info`, where the flags say which of the pointers are not `RT_NULL`. -/
def rtMemoryInfo (total used maxUsed : Bool) (σ : Heap) :
    Option (BitVec 32) × Option (BitVec 32) × Option (BitVec 32) :=
  (if total then some σ.memSizeAligned else none, if used then some σ.usedMem else none,
    if maxUsed then some σ.maxMem else none)

/-! ## The extent of the used blocks -/

def Block.usedBytes (b : Block) : ℕ := if b.used then b.stop - b.start else 0

/-- The sum of `next` minus the offset over the used blocks. -/
def usedBytes (bs : List Block) : ℕ := (bs.map Block.usedBytes).sum

section UsedBytes

variable {as bs bs' cs : List Block} {b b' : Block} {e f f' n o : ℕ}

@[simp] theorem usedBytes_nil : usedBytes [] = 0 := rfl

@[simp] theorem usedBytes_cons : usedBytes (b :: bs) = b.usedBytes + usedBytes bs :=
  List.sum_cons

@[simp] theorem usedBytes_append : usedBytes (as ++ bs) = usedBytes as + usedBytes bs := by
  unfold usedBytes
  rw [List.map_append, List.sum_append]

theorem Block.usedBytes_of_free (h : b.used = false) : b.usedBytes = 0 :=
  if_neg (by simp [h])

theorem Block.usedBytes_of_used (h : b.used = true) : b.usedBytes = b.stop - b.start := if_pos h

theorem usedBytes_le (h : Tiles Block.start Block.stop o bs e) : o + usedBytes bs ≤ e := by
  induction bs generalizing o with
  | nil => exact Nat.le_of_eq h
  | cons b bs ih =>
      obtain ⟨rfl, hlt, hbs⟩ := h
      have hrest := ih hbs
      have hb : b.usedBytes ≤ b.stop - b.start := by
        unfold Block.usedBytes
        split <;> omega
      rw [usedBytes_cons]
      omega

theorem JoinNext.usedBytes_eq (h : JoinNext b f bs b' bs' f') :
    usedBytes bs' = usedBytes bs := by
  cases h with
  | keep _ => rfl
  | join hc => rw [usedBytes_cons, Block.usedBytes_of_free hc, Nat.zero_add]

theorem JoinPrev.usedBytes_eq (h : JoinPrev b f as bs b' f') : usedBytes bs = usedBytes as := by
  cases h with
  | keep _ => rfl
  | join ha => simp [Block.usedBytes_of_free ha]

/-- Joining free blocks does not matter. -/
theorem Plugged.usedBytes_eq (h : Plugged as b bs f bs' f') (hb : b.used = false) :
    usedBytes bs' = usedBytes as + usedBytes bs := by
  obtain ⟨b₁, cs, f₁, ds, b₂, hnext, hprev, rfl⟩ := h.exists_joins
  have hb₁ := (hnext.start_used hb).2
  have hb₂ : b₂.used = false := by
    cases hprev with
    | keep _ => exact hb₁
    | join _ => rfl
  rw [usedBytes_append, usedBytes_cons, Block.usedBytes_of_free hb₂, Nat.zero_add,
    hprev.usedBytes_eq, hnext.usedBytes_eq]

/-- The block that is given out is counted, and what is left of it is not. -/
theorem exists_usedBytes_taken (n : ℕ) (b : Block) :
    ∃ d es, taken n b = d :: es ∧ d.start = b.start ∧
      usedBytes (d :: es) = d.stop - d.start := by
  unfold taken
  split
  · exact ⟨_, _, rfl, rfl, by simp [Block.usedBytes]⟩
  · exact ⟨_, _, rfl, rfl, by simp [Block.usedBytes]⟩

theorem ofNat_extent {o k : ℕ} (h : o ≤ k) :
    BitVec.ofNat 32 k - BitVec.ofNat 32 o = BitVec.ofNat 32 (k - o) := by
  have hk : k = k - o + o := by omega
  rw [hk, BitVec.ofNat_add, BitVec.add_sub_cancel, Nat.add_sub_cancel]

end UsedBytes

/-! ## `max_mem` -/

section MaxMem

variable {σ σ' : Heap} {bs : List Block} {f : ℕ} {mem n p ptr size : BitVec 32}
  {r : BitVec 32 × Heap}

/-- The statistics of the two heaps are the same. -/
def Heap.SameStats (σ σ' : Heap) : Prop := σ'.usedMem = σ.usedMem ∧ σ'.maxMem = σ.maxMem

theorem maxMem_splitBlock (take : Bool) :
    (splitBlock ptr size take σ).maxMem = σ.maxMem := by
  have hheaders : (splitHeaders ptr size take σ).maxMem = σ.maxMem := by
    cases take <;> rfl
  rw [LuojiOs.splitBlock_eq]
  dsimp only
  split
  · exact hheaders
  · exact hheaders

theorem maxMem_takeBlock :
    (takeBlock ptr size σ).maxMem =
      if σ.maxMem < (takeBlock ptr size σ).usedMem then (takeBlock ptr size σ).usedMem
      else σ.maxMem := by
  have hcount : ∀ (τ : Heap) (k : BitVec 32), τ.maxMem = σ.maxMem →
      ((τ.countUsed k).setMagic (σ.heapPtr + ptr) HEAP_MAGIC).maxMem =
        if σ.maxMem < ((τ.countUsed k).setMagic (σ.heapPtr + ptr) HEAP_MAGIC).usedMem then
          ((τ.countUsed k).setMagic (σ.heapPtr + ptr) HEAP_MAGIC).usedMem else σ.maxMem := by
    intro τ k hτ
    rw [← hτ]
    rfl
  unfold takeBlock
  dsimp only
  split
  · exact hcount _ _ (maxMem_splitBlock true)
  · exact hcount _ _ rfl

theorem maxMem_moveLfree (h : moveLfree mem σ = .ok σ') : σ'.maxMem = σ.maxMem := by
  rcases moveLfree_cases h with ⟨-, rfl⟩ | ⟨f, -, -, rfl⟩
  · rfl
  · rfl

theorem maxMem_plugHoles (h : plugHoles mem σ = .ok σ') : σ'.maxMem = σ.maxMem := by
  obtain ⟨-, -, -, rfl⟩ := plugHoles_cases h
  have hforward : (plugForward mem σ).maxMem = σ.maxMem := by
    unfold plugForward
    dsimp only
    split
    · split <;> rfl
    · rfl
  have hbackward : ∀ τ, (plugBackward mem τ).maxMem = τ.maxMem := by
    intro τ
    unfold plugBackward
    dsimp only
    split
    · split <;> rfl
    · rfl
  rw [hbackward, hforward]

theorem maxMem_releaseBlock : (releaseBlock mem σ).maxMem = σ.maxMem := by
  unfold releaseBlock
  dsimp only
  split
  · rfl
  · rfl

theorem maxMem_free (h : free p σ = .ok σ') : σ'.maxMem = σ.maxMem := by
  obtain ⟨-, ⟨-, rfl⟩ | ⟨-, -, -, σ₁, hplug, rfl⟩⟩ := free_cases h
  · rfl
  · exact (maxMem_plugHoles hplug).trans maxMem_releaseBlock

/-- A `malloc` that returns `NULL` counts nothing; any other one brings `max_mem` up to
date. -/
theorem Arena.stats_malloc (h : Arena σ bs f) (hr : LuojiOs.malloc n σ = .ok r) :
    (r.1 = 0 → σ.SameStats r.2) ∧
      (r.1 ≠ 0 → r.2.maxMem = if σ.maxMem < r.2.usedMem then r.2.usedMem else σ.maxMem) := by
  obtain ⟨-, ⟨-, rfl⟩ | ⟨-, hle, hr⟩⟩ := malloc_cases hr
  · exact ⟨fun _ => ⟨rfl, rfl⟩, fun hne => absurd rfl hne⟩
  · rcases mallocAligned_cases hr with ⟨-, rfl⟩ | ⟨ptr, σ₁, hfind, hmove, rfl⟩
    · exact ⟨fun _ => ⟨rfl, rfl⟩, fun hne => absurd rfl hne⟩
    · have hmax : (releaseHeapSem σ₁).maxMem =
          if σ.maxMem < (releaseHeapSem σ₁).usedMem then (releaseHeapSem σ₁).usedMem
          else σ.maxMem := by
        change σ₁.maxMem = if σ.maxMem < σ₁.usedMem then σ₁.usedMem else σ.maxMem
        rw [maxMem_moveLfree hmove, (usedMem_moveLfree hmove).1]
        exact maxMem_takeBlock (σ := σ.locked)
      refine ⟨fun hnull => absurd hnull ?_, fun _ => hmax⟩
      -- the block lies in the heap, so that its payload is not at the address zero
      have hlocked := h.locked
      obtain ⟨as, cs, rfl, htiles, -⟩ := hlocked.exists_from
      rw [hlocked.lfree, ptr_sub_heapPtr] at hfind
      obtain ⟨ds, b, es, rfl, -, rfl, -⟩ := hlocked.shape.findFree_some htiles hfind
      have hmem : b ∈ as ++ (ds ++ b :: es) := by simp
      have hroom := h.shape.room_of_mem hmem
      have hstop := h.shape.stop_le hmem
      dsimp only
      rw [heapPtr_add_ofNat, ptr_add_header]
      exact h.shape.geometry.ptr_ne_zero (by omega)

end MaxMem

/-! ## What the calls count -/

/-- The heap has the blocks `bs`, and the statistics are those of the blocks. -/
structure Counted (σ : Heap) (bs : List Block) (f : ℕ) : Prop where
  arena : Arena σ bs f
  usedMem : σ.usedMem = BitVec.ofNat 32 (usedBytes bs)
  peak : σ.usedMem ≤ σ.maxMem

/-- `max_mem` becomes the greatest of what it was and of the values `vs` of `used_mem`. -/
def Heap.Records (σ : Heap) (vs : Set (BitVec 32)) (σ' : Heap) : Prop :=
  IsGreatest (insert σ.maxMem vs) σ'.maxMem

/-- More values are taken into account. -/
theorem isGreatest_union {s t : Set (BitVec 32)} {a b : BitVec 32} (h : IsGreatest s a)
    (h' : IsGreatest (insert a t) b) : IsGreatest (s ∪ t) b := by
  constructor
  · rcases h'.1 with rfl | hb
    · exact Or.inl h.1
    · exact Or.inr hb
  · rintro v (hv | hv)
    · exact BitVec.le_trans (h.2 hv) (h'.2 (Set.mem_insert a t))
    · exact h'.2 (Set.mem_insert_of_mem a hv)

theorem Heap.Records.trans {σ σ₁ σ₂ : Heap} {vs ws : Set (BitVec 32)} (h : σ.Records vs σ₁)
    (h' : σ₁.Records ws σ₂) : σ.Records (vs ∪ ws) σ₂ := by
  have hall := isGreatest_union h h'
  rwa [Set.insert_union] at hall

section Counted

variable {σ σ' : Heap} {as bs : List Block} {b : Block} {f : ℕ} {n newsize p : BitVec 32}
  {r : BitVec 32 × Heap}

theorem Shape.unique {bs' : List Block} (h : Shape σ bs) (h' : Shape σ bs') : bs = bs' :=
  h.blocks_eq.symm.trans h'.blocks_eq

theorem Counted.toNat_usedMem (h : Counted σ bs f) : σ.usedMem.toNat = usedBytes bs := by
  have hle := usedBytes_le h.arena.shape.tiles
  rw [h.usedMem, h.arena.shape.geometry.toNat_ofNat (by omega)]

/-- Counting bytes off keeps `used_mem` below `max_mem`. -/
theorem Counted.of_le {bs' : List Block} {f' : ℕ} (h : Counted σ bs f) (harena : Arena σ' bs' f')
    (hused : σ'.usedMem = BitVec.ofNat 32 (usedBytes bs')) (hmax : σ'.maxMem = σ.maxMem)
    (hle : usedBytes bs' ≤ usedBytes bs) : Counted σ' bs' f' ∧ σ.Records {σ'.usedMem} σ' := by
  have hbs' := usedBytes_le harena.shape.tiles
  have hnat : σ'.usedMem.toNat = usedBytes bs' := by
    rw [hused, harena.shape.geometry.toNat_ofNat (by omega)]
  have hpeak : σ'.usedMem ≤ σ'.maxMem := by
    rw [hmax]
    apply BitVec.le_trans ?_ h.peak
    rw [BitVec.le_def, hnat, h.toNat_usedMem]
    exact hle
  refine ⟨⟨harena, hused, hpeak⟩, ?_, ?_⟩
  · rw [hmax]
    exact Set.mem_insert _ _
  · rintro v (rfl | rfl)
    · exact BitVec.le_of_eq hmax.symm
    · exact hpeak

theorem Counted.same (h : Counted σ bs f) (harena : Arena σ' bs f) (hs : σ.SameStats σ') :
    Counted σ' bs f ∧ σ.Records {σ'.usedMem} σ' :=
  h.of_le harena (hs.1.trans h.usedMem) hs.2 (Nat.le_refl _)

theorem Counted.malloc (h : Counted σ bs f) (hr : LuojiOs.malloc n σ = .ok r) :
    ∃ bs' f', Counted r.2 bs' f' ∧ σ.Records {r.2.usedMem} r.2 := by
  have hstats := h.arena.stats_malloc hr
  have hused := h.arena.usedMem_malloc hr
  cases h.arena.malloc hr with
  | none harena hplace hbytes => exact ⟨bs, f, h.same harena (hstats.1 rfl)⟩
  | @some σ' as cs b f' hbs hfree hfit hnext harena hplace hkeeps =>
      have hbmem : b ∈ bs := by simp [hbs]
      have hroom := h.arena.shape.room_of_mem hbmem
      have hstop := h.arena.shape.stop_le hbmem
      have hnull : σ.ptr (b.start + 16) ≠ 0 := h.arena.shape.geometry.ptr_ne_zero (by omega)
      have hmax := hstats.2 hnull
      have hused := hused hnull
      dsimp only at hmax hused
      obtain ⟨d, es, htaken, hstart, hd⟩ := exists_usedBytes_taken (searchSize n).toNat b
      rw [htaken] at harena
      have hdlt := (harena.shape.tiles.mem_bounds (b := d) (by simp)).2.1
      have htotal : usedBytes (as ++ (d :: es ++ cs)) = usedBytes bs + (d.stop - d.start) := by
        rw [usedBytes_append, usedBytes_append, hd, hbs, usedBytes_append, usedBytes_cons,
          Block.usedBytes_of_free hfree]
        omega
      have hnew : σ'.usedMem = BitVec.ofNat 32 (usedBytes (as ++ (d :: es ++ cs))) := by
        rw [hused, ptr_sub_header, ← hstart, ← hplace.ptr_eq,
          harena.shape.sizeAt_ptr (by simp), ofNat_extent (Nat.le_of_lt hdlt), h.usedMem,
          htotal, BitVec.ofNat_add]
      refine ⟨_, f', ⟨harena, hnew, ?_⟩, ?_, ?_⟩
      · rw [hmax]
        split
        · exact BitVec.le_refl _
        · next hge => exact BitVec.not_lt.mp hge
      · rw [hmax]
        split
        · exact Set.mem_insert_of_mem _ rfl
        · exact Set.mem_insert _ _
      · rw [hmax]
        rintro v (rfl | rfl)
        · split
          · next hlt => exact BitVec.le_of_lt hlt
          · exact BitVec.le_refl _
        · split
          · exact BitVec.le_refl _
          · next hge => exact BitVec.not_lt.mp hge

theorem Counted.free (h : Counted σ (as ++ b :: bs) f) (hb : b.used = true)
    (hroom : b.start + 16 < b.stop)
    (hr : LuojiOs.free (σ.ptr (b.start + 16)) σ = .ok σ') :
    ∃ bs' f', Counted σ' bs' f' ∧ σ.Records {σ'.usedMem} σ' := by
  have hmem : b ∈ as ++ b :: bs := by simp
  have hstop := h.arena.shape.stop_le hmem
  obtain ⟨bs', f', hplug, harena, hplace, -⟩ := h.arena.free hr
  have htotal := hplug.usedBytes_eq rfl
  have hold : usedBytes (as ++ b :: bs) = usedBytes bs' + (b.stop - b.start) := by
    rw [htotal, usedBytes_append, usedBytes_cons, Block.usedBytes_of_used hb]
    omega
  have hused := usedMem_free hr (h.arena.shape.geometry.ptr_ne_zero (by omega))
  rw [ptr_sub_header, h.arena.shape.sizeAt_ptr hmem, ofNat_extent (by omega), h.usedMem, hold,
    BitVec.ofNat_add, BitVec.add_sub_cancel] at hused
  exact ⟨bs', f', h.of_le harena hused (maxMem_free hr) (by omega)⟩

/-- `realloc` cuts its block down. -/
theorem Counted.shrink {a : BitVec 32} (h : Counted σ (as ++ b :: bs) f) (hb : b.used = true)
    (hroom : b.start + 16 + a.toNat + 16 ≤ b.stop) (hal : a.toNat % 8 = 0)
    (hplug : LuojiOs.plugHoles (σ.rest (σ.ptr (b.start + 16)) a)
      (σ.locked.cut (σ.ptr (b.start + 16)) a) = .ok σ') :
    ∃ bs' f', Counted (releaseHeapSem σ') bs' f' ∧
      σ.Records {(releaseHeapSem σ').usedMem} (releaseHeapSem σ') := by
  have hmem : b ∈ as ++ b :: bs := by simp
  obtain ⟨hcut, -⟩ := h.arena.locked.cut hb hroom hal
  have hptr : σ.locked.ptr (b.start + 16) = σ.ptr (b.start + 16) := rfl
  rw [hptr, List.append_cons] at hcut
  have hs : SameStatics σ.locked (σ.locked.cut (σ.ptr (b.start + 16)) a) :=
    (sameStatics_countFreed _).trans (sameStatics_splitBlock false)
  have hrest : σ.rest (σ.ptr (b.start + 16)) a =
      (σ.locked.cut (σ.ptr (b.start + 16)) a).ptr (b.start + 16 + a.toNat) := by
    rw [ptr_congr hs]
    exact rest_ptr a
  obtain ⟨bs', f', hplugged, harena, -⟩ := hcut.plugHoles rfl hrest hplug
  have htotal := hplugged.usedBytes_eq rfl
  have hold : usedBytes (as ++ b :: bs) = usedBytes bs' + (b.stop - (b.start + 16 + a.toNat)) := by
    rw [htotal, usedBytes_append, usedBytes_append, usedBytes_cons, usedBytes_cons,
      Block.usedBytes_of_used hb, Block.usedBytes_of_used rfl, usedBytes_nil]
    dsimp only
    omega
  -- what `realloc` subtracts is the extent of the block that is cut off
  have hdiff : σ.payload (σ.ptr (b.start + 16)) - a =
      BitVec.ofNat 32 (b.stop - (b.start + 16 + a.toNat)) := by
    have hsize := h.arena.shape.toNat_payload hmem
    have hgeo := h.arena.shape.geometry.room
    have hstop := h.arena.shape.stop_le hmem
    unfold Heap.endOff at hstop
    apply BitVec.eq_of_toNat_eq
    rw [BitVec.toNat_sub, hsize, BitVec.toNat_ofNat]
    omega
  have hcount : (σ.locked.cut (σ.ptr (b.start + 16)) a).usedMem =
      σ.usedMem - (σ.payload (σ.ptr (b.start + 16)) - a) := usedMem_splitBlock false
  have hused : σ'.usedMem = BitVec.ofNat 32 (usedBytes bs') := by
    rw [usedMem_plugHoles hplug, hcount, hdiff, h.usedMem, hold, BitVec.ofNat_add,
      BitVec.add_sub_cancel]
  have hmax : σ'.maxMem = σ.maxMem :=
    (maxMem_plugHoles hplug).trans (maxMem_splitBlock false)
  exact ⟨bs', f', h.of_le harena.released hused hmax (by omega)⟩

/-- `realloc` moves its block: `used_mem` counts both blocks until the old one is freed. -/
theorem Counted.move {a : BitVec 32} {q : BitVec 32 × Heap} (h : Counted σ (as ++ b :: bs) f)
    (hb : b.used = true) (hroom : b.start + 16 < b.stop)
    (hfit : (rtAlign newsize).toNat + 32 < 2 ^ 32)
    (hmalloc : LuojiOs.malloc (rtAlign newsize) σ = .ok q)
    (hr : LuojiOs.reallocMove (σ.ptr (b.start + 16)) a (rtAlign newsize) σ = .ok r) :
    ∃ bs' f', Counted r.2 bs' f' ∧ σ.Records ({q.2.usedMem} ∪ {r.2.usedMem}) r.2 := by
  obtain ⟨p, σ₁, hmalloc', hr⟩ := reallocMove_cases hr
  obtain rfl := Except.ok.inj (hmalloc.symm.trans hmalloc')
  obtain ⟨bs₁, f₁, h₁, hrecords⟩ := h.malloc hmalloc
  obtain ⟨bs₂, f₂, hleaves, hgives⟩ := h.arena.leaves_malloc hmalloc
  obtain rfl := h₁.arena.shape.unique hleaves.arena.shape
  rcases hr with ⟨hnull, rfl⟩ | ⟨hp, σ₂, hfree, rfl⟩
  · refine ⟨bs₁, f₁, h₁, ?_⟩
    rwa [Set.union_self]
  · dsimp only at h₁ hleaves hgives hrecords
    obtain ⟨d, hd⟩ := hgives hp
    have hbmem : b ∈ as ++ b :: bs := by simp
    have hble := h.arena.shape.stop_le hbmem
    obtain ⟨hb₁, -⟩ := hleaves.stays b hbmem hb trivial
    have hdroom := hd.room
    have hdle := h₁.arena.shape.stop_le hd.mem
    have hlen : (if a < rtAlign newsize then a else rtAlign newsize).toNat ≤
        (searchSize (rtAlign newsize)).toNat := by
      rw [searchSize_rtAlign hfit]
      split
      · next hlt =>
        rw [BitVec.lt_def] at hlt
        omega
      · omega
    have haddr : p.toNat = σ₁.heapPtr.toNat + (d.start + 16) := by
      rw [hd.addr, h₁.arena.shape.geometry.toNat_ptr (by omega)]
    obtain ⟨as₁, cs₁, rfl⟩ := List.append_of_mem hb₁
    obtain ⟨hcopied, -⟩ := h₁.arena.copyInto (σ.ptr (b.start + 16)).toNat hd.mem
      (n := (if a < rtAlign newsize then a else rtAlign newsize).toNat) (by omega)
    rw [haddr] at hfree
    have hptr : σ₁.ptr (b.start + 16) = σ.ptr (b.start + 16) := hleaves.place.ptr_eq _
    rw [← hptr] at hfree hcopied
    obtain ⟨hcounted, -⟩ := h₁.same hcopied ⟨rfl, rfl⟩
    obtain ⟨bs', f', h₂, hrecords₂⟩ := hcounted.free hb hroom hfree
    exact ⟨bs', f', h₂, hrecords.trans hrecords₂⟩

end Counted

/-! ## `realloc` -/

/-- `realloc` comes to its `malloc`: it neither refuses the aligned size nor frees the block,
and the block is neither of the right size nor cut down. -/
def Heap.Moves (rmem newsize : BitVec 32) (σ : Heap) : Prop :=
  newsize ≠ 0 ∧ newsize ≤ σ.memSizeAligned ∧ rmem ≠ 0 ∧ σ.heapPtr ≤ rmem ∧ rmem < σ.heapEnd ∧
    σ.payload rmem ≠ newsize ∧ ¬newsize + SIZEOF_STRUCT_MEM + MIN_SIZE < σ.payload rmem

instance (rmem newsize : BitVec 32) (σ : Heap) : Decidable (σ.Moves rmem newsize) :=
  inferInstanceAs (Decidable (_ ∧ _ ∧ _ ∧ _ ∧ _ ∧ _ ∧ _))

/-- The values that `used_mem` is given by an event that leads to the heap `σ'`.  A `realloc`
that moves its block gives it two, one in its `malloc` and one in its `free`. -/
def Heap.readings (σ : Heap) (e : HeapEvent) (σ' : Heap) : List (BitVec 32) :=
  match e with
  | .realloc rmem newsize =>
    if σ.Moves rmem (rtAlign newsize) then
      match LuojiOs.malloc (rtAlign newsize) σ with
      | .ok (_, σ₁) => [σ₁.usedMem, σ'.usedMem]
      | .error _ => [σ'.usedMem]
    else [σ'.usedMem]
  | _ => [σ'.usedMem]

section Realloc

variable {σ σ' : Heap} {as bs : List Block} {b : Block} {f : ℕ} {rmem newsize : BitVec 32}
  {r : BitVec 32 × Heap}

theorem realloc_of_cuts (hcuts : σ.Cuts rmem (rtAlign newsize)) (hnull : rmem ≠ 0)
    (hlo : σ.heapPtr ≤ rmem) (hhi : rmem < σ.heapEnd) (hne : σ.payload rmem ≠ rtAlign newsize)
    (hr : realloc rmem newsize σ = .ok r) :
    ∃ σ', plugHoles (σ.rest rmem (rtAlign newsize)) (σ.locked.cut rmem (rtAlign newsize)) =
      .ok σ' ∧ r = (rmem, releaseHeapSem σ') := by
  obtain ⟨hzero, hfit, hroom⟩ := hcuts
  unfold realloc at hr
  dsimp only at hr
  rw [if_neg (BitVec.not_lt.mpr hfit), if_neg hzero, if_neg hnull, bind_eq_ok_iff] at hr
  obtain ⟨σ₁, htake, hr⟩ := hr
  obtain ⟨-, rfl⟩ := takeHeapSem_eq_ok_iff.mp htake
  split at hr
  · next hout =>
    rcases hout with hlt | hge
    · exact absurd hlo (BitVec.not_le.mpr hlt)
    · exact absurd hhi (BitVec.not_lt.mpr hge)
  · split at hr
    · next heq => exact absurd heq hne
    · split at hr
      · rw [bind_eq_ok_iff] at hr
        obtain ⟨σ', hplug, hr⟩ := hr
        exact ⟨σ', hplug, (Except.ok.inj hr).symm⟩
      · next hge => exact absurd hroom hge

theorem setOf_mem_singleton (v : BitVec 32) : {u | u ∈ [v]} = ({v} : Set (BitVec 32)) := by
  ext u
  exact List.mem_singleton

theorem Counted.realloc (h : Counted σ (as ++ b :: bs) f) (hb : b.used = true)
    (hroom : b.start + 16 < b.stop)
    (hr : LuojiOs.realloc (σ.ptr (b.start + 16)) newsize σ = .ok r) :
    ∃ bs' f', Counted r.2 bs' f' ∧
      σ.Records {v | v ∈ σ.readings (.realloc (σ.ptr (b.start + 16)) newsize) r.2} r.2 := by
  have hmem : b ∈ as ++ b :: bs := by simp
  have hstop := h.arena.shape.stop_le hmem
  have hgeo := h.arena.shape.geometry.room
  have hend : σ.endOff = σ.memSizeAligned.toNat + 16 := rfl
  have hnull : σ.ptr (b.start + 16) ≠ 0 := h.arena.shape.geometry.ptr_ne_zero (by omega)
  have hnat : (σ.ptr (b.start + 16)).toNat = σ.heapPtr.toNat + (b.start + 16) :=
    h.arena.shape.geometry.toNat_ptr (by omega)
  have hlo : σ.heapPtr ≤ σ.ptr (b.start + 16) := by
    rw [BitVec.le_def, hnat]
    omega
  have hhi : σ.ptr (b.start + 16) < σ.heapEnd := by
    rw [h.arena.shape.geometry.heapEnd, h.arena.shape.geometry.ptr_lt (by omega) (by omega)]
    omega
  have hsize := h.arena.shape.toNat_payload hmem
  have hal := toNat_rtAlign newsize
  have hlast : ¬σ.Moves (σ.ptr (b.start + 16)) (rtAlign newsize) →
      {v | v ∈ σ.readings (.realloc (σ.ptr (b.start + 16)) newsize) r.2} = {r.2.usedMem} := by
    intro hnot
    unfold Heap.readings
    dsimp only
    rw [if_neg hnot]
    exact setOf_mem_singleton _
  by_cases hcuts : σ.Cuts (σ.ptr (b.start + 16)) (rtAlign newsize)
  · rw [hlast fun hmoves => hmoves.2.2.2.2.2.2 hcuts.2.2]
    have h16 : SIZEOF_STRUCT_MEM.toNat = 16 := rfl
    have h12 : MIN_SIZE.toNat = 12 := rfl
    have hfit := hcuts.2.1
    have hlt := hcuts.2.2
    rw [BitVec.le_def] at hfit
    rw [BitVec.lt_def, BitVec.toNat_add, BitVec.toNat_add, h16, h12, hsize] at hlt
    have hne : σ.payload (σ.ptr (b.start + 16)) ≠ rtAlign newsize := by
      intro heq
      rw [heq] at hsize
      omega
    obtain ⟨σ', hplug, rfl⟩ := realloc_of_cuts hcuts hnull hlo hhi hne hr
    exact h.shrink hb (by omega) (by omega) hplug
  · cases realloc_cases hr with
    | large hlarge =>
        rw [hlast fun hmoves => absurd hmoves.2.1 (BitVec.not_le.mpr hlarge)]
        exact ⟨_, _, h.same h.arena ⟨rfl, rfl⟩⟩
    | zero hzero hfree =>
        rw [hlast fun hmoves => hmoves.1 hzero]
        exact h.free hb hroom hfree
    | null _ _ hz _ => exact absurd hz hnull
    | keep _ _ _ _ hsame =>
        rw [hlast]
        · exact ⟨_, _, h.same h.arena.locked.released ⟨rfl, rfl⟩⟩
        · rintro ⟨-, -, -, -, -, hne, -⟩
          rcases hsame with hlt | hge | heq
          · exact absurd hlo (BitVec.not_le.mpr hlt)
          · exact absurd hhi (BitVec.not_lt.mpr hge)
          · exact hne heq
    | shrink hfit hn _ _ _ _ hlt _ => exact absurd ⟨hn, hfit, hlt⟩ hcuts
    | move hfit hn _ _ _ _ hne hmove =>
        have hsmall : (rtAlign newsize).toNat + 32 < 2 ^ 32 := by
          rw [BitVec.le_def] at hfit
          omega
        rw [releaseHeapSem_locked] at hmove
        obtain ⟨p, σ₁, hmalloc, -⟩ := reallocMove_cases hmove
        have hmoves : σ.Moves (σ.ptr (b.start + 16)) (rtAlign newsize) :=
          ⟨hn, hfit, hnull, hlo, hhi, hne, fun hlt => hcuts ⟨hn, hfit, hlt⟩⟩
        have hreadings : {v | v ∈ σ.readings (.realloc (σ.ptr (b.start + 16)) newsize) r.2} =
            {σ₁.usedMem} ∪ {r.2.usedMem} := by
          unfold Heap.readings
          dsimp only
          rw [if_pos hmoves, hmalloc]
          ext v
          simp only [Set.mem_ofPred_eq, List.mem_cons, List.not_mem_nil, or_false]
          rfl
        rw [hreadings]
        exact h.move hb hroom hsmall hmalloc hmove

end Realloc

/-! ## Runs -/

/-- A run of heap calls with the values that `used_mem` has had in it. -/
structure Metered where
  sys : HeapSys
  seen : List (BitVec 32)

namespace Metered

def step (m : Metered) (e : HeapEvent) : Option Metered :=
  (m.sys.callStep e).map fun s => ⟨s, m.sys.heap.readings e s.heap ++ m.seen⟩

/-- A heap that has just been set up. -/
def Fresh (m : Metered) : Prop := m.sys.Fresh ∧ m.seen = [m.sys.heap.usedMem]

/-- `rt_memory_info` reports the extent of the used blocks, and the greatest value that
`used_mem` has had. -/
def Exact (m : Metered) : Prop :=
  ∃ used maxUsed, rtMemoryInfo false true true m.sys.heap = (none, some used, some maxUsed) ∧
    used.toNat = usedBytes m.sys.heap.blocks ∧ IsGreatest {v | v ∈ m.seen} maxUsed

end Metered

section Runs

variable {s s' : HeapSys} {bs : List Block} {f : ℕ} {e : HeapEvent}

theorem Counted.of_init {bytes : Bytes} {beginAddr endAddr : BitVec 32} {σ : Heap}
    (h : rtSystemHeapInit bytes beginAddr endAddr = some σ) :
    Counted σ [⟨0, σ.endOff, false⟩] 0 ∧ σ.maxMem = σ.usedMem := by
  have harena := arena_init h
  have hstats : σ.usedMem = 0 ∧ σ.maxMem = 0 := by
    unfold rtSystemHeapInit at h
    dsimp only at h
    split at h
    · obtain rfl := Option.some.inj h
      exact ⟨rfl, rfl⟩
    · cases h
  refine ⟨⟨harena, hstats.1, ?_⟩, hstats.2.trans hstats.1.symm⟩
  rw [hstats.1, hstats.2]
  exact BitVec.le_refl _

/-- An event that is no `realloc` gives `used_mem` one value. -/
theorem readings_eq {σ σ' : Heap} (he : ∀ rmem newsize, e ≠ .realloc rmem newsize) :
    {v | v ∈ σ.readings e σ'} = {σ'.usedMem} := by
  cases e with
  | realloc rmem newsize => exact absurd rfl (he rmem newsize)
  | malloc _ => exact setOf_mem_singleton _
  | calloc _ _ => exact setOf_mem_singleton _
  | free _ => exact setOf_mem_singleton _
  | store _ _ _ => exact setOf_mem_singleton _

theorem Counted.calloc {σ : Heap} {count size : BitVec 32} {r : BitVec 32 × Heap}
    (h : Counted σ bs f) (hfit : (count * size).toNat + 7 < 2 ^ 32)
    (hr : LuojiOs.calloc count size σ = .ok r) :
    ∃ bs' f', Counted r.2 bs' f' ∧ σ.Records {r.2.usedMem} r.2 := by
  obtain ⟨p, σ₁, hmalloc, hr⟩ := calloc_cases hr
  obtain ⟨bs₁, f₁, h₁, hrecords⟩ := h.malloc hmalloc
  rcases hr with ⟨rfl, rfl⟩ | ⟨hp, rfl⟩
  · exact ⟨bs₁, f₁, h₁, hrecords⟩
  · obtain ⟨bs₂, f₂, hleaves, hgives⟩ := h.arena.leaves_malloc hmalloc
    obtain rfl := h₁.arena.shape.unique hleaves.arena.shape
    obtain ⟨d, hd⟩ := hgives hp
    have hroom := hd.room
    have hsize := le_searchSize hfit
    have hfilled := (h₁.arena.fill (i := 0) (k := (count * size).toNat) (v := 0) hd.mem
      (by omega)).1
    rw [← hd.addr] at hfilled
    exact ⟨bs₁, f₁, (h₁.same hfilled ⟨rfl, rfl⟩).1, hrecords⟩

/-- An event on a live block. -/
theorem Counted.step (h : Counted s.heap bs f) (hheld : Holds (fun _ _ => True) s bs f)
    (he : e.Clears) (hs : s.step e = some s') :
    ∃ bs' f', Counted s'.heap bs' f' ∧
      s.heap.Records {v | v ∈ s.heap.readings e s'.heap} s'.heap := by
  cases HeapSys.steps_of_step hs with
  | malloc hr =>
      rw [readings_eq (by simp)]
      exact h.malloc hr
  | calloc hr =>
      rw [readings_eq (by simp)]
      exact h.calloc he hr
  | realloc hlive hr =>
      obtain ⟨as, b, cs, rfl, hused, hroom, rfl⟩ := hheld.exists_block hlive
      exact h.realloc hused hroom hr
  | free hlive hr =>
      obtain ⟨as, b, cs, rfl, hused, hroom, rfl⟩ := hheld.exists_block hlive
      rw [readings_eq (by simp)]
      exact h.free hused hroom hr
  | @store rmem i v hlive hi =>
      obtain ⟨as, b, cs, rfl, hused, hroom, rfl⟩ := hheld.exists_block hlive
      have hb : b ∈ as ++ b :: cs := by simp
      rw [h.arena.shape.toNat_payload hb] at hi
      obtain ⟨harena, -⟩ := h.arena.fill (i := i) (k := 1) (v := v) hb (by omega)
      rw [readings_eq (by simp)]
      exact ⟨_, _, h.same harena ⟨rfl, rfl⟩⟩

/-- Every event counts what it does. -/
theorem Counted.callStep (h : Counted s.heap bs f) (hheld : Holds (fun _ _ => True) s bs f)
    (he : e.Clears) (hs : s.callStep e = some s') :
    ∃ bs' f', Counted s'.heap bs' f' ∧
      s.heap.Records {v | v ∈ s.heap.readings e s'.heap} s'.heap := by
  have hnull : ∀ {σ : Heap}, LuojiOs.free 0 s.heap = .ok σ →
      Counted σ bs f ∧ s.heap.Records {σ.usedMem} σ := by
    intro σ hr
    obtain ⟨-, ⟨-, rfl⟩ | ⟨hne, -⟩⟩ := free_cases hr
    · exact h.same h.arena.locked ⟨rfl, rfl⟩
    · exact absurd rfl hne
  cases e with
  | malloc _ => exact h.step hheld he hs
  | calloc _ _ => exact h.step hheld he hs
  | store _ _ _ => exact h.step hheld he hs
  | realloc rmem newsize =>
      simp only [HeapSys.callStep] at hs
      split at hs
      · next hzero =>
        subst hzero
        obtain ⟨r, hr, rfl⟩ := HeapSys.toOption_map_eq_some hs
        have hreadings : {v | v ∈ s.heap.readings (.realloc 0 newsize) r.2} = {r.2.usedMem} := by
          unfold Heap.readings
          dsimp only
          rw [if_neg fun hmoves => hmoves.2.2.1 rfl]
          exact setOf_mem_singleton _
        dsimp only
        rw [hreadings]
        cases realloc_cases hr with
        | large _ => exact ⟨_, _, h.same h.arena ⟨rfl, rfl⟩⟩
        | zero _ hfree => exact ⟨_, _, hnull hfree⟩
        | null _ _ _ hmalloc => exact h.malloc hmalloc
        | keep _ _ hne _ _ => exact absurd rfl hne
        | shrink _ _ hne _ _ _ _ _ => exact absurd rfl hne
        | move _ _ hne _ _ _ _ _ => exact absurd rfl hne
      · exact h.step hheld he hs
  | free rmem =>
      simp only [HeapSys.callStep] at hs
      split at hs
      · obtain ⟨σ, hr, rfl⟩ := HeapSys.toOption_map_eq_some hs
        rw [readings_eq (by simp)]
        exact ⟨_, _, hnull hr⟩
      · exact h.step hheld he hs

/-- In every run in which each `calloc` clears no more than the block it has got, `used_mem`
is the extent of the used blocks and `max_mem` the greatest value that `used_mem` has had. -/
theorem accounting_exact {m : Metered}
    (h : Runs.Reach Metered.step (fun _ e => e.Clears) Metered.Fresh m) : m.Exact := by
  have hinv : ∃ bs f, Holds (fun _ _ => True) m.sys bs f ∧ Counted m.sys.heap bs f ∧
      IsGreatest {v | v ∈ m.seen} m.sys.heap.maxMem := by
    refine h.invariant (P := fun m => ∃ bs f, Holds (fun _ _ => True) m.sys bs f ∧
      Counted m.sys.heap bs f ∧ IsGreatest {v | v ∈ m.seen} m.sys.heap.maxMem) ?_ ?_
    · rintro m ⟨hfresh, hseen⟩
      obtain ⟨bs, f, hheld⟩ := Holds.of_fresh (P := fun _ _ => True) hfresh
      obtain ⟨-, bytes, beginAddr, endAddr, hinit⟩ := hfresh
      obtain ⟨hcounted, hmax⟩ := Counted.of_init hinit
      obtain rfl := hcounted.arena.shape.unique hheld.arena.shape
      refine ⟨_, 0, ⟨hcounted.arena, hheld.nodup, hheld.live⟩, hcounted, ?_⟩
      rw [hseen, hmax, setOf_mem_singleton]
      exact ⟨rfl, fun v hv => BitVec.le_of_eq hv⟩
    · rintro m e m' ⟨bs, f, hheld, hcounted, hgreatest⟩ he hstep
      obtain ⟨s', hs, rfl⟩ := Option.map_eq_some_iff.mp hstep
      obtain ⟨bs', f', hheld'⟩ := hheld.callStep he hs
      obtain ⟨bs'', f'', hcounted', hrecords⟩ := hcounted.callStep hheld he hs
      obtain rfl := hheld'.arena.shape.unique hcounted'.arena.shape
      refine ⟨bs', f'', ⟨hcounted'.arena, hheld'.nodup, hheld'.live⟩, hcounted', ?_⟩
      have hall := isGreatest_union hgreatest hrecords
      have hset : {v | v ∈ m.sys.heap.readings e s'.heap ++ m.seen} =
          {v | v ∈ m.seen} ∪ {v | v ∈ m.sys.heap.readings e s'.heap} := by
        ext v
        simp [or_comm]
      rw [hset]
      exact hall
  obtain ⟨bs, f, -, hcounted, hgreatest⟩ := hinv
  refine ⟨m.sys.heap.usedMem, m.sys.heap.maxMem, rfl, ?_, hgreatest⟩
  rw [hcounted.toNat_usedMem, hcounted.arena.shape.blocks_eq]

end Runs

/-! ## A small heap -/

def smallMetered : Option Metered := smallSys.map fun s => ⟨s, [s.heap.usedMem]⟩

/-- A block is moved: `max_mem` is what was in use while both copies were. -/
theorem accounting_exact_moved :
    ∃ m, smallMetered.bind (fun m => Runs.runChecked Metered.step (fun _ e => decide e.Clears) m
        [.malloc 16, .realloc 0x1010 40, .calloc 2 8]) = some m ∧
      m.seen = [88, 88, 56, 32, 0] ∧ m.Exact := by
  obtain ⟨m, hm, hseen⟩ := Runs.exists_of_any (show (smallMetered.bind fun m =>
      Runs.runChecked Metered.step (fun _ e => decide e.Clears) m
        [.malloc 16, .realloc 0x1010 40, .calloc 2 8]).any
      (fun m => decide (m.seen = [88, 88, 56, 32, 0])) = true by decide +kernel)
  obtain ⟨m₀, hm₀, hrun⟩ := Option.bind_eq_some_iff.mp hm
  obtain ⟨s₀, hs₀, rfl⟩ := Option.map_eq_some_iff.mp hm₀
  have hstart : Runs.Reach Metered.step (fun _ e => decide e.Clears = true) Metered.Fresh
      ⟨s₀, [s₀.heap.usedMem]⟩ := .start ⟨fresh_smallSys hs₀, rfl⟩
  have hreach := (hstart.of_runChecked hrun).mono fun _ _ he => of_decide_eq_true he
  exact ⟨m, hm, of_decide_eq_true hseen, accounting_exact hreach⟩

/-- A `calloc` for 2^32 - 1 bytes gets a block of 16 and clears the headers behind it. -/
theorem accounting_inexact :
    ∃ m, smallMetered.bind (fun m => Runs.run Metered.step m [.calloc 1 0xffffffff]) = some m ∧
      ¬m.Exact := by
  obtain ⟨m, hm, hne⟩ := Runs.exists_of_any (show (smallMetered.bind fun m =>
      Runs.run Metered.step m [.calloc 1 0xffffffff]).any
      (fun m => decide (m.sys.heap.usedMem.toNat ≠ usedBytes m.sys.heap.blocks)) = true by
    decide +kernel)
  refine ⟨m, hm, ?_⟩
  rintro ⟨used, maxUsed, hinfo, hused, -⟩
  obtain ⟨-, hinfo⟩ := Prod.ext_iff.mp hinfo
  obtain rfl : m.sys.heap.usedMem = used := Option.some.inj (Prod.ext_iff.mp hinfo).1
  exact of_decide_eq_true hne hused

end LuojiOs
