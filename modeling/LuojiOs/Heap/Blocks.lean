import LuojiOs.Heap.Shape

/-!
# Splitting, taking and releasing blocks

The writes of `malloc`, `realloc` and `free` to the block they work on, and the walks along
`next` that `malloc` makes.
-/

namespace LuojiOs

open Tiling

/-! ## Splitting -/

section Split

variable {σ : Heap} {as bs : List Block} {b u : Block} {m : ℕ} {take : Bool} {size : BitVec 32}

theorem ofNat_add_size {o : ℕ} :
    BitVec.ofNat 32 o + SIZEOF_STRUCT_MEM + size = BitVec.ofNat 32 (o + 16 + size.toNat) := by
  have hsize : BitVec.ofNat 32 size.toNat = size := by
    rw [BitVec.ofNat_toNat, BitVec.setWidth_eq]
  conv_rhs => rw [BitVec.ofNat_add, hsize]
  rw [ofNat_add_header]

variable {o : ℕ}

theorem writes_splitHeaders :
    Writes [σ.ptr o, σ.ptr (o + 16 + size.toNat)] σ
      (splitHeaders (BitVec.ofNat 32 o) size take σ) := by
  unfold splitHeaders
  rw [ofNat_add_size]
  have hfirst : σ.ptr o ∈ [σ.ptr o, σ.ptr (o + 16 + size.toNat)] := by simp
  have hsecond : σ.ptr (o + 16 + size.toNat) ∈ [σ.ptr o, σ.ptr (o + 16 + size.toNat)] := by
    simp
  have hheader := fun v => (((Writes.setMagic (σ := σ) hsecond HEAP_MAGIC).trans
    (Writes.setUsed hsecond 0)).trans (Writes.setNext hsecond v)).trans
    (Writes.setPrev hsecond (BitVec.ofNat 32 o))
  have hlink := fun v =>
    (hheader v).trans (Writes.setNext hfirst (BitVec.ofNat 32 (o + 16 + size.toNat)))
  cases take with
  | false => exact hlink _
  | true => exact (hlink _).trans (Writes.setUsed hfirst 1)

theorem off_splitHeaders_first (hg : Geometry σ) (hm : o + 16 + size.toNat ≤ σ.endOff) :
    (splitHeaders (BitVec.ofNat 32 o) size take σ).off o =
      { σ.off o with
        next := BitVec.ofNat 32 (o + 16 + size.toNat)
        used := if take then 1 else (σ.off o).used } := by
  have hapart : HeadersApart (σ.ptr (o + 16 + size.toNat)) (σ.ptr o) :=
    hg.apart hm (by omega) (by omega)
  unfold Heap.off
  rw [ptr_congr (sameStatics_splitHeaders take)]
  unfold splitHeaders
  rw [ofNat_add_size]
  cases take with
  | false =>
      simp [heapPtr_add_ofNat, hdr_setPrev_of_apart hapart, hdr_setNext_of_apart hapart,
        hdr_setUsed_of_apart hapart, hdr_setMagic_of_apart hapart]
  | true =>
      simp [heapPtr_add_ofNat, hdr_setPrev_of_apart hapart, hdr_setNext_of_apart hapart,
        hdr_setUsed_of_apart hapart, hdr_setMagic_of_apart hapart]

theorem off_splitHeaders_second (hg : Geometry σ) (hm : o + 16 + size.toNat ≤ σ.endOff) :
    (splitHeaders (BitVec.ofNat 32 o) size take σ).off (o + 16 + size.toNat) =
      ⟨HEAP_MAGIC, 0, (σ.off o).next, BitVec.ofNat 32 o⟩ := by
  have hapart : HeadersApart (σ.ptr o) (σ.ptr (o + 16 + size.toNat)) :=
    hg.apart (by omega) hm (by omega)
  have hapart' : HeadersApart (σ.ptr (o + 16 + size.toNat)) (σ.ptr o) :=
    hg.apart hm (by omega) (by omega)
  unfold Heap.off
  rw [ptr_congr (sameStatics_splitHeaders take)]
  unfold splitHeaders
  rw [ofNat_add_size]
  cases take with
  | false =>
      simp [heapPtr_add_ofNat, hdr_setNext_of_apart hapart, hdr_setUsed_of_apart hapart',
        hdr_setMagic_of_apart hapart']
  | true =>
      simp [heapPtr_add_ofNat, hdr_setNext_of_apart hapart, hdr_setUsed_of_apart hapart,
        hdr_setUsed_of_apart hapart', hdr_setMagic_of_apart hapart']

/-- The block after the new one is told of it, unless that is `heap_end`. -/
theorem Shape.splitBlock_eq (h : Shape σ (as ++ b :: bs))
    (hroom : b.start + 16 + size.toNat + 16 ≤ b.stop) :
    splitBlock (BitVec.ofNat 32 b.start) size take σ =
      if b.stop = σ.endOff then splitHeaders (BitVec.ofNat 32 b.start) size take σ
      else (splitHeaders (BitVec.ofNat 32 b.start) size take σ).setPrev (σ.ptr b.stop)
        (BitVec.ofNat 32 (b.start + 16 + size.toNat)) := by
  have hb : b ∈ as ++ b :: bs := by simp
  have hle := h.stop_le hb
  have hs : SameStatics σ (splitHeaders (BitVec.ofNat 32 b.start) size take σ) :=
    sameStatics_splitHeaders take
  have hoff : (splitHeaders (BitVec.ofNat 32 b.start) size take σ).off
      (b.start + 16 + size.toNat) =
        ⟨HEAP_MAGIC, 0, (σ.off b.start).next, BitVec.ofNat 32 b.start⟩ :=
    off_splitHeaders_second h.geometry (by omega)
  have hnext : ((splitHeaders (BitVec.ofNat 32 b.start) size take σ).hdr
      (σ.ptr (b.start + 16 + size.toNat))).next = BitVec.ofNat 32 b.stop := by
    unfold Heap.off at hoff
    rw [ptr_congr hs] at hoff
    rw [hoff]
    exact (h.hdr_ptr hb).1
  have htest : BitVec.ofNat 32 b.stop = BitVec.ofNat 32 σ.endOff ↔ b.stop = σ.endOff := by
    constructor
    · intro heq
      have := congrArg BitVec.toNat heq
      rwa [h.geometry.toNat_ofNat hle, h.geometry.toNat_ofNat (Nat.le_refl _)] at this
    · intro heq
      rw [heq]
  rw [LuojiOs.splitBlock_eq, ofNat_add_size]
  dsimp only
  rw [heapPtr_add_ofNat, hnext, hs.memSizeAligned, endOff_eq, hs.heapPtr, heapPtr_add_ofNat]
  by_cases hend : b.stop = σ.endOff
  · rw [if_neg (not_not.mpr (htest.mpr hend)), if_pos hend]
  · rw [if_pos (fun heq => hend (htest.mp heq)), if_neg hend]

theorem Shape.writesAt_splitBlock (h : Shape σ (as ++ b :: bs))
    (hroom : b.start + 16 + size.toNat + 16 ≤ b.stop) :
    WritesAt [b.start, b.start + 16 + size.toNat, b.stop] σ
      (splitBlock (BitVec.ofNat 32 b.start) size take σ) := by
  have hle := h.stop_le (b := b) (by simp)
  have hw : Writes [σ.ptr b.start, σ.ptr (b.start + 16 + size.toNat), σ.ptr b.stop] σ
      (splitBlock (BitVec.ofNat 32 b.start) size take σ) := by
    have hheaders : Writes [σ.ptr b.start, σ.ptr (b.start + 16 + size.toNat), σ.ptr b.stop] σ
        (splitHeaders (BitVec.ofNat 32 b.start) size take σ) :=
      writes_splitHeaders.mono (by simp)
    rw [h.splitBlock_eq hroom]
    split
    · exact hheaders
    · exact hheaders.trans (Writes.setPrev (by simp) _)
  apply hw.at h.geometry
  intro p hp
  simp only [List.mem_cons, List.not_mem_nil, or_false] at hp
  rcases hp with rfl | rfl | rfl
  · exact ⟨b.start, by simp, by omega, rfl⟩
  · exact ⟨b.start + 16 + size.toNat, by simp, by omega, rfl⟩
  · exact ⟨b.stop, by simp, hle, rfl⟩

/-- After the block at `b.start` is cut off at `m`. -/
theorem Shape.split (h : Shape σ (as ++ b :: bs))
    (hroom : b.start + 16 + size.toNat + 16 ≤ b.stop) (hsize : size.toNat % 8 = 0) :
    Shape (splitBlock (BitVec.ofNat 32 b.start) size take σ)
      (as ++ ⟨b.start, b.start + 16 + size.toNat, take || b.used⟩ ::
        ⟨b.start + 16 + size.toNat, b.stop, false⟩ :: bs) := by
  have hb : b ∈ as ++ b :: bs := by simp
  have hle := h.stop_le hb
  have hs : SameStatics σ (splitHeaders (BitVec.ofNat 32 b.start) size take σ) :=
    sameStatics_splitHeaders take
  have hw : WritesAt [b.start, b.start + 16 + size.toNat, b.stop] σ
      (splitBlock (BitVec.ofNat 32 b.start) size take σ) := h.writesAt_splitBlock hroom
  have hheaders : WritesAt [b.start, b.start + 16 + size.toNat] σ
      (splitHeaders (BitVec.ofNat 32 b.start) size take σ) := by
    apply writes_splitHeaders.at h.geometry
    intro p hp
    rcases List.mem_pair.mp hp with rfl | rfl
    · exact ⟨b.start, by simp, by omega, rfl⟩
    · exact ⟨b.start + 16 + size.toNat, by simp, by omega, rfl⟩
  -- the last write is to the header at `b.stop` only
  have hoff : ∀ x, x + 16 ≤ b.stop → (splitBlock (BitVec.ofNat 32 b.start) size take σ).off x =
      (splitHeaders (BitVec.ofNat 32 b.start) size take σ).off x := by
    intro x hx
    rw [h.splitBlock_eq hroom]
    split
    · rfl
    · unfold Heap.off
      rw [ptr_congr (sameStatics_setPrev _), ptr_congr hs]
      exact hdr_setPrev_of_apart (h.geometry.apart hle (by omega) (Or.inr hx))
  have hfirst : (splitBlock (BitVec.ofNat 32 b.start) size take σ).off b.start =
      (Block.mk b.start (b.start + 16 + size.toNat) (take || b.used)).header
        (lastStart 0 as) := by
    rw [hoff _ (by omega), off_splitHeaders_first h.geometry (by omega),
      (chain_append_cons.mp h.chain).2.1]
    cases take <;> simp [Block.header]
  have hsecond : (splitBlock (BitVec.ofNat 32 b.start) size take σ).off
      (b.start + 16 + size.toNat) =
        (Block.mk (b.start + 16 + size.toNat) b.stop false).header b.start := by
    rw [hoff _ hroom, off_splitHeaders_second h.geometry (by omega),
      (chain_append_cons.mp h.chain).2.1]
    rfl
  have hafter : b.stop + 16 ≤ σ.endOff →
      (splitBlock (BitVec.ofNat 32 b.start) size take σ).off b.stop =
        { σ.off b.stop with prev := BitVec.ofNat 32 (b.start + 16 + size.toNat) } := by
    intro hgap
    have hsame : (splitHeaders (BitVec.ofNat 32 b.start) size take σ).off b.stop =
        σ.off b.stop := by
      apply hheaders.off_eq h.geometry hle
      intro y hy
      rcases List.mem_pair.mp hy with rfl | rfl
      · omega
      · omega
    rw [← hsame, h.splitBlock_eq hroom, if_neg (by omega)]
    unfold Heap.off
    rw [ptr_congr (sameStatics_setPrev _), ptr_congr hs]
    exact hdr_setPrev _
  refine ⟨h.geometry.congr hw.statics, ?_, ?_, ?_⟩
  · rw [endOff_congr hw.statics]
    apply h.chain.split (by omega) hroom hfirst hsecond
    · intro hbs
      rcases h.stop_cases with ⟨hnil, -⟩ | ⟨-, hgap⟩
      · exact absurd hnil hbs
      · exact hafter hgap
    · intro x hx hxe
      apply hw.off_eq h.geometry (by omega)
      intro y hy
      simp only [List.mem_cons, List.not_mem_nil, or_false] at hy
      omega
  · rw [endOff_congr hw.statics]
    have hlast : (splitBlock (BitVec.ofNat 32 b.start) size take σ).off σ.endOff =
        σ.off σ.endOff := by
      rcases h.stop_cases with ⟨-, hend⟩ | ⟨-, hgap⟩
      · rw [h.splitBlock_eq hroom, if_pos hend]
        apply hheaders.off_eq h.geometry (Nat.le_refl _)
        intro y hy
        rcases List.mem_pair.mp hy with rfl | rfl
        · omega
        · omega
      · apply hw.off_eq h.geometry (Nat.le_refl _)
        intro y hy
        simp only [List.mem_cons, List.not_mem_nil, or_false] at hy
        omega
    rw [hlast]
    exact h.last
  · intro d hd
    have hbal := h.aligned b hb
    rcases List.mem_append.mp hd with hd | hd
    · exact h.aligned d (by simp [hd])
    · simp only [List.mem_cons] at hd
      rcases hd with rfl | rfl | hd
      · dsimp only
        omega
      · dsimp only
        omega
      · exact h.aligned d (by simp [hd])

end Split

/-! ## Marking -/

section Mark

variable {σ σ' : Heap} {as bs : List Block} {b u : Block} {size : BitVec 32}

theorem Shape.mark {v : Bool} (h : Shape σ (as ++ b :: bs)) (hw : WritesAt [b.start] σ σ')
    (hoff : σ'.off b.start = (Block.mk b.start b.stop v).header (lastStart 0 as)) :
    Shape σ' (as ++ ⟨b.start, b.stop, v⟩ :: bs) := by
  have hb : b ∈ as ++ b :: bs := by simp
  have hroom := h.room_of_mem hb
  have hle := h.stop_le hb
  have hsame : ∀ x, x + 16 ≤ b.start ∨ b.stop ≤ x → x ≤ σ.endOff → σ'.off x = σ.off x := by
    intro x hx hxe
    apply hw.off_eq h.geometry hxe
    intro y hy
    rw [List.mem_singleton.mp hy]
    omega
  refine ⟨h.geometry.congr hw.statics, ?_, ?_, ?_⟩
  · rw [endOff_congr hw.statics]
    apply h.chain.mark hoff
    intro x hx hxe
    exact hsame x hx (by omega)
  · rw [endOff_congr hw.statics, hsame σ.endOff (Or.inr hle) (Nat.le_refl _)]
    exact h.last
  · intro d hd
    rcases List.mem_append.mp hd with hd | hd
    · exact h.aligned d (by simp [hd])
    · rcases List.mem_cons.mp hd with rfl | hd
      · exact h.aligned b hb
      · exact h.aligned d (by simp [hd])

theorem Writes.atOne {o : ℕ} (h : Writes [σ.ptr o] σ σ') (hg : Geometry σ)
    (ho : o ≤ σ.endOff) : WritesAt [o] σ σ' := by
  apply h.at hg
  intro p hp
  exact ⟨o, by simp, ho, List.mem_singleton.mp hp⟩

theorem Shape.countUsed (h : Shape σ bs) (n : BitVec 32) : Shape (σ.countUsed n) bs :=
  h.of_bytes_eq (sameStatics_countUsed n) rfl

theorem Shape.countFreed (h : Shape σ bs) (n : BitVec 32) : Shape (σ.countFreed n) bs :=
  h.of_bytes_eq (sameStatics_countFreed n) rfl

theorem Shape.setLfree (h : Shape σ bs) (p : BitVec 32) : Shape (σ.setLfree p) bs :=
  h.of_bytes_eq sameStatics_setLfree rfl

theorem Shape.markUsed (h : Shape σ (as ++ b :: bs)) (v : Bool) :
    Shape (σ.setUsed (σ.ptr b.start) (if v then 1 else 0)) (as ++ ⟨b.start, b.stop, v⟩ :: bs) := by
  have hb : b ∈ as ++ b :: bs := by simp
  have hroom := h.room_of_mem hb
  have hle := h.stop_le hb
  apply h.mark ((Writes.setUsed (by simp) _).atOne h.geometry (by omega))
  have hset : (σ.setUsed (σ.ptr b.start) (if v then 1 else 0)).off b.start =
      { σ.off b.start with used := if v then 1 else 0 } := hdr_setUsed _
  rw [hset, (chain_append_cons.mp h.chain).2.1]
  rfl

/-- The headers of the blocks have their magic number already. -/
theorem Shape.setMagic (h : Shape σ (as ++ b :: bs)) :
    Shape (σ.setMagic (σ.ptr b.start) HEAP_MAGIC) (as ++ b :: bs) := by
  have hb : b ∈ as ++ b :: bs := by simp
  have hroom := h.room_of_mem hb
  have hle := h.stop_le hb
  apply h.mark ((Writes.setMagic (by simp) _).atOne h.geometry (by omega))
  have hset : (σ.setMagic (σ.ptr b.start) HEAP_MAGIC).off b.start =
      { σ.off b.start with magic := HEAP_MAGIC } := hdr_setMagic _
  rw [hset, (chain_append_cons.mp h.chain).2.1]
  rfl

/-! ## Taking and releasing a block -/

/-- What `malloc` makes of the free block `b` for a request of `n` bytes. -/
def taken (n : ℕ) (b : Block) : List Block :=
  if b.start + 16 + n + 32 ≤ b.stop then
    [⟨b.start, b.start + 16 + n, true⟩, ⟨b.start + 16 + n, b.stop, false⟩]
  else [⟨b.start, b.stop, true⟩]

/-- The test of `malloc` whether the rest of the block makes a block of its own. -/
theorem Shape.takeBlock_eq (h : Shape σ (as ++ b :: bs)) (hsize : size.toNat + 32 < 2 ^ 32) :
    takeBlock (BitVec.ofNat 32 b.start) size σ =
      if b.start + 16 + size.toNat + 32 ≤ b.stop then
        ((splitBlock (BitVec.ofNat 32 b.start) size true σ).countUsed
          (size + SIZEOF_STRUCT_MEM)).setMagic (σ.ptr b.start) HEAP_MAGIC
      else
        ((σ.setUsed (σ.ptr b.start) 1).countUsed
          (((σ.setUsed (σ.ptr b.start) 1).hdr (σ.ptr b.start)).next -
            (σ.ptr b.start - σ.heapPtr))).setMagic (σ.ptr b.start) HEAP_MAGIC := by
  have hb : b ∈ as ++ b :: bs := by simp
  have hroom := h.room_of_mem hb
  have hle := h.stop_le hb
  have hlt := h.geometry.room
  unfold Heap.endOff at hle
  have htest : size + SIZEOF_STRUCT_MEM + MIN_SIZE_ALIGNED ≤
      (σ.hdr (σ.ptr b.start)).next - (BitVec.ofNat 32 b.start + SIZEOF_STRUCT_MEM) ↔
        b.start + 16 + size.toNat + 32 ≤ b.stop := by
    have h16 : SIZEOF_STRUCT_MEM.toNat = 16 := rfl
    have h16' : MIN_SIZE_ALIGNED.toNat = 16 := rfl
    rw [(h.hdr_ptr hb).1, ofNat_add_header, BitVec.le_def, BitVec.toNat_add, BitVec.toNat_add,
      BitVec.toNat_sub, BitVec.toNat_ofNat, BitVec.toNat_ofNat, h16, h16']
    omega
  unfold takeBlock
  dsimp only
  rw [heapPtr_add_ofNat]
  by_cases hfit : b.start + 16 + size.toNat + 32 ≤ b.stop
  · rw [if_pos (htest.mpr hfit), if_pos hfit]
  · rw [if_neg (fun ht => hfit (htest.mp ht)), if_neg hfit]
    rfl

theorem Shape.takeBlock (h : Shape σ (as ++ b :: bs)) (hsize : size.toNat + 32 < 2 ^ 32)
    (hal : size.toNat % 8 = 0) :
    Shape (takeBlock (BitVec.ofNat 32 b.start) size σ) (as ++ (taken size.toNat b ++ bs)) := by
  rw [h.takeBlock_eq hsize]
  unfold taken
  split
  · next hfit =>
    have hsplit : Shape (splitBlock (BitVec.ofNat 32 b.start) size true σ) _ :=
      h.split (by omega) hal
    have hs : SameStatics σ (splitBlock (BitVec.ofNat 32 b.start) size true σ) :=
      sameStatics_splitBlock true
    rw [← ptr_congr (hs.trans (sameStatics_countUsed (size + SIZEOF_STRUCT_MEM)))]
    exact (hsplit.countUsed _).setMagic
  · have hmark : Shape (σ.setUsed (σ.ptr b.start) 1) _ := h.markUsed true
    exact (hmark.countUsed _).setMagic

theorem WritesAt.setMagic {os : List ℕ} {o : ℕ} (h : WritesAt os σ σ') (hg : Geometry σ)
    (ho : o ∈ os) (hle : o ≤ σ.endOff) (v : BitVec 16) :
    WritesAt os σ (σ'.setMagic (σ.ptr o) v) := by
  apply h.trans
  have hone : WritesAt [o] σ' (σ'.setMagic (σ'.ptr o) v) := by
    apply (Writes.setMagic (by simp) v).atOne (hg.congr h.statics)
    rw [endOff_congr h.statics]
    exact hle
  rw [ptr_congr h.statics] at hone
  apply hone.mono
  intro x hx
  rw [List.mem_singleton.mp hx]
  exact ho

/-- `malloc` writes to headers inside the block it takes, and to the one after it. -/
theorem Shape.writesAt_takeBlock (h : Shape σ (as ++ b :: bs))
    (hsize : size.toNat + 32 < 2 ^ 32) :
    ∃ os, (∀ o ∈ os, b.start ≤ o ∧ o ≤ b.stop) ∧
      WritesAt os σ (LuojiOs.takeBlock (BitVec.ofNat 32 b.start) size σ) := by
  have hb : b ∈ as ++ b :: bs := by simp
  have hroom := h.room_of_mem hb
  have hle := h.stop_le hb
  rw [h.takeBlock_eq hsize]
  split
  · next hfit =>
    have hsplit : WritesAt [b.start, b.start + 16 + size.toNat, b.stop] σ
        (splitBlock (BitVec.ofNat 32 b.start) size true σ) := h.writesAt_splitBlock (by omega)
    refine ⟨[b.start, b.start + 16 + size.toNat, b.stop], ?_, ?_⟩
    · intro o ho
      simp only [List.mem_cons, List.not_mem_nil, or_false] at ho
      omega
    · exact (hsplit.countUsed _).setMagic h.geometry (by simp) (by omega) _
  · have hset : WritesAt [b.start] σ (σ.setUsed (σ.ptr b.start) 1) :=
      (Writes.setUsed (by simp) 1).atOne h.geometry (by omega)
    refine ⟨[b.start], ?_, ?_⟩
    · intro o ho
      rw [List.mem_singleton.mp ho]
      omega
    · exact (hset.countUsed _).setMagic h.geometry (by simp) (by omega) _

/-- Writes inside one block and to the header after it keep the other payloads. -/
theorem Shape.keeps_of_ne {os : List ℕ} (h : Shape σ bs) (hb : b ∈ bs) (hu : u ∈ bs)
    (hne : u ≠ b) (hos : ∀ o ∈ os, b.start ≤ o ∧ o ≤ b.stop) (hw : WritesAt os σ σ') :
    PayloadKept u σ σ' := by
  apply hw.keeps
  intro o ho
  have := hos o ho
  rcases h.tiles.apart hb hu with hbu | hlt | hlt
  · exact absurd hbu.symm hne
  · exact Or.inl (by omega)
  · exact Or.inr (by omega)

theorem Shape.keeps_takeBlock (h : Shape σ (as ++ b :: bs)) (hsize : size.toNat + 32 < 2 ^ 32)
    (hu : u ∈ as ++ b :: bs) (hne : u ≠ b) :
    PayloadKept u σ (LuojiOs.takeBlock (BitVec.ofNat 32 b.start) size σ) := by
  obtain ⟨os, hos, hw⟩ := h.writesAt_takeBlock hsize
  exact h.keeps_of_ne (by simp) hu hne hos hw

theorem lfree_splitBlock {ptr : BitVec 32} (take : Bool) :
    (splitBlock ptr size take σ).lfree = σ.lfree := by
  have hheaders : (splitHeaders ptr size take σ).lfree = σ.lfree := by
    cases take <;> rfl
  rw [LuojiOs.splitBlock_eq]
  dsimp only
  split
  · exact hheaders
  · exact hheaders

theorem lfree_setMagic {p : BitVec 32} {v : BitVec 16} : (σ.setMagic p v).lfree = σ.lfree := rfl

theorem lfree_countUsed {n : BitVec 32} : (σ.countUsed n).lfree = σ.lfree := rfl

theorem lfree_takeBlock {ptr : BitVec 32} :
    (LuojiOs.takeBlock ptr size σ).lfree = σ.lfree := by
  unfold LuojiOs.takeBlock
  dsimp only
  rw [lfree_setMagic]
  split
  · rw [lfree_countUsed, lfree_splitBlock]
  · rfl

/-- `free` marks its block and moves `lfree` down to it. -/
theorem Shape.releaseBlock (h : Shape σ (as ++ b :: bs)) :
    Shape (releaseBlock (σ.ptr b.start) σ) (as ++ ⟨b.start, b.stop, false⟩ :: bs) := by
  have hmark : Shape (σ.setUsed (σ.ptr b.start) 0) _ := h.markUsed false
  have hmagic : Shape ((σ.setUsed (σ.ptr b.start) 0).setMagic (σ.ptr b.start) HEAP_MAGIC)
      (as ++ ⟨b.start, b.stop, false⟩ :: bs) := hmark.setMagic
  unfold LuojiOs.releaseBlock
  apply Shape.countFreed
  split
  · exact hmagic.setLfree _
  · exact hmagic

theorem Shape.writesAt_releaseBlock (h : Shape σ (as ++ b :: bs)) :
    WritesAt [b.start] σ (LuojiOs.releaseBlock (σ.ptr b.start) σ) := by
  have hb : b ∈ as ++ b :: bs := by simp
  have hroom := h.room_of_mem hb
  have hle := h.stop_le hb
  have hset : WritesAt [b.start] σ (σ.setUsed (σ.ptr b.start) 0) :=
    (Writes.setUsed (by simp) 0).atOne h.geometry (by omega)
  have hmagic := hset.setMagic h.geometry (List.mem_singleton.mpr rfl) (by omega) HEAP_MAGIC
  unfold LuojiOs.releaseBlock
  apply WritesAt.countFreed
  split
  · exact hmagic.setLfree _
  · exact hmagic

theorem lfree_releaseBlock {p : BitVec 32} :
    (LuojiOs.releaseBlock p σ).lfree = if p < σ.lfree then p else σ.lfree := by
  change (if p < σ.lfree then Heap.setLfree p _ else _ : Heap).lfree = _
  split <;> rfl

end Mark

end LuojiOs
