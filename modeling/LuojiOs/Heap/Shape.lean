import LuojiOs.Heap.Layout

/-!
# The operations on the block list

Each piece of a heap call is described by what it does to the list of blocks.  The pieces
write to headers only, so the payload of a block that stays in the list is kept.
-/

namespace LuojiOs

open Tiling

/-! ## Offsets and addresses -/

namespace Heap

/-- The offset of `heap_end`. -/
def endOff (σ : Heap) : ℕ := σ.memSizeAligned.toNat + 16

/-- `&heap_ptr[o]` -/
def ptr (o : ℕ) (σ : Heap) : BitVec 32 := σ.heapPtr + BitVec.ofNat 32 o

/-- The header at the offset `o`. -/
def off (σ : Heap) (o : ℕ) : HeapMem := σ.hdr (σ.ptr o)

end Heap

/-- Where the heap lies. -/
structure Geometry (σ : Heap) : Prop where
  base : σ.heapPtr.toNat % 8 = 0
  size : σ.memSizeAligned.toNat % 8 = 0
  room : σ.heapPtr.toNat + σ.memSizeAligned.toNat + 32 < 2 ^ 32
  heapEnd : σ.heapEnd = σ.ptr σ.endOff

namespace Geometry

variable {σ σ' : Heap} {o o' : ℕ}

theorem congr (h : Geometry σ) (hs : SameStatics σ σ') : Geometry σ' := by
  obtain ⟨hbase, hsize, hroom, hend⟩ := h
  constructor
  · rw [hs.heapPtr]
    exact hbase
  · rw [hs.memSizeAligned]
    exact hsize
  · rw [hs.heapPtr, hs.memSizeAligned]
    exact hroom
  · rw [hs.heapEnd, hend]
    unfold Heap.ptr Heap.endOff
    rw [hs.heapPtr, hs.memSizeAligned]

theorem toNat_ptr (h : Geometry σ) (ho : o ≤ σ.endOff) :
    (σ.ptr o).toNat = σ.heapPtr.toNat + o := by
  have := h.room
  unfold Heap.endOff at ho
  unfold Heap.ptr
  rw [BitVec.toNat_add, BitVec.toNat_ofNat]
  omega

theorem toNat_ofNat (h : Geometry σ) (ho : o ≤ σ.endOff) : (BitVec.ofNat 32 o).toNat = o := by
  have := h.room
  unfold Heap.endOff at ho
  rw [BitVec.toNat_ofNat]
  omega

theorem ptr_inj (h : Geometry σ) (ho : o ≤ σ.endOff) (ho' : o' ≤ σ.endOff) :
    σ.ptr o = σ.ptr o' ↔ o = o' := by
  constructor
  · intro heq
    have := congrArg BitVec.toNat heq
    rw [h.toNat_ptr ho, h.toNat_ptr ho'] at this
    omega
  · rintro rfl
    rfl

theorem ptr_lt (h : Geometry σ) (ho : o ≤ σ.endOff) (ho' : o' ≤ σ.endOff) :
    σ.ptr o < σ.ptr o' ↔ o < o' := by
  rw [BitVec.lt_def, h.toNat_ptr ho, h.toNat_ptr ho']
  omega

theorem apart (h : Geometry σ) (ho : o ≤ σ.endOff) (ho' : o' ≤ σ.endOff)
    (hapart : o + 16 ≤ o' ∨ o' + 16 ≤ o) : HeadersApart (σ.ptr o) (σ.ptr o') := by
  unfold HeadersApart
  rw [h.toNat_ptr ho, h.toNat_ptr ho']
  omega

end Geometry

section Ptr

variable {σ σ' : Heap} {o : ℕ}

theorem ptr_congr (h : SameStatics σ σ') : σ'.ptr o = σ.ptr o := by
  unfold Heap.ptr
  rw [h.heapPtr]

theorem endOff_congr (h : SameStatics σ σ') : σ'.endOff = σ.endOff := by
  unfold Heap.endOff
  rw [h.memSizeAligned]

theorem heapPtr_add_ofNat : σ.heapPtr + BitVec.ofNat 32 o = σ.ptr o := rfl

theorem ptr_sub_heapPtr : σ.ptr o - σ.heapPtr = BitVec.ofNat 32 o := by
  unfold Heap.ptr
  rw [BitVec.add_comm]
  exact BitVec.add_sub_cancel _ _

theorem ofNat_add_header : BitVec.ofNat 32 o + SIZEOF_STRUCT_MEM = BitVec.ofNat 32 (o + 16) := by
  rw [BitVec.ofNat_add]
  rfl

theorem ptr_add_header : σ.ptr o + SIZEOF_STRUCT_MEM = σ.ptr (o + 16) := by
  unfold Heap.ptr
  rw [BitVec.add_assoc, ofNat_add_header]

theorem ptr_sub_header : σ.ptr (o + 16) - SIZEOF_STRUCT_MEM = σ.ptr o := by
  rw [← ptr_add_header]
  exact BitVec.add_sub_cancel _ _

theorem endOff_eq : σ.memSizeAligned + SIZEOF_STRUCT_MEM = BitVec.ofNat 32 σ.endOff := by
  unfold Heap.endOff
  rw [← ofNat_add_header, BitVec.ofNat_toNat, BitVec.setWidth_eq]

end Ptr

/-! ## Shapes -/

/-- The memory describes the blocks `bs`. -/
structure Shape (σ : Heap) (bs : List Block) : Prop where
  geometry : Geometry σ
  chain : Chain σ.off 0 0 bs σ.endOff
  last : (σ.off σ.endOff).used = 1 ∧ (σ.off σ.endOff).next = BitVec.ofNat 32 σ.endOff
  aligned : ∀ b ∈ bs, b.start % 8 = 0 ∧ b.stop % 8 = 0

/-- The payload of the block `b` is the same in both heaps. -/
def PayloadKept (b : Block) (σ σ' : Heap) : Prop :=
  ∀ x, b.start + 16 ≤ x → x < b.stop →
    σ'.bytes (σ.heapPtr.toNat + x) = σ.bytes (σ.heapPtr.toNat + x)

theorem PayloadKept.refl (b : Block) (σ : Heap) : PayloadKept b σ σ := fun _ _ _ => rfl

theorem PayloadKept.trans {b : Block} {σ σ₁ σ₂ : Heap} (h : PayloadKept b σ σ₁)
    (hs : σ₁.heapPtr = σ.heapPtr) (h' : PayloadKept b σ₁ σ₂) : PayloadKept b σ σ₂ := by
  intro x hlo hhi
  have h₂ := h' x hlo hhi
  rw [hs] at h₂
  exact h₂.trans (h x hlo hhi)

namespace Shape

variable {σ σ' : Heap} {as bs : List Block} {b c u : Block} {o : ℕ}

theorem tiles (h : Shape σ bs) : Tiles Block.start Block.stop 0 bs σ.endOff := h.chain.tiles

theorem stop_le (h : Shape σ bs) (hb : b ∈ bs) : b.stop ≤ σ.endOff :=
  (h.tiles.mem_bounds hb).2.2

theorem room_of_mem (h : Shape σ bs) (hb : b ∈ bs) : b.start + 16 ≤ b.stop := by
  obtain ⟨as, cs, rfl⟩ := List.append_of_mem hb
  exact (chain_append_cons.mp h.chain).2.2.1

theorem off_of_mem (h : Shape σ bs) (hb : b ∈ bs) :
    ∃ p, σ.off b.start = b.header p := by
  obtain ⟨as, cs, rfl⟩ := List.append_of_mem hb
  exact ⟨_, (chain_append_cons.mp h.chain).2.1⟩

/-- A block is the last one, or the next header follows it. -/
theorem stop_cases (h : Shape σ (as ++ b :: bs)) :
    (bs = [] ∧ b.stop = σ.endOff) ∨ (bs ≠ [] ∧ b.stop + 16 ≤ σ.endOff) := by
  have htiles := (chain_append_cons.mp h.chain).2.2.2.tiles
  cases bs with
  | nil => exact Or.inl ⟨rfl, htiles⟩
  | cons d ds =>
      have hd := h.room_of_mem (b := d) (by simp)
      have hle := h.stop_le (b := d) (by simp)
      have hstart : d.start = b.stop := htiles.1
      exact Or.inr ⟨List.cons_ne_nil d ds, by omega⟩

/-- Changes outside the headers do not matter. -/
theorem congr (h : Shape σ bs) (hs : SameStatics σ σ')
    (hoff : ∀ o, o ≤ σ.endOff → σ'.off o = σ.off o) : Shape σ' bs where
  geometry := h.geometry.congr hs
  chain := by
    rw [endOff_congr hs]
    apply h.chain.congr
    intro x _ hx
    exact hoff x (by omega)
  last := by
    rw [endOff_congr hs, hoff _ (Nat.le_refl _)]
    exact h.last
  aligned := h.aligned

theorem of_bytes_eq (h : Shape σ bs) (hs : SameStatics σ σ') (hb : σ'.bytes = σ.bytes) :
    Shape σ' bs := by
  apply h.congr hs
  intro o _
  unfold Heap.off
  rw [ptr_congr hs]
  exact hdr_congr fun i _ => by rw [hb]

end Shape

/-- What a write to the headers at the offsets `os` leaves. -/
structure WritesAt (os : List ℕ) (σ σ' : Heap) : Prop where
  statics : SameStatics σ σ'
  bytes : ∀ x, (∀ o ∈ os, x < o ∨ o + 12 ≤ x) →
    σ'.bytes (σ.heapPtr.toNat + x) = σ.bytes (σ.heapPtr.toNat + x)

theorem Writes.at {σ σ' : Heap} {A : List (BitVec 32)} {os : List ℕ} (hg : Geometry σ)
    (h : Writes A σ σ') (hA : ∀ p ∈ A, ∃ o ∈ os, o ≤ σ.endOff ∧ p = σ.ptr o) :
    WritesAt os σ σ' where
  statics := h.statics
  bytes x hx := by
    apply h.bytes
    intro p hp
    obtain ⟨o, ho, hle, rfl⟩ := hA p hp
    rw [hg.toNat_ptr hle]
    have := hx o ho
    omega

namespace WritesAt

variable {σ σ' σ₁ σ₂ : Heap} {os : List ℕ} {o : ℕ} {b : Block} {bs : List Block}

theorem trans (h : WritesAt os σ σ₁) (h' : WritesAt os σ₁ σ₂) : WritesAt os σ σ₂ where
  statics := h.statics.trans h'.statics
  bytes x hx := by
    have h₂ := h'.bytes x hx
    rw [h.statics.heapPtr] at h₂
    exact h₂.trans (h.bytes x hx)

theorem mono {os' : List ℕ} (h : WritesAt os σ σ') (hos : ∀ o ∈ os, o ∈ os') :
    WritesAt os' σ σ' :=
  ⟨h.statics, fun x hx => h.bytes x fun o ho => hx o (hos o ho)⟩

theorem countUsed (h : WritesAt os σ σ') (n : BitVec 32) : WritesAt os σ (σ'.countUsed n) :=
  ⟨h.statics.trans (sameStatics_countUsed n), h.bytes⟩

theorem countFreed (h : WritesAt os σ σ') (n : BitVec 32) : WritesAt os σ (σ'.countFreed n) :=
  ⟨h.statics.trans (sameStatics_countFreed n), h.bytes⟩

theorem setLfree (h : WritesAt os σ σ') (p : BitVec 32) : WritesAt os σ (σ'.setLfree p) :=
  ⟨h.statics.trans sameStatics_setLfree, h.bytes⟩

theorem off_eq (h : WritesAt os σ σ') (hg : Geometry σ) (ho : o ≤ σ.endOff)
    (hos : ∀ x ∈ os, o + 16 ≤ x ∨ x + 16 ≤ o) : σ'.off o = σ.off o := by
  unfold Heap.off
  rw [ptr_congr h.statics]
  apply hdr_congr
  intro i hi
  rw [hg.toNat_ptr ho, Nat.add_assoc]
  apply h.bytes
  intro x hx
  have := hos x hx
  omega

/-- A write to headers at the boundaries of blocks keeps the payloads. -/
theorem keeps (h : WritesAt os σ σ') (hos : ∀ o ∈ os, o ≤ b.start ∨ b.stop ≤ o) :
    PayloadKept b σ σ' := by
  intro x hlo hhi
  apply h.bytes
  intro o ho
  have := hos o ho
  omega

end WritesAt

/-! ## Joining -/

/-- The writes of both halves of `plug_holes`: the block at `o` is to end at `k`. -/
def joinAt (o k : ℕ) (σ : Heap) : Heap :=
  (σ.setNext (σ.ptr o) (BitVec.ofNat 32 k)).setPrev (σ.ptr k) (BitVec.ofNat 32 o)

section Join

variable {σ : Heap} {as bs : List Block} {a b c u : Block} {o k : ℕ}

theorem writes_joinAt (o k : ℕ) (σ : Heap) :
    Writes [σ.ptr o, σ.ptr k] σ (joinAt o k σ) :=
  (Writes.setNext (by simp) _).trans (Writes.setPrev (by simp) _)

theorem writesAt_joinAt (hg : Geometry σ) (ho : o ≤ σ.endOff) (hk : k ≤ σ.endOff) :
    WritesAt [o, k] σ (joinAt o k σ) := by
  apply (writes_joinAt o k σ).at hg
  intro p hp
  rcases List.mem_pair.mp hp with rfl | rfl
  · exact ⟨o, by simp, ho, rfl⟩
  · exact ⟨k, by simp, hk, rfl⟩

theorem off_joinAt_first (hg : Geometry σ) (hk : k ≤ σ.endOff) (hok : o + 16 ≤ k) :
    (joinAt o k σ).off o = { σ.off o with next := BitVec.ofNat 32 k } := by
  have hset : (σ.setNext (σ.ptr o) (BitVec.ofNat 32 k)).hdr (σ.ptr o) =
      { σ.hdr (σ.ptr o) with next := BitVec.ofNat 32 k } := hdr_setNext _
  exact (hdr_setPrev_of_apart (hg.apart hk (by omega) (Or.inr hok))).trans hset

theorem off_joinAt_second (hg : Geometry σ) (hk : k ≤ σ.endOff) (hok : o + 16 ≤ k) :
    (joinAt o k σ).off k = { σ.off k with prev := BitVec.ofNat 32 o } := by
  have hframe : (σ.setNext (σ.ptr o) (BitVec.ofNat 32 k)).hdr (σ.ptr k) = σ.hdr (σ.ptr k) :=
    hdr_setNext_of_apart (hg.apart (by omega) hk (Or.inl hok))
  have hset : (joinAt o k σ).hdr (σ.ptr k) =
      { (σ.setNext (σ.ptr o) (BitVec.ofNat 32 k)).hdr (σ.ptr k) with
        prev := BitVec.ofNat 32 o } := hdr_setPrev _
  rw [hframe] at hset
  exact hset

theorem Shape.join (h : Shape σ (as ++ b :: c :: bs)) :
    Shape (joinAt b.start c.stop σ) (as ++ ⟨b.start, c.stop, b.used⟩ :: bs) := by
  have hb : b ∈ as ++ b :: c :: bs := by simp
  have hc : c ∈ as ++ b :: c :: bs := by simp
  have hbs := h.room_of_mem hb
  have hcs := h.room_of_mem hc
  have hadj : c.start = b.stop := (chain_append_cons.mp h.chain).2.2.2.1
  have hk := h.stop_le hc
  have hw := writesAt_joinAt (o := b.start) h.geometry (by omega) hk
  have hfirst := off_joinAt_first (o := b.start) h.geometry hk (by omega)
  have hsecond := off_joinAt_second (o := b.start) h.geometry hk (by omega)
  refine ⟨h.geometry.congr hw.statics, ?_, ?_, ?_⟩
  · rw [endOff_congr hw.statics]
    apply h.chain.merge hfirst (fun _ => hsecond)
    intro x hx hxe
    apply hw.off_eq h.geometry (by omega)
    intro y hy
    rcases List.mem_pair.mp hy with rfl | rfl
    · omega
    · omega
  · rw [endOff_congr hw.statics]
    have h' : Shape σ ((as ++ [b]) ++ c :: bs) := by simpa using h
    rcases h'.stop_cases with ⟨-, hend⟩ | ⟨-, hgap⟩
    · rw [← hend, hsecond, hend]
      exact h.last
    · rw [hw.off_eq h.geometry (Nat.le_refl _)]
      · exact h.last
      · intro y hy
        rcases List.mem_pair.mp hy with rfl | rfl
        · omega
        · omega
  · intro d hd
    rcases List.mem_append.mp hd with hd | hd
    · exact h.aligned d (by simp [hd])
    · rcases List.mem_cons.mp hd with rfl | hd
      · exact ⟨(h.aligned b hb).1, (h.aligned c hc).2⟩
      · exact h.aligned d (by simp [hd])

/-- Joining keeps the payloads of the blocks in the list. -/
theorem Shape.keeps_joinAt (h : Shape σ (as ++ b :: c :: bs)) (hu : u ∈ as ++ b :: c :: bs) :
    PayloadKept u σ (joinAt b.start c.stop σ) := by
  have hb : b ∈ as ++ b :: c :: bs := by simp
  have hc : c ∈ as ++ b :: c :: bs := by simp
  have hbs := h.room_of_mem hb
  have hcs := h.room_of_mem hc
  have hadj : c.start = b.stop := (chain_append_cons.mp h.chain).2.2.2.1
  apply (writesAt_joinAt (o := b.start) h.geometry _ (h.stop_le hc)).keeps
  · intro y hy
    rcases List.mem_pair.mp hy with rfl | rfl
    · rcases h.tiles.apart hb hu with rfl | hlt | hlt
      · exact Or.inl (Nat.le_refl _)
      · exact Or.inl (by omega)
      · exact Or.inr hlt
    · rcases h.tiles.apart hc hu with rfl | hlt | hlt
      · exact Or.inr (Nat.le_refl _)
      · exact Or.inl hlt
      · exact Or.inr (by omega)
  · have := h.stop_le hb
    omega

theorem used_header_eq_zero (b : Block) (p : ℕ) : (b.header p).used = 0 ↔ b.used = false := by
  unfold Block.header
  cases b.used <;> simp

/-- `lfree` when the block at `o` is joined to the one at `o'`. -/
def followLfree (o o' : ℕ) (σ : Heap) : Heap :=
  if σ.lfree = σ.ptr o then σ.setLfree (σ.ptr o') else σ

theorem sameStatics_followLfree : SameStatics σ (followLfree o k σ) :=
  .ite sameStatics_setLfree (.refl σ)

theorem bytes_followLfree : (followLfree o k σ).bytes = σ.bytes := by
  unfold followLfree
  split <;> rfl

theorem hdr_followLfree {p : BitVec 32} : (followLfree o k σ).hdr p = σ.hdr p := by
  apply hdr_congr
  intro i _
  rw [bytes_followLfree]

theorem Shape.hdr_ptr (h : Shape σ bs) (hb : b ∈ bs) :
    (σ.hdr (σ.ptr b.start)).next = BitVec.ofNat 32 b.stop ∧
      ((σ.hdr (σ.ptr b.start)).used = 0 ↔ b.used = false) := by
  obtain ⟨p, hoff⟩ := h.off_of_mem hb
  have hoff' : σ.hdr (σ.ptr b.start) = b.header p := hoff
  rw [hoff']
  exact ⟨rfl, used_header_eq_zero b p⟩

/-- The writes of one half of `plug_holes`, once it is known which block it joins. -/
theorem join_eq {p : BitVec 32} {o k : ℕ}
    (hk : (σ.hdr p).next = BitVec.ofNat 32 k)
    (hp : p = σ.ptr o ∨ HeadersApart (σ.ptr o) p) :
    (σ.setNext (σ.ptr o) (σ.hdr p).next).setPrev
        (σ.heapPtr + ((σ.setNext (σ.ptr o) (σ.hdr p).next).hdr p).next)
        (σ.ptr o - σ.heapPtr) = joinAt o k σ := by
  have hread : ((σ.setNext (σ.ptr o) (σ.hdr p).next).hdr p).next = BitVec.ofNat 32 k := by
    rcases hp with rfl | hp
    · rw [hdr_setNext]
      exact hk
    · rw [hdr_setNext_of_apart hp]
      exact hk
  rw [hread, hk, ptr_sub_heapPtr]
  rfl

theorem plugForward_of_free (h : Shape σ (as ++ b :: c :: bs)) (hfree : c.used = false) :
    plugForward (σ.ptr b.start) σ = joinAt b.start c.stop (followLfree c.start b.start σ) := by
  have hb : b ∈ as ++ b :: c :: bs := by simp
  have hc : c ∈ as ++ b :: c :: bs := by simp
  have hbs := h.room_of_mem hb
  have hcs := h.room_of_mem hc
  have hle := h.stop_le hc
  have hadj : c.start = b.stop := (chain_append_cons.mp h.chain).2.2.2.1
  have hnext : σ.heapPtr + (σ.hdr (σ.ptr b.start)).next = σ.ptr c.start := by
    rw [(h.hdr_ptr hb).1, hadj]
    rfl
  have htest : σ.ptr b.start ≠ σ.ptr c.start ∧ (σ.hdr (σ.ptr c.start)).used = 0 ∧
      σ.ptr c.start ≠ σ.heapEnd := by
    refine ⟨?_, (h.hdr_ptr hc).2.mpr hfree, ?_⟩
    · rw [Ne, h.geometry.ptr_inj (by omega) (by omega)]
      omega
    · rw [h.geometry.heapEnd, Ne, h.geometry.ptr_inj (by omega) (Nat.le_refl _)]
      omega
  have hs := sameStatics_followLfree (σ := σ) (o := c.start) (k := b.start)
  have hapart : HeadersApart (σ.ptr b.start) (σ.ptr c.start) :=
    h.geometry.apart (by omega) (by omega) (by omega)
  have hread : ((followLfree c.start b.start σ).hdr (σ.ptr c.start)).next =
      BitVec.ofNat 32 c.stop := by
    rw [hdr_followLfree]
    exact (h.hdr_ptr hc).1
  rw [← ptr_congr hs (o := b.start)] at hapart
  have hjoin := join_eq hread (Or.inr hapart)
  rw [ptr_congr hs] at hjoin
  unfold plugForward
  dsimp only
  rw [hnext, if_pos htest]
  exact hjoin

/-- Nothing is joined if the block after `b` is used or `b` is the last one. -/
theorem plugForward_of_used (h : Shape σ (as ++ b :: bs))
    (hused : ∀ c ∈ bs.head?, c.used = true) : plugForward (σ.ptr b.start) σ = σ := by
  have hb : b ∈ as ++ b :: bs := by simp
  have hnext : σ.heapPtr + (σ.hdr (σ.ptr b.start)).next = σ.ptr b.stop := by
    rw [(h.hdr_ptr hb).1]
    rfl
  unfold plugForward
  dsimp only
  rw [hnext, if_neg]
  rintro ⟨-, hzero, hend⟩
  have htiles := (chain_append_cons.mp h.chain).2.2.2.tiles
  cases bs with
  | nil =>
      have hstop : b.stop = σ.endOff := htiles
      exact hend (by rw [hstop, h.geometry.heapEnd])
  | cons c cs =>
      have hstart : c.start = b.stop := htiles.1
      rw [← hstart, (h.hdr_ptr (by simp)).2, hused c rfl] at hzero
      cases hzero

theorem plugBackward_of_free (h : Shape σ (as ++ a :: b :: bs)) (hfree : a.used = false) :
    plugBackward (σ.ptr b.start) σ = joinAt a.start b.stop (followLfree b.start a.start σ) := by
  have ha : a ∈ as ++ a :: b :: bs := by simp
  have hb : b ∈ as ++ a :: b :: bs := by simp
  have hamem := h.room_of_mem ha
  have hle := h.stop_le hb
  have hbs := h.room_of_mem hb
  have hadj : b.start = a.stop := (chain_append_cons.mp h.chain).2.2.2.1
  have hprev : σ.heapPtr + (σ.hdr (σ.ptr b.start)).prev = σ.ptr a.start := by
    have hoff : σ.off b.start = b.header a.start := (chain_append_cons.mp h.chain).2.2.2.2.1
    have hoff' : σ.hdr (σ.ptr b.start) = b.header a.start := hoff
    rw [hoff']
    rfl
  have htest : σ.ptr a.start ≠ σ.ptr b.start ∧ (σ.hdr (σ.ptr a.start)).used = 0 := by
    refine ⟨?_, (h.hdr_ptr ha).2.mpr hfree⟩
    rw [Ne, h.geometry.ptr_inj (by omega) (by omega)]
    omega
  have hs := sameStatics_followLfree (σ := σ) (o := b.start) (k := a.start)
  have hapart : HeadersApart (σ.ptr a.start) (σ.ptr b.start) :=
    h.geometry.apart (by omega) (by omega) (by omega)
  have hread : ((followLfree b.start a.start σ).hdr (σ.ptr b.start)).next =
      BitVec.ofNat 32 b.stop := by
    rw [hdr_followLfree]
    exact (h.hdr_ptr hb).1
  rw [← ptr_congr hs (o := a.start)] at hapart
  have hjoin := join_eq hread (Or.inr hapart)
  rw [ptr_congr hs] at hjoin
  unfold plugBackward
  dsimp only
  rw [hprev, if_pos htest]
  exact hjoin

/-- Nothing is joined if the block before `b` is used or `b` is the first one. -/
theorem plugBackward_of_used (h : Shape σ (as ++ b :: bs))
    (hused : ∀ a ∈ as.getLast?, a.used = true) : plugBackward (σ.ptr b.start) σ = σ := by
  have hoff : σ.off b.start = b.header (lastStart 0 as) := (chain_append_cons.mp h.chain).2.1
  have hprev : σ.heapPtr + (σ.hdr (σ.ptr b.start)).prev = σ.ptr (lastStart 0 as) := by
    have hoff' : σ.hdr (σ.ptr b.start) = b.header (lastStart 0 as) := hoff
    rw [hoff']
    rfl
  unfold plugBackward
  dsimp only
  rw [hprev, if_neg]
  rintro ⟨hne, hzero⟩
  rcases List.eq_nil_or_concat as with rfl | ⟨as', a, rfl⟩
  · have hstart : b.start = 0 := h.chain.1
    exact hne (by rw [hstart]; rfl)
  · rw [List.concat_eq_append] at *
    have hlast : lastStart 0 (as' ++ [a]) = a.start := lastStart_append_singleton
    rw [hlast, (h.hdr_ptr (by simp)).2, hused a (by simp)] at hzero
    cases hzero

end Join

end LuojiOs
