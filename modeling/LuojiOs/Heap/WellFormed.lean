import LuojiOs.Heap.Live
import Mathlib.Data.List.Chain

/-!
# Well-formed heaps

In a well-formed heap every block has room for 16 bytes, no two neighbours are both free,
and `lfree` is the lowest free block.  `malloc`, `calloc` and `free` keep it so; `realloc`
does unless it cuts a block down to 8 bytes, or cuts off a free block below `lfree`.
-/

namespace LuojiOs

open Tiling

/-! ## Well-formed lists of blocks -/

/-- One of two neighbours is used. -/
def Parted (a b : Block) : Prop := a.used = true ∨ b.used = true

/-- The blocks `bs` of a heap whose lowest free block is at `f`. -/
structure Tidy (bs : List Block) (f : ℕ) : Prop where
  room : ∀ b ∈ bs, b.start + 16 + 16 ≤ b.stop
  parted : bs.IsChain Parted
  lowest : ∀ b ∈ bs, b.used = false → f ≤ b.start

section Lists

variable {as bs cs bs' : List Block} {b b₁ c u : Block} {e f f' f₁ n o : ℕ}

theorem isChain_around :
    (as ++ b :: bs).IsChain Parted ↔
      as.IsChain Parted ∧ (∀ a ∈ as.getLast?, Parted a b) ∧
        (∀ c ∈ bs.head?, Parted b c) ∧ bs.IsChain Parted := by
  rw [List.isChain_append, List.isChain_cons]
  simp only [List.head?_cons, Option.mem_def, Option.some.injEq, forall_eq']
  tauto

/-- A free block has used neighbours. -/
theorem isChain_free (hb : b.used = false) :
    (as ++ b :: bs).IsChain Parted ↔
      as.IsChain Parted ∧ (∀ a ∈ as.getLast?, a.used = true) ∧
        (∀ c ∈ bs.head?, c.used = true) ∧ bs.IsChain Parted := by
  rw [isChain_around]
  simp [Parted, hb]

/-- A used block may have any neighbours. -/
theorem isChain_used (hb : b.used = true) :
    (as ++ b :: bs).IsChain Parted ↔ as.IsChain Parted ∧ bs.IsChain Parted := by
  rw [isChain_around]
  simp [Parted, hb]

/-! ## Giving a block out -/

theorem Tidy.taken (h : Tidy (as ++ c :: cs) f) (hc : c.used = false)
    (ht : Tiles Block.start Block.stop o (as ++ c :: cs) e) (hn : 16 ≤ n)
    (hnext : Arena.NextLfree c e (LuojiOs.taken n c ++ cs) f f') :
    Tidy (as ++ (LuojiOs.taken n c ++ cs)) f' := by
  obtain ⟨has, hlast, hhead, hcs⟩ := (isChain_free hc).mp h.parted
  obtain ⟨hleft, -, hright⟩ := tiles_append_cons.mp ht
  have hcf : f ≤ c.start := h.lowest c (by simp) hc
  constructor
  · intro d hd
    rcases List.mem_append.mp hd with hd | hd
    · exact h.room d (by simp [hd])
    · rcases List.mem_append.mp hd with hd | hd
      · unfold LuojiOs.taken at hd
        split at hd
        · simp only [List.mem_cons, List.not_mem_nil, or_false] at hd
          rcases hd with rfl | rfl
          · dsimp only
            omega
          · dsimp only
            omega
        · rw [List.mem_singleton.mp hd]
          exact h.room c (by simp)
      · exact h.room d (by simp [hd])
  · unfold LuojiOs.taken
    split
    · have hrest : ([] ++ (⟨c.start + 16 + n, c.stop, false⟩ : Block) :: cs).IsChain Parted :=
        (isChain_free rfl).mpr ⟨List.isChain_nil, by simp, hhead, hcs⟩
      exact (isChain_used rfl).mpr ⟨has, hrest⟩
    · exact (isChain_used rfl).mpr ⟨has, hcs⟩
  · intro d hd hfree
    rcases hnext with ⟨hne, rfl⟩ | ⟨hf, -, hlow⟩
    · rcases List.mem_append.mp hd with hd | hd
      · exact h.lowest d (by simp [hd]) hfree
      · rcases List.mem_append.mp hd with hd | hd
        · unfold LuojiOs.taken at hd
          split at hd
          · simp only [List.mem_cons, List.not_mem_nil, or_false] at hd
            rcases hd with rfl | rfl
            · cases hfree
            · dsimp only
              omega
          · rw [List.mem_singleton.mp hd] at hfree
            cases hfree
        · exact h.lowest d (by simp [hd]) hfree
    · rcases List.mem_append.mp hd with hd | hd
      · -- a free block before `c` would have been the lowest
        have hlow := h.lowest d (by simp [hd]) hfree
        have := hleft.mem_bounds hd
        omega
      · exact hlow d hd hfree

/-! ## Joining -/

/-- The blocks around the free block `b`, before it is joined with its neighbours.  Its
successor may be the lowest free block. -/
structure Loose (as : List Block) (b : Block) (bs : List Block) (f : ℕ) : Prop where
  room : ∀ d ∈ as ++ b :: bs, d.start + 16 + 16 ≤ d.stop
  left : as.IsChain Parted
  right : bs.IsChain Parted
  lowest : ∀ d ∈ as ++ bs, d.used = false → f ≤ d.start
  spot : f ≤ b.start ∨ ∃ c ∈ bs.head?, c.used = false ∧ f = c.start

/-- After the first half of `plug_holes` the free block is followed by a used one, and
`lfree` is not above it. -/
structure HalfPlugged (as : List Block) (b : Block) (bs : List Block) (f : ℕ) : Prop where
  room : ∀ d ∈ as ++ b :: bs, d.start + 16 + 16 ≤ d.stop
  left : as.IsChain Parted
  right : bs.IsChain Parted
  head : ∀ c ∈ bs.head?, c.used = true
  lowest : ∀ d ∈ as ++ b :: bs, d.used = false → f ≤ d.start

theorem Loose.joinNext (h : Loose as b bs f) (hb : b.used = false)
    (ht : Tiles Block.start Block.stop o (as ++ b :: bs) e) (hj : JoinNext b f bs b₁ cs f₁) :
    HalfPlugged as b₁ cs f₁ := by
  obtain ⟨hleft, -, hright⟩ := tiles_append_cons.mp ht
  cases hj with
  | keep hused =>
      refine ⟨h.room, h.left, h.right, hused, ?_⟩
      intro d hd hfree
      simp only [List.mem_append, List.mem_cons] at hd
      rcases hd with hd | rfl | hd
      · exact h.lowest d (by simp [hd]) hfree
      · rcases h.spot with hle | ⟨c, hc, hcfree, -⟩
        · exact hle
        · exact absurd (hused c hc) (by simp [hcfree])
      · exact h.lowest d (by simp [hd]) hfree
  | @join c cs hc =>
      obtain ⟨hstart, hlt, hcs⟩ := hright
      have hbroom := h.room b (by simp)
      obtain ⟨hhead, hchain⟩ := List.isChain_cons.mp h.right
      refine ⟨?_, h.left, hchain, ?_, ?_⟩
      · intro d hd
        simp only [List.mem_append, List.mem_cons] at hd
        rcases hd with hd | rfl | hd
        · exact h.room d (by simp [hd])
        · dsimp only
          omega
        · exact h.room d (by simp [hd])
      · intro d hd
        rcases hhead d hd with hused | hused
        · simp [hc] at hused
        · exact hused
      · intro d hd hfree
        simp only [List.mem_append, List.mem_cons] at hd
        rcases hd with hd | rfl | hd
        · have hlow := h.lowest d (by simp [hd]) hfree
          have := hleft.mem_bounds hd
          split
          · omega
          · exact hlow
        · dsimp only
          split
          · exact Nat.le_refl _
          · next hne =>
            rcases h.spot with hle | ⟨c', hc', -, hf⟩
            · exact hle
            · obtain rfl := Option.some.inj hc'
              exact absurd hf hne
        · have hlow := h.lowest d (by simp [hd]) hfree
          have := hcs.mem_bounds hd
          split
          · omega
          · exact hlow

theorem HalfPlugged.joinPrev {ds : List Block} {b₂ : Block} (h : HalfPlugged as b₁ cs f₁)
    (hb : b₁.used = false) (ht : Tiles Block.start Block.stop o (as ++ b₁ :: cs) e)
    (hj : JoinPrev b₁ f₁ as ds b₂ f') : Tidy (ds ++ b₂ :: cs) f' := by
  cases hj with
  | keep hused =>
      exact ⟨h.room, (isChain_free hb).mpr ⟨h.left, hused, h.head, h.right⟩, h.lowest⟩
  | @join a ds ha =>
      have hbroom := h.room b₁ (by simp)
      have haroom := h.room a (by simp)
      -- `a` is free, so that `lfree` is not at the block that is joined to it
      have hfa : f₁ ≤ a.start := h.lowest a (by simp) ha
      have hab : a.stop = b₁.start := by
        obtain ⟨hleft, -, -⟩ := tiles_append_cons.mp ht
        exact (tiles_append_cons.mp hleft).2.2
      obtain ⟨hds, hlast, -, -⟩ := (isChain_free ha).mp h.left
      rw [if_neg (by omega)]
      refine ⟨?_, (isChain_free rfl).mpr ⟨hds, hlast, h.head, h.right⟩, ?_⟩
      · intro d hd
        simp only [List.mem_append, List.mem_cons] at hd
        rcases hd with hd | rfl | hd
        · exact h.room d (by simp [hd])
        · dsimp only
          omega
        · exact h.room d (by simp [hd])
      · intro d hd hfree
        simp only [List.mem_append, List.mem_cons] at hd
        rcases hd with hd | rfl | hd
        · exact h.lowest d (by simp [hd]) hfree
        · exact hfa
        · exact h.lowest d (by simp [hd]) hfree

theorem Loose.plugged (h : Loose as b bs f) (hb : b.used = false)
    (ht : Tiles Block.start Block.stop o (as ++ b :: bs) e) (hp : Plugged as b bs f bs' f') :
    Tidy bs' f' := by
  obtain ⟨b₁, cs, f₁, ds, b₂, hnext, hprev, rfl⟩ := hp.exists_joins
  have hhalf := h.joinNext hb ht hnext
  have ht' : Tiles Block.start Block.stop o (as ++ b₁ :: cs) e := by
    obtain ⟨hleft, hlt, hright⟩ := tiles_append_cons.mp ht
    cases hnext with
    | keep _ => exact ht
    | join _ =>
        obtain ⟨hstart, hlt', hcs⟩ := hright
        exact tiles_append_cons.mpr ⟨hleft, by dsimp only; omega, hcs⟩
  exact hhalf.joinPrev (hnext.start_used hb).2 ht' hprev

/-- Giving a used block back. -/
theorem Tidy.loose (h : Tidy (as ++ b :: bs) f) (hb : b.used = true) :
    Loose as ⟨b.start, b.stop, false⟩ bs (if b.start < f then b.start else f) := by
  obtain ⟨hleft, hright⟩ := (isChain_used hb).mp h.parted
  refine ⟨?_, hleft, hright, ?_, Or.inl ?_⟩
  · intro d hd
    simp only [List.mem_append, List.mem_cons] at hd
    rcases hd with hd | rfl | hd
    · exact h.room d (by simp [hd])
    · exact h.room b (by simp)
    · exact h.room d (by simp [hd])
  · intro d hd hfree
    have hmem : d ∈ as ++ b :: bs := by
      simp only [List.mem_append, List.mem_cons] at hd ⊢
      tauto
    have := h.lowest d hmem hfree
    split <;> omega
  · dsimp only
    split <;> omega

/-- Cutting a used block down. -/
theorem Tidy.cut (h : Tidy (as ++ b :: bs) f) (hb : b.used = true) (hn : 16 ≤ n)
    (hroom : b.start + 16 + n + 16 + 16 ≤ b.stop)
    (hspot : f ≤ b.start ∨ ∃ c ∈ bs.head?, c.used = false ∧ f = c.start) :
    Loose (as ++ [⟨b.start, b.start + 16 + n, true⟩]) ⟨b.start + 16 + n, b.stop, false⟩ bs f := by
  obtain ⟨hleft, hright⟩ := (isChain_used hb).mp h.parted
  refine ⟨?_, (isChain_used rfl).mpr ⟨hleft, List.isChain_nil⟩, hright, ?_, ?_⟩
  · intro d hd
    simp only [List.mem_append, List.mem_cons, List.not_mem_nil, or_false] at hd
    rcases hd with (hd | rfl) | rfl | hd
    · exact h.room d (by simp [hd])
    · dsimp only
      omega
    · dsimp only
      omega
    · exact h.room d (by simp [hd])
  · intro d hd hfree
    simp only [List.mem_append, List.mem_cons, List.not_mem_nil, or_false] at hd
    rcases hd with (hd | rfl) | hd
    · exact h.lowest d (by simp [hd]) hfree
    · cases hfree
    · exact h.lowest d (by simp [hd]) hfree
  · rcases hspot with hle | hnext
    · exact Or.inl (Nat.le_trans hle (by dsimp only; omega))
    · exact Or.inr hnext

end Lists

/-! ## The walk along `next` -/

namespace Heap

/-- The blocks that are visited along `next` from the offset `o` on, up to `heap_end`. -/
def walk (σ : Heap) : ℕ → ℕ → List Block
  | 0, _ => []
  | fuel + 1, o =>
    if o < σ.endOff then
      ⟨o, (σ.off o).next.toNat, (σ.off o).used ≠ 0⟩ :: σ.walk fuel (σ.off o).next.toNat
    else []

/-- All blocks; each takes up at least one byte. -/
def blocks (σ : Heap) : List Block := σ.walk σ.endOff 0

/-- The heap is a list of well-formed blocks, and `lfree` is the lowest free one. -/
def WellFormed (σ : Heap) : Prop := ∃ f, Arena σ σ.blocks f ∧ Tidy σ.blocks f

end Heap

section Walk

variable {σ : Heap} {bs : List Block} {f o p fuel : ℕ} {r : BitVec 32 × Heap}

theorem walk_of_chain (he : σ.endOff < 2 ^ 32) (h : Chain σ.off p o bs σ.endOff)
    (hfuel : bs.length ≤ fuel) : σ.walk fuel o = bs := by
  induction fuel generalizing p o bs with
  | zero => exact (List.eq_nil_of_length_eq_zero (Nat.le_zero.mp hfuel)).symm
  | succ fuel ih =>
      unfold Heap.walk
      cases bs with
      | nil =>
          rw [if_neg (Nat.not_lt.mpr (Nat.le_of_eq h.symm))]
      | cons b bs =>
          obtain ⟨rfl, hb, hroom, hbs⟩ := h
          have hle := hbs.tiles.le
          have hnext : (σ.off b.start).next.toNat = b.stop := by
            rw [hb]
            exact Nat.mod_eq_of_lt (by omega)
          have hused : decide ((σ.off b.start).used ≠ 0) = b.used := by
            have hflag : (σ.off b.start).used = if b.used then 1 else 0 := by
              rw [hb]
              rfl
            rw [hflag]
            cases b.used <;> decide
          rw [if_pos (by omega), hnext, hused, ih hbs (Nat.le_of_succ_le_succ hfuel)]

/-- There is one list of blocks that a memory describes. -/
theorem Shape.blocks_eq (h : Shape σ bs) : σ.blocks = bs := by
  have hroom := h.geometry.room
  have hlength := h.tiles.length_le
  apply walk_of_chain ?_ h.chain (by omega)
  unfold Heap.endOff
  omega

theorem WellFormed.of (h : Arena σ bs f) (ht : Tidy bs f) : σ.WellFormed := by
  refine ⟨f, ?_⟩
  rw [h.shape.blocks_eq]
  exact ⟨h, ht⟩

/-- The blocks of a heap that is known to be well-formed. -/
theorem Heap.WellFormed.tidy (hw : σ.WellFormed) (h : Arena σ bs f) : Tidy bs f := by
  obtain ⟨f', h', ht⟩ := hw
  rw [h.shape.blocks_eq] at h' ht
  have hff : f = f' := by
    rw [← h.shape.geometry.ptr_inj h.le_endOff h'.le_endOff, ← h.lfree, ← h'.lfree]
  rwa [hff]

end Walk

/-! ## Calls -/

section Calls

variable {σ σ' : Heap} {as bs : List Block} {b : Block} {f n : ℕ} {r : BitVec 32 × Heap}

theorem wellFormed_init {bytes : Bytes} {beginAddr endAddr : BitVec 32}
    (h : rtSystemHeapInit bytes beginAddr endAddr = some σ)
    (hsize : 16 ≤ σ.memSizeAligned.toNat) : σ.WellFormed := by
  apply WellFormed.of (arena_init h)
  refine ⟨?_, List.isChain_singleton _, ?_⟩
  · intro b hb
    rw [List.mem_singleton.mp hb]
    unfold Heap.endOff
    dsimp only
    omega
  · intro b hb _
    rw [List.mem_singleton.mp hb]

theorem wellFormed_of_allocates (h : Arena σ bs f) (ht : Tidy bs f) (hn : 16 ≤ n)
    (hr : Allocates n σ bs f r) : r.2.WellFormed := by
  cases hr with
  | none harena hplace hbytes => exact WellFormed.of harena ht
  | some hbs hfree hfit hnext harena hplace hkeeps =>
      subst hbs
      exact WellFormed.of harena (ht.taken hfree h.shape.tiles hn hnext)

theorem wellFormed_of_plugged {bs' : List Block} {e f' : ℕ}
    (htiles : Tiles Block.start Block.stop 0 (as ++ b :: bs) e)
    (ht : Tidy (as ++ b :: bs) f) (hb : b.used = true)
    (hplug : Plugged as ⟨b.start, b.stop, false⟩ bs (if b.start < f then b.start else f) bs' f')
    (harena : Arena σ' bs' f') : σ'.WellFormed := by
  have htiles' : Tiles Block.start Block.stop 0 (as ++ ⟨b.start, b.stop, false⟩ :: bs) e := by
    rw [tiles_append_cons] at htiles ⊢
    exact htiles
  exact WellFormed.of harena ((ht.loose hb).plugged rfl htiles' hplug)

/-- The blocks still tile the heap after one is given out. -/
theorem tiles_taken {cs : List Block} {c : Block} {e : ℕ}
    (h : Tiles Block.start Block.stop 0 (as ++ c :: cs) e) :
    Tiles Block.start Block.stop 0 (as ++ (taken n c ++ cs)) e := by
  obtain ⟨hleft, hlt, hright⟩ := tiles_append_cons.mp h
  unfold taken
  split
  · refine tiles_append_cons.mpr ⟨hleft, ?_, rfl, ?_, hright⟩
    · dsimp only
      omega
    · dsimp only
      omega
  · exact tiles_append_cons.mpr ⟨hleft, hlt, hright⟩

theorem wellFormed_of_reallocates (h : Arena σ (as ++ b :: bs) f) (ht : Tidy (as ++ b :: bs) f)
    (hb : b.used = true) (hal : n % 8 = 0)
    (hcut : n ≠ 0 → b.start + 16 + n + 28 < b.stop →
      16 ≤ n ∧ (f ≤ b.start ∨ ∃ c ∈ bs.head?, c.used = false ∧ f = c.start))
    (hr : Reallocates n σ as b bs f r) : r.2.WellFormed := by
  have hbmem : b ∈ as ++ b :: bs := by simp
  cases hr with
  | fails hn harena hplace hbytes => exact WellFormed.of harena ht
  | frees hn hplug harena hplace hkeeps => 
      exact wellFormed_of_plugged h.shape.tiles ht hb hplug harena
  | stays hsize harena hplace hbytes => exact WellFormed.of harena ht
  | shrinks hn hroom hplug harena hplace hkeeps =>
      obtain ⟨hn16, hspot⟩ := hcut hn hroom
      have hbal := h.shape.aligned b hbmem
      have hloose := ht.cut hb hn16 (by omega) hspot
      have htiles : Tiles Block.start Block.stop 0 ((as ++ [⟨b.start, b.start + 16 + n, true⟩]) ++
          ⟨b.start + 16 + n, b.stop, false⟩ :: bs) σ.endOff := by
        obtain ⟨hleft, -, hright⟩ := tiles_append_cons.mp h.shape.tiles
        refine tiles_append_cons.mpr ⟨tiles_append_cons.mpr ⟨hleft, ?_, rfl⟩, ?_, hright⟩
        · dsimp only
          omega
        · dsimp only
          omega
      exact WellFormed.of harena (hloose.plugged rfl htiles hplug)
  | moves hn hsplit hfree hfit hnext hsplit₂ hplug harena hplace hkeeps hcopy =>
      have htiles := h.shape.tiles
      rw [hsplit] at ht htiles
      have htaken := ht.taken hfree htiles (Nat.le_max_left _ _) hnext
      have htiles' := tiles_taken htiles (n := max 16 n)
      rw [hsplit₂] at htaken htiles'
      exact wellFormed_of_plugged htiles' htaken hb hplug harena

end Calls

/-! ## Steps -/

/-- `realloc` cuts the block of `rmem` down to `newsize` bytes, an aligned size. -/
def Heap.Cuts (rmem newsize : BitVec 32) (σ : Heap) : Prop :=
  newsize ≠ 0 ∧ newsize ≤ σ.memSizeAligned ∧
    newsize + SIZEOF_STRUCT_MEM + MIN_SIZE < σ.payload rmem

/-- The events that keep a heap well-formed: where `realloc` cuts a block down it leaves 16
bytes, and the lowest free block is below it or next to it. -/
def HeapSys.Tidies (s : HeapSys) : HeapEvent → Prop
  | .calloc count size => (count * size).toNat + 7 < 2 ^ 32
  | .realloc rmem newsize => s.heap.Cuts rmem (rtAlign newsize) →
    MIN_SIZE_ALIGNED ≤ rtAlign newsize ∧
      (s.heap.lfree < rmem - SIZEOF_STRUCT_MEM ∨
        (s.heap.lfree ≠ s.heap.heapEnd ∧
          s.heap.lfree = s.heap.heapPtr + (s.heap.hdr (rmem - SIZEOF_STRUCT_MEM)).next))
  | _ => True

section Steps

variable {P : Live → Block → Prop} {s s' : HeapSys} {σ : Heap} {as bs : List Block} {b : Block}
  {e : HeapEvent} {f : ℕ} {newsize : BitVec 32}

/-- The guard of `realloc` on the block list. -/
theorem Arena.cut_spot (h : Arena σ (as ++ b :: bs) f)
    (hg : σ.Cuts (σ.ptr (b.start + 16)) (rtAlign newsize) →
      MIN_SIZE_ALIGNED ≤ rtAlign newsize ∧
        (σ.lfree < σ.ptr (b.start + 16) - SIZEOF_STRUCT_MEM ∨
          (σ.lfree ≠ σ.heapEnd ∧
            σ.lfree = σ.heapPtr + (σ.hdr (σ.ptr (b.start + 16) - SIZEOF_STRUCT_MEM)).next)))
    (hn : (rtAlign newsize).toNat ≠ 0)
    (hroom : b.start + 16 + (rtAlign newsize).toNat + 28 < b.stop) :
    16 ≤ (rtAlign newsize).toNat ∧
      (f ≤ b.start ∨ ∃ c ∈ bs.head?, c.used = false ∧ f = c.start) := by
  have hb : b ∈ as ++ b :: bs := by simp
  have hle := h.shape.stop_le hb
  have hgeo := h.shape.geometry.room
  have hend : σ.endOff = σ.memSizeAligned.toNat + 16 := rfl
  have hcuts : σ.Cuts (σ.ptr (b.start + 16)) (rtAlign newsize) := by
    have h16 : SIZEOF_STRUCT_MEM.toNat = 16 := rfl
    have h12 : MIN_SIZE.toNat = 12 := rfl
    refine ⟨?_, ?_, ?_⟩
    · intro hzero
      exact hn (congrArg BitVec.toNat hzero)
    · rw [BitVec.le_def]
      omega
    · rw [BitVec.lt_def, BitVec.toNat_add, BitVec.toNat_add, h16, h12, h.shape.toNat_payload hb]
      omega
  obtain ⟨hmin, hspot⟩ := hg hcuts
  have h16 : MIN_SIZE_ALIGNED.toNat = 16 := rfl
  rw [BitVec.le_def, h16] at hmin
  refine ⟨hmin, ?_⟩
  rw [ptr_sub_header, h.lfree, (h.shape.hdr_ptr hb).1, heapPtr_add_ofNat, h.shape.geometry.heapEnd,
    h.shape.geometry.ptr_lt h.le_endOff (by omega), Ne,
    h.shape.geometry.ptr_inj h.le_endOff (Nat.le_refl _),
    h.shape.geometry.ptr_inj h.le_endOff hle] at hspot
  rcases hspot with hlt | ⟨hne, rfl⟩
  · exact Or.inl (Nat.le_of_lt hlt)
  · right
    rcases h.spot with hf | ⟨d, hd, hfree, hdf⟩
    · exact absurd hf hne
    · obtain ⟨-, -, hright⟩ := tiles_append_cons.mp h.shape.tiles
      cases bs with
      | nil => exact absurd hright hne
      | cons c cs =>
          have hdc : d = c := by
            apply h.shape.tiles.eq_of_start hd (by simp)
            rw [hdf]
            exact hright.1.symm
          exact ⟨c, rfl, hdc ▸ hfree, hright.1.symm⟩

theorem wellFormed_fill {i k : ℕ} {v : BitVec 8} (hw : σ.WellFormed) (h : Arena σ bs f)
    (hb : b ∈ bs) (hk : b.start + 16 + i + k ≤ b.stop) :
    Heap.WellFormed
      { σ with bytes := Bytes.fill σ.bytes ((σ.ptr (b.start + 16)).toNat + i) v k } :=
  WellFormed.of (h.fill hb hk).1 (hw.tidy h)

theorem wellFormed_malloc {size : BitVec 32} {r : BitVec 32 × Heap} (hw : σ.WellFormed)
    (h : Arena σ bs f) (hr : malloc size σ = .ok r) : r.2.WellFormed :=
  wellFormed_of_allocates h (hw.tidy h) (Holds.sixteen_le_searchSize size) (h.malloc hr)

theorem wellFormed_calloc {count size : BitVec 32} {r : BitVec 32 × Heap} (hw : σ.WellFormed)
    (h : Arena σ bs f) (hfit : (count * size).toNat + 7 < 2 ^ 32)
    (hr : calloc count size σ = .ok r) : r.2.WellFormed := by
  obtain ⟨p, σ₁, hmalloc, hr⟩ := calloc_cases hr
  have hw₁ : σ₁.WellFormed := wellFormed_malloc hw h hmalloc
  obtain ⟨bs', f', hleaves, hgives⟩ := h.leaves_malloc hmalloc
  rcases hr with ⟨rfl, rfl⟩ | ⟨hp, rfl⟩
  · exact hw₁
  · dsimp only at hleaves hgives
    obtain ⟨d, hd⟩ := hgives hp
    obtain rfl := hd.addr
    have hroom := hd.room
    have hsize := le_searchSize hfit
    exact wellFormed_fill (i := 0) hw₁ hleaves.arena hd.mem (by omega)

theorem wellFormed_step (hw : s.heap.WellFormed) (h : Holds P s bs f) (he : s.Tidies e)
    (hs : s.step e = some s') : s'.heap.WellFormed := by
  cases HeapSys.steps_of_step hs with
  | malloc hr => exact wellFormed_malloc hw h.arena hr
  | calloc hr => exact wellFormed_calloc hw h.arena he hr
  | @realloc rmem newsize p σ' hlive hr =>
      obtain ⟨as, b, cs, rfl, hused, hroom, rfl⟩ := h.exists_block hlive
      have hal := toNat_rtAlign newsize
      exact wellFormed_of_reallocates h.arena (hw.tidy h.arena) hused (by omega)
        (h.arena.cut_spot he) (h.arena.realloc hused hroom hr)
  | free hlive hr =>
      obtain ⟨as, b, cs, rfl, hused, hroom, rfl⟩ := h.exists_block hlive
      obtain ⟨bs', f', hplug, harena, -, -⟩ := h.arena.free hr
      exact wellFormed_of_plugged h.arena.shape.tiles (hw.tidy h.arena) hused hplug harena
  | @store rmem i v hlive hi =>
      obtain ⟨as, b, cs, rfl, hused, hroom, rfl⟩ := h.exists_block hlive
      have hb : b ∈ as ++ b :: cs := by simp
      rw [h.arena.shape.toNat_payload hb] at hi
      exact wellFormed_fill hw h.arena hb (by omega)

end Steps

/-! ## Runs -/

/-- The blocks of a run, and that the heap is well-formed. -/
theorem HeapSys.holds_of_reach {s : HeapSys}
    (h : Runs.Reach HeapSys.step HeapSys.Tidies
      (fun s => s.Fresh ∧ 16 ≤ s.heap.memSizeAligned.toNat) s) :
    s.heap.WellFormed ∧ ∃ bs f, Holds (fun _ _ => True) s bs f := by
  refine h.invariant (P := fun s => s.heap.WellFormed ∧ ∃ bs f, Holds (fun _ _ => True) s bs f)
    ?_ ?_
  · rintro s ⟨hfresh, hsize⟩
    refine ⟨?_, Holds.of_fresh hfresh⟩
    obtain ⟨-, bytes, beginAddr, endAddr, hinit⟩ := hfresh
    exact wellFormed_init hinit hsize
  · rintro s e s' ⟨hw, bs, f, hheld⟩ he hstep
    refine ⟨wellFormed_step hw hheld he hstep, hheld.step ?_ hstep⟩
    cases e with
    | calloc count size => exact ⟨he, fun _ _ _ => trivial⟩
    | malloc _ => exact fun _ _ _ => trivial
    | realloc _ _ => exact fun _ _ _ => trivial
    | free _ => trivial
    | store _ _ _ => trivial

/-- In a run from a heap with room for 16 bytes, in which every `realloc` that cuts a block
down leaves 16 bytes and has the lowest free block below it or next to it, the heap is
well-formed throughout. -/
theorem heap_wellFormed {s : HeapSys}
    (h : Runs.Reach HeapSys.step HeapSys.Tidies
      (fun s => s.Fresh ∧ 16 ≤ s.heap.memSizeAligned.toNat) s) : s.heap.WellFormed :=
  (HeapSys.holds_of_reach h).1

instance (rmem newsize : BitVec 32) (σ : Heap) : Decidable (σ.Cuts rmem newsize) :=
  inferInstanceAs (Decidable (_ ∧ _ ∧ _))

instance (s : HeapSys) : DecidablePred s.Tidies
  | .malloc _ => inferInstanceAs (Decidable True)
  | .calloc count size => inferInstanceAs (Decidable ((count * size).toNat + 7 < 2 ^ 32))
  | .realloc rmem newsize => inferInstanceAs (Decidable (s.heap.Cuts rmem (rtAlign newsize) →
      MIN_SIZE_ALIGNED ≤ rtAlign newsize ∧
        (s.heap.lfree < rmem - SIZEOF_STRUCT_MEM ∨
          (s.heap.lfree ≠ s.heap.heapEnd ∧
            s.heap.lfree = s.heap.heapPtr + (s.heap.hdr (rmem - SIZEOF_STRUCT_MEM)).next))))
  | .free _ => inferInstanceAs (Decidable True)
  | .store _ _ _ => inferInstanceAs (Decidable True)

/-- A run from the heap of 224 bytes. -/
theorem HeapSys.reach_small {es : List HeapEvent} {s : HeapSys}
    (h : (smallSys.bind fun s =>
      Runs.runChecked HeapSys.step (fun s e => decide (s.Tidies e)) s es) = some s) :
    Runs.Reach HeapSys.step HeapSys.Tidies
      (fun s => s.Fresh ∧ 16 ≤ s.heap.memSizeAligned.toNat) s := by
  obtain ⟨s₀, hs₀, hrun⟩ := Option.bind_eq_some_iff.mp h
  have hsize : 16 ≤ s₀.heap.memSizeAligned.toNat := by
    obtain ⟨σ, hσ, -, hsize⟩ := smallHeap_eq
    obtain ⟨σ', hσ', rfl⟩ := Option.map_eq_some_iff.mp hs₀
    obtain rfl := Option.some.inj (hσ.symm.trans hσ')
    rw [hsize]
    decide
  have hstart : Runs.Reach HeapSys.step (fun s e => decide (s.Tidies e) = true)
      (fun s => s.Fresh ∧ 16 ≤ s.heap.memSizeAligned.toNat) s₀ :=
    .start ⟨fresh_smallSys hs₀, hsize⟩
  exact (hstart.of_runChecked hrun).mono fun _ _ he => of_decide_eq_true he

/-- The second block is cut down while the first one is free. -/
theorem heap_wellFormed_cut :
    ∃ s, smallSys.bind (fun s => Runs.runChecked HeapSys.step (fun s e => decide (s.Tidies e)) s
        [.malloc 16, .calloc 10 8, .free 0x1010, .realloc 0x1030 16]) = some s ∧
      s.heap.blocks =
        [⟨0, 32, false⟩, ⟨32, 64, true⟩, ⟨64, 240, false⟩] ∧ s.heap.WellFormed := by
  obtain ⟨s, hs, hblocks⟩ := Runs.exists_of_any (show (smallSys.bind fun s =>
      Runs.runChecked HeapSys.step (fun s e => decide (s.Tidies e)) s
        [.malloc 16, .calloc 10 8, .free 0x1010, .realloc 0x1030 16]).any
      (fun s => decide (s.heap.blocks =
        [⟨0, 32, false⟩, ⟨32, 64, true⟩, ⟨64, 240, false⟩])) = true by decide)
  exact ⟨s, hs, of_decide_eq_true hblocks, heap_wellFormed (HeapSys.reach_small hs)⟩

/-- A block has no room for 16 bytes. -/
def Heap.cramped (σ : Heap) : Bool := σ.blocks.any fun b => b.stop < b.start + 16 + 16

/-- A block below `lfree` is free. -/
def Heap.missed (σ : Heap) : Bool :=
  σ.blocks.any fun b => b.used = false ∧ σ.heapPtr.toNat + b.start < σ.lfree.toNat

theorem not_wellFormed_of_cramped {σ : Heap} (h : σ.cramped = true) : ¬σ.WellFormed := by
  obtain ⟨b, hb, hlt⟩ := List.any_eq_true.mp h
  rintro ⟨f, -, ht⟩
  have := ht.room b hb
  have := of_decide_eq_true hlt
  omega

theorem not_wellFormed_of_missed {σ : Heap} (h : σ.missed = true) : ¬σ.WellFormed := by
  obtain ⟨b, hb, hlt⟩ := List.any_eq_true.mp h
  obtain ⟨hfree, hlt⟩ := of_decide_eq_true hlt
  rintro ⟨f, harena, ht⟩
  have := ht.lowest b hb hfree
  rw [harena.lfree, harena.shape.geometry.toNat_ptr harena.le_endOff] at hlt
  omega

/-- `realloc` leaves a block of 8 bytes, and a free block below `lfree`. -/
theorem heap_illFormed :
    (∃ s, smallSys.bind (fun s => Runs.run HeapSys.step s [.malloc 64, .realloc 0x1010 8]) =
        some s ∧ ¬s.heap.WellFormed) ∧
      ∃ s, smallSys.bind (fun s => Runs.run HeapSys.step s
          [.malloc 64, .malloc 16, .realloc 0x1010 16]) = some s ∧ ¬s.heap.WellFormed := by
  constructor
  · obtain ⟨s, hs, hcramped⟩ := Runs.exists_of_any (show (smallSys.bind fun s =>
      Runs.run HeapSys.step s [.malloc 64, .realloc 0x1010 8]).any
        (fun s => s.heap.cramped) = true by decide)
    exact ⟨s, hs, not_wellFormed_of_cramped hcramped⟩
  · obtain ⟨s, hs, hmissed⟩ := Runs.exists_of_any (show (smallSys.bind fun s =>
      Runs.run HeapSys.step s [.malloc 64, .malloc 16, .realloc 0x1010 16]).any
        (fun s => s.heap.missed) = true by decide)
    exact ⟨s, hs, not_wellFormed_of_missed hmissed⟩

end LuojiOs
