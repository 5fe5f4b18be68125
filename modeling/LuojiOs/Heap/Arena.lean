import LuojiOs.Heap.Blocks

/-!
# The heap calls on the block list

`Arena` is the invariant that every heap call keeps, whatever sizes it is given: the memory
describes a list of blocks, and `lfree` is a free block of it or `heap_end`.  The lemmas
here say which list each call makes of which.
-/

namespace LuojiOs

open Tiling

/-- `f` is the offset of a free block, or of `heap_end`. -/
def FreeSpot (e : ℕ) (bs : List Block) (f : ℕ) : Prop :=
  f = e ∨ ∃ b ∈ bs, b.used = false ∧ b.start = f

/-- The memory describes the blocks `bs`, and `lfree` is at the offset `f`. -/
structure Arena (σ : Heap) (bs : List Block) (f : ℕ) : Prop where
  shape : Shape σ bs
  lfree : σ.lfree = σ.ptr f
  spot : FreeSpot σ.endOff bs f

/-! ## The walks of `malloc` -/

section Walks

variable {σ : Heap} {as bs : List Block} {b : Block} {o fuel : ℕ} {size p : BitVec 32}

theorem FreeSpot.le {f : ℕ} (h : Shape σ bs) (hf : FreeSpot σ.endOff bs f) : f ≤ σ.endOff := by
  rcases hf with rfl | ⟨b, hb, -, rfl⟩
  · exact Nat.le_refl _
  · have := h.tiles.mem_bounds hb
    omega

/-- The room that `malloc` computes for a block. -/
theorem Shape.room_eq (h : Shape σ bs) (hb : b ∈ bs) :
    (BitVec.ofNat 32 b.stop - (BitVec.ofNat 32 b.start + SIZEOF_STRUCT_MEM)).toNat =
      b.stop - (b.start + 16) := by
  have hroom := h.room_of_mem hb
  have hle := h.stop_le hb
  have hlt := h.geometry.room
  unfold Heap.endOff at hle
  rw [ofNat_add_header, BitVec.toNat_sub, BitVec.toNat_ofNat, BitVec.toNat_ofNat]
  omega

/-- A search that starts at a block finds a free block of sufficient size, from there on. -/
theorem Shape.findFree_some {ptr : BitVec 32} (h : Shape σ (as ++ bs))
    (ht : Tiles Block.start Block.stop o bs σ.endOff)
    (hfind : findFree size σ fuel (BitVec.ofNat 32 o) = .ok (some ptr)) :
    ∃ bs₁ b bs₂, bs = bs₁ ++ b :: bs₂ ∧ b.used = false ∧ ptr = BitVec.ofNat 32 b.start ∧
      b.start + 16 + size.toNat ≤ b.stop := by
  induction fuel generalizing as bs o with
  | zero => cases hfind
  | succ fuel ih =>
      unfold findFree at hfind
      split at hfind
      · rw [heapPtr_add_ofNat] at hfind
        dsimp only at hfind
        cases bs with
        | nil =>
            -- the walk does not leave `heap_end`
            have ho : o = σ.endOff := ht
            have hused : (σ.hdr (σ.ptr o)).used = 1 := by
              rw [ho]
              exact h.last.1
            have hnext : (σ.hdr (σ.ptr o)).next = BitVec.ofNat 32 o := by
              rw [ho]
              exact h.last.2
            rw [hused, hnext, if_neg fun htest => absurd htest.1 (by decide)] at hfind
            exact ih h ht hfind
        | cons b bs =>
            have ho : b.start = o := ht.1
            have hb : b ∈ as ++ b :: bs := by simp
            rw [← ho, (h.hdr_ptr hb).1] at hfind
            split at hfind
            · next htest =>
              refine ⟨[], b, bs, rfl, (h.hdr_ptr hb).2.mp htest.1, ?_, ?_⟩
              · exact (Option.some.inj (Except.ok.inj hfind)).symm
              · have hfit := htest.2
                have hroom := h.room_of_mem hb
                rw [BitVec.le_def, h.room_eq hb] at hfit
                omega
            · have h' : Shape σ ((as ++ [b]) ++ bs) := by simpa using h
              obtain ⟨bs₁, c, bs₂, rfl, hc⟩ := ih h' ht.2.2 hfind
              exact ⟨b :: bs₁, c, bs₂, rfl, hc⟩
      · cases hfind

/-- The next free block, from a block on. -/
theorem Shape.nextFree_spot (h : Shape σ (as ++ bs))
    (ht : Tiles Block.start Block.stop o bs σ.endOff)
    (hnext : nextFree σ fuel (σ.ptr o) = .ok p) :
    ∃ f, p = σ.ptr f ∧ FreeSpot σ.endOff bs f ∧ ∀ d ∈ bs, d.used = false → f ≤ d.start := by
  induction fuel generalizing as bs o with
  | zero => cases hnext
  | succ fuel ih =>
      unfold nextFree at hnext
      cases bs with
      | nil =>
          have ho : o = σ.endOff := ht
          rw [if_neg (by rw [h.geometry.heapEnd, ho]; exact fun htest => htest.2 rfl)] at hnext
          exact ⟨o, (Except.ok.inj hnext).symm, Or.inl ho, by simp⟩
      | cons b bs =>
          have ho : b.start = o := ht.1
          have hhdr := h.hdr_ptr (b := b) (by simp)
          rw [← ho, hhdr.1] at hnext
          split at hnext
          · next htest =>
            have hused : ¬b.used = false := fun hb => htest.1 (hhdr.2.mpr hb)
            have h' : Shape σ ((as ++ [b]) ++ bs) := by simpa using h
            obtain ⟨f, hp, hspot, hlow⟩ := ih h' ht.2.2 hnext
            refine ⟨f, hp, ?_, ?_⟩
            · rcases hspot with hf | ⟨c, hc, hcf⟩
              · exact Or.inl hf
              · exact Or.inr ⟨c, List.mem_cons_of_mem b hc, hcf⟩
            · intro d hd hfree
              rcases List.mem_cons.mp hd with rfl | hd
              · exact absurd hfree hused
              · exact hlow d hd hfree
          · next htest =>
            have hle := ht.2.2.le
            have hlt := ht.2.1
            have hfree : b.used = false := by
              by_contra hused
              apply htest
              refine ⟨fun hz => hused (hhdr.2.mp hz), ?_⟩
              rw [h.geometry.heapEnd, Ne,
                h.geometry.ptr_inj (by omega) (Nat.le_refl _)]
              omega
            refine ⟨b.start, ?_, Or.inr ⟨b, by simp, hfree, rfl⟩, ?_⟩
            · exact (Except.ok.inj hnext).symm
            · intro d hd _
              rcases List.mem_cons.mp hd with rfl | hd
              · exact Nat.le_refl _
              · have := (ht.2.2.mem_bounds hd).1
                have := ht.2.1
                omega

end Walks

/-! ## Joining on lists -/

/-- The free block `b` is joined with the block after it if that is free. -/
inductive JoinNext (b : Block) (f : ℕ) : List Block → Block → List Block → ℕ → Prop
  | keep {bs : List Block} (h : ∀ c ∈ bs.head?, c.used = true) : JoinNext b f bs b bs f
  | join {c : Block} {bs : List Block} (h : c.used = false) :
      JoinNext b f (c :: bs) ⟨b.start, c.stop, false⟩ bs (if f = c.start then b.start else f)

/-- The free block `b` is joined with the block before it if that is free. -/
inductive JoinPrev (b : Block) (f : ℕ) : List Block → List Block → Block → ℕ → Prop
  | keep {as : List Block} (h : ∀ a ∈ as.getLast?, a.used = true) : JoinPrev b f as as b f
  | join {a : Block} {as : List Block} (h : a.used = false) :
      JoinPrev b f (as ++ [a]) as ⟨a.start, b.stop, false⟩ (if f = b.start then a.start else f)

/-- What `plug_holes` makes of the blocks around the free block `b`. -/
structure Plugged (as : List Block) (b : Block) (bs : List Block) (f : ℕ)
    (bs' : List Block) (f' : ℕ) : Prop where
  exists_joins : ∃ b₁ cs f₁ ds b₂, JoinNext b f bs b₁ cs f₁ ∧ JoinPrev b₁ f₁ as ds b₂ f' ∧
    bs' = ds ++ b₂ :: cs

theorem JoinNext.start_used {b b' : Block} {f f' : ℕ} {bs bs' : List Block}
    (h : JoinNext b f bs b' bs' f') (hb : b.used = false) :
    b'.start = b.start ∧ b'.used = false := by
  cases h with
  | keep h => exact ⟨rfl, hb⟩
  | join h => exact ⟨rfl, rfl⟩

/-- The blocks from the one that `malloc` gives out on. -/
theorem Shape.tiles_from_taken {σ : Heap} {as bs : List Block} {b : Block} {n : ℕ}
    (h : Shape σ (as ++ (taken n b ++ bs))) :
    Tiles Block.start Block.stop b.start (taken n b ++ bs) σ.endOff := by
  obtain ⟨m, has, hrest⟩ := tiles_append.mp h.tiles
  have hm : m = b.start := by
    unfold taken at hrest
    split at hrest
    · exact hrest.1.symm
    · exact hrest.1.symm
  rwa [hm] at hrest

/-! ## Lock and statistics -/

namespace Arena

variable {σ σ' : Heap} {as bs : List Block} {a b c u : Block} {f : ℕ}

/-- The lock is no part of the block list. -/
theorem setSem (h : Arena σ bs f) (v : BitVec 16) : Arena { σ with heapSem := v } bs f where
  shape :=
    { geometry := ⟨h.shape.geometry.base, h.shape.geometry.size, h.shape.geometry.room,
        h.shape.geometry.heapEnd⟩
      chain := h.shape.chain
      last := h.shape.last
      aligned := h.shape.aligned }
  lfree := h.lfree
  spot := h.spot

theorem locked (h : Arena σ bs f) : Arena σ.locked bs f := h.setSem _

theorem released (h : Arena σ bs f) : Arena (releaseHeapSem σ) bs f := h.setSem _

theorem countFreed (h : Arena σ bs f) (n : BitVec 32) : Arena (σ.countFreed n) bs f where
  shape := h.shape.countFreed n
  lfree := h.lfree
  spot := h.spot

theorem le_endOff (h : Arena σ bs f) : f ≤ σ.endOff := h.spot.le h.shape

/-! ## `plug_holes` -/

theorem followLfree (h : Arena σ bs f) {o k : ℕ} (ho : o ≤ σ.endOff) :
    (LuojiOs.followLfree o k σ).lfree = σ.ptr (if f = o then k else f) := by
  unfold LuojiOs.followLfree
  rw [h.lfree]
  by_cases hf : f = o
  · rw [if_pos (by rw [hf]), if_pos hf]
    rfl
  · rw [if_neg, if_neg hf]
    · exact h.lfree
    · rw [h.shape.geometry.ptr_inj h.le_endOff ho]
      exact hf

/-- Two free neighbours are joined; `lfree` follows. -/
theorem joinFree (h : Arena σ (as ++ b :: c :: bs) f) (hb : b.used = false)
    (hc : c.used = false) :
    Arena (joinAt b.start c.stop (LuojiOs.followLfree c.start b.start σ))
      (as ++ ⟨b.start, c.stop, false⟩ :: bs) (if f = c.start then b.start else f) := by
  have hbmem : b ∈ as ++ b :: c :: bs := by simp
  have hcmem : c ∈ as ++ b :: c :: bs := by simp
  have hbb := h.shape.tiles.mem_bounds hbmem
  have hcb := h.shape.tiles.mem_bounds hcmem
  have hs := sameStatics_followLfree (σ := σ) (o := c.start) (k := b.start)
  have hshape := (h.shape.of_bytes_eq hs bytes_followLfree).join
  have hw := (writes_joinAt b.start c.stop (LuojiOs.followLfree c.start b.start σ)).statics
  rw [hb] at hshape
  refine ⟨hshape, ?_, ?_⟩
  · have hlfree : (joinAt b.start c.stop (LuojiOs.followLfree c.start b.start σ)).lfree =
        (LuojiOs.followLfree c.start b.start σ).lfree := rfl
    rw [hlfree, h.followLfree (by omega), ptr_congr (hs.trans hw)]
  · rw [endOff_congr (hs.trans hw)]
    rcases h.spot with hf | ⟨d, hd, hfree, rfl⟩
    · left
      rw [if_neg (by omega), hf]
    · right
      split
      · exact ⟨⟨b.start, c.stop, false⟩, by simp, rfl, rfl⟩
      · next hne =>
        by_cases hdb : d.start = b.start
        · exact ⟨⟨b.start, c.stop, false⟩, by simp, rfl, hdb.symm⟩
        · refine ⟨d, ?_, hfree, rfl⟩
          simp only [List.mem_append, List.mem_cons] at hd ⊢
          rcases hd with hd | rfl | rfl | hd
          · exact Or.inl hd
          · exact absurd rfl hdb
          · exact absurd rfl hne
          · exact Or.inr (Or.inr hd)

theorem keeps_joinFree (h : Arena σ (as ++ b :: c :: bs) f) (hu : u ∈ as ++ b :: c :: bs) :
    PayloadKept u σ (joinAt b.start c.stop (LuojiOs.followLfree c.start b.start σ)) := by
  have hs := sameStatics_followLfree (σ := σ) (o := c.start) (k := b.start)
  have hkeep := (h.shape.of_bytes_eq hs bytes_followLfree).keeps_joinAt hu
  refine PayloadKept.trans ?_ hs.heapPtr hkeep
  intro x _ _
  rw [bytes_followLfree]

theorem plugForward (h : Arena σ (as ++ b :: bs) f) (hb : b.used = false) :
    ∃ b' bs' f', JoinNext b f bs b' bs' f' ∧
      Arena (LuojiOs.plugForward (σ.ptr b.start) σ) (as ++ b' :: bs') f' ∧
      ∀ u ∈ as ++ b :: bs, PayloadKept u σ (LuojiOs.plugForward (σ.ptr b.start) σ) := by
  by_cases hused : ∀ c ∈ bs.head?, c.used = true
  · rw [plugForward_of_used h.shape hused]
    exact ⟨b, bs, f, .keep hused, h, fun u _ => .refl u σ⟩
  · cases bs with
    | nil => exact absurd (by simp) hused
    | cons c bs =>
        have hc : c.used = false := by simpa using hused
        rw [plugForward_of_free h.shape hc]
        exact ⟨_, bs, _, .join hc, h.joinFree hb hc, fun u hu => h.keeps_joinFree hu⟩

theorem plugBackward (h : Arena σ (as ++ b :: bs) f) (hb : b.used = false) :
    ∃ as' b' f', JoinPrev b f as as' b' f' ∧
      Arena (LuojiOs.plugBackward (σ.ptr b.start) σ) (as' ++ b' :: bs) f' ∧
      ∀ u ∈ as ++ b :: bs, PayloadKept u σ (LuojiOs.plugBackward (σ.ptr b.start) σ) := by
  by_cases hused : ∀ a ∈ as.getLast?, a.used = true
  · rw [plugBackward_of_used h.shape hused]
    exact ⟨as, b, f, .keep hused, h, fun u _ => .refl u σ⟩
  · rcases List.eq_nil_or_concat as with rfl | ⟨as', a, rfl⟩
    · exact absurd (by simp) hused
    · rw [List.concat_eq_append] at h hused ⊢
      have ha : a.used = false := by simpa using hused
      have h' : Arena σ (as' ++ a :: b :: bs) f := by simpa using h
      rw [plugBackward_of_free h'.shape ha]
      refine ⟨as', _, _, .join ha, h'.joinFree ha hb, ?_⟩
      intro u hu
      exact h'.keeps_joinFree (by simpa using hu)

theorem plugHoles {p : BitVec 32} (h : Arena σ (as ++ b :: bs) f) (hb : b.used = false)
    (hp : p = σ.ptr b.start) (hplug : LuojiOs.plugHoles p σ = .ok σ') :
    ∃ bs' f', Plugged as b bs f bs' f' ∧ Arena σ' bs' f' ∧
      ∀ u ∈ as ++ b :: bs, u.used = true → PayloadKept u σ σ' := by
  subst hp
  obtain ⟨-, -, -, rfl⟩ := plugHoles_cases hplug
  obtain ⟨b₁, cs, f₁, hnext, h₁, hkeep₁⟩ := h.plugForward hb
  obtain ⟨hstart, hb₁⟩ := hnext.start_used hb
  have hs : SameStatics σ (LuojiOs.plugForward (σ.ptr b.start) σ) := sameStatics_plugForward
  obtain ⟨ds, b₂, f₂, hprev, h₂, hkeep₂⟩ := h₁.plugBackward hb₁
  rw [ptr_congr hs, hstart] at h₂ hkeep₂
  refine ⟨ds ++ b₂ :: cs, f₂, ⟨b₁, cs, f₁, ds, b₂, hnext, hprev, rfl⟩, h₂, ?_⟩
  intro u hu hused
  refine (hkeep₁ u hu).trans hs.heapPtr (hkeep₂ u ?_)
  -- a used block is not one of those that are joined
  have hne : u ≠ b := by
    rintro rfl
    simp [hb] at hused
  cases hnext with
  | keep _ => exact hu
  | join hc =>
      simp only [List.mem_append, List.mem_cons] at hu ⊢
      rcases hu with hu | hu | hu | hu
      · exact Or.inl hu
      · exact absurd hu hne
      · rw [hu, hc] at hused
        cases hused
      · exact Or.inr (Or.inr hu)

/-! ## `malloc` -/

/-- Where `lfree` is after the block `b` has become the blocks `bs`. -/
def NextLfree (b : Block) (e : ℕ) (bs : List Block) (f f' : ℕ) : Prop :=
  (f ≠ b.start ∧ f' = f) ∨
    (f = b.start ∧ FreeSpot e bs f' ∧ ∀ d ∈ bs, d.used = false → f' ≤ d.start)

/-- The block that is given out, and `lfree` after it. -/
theorem take {size : BitVec 32} (h : Arena σ (as ++ b :: bs) f)
    (hsize : size.toNat + 32 < 2 ^ 32) (hal : size.toNat % 8 = 0)
    (hfit : b.start + 16 + size.toNat ≤ b.stop)
    (hmove : moveLfree (σ.ptr b.start) (takeBlock (BitVec.ofNat 32 b.start) size σ) = .ok σ') :
    ∃ f', NextLfree b σ.endOff (taken size.toNat b ++ bs) f f' ∧
      Arena σ' (as ++ (taken size.toNat b ++ bs)) f' := by
  have hs : SameStatics σ (takeBlock (BitVec.ofNat 32 b.start) size σ) := sameStatics_takeBlock
  have hshape := h.shape.takeBlock hsize hal
  have hbb := h.shape.tiles.mem_bounds (b := b) (by simp)
  have hlf : (takeBlock (BitVec.ofNat 32 b.start) size σ).lfree = σ.ptr f :=
    lfree_takeBlock.trans h.lfree
  have heq : σ.ptr b.start = σ.ptr f ↔ f = b.start := by
    rw [h.shape.geometry.ptr_inj (by omega) h.le_endOff]
    exact eq_comm
  rcases moveLfree_cases hmove with ⟨hne, rfl⟩ | ⟨p, hsame, hnext, rfl⟩
  · rw [hlf, Ne, heq] at hne
    refine ⟨f, Or.inl ⟨hne, rfl⟩, hshape, by rw [hlf, ptr_congr hs], ?_⟩
    rw [endOff_congr hs]
    rcases h.spot with hf | ⟨d, hd, hfree, hdf⟩
    · exact Or.inl hf
    · refine Or.inr ⟨d, ?_, hfree, hdf⟩
      have hdb : d ≠ b := by
        rintro rfl
        exact hne hdf.symm
      simp only [List.mem_append, List.mem_cons] at hd ⊢
      rcases hd with hd | hd | hd
      · exact Or.inl hd
      · exact absurd hd hdb
      · exact Or.inr (Or.inr hd)
  · have hf : f = b.start := heq.mp (hsame.trans hlf)
    rw [hlf, hf, ← ptr_congr hs] at hnext
    obtain ⟨f', rfl, hspot, hlow⟩ := hshape.nextFree_spot hshape.tiles_from_taken hnext
    rw [endOff_congr hs] at hspot
    refine ⟨f', Or.inr ⟨hf, hspot, hlow⟩, hshape.setLfree _, rfl, ?_⟩
    rw [endOff_congr (hs.trans sameStatics_setLfree)]
    rcases hspot with hf' | ⟨d, hd, hfree⟩
    · exact Or.inl hf'
    · exact Or.inr ⟨d, List.mem_append_right as hd, hfree⟩

end Arena

/-- The heap lies where it was. -/
structure SamePlace (σ σ' : Heap) : Prop where
  heapPtr : σ'.heapPtr = σ.heapPtr
  heapEnd : σ'.heapEnd = σ.heapEnd
  memSizeAligned : σ'.memSizeAligned = σ.memSizeAligned

theorem SameStatics.place {σ σ' : Heap} (h : SameStatics σ σ') : SamePlace σ σ' :=
  ⟨h.heapPtr, h.heapEnd, h.memSizeAligned⟩

theorem SamePlace.refl (σ : Heap) : SamePlace σ σ := ⟨rfl, rfl, rfl⟩

theorem SamePlace.trans {σ σ₁ σ₂ : Heap} (h : SamePlace σ σ₁) (h' : SamePlace σ₁ σ₂) :
    SamePlace σ σ₂ :=
  ⟨h'.heapPtr.trans h.heapPtr, h'.heapEnd.trans h.heapEnd,
    h'.memSizeAligned.trans h.memSizeAligned⟩

theorem SamePlace.ptr_eq {σ σ' : Heap} (h : SamePlace σ σ') (o : ℕ) : σ'.ptr o = σ.ptr o := by
  unfold Heap.ptr
  rw [h.heapPtr]

theorem SamePlace.endOff_eq {σ σ' : Heap} (h : SamePlace σ σ') : σ'.endOff = σ.endOff := by
  unfold Heap.endOff
  rw [h.memSizeAligned]

/-- What a call of `malloc` that looks for `n` bytes makes of the blocks `bs`. -/
inductive Allocates (n : ℕ) (σ : Heap) (bs : List Block) (f : ℕ) : BitVec 32 × Heap → Prop
  | none {σ' : Heap} (harena : Arena σ' bs f) (hplace : SamePlace σ σ')
      (hbytes : σ'.bytes = σ.bytes) : Allocates n σ bs f (0, σ')
  | some {σ' : Heap} {as cs : List Block} {b : Block} {f' : ℕ} (hbs : bs = as ++ b :: cs)
      (hfree : b.used = false) (hfit : b.start + 16 + n ≤ b.stop)
      (hnext : Arena.NextLfree b σ.endOff (taken n b ++ cs) f f')
      (harena : Arena σ' (as ++ (taken n b ++ cs)) f') (hplace : SamePlace σ σ')
      (hkeeps : ∀ u ∈ bs, u ≠ b → PayloadKept u σ σ') :
      Allocates n σ bs f (σ.ptr (b.start + 16), σ')

section Malloc

variable {σ σ' : Heap} {bs : List Block} {f : ℕ} {size : BitVec 32} {r : BitVec 32 × Heap}

/-- The blocks from `lfree` on. -/
theorem Arena.exists_from (h : Arena σ bs f) :
    ∃ as cs, bs = as ++ cs ∧ Tiles Block.start Block.stop f cs σ.endOff ∧
      ∀ b ∈ as, b.start < f := by
  rcases h.spot with hf | ⟨d, hd, -, rfl⟩
  · refine ⟨bs, [], by simp, hf, ?_⟩
    intro b hb
    have := h.shape.tiles.mem_bounds hb
    omega
  · obtain ⟨as, cs, rfl⟩ := List.append_of_mem hd
    obtain ⟨has, hlt, hcs⟩ := tiles_append_cons.mp h.shape.tiles
    refine ⟨as, d :: cs, rfl, ⟨rfl, hlt, hcs⟩, ?_⟩
    intro b hb
    have := has.mem_bounds hb
    omega

theorem Arena.mallocAligned (h : Arena σ bs f) (hsize : size.toNat + 32 < 2 ^ 32)
    (hal : size.toNat % 8 = 0) (hr : LuojiOs.mallocAligned size σ = .ok r) :
    Allocates size.toNat σ bs f r := by
  rcases mallocAligned_cases hr with ⟨-, rfl⟩ | ⟨ptr, σ₁, hfind, hmove, rfl⟩
  · exact .none h.released ⟨rfl, rfl, rfl⟩ rfl
  · rw [h.lfree, ptr_sub_heapPtr] at hfind
    obtain ⟨as, cs, rfl, htiles, -⟩ := h.exists_from
    obtain ⟨cs₁, b, cs₂, rfl, hfree, rfl, hfit⟩ := h.shape.findFree_some htiles hfind
    have h' : Arena σ ((as ++ cs₁) ++ b :: cs₂) f := by simpa using h
    have hs : SameStatics σ (takeBlock (BitVec.ofNat 32 b.start) size σ) := sameStatics_takeBlock
    have hs' := hs.trans (sameStatics_moveLfree hmove)
    obtain ⟨f', hnext, harena⟩ := h'.take hsize hal hfit hmove
    rw [heapPtr_add_ofNat, ptr_add_header]
    refine .some (by simp) hfree hfit hnext harena.released ?_ ?_
    · exact hs'.place.trans ⟨rfl, rfl, rfl⟩
    · intro u hu hne
      have hkeep := h'.shape.keeps_takeBlock hsize (by simpa using hu) hne
      have hbytes : (releaseHeapSem σ₁).bytes =
          (takeBlock (BitVec.ofNat 32 b.start) size σ).bytes := by
        rcases moveLfree_cases hmove with ⟨-, rfl⟩ | ⟨p, -, -, rfl⟩
        · rfl
        · rfl
      intro x hlo hhi
      rw [hbytes]
      exact hkeep x hlo hhi

theorem toNat_searchSize (hroom : (rtAlign size).toNat + 32 < 2 ^ 32) :
    (searchSize size).toNat + 32 < 2 ^ 32 ∧ (searchSize size).toNat % 8 = 0 ∧
      16 ≤ (searchSize size).toNat ∧ (rtAlign size).toNat ≤ (searchSize size).toNat := by
  have halign := toNat_rtAlign size
  have h16 : MIN_SIZE_ALIGNED.toNat = 16 := rfl
  unfold searchSize
  split
  · next hlt =>
    rw [BitVec.lt_def, h16] at hlt
    rw [h16]
    omega
  · next hge =>
    rw [BitVec.lt_def, h16] at hge
    omega

theorem Arena.malloc (h : Arena σ bs f) (hr : LuojiOs.malloc size σ = .ok r) :
    Allocates (searchSize size).toNat σ bs f r := by
  obtain ⟨-, ⟨-, rfl⟩ | ⟨-, hle, hr⟩⟩ := malloc_cases hr
  · exact .none h.locked ⟨rfl, rfl, rfl⟩ rfl
  · have hroom : (rtAlign size).toNat + 32 < 2 ^ 32 := by
      have := h.shape.geometry.room
      rw [BitVec.le_def] at hle
      omega
    obtain ⟨hsize, hal, -, -⟩ := toNat_searchSize hroom
    cases h.locked.mallocAligned hsize hal hr with
    | none harena hplace hbytes => exact .none harena ⟨hplace.1, hplace.2, hplace.3⟩ hbytes
    | some hbs hfree hfit hnext harena hplace hkeeps =>
        exact .some hbs hfree hfit hnext harena ⟨hplace.1, hplace.2, hplace.3⟩ hkeeps

end Malloc

end LuojiOs
