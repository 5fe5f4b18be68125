import LuojiOs.Heap.Arena

/-!
# `free` and `realloc` on the block list

Both are called with the address of the payload of a used block.
-/

namespace LuojiOs

open Tiling

/-! ## Writes to payloads -/

section Payload

variable {σ : Heap} {as bs : List Block} {b u : Block} {f : ℕ} {m : Bytes}

/-- The headers are kept by a write to the payload of a block. -/
theorem Shape.off_of_payload (h : Shape σ bs)
    (hm : ∀ x, x < σ.heapPtr.toNat + (b.start + 16) ∨ σ.heapPtr.toNat + b.stop ≤ x →
      m x = σ.bytes x) {o : ℕ} (ho : o ≤ σ.endOff) (hbound : o ≤ b.start ∨ b.stop ≤ o) :
    Heap.off { σ with bytes := m } o = σ.off o := by
  apply hdr_congr
  intro i hi
  change m ((σ.ptr o).toNat + i) = σ.bytes ((σ.ptr o).toNat + i)
  rw [h.geometry.toNat_ptr ho]
  apply hm
  omega

theorem Shape.writePayload (h : Shape σ bs) (hb : b ∈ bs)
    (hm : ∀ x, x < σ.heapPtr.toNat + (b.start + 16) ∨ σ.heapPtr.toNat + b.stop ≤ x →
      m x = σ.bytes x) : Shape { σ with bytes := m } bs := by
  have hoff : ∀ u ∈ bs, Heap.off { σ with bytes := m } u.start = σ.off u.start := by
    intro u hu
    have hub := h.tiles.mem_bounds hu
    apply h.off_of_payload hm (by omega)
    rcases h.tiles.apart hb hu with rfl | hlt | hlt
    · exact Or.inl (Nat.le_refl _)
    · exact Or.inr hlt
    · exact Or.inl (by omega)
  refine ⟨⟨h.geometry.base, h.geometry.size, h.geometry.room, h.geometry.heapEnd⟩, ?_, ?_,
    h.aligned⟩
  · exact h.chain.congr_mem hoff
  · have hend : Heap.off { σ with bytes := m } σ.endOff = σ.off σ.endOff :=
      h.off_of_payload hm (Nat.le_refl _) (Or.inr (h.stop_le hb))
    have hlast := h.last
    rw [← hend] at hlast
    exact hlast

theorem Arena.writePayload (h : Arena σ bs f) (hb : b ∈ bs)
    (hm : ∀ x, x < σ.heapPtr.toNat + (b.start + 16) ∨ σ.heapPtr.toNat + b.stop ≤ x →
      m x = σ.bytes x) : Arena { σ with bytes := m } bs f where
  shape := h.shape.writePayload hb hm
  lfree := h.lfree
  spot := h.spot

theorem Shape.keeps_writePayload (h : Shape σ bs) (hb : b ∈ bs) (hu : u ∈ bs) (hne : u ≠ b)
    (hm : ∀ x, x < σ.heapPtr.toNat + (b.start + 16) ∨ σ.heapPtr.toNat + b.stop ≤ x →
      m x = σ.bytes x) : PayloadKept u σ { σ with bytes := m } := by
  intro x hlo hhi
  apply hm
  rcases h.tiles.apart hb hu with hbu | hlt | hlt
  · exact absurd hbu.symm hne
  · exact Or.inr (by omega)
  · have := h.room_of_mem hb
    exact Or.inl (by omega)

end Payload

/-! ## `free` -/

section Free

variable {σ σ' : Heap} {as bs bs' : List Block} {b u : Block} {f f' : ℕ}

/-- Used blocks stay in the list, and no others appear. -/
theorem Plugged.mem_used_iff (h : Plugged as b bs f bs' f') (hb : b.used = false)
    (hu : u.used = true) : u ∈ bs' ↔ u ∈ as ++ b :: bs := by
  obtain ⟨b₁, cs, f₁, ds, b₂, hnext, hprev, rfl⟩ := h.exists_joins
  have hne : ∀ d : Block, d.used = false → u ≠ d := by
    rintro d hd rfl
    simp [hu] at hd
  have hb₁ := (hnext.start_used hb).2
  have hforward : u ∈ b₁ :: cs ↔ u ∈ b :: bs := by
    cases hnext with
    | keep _ => exact Iff.rfl
    | join hc => simp [hne _ hb, hne _ hc, hne ⟨b.start, _, false⟩ rfl]
  have hbackward : u ∈ ds ++ [b₂] ↔ u ∈ as ++ [b₁] := by
    cases hprev with
    | keep _ => exact Iff.rfl
    | join ha => simp [hne _ hb₁, hne _ ha, hne ⟨_, b₁.stop, false⟩ rfl]
  have hleft : u ∈ ds ++ b₂ :: cs ↔ u ∈ ds ++ [b₂] ∨ u ∈ cs := by simp [or_assoc]
  have hmid : u ∈ as ++ [b₁] ∨ u ∈ cs ↔ u ∈ as ∨ u ∈ b₁ :: cs := by simp [or_assoc]
  rw [hleft, hbackward, hmid, hforward, List.mem_append]

/-- The other used blocks stay when a block is given back. -/
theorem Plugged.mem_of_ne (h : Plugged as ⟨b.start, b.stop, false⟩ bs f bs' f')
    (hu : u ∈ as ++ b :: bs) (hused : u.used = true) (hne : u ≠ b) : u ∈ bs' := by
  have hmem : u ∈ as ++ ([⟨b.start, b.stop, false⟩] ++ bs) := mem_replaced hu hne
  exact (h.mem_used_iff rfl hused).mpr hmem

theorem Arena.releaseBlock (h : Arena σ (as ++ b :: bs) f) :
    Arena (releaseBlock (σ.ptr b.start) σ) (as ++ ⟨b.start, b.stop, false⟩ :: bs)
      (if b.start < f then b.start else f) := by
  have hbb := h.shape.tiles.mem_bounds (b := b) (by simp)
  have hs : SameStatics σ (LuojiOs.releaseBlock (σ.ptr b.start) σ) := sameStatics_releaseBlock
  refine ⟨h.shape.releaseBlock, ?_, ?_⟩
  · rw [lfree_releaseBlock, h.lfree, ptr_congr hs]
    have hlt : σ.ptr b.start < σ.ptr f ↔ b.start < f :=
      h.shape.geometry.ptr_lt (by omega) h.le_endOff
    by_cases hbf : b.start < f
    · rw [if_pos (hlt.mpr hbf), if_pos hbf]
    · rw [if_neg (fun hp => hbf (hlt.mp hp)), if_neg hbf]
  · rw [endOff_congr hs]
    split
    · exact Or.inr ⟨⟨b.start, b.stop, false⟩, by simp, rfl, rfl⟩
    · rcases h.spot with hf | ⟨d, hd, hfree, hdf⟩
      · exact Or.inl hf
      · right
        simp only [List.mem_append, List.mem_cons] at hd
        rcases hd with hd | rfl | hd
        · exact ⟨d, by simp [hd], hfree, hdf⟩
        · exact ⟨⟨d.start, d.stop, false⟩, by simp, rfl, hdf⟩
        · exact ⟨d, by simp [hd], hfree, hdf⟩

theorem Geometry.ptr_ne_zero {o : ℕ} (h : Geometry σ) (ho : o + 16 ≤ σ.endOff) :
    σ.ptr (o + 16) ≠ 0 := by
  intro hzero
  have := congrArg BitVec.toNat hzero
  have hnull : (0 : BitVec 32).toNat = 0 := rfl
  rw [h.toNat_ptr ho, hnull] at this
  omega

/-- What `free` makes of a used block. -/
theorem Arena.free (h : Arena σ (as ++ b :: bs) f)
    (hr : LuojiOs.free (σ.ptr (b.start + 16)) σ = .ok σ') :
    ∃ bs' f', Plugged as ⟨b.start, b.stop, false⟩ bs (if b.start < f then b.start else f) bs' f' ∧
      Arena σ' bs' f' ∧ SamePlace σ σ' ∧
      ∀ u ∈ as ++ b :: bs, u.used = true → u ≠ b → PayloadKept u σ σ' := by
  have hb : b ∈ as ++ b :: bs := by simp
  have hroom := h.shape.room_of_mem hb
  have hle := h.shape.stop_le hb
  obtain ⟨-, ⟨hzero, -⟩ | ⟨-, -, -, σ₁, hplug, rfl⟩⟩ := free_cases hr
  · exact absurd hzero (h.shape.geometry.ptr_ne_zero (by omega))
  · rw [ptr_sub_header] at hplug
    have hrel := h.locked.releaseBlock
    have hs : SameStatics σ.locked (LuojiOs.releaseBlock (σ.ptr b.start) σ.locked) :=
      sameStatics_releaseBlock
    have hptr : (LuojiOs.releaseBlock (σ.ptr b.start) σ.locked).ptr b.start =
        σ.locked.ptr b.start := ptr_congr hs
    obtain ⟨bs', f', hpl, harena, hkeep⟩ := hrel.plugHoles rfl hptr.symm hplug
    have hplace : SamePlace σ (releaseHeapSem σ₁) := by
      have hs' := hs.trans (sameStatics_plugHoles hplug)
      exact ⟨hs'.heapPtr, hs'.heapEnd, hs'.memSizeAligned⟩
    refine ⟨bs', f', hpl, harena.released, hplace, ?_⟩
    intro u hu hused hne
    have hw := h.locked.shape.writesAt_releaseBlock
    have hfirst : PayloadKept u σ.locked (LuojiOs.releaseBlock (σ.ptr b.start) σ.locked) := by
      apply h.locked.shape.keeps_of_ne hb hu hne ?_ hw
      intro o ho
      rw [List.mem_singleton.mp ho]
      omega
    have hmem : u ∈ as ++ ([⟨b.start, b.stop, false⟩] ++ bs) := mem_replaced hu hne
    exact hfirst.trans hs.heapPtr (hkeep u hmem hused)

end Free

/-! ## `realloc` -/

/-- What a call of `realloc` for `n` bytes, aligned, makes of the used block `b`. -/
inductive Reallocates (n : ℕ) (σ : Heap) (as : List Block) (b : Block) (bs : List Block)
    (f : ℕ) : BitVec 32 × Heap → Prop
  | fails {σ' : Heap} (hn : n ≠ 0) (harena : Arena σ' (as ++ b :: bs) f)
      (hplace : SamePlace σ σ') (hbytes : σ'.bytes = σ.bytes) :
      Reallocates n σ as b bs f (0, σ')
  | frees {σ' : Heap} {bs' : List Block} {f' : ℕ} (hn : n = 0)
      (hplug : Plugged as ⟨b.start, b.stop, false⟩ bs
        (if b.start < f then b.start else f) bs' f')
      (harena : Arena σ' bs' f') (hplace : SamePlace σ σ')
      (hkeeps : ∀ u ∈ as ++ b :: bs, u.used = true → u ≠ b → PayloadKept u σ σ') :
      Reallocates n σ as b bs f (0, σ')
  | stays {σ' : Heap} (hsize : b.start + 16 + n = b.stop)
      (harena : Arena σ' (as ++ b :: bs) f) (hplace : SamePlace σ σ')
      (hbytes : σ'.bytes = σ.bytes) :
      Reallocates n σ as b bs f (σ.ptr (b.start + 16), σ')
  | shrinks {σ' : Heap} {bs' : List Block} {f' : ℕ} (hn : n ≠ 0)
      (hroom : b.start + 16 + n + 28 < b.stop)
      (hplug : Plugged (as ++ [⟨b.start, b.start + 16 + n, true⟩])
        ⟨b.start + 16 + n, b.stop, false⟩ bs f bs' f')
      (harena : Arena σ' bs' f') (hplace : SamePlace σ σ')
      (hkeeps : ∀ u ∈ as ++ ⟨b.start, b.start + 16 + n, true⟩ :: bs, u.used = true →
        PayloadKept u σ σ') :
      Reallocates n σ as b bs f (σ.ptr (b.start + 16), σ')
  | moves {σ' : Heap} {as₁ cs as₂ bs₂ bs' : List Block} {c : Block} {f₁ f' : ℕ}
      (hn : n ≠ 0) (hsplit : as ++ b :: bs = as₁ ++ c :: cs) (hfree : c.used = false)
      (hfit : c.start + 16 + max 16 n ≤ c.stop)
      (hnext : Arena.NextLfree c σ.endOff (taken (max 16 n) c ++ cs) f f₁)
      (hsplit₂ : as₁ ++ (taken (max 16 n) c ++ cs) = as₂ ++ b :: bs₂)
      (hplug : Plugged as₂ ⟨b.start, b.stop, false⟩ bs₂
        (if b.start < f₁ then b.start else f₁) bs' f')
      (harena : Arena σ' bs' f') (hplace : SamePlace σ σ')
      (hkeeps : ∀ u ∈ as ++ b :: bs, u.used = true → u ≠ b → PayloadKept u σ σ')
      (hcopy : ∀ i < min (b.stop - (b.start + 16)) n,
        σ'.bytes (σ.heapPtr.toNat + (c.start + 16 + i)) =
          σ.bytes (σ.heapPtr.toNat + (b.start + 16 + i))) :
      Reallocates n σ as b bs f (σ.ptr (c.start + 16), σ')

section Realloc

variable {σ σ' : Heap} {as bs : List Block} {b : Block} {f : ℕ} {newsize : BitVec 32}
  {r : BitVec 32 × Heap}

/-- The size that `realloc` computes for the block. -/
theorem Shape.toNat_payload (h : Shape σ bs) (hb : b ∈ bs) :
    (σ.payload (σ.ptr (b.start + 16))).toNat = b.stop - (b.start + 16) := by
  have hroom := h.room_of_mem hb
  have hle := h.stop_le hb
  have hlt := h.geometry.room
  have h16 : SIZEOF_STRUCT_MEM.toNat = 16 := rfl
  unfold Heap.endOff at hle
  unfold Heap.payload
  rw [ptr_sub_header, ptr_sub_heapPtr, (h.hdr_ptr hb).1, BitVec.toNat_sub, BitVec.toNat_sub,
    BitVec.toNat_ofNat, BitVec.toNat_ofNat, h16]
  omega

theorem searchSize_rtAlign (hroom : (rtAlign newsize).toNat + 32 < 2 ^ 32) :
    (searchSize (rtAlign newsize)).toNat = max 16 (rtAlign newsize).toNat := by
  have h16 : MIN_SIZE_ALIGNED.toNat = 16 := rfl
  unfold searchSize
  rw [rtAlign_rtAlign]
  split
  · next hlt =>
    rw [BitVec.lt_def, h16] at hlt
    rw [h16]
    omega
  · next hge =>
    rw [BitVec.lt_def, h16] at hge
    omega

/-- The used block of `realloc` is still there after its `malloc`. -/
theorem exists_split_of_used {as₁ cs : List Block} {c : Block} {n : ℕ}
    (hsplit : as ++ b :: bs = as₁ ++ c :: cs) (hb : b.used = true) (hc : c.used = false) :
    ∃ as₂ bs₂, as₁ ++ (taken n c ++ cs) = as₂ ++ b :: bs₂ := by
  apply List.append_of_mem
  have hmem : b ∈ as₁ ++ c :: cs := by
    rw [← hsplit]
    simp
  apply mem_replaced hmem
  rintro rfl
  simp [hb] at hc

/-- The block that `malloc` gives out. -/
theorem exists_mem_taken {c : Block} {n : ℕ} (hfit : c.start + 16 + n ≤ c.stop) :
    ∃ d ∈ taken n c, d.used = true ∧ d.start = c.start ∧ c.start + 16 + n ≤ d.stop := by
  unfold taken
  split
  · exact ⟨_, List.mem_cons_self, rfl, rfl, Nat.le_refl _⟩
  · exact ⟨_, List.mem_cons_self, rfl, rfl, hfit⟩

/-- The list after `realloc` has cut its block, before the rest is joined. -/
theorem Arena.cut (h : Arena σ (as ++ b :: bs) f) (hb : b.used = true)
    (hroom : b.start + 16 + newsize.toNat + 16 ≤ b.stop) (hal : newsize.toNat % 8 = 0) :
    Arena (σ.cut (σ.ptr (b.start + 16)) newsize)
      (as ++ ⟨b.start, b.start + 16 + newsize.toNat, true⟩ ::
        ⟨b.start + 16 + newsize.toNat, b.stop, false⟩ :: bs) f ∧
      ∀ u ∈ as ++ ⟨b.start, b.start + 16 + newsize.toNat, true⟩ :: bs,
        PayloadKept u σ (σ.cut (σ.ptr (b.start + 16)) newsize) := by
  have hcut : ∃ n, σ.cut (σ.ptr (b.start + 16)) newsize =
      splitBlock (BitVec.ofNat 32 b.start) newsize false (σ.countFreed n) := by
    unfold Heap.cut
    rw [ptr_sub_header, ptr_sub_heapPtr]
    exact ⟨_, rfl⟩
  obtain ⟨n, hcut⟩ := hcut
  have hcount := h.countFreed n
  have hs : SameStatics σ (splitBlock (BitVec.ofNat 32 b.start) newsize false (σ.countFreed n)) :=
    (sameStatics_countFreed n).trans (sameStatics_splitBlock false)
  have hshape : Shape (splitBlock (BitVec.ofNat 32 b.start) newsize false (σ.countFreed n)) _ :=
    hcount.shape.split hroom hal
  have hw : WritesAt [b.start, b.start + 16 + newsize.toNat, b.stop] (σ.countFreed n)
      (splitBlock (BitVec.ofNat 32 b.start) newsize false (σ.countFreed n)) :=
    hcount.shape.writesAt_splitBlock hroom
  rw [hb, Bool.or_true] at hshape
  rw [hcut]
  refine ⟨⟨hshape, ?_, ?_⟩, ?_⟩
  · rw [lfree_splitBlock, ptr_congr hs]
    exact h.lfree
  · rw [endOff_congr hs]
    rcases h.spot with hf | ⟨d, hd, hfree, hdf⟩
    · exact Or.inl hf
    · refine Or.inr ⟨d, ?_, hfree, hdf⟩
      simp only [List.mem_append, List.mem_cons] at hd ⊢
      rcases hd with hd | rfl | hd
      · exact Or.inl hd
      · simp [hb] at hfree
      · exact Or.inr (Or.inr (Or.inr hd))
  · intro u hu
    have hbounds : u.stop ≤ b.start ∨ b.stop ≤ u.start ∨
        (u.start = b.start ∧ u.stop = b.start + 16 + newsize.toNat) := by
      obtain ⟨has, -, hbs⟩ := tiles_append_cons.mp h.shape.tiles
      simp only [List.mem_append, List.mem_cons] at hu
      rcases hu with hu | rfl | hu
      · exact Or.inl (has.mem_bounds hu).2.2
      · exact Or.inr (Or.inr ⟨rfl, rfl⟩)
      · exact Or.inr (Or.inl (hbs.mem_bounds hu).1)
    have hkeep : PayloadKept u (σ.countFreed n)
        (splitBlock (BitVec.ofNat 32 b.start) newsize false (σ.countFreed n)) := by
      apply hw.keeps
      intro o ho
      simp only [List.mem_cons, List.not_mem_nil, or_false] at ho
      omega
    exact hkeep

/-- The block that `realloc` cuts off starts behind the bytes that it keeps. -/
theorem rest_ptr {o : ℕ} (a : BitVec 32) :
    σ.rest (σ.ptr (o + 16)) a = σ.ptr (o + 16 + a.toNat) := by
  have hoff : BitVec.ofNat 32 (o + 16 + a.toNat) = BitVec.ofNat 32 (o + 16) + a := by
    rw [BitVec.ofNat_add (o + 16), BitVec.ofNat_toNat, BitVec.setWidth_eq]
  unfold Heap.rest
  rw [ptr_sub_header, ptr_sub_heapPtr, ofNat_add_header, ← hoff]
  rfl

/-- `rt_memcpy` into the payload of a block. -/
theorem Arena.copyInto {d : Block} {n : ℕ} (src : ℕ) (h : Arena σ bs f) (hd : d ∈ bs)
    (hfit : d.start + 16 + n ≤ d.stop) :
    Arena { σ with bytes := Bytes.copy σ.bytes (σ.heapPtr.toNat + (d.start + 16)) src n } bs f ∧
      ∀ u ∈ bs, u ≠ d → PayloadKept u σ
        { σ with bytes := Bytes.copy σ.bytes (σ.heapPtr.toNat + (d.start + 16)) src n } := by
  have hm : ∀ x, x < σ.heapPtr.toNat + (d.start + 16) ∨ σ.heapPtr.toNat + d.stop ≤ x →
      Bytes.copy σ.bytes (σ.heapPtr.toNat + (d.start + 16)) src n x = σ.bytes x := by
    intro x hx
    apply Bytes.copy_of_outside
    omega
  refine ⟨h.writePayload hd hm, ?_⟩
  intro u hu hne
  exact h.shape.keeps_writePayload hd hu hne hm

/-- The part of `realloc` behind a `malloc` that has found a block: `d` is the new block. -/
theorem Arena.copyAndFree {d : Block} {n : ℕ} (h : Arena σ (as ++ b :: bs) f)
    (hd : d ∈ as ++ b :: bs) (hdused : d.used = true) (hdb : d ≠ b)
    (hfit : d.start + 16 + n ≤ d.stop)
    (hr : LuojiOs.free (σ.ptr (b.start + 16))
      { σ with
        bytes := Bytes.copy σ.bytes (σ.ptr (d.start + 16)).toNat
          (σ.ptr (b.start + 16)).toNat n } = .ok σ') :
    ∃ bs' f', Plugged as ⟨b.start, b.stop, false⟩ bs (if b.start < f then b.start else f) bs' f' ∧
      Arena σ' bs' f' ∧ SamePlace σ σ' ∧
      (∀ u ∈ as ++ b :: bs, u.used = true → u ≠ b → u ≠ d → PayloadKept u σ σ') ∧
      ∀ i < n, σ'.bytes (σ.heapPtr.toNat + (d.start + 16 + i)) =
        σ.bytes (σ.heapPtr.toNat + (b.start + 16 + i)) := by
  have hbmem : b ∈ as ++ b :: bs := by simp
  have hbroom := h.shape.room_of_mem hbmem
  have hble := h.shape.stop_le hbmem
  have hdle := h.shape.stop_le hd
  rw [h.shape.geometry.toNat_ptr (by omega), h.shape.geometry.toNat_ptr (by omega)] at hr
  obtain ⟨hcopied, hcopykeep⟩ := h.copyInto (σ.heapPtr.toNat + (b.start + 16)) hd hfit
  obtain ⟨bs', f', hplug, harena, hplace, hkeeps⟩ := hcopied.free hr
  have hplace' : SamePlace σ σ' := ⟨hplace.heapPtr, hplace.heapEnd, hplace.memSizeAligned⟩
  refine ⟨bs', f', hplug, harena, hplace', ?_, ?_⟩
  · intro u hu hused hne hnd
    have hfirst := hcopykeep u hu hnd
    exact hfirst.trans rfl (hkeeps u hu hused hne)
  · intro i hi
    have hkept := hkeeps d hd hdused hdb (d.start + 16 + i) (by omega) (by omega)
    have hdst : σ.heapPtr.toNat + (d.start + 16 + i) =
        σ.heapPtr.toNat + (d.start + 16) + i := by omega
    have hsrc : σ.heapPtr.toNat + (b.start + 16) + i =
        σ.heapPtr.toNat + (b.start + 16 + i) := by omega
    refine hkept.trans ?_
    change Bytes.copy σ.bytes _ _ n (σ.heapPtr.toNat + (d.start + 16 + i)) = _
    rw [hdst, Bytes.copy_of_inside hi, hsrc]

theorem Arena.reallocMove {size : BitVec 32} (h : Arena σ (as ++ b :: bs) f)
    (hb : b.used = true) (hroom : (rtAlign newsize).toNat + 32 < 2 ^ 32)
    (hn : (rtAlign newsize).toNat ≠ 0) (hsize : size.toNat = b.stop - (b.start + 16))
    (hr : LuojiOs.reallocMove (σ.ptr (b.start + 16)) size (rtAlign newsize) σ = .ok r) :
    Reallocates (rtAlign newsize).toNat σ as b bs f r := by
  obtain ⟨p, σ₁, hmalloc, hr⟩ := reallocMove_cases hr
  have halloc := h.malloc hmalloc
  rw [searchSize_rtAlign hroom] at halloc
  cases halloc with
  | none harena hplace hbytes =>
      rcases hr with ⟨-, rfl⟩ | ⟨hp, -⟩
      · exact .fails hn harena hplace hbytes
      · exact absurd rfl hp
  | @some _ as₁ cs c f₁ hsplit hfree hfit hnext harena hplace hkeeps =>
      have hcmem : c ∈ as ++ b :: bs := by
        rw [hsplit]
        simp
      have hcle := h.shape.stop_le hcmem
      have hbmem : b ∈ as ++ b :: bs := by simp
      rcases hr with ⟨hp, -⟩ | ⟨-, σ₂, hfreed, rfl⟩
      · exact absurd hp (h.shape.geometry.ptr_ne_zero (by omega))
      · have hlen : (if size < rtAlign newsize then size else rtAlign newsize).toNat =
            min (b.stop - (b.start + 16)) (rtAlign newsize).toNat := by
          split
          · next hlt =>
            rw [BitVec.lt_def] at hlt
            omega
          · next hlt =>
            rw [BitVec.lt_def] at hlt
            omega
        -- `d` is the block that was given out, at the place of the free block `c`
        obtain ⟨d, hd, hdused, hdstart, hdstop⟩ := exists_mem_taken hfit
        have hne : ∀ u ∈ as ++ b :: bs, u.used = true → u ≠ c ∧ u ≠ d := by
          intro u hu hused
          have huc : u ≠ c := by
            rintro rfl
            simp [hused] at hfree
          refine ⟨huc, ?_⟩
          rintro rfl
          exact huc (h.shape.tiles.eq_of_start hu hcmem hdstart)
        obtain ⟨as₂, bs₂, hsplit₂⟩ : ∃ as₂ bs₂,
            as₁ ++ (taken (max 16 (rtAlign newsize).toNat) c ++ cs) = as₂ ++ b :: bs₂ :=
          exists_split_of_used hsplit hb hfree
        have hdmem : d ∈ as₂ ++ b :: bs₂ := by
          rw [← hsplit₂]
          simp [hd]
        have harena₂ := harena
        rw [hsplit₂] at harena₂
        rw [hlen, ← hplace.ptr_eq, ← hplace.ptr_eq, ← hdstart] at hfreed
        obtain ⟨bs', f', hplug, harena', hplace', hkeeps', hcopy⟩ := harena₂.copyAndFree hdmem
          hdused (hne b hbmem hb).2.symm (by omega) hfreed
        refine .moves hn hsplit hfree hfit hnext hsplit₂ hplug harena' (hplace.trans hplace') ?_ ?_
        · intro u hu hused hub
          obtain ⟨huc, hud⟩ := hne u hu hused
          have humem : u ∈ as₂ ++ b :: bs₂ := by
            rw [← hsplit₂]
            exact mem_replaced (hsplit ▸ hu) huc
          exact (hkeeps u hu huc).trans hplace.heapPtr (hkeeps' u humem hused hub hud)
        · intro i hi
          have hcopied := hcopy i hi
          rw [hplace.heapPtr, hdstart] at hcopied
          rw [hcopied]
          exact hkeeps b hbmem (hne b hbmem hb).1 (b.start + 16 + i) (by omega) (by omega)

theorem Arena.reallocShrink {a : BitVec 32} (h : Arena σ (as ++ b :: bs) f) (hb : b.used = true)
    (hal : a.toNat % 8 = 0) (hn : a.toNat ≠ 0) (hcuts : b.start + 16 + a.toNat + 28 < b.stop)
    (hplug : LuojiOs.plugHoles (σ.rest (σ.ptr (b.start + 16)) a)
      (σ.locked.cut (σ.ptr (b.start + 16)) a) = .ok σ') :
    Reallocates a.toNat σ as b bs f (σ.ptr (b.start + 16), releaseHeapSem σ') := by
  obtain ⟨hcut, hkeep₁⟩ := h.locked.cut hb (show b.start + 16 + a.toNat + 16 ≤ b.stop by omega) hal
  have hptr : σ.locked.ptr (b.start + 16) = σ.ptr (b.start + 16) := rfl
  rw [hptr] at hcut hkeep₁
  have hs : SameStatics σ.locked (σ.locked.cut (σ.ptr (b.start + 16)) a) :=
    (sameStatics_countFreed _).trans (sameStatics_splitBlock false)
  have hrest : σ.rest (σ.ptr (b.start + 16)) a =
      (σ.locked.cut (σ.ptr (b.start + 16)) a).ptr (b.start + 16 + a.toNat) := by
    rw [ptr_congr hs]
    exact rest_ptr a
  rw [List.append_cons] at hcut
  obtain ⟨bs', f', hpl, harena, hkeep₂⟩ := hcut.plugHoles rfl hrest hplug
  have hs' := hs.trans (sameStatics_plugHoles hplug)
  have hplace : SamePlace σ (releaseHeapSem σ') :=
    ⟨hs'.heapPtr, hs'.heapEnd, hs'.memSizeAligned⟩
  refine .shrinks hn hcuts hpl harena.released hplace ?_
  intro u hu hused
  have hkeep : PayloadKept u σ.locked σ' := (hkeep₁ u hu).trans hs.heapPtr (hkeep₂ u ?_ hused)
  · exact hkeep
  simp only [List.mem_append, List.mem_cons, List.not_mem_nil, or_false] at hu ⊢
  rcases hu with hu | hu | hu
  · exact Or.inl (Or.inl hu)
  · exact Or.inl (Or.inr hu)
  · exact Or.inr (Or.inr hu)

theorem releaseHeapSem_locked (σ : Heap) : releaseHeapSem σ.locked = σ := by
  unfold releaseHeapSem Heap.locked
  rw [BitVec.sub_add_cancel]

theorem Arena.realloc (h : Arena σ (as ++ b :: bs) f) (hb : b.used = true)
    (hne : b.start + 16 < b.stop)
    (hr : LuojiOs.realloc (σ.ptr (b.start + 16)) newsize σ = .ok r) :
    Reallocates (rtAlign newsize).toNat σ as b bs f r := by
  have hbmem : b ∈ as ++ b :: bs := by simp
  have hble := h.shape.stop_le hbmem
  have hnat : (σ.ptr (b.start + 16)).toNat = σ.heapPtr.toNat + (b.start + 16) :=
    h.shape.geometry.toNat_ptr (by omega)
  have hsize := h.shape.toNat_payload hbmem
  have hal := toNat_rtAlign newsize
  have hnz : rtAlign newsize ≠ 0 → (rtAlign newsize).toNat ≠ 0 := by
    intro hn hzero
    exact hn (BitVec.eq_of_toNat_eq hzero)
  cases realloc_cases hr with
  | large hlarge =>
      have hn : (rtAlign newsize).toNat ≠ 0 := by
        rw [BitVec.lt_def] at hlarge
        omega
      exact .fails hn h (SamePlace.refl σ) rfl
  | zero hzero hfree =>
      obtain ⟨bs', f', hplug, harena, hplace, hkeeps⟩ := h.free hfree
      exact .frees (by rw [hzero]; rfl) hplug harena hplace hkeeps
  | null _ _ hnull _ => exact absurd hnull (h.shape.geometry.ptr_ne_zero (by omega))
  | keep _ _ _ _ hsame =>
      rcases hsame with hlo | hhi | hsame
      · rw [BitVec.lt_def] at hlo
        omega
      · rw [BitVec.le_def, h.shape.geometry.heapEnd, hnat,
          h.shape.geometry.toNat_ptr (Nat.le_refl _)] at hhi
        omega
      · rw [hsame] at hsize
        exact .stays (by omega) h.locked.released ⟨rfl, rfl, rfl⟩ rfl
  | shrink hfit hn _ _ _ _ hroom hplug =>
      have hcuts : b.start + 16 + (rtAlign newsize).toNat + 28 < b.stop := by
        have hgeo := h.shape.geometry.room
        have h16 : SIZEOF_STRUCT_MEM.toNat = 16 := rfl
        have h12 : MIN_SIZE.toNat = 12 := rfl
        rw [BitVec.lt_def, BitVec.toNat_add, BitVec.toNat_add, h16, h12, hsize] at hroom
        rw [BitVec.le_def] at hfit
        omega
      exact h.reallocShrink hb (by omega) (hnz hn) hcuts hplug
  | move hfit hn _ _ _ _ _ hmove =>
      have hgeo := h.shape.geometry.room
      have hroom : (rtAlign newsize).toNat + 32 < 2 ^ 32 := by
        rw [BitVec.le_def] at hfit
        omega
      rw [releaseHeapSem_locked] at hmove
      exact h.reallocMove hb hroom (hnz hn) hsize hmove

end Realloc

end LuojiOs
