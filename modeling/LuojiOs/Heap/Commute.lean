import LuojiOs.Heap.Undo

/-!
# Frees commute

A well-formed heap is the coarsest tiling with its used blocks: the blocks are determined by
the used ones.  So it does not matter in which order two blocks are given back, whatever
`plug_holes` joins on the way.  The `prev` of `heap_end` is written when the last block is
joined with the one before it, and only then.
-/

namespace LuojiOs

open Tiling

/-! ## Blocks are determined by the used ones -/

section Canonical

variable {as bs cs : List Block} {b : Block} {e f f' p : ℕ}

theorem Tidy.eq_of_used (h : Tidy as f) (h' : Tidy bs f')
    (ht : Tiles Block.start Block.stop 0 as e) (ht' : Tiles Block.start Block.stop 0 bs e)
    (hused : ∀ u : Block, u.used = true → (u ∈ as ↔ u ∈ bs)) : as = bs := by
  apply ht.eq_of_full ht' h.parted h'.parted hused
  rintro ⟨start, stop, used⟩ ⟨start', stop', used'⟩ hfree hfree' rfl rfl
  rw [Bool.not_eq_true] at hfree hfree'
  exact congrArg (Block.mk start stop) (hfree.trans hfree'.symm)

theorem lastStart_append_cons : lastStart p (as ++ b :: cs) = lastStart b.start cs := by
  induction as generalizing p with
  | nil => rfl
  | cons a as ih => exact ih

theorem lastStart_cons_congr {q : ℕ} (h : bs ≠ []) : lastStart p bs = lastStart q bs := by
  cases bs with
  | nil => exact absurd rfl h
  | cons b bs => rfl

end Canonical

/-! ## The link from `heap_end` -/

namespace Heap

/-- Where the last block starts. -/
def lastOff (σ : Heap) : ℕ := lastStart 0 σ.blocks

/-- `heap_end->prev` -/
def endPrev (σ : Heap) : BitVec 32 := (σ.off σ.endOff).prev

/-- `heap_end->prev` is written when the last block is joined with the one before it. -/
def Relinks (σ σ' : Heap) : Prop :=
  (σ'.lastOff = σ.lastOff ∧ σ'.endPrev = σ.endPrev) ∨
    (σ'.lastOff < σ.lastOff ∧ σ'.endPrev = BitVec.ofNat 32 σ'.lastOff)

theorem Relinks.refl (σ : Heap) : σ.Relinks σ := Or.inl ⟨rfl, rfl⟩

theorem Relinks.trans {σ σ₁ σ₂ : Heap} (h : σ.Relinks σ₁) (h' : σ₁.Relinks σ₂) :
    σ.Relinks σ₂ := by
  rcases h' with ⟨hoff, hprev⟩ | ⟨hlt, hprev⟩
  · rcases h with ⟨hoff₁, hprev₁⟩ | ⟨hlt₁, hprev₁⟩
    · exact Or.inl ⟨hoff.trans hoff₁, hprev.trans hprev₁⟩
    · exact Or.inr ⟨hoff ▸ hlt₁, by rw [hprev, hprev₁, hoff]⟩
  · refine Or.inr ⟨?_, hprev⟩
    rcases h with ⟨hoff₁, -⟩ | ⟨hlt₁, -⟩
    · exact hoff₁ ▸ hlt
    · exact Nat.lt_trans hlt hlt₁

/-- The link is determined by the last block. -/
theorem Relinks.endPrev_eq {σ σ₁ σ₂ : Heap} (h : σ.Relinks σ₁) (h' : σ.Relinks σ₂)
    (hlast : σ₁.lastOff = σ₂.lastOff) : σ₁.endPrev = σ₂.endPrev := by
  rcases h with ⟨hoff, hprev⟩ | ⟨hlt, hprev⟩
  · rcases h' with ⟨-, hprev'⟩ | ⟨hlt', -⟩
    · rw [hprev, hprev']
    · omega
  · rcases h' with ⟨hoff', -⟩ | ⟨-, hprev'⟩
    · omega
    · rw [hprev, hprev', hlast]

end Heap

section Relinks

variable {σ σ' : Heap} {as bs bs' : List Block} {b b' c : Block} {f f' : ℕ}

theorem Shape.lastOff_eq (h : Shape σ bs) : σ.lastOff = lastStart 0 bs := by
  unfold Heap.lastOff
  rw [h.blocks_eq]

theorem Shape.relinks_of_bytes (h : Shape σ bs) (h' : Shape σ' bs) (hs : SamePlace σ σ')
    (hbytes : σ'.bytes = σ.bytes) : σ.Relinks σ' := by
  refine Or.inl ⟨by rw [h.lastOff_eq, h'.lastOff_eq], ?_⟩
  unfold Heap.endPrev Heap.off
  rw [hs.ptr_eq, hs.endOff_eq]
  exact congrArg HeapMem.prev (hdr_congr fun i _ => by rw [hbytes])

/-- Joining two blocks. -/
theorem Shape.relinks_joinAt (h : Shape σ (as ++ b :: c :: bs)) :
    σ.Relinks (joinAt b.start c.stop σ) := by
  have hb : b ∈ as ++ b :: c :: bs := by simp
  have hc : c ∈ as ++ b :: c :: bs := by simp
  have hbroom := h.room_of_mem hb
  have hcroom := h.room_of_mem hc
  have hle := h.stop_le hc
  have hadj : c.start = b.stop := (chain_append_cons.mp h.chain).2.2.2.1
  have hw := writesAt_joinAt (o := b.start) h.geometry (by omega) hle
  have hlast : σ.lastOff = lastStart c.start bs := h.lastOff_eq.trans lastStart_append_cons
  have hlast' : (joinAt b.start c.stop σ).lastOff = lastStart b.start bs :=
    h.join.lastOff_eq.trans lastStart_append_cons
  have hends : (joinAt b.start c.stop σ).endOff = σ.endOff := endOff_congr hw.statics
  unfold Heap.Relinks Heap.endPrev
  rw [hlast, hlast', hends]
  have hsplit : Shape σ ((as ++ [b]) ++ c :: bs) := by simpa using h
  rcases hsplit.stop_cases with ⟨rfl, hend⟩ | ⟨hne, hgap⟩
  · right
    rw [← hend, off_joinAt_second h.geometry hle (by omega)]
    exact ⟨show b.start < c.start by omega, rfl⟩
  · left
    rw [hw.off_eq h.geometry (Nat.le_refl _)]
    · exact ⟨lastStart_cons_congr hne, rfl⟩
    · intro x hx
      rcases List.mem_pair.mp hx with rfl | rfl
      · omega
      · omega

/-- Joining two blocks when `lfree` has been moved. -/
theorem Shape.relinks_join (h : Shape σ (as ++ b :: c :: bs)) (o k : ℕ) :
    σ.Relinks (joinAt b.start c.stop (followLfree o k σ)) := by
  have hs := sameStatics_followLfree (σ := σ) (o := o) (k := k)
  have h' := h.of_bytes_eq hs bytes_followLfree
  exact (h.relinks_of_bytes h' hs.place bytes_followLfree).trans h'.relinks_joinAt

theorem Arena.relinks_plugForward (h : Arena σ (as ++ b :: bs) f) :
    σ.Relinks (LuojiOs.plugForward (σ.ptr b.start) σ) := by
  by_cases hused : ∀ c ∈ bs.head?, c.used = true
  · rw [plugForward_of_used h.shape hused]
    exact .refl σ
  · cases bs with
    | nil => exact absurd (by simp) hused
    | cons c bs =>
        rw [plugForward_of_free h.shape (by simpa using hused)]
        exact h.shape.relinks_join _ _

theorem Arena.relinks_plugBackward (h : Arena σ (as ++ b :: bs) f) :
    σ.Relinks (LuojiOs.plugBackward (σ.ptr b.start) σ) := by
  by_cases hused : ∀ a ∈ as.getLast?, a.used = true
  · rw [plugBackward_of_used h.shape hused]
    exact .refl σ
  · rcases List.eq_nil_or_concat as with rfl | ⟨as', a, rfl⟩
    · exact absurd (by simp) hused
    · rw [List.concat_eq_append] at h hused
      have h' : Arena σ (as' ++ a :: b :: bs) f := by simpa using h
      rw [plugBackward_of_free h'.shape (by simpa using hused)]
      exact h'.shape.relinks_join _ _

theorem Arena.relinks_plugHoles {p : BitVec 32} (h : Arena σ (as ++ b :: bs) f)
    (hb : b.used = false) (hp : p = σ.ptr b.start) (hplug : LuojiOs.plugHoles p σ = .ok σ') :
    σ.Relinks σ' := by
  subst hp
  obtain ⟨-, -, -, rfl⟩ := plugHoles_cases hplug
  obtain ⟨b₁, cs, f₁, hnext, h₁, -⟩ := h.plugForward hb
  have hs : SameStatics σ (LuojiOs.plugForward (σ.ptr b.start) σ) := sameStatics_plugForward
  have hback := h₁.relinks_plugBackward
  rw [ptr_congr hs, (hnext.start_used hb).1] at hback
  exact h.relinks_plugForward.trans hback

theorem Arena.relinks_releaseBlock (h : Arena σ (as ++ b :: bs) f) :
    σ.Relinks (LuojiOs.releaseBlock (σ.ptr b.start) σ) := by
  have hs : SameStatics σ (LuojiOs.releaseBlock (σ.ptr b.start) σ) := sameStatics_releaseBlock
  have hroom := h.shape.room_of_mem (b := b) (by simp)
  have hle := h.shape.stop_le (b := b) (by simp)
  refine Or.inl ⟨?_, ?_⟩
  · rw [h.shape.lastOff_eq, h.releaseBlock.shape.lastOff_eq, lastStart_append_cons,
      lastStart_append_cons]
  · unfold Heap.endPrev
    rw [endOff_congr hs, h.shape.writesAt_releaseBlock.off_eq h.shape.geometry (Nat.le_refl _)]
    intro x hx
    rw [List.mem_singleton.mp hx]
    omega

theorem Arena.relinks_free (h : Arena σ (as ++ b :: bs) f)
    (hr : LuojiOs.free (σ.ptr (b.start + 16)) σ = .ok σ') : σ.Relinks σ' := by
  have hroom := h.shape.room_of_mem (b := b) (by simp)
  have hle := h.shape.stop_le (b := b) (by simp)
  obtain ⟨-, ⟨hnull, -⟩ | ⟨-, -, -, σ₁, hplug, rfl⟩⟩ := free_cases hr
  · exact absurd hnull (h.shape.geometry.ptr_ne_zero (by omega))
  · rw [ptr_sub_header] at hplug
    have hrel := h.locked.releaseBlock
    have hs : SameStatics σ.locked (LuojiOs.releaseBlock (σ.ptr b.start) σ.locked) :=
      sameStatics_releaseBlock
    obtain ⟨bs', f', -, h₁, -⟩ := hrel.plugHoles rfl (ptr_congr hs).symm hplug
    have hlocked : σ.Relinks σ.locked :=
      h.shape.relinks_of_bytes h.locked.shape ⟨rfl, rfl, rfl⟩ rfl
    have hreleased : σ₁.Relinks (releaseHeapSem σ₁) :=
      h₁.shape.relinks_of_bytes h₁.released.shape ⟨rfl, rfl, rfl⟩ rfl
    exact ((hlocked.trans h.locked.relinks_releaseBlock).trans
      (hrel.relinks_plugHoles rfl (ptr_congr hs).symm hplug)).trans hreleased

end Relinks

/-! ## One call -/

/-- The address that `malloc` has returned for the block `b`. -/
def Heap.payloadAt (σ : Heap) (b : Block) : BitVec 32 := σ.ptr (b.start + 16)

/-- The heap `σ'` is `σ` with the used block `b` given back. -/
structure Heap.Freed (σ : Heap) (b : Block) (σ' : Heap) : Prop where
  wellFormed : σ'.WellFormed
  place : SamePlace σ σ'
  sem : σ'.heapSem = σ.heapSem
  used : ∀ u : Block, u.used = true → (u ∈ σ'.blocks ↔ u ∈ σ.blocks ∧ u ≠ b)
  usedMem : σ'.usedMem = σ.usedMem - (BitVec.ofNat 32 b.stop - BitVec.ofNat 32 b.start)
  relinks : σ.Relinks σ'

section Free

variable {σ σ' σ₁ σ₂ : Heap} {as bs : List Block} {a b : Block}

/-- A used block occurs once. -/
theorem mem_freed_iff {u : Block} {o e : ℕ}
    (ht : Tiles Block.start Block.stop o (as ++ b :: bs) e) (hu : u.used = true) :
    u ∈ as ++ (⟨b.start, b.stop, false⟩ : Block) :: bs ↔ u ∈ as ++ b :: bs ∧ u ≠ b := by
  obtain ⟨has, hlt, hbs⟩ := tiles_append_cons.mp ht
  constructor
  · intro hmem
    have hne : u ≠ ⟨b.start, b.stop, false⟩ := by
      rintro rfl
      cases hu
    have hold : u ∈ as ++ ([b] ++ bs) := mem_replaced hmem hne
    refine ⟨hold, ?_⟩
    rintro rfl
    rcases List.mem_append.mp hmem with hm | hm
    · have := (has.mem_bounds hm).2.2
      omega
    · rcases List.mem_cons.mp hm with hm | hm
      · exact hne hm
      · have := (hbs.mem_bounds hm).1
        omega
  · rintro ⟨hmem, hne⟩
    have hnew : u ∈ as ++ ([⟨b.start, b.stop, false⟩] ++ bs) := mem_replaced hmem hne
    exact hnew

/-- `free` returns for a used block of a well-formed heap. -/
theorem Heap.WellFormed.exists_freed (hw : σ.WellFormed) (hsem : 0 < σ.heapSem)
    (hb : b ∈ σ.blocks) (hused : b.used = true) :
    ∃ σ', free (σ.payloadAt b) σ = .ok σ' ∧ σ.Freed b σ' := by
  have hw' := hw
  obtain ⟨f, h, ht⟩ := hw'
  obtain ⟨as, bs, hsplit⟩ := List.append_of_mem hb
  rw [hsplit] at h ht
  have hroom := ht.room b (by simp)
  have hle := h.shape.stop_le (b := b) (by simp)
  have hnull : σ.payloadAt b ≠ 0 := h.shape.geometry.ptr_ne_zero (by omega)
  obtain ⟨σ', hr⟩ := h.exists_free hused (by omega) hsem
  obtain ⟨bs', f', hplug, harena, hplace, -⟩ := h.free hr
  refine ⟨σ', hr, ?_⟩
  constructor
  · exact wellFormed_of_plugged h.shape.tiles ht hused hplug harena
  · exact hplace
  · exact free_balanced hnull hr
  · intro u hu
    rw [harena.shape.blocks_eq, hsplit, hplug.mem_used_iff rfl hu]
    exact mem_freed_iff h.shape.tiles hu
  · have hcount := usedMem_free hr hnull
    rwa [ptr_sub_header, h.shape.sizeAt_ptr (by simp)] at hcount
  · exact h.relinks_free hr

/-- The heap `σ'` has the blocks of `σ` with the same headers, the one at `heap_end`
included, and the same `lfree` and `used_mem`. -/
structure Heap.SameState (σ σ' : Heap) : Prop extends σ.SameBlocks σ' where
  endPrev : σ'.endPrev = σ.endPrev

/-- A well-formed heap is determined by its used blocks. -/
theorem Heap.WellFormed.sameState (hw₁ : σ₁.WellFormed) (hw₂ : σ₂.WellFormed)
    (hs₁ : SamePlace σ σ₁) (hs₂ : SamePlace σ σ₂) (hr₁ : σ.Relinks σ₁) (hr₂ : σ.Relinks σ₂)
    (hused : ∀ u : Block, u.used = true → (u ∈ σ₁.blocks ↔ u ∈ σ₂.blocks))
    (hmem : σ₂.usedMem = σ₁.usedMem) : σ₁.SameState σ₂ := by
  obtain ⟨f₁, h₁, ht₁⟩ := hw₁
  obtain ⟨f₂, h₂, ht₂⟩ := hw₂
  have hend : σ₂.endOff = σ₁.endOff := hs₂.endOff_eq.trans hs₁.endOff_eq.symm
  have htiles := h₂.shape.tiles
  have hspot := h₂.spot
  rw [hend] at htiles hspot
  have hblocks : σ₁.blocks = σ₂.blocks := ht₁.eq_of_used ht₂ h₁.shape.tiles htiles hused
  rw [← hblocks] at h₂ ht₂ hspot
  have hf : f₁ = f₂ := ht₁.lowest_unique ht₂ h₁.shape.tiles h₁.spot hspot
  have hlast := h₂.shape.last
  rw [hend] at hlast
  constructor
  · constructor
    · exact hblocks.symm
    · intro b hb
      exact h₁.shape.off_eq h₂.shape hb
    · rw [hlast.1, hlast.2, h₁.shape.last.1, h₁.shape.last.2]
      exact ⟨rfl, rfl⟩
    · rw [h₂.lfree, h₁.lfree, hf, hs₁.ptr_eq, hs₂.ptr_eq]
    · exact hmem
  · apply hr₂.endPrev_eq hr₁
    unfold Heap.lastOff
    rw [hblocks]

end Free

/-! ## Two calls -/

/-- `free(a); free(b);` for the payloads of two blocks. -/
def Heap.freeBoth (σ : Heap) (a b : Block) : Except Halt Heap := do
  let σ₁ ← free (σ.payloadAt a) σ
  free (σ.payloadAt b) σ₁

section Commute

variable {σ : Heap} {a b : Block}

/-- What both orders have in common. -/
theorem Heap.WellFormed.exists_freeBoth (hw : σ.WellFormed) (hsem : 0 < σ.heapSem)
    (ha : a ∈ σ.blocks) (hb : b ∈ σ.blocks) (haused : a.used = true) (hbused : b.used = true)
    (hne : a ≠ b) :
    ∃ σ', σ.freeBoth a b = .ok σ' ∧ σ'.WellFormed ∧ SamePlace σ σ' ∧ σ.Relinks σ' ∧
      (∀ u : Block, u.used = true → (u ∈ σ'.blocks ↔ u ∈ σ.blocks ∧ u ≠ a ∧ u ≠ b)) ∧
      σ'.usedMem = σ.usedMem - (BitVec.ofNat 32 a.stop - BitVec.ofNat 32 a.start) -
        (BitVec.ofNat 32 b.stop - BitVec.ofNat 32 b.start) := by
  obtain ⟨σ₁, hr₁, h₁⟩ := hw.exists_freed hsem ha haused
  have hb₁ : b ∈ σ₁.blocks := (h₁.used b hbused).mpr ⟨hb, hne.symm⟩
  obtain ⟨σ₂, hr₂, h₂⟩ := h₁.wellFormed.exists_freed (h₁.sem ▸ hsem) hb₁ hbused
  have hpayload : σ₁.payloadAt b = σ.payloadAt b := h₁.place.ptr_eq _
  rw [hpayload] at hr₂
  refine ⟨σ₂, ?_, h₂.wellFormed, h₁.place.trans h₂.place, h₁.relinks.trans h₂.relinks, ?_, ?_⟩
  · exact bind_eq_ok_iff.mpr ⟨σ₁, hr₁, hr₂⟩
  · intro u hu
    rw [h₂.used u hu, h₁.used u hu, and_assoc]
  · rw [h₂.usedMem, h₁.usedMem]

/-- Two used blocks of a well-formed heap may be given back in either order. -/
theorem free_comm (hw : σ.WellFormed) (ha : a ∈ σ.blocks) (hb : b ∈ σ.blocks)
    (haused : a.used = true) (hbused : b.used = true) (hne : a ≠ b) :
    (σ.heapSem = 0 ∧ σ.freeBoth a b = .error .blocks ∧ σ.freeBoth b a = .error .blocks) ∨
      ∃ σ₁ σ₂, σ.freeBoth a b = .ok σ₁ ∧ σ.freeBoth b a = .ok σ₂ ∧ σ₁.SameState σ₂ := by
  by_cases hsem : σ.heapSem = 0
  · have htake : takeHeapSem σ = .error .blocks := if_neg (by rw [hsem]; decide)
    have hfree : ∀ p, free p σ = .error .blocks := by
      intro p
      unfold free
      rw [htake]
      rfl
    refine Or.inl ⟨hsem, ?_, ?_⟩
    · unfold Heap.freeBoth
      rw [hfree]
      rfl
    · unfold Heap.freeBoth
      rw [hfree]
      rfl
  · right
    have hpos : 0 < σ.heapSem := (BitVec.pos_iff_ne_zero _).mpr hsem
    obtain ⟨σ₁, hr₁, hw₁, hs₁, hl₁, hu₁, hm₁⟩ :=
      hw.exists_freeBoth hpos ha hb haused hbused hne
    obtain ⟨σ₂, hr₂, hw₂, hs₂, hl₂, hu₂, hm₂⟩ :=
      hw.exists_freeBoth hpos hb ha hbused haused hne.symm
    refine ⟨σ₁, σ₂, hr₁, hr₂, hw₁.sameState hw₂ hs₁ hs₂ hl₁ hl₂ ?_ ?_⟩
    · intro u hu
      rw [hu₁ u hu, hu₂ u hu, and_comm (a := u ≠ a)]
    · rw [hm₁, hm₂, BitVec.sub_sub, BitVec.sub_sub, BitVec.add_comm]

end Commute

/-- Two neighbours are given back, and the rest of the heap is free. -/
theorem free_comm_small :
    ∃ s σ₁ σ₂, smallSys.bind (fun s => Runs.runChecked HeapSys.step
        (fun s e => decide (s.Tidies e)) s [.malloc 16, .malloc 16]) = some s ∧
      s.heap.freeBoth ⟨0, 32, true⟩ ⟨32, 64, true⟩ = .ok σ₁ ∧
      s.heap.freeBoth ⟨32, 64, true⟩ ⟨0, 32, true⟩ = .ok σ₂ ∧ σ₁.SameState σ₂ := by
  obtain ⟨s, hs, hblocks⟩ := Runs.exists_of_any (show (smallSys.bind fun s =>
      Runs.runChecked HeapSys.step (fun s e => decide (s.Tidies e)) s
        [.malloc 16, .malloc 16]).any
      (fun s => decide (s.heap.heapSem ≠ 0 ∧ s.heap.blocks =
        [⟨0, 32, true⟩, ⟨32, 64, true⟩, ⟨64, 240, false⟩])) = true by decide)
  obtain ⟨hsem, hblocks⟩ := of_decide_eq_true hblocks
  have hw : s.heap.WellFormed := (HeapSys.holds_of_reach (HeapSys.reach_small hs)).1
  rcases free_comm hw (a := ⟨0, 32, true⟩) (b := ⟨32, 64, true⟩) (by simp [hblocks])
    (by simp [hblocks]) rfl rfl (by decide) with ⟨hzero, -⟩ | ⟨σ₁, σ₂, hboth⟩
  · exact absurd hzero hsem
  · exact ⟨s, σ₁, σ₂, hs, hboth⟩

end LuojiOs
