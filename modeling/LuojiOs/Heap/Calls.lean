import LuojiOs.Heap.Allocator
import LuojiOs.Support.Masks

/-!
# What a heap call that returns has done

One lemma for each function of the heap: the path it took, with the tests that led there.
-/

namespace LuojiOs

theorem bind_eq_ok_iff {α β : Type} {x : Except Halt α} {f : α → Except Halt β} {b : β} :
    x >>= f = .ok b ↔ ∃ a, x = .ok a ∧ f a = .ok b := by
  cases x with
  | error e => simp [bind, Except.bind]
  | ok a => simp [bind, Except.bind]

theorem rtAssert_eq_ok_iff {p : Prop} [Decidable p] {u : Unit} : rtAssert p = .ok u ↔ p := by
  unfold rtAssert
  split <;> simp_all

/-- The heap with the lock taken. -/
def Heap.locked (σ : Heap) : Heap := { σ with heapSem := σ.heapSem - 1 }

theorem takeHeapSem_eq_ok_iff {σ σ' : Heap} :
    takeHeapSem σ = .ok σ' ↔ 0 < σ.heapSem ∧ σ' = σ.locked := by
  unfold takeHeapSem
  split
  · next hpos =>
    constructor
    · intro h
      exact ⟨hpos, (Except.ok.inj h).symm⟩
    · rintro ⟨-, rfl⟩
      rfl
  · next hpos =>
    constructor
    · intro h
      cases h
    · rintro ⟨h, -⟩
      exact absurd h hpos

/-! ## Aligned sizes -/

theorem toNat_and_not_seven (x : BitVec 32) :
    (x &&& ~~~(8 - 1 : BitVec 32)).toNat = x.toNat / 8 * 8 :=
  Masks.toNat_and_not_mask (k := 3) x rfl

theorem toNat_rtAlign (size : BitVec 32) :
    (rtAlign size).toNat = (size.toNat + 7) % 2 ^ 32 / 8 * 8 := by
  unfold rtAlign
  rw [toNat_and_not_seven]
  have hsum : (size + 8 - 1).toNat = (size.toNat + 7) % 2 ^ 32 := by
    have h8 : (8 : BitVec 32).toNat = 8 := rfl
    have h1 : (1 : BitVec 32).toNat = 1 := rfl
    rw [BitVec.toNat_sub, BitVec.toNat_add, h8, h1]
    omega
  rw [hsum]

theorem toNat_rtAlignDown (size : BitVec 32) : (rtAlignDown size).toNat = size.toNat / 8 * 8 :=
  toNat_and_not_seven size

theorem rtAlign_rtAlign (size : BitVec 32) : rtAlign (rtAlign size) = rtAlign size := by
  apply BitVec.eq_of_toNat_eq
  rw [toNat_rtAlign, toNat_rtAlign]
  omega

/-! ## Paths -/

variable {σ σ' : Heap} {r : BitVec 32 × Heap} {size newsize rmem : BitVec 32}

theorem plugHoles_cases (h : plugHoles rmem σ = .ok σ') :
    σ.heapPtr ≤ rmem ∧ rmem < σ.heapEnd ∧ (σ.hdr rmem).used = 0 ∧
      σ' = plugBackward rmem (plugForward rmem σ) := by
  unfold plugHoles at h
  simp only [bind_eq_ok_iff, rtAssert_eq_ok_iff] at h
  obtain ⟨-, hlo, -, hhi, -, hused, hr⟩ := h
  exact ⟨hlo, hhi, hused, (Except.ok.inj hr).symm⟩

theorem mallocAligned_cases (h : mallocAligned size σ = .ok r) :
    (findFree size σ maxRounds (σ.lfree - σ.heapPtr) = .ok none ∧ r = (0, releaseHeapSem σ)) ∨
      ∃ ptr σ₁, findFree size σ maxRounds (σ.lfree - σ.heapPtr) = .ok (some ptr) ∧
        moveLfree (σ.heapPtr + ptr) (takeBlock ptr size σ) = .ok σ₁ ∧
        r = (σ.heapPtr + ptr + SIZEOF_STRUCT_MEM, releaseHeapSem σ₁) := by
  unfold mallocAligned at h
  rw [bind_eq_ok_iff] at h
  obtain ⟨found, hfound, h⟩ := h
  cases found with
  | none => exact Or.inl ⟨hfound, (Except.ok.inj h).symm⟩
  | some ptr =>
      simp only [bind_eq_ok_iff, rtAssert_eq_ok_iff] at h
      obtain ⟨σ₁, hmove, -, -, -, -, -, -, hr⟩ := h
      exact Or.inr ⟨ptr, σ₁, hfound, hmove, (Except.ok.inj hr).symm⟩

/-- The size `malloc` looks for. -/
def searchSize (size : BitVec 32) : BitVec 32 :=
  if rtAlign size < MIN_SIZE_ALIGNED then MIN_SIZE_ALIGNED else rtAlign size

theorem malloc_cases (h : malloc size σ = .ok r) :
    0 < σ.heapSem ∧
      (((size = 0 ∨ σ.memSizeAligned < rtAlign size) ∧ r = (0, σ.locked)) ∨
        (size ≠ 0 ∧ rtAlign size ≤ σ.memSizeAligned ∧
          mallocAligned (searchSize size) σ.locked = .ok r)) := by
  unfold malloc at h
  rw [bind_eq_ok_iff] at h
  obtain ⟨σ₁, htake, h⟩ := h
  obtain ⟨hpos, rfl⟩ := takeHeapSem_eq_ok_iff.mp htake
  refine ⟨hpos, ?_⟩
  split at h
  · next hzero => exact Or.inl ⟨Or.inl hzero, (Except.ok.inj h).symm⟩
  · next hzero =>
    dsimp only at h
    split at h
    · next hlarge => exact Or.inl ⟨Or.inr hlarge, (Except.ok.inj h).symm⟩
    · next hlarge => exact Or.inr ⟨hzero, BitVec.not_lt.mp hlarge, h⟩

theorem free_cases (h : free rmem σ = .ok σ') :
    0 < σ.heapSem ∧
      ((rmem = 0 ∧ σ' = σ.locked) ∨
        (rmem ≠ 0 ∧ σ.heapPtr ≤ rmem ∧ rmem < σ.heapEnd ∧
          ∃ σ₁, plugHoles (rmem - SIZEOF_STRUCT_MEM)
              (releaseBlock (rmem - SIZEOF_STRUCT_MEM) σ.locked) = .ok σ₁ ∧
            σ' = releaseHeapSem σ₁)) := by
  unfold free at h
  rw [bind_eq_ok_iff] at h
  obtain ⟨σ₁, htake, h⟩ := h
  obtain ⟨hpos, rfl⟩ := takeHeapSem_eq_ok_iff.mp htake
  refine ⟨hpos, ?_⟩
  split at h
  · next hzero => exact Or.inl ⟨hzero, (Except.ok.inj h).symm⟩
  · next hzero =>
    simp only [bind_eq_ok_iff, rtAssert_eq_ok_iff] at h
    obtain ⟨-, -, -, ⟨hlo, hhi⟩, h⟩ := h
    split at h
    · next hout =>
      rcases hout with hout | hout
      · exact absurd hlo (BitVec.not_le.mpr hout)
      · exact absurd hhi (BitVec.not_lt.mpr hout)
    · simp only [bind_eq_ok_iff, rtAssert_eq_ok_iff] at h
      obtain ⟨-, -, -, -, σ₂, hplug, hr⟩ := h
      exact Or.inr ⟨hzero, hlo, hhi, σ₂, hplug, (Except.ok.inj hr).symm⟩

theorem calloc_cases {count : BitVec 32} (h : calloc count size σ = .ok r) :
    ∃ p σ₁, malloc (count * size) σ = .ok (p, σ₁) ∧
      ((p = 0 ∧ r = (0, σ₁)) ∨
        (p ≠ 0 ∧ r =
          (p, { σ₁ with bytes := Bytes.fill σ₁.bytes p.toNat 0 (count * size).toNat }))) := by
  unfold calloc at h
  rw [bind_eq_ok_iff] at h
  obtain ⟨⟨p, σ₁⟩, hmalloc, h⟩ := h
  refine ⟨p, σ₁, hmalloc, ?_⟩
  dsimp only at h
  split at h
  · next hp => exact Or.inr ⟨hp, (Except.ok.inj h).symm⟩
  · next hp =>
    obtain rfl := not_not.mp hp
    exact Or.inl ⟨rfl, (Except.ok.inj h).symm⟩

theorem reallocMove_cases (h : reallocMove rmem size newsize σ = .ok r) :
    ∃ p σ₁, malloc newsize σ = .ok (p, σ₁) ∧
      ((p = 0 ∧ r = (0, σ₁)) ∨
        (p ≠ 0 ∧ ∃ σ₂,
          free rmem { σ₁ with
            bytes := Bytes.copy σ₁.bytes p.toNat rmem.toNat
              (if size < newsize then size else newsize).toNat } = .ok σ₂ ∧
          r = (p, σ₂))) := by
  unfold reallocMove at h
  rw [bind_eq_ok_iff] at h
  obtain ⟨⟨p, σ₁⟩, hmalloc, h⟩ := h
  refine ⟨p, σ₁, hmalloc, ?_⟩
  dsimp only at h
  split at h
  · next hp =>
    rw [bind_eq_ok_iff] at h
    obtain ⟨σ₂, hfree, hr⟩ := h
    exact Or.inr ⟨hp, σ₂, hfree, (Except.ok.inj hr).symm⟩
  · next hp =>
    obtain rfl := not_not.mp hp
    exact Or.inl ⟨rfl, (Except.ok.inj h).symm⟩

/-- The payload size of the block whose payload is at `rmem`. -/
def Heap.payload (rmem : BitVec 32) (σ : Heap) : BitVec 32 :=
  (σ.hdr (rmem - SIZEOF_STRUCT_MEM)).next - (rmem - SIZEOF_STRUCT_MEM - σ.heapPtr) -
    SIZEOF_STRUCT_MEM

/-- The heap in which `realloc` has cut the block of `rmem` down to `newsize` bytes. -/
def Heap.cut (rmem newsize : BitVec 32) (σ : Heap) : Heap :=
  splitBlock (rmem - SIZEOF_STRUCT_MEM - σ.heapPtr) newsize false
    (σ.countFreed (σ.payload rmem - newsize))

/-- The block that is cut off. -/
def Heap.rest (rmem newsize : BitVec 32) (σ : Heap) : BitVec 32 :=
  σ.heapPtr + (rmem - SIZEOF_STRUCT_MEM - σ.heapPtr + SIZEOF_STRUCT_MEM + newsize)

/-- The paths of `realloc`, for the aligned size. -/
inductive ReallocPath (rmem newsize : BitVec 32) (σ : Heap) : BitVec 32 × Heap → Prop
  | large (h : σ.memSizeAligned < newsize) : ReallocPath rmem newsize σ (0, σ)
  | zero {σ' : Heap} (h : newsize = 0) (hfree : free rmem σ = .ok σ') :
      ReallocPath rmem newsize σ (0, σ')
  | null {r : BitVec 32 × Heap} (hfit : newsize ≤ σ.memSizeAligned) (h : newsize ≠ 0)
      (hnull : rmem = 0) (hmalloc : malloc newsize σ = .ok r) : ReallocPath rmem newsize σ r
  | keep (hfit : newsize ≤ σ.memSizeAligned) (h : newsize ≠ 0) (hnull : rmem ≠ 0)
      (hpos : 0 < σ.heapSem)
      (hsame : rmem < σ.heapPtr ∨ σ.heapEnd ≤ rmem ∨ σ.payload rmem = newsize) :
      ReallocPath rmem newsize σ (rmem, releaseHeapSem σ.locked)
  | shrink {σ' : Heap} (hfit : newsize ≤ σ.memSizeAligned) (h : newsize ≠ 0)
      (hnull : rmem ≠ 0) (hpos : 0 < σ.heapSem) (hlo : σ.heapPtr ≤ rmem)
      (hhi : rmem < σ.heapEnd)
      (hroom : newsize + SIZEOF_STRUCT_MEM + MIN_SIZE < σ.payload rmem)
      (hplug : plugHoles (σ.rest rmem newsize) (σ.locked.cut rmem newsize) = .ok σ') :
      ReallocPath rmem newsize σ (rmem, releaseHeapSem σ')
  | move {r : BitVec 32 × Heap} (hfit : newsize ≤ σ.memSizeAligned) (h : newsize ≠ 0)
      (hnull : rmem ≠ 0) (hpos : 0 < σ.heapSem) (hlo : σ.heapPtr ≤ rmem)
      (hhi : rmem < σ.heapEnd) (hne : σ.payload rmem ≠ newsize)
      (hmove : reallocMove rmem (σ.payload rmem) newsize (releaseHeapSem σ.locked) = .ok r) :
      ReallocPath rmem newsize σ r

theorem realloc_cases (h : realloc rmem newsize σ = .ok r) :
    ReallocPath rmem (rtAlign newsize) σ r := by
  unfold realloc at h
  dsimp only at h
  split at h
  · next hlarge =>
    obtain rfl := Except.ok.inj h
    exact .large hlarge
  · next hlarge =>
    have hfit := BitVec.not_lt.mp hlarge
    split at h
    · next hzero =>
      rw [bind_eq_ok_iff] at h
      obtain ⟨σ', hfree, hr⟩ := h
      obtain rfl := Except.ok.inj hr
      exact .zero hzero hfree
    · next hzero =>
      split at h
      · next hnull => exact .null hfit hzero hnull h
      · next hnull =>
        rw [bind_eq_ok_iff] at h
        obtain ⟨σ₁, htake, h⟩ := h
        obtain ⟨hpos, rfl⟩ := takeHeapSem_eq_ok_iff.mp htake
        split at h
        · next hout =>
          obtain rfl := Except.ok.inj h
          rcases hout with hout | hout
          · exact .keep hfit hzero hnull hpos (Or.inl hout)
          · exact .keep hfit hzero hnull hpos (Or.inr (Or.inl hout))
        · next hout =>
          have hlo := BitVec.not_lt.mp fun hlt => hout (Or.inl hlt)
          have hhi := BitVec.not_le.mp fun hle => hout (Or.inr hle)
          split at h
          · next hsame =>
            obtain rfl := Except.ok.inj h
            exact .keep hfit hzero hnull hpos (Or.inr (Or.inr hsame))
          · next hsame =>
            split at h
            · next hroom =>
              rw [bind_eq_ok_iff] at h
              obtain ⟨σ', hplug, hr⟩ := h
              obtain rfl := Except.ok.inj hr
              exact .shrink hfit hzero hnull hpos hlo hhi hroom hplug
            · exact .move hfit hzero hnull hpos hlo hhi hsame h

/-! ## What the pieces of a call leave alone -/

/-- The two heaps differ in the memory, in `lfree` and in the statistics only. -/
structure SameStatics (σ σ' : Heap) : Prop where
  heapPtr : σ'.heapPtr = σ.heapPtr
  heapEnd : σ'.heapEnd = σ.heapEnd
  memSizeAligned : σ'.memSizeAligned = σ.memSizeAligned
  heapSem : σ'.heapSem = σ.heapSem

section SameStatics

variable {σ σ' σ₁ σ₂ : Heap} {size mem ptr : BitVec 32}

theorem SameStatics.refl (σ : Heap) : SameStatics σ σ := ⟨rfl, rfl, rfl, rfl⟩

theorem SameStatics.trans (h : SameStatics σ σ₁) (h' : SameStatics σ₁ σ₂) :
    SameStatics σ σ₂ where
  heapPtr := h'.heapPtr.trans h.heapPtr
  heapEnd := h'.heapEnd.trans h.heapEnd
  memSizeAligned := h'.memSizeAligned.trans h.memSizeAligned
  heapSem := h'.heapSem.trans h.heapSem

theorem SameStatics.ite {p : Prop} [Decidable p] (h₁ : SameStatics σ σ₁)
    (h₂ : SameStatics σ σ₂) : SameStatics σ (if p then σ₁ else σ₂) := by
  split
  · exact h₁
  · exact h₂

theorem sameStatics_setMagic (v : BitVec 16) : SameStatics σ (σ.setMagic mem v) :=
  ⟨rfl, rfl, rfl, rfl⟩

theorem sameStatics_setUsed (v : BitVec 16) : SameStatics σ (σ.setUsed mem v) :=
  ⟨rfl, rfl, rfl, rfl⟩

theorem sameStatics_setNext (v : BitVec 32) : SameStatics σ (σ.setNext mem v) :=
  ⟨rfl, rfl, rfl, rfl⟩

theorem sameStatics_setPrev (v : BitVec 32) : SameStatics σ (σ.setPrev mem v) :=
  ⟨rfl, rfl, rfl, rfl⟩

theorem sameStatics_setLfree : SameStatics σ (σ.setLfree mem) := ⟨rfl, rfl, rfl, rfl⟩

theorem sameStatics_countUsed (n : BitVec 32) : SameStatics σ (σ.countUsed n) :=
  ⟨rfl, rfl, rfl, rfl⟩

theorem sameStatics_countFreed (n : BitVec 32) : SameStatics σ (σ.countFreed n) :=
  ⟨rfl, rfl, rfl, rfl⟩

theorem sameStatics_plugForward : SameStatics σ (plugForward mem σ) := by
  unfold plugForward
  apply SameStatics.ite
  · have hfree : SameStatics σ
        (if σ.lfree = σ.heapPtr + (σ.hdr mem).next then σ.setLfree mem else σ) :=
      .ite sameStatics_setLfree (.refl σ)
    exact (hfree.trans (sameStatics_setNext _)).trans (sameStatics_setPrev _)
  · exact .refl σ

theorem sameStatics_plugBackward : SameStatics σ (plugBackward mem σ) := by
  unfold plugBackward
  apply SameStatics.ite
  · have hfree : SameStatics σ
        (if σ.lfree = mem then σ.setLfree (σ.heapPtr + (σ.hdr mem).prev) else σ) :=
      .ite sameStatics_setLfree (.refl σ)
    exact (hfree.trans (sameStatics_setNext _)).trans (sameStatics_setPrev _)
  · exact .refl σ

theorem sameStatics_plugHoles (h : plugHoles mem σ = .ok σ') : SameStatics σ σ' := by
  obtain ⟨-, -, -, rfl⟩ := plugHoles_cases h
  exact sameStatics_plugForward.trans sameStatics_plugBackward

/-- The writes of `splitBlock` before the test of the block after the new one. -/
def splitHeaders (ptr size : BitVec 32) (take : Bool) (σ : Heap) : Heap :=
  let mem := σ.heapPtr + ptr
  let ptr2 := ptr + SIZEOF_STRUCT_MEM + size
  let mem2 := σ.heapPtr + ptr2
  let σ := (σ.setMagic mem2 HEAP_MAGIC).setUsed mem2 0
  let σ := σ.setNext mem2 (σ.hdr mem).next
  let σ := σ.setPrev mem2 ptr
  let σ := σ.setNext mem ptr2
  if take then σ.setUsed mem 1 else σ

theorem splitBlock_eq (ptr size : BitVec 32) (take : Bool) (σ : Heap) :
    splitBlock ptr size take σ =
      let ptr2 := ptr + SIZEOF_STRUCT_MEM + size
      let mem2 := σ.heapPtr + ptr2
      let σ := splitHeaders ptr size take σ
      if (σ.hdr mem2).next ≠ σ.memSizeAligned + SIZEOF_STRUCT_MEM then
        σ.setPrev (σ.heapPtr + (σ.hdr mem2).next) ptr2
      else σ :=
  rfl

theorem sameStatics_splitHeaders (take : Bool) : SameStatics σ (splitHeaders ptr size take σ) := by
  cases take <;> exact ⟨rfl, rfl, rfl, rfl⟩

theorem sameStatics_splitBlock (take : Bool) : SameStatics σ (splitBlock ptr size take σ) := by
  rw [splitBlock_eq]
  apply (sameStatics_splitHeaders take).trans
  exact .ite (sameStatics_setPrev _) (.refl _)

theorem sameStatics_takeBlock : SameStatics σ (takeBlock ptr size σ) := by
  unfold takeBlock
  refine SameStatics.trans (.ite ?_ ?_) (sameStatics_setMagic _)
  · exact (sameStatics_splitBlock true).trans (sameStatics_countUsed _)
  · exact (sameStatics_setUsed 1).trans (sameStatics_countUsed _)

theorem moveLfree_cases (h : moveLfree mem σ = .ok σ') :
    (mem ≠ σ.lfree ∧ σ' = σ) ∨
      ∃ f, mem = σ.lfree ∧ nextFree σ maxRounds σ.lfree = .ok f ∧ σ' = σ.setLfree f := by
  unfold moveLfree at h
  split at h
  · next heq =>
    cases hnext : nextFree σ maxRounds σ.lfree with
    | error e =>
        rw [hnext] at h
        cases h
    | ok f =>
        rw [hnext] at h
        exact Or.inr ⟨f, heq, rfl, (Except.ok.inj h).symm⟩
  · next hne => exact Or.inl ⟨hne, (Except.ok.inj h).symm⟩

theorem sameStatics_moveLfree (h : moveLfree mem σ = .ok σ') : SameStatics σ σ' := by
  rcases moveLfree_cases h with ⟨-, rfl⟩ | ⟨f, -, -, rfl⟩
  · exact .refl σ'
  · exact sameStatics_setLfree

theorem sameStatics_releaseBlock : SameStatics σ (releaseBlock mem σ) := by
  unfold releaseBlock
  refine SameStatics.trans ?_ (sameStatics_countFreed _)
  have hmarked : SameStatics σ ((σ.setUsed mem 0).setMagic mem HEAP_MAGIC) := ⟨rfl, rfl, rfl, rfl⟩
  exact .ite (hmarked.trans sameStatics_setLfree) hmarked

end SameStatics

end LuojiOs
