import LuojiOs.Heap.Calls

/-!
# The heap lock

Every call takes `heap_sem` and is to give it back.  `malloc` keeps it when it is asked for
no bytes or for more than the heap has, and `free` keeps it for a null pointer.
-/

namespace LuojiOs

section

variable {σ σ' : Heap} {r : BitVec 32 × Heap} {size newsize rmem : BitVec 32}

/-! ## The lock inside the calls -/

theorem heapSem_mallocAligned (h : mallocAligned size σ = .ok r) :
    r.2.heapSem = σ.heapSem + 1 := by
  rcases mallocAligned_cases h with ⟨-, rfl⟩ | ⟨ptr, σ₁, -, hmove, rfl⟩
  · rfl
  · have hsem := (sameStatics_takeBlock.trans (sameStatics_moveLfree hmove)).heapSem
    exact congrArg (· + 1) hsem

theorem heapSem_locked_add_one : σ.locked.heapSem + 1 = σ.heapSem :=
  BitVec.sub_add_cancel _ _

/-! ## The calls -/

/-- The call does not give the lock back: the state and the arguments. -/
def mallocLeaks (size : BitVec 32) (σ : Heap) : Prop :=
  0 < σ.heapSem ∧ (size = 0 ∨ σ.memSizeAligned < rtAlign size)

theorem malloc_balanced (hleak : ¬mallocLeaks size σ) (h : malloc size σ = .ok r) :
    r.2.heapSem = σ.heapSem := by
  obtain ⟨hpos, ⟨hsize, -⟩ | ⟨-, -, h⟩⟩ := malloc_cases h
  · exact absurd ⟨hpos, hsize⟩ hleak
  · rw [heapSem_mallocAligned h, heapSem_locked_add_one]

theorem free_balanced (hnull : rmem ≠ 0) (h : free rmem σ = .ok σ') :
    σ'.heapSem = σ.heapSem := by
  obtain ⟨-, ⟨hzero, -⟩ | ⟨-, -, -, σ₁, hplug, rfl⟩⟩ := free_cases h
  · exact absurd hzero hnull
  · have hsem : σ₁.heapSem = σ.locked.heapSem :=
      (sameStatics_releaseBlock.trans (sameStatics_plugHoles hplug)).heapSem
    change σ₁.heapSem + 1 = σ.heapSem
    rw [hsem, heapSem_locked_add_one]

/-- An aligned size that fits is no reason for `malloc` to keep the lock. -/
theorem not_mallocLeaks_of_aligned (hzero : rtAlign newsize ≠ 0)
    (hfit : rtAlign newsize ≤ σ.memSizeAligned) : ¬mallocLeaks (rtAlign newsize) σ := by
  rintro ⟨-, hz | hlarge⟩
  · exact hzero hz
  · rw [rtAlign_rtAlign] at hlarge
    exact absurd hfit (BitVec.not_le.mpr hlarge)

theorem reallocMove_balanced (hleak : ¬mallocLeaks newsize σ) (hnull : rmem ≠ 0)
    (h : reallocMove rmem size newsize σ = .ok r) : r.2.heapSem = σ.heapSem := by
  obtain ⟨p, σ₁, hmalloc, hr⟩ := reallocMove_cases h
  have hsem := malloc_balanced hleak hmalloc
  rcases hr with ⟨-, rfl⟩ | ⟨-, σ₂, hfree, rfl⟩
  · exact hsem
  · exact (free_balanced hnull hfree).trans hsem

theorem realloc_balanced (hleak : ¬(0 < σ.heapSem ∧ rtAlign newsize = 0 ∧ rmem = 0))
    (h : realloc rmem newsize σ = .ok r) : r.2.heapSem = σ.heapSem := by
  cases realloc_cases h with
  | large h => rfl
  | zero hz hfree =>
      apply free_balanced ?_ hfree
      intro hnull
      exact hleak ⟨(free_cases hfree).1, hz, hnull⟩
  | null hfit hz hnull hmalloc =>
      exact malloc_balanced (not_mallocLeaks_of_aligned hz hfit) hmalloc
  | keep hfit hz hnull hpos hsame => exact heapSem_locked_add_one
  | shrink hfit hz hnull hpos hlo hhi hroom hplug =>
      have hsem := ((sameStatics_splitBlock false).trans (sameStatics_plugHoles hplug)).heapSem
      exact (congrArg (· + 1) hsem).trans heapSem_locked_add_one
  | move hfit hz hnull hpos hlo hhi hne hmove =>
      have hfit' : rtAlign newsize ≤ (releaseHeapSem σ.locked).memSizeAligned := hfit
      have hsem := reallocMove_balanced (not_mallocLeaks_of_aligned hz hfit') hnull hmove
      exact hsem.trans heapSem_locked_add_one

theorem calloc_balanced {count : BitVec 32} (hleak : ¬mallocLeaks (count * size) σ)
    (h : calloc count size σ = .ok r) : r.2.heapSem = σ.heapSem := by
  obtain ⟨p, σ₁, hmalloc, hr⟩ := calloc_cases h
  have hsem := malloc_balanced hleak hmalloc
  rcases hr with ⟨-, rfl⟩ | ⟨-, rfl⟩
  · exact hsem
  · exact hsem

end

/-- The call returns with the lock taken. -/
def HeapCall.Leaks (σ : Heap) : HeapCall → Prop
  | .malloc size => mallocLeaks size σ
  | .calloc count size => mallocLeaks (count * size) σ
  | .realloc rmem newsize => 0 < σ.heapSem ∧ rtAlign newsize = 0 ∧ rmem = 0
  | .free rmem => 0 < σ.heapSem ∧ rmem = 0

/-- If the call returns, `heap_sem` has the value it had on entry. -/
def HeapCall.Balanced (c : HeapCall) (σ : Heap) : Prop :=
  ∀ r, c.exec σ = .ok r → r.2.heapSem = σ.heapSem

theorem malloc_of_leaks {size : BitVec 32} {σ : Heap} (h : mallocLeaks size σ) :
    malloc size σ = .ok (0, σ.locked) := by
  have htake : takeHeapSem σ = .ok σ.locked := takeHeapSem_eq_ok_iff.mpr ⟨h.1, rfl⟩
  have hbind : malloc size σ =
      if size = 0 then .ok (0, σ.locked)
      else if σ.memSizeAligned < rtAlign size then .ok (0, σ.locked)
      else mallocAligned (searchSize size) σ.locked := by
    unfold malloc
    rw [htake]
    rfl
  rw [hbind]
  rcases h.2 with hzero | hlarge
  · rw [if_pos hzero]
  · rw [if_pos hlarge, ite_self]

theorem free_null {σ : Heap} (h : 0 < σ.heapSem) : free 0 σ = .ok σ.locked := by
  have htake : takeHeapSem σ = .ok σ.locked := takeHeapSem_eq_ok_iff.mpr ⟨h, rfl⟩
  unfold free
  rw [htake]
  rfl

/-- A call that leaks returns a null pointer with the lock taken. -/
theorem HeapCall.exec_of_leaks {σ : Heap} {c : HeapCall} (h : c.Leaks σ) :
    c.exec σ = .ok (0, σ.locked) := by
  cases c with
  | malloc size => exact malloc_of_leaks h
  | calloc count size =>
      change LuojiOs.calloc count size σ = _
      unfold LuojiOs.calloc
      rw [malloc_of_leaks h]
      rfl
  | realloc rmem newsize =>
      obtain ⟨hpos, hzero, rfl⟩ := h
      have hnot : ¬σ.memSizeAligned < 0 := BitVec.not_lt_zero
      change LuojiOs.realloc 0 newsize σ = _
      unfold LuojiOs.realloc
      dsimp only
      rw [hzero, if_neg hnot, if_pos rfl, free_null hpos]
      rfl
  | free rmem =>
      obtain ⟨hpos, rfl⟩ := h
      change (LuojiOs.free 0 σ).map _ = _
      rw [free_null hpos]
      rfl

theorem locked_heapSem_ne (σ : Heap) : σ.locked.heapSem ≠ σ.heapSem := by
  intro h
  have hsum : σ.heapSem + 1 = σ.heapSem := by
    have := heapSem_locked_add_one (σ := σ)
    rwa [h] at this
  have htoNat := congrArg BitVec.toNat hsum
  have := σ.heapSem.isLt
  rw [BitVec.toNat_add] at htoNat
  have h1 : (1 : BitVec 16).toNat = 1 := rfl
  rw [h1] at htoNat
  omega

theorem HeapCall.balanced_iff (c : HeapCall) (σ : Heap) : c.Balanced σ ↔ ¬c.Leaks σ := by
  constructor
  · intro hbal hleak
    exact locked_heapSem_ne σ (hbal _ (exec_of_leaks hleak))
  · intro hleak r hr
    cases c with
    | malloc size => exact malloc_balanced hleak hr
    | calloc count size => exact calloc_balanced hleak hr
    | realloc rmem newsize => exact realloc_balanced hleak hr
    | free rmem =>
        cases hfree : LuojiOs.free rmem σ with
        | error e =>
            rw [exec, hfree] at hr
            cases hr
        | ok σ' =>
            rw [exec, hfree] at hr
            obtain rfl := Except.ok.inj hr
            apply free_balanced ?_ hfree
            intro hnull
            exact hleak ⟨(free_cases hfree).1, hnull⟩

/-! ## Waiting for the lock -/

section Waiting

variable {α β : Type} {σ : Heap} {size newsize rmem mem : BitVec 32}

theorem bind_ne_blocks {x : Except Halt α} {f : α → Except Halt β} (hx : x ≠ .error .blocks)
    (hf : ∀ a, x = .ok a → f a ≠ .error .blocks) : x >>= f ≠ .error .blocks := by
  cases x with
  | error e => exact fun h => hx (congrArg Except.error (Except.error.inj h))
  | ok a => exact hf a rfl

theorem ok_ne_blocks (a : α) : (Except.ok a : Except Halt α) ≠ .error .blocks := nofun

theorem rtAssert_ne_blocks (p : Prop) [Decidable p] : rtAssert p ≠ .error .blocks := by
  unfold rtAssert
  split <;> exact nofun

theorem takeHeapSem_ne_blocks (h : 0 < σ.heapSem) : takeHeapSem σ ≠ .error .blocks := by
  rw [takeHeapSem_eq_ok_iff.mpr ⟨h, rfl⟩]
  exact ok_ne_blocks _

theorem findFree_ne_blocks (fuel : ℕ) (ptr : BitVec 32) :
    findFree size σ fuel ptr ≠ .error .blocks := by
  induction fuel generalizing ptr with
  | zero => exact nofun
  | succ fuel ih =>
      unfold findFree
      split
      · dsimp only
        split
        · exact nofun
        · exact ih _
      · exact nofun

theorem nextFree_ne_blocks (fuel : ℕ) (f : BitVec 32) : nextFree σ fuel f ≠ .error .blocks := by
  induction fuel generalizing f with
  | zero => exact nofun
  | succ fuel ih =>
      unfold nextFree
      split
      · exact ih _
      · exact nofun

theorem moveLfree_ne_blocks : moveLfree mem σ ≠ .error .blocks := by
  unfold moveLfree
  split
  · have hnext := nextFree_ne_blocks (σ := σ) maxRounds σ.lfree
    cases hf : nextFree σ maxRounds σ.lfree with
    | error e =>
        rw [hf] at hnext
        exact fun h => hnext (congrArg Except.error (Except.error.inj h))
    | ok f => exact nofun
  · exact nofun

theorem plugHoles_ne_blocks : plugHoles mem σ ≠ .error .blocks := by
  unfold plugHoles
  apply bind_ne_blocks (rtAssert_ne_blocks _)
  intro _ _
  apply bind_ne_blocks (rtAssert_ne_blocks _)
  intro _ _
  apply bind_ne_blocks (rtAssert_ne_blocks _)
  intro _ _
  exact ok_ne_blocks _

theorem mallocAligned_ne_blocks : mallocAligned size σ ≠ .error .blocks := by
  unfold mallocAligned
  apply bind_ne_blocks (findFree_ne_blocks _ _)
  intro found _
  cases found with
  | none => exact ok_ne_blocks _
  | some ptr =>
      apply bind_ne_blocks moveLfree_ne_blocks
      intro _ _
      apply bind_ne_blocks (rtAssert_ne_blocks _)
      intro _ _
      apply bind_ne_blocks (rtAssert_ne_blocks _)
      intro _ _
      apply bind_ne_blocks (rtAssert_ne_blocks _)
      intro _ _
      exact ok_ne_blocks _

theorem malloc_ne_blocks (h : 0 < σ.heapSem) : malloc size σ ≠ .error .blocks := by
  unfold malloc
  apply bind_ne_blocks (takeHeapSem_ne_blocks h)
  intro _ _
  split
  · exact ok_ne_blocks _
  · dsimp only
    split
    · exact ok_ne_blocks _
    · exact mallocAligned_ne_blocks

theorem free_ne_blocks (h : 0 < σ.heapSem) : free rmem σ ≠ .error .blocks := by
  unfold free
  apply bind_ne_blocks (takeHeapSem_ne_blocks h)
  intro _ _
  split
  · exact ok_ne_blocks _
  · apply bind_ne_blocks (rtAssert_ne_blocks _)
    intro _ _
    apply bind_ne_blocks (rtAssert_ne_blocks _)
    intro _ _
    split
    · exact ok_ne_blocks _
    · apply bind_ne_blocks (rtAssert_ne_blocks _)
      intro _ _
      apply bind_ne_blocks (rtAssert_ne_blocks _)
      intro _ _
      apply bind_ne_blocks plugHoles_ne_blocks
      intro _ _
      exact ok_ne_blocks _

theorem reallocMove_ne_blocks (h : 0 < σ.heapSem) (hleak : ¬mallocLeaks newsize σ) :
    reallocMove rmem size newsize σ ≠ .error .blocks := by
  unfold reallocMove
  apply bind_ne_blocks (malloc_ne_blocks h)
  rintro ⟨p, σ₁⟩ hmalloc
  have hsem : σ₁.heapSem = σ.heapSem := malloc_balanced hleak hmalloc
  dsimp only
  split
  · apply bind_ne_blocks
    · apply free_ne_blocks
      change 0 < σ₁.heapSem
      rw [hsem]
      exact h
    · intro _ _
      exact ok_ne_blocks _
  · exact ok_ne_blocks _

theorem realloc_ne_blocks (h : 0 < σ.heapSem) : realloc rmem newsize σ ≠ .error .blocks := by
  unfold realloc
  dsimp only
  split
  · exact ok_ne_blocks _
  · next hlarge =>
    split
    · apply bind_ne_blocks (free_ne_blocks h)
      intro _ _
      exact ok_ne_blocks _
    · next hzero =>
      split
      · exact malloc_ne_blocks h
      · apply bind_ne_blocks (takeHeapSem_ne_blocks h)
        intro σ₁ htake
        obtain ⟨-, rfl⟩ := takeHeapSem_eq_ok_iff.mp htake
        split
        · exact ok_ne_blocks _
        · split
          · exact ok_ne_blocks _
          · split
            · apply bind_ne_blocks plugHoles_ne_blocks
              intro _ _
              exact ok_ne_blocks _
            · have hpos : 0 < (releaseHeapSem σ.locked).heapSem := by
                change 0 < σ.locked.heapSem + 1
                rw [heapSem_locked_add_one]
                exact h
              exact reallocMove_ne_blocks hpos
                (not_mallocLeaks_of_aligned hzero (BitVec.not_lt.mp hlarge))

theorem HeapCall.exec_ne_blocks (h : 0 < σ.heapSem) (c : HeapCall) :
    c.exec σ ≠ .error .blocks := by
  cases c with
  | malloc size => exact malloc_ne_blocks h
  | calloc count size =>
      apply bind_ne_blocks (malloc_ne_blocks h)
      rintro ⟨p, σ₁⟩ _
      dsimp only
      split <;> exact ok_ne_blocks _
  | realloc rmem newsize => exact realloc_ne_blocks h
  | free rmem =>
      have hfree : LuojiOs.free rmem σ ≠ .error .blocks := free_ne_blocks h
      change (LuojiOs.free rmem σ).map _ ≠ _
      cases hf : LuojiOs.free rmem σ with
      | error e =>
          rw [hf] at hfree
          exact fun h => hfree (congrArg Except.error (Except.error.inj h))
      | ok σ' => exact nofun

end Waiting

/-! ## Sequences of calls -/

/-- The calls of one thread, one after the other. -/
def runCalls : Heap → List HeapCall → Except Halt Heap
  | σ, [] => .ok σ
  | σ, c :: cs => do
    let r ← c.exec σ
    runCalls r.2 cs

/-- No call of the sequence returns with the lock taken. -/
def NoLeaks : Heap → List HeapCall → Prop
  | _, [] => True
  | σ, c :: cs => ¬c.Leaks σ ∧ ∀ r, c.exec σ = .ok r → NoLeaks r.2 cs

theorem runCalls_ne_blocks {σ : Heap} {cs : List HeapCall} (h : 0 < σ.heapSem)
    (hcs : NoLeaks σ cs) : runCalls σ cs ≠ .error .blocks := by
  induction cs generalizing σ with
  | nil => exact ok_ne_blocks _
  | cons c cs ih =>
      apply bind_ne_blocks (c.exec_ne_blocks h)
      intro r hr
      apply ih ?_ (hcs.2 r hr)
      rw [(c.balanced_iff σ).mpr hcs.1 r hr]
      exact h

/-- A call is balanced exactly when it does not leak, and a sequence of calls without a
leak never waits for the lock. -/
theorem heapLock_balanced_iff (σ : Heap) (c : HeapCall) (cs : List HeapCall) :
    (c.Balanced σ ↔ ¬c.Leaks σ) ∧
      (σ.heapSem = 1 → NoLeaks σ cs → runCalls σ cs ≠ .error .blocks) := by
  refine ⟨c.balanced_iff σ, ?_⟩
  intro hsem hcs
  apply runCalls_ne_blocks ?_ hcs
  rw [hsem]
  decide

/-- A heap of 224 bytes. -/
def smallHeap : Option Heap := rtSystemHeapInit (fun _ => 0) 0x1000 0x1100

theorem smallHeap_eq :
    ∃ σ, smallHeap = some σ ∧ σ.heapSem = 1 ∧ σ.memSizeAligned = 224 := by
  obtain ⟨σ, hσ⟩ : ∃ σ, smallHeap = some σ := ⟨_, rfl⟩
  have hvalues : smallHeap.map (fun σ => (σ.heapSem, σ.memSizeAligned)) = some (1, 224) := by
    decide +kernel
  rw [hσ] at hvalues
  obtain ⟨hsem, hsize⟩ := Prod.mk.inj (Option.some.inj hvalues)
  exact ⟨σ, hσ, hsem, hsize⟩

/-- A block is taken and given back. -/
theorem heapLock_balanced_mallocFree :
    ∃ σ, smallHeap = some σ ∧ NoLeaks σ [.malloc 8, .free 0x1010] ∧
      (HeapCall.malloc 8).Balanced σ ∧
      runCalls σ [.malloc 8, .free 0x1010] ≠ .error .blocks := by
  obtain ⟨σ, hσ, hsem, hsize⟩ := smallHeap_eq
  have hfirst : ¬(HeapCall.malloc 8).Leaks σ := by
    rintro ⟨-, hzero | hlarge⟩
    · revert hzero
      decide
    · rw [hsize] at hlarge
      revert hlarge
      decide
  have hcs : NoLeaks σ [.malloc 8, .free 0x1010] := by
    refine ⟨hfirst, fun r _ => ⟨?_, fun _ _ => trivial⟩⟩
    rintro ⟨-, hnull⟩
    revert hnull
    decide
  obtain ⟨hbalanced, hruns⟩ := heapLock_balanced_iff σ (.malloc 8) [.malloc 8, .free 0x1010]
  exact ⟨σ, hσ, hcs, hbalanced.mpr hfirst, hruns hsem hcs⟩

/-- Three calls that return with the lock taken, and a call of `malloc` after the first
that waits for it. -/
theorem heapLock_unbalanced :
    ∃ σ, smallHeap = some σ ∧ ¬(HeapCall.malloc 0).Balanced σ ∧
      ¬(HeapCall.malloc 4096).Balanced σ ∧ ¬(HeapCall.free 0).Balanced σ ∧
      runCalls σ [.malloc 0, .malloc 8] = .error .blocks := by
  obtain ⟨σ, hσ, hsem, hsize⟩ := smallHeap_eq
  have hpos : 0 < σ.heapSem := by
    rw [hsem]
    decide
  have hlarge : mallocLeaks 4096 σ := by
    refine ⟨hpos, Or.inr ?_⟩
    rw [hsize]
    decide
  refine ⟨σ, hσ, ?_, ?_, ?_, ?_⟩
  · exact fun h => (HeapCall.balanced_iff _ σ).mp h ⟨hpos, Or.inl rfl⟩
  · exact fun h => (HeapCall.balanced_iff _ σ).mp h hlarge
  · exact fun h => (HeapCall.balanced_iff _ σ).mp h ⟨hpos, rfl⟩
  · have hfirst : (HeapCall.malloc 0).exec σ = .ok (0, σ.locked) :=
      malloc_of_leaks ⟨hpos, Or.inl rfl⟩
    have hzero : ¬0 < σ.locked.heapSem := by
      change ¬0 < σ.heapSem - 1
      rw [hsem]
      decide
    have htake : takeHeapSem σ.locked = .error .blocks := if_neg hzero
    have hsecond : (HeapCall.malloc 8).exec σ.locked = .error .blocks := by
      change LuojiOs.malloc 8 σ.locked = _
      unfold malloc
      rw [htake]
      rfl
    simp only [runCalls, hfirst]
    change (HeapCall.malloc 8).exec σ.locked >>= _ = _
    rw [hsecond]
    rfl

end LuojiOs
