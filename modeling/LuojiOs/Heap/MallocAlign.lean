import LuojiOs.Heap.Undo

/-!
# Aligned allocation

`malloc_align` asks `malloc` for `align` bytes more than the size and moves the pointer up
to the next multiple of `align`.  The pointer that `malloc` returned is kept in the word
before it: the request leaves room for that word because the pointer moves by at least four
bytes, and never by more than `align`.
-/

namespace LuojiOs

/-! ## The function -/

/-- `(n + 0x03) & ~0x03` -/
def alignWord (n : BitVec 32) : BitVec 32 := (n + 3) &&& ~~~3

/-- The pointer that is returned, for the pointer that `malloc` returned. -/
def alignPtr (ptr align : BitVec 32) : BitVec 32 :=
  if ptr &&& (align - 1) = 0 then ptr + align else (ptr + (align - 1)) &&& ~~~(align - 1)

def mallocAlign (size align : BitVec 32) (σ : Heap) : Except Halt (BitVec 32 × Heap) := do
  let align := alignWord align
  let alignSize := alignWord size + align
  let (ptr, σ) ← malloc alignSize σ
  if ptr ≠ 0 then
    let p := alignPtr ptr align
    return (p, { σ with bytes := Bytes.store32 σ.bytes (p - 4).toNat ptr })
  return (ptr, σ)

/-! ## The arithmetic -/

section Arithmetic

variable {k : ℕ} {n size align ptr : BitVec 32}

theorem toNat_alignWord (h : n.toNat + 3 < 2 ^ 32) :
    (alignWord n).toNat = (n.toNat + 3) / 4 * 4 := by
  have h3 : (3 : BitVec 32).toNat = 3 := rfl
  unfold alignWord
  rw [Masks.toNat_and_not_mask (k := 2) (n + 3) rfl, BitVec.toNat_add, h3, Nat.mod_eq_of_lt h]
  rfl

/-- An alignment of at least four bytes is a multiple of four. -/
theorem four_dvd (halign : align.toNat = 2 ^ k) (hfour : 4 ≤ align.toNat) : 4 ∣ align.toNat := by
  have hk : 2 ≤ k := by
    by_contra hlt
    have hle : 2 ^ k ≤ 2 ^ 1 := Nat.pow_le_pow_right (by omega) (by omega)
    omega
  rw [halign]
  exact Nat.pow_dvd_pow 2 hk

theorem alignWord_align (halign : align.toNat = 2 ^ k) (hfour : 4 ≤ align.toNat)
    (hle : align.toNat ≤ 2 ^ 31) : alignWord align = align := by
  have hdvd := four_dvd halign hfour
  apply BitVec.eq_of_toNat_eq
  rw [toNat_alignWord (by omega)]
  omega

theorem toNat_sub_one (h : 0 < n.toNat) : (n - 1).toNat = n.toNat - 1 := by
  have h1 : (1 : BitVec 32).toNat = 1 := rfl
  rw [BitVec.toNat_sub, h1]
  omega

/-- The pointer moves up to a multiple of `align`, by four bytes at least. -/
theorem alignPtr_spec (halign : align.toNat = 2 ^ k) (hfour : 4 ≤ align.toNat)
    (hptr : ptr.toNat % 8 = 0) (hroom : ptr.toNat + align.toNat < 2 ^ 32) :
    align.toNat ∣ (alignPtr ptr align).toNat ∧ ptr.toNat + 4 ≤ (alignPtr ptr align).toNat ∧
      (alignPtr ptr align).toNat ≤ ptr.toNat + align.toNat := by
  have hdvd := four_dvd halign hfour
  have hmask : (align - 1).toNat = 2 ^ k - 1 := by
    rw [toNat_sub_one (by omega), halign]
  have hmod : ptr &&& (align - 1) = 0 ↔ ptr.toNat % align.toNat = 0 := by
    have hzero : (0 : BitVec 32).toNat = 0 := rfl
    rw [← BitVec.toNat_inj, Masks.toNat_and_mask ptr hmask, hzero, halign]
  unfold alignPtr
  split
  · next heq =>
    rw [BitVec.toNat_add, Nat.mod_eq_of_lt hroom]
    have hpdvd := Nat.dvd_of_mod_eq_zero (hmod.mp heq)
    exact ⟨Nat.dvd_add hpdvd (Nat.dvd_refl _), by omega, Nat.le_refl _⟩
  · next hne =>
    have hsum : (ptr + (align - 1)).toNat = ptr.toNat + (align.toNat - 1) := by
      rw [BitVec.toNat_add, toNat_sub_one (by omega)]
      omega
    rw [Masks.toNat_and_not_mask _ hmask, hsum, ← halign]
    obtain ⟨hup, hle, hlt⟩ := Masks.round_up (n := ptr.toNat) (show 0 < align.toNat by omega)
    refine ⟨hup, ?_, by omega⟩
    -- the pointer is no multiple of `align`, and both it and the result are multiples of four
    have hstrict : ptr.toNat ≠ (ptr.toNat + (align.toNat - 1)) / align.toNat * align.toNat := by
      intro heq
      apply hne
      rw [hmod]
      rw [← heq] at hup
      exact Nat.mod_eq_zero_of_dvd hup
    have hup4 := Nat.dvd_trans hdvd hup
    omega

end Arithmetic

/-! ## The block -/

section Block

variable {σ σ' : Heap} {bs : List Block} {f k : ℕ} {size align p : BitVec 32}
  {r : BitVec 32 × Heap}

theorem mallocAlign_cases (h : mallocAlign size align σ = .ok r) :
    ∃ ptr σ₁, malloc (alignWord size + alignWord align) σ = .ok (ptr, σ₁) ∧
      ((ptr = 0 ∧ r = (0, σ₁)) ∨
        (ptr ≠ 0 ∧ r = (alignPtr ptr (alignWord align),
          { σ₁ with
            bytes := Bytes.store32 σ₁.bytes (alignPtr ptr (alignWord align) - 4).toNat ptr }))) := by
  unfold mallocAlign at h
  rw [bind_eq_ok_iff] at h
  obtain ⟨⟨ptr, σ₁⟩, hmalloc, h⟩ := h
  refine ⟨ptr, σ₁, hmalloc, ?_⟩
  dsimp only at h
  split at h
  · next hp => exact Or.inr ⟨hp, (Except.ok.inj h).symm⟩
  · next hp =>
    obtain rfl := not_not.mp hp
    exact Or.inl ⟨rfl, (Except.ok.inj h).symm⟩

/-- The pointer `p` is aligned and has `size` bytes in the payload of the used block `d`,
whose address stands in the word before it. -/
structure AlignedIn (size align p : BitVec 32) (σ : Heap) (d : Block) : Prop where
  used : d.used = true
  aligned : align.toNat ∣ p.toNat
  word : (σ.ptr (d.start + 16)).toNat + 4 ≤ p.toNat
  room : p.toNat + size.toNat ≤ σ.heapPtr.toNat + d.stop
  original : Bytes.load32 σ.bytes (p.toNat - 4) = σ.ptr (d.start + 16)

/-- In any heap, a pointer that `malloc_align` returns is aligned, and what it stands for
lies in the block that its `malloc` has returned. -/
theorem mallocAlign_sound (h : Arena σ bs f) (halign : align.toNat = 2 ^ k)
    (hfour : 4 ≤ align.toNat) (hsum : size.toNat + align.toNat ≤ 2 ^ 31)
    (hr : mallocAlign size align σ = .ok (p, σ')) (hp : p ≠ 0) :
    ∃ ptr σ₁ bs' f', malloc (alignWord size + alignWord align) σ = .ok (ptr, σ₁) ∧
      Arena σ' bs' f' ∧ ∃ d ∈ bs', ptr = σ'.ptr (d.start + 16) ∧
        AlignedIn size align p σ' d := by
  have hword := alignWord_align halign hfour (by omega)
  obtain ⟨ptr, σ₁, hmalloc, ⟨-, hnone⟩ | ⟨hptr, hsome⟩⟩ := mallocAlign_cases hr
  · exact absurd (congrArg Prod.fst hnone) hp
  · rw [hword] at hsome
    obtain ⟨rfl, rfl⟩ := Prod.mk.inj hsome
    have hrequest : (alignWord size + alignWord align).toNat =
        (size.toNat + 3) / 4 * 4 + align.toNat := by
      rw [hword, BitVec.toNat_add, toNat_alignWord (by omega)]
      omega
    have hsearch : (alignWord size + alignWord align).toNat ≤
        (searchSize (alignWord size + alignWord align)).toNat :=
      le_searchSize (by omega)
    obtain ⟨bs', f', hleaves, hgives⟩ := h.leaves_malloc hmalloc
    obtain ⟨d, hd⟩ := hgives hptr
    have harena := hleaves.arena
    dsimp only at harena hd
    have hroom := hd.room
    have hstop := harena.shape.stop_le hd.mem
    have hgeo := harena.shape.geometry.room
    have hbase := harena.shape.geometry.base
    have hal := harena.shape.aligned d hd.mem
    have hend : σ₁.endOff = σ₁.memSizeAligned.toNat + 16 := rfl
    have hnat : ptr.toNat = σ₁.heapPtr.toNat + (d.start + 16) := by
      rw [hd.addr, harena.shape.geometry.toNat_ptr (by omega)]
    obtain ⟨hdvd, hlo, hhi⟩ := alignPtr_spec halign hfour (show ptr.toNat % 8 = 0 by omega)
      (by omega)
    have hbefore : (alignPtr ptr align - 4).toNat = (alignPtr ptr align).toNat - 4 := by
      have h4 : (4 : BitVec 32).toNat = 4 := rfl
      rw [BitVec.toNat_sub, h4]
      omega
    rw [hbefore]
    have hkept : ∀ x, x < σ₁.heapPtr.toNat + (d.start + 16) ∨ σ₁.heapPtr.toNat + d.stop ≤ x →
        Bytes.store32 σ₁.bytes ((alignPtr ptr align).toNat - 4) ptr x = σ₁.bytes x := by
      intro x hx
      apply Bytes.store32_of_outside
      omega
    refine ⟨ptr, σ₁, bs', f', hmalloc, harena.writePayload hd.mem hkept, d, hd.mem, hd.addr, ?_⟩
    refine ⟨hd.used, hdvd, ?_, ?_, ?_⟩
    · change (σ₁.ptr (d.start + 16)).toNat + 4 ≤ (alignPtr ptr align).toNat
      rw [← hd.addr]
      exact hlo
    · change (alignPtr ptr align).toNat + size.toNat ≤ σ₁.heapPtr.toNat + d.stop
      omega
    · exact (Bytes.load32_store32 ptr).trans hd.addr

end Block

/-- Twenty bytes at a multiple of 32. -/
theorem mallocAlign_sound_small :
    ∃ σ σ', smallHeap = some σ ∧ mallocAlign 20 32 σ = .ok (0x1020, σ') ∧
      ∃ ptr σ₁ bs' f', malloc (alignWord 20 + alignWord 32) σ = .ok (ptr, σ₁) ∧
        Arena σ' bs' f' ∧ ∃ d ∈ bs', ptr = σ'.ptr (d.start + 16) ∧
          AlignedIn 20 32 0x1020 σ' d := by
  obtain ⟨σ, hσ, hr⟩ := Runs.exists_of_any (show smallHeap.any (fun σ =>
    (mallocAlign 20 32 σ).toOption.any fun r => r.1 = 0x1020) = true by decide)
  obtain ⟨⟨p, σ'⟩, hr, hp⟩ := Runs.exists_of_any hr
  obtain rfl : p = 0x1020 := of_decide_eq_true hp
  have hcall := HeapSys.ok_of_toOption hr
  have hinit : rtSystemHeapInit (fun _ => 0) 0x1000 0x1100 = some σ := hσ
  exact ⟨σ, σ', hσ, hcall, mallocAlign_sound (k := 5) (arena_init hinit) (by decide) (by decide)
    (by decide) hcall (by decide)⟩

end LuojiOs
