import LuojiOs.Heap.Calls
import LuojiOs.Support.Tiling

/-!
# The blocks of the heap

The headers in memory describe a list of blocks that tile the heap.  This module says what
list a memory describes, and what the writes of the heap functions do to it.
-/

namespace LuojiOs

open Tiling

/-! ## Headers -/

section Headers

variable {σ : Heap} {p q : BitVec 32}

@[simp] theorem hdr_setMagic (v : BitVec 16) :
    (σ.setMagic p v).hdr p = { σ.hdr p with magic := v } := by
  ext1
  · exact Bytes.load16_store16 v
  · exact Bytes.load16_store16_of_disjoint (by omega)
  · exact Bytes.load32_store16_of_disjoint (by omega)
  · exact Bytes.load32_store16_of_disjoint (by omega)

@[simp] theorem hdr_setUsed (v : BitVec 16) :
    (σ.setUsed p v).hdr p = { σ.hdr p with used := v } := by
  ext1
  · exact Bytes.load16_store16_of_disjoint (by omega)
  · exact Bytes.load16_store16 v
  · exact Bytes.load32_store16_of_disjoint (by omega)
  · exact Bytes.load32_store16_of_disjoint (by omega)

@[simp] theorem hdr_setNext (v : BitVec 32) :
    (σ.setNext p v).hdr p = { σ.hdr p with next := v } := by
  ext1
  · exact Bytes.load16_store32_of_disjoint (by omega)
  · exact Bytes.load16_store32_of_disjoint (by omega)
  · exact Bytes.load32_store32 v
  · exact Bytes.load32_store32_of_disjoint (by omega)

@[simp] theorem hdr_setPrev (v : BitVec 32) :
    (σ.setPrev p v).hdr p = { σ.hdr p with prev := v } := by
  ext1
  · exact Bytes.load16_store32_of_disjoint (by omega)
  · exact Bytes.load16_store32_of_disjoint (by omega)
  · exact Bytes.load32_store32_of_disjoint (by omega)
  · exact Bytes.load32_store32 v

/-- A header is made of its twelve bytes. -/
theorem hdr_congr {σ' : Heap} (h : ∀ i < 12, σ'.bytes (p.toNat + i) = σ.bytes (p.toNat + i)) :
    σ'.hdr p = σ.hdr p := by
  ext1
  · exact Bytes.load16_congr fun i hi => h i (by omega)
  · apply Bytes.load16_congr
    intro i hi
    have := h (2 + i) (by omega)
    rwa [← Nat.add_assoc] at this
  · apply Bytes.load32_congr
    intro i hi
    have := h (4 + i) (by omega)
    rwa [← Nat.add_assoc] at this
  · apply Bytes.load32_congr
    intro i hi
    have := h (8 + i) (by omega)
    rwa [← Nat.add_assoc] at this

end Headers

/-! ## Writes to headers -/

/-- Only the headers at the addresses `A` have been written to. -/
structure Writes (A : List (BitVec 32)) (σ σ' : Heap) : Prop where
  statics : SameStatics σ σ'
  bytes : ∀ x, (∀ p ∈ A, x < p.toNat ∨ p.toNat + 12 ≤ x) → σ'.bytes x = σ.bytes x

namespace Writes

variable {σ σ₁ σ₂ : Heap} {A : List (BitVec 32)} {p q : BitVec 32}

theorem refl (A : List (BitVec 32)) (σ : Heap) : Writes A σ σ := ⟨.refl σ, fun _ _ => rfl⟩

theorem trans (h : Writes A σ σ₁) (h' : Writes A σ₁ σ₂) : Writes A σ σ₂ where
  statics := h.statics.trans h'.statics
  bytes x hx := (h'.bytes x hx).trans (h.bytes x hx)

theorem mono {B : List (BitVec 32)} (h : Writes A σ σ₁) (hAB : ∀ p ∈ A, p ∈ B) :
    Writes B σ σ₁ :=
  ⟨h.statics, fun x hx => h.bytes x fun p hp => hx p (hAB p hp)⟩

theorem hdr_eq (h : Writes A σ σ₁)
    (hq : ∀ p ∈ A, q.toNat + 12 ≤ p.toNat ∨ p.toNat + 12 ≤ q.toNat) : σ₁.hdr q = σ.hdr q := by
  apply hdr_congr
  intro i hi
  apply h.bytes
  intro p hp
  have := hq p hp
  omega

theorem setMagic (hp : p ∈ A) (v : BitVec 16) : Writes A σ (σ.setMagic p v) where
  statics := sameStatics_setMagic v
  bytes x hx := by
    have := hx p hp
    exact Bytes.store16_of_outside (by omega)

theorem setUsed (hp : p ∈ A) (v : BitVec 16) : Writes A σ (σ.setUsed p v) where
  statics := sameStatics_setUsed v
  bytes x hx := by
    have := hx p hp
    exact Bytes.store16_of_outside (by omega)

theorem setNext (hp : p ∈ A) (v : BitVec 32) : Writes A σ (σ.setNext p v) where
  statics := sameStatics_setNext v
  bytes x hx := by
    have := hx p hp
    exact Bytes.store32_of_outside (by omega)

theorem setPrev (hp : p ∈ A) (v : BitVec 32) : Writes A σ (σ.setPrev p v) where
  statics := sameStatics_setPrev v
  bytes x hx := by
    have := hx p hp
    exact Bytes.store32_of_outside (by omega)

theorem setLfree (A : List (BitVec 32)) (p : BitVec 32) : Writes A σ (σ.setLfree p) :=
  ⟨sameStatics_setLfree, fun _ _ => rfl⟩

end Writes

/-- The headers at `p` and `q` do not overlap. -/
def HeadersApart (p q : BitVec 32) : Prop := q.toNat + 12 ≤ p.toNat ∨ p.toNat + 12 ≤ q.toNat

section Apart

variable {σ σ' : Heap} {p q : BitVec 32}

theorem Writes.hdr_of_apart (hw : Writes [p] σ σ') (h : HeadersApart p q) :
    σ'.hdr q = σ.hdr q := by
  apply hw.hdr_eq
  intro p' hp'
  rw [List.mem_singleton.mp hp']
  exact h

theorem hdr_setMagic_of_apart {v : BitVec 16} (h : HeadersApart p q) :
    (σ.setMagic p v).hdr q = σ.hdr q :=
  (Writes.setMagic (List.mem_singleton.mpr rfl) v).hdr_of_apart h

theorem hdr_setUsed_of_apart {v : BitVec 16} (h : HeadersApart p q) :
    (σ.setUsed p v).hdr q = σ.hdr q :=
  (Writes.setUsed (List.mem_singleton.mpr rfl) v).hdr_of_apart h

theorem hdr_setNext_of_apart {v : BitVec 32} (h : HeadersApart p q) :
    (σ.setNext p v).hdr q = σ.hdr q :=
  (Writes.setNext (List.mem_singleton.mpr rfl) v).hdr_of_apart h

theorem hdr_setPrev_of_apart {v : BitVec 32} (h : HeadersApart p q) :
    (σ.setPrev p v).hdr q = σ.hdr q :=
  (Writes.setPrev (List.mem_singleton.mpr rfl) v).hdr_of_apart h

end Apart

/-! ## Blocks -/

/-- A block of the heap: its header starts at the offset `start`, and the next block at
the offset `stop`. -/
structure Block where
  start : ℕ
  stop : ℕ
  used : Bool
  deriving DecidableEq, Repr

/-- The header of a block whose predecessor starts at `prev`. -/
def Block.header (b : Block) (prev : ℕ) : HeapMem where
  magic := HEAP_MAGIC
  used := if b.used then 1 else 0
  next := BitVec.ofNat 32 b.stop
  prev := BitVec.ofNat 32 prev

/-- From the offset `o` on, the headers `hd` describe the blocks `bs`, which end at `e`.
The block before them starts at `p`. -/
def Chain (hd : ℕ → HeapMem) : ℕ → ℕ → List Block → ℕ → Prop
  | _, o, [], e => o = e
  | p, o, b :: bs, e =>
    b.start = o ∧ hd b.start = b.header p ∧ b.start + 16 ≤ b.stop ∧
      Chain hd b.start b.stop bs e

/-- The blocks around `c` stay when it is replaced. -/
theorem mem_replaced {as cs xs : List Block} {c u : Block} (hu : u ∈ as ++ c :: cs)
    (hne : u ≠ c) : u ∈ as ++ (xs ++ cs) := by
  simp only [List.mem_append, List.mem_cons] at hu ⊢
  rcases hu with hu | hu | hu
  · exact Or.inl hu
  · exact absurd hu hne
  · exact Or.inr (Or.inr hu)

/-- Where the last of the blocks `bs` starts, or `p` if there is none. -/
def lastStart : ℕ → List Block → ℕ
  | p, [] => p
  | _, b :: bs => lastStart b.start bs

section Chain

variable {hd hd' : ℕ → HeapMem} {p p' o e : ℕ} {b c : Block} {as bs : List Block}

theorem lastStart_append_singleton : lastStart p (as ++ [b]) = b.start := by
  induction as generalizing p with
  | nil => rfl
  | cons a as ih => exact ih

theorem Chain.tiles (h : Chain hd p o bs e) : Tiles Block.start Block.stop o bs e := by
  induction bs generalizing p o with
  | nil => exact h
  | cons b bs ih => exact ⟨h.1, by have := h.2.2.1; omega, ih h.2.2.2⟩

theorem chain_append_cons :
    Chain hd p o (as ++ b :: bs) e ↔
      Chain hd p o as b.start ∧ hd b.start = b.header (lastStart p as) ∧
        b.start + 16 ≤ b.stop ∧ Chain hd b.start b.stop bs e := by
  induction as generalizing p o with
  | nil => simp [Chain, lastStart, eq_comm]
  | cons a as ih => simp only [List.cons_append, Chain, lastStart, ih, and_assoc]

/-- The headers of a chain are at the starts of its blocks. -/
theorem Chain.congr (h : Chain hd p o bs e)
    (hhd : ∀ x, o ≤ x → x + 16 ≤ e → hd' x = hd x) : Chain hd' p o bs e := by
  induction bs generalizing p o with
  | nil => exact h
  | cons b bs ih =>
      obtain ⟨rfl, hb, hroom, hbs⟩ := h
      have hle := hbs.tiles.le
      refine ⟨rfl, (hhd b.start (Nat.le_refl _) (by omega)).trans hb, hroom, ih hbs ?_⟩
      intro x hx
      exact hhd x (by omega)

/-- Only the headers of the blocks matter. -/
theorem Chain.congr_mem (h : Chain hd p o bs e) (hhd : ∀ b ∈ bs, hd' b.start = hd b.start) :
    Chain hd' p o bs e := by
  induction bs generalizing p o with
  | nil => exact h
  | cons b bs ih =>
      obtain ⟨hstart, hb, hroom, hbs⟩ := h
      refine ⟨hstart, (hhd b (by simp)).trans hb, hroom, ih hbs ?_⟩
      intro c hc
      exact hhd c (List.mem_cons_of_mem b hc)

/-- The first block of a chain gets another predecessor. -/
theorem Chain.reprev (h : Chain hd p o bs e)
    (hfirst : bs ≠ [] → hd' o = { hd o with prev := BitVec.ofNat 32 p' })
    (hrest : ∀ x, o + 16 ≤ x → x + 16 ≤ e → hd' x = hd x) : Chain hd' p' o bs e := by
  cases bs with
  | nil => exact h
  | cons b bs =>
      obtain ⟨rfl, hb, hroom, hbs⟩ := h
      refine ⟨rfl, ?_, hroom, hbs.congr ?_⟩
      · rw [hfirst (List.cons_ne_nil b bs), hb]
        rfl
      · intro x hx
        exact hrest x (by omega)

/-- Two neighbouring blocks become one. -/
theorem Chain.merge (h : Chain hd p o (as ++ b :: c :: bs) e)
    (hb : hd' b.start = { hd b.start with next := BitVec.ofNat 32 c.stop })
    (hnext : bs ≠ [] → hd' c.stop = { hd c.stop with prev := BitVec.ofNat 32 b.start })
    (hrest : ∀ x, x + 16 ≤ b.start ∨ c.stop + 16 ≤ x → x + 16 ≤ e → hd' x = hd x) :
    Chain hd' p o (as ++ ⟨b.start, c.stop, b.used⟩ :: bs) e := by
  rw [chain_append_cons] at h ⊢
  obtain ⟨has, hhb, hroom, hcstart, -, hcroom, hbs⟩ := h
  have hle := hbs.tiles.le
  refine ⟨has.congr ?_, ?_, ?_, hbs.reprev hnext ?_⟩
  · intro x _ hx
    exact hrest x (Or.inl hx) (by omega)
  · rw [hb, hhb]
    rfl
  · dsimp only
    omega
  · intro x hx
    exact hrest x (Or.inr hx)

/-- A block is cut in two; the first part may be marked as used. -/
theorem Chain.split {m : ℕ} {u : Bool} (h : Chain hd p o (as ++ b :: bs) e)
    (hlo : b.start + 16 ≤ m) (hhi : m + 16 ≤ b.stop)
    (hb : hd' b.start = (Block.mk b.start m u).header (lastStart p as))
    (hm : hd' m = (Block.mk m b.stop false).header b.start)
    (hnext : bs ≠ [] → hd' b.stop = { hd b.stop with prev := BitVec.ofNat 32 m })
    (hrest : ∀ x, x + 16 ≤ b.start ∨ b.stop + 16 ≤ x → x + 16 ≤ e → hd' x = hd x) :
    Chain hd' p o (as ++ ⟨b.start, m, u⟩ :: ⟨m, b.stop, false⟩ :: bs) e := by
  rw [chain_append_cons] at h ⊢
  obtain ⟨has, -, hroom, hbs⟩ := h
  have hle := hbs.tiles.le
  refine ⟨has.congr ?_, hb, hlo, rfl, hm, hhi, hbs.reprev hnext ?_⟩
  · intro x _ hx
    exact hrest x (Or.inl hx) (by omega)
  · intro x hx
    exact hrest x (Or.inr hx)

/-- The flag of a block changes. -/
theorem Chain.mark {u : Bool} (h : Chain hd p o (as ++ b :: bs) e)
    (hb : hd' b.start = (Block.mk b.start b.stop u).header (lastStart p as))
    (hrest : ∀ x, x + 16 ≤ b.start ∨ b.stop ≤ x → x + 16 ≤ e → hd' x = hd x) :
    Chain hd' p o (as ++ ⟨b.start, b.stop, u⟩ :: bs) e := by
  rw [chain_append_cons] at h ⊢
  obtain ⟨has, -, hroom, hbs⟩ := h
  have hle := hbs.tiles.le
  refine ⟨has.congr ?_, hb, hroom, hbs.congr ?_⟩
  · intro x _ hx
    exact hrest x (Or.inl hx) (by omega)
  · intro x hx
    exact hrest x (Or.inr hx)

end Chain

end LuojiOs
