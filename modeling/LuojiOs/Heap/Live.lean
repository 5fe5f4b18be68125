import LuojiOs.Heap.Effects
import LuojiOs.Heap.Lock
import LuojiOs.Support.Runs

/-!
# Runs of heap calls

A program calls the heap functions, passes to `free` and `realloc` only pointers it was
given and has not given back, and writes to the blocks it holds.  The state of such a run
is the heap with the list of the blocks that are held; `Holds` says that each of them is a
used block of the heap.
-/

namespace LuojiOs

open Tiling

/-! ## The system -/

/-- A block in the hands of the program: its address and the number of bytes asked for. -/
structure Live where
  addr : BitVec 32
  size : ℕ
  deriving DecidableEq, Repr

structure HeapSys where
  heap : Heap
  live : List Live

inductive HeapEvent
  | malloc (size : BitVec 32)
  | calloc (count size : BitVec 32)
  | realloc (rmem newsize : BitVec 32)
  | free (rmem : BitVec 32)
  /-- The program writes to a byte of a block it holds. -/
  | store (rmem : BitVec 32) (i : ℕ) (v : BitVec 8)
  deriving DecidableEq, Repr

namespace HeapSys

/-- The live blocks without the one at `p`. -/
def drop (p : BitVec 32) (s : HeapSys) : List Live := s.live.filter fun l => l.addr ≠ p

/-- The live blocks after a call that asked for `n` bytes returned `p`. -/
def give (p : BitVec 32) (n : ℕ) (ls : List Live) : List Live :=
  if p = 0 then ls else ⟨p, n⟩ :: ls

/-- The live blocks after `realloc(p, newsize)` returned `q`.  The block is given back if
the aligned size is zero. -/
def exchange (p newsize q : BitVec 32) (s : HeapSys) : List Live :=
  if q = 0 ∧ rtAlign newsize ≠ 0 then s.live else give q newsize.toNat (s.drop p)

/-- One event; it is refused if the call does not return, or if the pointer is not live. -/
def step (s : HeapSys) : HeapEvent → Option HeapSys
  | .malloc size =>
    (LuojiOs.malloc size s.heap).toOption.map fun r => ⟨r.2, give r.1 size.toNat s.live⟩
  | .calloc count size =>
    (LuojiOs.calloc count size s.heap).toOption.map fun r =>
      ⟨r.2, give r.1 (count.toNat * size.toNat) s.live⟩
  | .realloc rmem newsize =>
    if rmem ∈ s.live.map Live.addr then
      (LuojiOs.realloc rmem newsize s.heap).toOption.map fun r =>
        ⟨r.2, s.exchange rmem newsize r.1⟩
    else none
  | .free rmem =>
    if rmem ∈ s.live.map Live.addr then
      (LuojiOs.free rmem s.heap).toOption.map fun σ => ⟨σ, s.drop rmem⟩
    else none
  | .store rmem i v =>
    if rmem ∈ s.live.map Live.addr ∧ i < (s.heap.payload rmem).toNat then
      some { s with heap := { s.heap with bytes := Bytes.fill s.heap.bytes (rmem.toNat + i) v 1 } }
    else none

/-- A heap that has just been set up, with no block given out. -/
def Fresh (s : HeapSys) : Prop :=
  s.live = [] ∧ ∃ bytes beginAddr endAddr, rtSystemHeapInit bytes beginAddr endAddr = some s.heap

end HeapSys

/-! ## The first state -/

section Init

variable {σ : Heap} {bytes : Bytes} {beginAddr endAddr : BitVec 32}

/-- The two headers that `rt_system_heap_init` writes. -/
theorem hdr_init {p q : BitVec 32} (next : BitVec 32) (τ : Heap) (hapart : HeadersApart q p) :
    let σ := ((((((((τ.setMagic p HEAP_MAGIC).setNext p next).setPrev p 0).setUsed p 0).setMagic q
      HEAP_MAGIC).setUsed q 1).setNext q next).setPrev q next)
    σ.hdr p = ⟨HEAP_MAGIC, 0, next, 0⟩ ∧ σ.hdr q = ⟨HEAP_MAGIC, 1, next, next⟩ := by
  constructor
  · simp [hdr_setPrev_of_apart hapart, hdr_setNext_of_apart hapart, hdr_setUsed_of_apart hapart,
      hdr_setMagic_of_apart hapart]
  · simp

/-- Where `rt_system_heap_init` puts the heap. -/
theorem geometry_init (h : rtSystemHeapInit bytes beginAddr endAddr = some σ) :
    Geometry σ ∧ σ.lfree = σ.heapPtr ∧
      σ.hdr σ.heapPtr = ⟨HEAP_MAGIC, 0, BitVec.ofNat 32 σ.endOff, 0⟩ ∧
      σ.hdr σ.heapEnd =
        ⟨HEAP_MAGIC, 1, BitVec.ofNat 32 σ.endOff, BitVec.ofNat 32 σ.endOff⟩ := by
  have hbegin := toNat_rtAlign beginAddr
  have hend := toNat_rtAlignDown endAddr
  have h32 : (2 * SIZEOF_STRUCT_MEM).toNat = 32 := rfl
  have h16 : SIZEOF_STRUCT_MEM.toNat = 16 := rfl
  unfold rtSystemHeapInit at h
  dsimp only at h
  split at h
  · next hsize =>
    rw [BitVec.lt_def, BitVec.le_def, BitVec.toNat_sub, h32] at hsize
    generalize rtAlign beginAddr = b at h hsize hbegin
    generalize rtAlignDown endAddr = e at h hsize hend
    have hmem : (e - b - 2 * SIZEOF_STRUCT_MEM).toNat = e.toNat - b.toNat - 32 := by
      rw [BitVec.toNat_sub, BitVec.toNat_sub, h32]
      omega
    generalize e - b - 2 * SIZEOF_STRUCT_MEM = m at h hmem
    have hnext : m + SIZEOF_STRUCT_MEM = BitVec.ofNat 32 (m.toNat + 16) := by
      apply BitVec.eq_of_toNat_eq
      rw [BitVec.toNat_add, BitVec.toNat_ofNat, h16]
    have hapart : HeadersApart (b + BitVec.ofNat 32 (m.toNat + 16)) b := by
      unfold HeadersApart
      rw [BitVec.toNat_add, BitVec.toNat_ofNat]
      omega
    rw [hnext] at h
    obtain ⟨hfirst, hsecond⟩ := hdr_init (BitVec.ofNat 32 (m.toNat + 16))
      ⟨bytes, b, b + BitVec.ofNat 32 (m.toNat + 16), b, m, 1, 0, 0⟩ hapart
    obtain rfl := Option.some.inj h
    refine ⟨⟨?_, ?_, ?_, rfl⟩, rfl, hfirst, hsecond⟩
    · change b.toNat % 8 = 0
      omega
    · change m.toNat % 8 = 0
      omega
    · change b.toNat + m.toNat + 32 < 2 ^ 32
      omega
  · cases h

/-- The heap is set up as one free block. -/
theorem arena_init (h : rtSystemHeapInit bytes beginAddr endAddr = some σ) :
    Arena σ [⟨0, σ.endOff, false⟩] 0 := by
  obtain ⟨hg, hlfree, hfirst, hlast⟩ := geometry_init h
  have hzero : σ.ptr 0 = σ.heapPtr := BitVec.add_zero _
  have hchain : Chain σ.off 0 0 [⟨0, σ.endOff, false⟩] σ.endOff := by
    refine ⟨rfl, ?_, ?_, rfl⟩
    · change σ.hdr (σ.ptr 0) = _
      rw [hzero]
      exact hfirst
    · unfold Heap.endOff
      dsimp only
      omega
  rw [hg.heapEnd] at hlast
  have hspot : FreeSpot σ.endOff [⟨0, σ.endOff, false⟩] 0 :=
    Or.inr ⟨_, List.mem_singleton.mpr rfl, rfl, rfl⟩
  refine ⟨⟨hg, hchain, ?_, ?_⟩, hlfree.trans hzero.symm, hspot⟩
  · unfold Heap.off
    rw [hlast]
    exact ⟨rfl, rfl⟩
  · intro b hb
    rw [List.mem_singleton.mp hb]
    have := hg.size
    unfold Heap.endOff
    dsimp only
    omega

end Init

/-! ## The blocks that are held -/

/-- The heap has the blocks `bs`, and every live block is a used block of its own, of which
`P` is known. -/
structure Holds (P : Live → Block → Prop) (s : HeapSys) (bs : List Block) (f : ℕ) : Prop where
  arena : Arena s.heap bs f
  nodup : (s.live.map Live.addr).Nodup
  live : ∀ l ∈ s.live, ∃ b ∈ bs, b.used = true ∧ b.start + 16 < b.stop ∧
    l.addr = s.heap.ptr (b.start + 16) ∧ P l b

/-- Where the payload of a block is. -/
theorem Arena.payload_at {σ : Heap} {bs : List Block} {b : Block} {f : ℕ} (h : Arena σ bs f)
    (hb : b ∈ bs) :
    (σ.ptr (b.start + 16)).toNat = σ.heapPtr.toNat + (b.start + 16) ∧
      (σ.payload (σ.ptr (b.start + 16))).toNat = b.stop - (b.start + 16) ∧
      b.start + 16 ≤ b.stop ∧ b.stop ≤ σ.endOff := by
  have hroom := h.shape.room_of_mem hb
  have hle := h.shape.stop_le hb
  exact ⟨h.shape.geometry.toNat_ptr (by omega), h.shape.toNat_payload hb, hroom, hle⟩

namespace Holds

variable {P : Live → Block → Prop} {keep : Block → Prop} {s : HeapSys} {σ' : Heap}
  {as bs bs' : List Block} {b d u : Block} {f f' m n : ℕ} {p : BitVec 32} {ls : List Live}

theorem of_fresh (h : s.Fresh) : ∃ bs f, Holds P s bs f := by
  obtain ⟨hlive, bytes, beginAddr, endAddr, hinit⟩ := h
  refine ⟨_, _, arena_init hinit, ?_, ?_⟩
  · simp [hlive]
  · simp [hlive]

/-- The block of a live pointer. -/
theorem exists_block (h : Holds P s bs f) (hp : p ∈ s.live.map Live.addr) :
    ∃ as b cs, bs = as ++ b :: cs ∧ b.used = true ∧ b.start + 16 < b.stop ∧
      p = s.heap.ptr (b.start + 16) := by
  obtain ⟨l, hl, rfl⟩ := List.mem_map.mp hp
  obtain ⟨b, hb, hused, hroom, haddr, -⟩ := h.live l hl
  obtain ⟨as, cs, rfl⟩ := List.append_of_mem hb
  exact ⟨as, b, cs, rfl, hused, hroom, haddr⟩

/-- Live blocks are still held after a call that leaves them alone. -/
theorem leaves (h : Holds P s bs f) (hleaves : Leaves keep s.heap σ' bs bs' f')
    (hls : ls.Sublist s.live)
    (hkeep : ∀ l ∈ ls, ∀ u ∈ bs, l.addr = s.heap.ptr (u.start + 16) → keep u) :
    Holds P ⟨σ', ls⟩ bs' f' where
  arena := hleaves.arena
  nodup := h.nodup.sublist (hls.map Live.addr)
  live := by
    intro l hl
    obtain ⟨u, hu, hused, hroom, haddr, hP⟩ := h.live l (hls.subset hl)
    obtain ⟨hmem, -⟩ := hleaves.stays u hu hused (hkeep l hl u hu haddr)
    refine ⟨u, hmem, hused, hroom, ?_, hP⟩
    exact haddr.trans (hleaves.place.ptr_eq _).symm

/-- Writing to a block leaves the other ones alone. -/
theorem leaves_write {m : Bytes} (h : Holds P s bs f) {l : Live} (hl : l ∈ s.live)
    (hm : ∀ x, x < l.addr.toNat ∨ l.addr.toNat + (s.heap.payload l.addr).toNat ≤ x →
      m x = s.heap.bytes x) :
    Holds P ⟨{ s.heap with bytes := m }, s.live⟩ bs f ∧
      (∀ l' ∈ s.live, Heap.payload l'.addr { s.heap with bytes := m } = s.heap.payload l'.addr) ∧
      ∃ b ∈ bs, l.addr = s.heap.ptr (b.start + 16) ∧
        Leaves (· ≠ b) s.heap { s.heap with bytes := m } bs bs f := by
  obtain ⟨b, hb, -, -, haddr, -⟩ := h.live l hl
  obtain ⟨hnat, hsize, hroom, -⟩ := h.arena.payload_at hb
  have hm' : ∀ x, x < s.heap.heapPtr.toNat + (b.start + 16) ∨ s.heap.heapPtr.toNat + b.stop ≤ x →
      m x = s.heap.bytes x := by
    intro x hx
    apply hm
    rw [haddr, hnat, hsize]
    omega
  have harena := h.arena.writePayload hb hm'
  refine ⟨⟨harena, h.nodup, h.live⟩, ?_, b, hb, haddr, harena, ⟨rfl, rfl, rfl⟩, ?_⟩
  · intro l' hl'
    obtain ⟨u, hu, -, -, hladdr, -⟩ := h.live l' hl'
    apply BitVec.eq_of_toNat_eq
    rw [hladdr, h.arena.shape.toNat_payload hu]
    exact harena.shape.toNat_payload hu
  · intro u hu _ hub
    exact ⟨hu, h.arena.shape.keeps_writePayload hb hu hub hm'⟩

/-- The program is given a block. -/
theorem gives (h : Holds P s bs f) (hleaves : Leaves keep s.heap σ' bs bs' f')
    (hls : ls.Sublist s.live)
    (hkeep : ∀ l ∈ ls, ∀ u ∈ bs, l.addr = s.heap.ptr (u.start + 16) → keep u)
    (hd : Gives keep n σ' bs bs' p d) (hn : 0 < n) (hP : P ⟨p, m⟩ d) :
    Holds P ⟨σ', HeapSys.give p m ls⟩ bs' f' := by
  have hrest := h.leaves hleaves hls hkeep
  have hle := hleaves.arena.shape.stop_le hd.mem
  have hroom := hd.room
  have hnull : p ≠ 0 := by
    rw [hd.addr]
    exact hleaves.arena.shape.geometry.ptr_ne_zero (by omega)
  unfold HeapSys.give
  rw [if_neg hnull]
  refine ⟨hrest.arena, ?_, ?_⟩
  · rw [List.map_cons, List.nodup_cons]
    refine ⟨?_, hrest.nodup⟩
    intro hmem
    obtain ⟨l, hl, haddr⟩ := List.mem_map.mp hmem
    obtain ⟨u, hu, hused, -, hladdr, -⟩ := h.live l (hls.subset hl)
    have hroom := h.arena.shape.room_of_mem hu
    have hule := h.arena.shape.stop_le hu
    -- the payloads of `u` and `d` would be at the same address
    have heq : s.heap.ptr (u.start + 16) = s.heap.ptr (d.start + 16) := by
      rw [← hladdr, haddr, hd.addr, hleaves.place.ptr_eq]
    rw [hleaves.place.endOff_eq] at hle
    have hstart := (h.arena.shape.geometry.ptr_inj (by omega) (by omega)).mp heq
    exact hd.new u hu hused (hkeep l hl u hu hladdr) (by omega)
  · intro l hl
    rcases List.mem_cons.mp hl with rfl | hl
    · exact ⟨d, hd.mem, hd.used, by omega, hd.addr, hP⟩
    · exact hrest.live l hl

/-- The live pointers other than that of `b` belong to other blocks. -/
theorem ne_of_mem_drop {l : Live} (hl : l ∈ s.drop (s.heap.ptr (b.start + 16)))
    (haddr : l.addr = s.heap.ptr (u.start + 16)) : u ≠ b := by
  rintro rfl
  have hne := (List.mem_filter.mp hl).2
  simp [haddr] at hne

end Holds

/-! ## Steps -/

namespace HeapSys

/-- What the events do. -/
inductive Steps (s : HeapSys) : HeapEvent → HeapSys → Prop
  | malloc {size p : BitVec 32} {σ' : Heap} (hr : LuojiOs.malloc size s.heap = .ok (p, σ')) :
      Steps s (.malloc size) ⟨σ', give p size.toNat s.live⟩
  | calloc {count size p : BitVec 32} {σ' : Heap}
      (hr : LuojiOs.calloc count size s.heap = .ok (p, σ')) :
      Steps s (.calloc count size) ⟨σ', give p (count.toNat * size.toNat) s.live⟩
  | realloc {rmem newsize p : BitVec 32} {σ' : Heap} (hlive : rmem ∈ s.live.map Live.addr)
      (hr : LuojiOs.realloc rmem newsize s.heap = .ok (p, σ')) :
      Steps s (.realloc rmem newsize) ⟨σ', s.exchange rmem newsize p⟩
  | free {rmem : BitVec 32} {σ' : Heap} (hlive : rmem ∈ s.live.map Live.addr)
      (hr : LuojiOs.free rmem s.heap = .ok σ') : Steps s (.free rmem) ⟨σ', s.drop rmem⟩
  | store {rmem : BitVec 32} {i : ℕ} {v : BitVec 8} (hlive : rmem ∈ s.live.map Live.addr)
      (hi : i < (s.heap.payload rmem).toNat) :
      Steps s (.store rmem i v)
        ⟨{ s.heap with bytes := Bytes.fill s.heap.bytes (rmem.toNat + i) v 1 }, s.live⟩

variable {s s' : HeapSys} {e : HeapEvent}

theorem ok_of_toOption {ε α : Type} {x : Except ε α} {a : α} (h : x.toOption = some a) :
    x = .ok a := by
  cases x with
  | error _ => cases h
  | ok b => exact congrArg Except.ok (Option.some.inj h)

theorem toOption_map_eq_some {ε α β : Type} {x : Except ε α} {g : α → β} {b : β}
    (h : x.toOption.map g = some b) : ∃ a, x = .ok a ∧ b = g a := by
  obtain ⟨a, ha, rfl⟩ := Option.map_eq_some_iff.mp h
  exact ⟨a, ok_of_toOption ha, rfl⟩

theorem steps_of_step (h : s.step e = some s') : s.Steps e s' := by
  cases e with
  | malloc size =>
      obtain ⟨r, hr, rfl⟩ := toOption_map_eq_some h
      exact .malloc hr
  | calloc count size =>
      obtain ⟨r, hr, rfl⟩ := toOption_map_eq_some h
      exact .calloc hr
  | realloc rmem newsize =>
      simp only [step] at h
      split at h
      · next hlive =>
        obtain ⟨r, hr, rfl⟩ := toOption_map_eq_some h
        exact .realloc hlive hr
      · cases h
  | free rmem =>
      simp only [step] at h
      split at h
      · next hlive =>
        obtain ⟨σ', hr, rfl⟩ := toOption_map_eq_some h
        exact .free hlive hr
      · cases h
  | store rmem i v =>
      simp only [step] at h
      split at h
      · next hlive =>
        obtain rfl := Option.some.inj h
        exact .store hlive.1 hlive.2
      · cases h

end HeapSys

/-! ## Every step keeps the blocks -/

/-- What an event needs so that `P` is known of the block it gives out. -/
def HeapEvent.Grants (P : Live → Block → Prop) : HeapEvent → Prop
  | .malloc size =>
    ∀ p d, d.start + 16 + (searchSize size).toNat ≤ d.stop → P ⟨p, size.toNat⟩ d
  | .calloc count size => (count * size).toNat + 7 < 2 ^ 32 ∧
    ∀ p d, d.start + 16 + (searchSize (count * size)).toNat ≤ d.stop →
      P ⟨p, count.toNat * size.toNat⟩ d
  | .realloc _ newsize =>
    ∀ p d, d.start + 16 + (rtAlign newsize).toNat ≤ d.stop → P ⟨p, newsize.toNat⟩ d
  | _ => True

namespace Holds

variable {P : Live → Block → Prop} {s s' : HeapSys} {bs : List Block} {f m n : ℕ}
  {e : HeapEvent} {r : BitVec 32 × Heap}

theorem sixteen_le_searchSize (size : BitVec 32) : 16 ≤ (searchSize size).toNat := by
  have h16 : MIN_SIZE_ALIGNED.toNat = 16 := rfl
  unfold searchSize
  split
  · exact Nat.le_of_eq h16.symm
  · next hge =>
    rw [BitVec.lt_def, h16] at hge
    omega

/-- `malloc` and `calloc` -/
theorem allocates (h : Holds P s bs f) (hn : 0 < n)
    (hP : ∀ p d, d.start + 16 + n ≤ d.stop → P ⟨p, m⟩ d)
    (hr : ∃ bs' f', Leaves (fun _ => True) s.heap r.2 bs bs' f' ∧
      (r.1 ≠ 0 → ∃ d, Gives (fun _ => True) n r.2 bs bs' r.1 d)) :
    ∃ bs' f', Holds P ⟨r.2, HeapSys.give r.1 m s.live⟩ bs' f' := by
  obtain ⟨bs', f', hleaves, hgives⟩ := hr
  by_cases hnull : r.1 = 0
  · rw [hnull]
    exact ⟨bs', f', h.leaves hleaves (List.Sublist.refl _) fun _ _ _ _ _ => trivial⟩
  · obtain ⟨d, hd⟩ := hgives hnull
    exact ⟨bs', f', h.gives hleaves (List.Sublist.refl _) (fun _ _ _ _ _ => trivial) hd hn
      (hP _ d hd.room)⟩

theorem realloc {rmem newsize : BitVec 32} (h : Holds P s bs f)
    (hlive : rmem ∈ s.live.map Live.addr)
    (hP : ∀ p d, d.start + 16 + (rtAlign newsize).toNat ≤ d.stop → P ⟨p, newsize.toNat⟩ d)
    (hr : LuojiOs.realloc rmem newsize s.heap = .ok r) :
    ∃ bs' f', Holds P ⟨r.2, s.exchange rmem newsize r.1⟩ bs' f' := by
  obtain ⟨as, b, cs, rfl, hused, hroom, rfl⟩ := h.exists_block hlive
  obtain ⟨bs', f', hleaves, hfails, hmoves⟩ := h.arena.leaves_realloc hused hroom hr
  have hdrop : (s.drop (s.heap.ptr (b.start + 16))).Sublist s.live := List.filter_sublist
  have hkeep : ∀ l ∈ s.drop (s.heap.ptr (b.start + 16)), ∀ u ∈ as ++ b :: cs,
      l.addr = s.heap.ptr (u.start + 16) → u ≠ b := fun l hl u _ haddr => ne_of_mem_drop hl haddr
  refine ⟨bs', f', ?_⟩
  unfold HeapSys.exchange
  split
  · next hfail =>
    -- nothing has changed, and the block is still there
    obtain ⟨hbytes, hb⟩ := hfails hfail.1 hfail.2
    have hall : Leaves (fun _ => True) s.heap r.2 (as ++ b :: cs) bs' f' := by
      refine ⟨hleaves.arena, hleaves.place, ?_⟩
      intro u hu huused _
      have hkeeps : PayloadKept u s.heap r.2 := fun x _ _ => by rw [hbytes]
      by_cases hub : u = b
      · exact ⟨hub ▸ hb, hkeeps⟩
      · exact ⟨(hleaves.stays u hu huused hub).1, hkeeps⟩
    exact h.leaves hall (List.Sublist.refl _) fun _ _ _ _ _ => trivial
  · by_cases hnull : r.1 = 0
    · rw [hnull]
      exact h.leaves hleaves hdrop hkeep
    · obtain ⟨hzero, d, hd, -⟩ := hmoves hnull
      have hn : 0 < (rtAlign newsize).toNat := by
        apply Nat.pos_of_ne_zero
        intro hn
        exact hzero (BitVec.eq_of_toNat_eq hn)
      exact h.gives hleaves hdrop hkeep hd hn (hP _ d hd.room)

theorem step (h : Holds P s bs f) (he : e.Grants P) (hs : s.step e = some s') :
    ∃ bs' f', Holds P s' bs' f' := by
  cases HeapSys.steps_of_step hs with
  | @malloc size p σ' hr =>
      have hpos := sixteen_le_searchSize size
      exact h.allocates (by omega) he (h.arena.leaves_malloc hr)
  | @calloc count size p σ' hr =>
      have hpos := sixteen_le_searchSize (count * size)
      exact h.allocates (by omega) he.2 (h.arena.leaves_calloc he.1 hr)
  | realloc hlive hr => exact h.realloc hlive he hr
  | free hlive hr =>
      obtain ⟨as, b, cs, rfl, hused, hroom, rfl⟩ := h.exists_block hlive
      obtain ⟨bs', f', hleaves⟩ := h.arena.leaves_free hr
      refine ⟨bs', f', h.leaves hleaves List.filter_sublist ?_⟩
      intro l hl u _ haddr
      exact ne_of_mem_drop hl haddr
  | @store rmem i v hlive hi =>
      obtain ⟨l, hl, rfl⟩ := List.mem_map.mp hlive
      obtain ⟨hholds, -⟩ := h.leaves_write hl (m := Bytes.fill s.heap.bytes (l.addr.toNat + i) v 1)
        fun x hx => Bytes.fill_of_outside (by omega)
      exact ⟨bs, f, hholds⟩

end Holds

/-! ## A small heap -/

/-- The heap of 224 bytes, with no block given out. -/
def smallSys : Option HeapSys := smallHeap.map fun σ => ⟨σ, []⟩

theorem fresh_smallSys {s : HeapSys} (h : smallSys = some s) : s.Fresh := by
  obtain ⟨σ, hσ, rfl⟩ := Option.map_eq_some_iff.mp h
  exact ⟨rfl, _, _, _, hσ⟩

end LuojiOs
