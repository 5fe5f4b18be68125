import LuojiOs.Heap.Safety
import LuojiOs.Support.CStrings

/-!
# Clients of the heap

A thread owns some of the live blocks.  Whatever the other threads call, its blocks stay with
what it has written to them; a block that it is given is not one of those it has, and is hardly
larger than was asked for; and `realloc` passes on what is in the block, so that a block that
grows has room twice in the heap.
-/

namespace LuojiOs

open Tiling

/-! ## The size of the blocks -/

section Sizes

variable {σ : Heap} {as bs : List Block} {b c : Block} {f n : ℕ} {size newsize : BitVec 32}
  {r : BitVec 32 × Heap}

/-- What is left over of a free block is cut off if it makes a block of its own. -/
theorem exists_snug_taken (n : ℕ) (c : Block) :
    ∃ d ∈ taken n c, d.used = true ∧ d.start = c.start ∧ d.stop < c.start + 16 + n + 32 := by
  unfold taken
  split
  · exact ⟨_, List.mem_cons_self, rfl, rfl, by dsimp only; omega⟩
  · exact ⟨_, List.mem_cons_self, rfl, rfl, by dsimp only; omega⟩

theorem searchSize_le (size : BitVec 32) : (searchSize size).toNat ≤ size.toNat + 16 := by
  have halign := toNat_rtAlign size
  have h16 : MIN_SIZE_ALIGNED.toNat = 16 := rfl
  unfold searchSize
  split
  · omega
  · omega

theorem Arena.malloc_snug (h : Arena σ bs f) (hr : LuojiOs.malloc size σ = .ok r)
    (hnull : r.1 ≠ 0) : (r.2.payload r.1).toNat < size.toNat + 64 := by
  cases h.malloc hr with
  | none => exact absurd rfl hnull
  | @some σ' as cs c f' hbs hfree hfit hnext harena hplace hkeeps =>
      obtain ⟨d, hd, -, hstart, hstop⟩ := exists_snug_taken (searchSize size).toNat c
      have hdmem : d ∈ as ++ (taken (searchSize size).toNat c ++ cs) := by simp [hd]
      have hsize := searchSize_le size
      dsimp only
      rw [← hplace.ptr_eq, ← hstart, harena.shape.toNat_payload hdmem]
      omega

theorem Arena.realloc_snug (h : Arena σ (as ++ b :: bs) f) (hb : b.used = true)
    (hroom : b.start + 16 < b.stop) (hr : LuojiOs.realloc (σ.ptr (b.start + 16)) newsize σ = .ok r)
    (hnull : r.1 ≠ 0) : (r.2.payload r.1).toNat < newsize.toNat + 64 := by
  have halign := toNat_rtAlign newsize
  have hbmem : b ∈ as ++ b :: bs := by simp
  cases h.realloc hb hroom hr with
  | fails => exact absurd rfl hnull
  | frees => exact absurd rfl hnull
  | stays hsize harena hplace hbytes =>
      dsimp only
      rw [← hplace.ptr_eq, harena.shape.toNat_payload hbmem]
      omega
  | @shrinks _ bs' f' hn hcut hplug harena hplace hkeeps =>
      have hdmem : ⟨b.start, b.start + 16 + (rtAlign newsize).toNat, true⟩ ∈ bs' := by
        rw [hplug.mem_used_iff rfl rfl]
        simp
      have hpayload := harena.shape.toNat_payload hdmem
      dsimp only at hpayload ⊢
      rw [← hplace.ptr_eq, hpayload]
      omega
  | @moves σ' as₁ cs as₂ bs₂ bs' c f₁ f' hn hsplit hfree hfit hnext hsplit₂ hplug harena hplace
      hkeeps hcopy =>
      obtain ⟨d, hd, hused, hstart, hstop⟩ := exists_snug_taken (max 16 (rtAlign newsize).toNat) c
      have hdmem : d ∈ bs' := h.shape.mem_moved hb hsplit hfree hsplit₂ hplug hd hused hstart
      dsimp only
      rw [← hplace.ptr_eq, ← hstart, harena.shape.toNat_payload hdmem]
      omega

/-- A block that grows moves: the heap has room for the old and the new one. -/
theorem Arena.realloc_room (h : Arena σ (as ++ b :: bs) f) (hb : b.used = true)
    (hroom : b.start + 16 < b.stop) (hr : LuojiOs.realloc (σ.ptr (b.start + 16)) newsize σ = .ok r)
    (hnull : r.1 ≠ 0) (hgrow : b.stop < b.start + 16 + (rtAlign newsize).toNat) :
    b.stop - (b.start + 16) + (rtAlign newsize).toNat < 2 ^ 32 := by
  have hbmem : b ∈ as ++ b :: bs := by simp
  have hgeo := h.shape.geometry.room
  have hble := h.shape.stop_le hbmem
  cases h.realloc hb hroom hr with
  | fails => exact absurd rfl hnull
  | frees => exact absurd rfl hnull
  | stays => omega
  | shrinks => omega
  | @moves σ' as₁ cs as₂ bs₂ bs' c f₁ f' hn hsplit hfree hfit =>
      have hcmem : c ∈ as ++ b :: bs := by
        rw [hsplit]
        simp
      have hcle := h.shape.stop_le hcmem
      unfold Heap.endOff at hble hcle
      rcases h.shape.tiles.apart hbmem hcmem with rfl | hlt | hlt
      · simp [hb] at hfree
      · omega
      · omega

end Sizes

namespace HeapSys

/-! ## Owning a block -/

def Sound (s : HeapSys) : Prop := ∃ bs f, Holds Covers s bs f

/-- The block at `p` was asked for with `n` bytes, and begins with the bytes `l`. -/
structure Owns (s : HeapSys) (p : BitVec 32) (n : ℕ) (l : List (BitVec 8)) : Prop where
  live : ⟨p, n⟩ ∈ s.live
  le : l.length ≤ n
  snug : (s.heap.payload p).toNat < n + 64
  reads : s.heap.bytes.Reads p.toNat l

/-- The contents of the memory are `m` now. -/
def withBytes (m : Bytes) (s : HeapSys) : HeapSys := ⟨{ s.heap with bytes := m }, s.live⟩

/-! ## The calls of a thread that looks at no result

A thread that uses the pointer as it is goes on only if there is a block. -/

def mallocs (size : BitVec 32) (s : HeapSys) : Option (BitVec 32 × HeapSys) :=
  (LuojiOs.malloc size s.heap).toOption.bind fun r =>
    if r.1 = 0 then none else some (r.1, ⟨r.2, give r.1 size.toNat s.live⟩)

def reallocs (rmem newsize : BitVec 32) (s : HeapSys) : Option (BitVec 32 × HeapSys) :=
  (LuojiOs.realloc rmem newsize s.heap).toOption.bind fun r =>
    if r.1 = 0 then none else some (r.1, ⟨r.2, s.exchange rmem newsize r.1⟩)

def frees (rmem : BitVec 32) (s : HeapSys) : Option HeapSys :=
  (LuojiOs.free rmem s.heap).toOption.map fun σ => ⟨σ, s.drop rmem⟩

section Rules

variable {s s' : HeapSys} {e : HeapEvent} {p q size newsize : BitVec 32} {k n : ℕ}
  {d l : List (BitVec 8)} {m : Bytes}

theorem mallocs_cases (h : s.mallocs size = some (p, s')) :
    p ≠ 0 ∧ LuojiOs.malloc size s.heap = .ok (p, s'.heap) ∧ s'.live = ⟨p, size.toNat⟩ :: s.live ∧
      s.step (.malloc size) = some s' := by
  unfold mallocs at h
  obtain ⟨r, hr, h⟩ := Option.bind_eq_some_iff.mp h
  split at h
  · cases h
  · next hnull =>
    obtain ⟨rfl, rfl⟩ := Prod.mk.inj (Option.some.inj h)
    refine ⟨hnull, ok_of_toOption hr, if_neg hnull, ?_⟩
    simp only [step, hr, Option.map_some]

theorem reallocs_cases (h : s.reallocs p newsize = some (q, s')) (hp : p ∈ s.live.map Live.addr) :
    q ≠ 0 ∧ LuojiOs.realloc p newsize s.heap = .ok (q, s'.heap) ∧
      s'.live = ⟨q, newsize.toNat⟩ :: s.drop p ∧ s.step (.realloc p newsize) = some s' := by
  unfold reallocs at h
  obtain ⟨r, hr, h⟩ := Option.bind_eq_some_iff.mp h
  split at h
  · cases h
  · next hnull =>
    obtain ⟨rfl, rfl⟩ := Prod.mk.inj (Option.some.inj h)
    have hlive : s.exchange p newsize r.1 = ⟨r.1, newsize.toNat⟩ :: s.drop p := by
      unfold exchange
      rw [if_neg fun hfail => hnull hfail.1]
      exact if_neg hnull
    refine ⟨hnull, ok_of_toOption hr, hlive, ?_⟩
    simp only [step, if_pos hp, hr, Option.map_some]

/-- A block stays live unless an event is about it. -/
theorem mem_live_of_step (hs : s.step e = some s') {a : Live} (ha : a ∈ s.live)
    (hne : e.subject ≠ some a.addr) : a ∈ s'.live := by
  have hgive : ∀ (q : BitVec 32) (n : ℕ) (ls : List Live), a ∈ ls → a ∈ give q n ls := by
    intro q n ls hmem
    unfold give
    split
    · exact hmem
    · exact List.mem_cons_of_mem _ hmem
  have hdrop : ∀ q, some q ≠ some a.addr → a ∈ s.drop q := by
    intro q hq
    refine List.mem_filter.mpr ⟨ha, ?_⟩
    exact decide_eq_true fun heq => hq (congrArg some heq.symm)
  cases steps_of_step hs with
  | malloc => exact hgive _ _ _ ha
  | calloc => exact hgive _ _ _ ha
  | realloc =>
      unfold exchange
      split
      · exact ha
      · exact hgive _ _ _ (hdrop _ hne)
  | free => exact hdrop _ hne
  | store => exact ha

theorem Sound.step (h : s.Sound) (he : e.Fits) (hs : s.step e = some s') : s'.Sound := by
  obtain ⟨bs, f, h⟩ := h
  exact h.step he.grants hs

theorem Owns.nil (ho : s.Owns p n l) : s.Owns p n [] := ⟨ho.live, Nat.zero_le _, ho.snug, trivial⟩

/-- Whatever the others call, a block stays as it is. -/
theorem Owns.kept (ho : s.Owns p n l) (h : s.Sound) (he : e.Fits) (hs : s.step e = some s')
    (hne : e.subject ≠ some p) : s'.Owns p n l := by
  obtain ⟨bs, f, h⟩ := h
  obtain ⟨keep, bs', f', hleaves, hkeep⟩ := h.exists_leaves (l := ⟨p, n⟩) he.grants hs hne
  have hpayload := h.payload_kept hleaves ho.live hkeep
  have hsame := h.samePayload hleaves ho.live hkeep
  have henough := h.safe.enough _ ho.live
  dsimp only at hpayload hsame henough
  refine ⟨mem_live_of_step hs ho.live hne, ho.le, ?_, ?_⟩
  · rw [hpayload]
    exact ho.snug
  · have hle := ho.le
    exact ho.reads.congr fun i hi => hsame i (by omega)

/-- A block lies in the heap. -/
theorem Owns.bound (ho : s.Owns p n l) (h : s.Sound) : p.toNat + n < 2 ^ 32 := by
  obtain ⟨bs, f, h⟩ := h
  have henough := h.safe.enough _ ho.live
  have hinside := h.safe.inside _ ho.live
  have hend := s.heap.heapEnd.isLt
  dsimp only at henough hinside
  omega

/-- A block that was given out is none of the others. -/
theorem Sound.addr_ne (h : s.Sound) {a c : Live} {ls : List Live} (hlive : s.live = a :: ls)
    (hc : c ∈ ls) : c.addr ≠ a.addr := by
  obtain ⟨bs, f, h⟩ := h
  have hnodup := h.nodup
  rw [hlive, List.map_cons, List.nodup_cons] at hnodup
  intro heq
  exact hnodup.1 (List.mem_map.mpr ⟨c, hc, heq⟩)

/-! ## The rules -/

theorem mallocs_spec (h : s.Sound) (hfit : size.toNat + 7 < 2 ^ 32)
    (hr : s.mallocs size = some (p, s')) :
    s'.Sound ∧ s'.Owns p size.toNat [] ∧ ∀ q n l, s.Owns q n l → s'.Owns q n l ∧ q ≠ p := by
  obtain ⟨hnull, hmalloc, hlive, hstep⟩ := mallocs_cases hr
  have hfits : (HeapEvent.malloc size).Fits := hfit
  have hsound := h.step hfits hstep
  obtain ⟨bs, f, harena⟩ := h
  have hsnug := harena.arena.malloc_snug hmalloc hnull
  refine ⟨hsound, ?_, ?_⟩
  · exact ⟨by rw [hlive]; exact List.mem_cons_self, Nat.zero_le _, hsnug, trivial⟩
  · intro q n l ho
    exact ⟨ho.kept ⟨bs, f, harena⟩ hfits hstep nofun, hsound.addr_ne hlive ho.live⟩

theorem reallocs_spec (h : s.Sound) (ho : s.Owns p n l) (hfit : newsize.toNat + 7 < 2 ^ 32)
    (hl : l.length ≤ newsize.toNat) (hr : s.reallocs p newsize = some (q, s')) :
    s'.Sound ∧ s'.Owns q newsize.toNat l ∧
      ∀ p' k d, p' ≠ p → s.Owns p' k d → s'.Owns p' k d ∧ p' ≠ q := by
  have hp : p ∈ s.live.map Live.addr := List.mem_map_of_mem ho.live
  obtain ⟨hnull, hrealloc, hlive, hstep⟩ := reallocs_cases hr hp
  have hfits : (HeapEvent.realloc p newsize).Fits := hfit
  have hsound := h.step hfits hstep
  obtain ⟨bs, f, harena⟩ := h
  refine ⟨hsound, ?_, ?_⟩
  · have henough := harena.safe.enough _ ho.live
    have hle := ho.le
    have hcopies := (harena.reallocs hp hfit hrealloc).copies hnull
    dsimp only at henough hcopies
    refine ⟨by rw [hlive]; exact List.mem_cons_self, hl, ?_, ?_⟩
    · obtain ⟨as, b, cs, rfl, hused, hroom, rfl⟩ := harena.exists_block hp
      have hsnug := harena.arena.realloc_snug hused hroom hrealloc hnull
      exact hsnug
    · exact ho.reads.congr fun i hi => hcopies i (by omega)
  · intro p' k d hne hd
    have hother : (HeapEvent.realloc p newsize).subject ≠ some p' := by
      intro heq
      exact hne (Option.some.inj heq).symm
    have hdrop : ⟨p', k⟩ ∈ s.drop p := List.mem_filter.mpr ⟨hd.live, decide_eq_true hne⟩
    exact ⟨hd.kept ⟨bs, f, harena⟩ hfits hstep hother, hsound.addr_ne hlive hdrop⟩

/-- A block that grows has room twice. -/
theorem reallocs_room (h : s.Sound) (ho : s.Owns p n l) (hgrow : n + 64 ≤ newsize.toNat)
    (hfit : newsize.toNat + 7 < 2 ^ 32) (hr : s.reallocs p newsize = some (q, s')) :
    n + newsize.toNat < 2 ^ 32 := by
  have hp : p ∈ s.live.map Live.addr := List.mem_map_of_mem ho.live
  obtain ⟨hnull, hrealloc, -, -⟩ := reallocs_cases hr hp
  obtain ⟨bs, f, h⟩ := h
  have henough := h.safe.enough _ ho.live
  have hsnug := ho.snug
  have halign := le_rtAlign hfit
  dsimp only at henough
  obtain ⟨as, b, cs, rfl, hused, hroom, rfl⟩ := h.exists_block hp
  rw [h.arena.shape.toNat_payload (by simp)] at henough hsnug
  have htwice := h.arena.realloc_room hused hroom hrealloc hnull (by omega)
  omega

theorem frees_spec (h : s.Sound) (ho : s.Owns p n l) (hr : s.frees p = some s') :
    s'.Sound ∧ ∀ q k d, q ≠ p → s.Owns q k d → s'.Owns q k d := by
  have hp : p ∈ s.live.map Live.addr := List.mem_map_of_mem ho.live
  have hstep : s.step (.free p) = some s' := by
    simp only [step, if_pos hp]
    exact hr
  have hfits : (HeapEvent.free p).Fits := trivial
  refine ⟨h.step hfits hstep, ?_⟩
  intro q k d hne hd
  apply hd.kept h hfits hstep
  intro heq
  exact hne (Option.some.inj heq).symm

/-- Writing to a block leaves the other ones alone. -/
theorem withBytes_spec (h : s.Sound) (ho : s.Owns p n l) (hd : d.length ≤ n)
    (hm : ∀ x, x < p.toNat ∨ p.toNat + n ≤ x → m x = s.heap.bytes x) (hreads : m.Reads p.toNat d) :
    (s.withBytes m).Sound ∧ (s.withBytes m).Owns p n d ∧
      ∀ q k d, q ≠ p → s.Owns q k d → (s.withBytes m).Owns q k d := by
  obtain ⟨bs, f, h⟩ := h
  have henough := h.safe.enough _ ho.live
  dsimp only at henough
  obtain ⟨h', hpayload, b, -, haddr, hleaves⟩ := h.leaves_write ho.live (m := m)
    fun x hx => hm x (by dsimp only at hx; omega)
  refine ⟨⟨bs, f, h'⟩, ⟨ho.live, hd, ?_, hreads⟩, ?_⟩
  · exact (hpayload _ ho.live) ▸ ho.snug
  · intro q k d hne hq
    have hsame := h.samePayload hleaves hq.live (by
      rintro u - hq rfl
      exact hne (hq.trans haddr.symm))
    have henough := h.safe.enough _ hq.live
    dsimp only at hsame henough
    refine ⟨hq.live, hq.le, (hpayload _ hq.live) ▸ hq.snug, ?_⟩
    have hle := hq.le
    exact hq.reads.congr fun i hi => hsame i (by omega)

end Rules

end HeapSys

end LuojiOs
