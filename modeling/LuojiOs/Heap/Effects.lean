import LuojiOs.Heap.Release

/-!
# The effects of the heap calls

What a caller may know of a call: the used blocks it does not pass to the call stay where
they are with what is in them, and a block it is given is a used block that was not among
them.
-/

namespace LuojiOs

open Tiling

/-- The heap has become `σ'` with the blocks `bs'`.  The used blocks in `keep` are still
there, and so is what was written to them. -/
structure Leaves (keep : Block → Prop) (σ σ' : Heap) (bs bs' : List Block) (f' : ℕ) : Prop where
  arena : Arena σ' bs' f'
  place : SamePlace σ σ'
  stays : ∀ u ∈ bs, u.used = true → keep u → u ∈ bs' ∧ PayloadKept u σ σ'

/-- The pointer `p` is the payload of a used block of at least `n` bytes, none of those in
`keep`. -/
structure Gives (keep : Block → Prop) (n : ℕ) (σ' : Heap) (bs bs' : List Block) (p : BitVec 32)
    (d : Block) : Prop where
  mem : d ∈ bs'
  used : d.used = true
  room : d.start + 16 + n ≤ d.stop
  addr : p = σ'.ptr (d.start + 16)
  new : ∀ u ∈ bs, u.used = true → keep u → u.start ≠ d.start

section Effects

variable {keep : Block → Prop} {σ σ' : Heap} {as bs bs' cs : List Block} {b c d u : Block}
  {f f' n : ℕ} {p size newsize : BitVec 32} {r : BitVec 32 × Heap}

theorem ne_of_used (hu : u.used = true) (hc : c.used = false) : u ≠ c := by
  rintro rfl
  simp [hu] at hc

/-- The block that is given out has a start of its own. -/
theorem Arena.gives_taken (h : Arena σ bs f) (hbs : bs = as ++ c :: cs) (hfree : c.used = false)
    (hfit : c.start + 16 + n ≤ c.stop) (hplace : SamePlace σ σ') :
    ∃ d, Gives (fun _ => True) n σ' bs (as ++ (taken n c ++ cs)) (σ.ptr (c.start + 16)) d := by
  obtain ⟨d, hd, hused, hstart, hstop⟩ := exists_mem_taken hfit
  have hcmem : c ∈ bs := by
    rw [hbs]
    simp
  refine ⟨d, by simp [hd], hused, by omega, ?_, ?_⟩
  · rw [hplace.ptr_eq, hstart]
  · intro u hu huused _ heq
    have huc := h.shape.tiles.eq_of_start hu hcmem (heq.trans hstart)
    exact ne_of_used huused hfree huc

theorem Arena.leaves_malloc (h : Arena σ bs f) (hr : LuojiOs.malloc size σ = .ok r) :
    ∃ bs' f', Leaves (fun _ => True) σ r.2 bs bs' f' ∧
      (r.1 ≠ 0 → ∃ d, Gives (fun _ => True) (searchSize size).toNat r.2 bs bs' r.1 d) := by
  cases h.malloc hr with
  | none harena hplace hbytes =>
      refine ⟨bs, f, ⟨harena, hplace, ?_⟩, fun hne => absurd rfl hne⟩
      intro u hu _ _
      refine ⟨hu, ?_⟩
      intro x _ _
      rw [hbytes]
  | some hbs hfree hfit hnext harena hplace hkeeps =>
      refine ⟨_, _, ⟨harena, hplace, ?_⟩, fun _ => h.gives_taken hbs hfree hfit hplace⟩
      intro u hu hused _
      have hne := ne_of_used hused hfree
      exact ⟨mem_replaced (hbs ▸ hu) hne, hkeeps u hu hne⟩

/-! ## `calloc` -/

/-- `rt_memset` on a part of the payload of a block. -/
theorem Arena.fill {i k : ℕ} {v : BitVec 8} (h : Arena σ bs f) (hd : d ∈ bs)
    (hk : d.start + 16 + i + k ≤ d.stop) :
    let σ' := { σ with bytes := Bytes.fill σ.bytes ((σ.ptr (d.start + 16)).toNat + i) v k }
    Arena σ' bs f ∧ ∀ u ∈ bs, u ≠ d → PayloadKept u σ σ' := by
  have hle := h.shape.stop_le hd
  have hm : ∀ x, x < σ.heapPtr.toNat + (d.start + 16) ∨ σ.heapPtr.toNat + d.stop ≤ x →
      Bytes.fill σ.bytes ((σ.ptr (d.start + 16)).toNat + i) v k x = σ.bytes x := by
    intro x hx
    apply Bytes.fill_of_outside
    rw [h.shape.geometry.toNat_ptr (by omega)]
    omega
  refine ⟨h.writePayload hd hm, ?_⟩
  intro u hu hne
  exact h.shape.keeps_writePayload hd hu hne hm

/-- A size that can be aligned fits into the block that `malloc` looks for. -/
theorem le_searchSize (h : size.toNat + 7 < 2 ^ 32) : size.toNat ≤ (searchSize size).toNat := by
  have halign := toNat_rtAlign size
  have h16 : MIN_SIZE_ALIGNED.toNat = 16 := rfl
  unfold searchSize
  split
  · next hlt =>
    rw [BitVec.lt_def, h16] at hlt
    omega
  · omega

theorem Arena.leaves_calloc {count : BitVec 32} (h : Arena σ bs f)
    (hfit : (count * size).toNat + 7 < 2 ^ 32) (hr : LuojiOs.calloc count size σ = .ok r) :
    ∃ bs' f', Leaves (fun _ => True) σ r.2 bs bs' f' ∧
      (r.1 ≠ 0 →
        ∃ d, Gives (fun _ => True) (searchSize (count * size)).toNat r.2 bs bs' r.1 d) := by
  obtain ⟨p, σ₁, hmalloc, hr⟩ := calloc_cases hr
  obtain ⟨bs', f', hleaves, hgives⟩ := h.leaves_malloc hmalloc
  rcases hr with ⟨rfl, rfl⟩ | ⟨hp, rfl⟩
  · exact ⟨bs', f', hleaves, fun hne => absurd rfl hne⟩
  · dsimp only at hleaves hgives
    obtain ⟨d, hd⟩ := hgives hp
    obtain rfl := hd.addr
    have hroom := hd.room
    have hsize := le_searchSize hfit
    obtain ⟨harena, hkeeps⟩ := hleaves.arena.fill (i := 0) (k := (count * size).toNat) (v := 0)
      hd.mem (by omega)
    refine ⟨bs', f', ⟨harena, hleaves.place.trans ⟨rfl, rfl, rfl⟩, ?_⟩, fun _ => ⟨d, ?_⟩⟩
    · intro u hu hused _
      obtain ⟨hmem, hkeep⟩ := hleaves.stays u hu hused trivial
      refine ⟨hmem, hkeep.trans hleaves.place.heapPtr (hkeeps u hmem ?_)⟩
      rintro rfl
      exact hd.new u hu hused trivial rfl
    · exact ⟨hd.mem, hd.used, hd.room, rfl, hd.new⟩

/-! ## `free` and `realloc` -/

theorem Arena.leaves_free (h : Arena σ (as ++ b :: bs) f)
    (hr : LuojiOs.free (σ.ptr (b.start + 16)) σ = .ok σ') :
    ∃ bs' f', Leaves (· ≠ b) σ σ' (as ++ b :: bs) bs' f' := by
  obtain ⟨bs', f', hplug, harena, hplace, hkeeps⟩ := h.free hr
  refine ⟨bs', f', harena, hplace, ?_⟩
  intro u hu hused hne
  exact ⟨hplug.mem_of_ne hu hused hne, hkeeps u hu hused hne⟩

/-- The block that `realloc` has moved to. -/
theorem Shape.mem_moved {as₁ as₂ bs₂ : List Block} {g f₁ : ℕ} (h : Shape σ (as ++ b :: bs))
    (hb : b.used = true) (hsplit : as ++ b :: bs = as₁ ++ c :: cs) (hfree : c.used = false)
    (hsplit₂ : as₁ ++ (taken n c ++ cs) = as₂ ++ b :: bs₂)
    (hplug : Plugged as₂ ⟨b.start, b.stop, false⟩ bs₂ f₁ bs' g) (hd : d ∈ taken n c)
    (hused : d.used = true) (hstart : d.start = c.start) : d ∈ bs' := by
  have hcmem : c ∈ as ++ b :: bs := by
    rw [hsplit]
    simp
  apply hplug.mem_of_ne ?_ hused
  · rintro rfl
    have heq := h.tiles.eq_of_start (by simp) hcmem hstart
    exact ne_of_used hb hfree heq
  · rw [← hsplit₂]
    simp [hd]

/-- `realloc` passes on what the smaller of the two blocks has room for, or returns `NULL`
and has changed nothing, unless the size is zero. -/
theorem Arena.leaves_realloc (h : Arena σ (as ++ b :: bs) f) (hb : b.used = true)
    (hroom : b.start + 16 < b.stop)
    (hr : LuojiOs.realloc (σ.ptr (b.start + 16)) newsize σ = .ok r) :
    ∃ bs' f', Leaves (· ≠ b) σ r.2 (as ++ b :: bs) bs' f' ∧
      (r.1 = 0 → rtAlign newsize ≠ 0 → r.2.bytes = σ.bytes ∧ b ∈ bs') ∧
      (r.1 ≠ 0 → rtAlign newsize ≠ 0 ∧
        ∃ d, Gives (· ≠ b) (rtAlign newsize).toNat r.2 (as ++ b :: bs) bs' r.1 d ∧
          ∀ i < min (b.stop - (b.start + 16)) (rtAlign newsize).toNat,
            r.2.bytes (σ.heapPtr.toNat + (d.start + 16 + i)) =
              σ.bytes (σ.heapPtr.toNat + (b.start + 16 + i))) := by
  have hbmem : b ∈ as ++ b :: bs := by simp
  have hble := h.shape.stop_le hbmem
  have hnull : σ.ptr (b.start + 16) ≠ 0 := h.shape.geometry.ptr_ne_zero (by omega)
  have hstart : ∀ u ∈ as ++ b :: bs, u ≠ b → u.start ≠ b.start := by
    intro u hu hub heq
    exact hub (h.shape.tiles.eq_of_start hu hbmem heq)
  have hzero : (rtAlign newsize).toNat ≠ 0 → rtAlign newsize ≠ 0 := by
    rintro hn heq
    exact hn (congrArg BitVec.toNat heq)
  cases h.realloc hb hroom hr with
  | fails hn harena hplace hbytes =>
      refine ⟨_, _, ⟨harena, hplace, ?_⟩, fun _ _ => ⟨hbytes, hbmem⟩, fun hne => absurd rfl hne⟩
      intro u hu _ _
      refine ⟨hu, ?_⟩
      intro x _ _
      rw [hbytes]
  | frees hn hplug harena hplace hkeeps =>
      refine ⟨_, _, ⟨harena, hplace, ?_⟩, ?_, fun hne => absurd rfl hne⟩
      · intro u hu hused hub
        exact ⟨hplug.mem_of_ne hu hused hub, hkeeps u hu hused hub⟩
      · intro _ hne
        exact absurd (BitVec.eq_of_toNat_eq hn) hne
  | stays hsize harena hplace hbytes =>
      refine ⟨_, _, ⟨harena, hplace, ?_⟩, fun hc => absurd hc hnull, fun _ => ⟨?_, b, ?_, ?_⟩⟩
      · intro u hu _ _
        refine ⟨hu, ?_⟩
        intro x _ _
        rw [hbytes]
      · exact hzero (by omega)
      · exact ⟨hbmem, hb, by omega, (hplace.ptr_eq _).symm, fun u hu _ hub => hstart u hu hub⟩
      · intro i _
        rw [hbytes]
  | @shrinks _ bs' f' hn hcut hplug harena hplace hkeeps =>
      have hdmem : ⟨b.start, b.start + 16 + (rtAlign newsize).toNat, true⟩ ∈ bs' := by
        rw [hplug.mem_used_iff rfl rfl]
        simp
      refine ⟨_, _, ⟨harena, hplace, ?_⟩, fun hc => absurd hc hnull, fun _ => ⟨hzero hn,
        ⟨b.start, b.start + 16 + (rtAlign newsize).toNat, true⟩, ?_, ?_⟩⟩
      · intro u hu hused hub
        have hmem : u ∈ as ++ ([⟨b.start, b.start + 16 + (rtAlign newsize).toNat, true⟩,
            ⟨b.start + 16 + (rtAlign newsize).toNat, b.stop, false⟩] ++ bs) :=
          mem_replaced hu hub
        have hmem' : u ∈ as ++ ([⟨b.start, b.start + 16 + (rtAlign newsize).toNat, true⟩] ++ bs) :=
          mem_replaced hu hub
        rw [hplug.mem_used_iff rfl hused, List.append_assoc]
        exact ⟨hmem, hkeeps u hmem' hused⟩
      · exact ⟨hdmem, rfl, Nat.le_refl _, (hplace.ptr_eq _).symm,
          fun u hu _ hub => hstart u hu hub⟩
      · intro i hi
        have hlo : b.start + 16 ≤ b.start + 16 + i := by omega
        have hhi : b.start + 16 + i < b.start + 16 + (rtAlign newsize).toNat := by omega
        exact hkeeps ⟨b.start, b.start + 16 + (rtAlign newsize).toNat, true⟩ (by simp) rfl
          (b.start + 16 + i) hlo hhi
  | @moves σ' as₁ cs as₂ bs₂ bs' c f₁ f' hn hsplit hfree hfit hnext hsplit₂ hplug harena hplace
      hkeeps hcopy =>
      have hcmem : c ∈ as ++ b :: bs := by
        rw [hsplit]
        simp
      have hcle := h.shape.stop_le hcmem
      obtain ⟨d, hd, hdused, hdstart, hdstop⟩ := exists_mem_taken hfit
      have hnew : ∀ u ∈ as ++ b :: bs, u.used = true → u.start ≠ d.start := by
        intro u hu hused heq
        have huc := h.shape.tiles.eq_of_start hu hcmem (heq.trans hdstart)
        exact ne_of_used hused hfree huc
      have hdmem : d ∈ bs' := h.shape.mem_moved hb hsplit hfree hsplit₂ hplug hd hdused hdstart
      have hptr : σ.ptr (c.start + 16) = σ'.ptr (d.start + 16) := by
        rw [hplace.ptr_eq, hdstart]
      refine ⟨_, _, ⟨harena, hplace, ?_⟩, ?_, fun _ => ⟨hzero hn, d, ?_, ?_⟩⟩
      · intro u hu hused hub
        refine ⟨?_, hkeeps u hu hused hub⟩
        apply hplug.mem_of_ne ?_ hused hub
        rw [← hsplit₂]
        exact mem_replaced (hsplit ▸ hu) (ne_of_used hused hfree)
      · intro hc
        exact absurd hc (h.shape.geometry.ptr_ne_zero (by omega))
      · exact ⟨hdmem, hdused, by omega, hptr, fun u hu hused _ => hnew u hu hused⟩
      · intro i hi
        rw [hdstart]
        exact hcopy i hi

end Effects

end LuojiOs
