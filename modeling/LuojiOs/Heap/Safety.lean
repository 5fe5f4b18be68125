import LuojiOs.Heap.Live

/-!
# The blocks that the heap gives out

As long as every size that is asked for can be aligned without a carry out of 32 bits, the
live blocks are as large as was asked for, lie apart from each other and from all headers,
and keep what is written to them.
-/

namespace LuojiOs

open Tiling

/-! ## Safety -/

namespace HeapSys

/-- What a program relies on in a state of the heap. -/
structure Safe (s : HeapSys) : Prop where
  aligned : ∀ l ∈ s.live, l.addr.toNat % 8 = 0
  enough : ∀ l ∈ s.live, l.size ≤ (s.heap.payload l.addr).toNat
  inside : ∀ l ∈ s.live, s.heap.heapPtr.toNat + 16 ≤ l.addr.toNat ∧
    l.addr.toNat + (s.heap.payload l.addr).toNat ≤ s.heap.heapEnd.toNat
  /-- A payload has no byte in common with another payload or its header. -/
  apart : s.live.Pairwise fun l l' =>
    l.addr.toNat + (s.heap.payload l.addr).toNat + 16 ≤ l'.addr.toNat ∨
      l'.addr.toNat + (s.heap.payload l'.addr).toNat + 16 ≤ l.addr.toNat

/-- The payload at `p` is the same in the heap `σ'`. -/
def SamePayload (p : BitVec 32) (s : HeapSys) (σ' : Heap) : Prop :=
  ∀ i < (s.heap.payload p).toNat, σ'.bytes (p.toNat + i) = s.heap.bytes (p.toNat + i)

/-- What a program relies on in a call `realloc(rmem, newsize)` with the result `r`. -/
structure Reallocs (rmem newsize : BitVec 32) (s : HeapSys) (r : BitVec 32 × Heap) : Prop where
  copies : r.1 ≠ 0 → ∀ i < min (s.heap.payload rmem).toNat newsize.toNat,
    r.2.bytes (r.1.toNat + i) = s.heap.bytes (rmem.toNat + i)
  fails : r.1 = 0 → newsize ≠ 0 →
    s.exchange rmem newsize r.1 = s.live ∧ r.2.bytes = s.heap.bytes

end HeapSys

namespace HeapEvent

/-- The sizes that are asked for can be aligned, as numbers. -/
def Fits : HeapEvent → Prop
  | .malloc size => size.toNat + 7 < 2 ^ 32
  | .calloc count size => count.toNat * size.toNat + 7 < 2 ^ 32
  | .realloc _ newsize => newsize.toNat + 7 < 2 ^ 32
  | _ => True

/-- The block that is passed to a call or written to. -/
def subject : HeapEvent → Option (BitVec 32)
  | .realloc rmem _ => some rmem
  | .free rmem => some rmem
  | .store rmem _ _ => some rmem
  | _ => none

end HeapEvent

/-! ## Sizes -/

/-- The block has room for what was asked for. -/
def Covers (l : Live) (b : Block) : Prop := b.start + 16 + l.size ≤ b.stop

theorem le_rtAlign {size : BitVec 32} (h : size.toNat + 7 < 2 ^ 32) :
    size.toNat ≤ (rtAlign size).toNat := by
  have := toNat_rtAlign size
  omega

theorem HeapEvent.Fits.grants {e : HeapEvent} (he : e.Fits) : e.Grants Covers := by
  cases e with
  | malloc size =>
      intro p d hd
      have := le_searchSize he
      exact Nat.le_trans (by dsimp only; omega) hd
  | calloc count size =>
      have hmul : (count * size).toNat = count.toNat * size.toNat := by
        have hfit : count.toNat * size.toNat + 7 < 2 ^ 32 := he
        rw [BitVec.toNat_mul, Nat.mod_eq_of_lt (by omega)]
      have hfit : (count * size).toNat + 7 < 2 ^ 32 := by
        rw [hmul]
        exact he
      refine ⟨hfit, ?_⟩
      intro p d hd
      have := le_searchSize hfit
      exact Nat.le_trans (by dsimp only; omega) hd
  | realloc rmem newsize =>
      intro p d hd
      have := le_rtAlign he
      exact Nat.le_trans (by dsimp only; omega) hd
  | free rmem => trivial
  | store rmem i v => trivial

/-! ## States -/

section States

variable {P : Live → Block → Prop} {s s' : HeapSys} {bs : List Block} {b : Block} {f : ℕ}
  {e : HeapEvent} {l : Live}

theorem Holds.safe (h : Holds Covers s bs f) : s.Safe := by
  have hbase := h.arena.shape.geometry.base
  have hend : s.heap.heapEnd.toNat = s.heap.heapPtr.toNat + s.heap.endOff := by
    rw [h.arena.shape.geometry.heapEnd, h.arena.shape.geometry.toNat_ptr (Nat.le_refl _)]
  constructor
  · intro l hl
    obtain ⟨b, hb, -, -, haddr, -⟩ := h.live l hl
    obtain ⟨hnat, -, -, -⟩ := h.arena.payload_at hb
    have hal := h.arena.shape.aligned b hb
    rw [haddr, hnat]
    omega
  · intro l hl
    obtain ⟨b, hb, -, -, haddr, hcovers⟩ := h.live l hl
    obtain ⟨-, hsize, -, -⟩ := h.arena.payload_at hb
    unfold Covers at hcovers
    rw [haddr, hsize]
    omega
  · intro l hl
    obtain ⟨b, hb, -, -, haddr, -⟩ := h.live l hl
    obtain ⟨hnat, hsize, hroom, hle⟩ := h.arena.payload_at hb
    rw [haddr, hnat, hsize, hend]
    omega
  · have hne : s.live.Pairwise fun l l' => l.addr ≠ l'.addr := List.pairwise_map.mp h.nodup
    refine hne.imp_of_mem ?_
    intro l l' hl hl' hne
    obtain ⟨b, hb, -, -, haddr, -⟩ := h.live l hl
    obtain ⟨b', hb', -, -, haddr', -⟩ := h.live l' hl'
    obtain ⟨hnat, hsize, hroom, -⟩ := h.arena.payload_at hb
    obtain ⟨hnat', hsize', hroom', -⟩ := h.arena.payload_at hb'
    rw [haddr, haddr', hnat, hnat', hsize, hsize']
    rcases h.arena.shape.tiles.apart hb hb' with rfl | hlt | hlt
    · exact absurd (haddr.trans haddr'.symm) hne
    · exact Or.inl (by omega)
    · exact Or.inr (by omega)

/-! ## Steps -/

/-- A block that a call leaves alone keeps its payload. -/
theorem Holds.samePayload {keep : Block → Prop} {σ' : Heap} {bs' : List Block} {f' : ℕ}
    (h : Holds P s bs f) (hleaves : Leaves keep s.heap σ' bs bs' f') (hl : l ∈ s.live)
    (hkeep : ∀ u ∈ bs, l.addr = s.heap.ptr (u.start + 16) → keep u) :
    s.SamePayload l.addr σ' := by
  intro i hi
  obtain ⟨u, hu, hused, -, haddr, -⟩ := h.live l hl
  obtain ⟨hnat, hsize, hroom, -⟩ := h.arena.payload_at hu
  obtain ⟨-, hkeeps⟩ := hleaves.stays u hu hused (hkeep u hu haddr)
  rw [haddr, hsize] at hi
  rw [haddr, hnat, Nat.add_assoc]
  exact hkeeps (u.start + 16 + i) (by omega) (by omega)

/-- A block that a call leaves alone keeps its size. -/
theorem Holds.payload_kept {keep : Block → Prop} {σ' : Heap} {bs' : List Block} {f' : ℕ}
    (h : Holds P s bs f) (hleaves : Leaves keep s.heap σ' bs bs' f') (hl : l ∈ s.live)
    (hkeep : ∀ u ∈ bs, l.addr = s.heap.ptr (u.start + 16) → keep u) :
    σ'.payload l.addr = s.heap.payload l.addr := by
  obtain ⟨u, hu, hused, -, haddr, -⟩ := h.live l hl
  obtain ⟨hmem, -⟩ := hleaves.stays u hu hused (hkeep u hu haddr)
  apply BitVec.eq_of_toNat_eq
  rw [haddr, h.arena.shape.toNat_payload hu, ← hleaves.place.ptr_eq,
    hleaves.arena.shape.toNat_payload hmem]

/-- An event leaves all live blocks alone but the one it is about. -/
theorem Holds.exists_leaves (h : Holds P s bs f) (he : e.Grants P) (hs : s.step e = some s')
    (hne : e.subject ≠ some l.addr) :
    ∃ keep bs' f', Leaves keep s.heap s'.heap bs bs' f' ∧
      ∀ u ∈ bs, l.addr = s.heap.ptr (u.start + 16) → keep u := by
  cases HeapSys.steps_of_step hs with
  | malloc hr =>
      obtain ⟨bs', f', hleaves, -⟩ := h.arena.leaves_malloc hr
      exact ⟨_, bs', f', hleaves, fun _ _ _ => trivial⟩
  | calloc hr =>
      obtain ⟨bs', f', hleaves, -⟩ := h.arena.leaves_calloc he.1 hr
      exact ⟨_, bs', f', hleaves, fun _ _ _ => trivial⟩
  | realloc hlive hr =>
      obtain ⟨as, b, cs, rfl, hused, hroom, rfl⟩ := h.exists_block hlive
      obtain ⟨bs', f', hleaves, -⟩ := h.arena.leaves_realloc hused hroom hr
      refine ⟨_, bs', f', hleaves, ?_⟩
      rintro u hu haddr rfl
      exact hne (congrArg some haddr.symm)
  | free hlive hr =>
      obtain ⟨as, b, cs, rfl, hused, hroom, rfl⟩ := h.exists_block hlive
      obtain ⟨bs', f', hleaves⟩ := h.arena.leaves_free hr
      refine ⟨_, bs', f', hleaves, ?_⟩
      rintro u hu haddr rfl
      exact hne (congrArg some haddr.symm)
  | @store rmem i v hlive hi =>
      obtain ⟨l', hl', rfl⟩ := List.mem_map.mp hlive
      obtain ⟨-, -, b, -, haddr, hleaves⟩ := h.leaves_write hl'
        (m := Bytes.fill s.heap.bytes (l'.addr.toNat + i) v 1)
        fun x hx => Bytes.fill_of_outside (by omega)
      refine ⟨_, bs, f, hleaves, ?_⟩
      rintro u hu hladdr rfl
      exact hne (congrArg some (haddr.trans hladdr.symm))

theorem Holds.others_kept (h : Holds P s bs f) (he : e.Grants P) (hs : s.step e = some s')
    (hl : l ∈ s.live) (hne : e.subject ≠ some l.addr) : s.SamePayload l.addr s'.heap := by
  obtain ⟨keep, bs', f', hleaves, hkeep⟩ := h.exists_leaves he hs hne
  exact h.samePayload hleaves hl hkeep

theorem Holds.reallocs {rmem newsize : BitVec 32} {r : BitVec 32 × Heap} (h : Holds P s bs f)
    (hlive : rmem ∈ s.live.map Live.addr) (hfit : newsize.toNat + 7 < 2 ^ 32)
    (hr : LuojiOs.realloc rmem newsize s.heap = .ok r) : s.Reallocs rmem newsize r := by
  obtain ⟨as, b, cs, rfl, hused, hroom, rfl⟩ := h.exists_block hlive
  have hb : b ∈ as ++ b :: cs := by simp
  obtain ⟨bs', f', hleaves, hfails, hmoves⟩ := h.arena.leaves_realloc hused hroom hr
  have halign := le_rtAlign hfit
  obtain ⟨hnat, hsize, -, -⟩ := h.arena.payload_at hb
  constructor
  · intro hnull i hi
    obtain ⟨-, d, hd, hcopy⟩ := hmoves hnull
    have hroom := hd.room
    have hle := hleaves.arena.shape.stop_le hd.mem
    rw [hsize] at hi
    rw [hd.addr, hleaves.arena.shape.geometry.toNat_ptr (by omega), hleaves.place.heapPtr, hnat,
      Nat.add_assoc _ (d.start + 16), Nat.add_assoc _ (b.start + 16)]
    exact hcopy i (by omega)
  · intro hnull hne
    have hzero : rtAlign newsize ≠ 0 := by
      intro hzero
      have hnat : (rtAlign newsize).toNat = 0 := congrArg BitVec.toNat hzero
      exact hne (BitVec.eq_of_toNat_eq (show newsize.toNat = 0 by omega))
    exact ⟨if_pos ⟨hnull, hzero⟩, (hfails hnull hzero).1⟩

end States

/-! ## Runs -/

theorem holds_of_reach {s : HeapSys}
    (h : Runs.Reach HeapSys.step (fun _ e => e.Fits) HeapSys.Fresh s) :
    ∃ bs f, Holds Covers s bs f := by
  refine h.invariant (P := fun s => ∃ bs f, Holds Covers s bs f) ?_ ?_
  · intro s hs
    exact Holds.of_fresh hs
  · rintro s e s' ⟨bs, f, hs⟩ he hstep
    exact hs.step he.grants hstep

/-- In a run in which all sizes can be aligned the live blocks are safe, an event leaves all
live blocks alone but the one it is about, and `realloc` passes on what is in its block. -/
theorem heapCalls_safe {s : HeapSys}
    (h : Runs.Reach HeapSys.step (fun _ e => e.Fits) HeapSys.Fresh s) :
    s.Safe ∧
      (∀ e s', e.Fits → s.step e = some s' →
        ∀ l ∈ s.live, e.subject ≠ some l.addr → s.SamePayload l.addr s'.heap) ∧
      ∀ rmem newsize r, rmem ∈ s.live.map Live.addr → newsize.toNat + 7 < 2 ^ 32 →
        realloc rmem newsize s.heap = .ok r → s.Reallocs rmem newsize r := by
  obtain ⟨bs, f, hs⟩ := holds_of_reach h
  refine ⟨hs.safe, ?_, ?_⟩
  · intro e s' he hstep l hl hne
    exact hs.others_kept he.grants hstep hl hne
  · intro rmem newsize r hlive hfit hr
    exact hs.reallocs hlive hfit hr

/-! ## Runs on a small heap -/

instance : DecidablePred HeapEvent.Fits
  | .malloc size => inferInstanceAs (Decidable (size.toNat + 7 < 2 ^ 32))
  | .calloc count size => inferInstanceAs (Decidable (count.toNat * size.toNat + 7 < 2 ^ 32))
  | .realloc _ newsize => inferInstanceAs (Decidable (newsize.toNat + 7 < 2 ^ 32))
  | .free _ => inferInstanceAs (Decidable True)
  | .store _ _ _ => inferInstanceAs (Decidable True)

/-- Two blocks are given out, the second one moves, and the first one is given back. -/
theorem heapCalls_safe_moved :
    ∃ s, smallSys.bind (fun s => Runs.runChecked HeapSys.step (fun _ e => decide e.Fits) s
        [.malloc 20, .malloc 16, .store 0x1038 3 7, .realloc 0x1038 32, .free 0x1010]) = some s ∧
      s.live = [⟨0x1058, 32⟩] ∧ s.Safe := by
  obtain ⟨s, hs, hlive⟩ := Runs.exists_of_any (show (smallSys.bind fun s =>
      Runs.runChecked HeapSys.step (fun _ e => decide e.Fits) s
        [.malloc 20, .malloc 16, .store 0x1038 3 7, .realloc 0x1038 32, .free 0x1010]).any
      (fun s => decide (s.live = [⟨0x1058, 32⟩])) = true by decide)
  obtain ⟨s₀, hs₀, hrun⟩ := Option.bind_eq_some_iff.mp hs
  have hreach : Runs.Reach HeapSys.step (fun _ e => e.Fits) HeapSys.Fresh s := by
    have hstart : Runs.Reach HeapSys.step (fun _ e => decide e.Fits = true) HeapSys.Fresh s₀ :=
      .start (fresh_smallSys hs₀)
    exact (hstart.of_runChecked hrun).mono fun _ _ he => of_decide_eq_true he
  exact ⟨s, hs, of_decide_eq_true hlive, (heapCalls_safe hreach).1⟩

/-- A block is smaller than what was asked for. -/
def HeapSys.short (s : HeapSys) : Bool :=
  s.live.any fun l => (s.heap.payload l.addr).toNat < l.size

theorem HeapSys.not_safe_of_short {s : HeapSys} (h : s.short = true) : ¬s.Safe := by
  obtain ⟨l, hl, hlt⟩ := List.any_eq_true.mp h
  intro hsafe
  have := hsafe.enough l hl
  have := of_decide_eq_true hlt
  omega

/-- `malloc` and `calloc` return blocks that are too small, and `realloc` returns `NULL` and
gives its block back. -/
theorem heapCalls_unsafe :
    (∃ s, smallSys.bind (fun s => Runs.run HeapSys.step s [.malloc 0xffffffff]) = some s ∧
      ¬s.Safe) ∧
    (∃ s, smallSys.bind (fun s => Runs.run HeapSys.step s [.calloc 0x80000001 2]) = some s ∧
      ¬s.Safe) ∧
    ∃ s r, smallSys.bind (fun s => Runs.run HeapSys.step s [.malloc 64]) = some s ∧
      0x1010 ∈ s.live.map Live.addr ∧ realloc 0x1010 0xffffffff s.heap = .ok r ∧
      ¬s.Reallocs 0x1010 0xffffffff r := by
  refine ⟨?_, ?_, ?_⟩
  · obtain ⟨s, hs, hshort⟩ := Runs.exists_of_any (show (smallSys.bind fun s =>
      Runs.run HeapSys.step s [.malloc 0xffffffff]).any HeapSys.short = true by decide)
    exact ⟨s, hs, HeapSys.not_safe_of_short hshort⟩
  · obtain ⟨s, hs, hshort⟩ := Runs.exists_of_any (show (smallSys.bind fun s =>
      Runs.run HeapSys.step s [.calloc 0x80000001 2]).any HeapSys.short = true by decide)
    exact ⟨s, hs, HeapSys.not_safe_of_short hshort⟩
  · obtain ⟨s, hs, hcheck⟩ := Runs.exists_of_any (show (smallSys.bind fun s =>
      Runs.run HeapSys.step s [.malloc 64]).any (fun s => s.live.map Live.addr = [0x1010] ∧
        s.heap.bytes 0x1002 = 1 ∧ (realloc 0x1010 0xffffffff s.heap).toOption.any fun r =>
          r.1 = 0 ∧ r.2.bytes 0x1002 = 0) = true by decide)
    obtain ⟨hlive, hbefore, hr⟩ := of_decide_eq_true hcheck
    obtain ⟨r, hr, hafter⟩ := Runs.exists_of_any hr
    obtain ⟨hnull, hafter⟩ := of_decide_eq_true hafter
    refine ⟨s, r, hs, by rw [hlive]; simp, HeapSys.ok_of_toOption hr, ?_⟩
    intro hreallocs
    have hbytes := (hreallocs.fails hnull (by decide)).2
    rw [hbytes, hbefore] at hafter
    revert hafter
    decide

end LuojiOs
