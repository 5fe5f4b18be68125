import LuojiOs.Mtd.SkipBad

/-!
# Reading a partition in parts

`mtdfile_read` advances the position by the number of bytes it has read, and not by the bad
blocks that were skipped on the way.  The next read then begins in front of the place where the
last one ended.
-/

namespace LuojiOs

namespace Mtd

open Places

namespace Chip

variable {chip : Chip} {p : Mtdfile} {priv : Mtdpriv} {posn : ℤ} {a b n : ℕ} {flash : Flash}

/-- The addresses in good blocks of the partition, from a position of the file on. -/
def goodOf (chip : Chip) (p : Mtdfile) (priv : Mtdpriv) (posn : ℤ) : List ℕ :=
  places chip.good (flashAddr p priv posn).toNat (p.partOffset + p.partSize)

/-- Whatever the flash holds, reading `a` bytes and then `b` bytes yields the same bytes and ends
at the same position as reading `a + b` bytes, which are the next ones of the good blocks of the
partition. -/
def ReadsInParts (chip : Chip) (p : Mtdfile) (priv : Mtdpriv) (posn : ℤ) (a b : ℕ) : Prop :=
  ∀ flash, ∃ first second whole,
    chip.mtdfileRead p priv posn a flash = some first ∧
    chip.mtdfileRead p priv first.posn b first.flash = some second ∧
    chip.mtdfileRead p priv posn (a + b) flash = some whole ∧
    first.data ++ second.data = whole.data ∧ second.posn = whole.posn ∧
    whole.ret = a + b ∧ whole.data = ((chip.goodOf p priv posn).take (a + b)).map flash.bytes

theorem flashAddr_nonneg (p : Mtdfile) (priv : Mtdpriv) (hposn : 0 ≤ posn) :
    0 ≤ flashAddr p priv posn := by
  unfold flashAddr
  omega

theorem flashAddr_add (hposn : 0 ≤ posn) :
    (flashAddr p priv (posn + a)).toNat = (flashAddr p priv posn).toNat + a := by
  have hnonneg := flashAddr_nonneg p priv hposn
  unfold flashAddr at hnonneg ⊢
  omega

theorem clamp_of_le (h : posn + n ≤ priv.openSize) : clamp posn n priv.openSize = n :=
  if_neg (Int.not_lt.mpr h)

/-- Inside of the window the driver is asked for all the bytes. -/
theorem mtdfileRead_eq (hposn : 0 ≤ posn) (hfits : posn + n ≤ priv.openSize)
    (hret : (chip.nandReadSkipBad (flashAddr p priv posn).toNat n flash).ret ≤ 0) :
    chip.mtdfileRead p priv posn n flash =
      let r := chip.nandReadSkipBad (flashAddr p priv posn).toNat n flash
      some ⟨r.len, r.data, posn + r.len, r.flash⟩ := by
  have hnonneg := flashAddr_nonneg p priv hposn
  unfold mtdfileRead
  rw [clamp_of_le hfits]
  dsimp only
  rw [if_neg (by omega), if_neg (Int.not_lt.mpr hret)]

/-- The device has `n` good bytes from `offset` on, and they can be read. -/
def Serves (chip : Chip) (offset n : ℕ) : Prop :=
  n ≤ (chip.goodFrom offset).length ∧ ∀ x ∈ (chip.goodFrom offset).take n, chip.Readable x

theorem Serves.mono {offset m : ℕ} (h : chip.Serves offset n) (hm : m ≤ n) :
    chip.Serves offset m :=
  ⟨hm.trans h.1, fun x hx => h.2 x (List.take_subset_take_left _ hm hx)⟩

/-- A read that the device can serve. -/
theorem mtdfileRead_of_serves (hposn : 0 ≤ posn) (hfits : posn + n ≤ priv.openSize) (hn : n ≠ 0)
    (h : chip.Serves (flashAddr p priv posn).toNat n) (flash : Flash) :
    ∃ flash', flash'.bytes = flash.bytes ∧ chip.mtdfileRead p priv posn n flash =
      some ⟨n, ((chip.goodFrom (flashAddr p priv posn).toNat).take n).map flash.bytes, posn + n,
        flash'⟩ := by
  have hread := @delivers_nandReadSkipBad chip flash _ n h.1 hn
  obtain ⟨hret, hlen, hdata⟩ := hread.whole h.2
  rw [List.length_nil, Nat.zero_add, List.length_take, Nat.min_eq_left h.1] at hlen
  refine ⟨_, hread.reads.bytes, ?_⟩
  rw [mtdfileRead_eq hposn hfits hret.le]
  dsimp only
  rw [hlen, hdata]
  rfl

/-- If all the bytes are read, the device can serve them. -/
theorem serves_of_mtdfileRead {r : FileRead} (hposn : 0 ≤ posn)
    (hfits : posn + n ≤ priv.openSize) (hn : n ≠ 0)
    (hr : chip.mtdfileRead p priv posn n flash = some r) (hall : r.posn = posn + n ∨ r.ret = n) :
    chip.Serves (flashAddr p priv posn).toNat n := by
  rcases Nat.lt_or_ge (chip.goodFrom (flashAddr p priv posn).toNat).length n with hshort | hlength
  · have hnone := @nandReadSkipBad_of_short chip flash _ n hshort
    have hneg : (chip.nandReadSkipBad (flashAddr p priv posn).toNat n flash).ret ≤ 0 := by
      rw [hnone]
      exact Int.neg_nonpos_of_nonneg (by decide)
    rw [mtdfileRead_eq hposn hfits hneg, hnone] at hr
    cases hr
    rcases hall with hposn' | hret
    · dsimp only at hposn'
      omega
    · exact absurd hret.symm hn
  · have hread := @delivers_nandReadSkipBad chip flash _ n hlength hn
    rw [mtdfileRead_eq hposn hfits hread.ret_le] at hr
    cases hr
    refine ⟨hlength, hread.short ?_⟩
    rw [List.length_nil, Nat.zero_add, List.length_take, Nat.min_eq_left hlength]
    rcases hall with hposn' | hret
    · dsimp only at hposn'
      omega
    · exact hret

theorem lt_size_of_good (chip : Chip) (x : ℕ) (h : chip.good x = true) : x < chip.size := by
  unfold good at h
  exact of_decide_eq_true (Bool.and_eq_true_iff.mp h).1

/-- What the partition gives is what the device gives, if it is enough. -/
theorem take_goodOf (h : n ≤ (chip.goodOf p priv posn).length) :
    (chip.goodOf p priv posn).take n =
      (chip.goodFrom (flashAddr p priv posn).toNat).take n :=
  take_places_eq (lt_size_of_good chip) h

theorem serves_of_goodOf (h : n ≤ (chip.goodOf p priv posn).length)
    (hall : ∀ x ∈ (chip.goodOf p priv posn).take n, chip.Readable x) :
    chip.Serves (flashAddr p priv posn).toNat n := by
  have htake := take_goodOf h
  refine ⟨?_, htake ▸ hall⟩
  have hlength := congrArg List.length htake
  rw [List.length_take, List.length_take] at hlength
  omega

/-- What the device must have for a read in parts does not depend on what it holds. -/
theorem ReadsInParts.serves (ha : 0 < a) (hb : 0 < b) (hposn : 0 ≤ posn)
    (hfits : posn + a + b ≤ priv.openSize) (h : chip.ReadsInParts p priv posn a b) :
    chip.Serves (flashAddr p priv posn).toNat (a + b) ∧
      chip.Serves (flashAddr p priv (posn + a)).toNat b := by
  obtain ⟨first, second, whole, hfirst, hsecond, hwhole, -, hend, hret, -⟩ :=
    h ⟨fun _ => 0, []⟩
  have hserves := serves_of_mtdfileRead hposn (by omega) (by omega) hwhole (Or.inr hret)
  obtain ⟨flash₁, -, hfirst'⟩ := mtdfileRead_of_serves hposn (by omega) ha.ne'
    (hserves.mono (Nat.le_add_right a b)) ⟨fun _ => 0, []⟩
  obtain ⟨flash₂, -, hwhole'⟩ := mtdfileRead_of_serves hposn (by omega) (by omega) hserves
    ⟨fun _ => 0, []⟩
  cases Option.some.inj (hfirst.symm.trans hfirst')
  cases Option.some.inj (hwhole.symm.trans hwhole')
  refine ⟨hserves, serves_of_mtdfileRead (by omega) (by omega) hb.ne' hsecond (Or.inl ?_)⟩
  refine hend.trans ?_
  push_cast
  omega

/-- Where the device serves both, reading in parts is a matter of the addresses. -/
theorem readsInParts_iff_of_serves (ha : 0 < a) (hb : 0 < b) (hposn : 0 ≤ posn)
    (hfits : posn + a + b ≤ priv.openSize)
    (hserves : chip.Serves (flashAddr p priv posn).toNat (a + b))
    (hserves' : chip.Serves (flashAddr p priv (posn + a)).toNat b) :
    chip.ReadsInParts p priv posn a b ↔
      (chip.goodFrom (flashAddr p priv posn).toNat).take a ++
          (chip.goodFrom (flashAddr p priv (posn + a)).toNat).take b =
        (chip.goodFrom (flashAddr p priv posn).toNat).take (a + b) ∧
      (chip.goodFrom (flashAddr p priv posn).toNat).take (a + b) =
        (chip.goodOf p priv posn).take (a + b) := by
  have hfirst := mtdfileRead_of_serves hposn (by omega) ha.ne'
    (hserves.mono (Nat.le_add_right a b))
  have hsecond := mtdfileRead_of_serves (by omega) (by omega) hb.ne' hserves'
  have hwhole := mtdfileRead_of_serves hposn (by omega) (by omega) hserves
  constructor
  · intro h
    have hmaps (f : ℕ → BitVec 8) :
        ((chip.goodFrom (flashAddr p priv posn).toNat).take a ++
            (chip.goodFrom (flashAddr p priv (posn + a)).toNat).take b).map f =
          ((chip.goodFrom (flashAddr p priv posn).toNat).take (a + b)).map f ∧
        ((chip.goodFrom (flashAddr p priv posn).toNat).take (a + b)).map f =
          ((chip.goodOf p priv posn).take (a + b)).map f := by
      obtain ⟨r₁, r₂, r, hr₁, hr₂, hr, hdata, -, -, hgoods⟩ := h ⟨f, []⟩
      obtain ⟨flash₁, hbytes₁, hfirst'⟩ := hfirst ⟨f, []⟩
      obtain ⟨flash', -, hwhole'⟩ := hwhole ⟨f, []⟩
      cases Option.some.inj (hr₁.symm.trans hfirst')
      cases Option.some.inj (hr.symm.trans hwhole')
      obtain ⟨flash₂, -, hsecond'⟩ := hsecond flash₁
      cases Option.some.inj (hr₂.symm.trans hsecond')
      dsimp only at hdata hgoods
      rw [hbytes₁, ← List.map_append] at hdata
      exact ⟨hdata, hgoods⟩
    have hbytes : Nontrivial (BitVec 8) := ⟨⟨0, 1, by decide⟩⟩
    exact ⟨eq_of_map_eq fun f => (hmaps f).1, eq_of_map_eq fun f => (hmaps f).2⟩
  · rintro ⟨haddrs, hgoods⟩ flash
    obtain ⟨flash₁, hbytes₁, hfirst'⟩ := hfirst flash
    obtain ⟨flash₂, -, hsecond'⟩ := hsecond flash₁
    obtain ⟨flash', -, hwhole'⟩ := hwhole flash
    refine ⟨_, _, _, hfirst', hsecond', hwhole', ?_, ?_, rfl, ?_⟩
    · dsimp only
      rw [hbytes₁, ← List.map_append, haddrs]
    · dsimp only
      push_cast
      omega
    · dsimp only
      rw [hgoods]

/-- Reading in parts is reading at once exactly if the first part meets no bad block, and the
partition has enough good bytes from the position on, which can be read. -/
theorem readsInParts_iff (ha : 0 < a) (hb : 0 < b) (hposn : 0 ≤ posn)
    (hfits : posn + a + b ≤ priv.openSize) :
    chip.ReadsInParts p priv posn a b ↔
      (∀ x, (flashAddr p priv posn).toNat ≤ x → x < (flashAddr p priv posn).toNat + a →
        chip.good x = true) ∧
      a + b ≤ (chip.goodOf p priv posn).length ∧
      ∀ x ∈ (chip.goodOf p priv posn).take (a + b), chip.Readable x := by
  have haddr := @flashAddr_add p priv posn a hposn
  constructor
  · intro h
    obtain ⟨hserves, hserves'⟩ := h.serves ha hb hposn hfits
    obtain ⟨haddrs, hgoods⟩ := (readsInParts_iff_of_serves ha hb hposn hfits hserves hserves').mp h
    rw [haddr] at haddrs
    refine ⟨(take_append_take_iff hb hserves.1).mp haddrs, ?_, hgoods ▸ hserves.2⟩
    have henough := congrArg List.length hgoods
    rw [List.length_take, List.length_take, Nat.min_eq_left hserves.1] at henough
    omega
  · rintro ⟨hgood, henough, hall⟩
    have hserves := serves_of_goodOf henough hall
    have haddrs : (chip.goodFrom (flashAddr p priv posn).toNat).take a ++
        (chip.goodFrom ((flashAddr p priv posn).toNat + a)).take b =
          (chip.goodFrom (flashAddr p priv posn).toNat).take (a + b) :=
      (take_append_take_iff hb hserves.1).mpr hgood
    have hserves' : chip.Serves (flashAddr p priv (posn + a)).toNat b := by
      rw [haddr]
      have hlength := congrArg List.length haddrs
      rw [List.length_append, List.length_take, List.length_take, List.length_take] at hlength
      have hle := hserves.1
      refine ⟨by omega, fun x hx => hserves.2 x ?_⟩
      rw [← haddrs]
      exact List.mem_append_right _ hx
    refine (readsInParts_iff_of_serves ha hb hposn hfits hserves hserves').mpr ⟨?_, ?_⟩
    · rw [haddr]
      exact haddrs
    · exact (take_goodOf henough).symm

/-- Twelve bytes of which the last four are bad. -/
theorem readsInParts_small :
    Chip.ReadsInParts ⟨1, 2, 4, by decide, by decide, by decide, (· = 2), fun _ => .clean,
      fun _ => false, fun _ => false⟩ ⟨1, 0, 12, 0, cstr "kernel"⟩ ⟨0, 0, 12⟩ 1 5 2 :=
  (readsInParts_iff (by decide) (by decide) (by decide) (by decide)).mpr
    ⟨by decide, by decide, by decide⟩

/-- The byte behind the bad block is read twice. -/
theorem readsInParts_fails_at_bad_block :
    ∃ priv mtdfiles p, mtdfileOpen (cstr "/dev/mtd0") ls1xPartitions = some (priv, mtdfiles) ∧
      mtdfiles[priv.file]? = some p ∧
        ¬(board (· = 1)).ReadsInParts p priv 0x1ffff 2 1 := by
  refine ⟨⟨0, 0, 14 * 1024 * 1024⟩, _, ⟨1, 0, 14 * 1024 * 1024, 0, cstr "kernel"⟩, rfl, rfl, ?_⟩
  intro h
  obtain ⟨first, second, whole, hfirst, hsecond, hwhole, hdata, -⟩ :=
    h ⟨fun x => BitVec.ofNat 8 x, []⟩
  have hparts : (((board (· = 1)).mtdfileRead ⟨1, 0, 14 * 1024 * 1024, 0, cstr "kernel"⟩
      ⟨0, 0, 14 * 1024 * 1024⟩ 0x1ffff 2 ⟨fun x => BitVec.ofNat 8 x, []⟩).bind fun r =>
        ((board (· = 1)).mtdfileRead ⟨1, 0, 14 * 1024 * 1024, 0, cstr "kernel"⟩
          ⟨0, 0, 14 * 1024 * 1024⟩ r.posn 1 r.flash).map fun r' => r.data ++ r'.data) =
      some [0xff, 0x00, 0x00] := by decide
  have hatOnce : ((board (· = 1)).mtdfileRead ⟨1, 0, 14 * 1024 * 1024, 0, cstr "kernel"⟩
      ⟨0, 0, 14 * 1024 * 1024⟩ 0x1ffff (2 + 1) ⟨fun x => BitVec.ofNat 8 x, []⟩).map (·.data) =
      some [0xff, 0x00, 0x01] := by decide
  rw [hfirst, Option.bind_some, hsecond, Option.map_some, hdata] at hparts
  rw [hwhole, Option.map_some, hparts] at hatOnce
  exact absurd hatOnce (by decide)

end Chip

end Mtd

end LuojiOs
