import LuojiOs.Fat.Sectors
import LuojiOs.Support.Runs

/-!
# The entries of the table

`getFatEntry` keeps one sector of the table in `FatBuffer`, and its number in `FatCacheNum`.  An
entry of FAT12 may lie in two sectors.  As long as the sectors can be read, every entry is the
one that is stored on the device, whatever was read before.
-/

namespace LuojiOs

namespace Fat

open Devfs

section Table

variable (usb : Usb) (device : ℕ) (fsc : FatSc)

/-! ## The table on the device -/

/-- Byte `i` of the table, which starts at the sector `ResSectors`. -/
def tableByte (i : ℕ) : ℕ :=
  (usb.content device ((fsc.partitionStart + fsc.resSectors) * SECTORSIZE + i)).toNat

/-- Entry `k` of the table: 12, 16 or 32 bits, packed in little endian order. -/
def tableEntry (k : ℕ) : ℕ :=
  let byte := tableByte usb device fsc
  match fsc.fatType with
  | .fat12 =>
    let pair := byte (k + k / 2) + 0x100 * byte (k + k / 2 + 1)
    if k % 2 = 0 then pair % 0x1000 else pair / 0x10
  | .fat16 => byte (2 * k) + 0x100 * byte (2 * k + 1)
  | .fat32 => byte (4 * k) + 0x100 * byte (4 * k + 1) + 0x10000 * byte (4 * k + 2) +
      0x1000000 * byte (4 * k + 3)
  | .unset => 0

/-- The sector `s` of the table. -/
def tableSector (s : ℕ) : List (BitVec 8) :=
  usb.bytes device ((fsc.partitionStart + fsc.resSectors + s) * SECTORSIZE) SECTORSIZE

end Table

/-! ## Reads of the table -/

variable {host : Host} {device s i k : ℕ} {fsc₀ fsc : FatSc} {vol vol' : Vol}

/-- The sector `s` of the table can be read into `FatBuffer`. -/
def SectorLoads (host : Host) (device s : ℕ) (vol : Vol) : Prop :=
  SectorsRead host device vol.fsc (int32 (s + vol.fsc.resSectors)) 1
    ⟨host.fatBufferAddr, vol.fsc.fatBuffer, 0⟩ vol.devs

/-- The same, if the sector has to be read. -/
def CacheLoads (host : Host) (device s : ℕ) (vol : Vol) : Prop :=
  uint32 vol.fsc.fatCacheNum ≠ s → SectorLoads host device s vol

/-- The reads of sectors in `getFatEntry` succeed. -/
def EntryLoads (host : Host) (device k : ℕ) (vol : Vol) : Prop :=
  match vol.fsc.fatType with
  | .fat12 =>
    let offset := (k - k % 2) * 3 / 2
    CacheLoads host device (offset / SECTORSIZE) vol ∧
      (SECTORSIZE ≤ offset % SECTORSIZE + 2 → SectorLoads host device (offset / SECTORSIZE + 1)
        (cacheFatSector host (offset / SECTORSIZE) vol).2)
  | .fat16 => CacheLoads host device (2 * k / SECTORSIZE) vol
  | .fat32 => CacheLoads host device (4 * k / SECTORSIZE) vol
  | .unset => True

/-- The number of reserved sectors has 16 bits, and nothing has been read yet. -/
structure NewTable (fsc : FatSc) : Prop where
  resSectors_lt : fsc.resSectors < 2 ^ 16
  length : fsc.fatBuffer.length = SECTORSIZE
  nothing : fsc.fatCacheNum = -1

/-! ## The cache -/

/-- The buffer holds the sector `s`. -/
structure Holds (usb : Usb) (device : ℕ) (fsc₀ fsc : FatSc) (s : ℕ) : Prop where
  number : fsc.fatCacheNum = s
  small : s < 2 ^ 22
  bytes : fsc.fatBuffer = tableSector usb device fsc₀ s

/-- The buffer holds what its number says, and the place of the table is still known. -/
structure Truthful (usb : Usb) (device : ℕ) (fsc₀ fsc : FatSc) : Prop where
  fd : fsc.fd = fsc₀.fd
  fatType : fsc.fatType = fsc₀.fatType
  resSectors : fsc.resSectors = fsc₀.resSectors
  partitionStart : fsc.partitionStart = fsc₀.partitionStart
  resSectors_lt : fsc₀.resSectors < 2 ^ 16
  length : fsc.fatBuffer.length = SECTORSIZE
  cached : fsc.fatCacheNum = -1 ∨ ∃ s, Holds usb device fsc₀ fsc s

theorem NewTable.truthful {usb : Usb} (h : NewTable fsc) : Truthful usb device fsc fsc :=
  ⟨rfl, rfl, rfl, rfl, h.resSectors_lt, h.length, Or.inl h.nothing⟩

/-- The sector `s` is in the buffer, and its number is there too. -/
theorem Truthful.stored {usb : Usb} (h : Truthful usb device fsc₀ fsc) (hs : s < 2 ^ 22) :
    Truthful usb device fsc₀ { fsc with
        fatBuffer := tableSector usb device fsc₀ s, fatCacheNum := s } ∧
      Holds usb device fsc₀ { fsc with
        fatBuffer := tableSector usb device fsc₀ s, fatCacheNum := s } s := by
  generalize hbuffer : tableSector usb device fsc₀ s = buffer
  have hholds : Holds usb device fsc₀ { fsc with fatBuffer := buffer, fatCacheNum := s } s :=
    ⟨rfl, hs, hbuffer.symm⟩
  have hlength : buffer.length = SECTORSIZE := by
    rw [← hbuffer]
    exact length_bytes
  exact ⟨⟨h.fd, h.fatType, h.resSectors, h.partitionStart, h.resSectors_lt, hlength,
    Or.inr ⟨s, hholds⟩⟩, hholds⟩

theorem Truthful.load (h : Truthful host.usb device fsc₀ vol.fsc) (hs : s < 2 ^ 22)
    (hload : SectorLoads host device s vol) : ∃ vol', loadFatSector host s vol = (true, vol') ∧
      Truthful host.usb device fsc₀ vol'.fsc ∧ Holds host.usb device fsc₀ vol'.fsc s := by
  obtain ⟨hres, hbytes⟩ := hload
  have hreserved := h.resSectors_lt
  have hsector : int32 ((s : ℤ) + vol.fsc.resSectors) = (s + fsc₀.resSectors : ℕ) := by
    rw [h.resSectors, ← Int.natCast_add]
    exact int32_eq_of_lt (by omega) (by omega)
  have hnumber : int32 (s : ℤ) = s := int32_eq_of_lt (by omega) (by omega)
  have hplace : (((vol.fsc.partitionStart : ℤ) + (s + fsc₀.resSectors : ℕ)) * SECTORSIZE).toNat =
      (fsc₀.partitionStart + fsc₀.resSectors + s) * SECTORSIZE := by
    rw [h.partitionStart, ← Int.natCast_add, toNat_mul_sectorsize, Nat.add_comm s, ← Nat.add_assoc]
  have hlength : (tableSector host.usb device fsc₀ s).length = vol.fsc.fatBuffer.length := by
    rw [h.length]
    exact length_bytes
  have hcount : ((1 : ℤ) * SECTORSIZE).toNat = SECTORSIZE := rfl
  have hstored : (readsector host vol.fsc (int32 (s + vol.fsc.resSectors)) 1
      ⟨host.fatBufferAddr, vol.fsc.fatBuffer, 0⟩ vol.devs).2.1 =
        tableSector host.usb device fsc₀ s := by
    rw [hbytes, hsector, hplace, hcount]
    exact Buffer.put_all hlength
  unfold loadFatSector
  dsimp only
  rw [hres, if_neg (by decide), hstored, hnumber]
  exact ⟨_, rfl, h.stored hs⟩

theorem Truthful.cache (h : Truthful host.usb device fsc₀ vol.fsc) (hs : s < 2 ^ 22)
    (hload : CacheLoads host device s vol) : ∃ vol', cacheFatSector host s vol = (true, vol') ∧
      Truthful host.usb device fsc₀ vol'.fsc ∧ Holds host.usb device fsc₀ vol'.fsc s := by
  unfold cacheFatSector
  by_cases hmiss : uint32 vol.fsc.fatCacheNum ≠ s
  · rw [if_pos hmiss]
    exact h.load hs (hload hmiss)
  · rw [if_neg hmiss]
    refine ⟨vol, rfl, h, ?_⟩
    have hhit : uint32 vol.fsc.fatCacheNum = s := not_not.mp hmiss
    rcases h.cached with hnothing | ⟨s', hholds⟩
    · have hlarge : uint32 vol.fsc.fatCacheNum = 0xffffffff := by
        rw [hnothing]
        rfl
      omega
    · have hsmall := hholds.small
      rw [hholds.number, uint32_natCast (by omega)] at hhit
      rw [← hhit]
      exact hholds

theorem Holds.byteAt {usb : Usb} (h : Holds usb device fsc₀ fsc s) (hi : i < SECTORSIZE) :
    byteAt fsc.fatBuffer i = tableByte usb device fsc₀ (s * SECTORSIZE + i) := by
  have hbyte : (tableSector usb device fsc₀ s)[i]? = some (usb.content device
      ((fsc₀.partitionStart + fsc₀.resSectors + s) * SECTORSIZE + i)) := getElem?_bytes hi
  unfold Fat.byteAt tableByte
  rw [h.bytes, List.getD_eq_getElem?_getD, hbyte, Option.getD_some, Nat.add_mul _ s, Nat.add_assoc]

/-! ## Entries -/

theorem tableByte_lt {usb : Usb} : tableByte usb device fsc i < 0x100 := by
  unfold tableByte
  exact BitVec.isLt _

/-- A call leaves the cache as it should be, and returns an entry. -/
structure Decodes (usb : Usb) (device : ℕ) (fsc₀ : FatSc) (k : ℕ) (r : ℕ × Vol) : Prop where
  entry : r.1 = tableEntry usb device fsc₀ k
  truthful : Truthful usb device fsc₀ r.2.fsc

/-- An entry that does not cross a sector, where `value` makes it of the bytes. -/
theorem Truthful.wholeFatEntry {value : List (BitVec 8) → ℕ → ℕ} {o : ℕ}
    (h : Truthful host.usb device fsc₀ vol.fsc) (ho : o / SECTORSIZE < 2 ^ 22)
    (hload : CacheLoads host device (o / SECTORSIZE) vol)
    (hvalue : ∀ buffer : List (BitVec 8),
      (∀ i, o % SECTORSIZE + i < SECTORSIZE → Fat.byteAt buffer (o % SECTORSIZE + i) =
        tableByte host.usb device fsc₀ (o + i)) →
      value buffer (o % SECTORSIZE) = tableEntry host.usb device fsc₀ k) :
    Decodes host.usb device fsc₀ k (Fat.wholeFatEntry host o value vol) := by
  obtain ⟨vol', hcache, htruthful, hholds⟩ := h.cache ho hload
  unfold Fat.wholeFatEntry
  rw [hcache]
  refine ⟨hvalue _ fun i hi => ?_, htruthful⟩
  rw [hholds.byteAt hi, ← Nat.add_assoc, Nat.div_add_mod']

theorem Truthful.fat16Entry (h : Truthful host.usb device fsc₀ vol.fsc)
    (htype : vol.fsc.fatType = .fat16) (hk : k < 2 ^ 28) (hload : EntryLoads host device k vol) :
    Decodes host.usb device fsc₀ k (getFatEntry host k vol) := by
  have hoffset : uint32 ((k : ℤ) * 2) = 2 * k := by
    unfold uint32
    omega
  have hroom : 2 * k % SECTORSIZE + 1 < SECTORSIZE := by
    unfold SECTORSIZE
    omega
  unfold EntryLoads at hload
  unfold getFatEntry
  rw [htype] at hload ⊢
  dsimp only at hload ⊢
  rw [hoffset]
  refine h.wholeFatEntry (by unfold SECTORSIZE; omega) hload fun buffer hbuffer => ?_
  unfold letoh16 tableEntry
  rw [← h.fatType, htype, hbuffer 1 hroom]
  exact congrArg (· + 0x100 * _) (hbuffer 0 (by omega))

theorem Truthful.fat32Entry (h : Truthful host.usb device fsc₀ vol.fsc)
    (htype : vol.fsc.fatType = .fat32) (hk : k < 2 ^ 28) (hload : EntryLoads host device k vol) :
    Decodes host.usb device fsc₀ k (getFatEntry host k vol) := by
  have hoffset : uint32 ((k : ℤ) * 4) = 4 * k := by
    unfold uint32
    omega
  have hroom : 4 * k % SECTORSIZE + 3 < SECTORSIZE := by
    unfold SECTORSIZE
    omega
  unfold EntryLoads at hload
  unfold getFatEntry
  rw [htype] at hload ⊢
  dsimp only at hload ⊢
  rw [hoffset]
  refine h.wholeFatEntry (by unfold SECTORSIZE; omega) hload fun buffer hbuffer => ?_
  have hfirst : Fat.byteAt buffer (4 * k % SECTORSIZE) =
      tableByte host.usb device fsc₀ (4 * k) := hbuffer 0 (by omega)
  unfold letoh32 letoh16 tableEntry
  rw [← h.fatType, htype, hfirst, hbuffer 1 (by omega), hbuffer 2 (by omega),
    Nat.add_assoc (4 * k % SECTORSIZE) 2 1, hbuffer 3 hroom]
  dsimp only
  omega

/-- The three bytes of an entry of FAT12, wherever the end of the sector is. -/
theorem Truthful.fat12Bytes {o : ℕ} (h : Truthful host.usb device fsc₀ vol.fsc)
    (hoffset : uint32 (((k : ℤ) - (k : ℤ) % 2) * 3 / 2) = o) (ho : o < 2 ^ 30)
    (hfirst : CacheLoads host device (o / SECTORSIZE) vol)
    (hnext : SECTORSIZE ≤ o % SECTORSIZE + 2 → SectorLoads host device (o / SECTORSIZE + 1)
      (cacheFatSector host (o / SECTORSIZE) vol).2) :
    (fat12Entry host k vol).1 =
        (if (k : ℤ) % 2 = 1 then
          tableByte host.usb device fsc₀ (o + 2) * 16 + tableByte host.usb device fsc₀ (o + 1) / 16
        else tableByte host.usb device fsc₀ (o + 1) % 16 * 256 +
          tableByte host.usb device fsc₀ o) ∧
      Truthful host.usb device fsc₀ (fat12Entry host k vol).2.fsc := by
  have hsector : o / SECTORSIZE + 1 < 2 ^ 22 := by
    unfold SECTORSIZE
    omega
  have hplace : o / SECTORSIZE * SECTORSIZE + o % SECTORSIZE = o := Nat.div_add_mod' _ _
  have hlt : o % SECTORSIZE < SECTORSIZE := Nat.mod_lt _ (by decide)
  have hsize : SECTORSIZE = 512 := rfl
  obtain ⟨vol₁, hcache, htruthful, hholds⟩ := h.cache (by omega) hfirst
  have hbyte : ∀ i, o % SECTORSIZE + i < SECTORSIZE →
      byteAt vol₁.fsc.fatBuffer (((o % SECTORSIZE : ℕ) : ℤ) + i).toNat =
        tableByte host.usb device fsc₀ (o + i) := by
    intro i hi
    rw [← Int.natCast_add, Int.toNat_natCast, hholds.byteAt hi, ← Nat.add_assoc, hplace]
  have hb₁ : byteAt vol₁.fsc.fatBuffer ((o % SECTORSIZE : ℕ) : ℤ).toNat =
      tableByte host.usb device fsc₀ o := by
    rw [Int.toNat_natCast, hholds.byteAt hlt, hplace]
  unfold fat12Entry
  dsimp only
  rw [hoffset, hcache]
  dsimp only
  rw [hb₁]
  by_cases hinside : o % SECTORSIZE + 2 < SECTORSIZE
  · have hsame₂ : decide ((SECTORSIZE : ℤ) ≤ (o % SECTORSIZE : ℕ) + 1) = false :=
      decide_eq_false (by omega)
    have hsame₃ : decide ((SECTORSIZE : ℤ) ≤ (o % SECTORSIZE : ℕ) + 2) = false :=
      decide_eq_false (by omega)
    have hb₂ := hbyte 1 (by omega)
    have hb₃ := hbyte 2 hinside
    simp only [hsame₂, hsame₃, Bool.false_eq_true, if_false]
    rw [← hb₂, ← hb₃]
    exact ⟨rfl, htruthful⟩
  · rw [hcache] at hnext
    obtain ⟨vol₂, hload, htruthful₂, hholds₂⟩ := htruthful.load hsector (hnext (by omega))
    have hnextByte : ∀ i, i < SECTORSIZE → byteAt vol₂.fsc.fatBuffer i =
        tableByte host.usb device fsc₀ (o - o % SECTORSIZE + SECTORSIZE + i) := by
      intro i hi
      rw [hholds₂.byteAt hi, Nat.add_mul, Nat.one_mul, ← Nat.add_sub_cancel
        (o / SECTORSIZE * SECTORSIZE) (o % SECTORSIZE), hplace]
    by_cases hlast : o % SECTORSIZE + 1 < SECTORSIZE
    · -- only the third byte is in the next sector
      have hsame₂ : decide ((SECTORSIZE : ℤ) ≤ (o % SECTORSIZE : ℕ) + 1) = false :=
        decide_eq_false (by omega)
      have hcross₃ : decide ((SECTORSIZE : ℤ) ≤ (o % SECTORSIZE : ℕ) + 2) = true :=
        decide_eq_true (by omega)
      have hb₂ := hbyte 1 hlast
      have hb₃ := hnextByte 0 (by decide)
      have hat : ((o % SECTORSIZE : ℕ) - (SECTORSIZE : ℤ) + 2).toNat = 0 := by omega
      have hthird : o - o % SECTORSIZE + SECTORSIZE + 0 = o + 2 := by omega
      rw [hthird] at hb₃
      simp only [hsame₂, hcross₃, Bool.false_eq_true, if_false, if_true, hload, hat]
      rw [← hb₂, ← hb₃]
      exact ⟨rfl, htruthful₂⟩
    · -- the offset of the first byte is now below the beginning of the buffer
      have hcross₂ : decide ((SECTORSIZE : ℤ) ≤ (o % SECTORSIZE : ℕ) + 1) = true :=
        decide_eq_true (by omega)
      have hsame₃ : decide ((SECTORSIZE : ℤ) ≤ (o % SECTORSIZE : ℕ) - (SECTORSIZE : ℤ) + 2) =
          false := decide_eq_false (by omega)
      have hb₂ := hnextByte 0 (by decide)
      have hb₃ := hnextByte 1 (by decide)
      have hat₂ : ((o % SECTORSIZE : ℕ) - (SECTORSIZE : ℤ) + 1).toNat = 0 := by omega
      have hat₃ : ((o % SECTORSIZE : ℕ) - (SECTORSIZE : ℤ) + 2).toNat = 1 := by omega
      have hsecond : o - o % SECTORSIZE + SECTORSIZE + 0 = o + 1 := by omega
      have hthird : o - o % SECTORSIZE + SECTORSIZE + 1 = o + 2 := by omega
      rw [hsecond] at hb₂
      rw [hthird] at hb₃
      simp only [hcross₂, hsame₃, Bool.false_eq_true, if_false, if_true, hload, hat₂, hat₃]
      rw [← hb₂, ← hb₃]
      exact ⟨rfl, htruthful₂⟩

/-- The place of the three bytes of an entry, which does not wrap. -/
theorem fat12_offset (hk : k < 2 ^ 28) :
    uint32 (((k : ℤ) - (k : ℤ) % 2) * 3 / 2) = (k - k % 2) * 3 / 2 := by
  have hcast : ((k : ℤ) - (k : ℤ) % 2) * 3 / 2 = ((k - k % 2) * 3 / 2 : ℕ) := by omega
  rw [hcast]
  exact uint32_natCast (by omega)

/-- An even entry is the low half of its three bytes. -/
theorem low_twelve {b c : ℕ} (hb : b < 0x100) : c % 16 * 256 + b = (b + 0x100 * c) % 0x1000 := by
  omega

theorem high_twelve {b c : ℕ} : c * 16 + b / 16 = (b + 0x100 * c) / 0x10 := by
  omega

theorem Truthful.fat12Entry (h : Truthful host.usb device fsc₀ vol.fsc)
    (htype : vol.fsc.fatType = .fat12) (hk : k < 2 ^ 28) (hload : EntryLoads host device k vol) :
    Decodes host.usb device fsc₀ k (getFatEntry host k vol) := by
  unfold EntryLoads at hload
  unfold getFatEntry
  rw [htype] at hload ⊢
  obtain ⟨hentry, htruthful⟩ := h.fat12Bytes (fat12_offset hk) (by omega) hload.1 hload.2
  refine ⟨hentry.trans ?_, htruthful⟩
  unfold tableEntry
  rw [← h.fatType, htype]
  dsimp only
  have hb := @tableByte_lt device (k + k / 2) fsc₀ host.usb
  by_cases hodd : k % 2 = 0
  · have hplace : (k - k % 2) * 3 / 2 = k + k / 2 := by omega
    rw [if_neg (by omega), if_pos hodd, hplace]
    exact low_twelve hb
  · have hplace : (k - k % 2) * 3 / 2 + 1 = k + k / 2 := by omega
    have hnext : (k - k % 2) * 3 / 2 + 2 = k + k / 2 + 1 := by omega
    rw [if_pos (by omega), if_neg hodd, hplace, hnext]
    exact high_twelve

theorem Truthful.decodes (h : Truthful host.usb device fsc₀ vol.fsc) (hk : k < 2 ^ 28)
    (hload : EntryLoads host device k vol) :
    Decodes host.usb device fsc₀ k (getFatEntry host k vol) := by
  cases htype : vol.fsc.fatType with
  | fat12 => exact h.fat12Entry htype hk hload
  | fat16 => exact h.fat16Entry htype hk hload
  | fat32 => exact h.fat32Entry htype hk hload
  | unset =>
      unfold getFatEntry
      rw [htype]
      refine ⟨?_, h⟩
      unfold tableEntry
      rw [← h.fatType, htype]

/-! ## Runs -/

/-- One call of `getFatEntry`, for what it leaves behind. -/
def readEntry (host : Host) (vol : Vol) (k : ℕ) : Option Vol := some (getFatEntry host k vol).2

/-- The entry can be asked for, and the sectors it lies in can be read. -/
structure Readable (host : Host) (device : ℕ) (vol : Vol) (k : ℕ) : Prop where
  small : k < 2 ^ 28
  loads : EntryLoads host device k vol

theorem truthful_reach (hnew : NewTable fsc)
    (hreach : Runs.Reach (readEntry host) (Readable host device) (fun vol => vol.fsc = fsc) vol) :
    Truthful host.usb device fsc vol.fsc := by
  refine hreach.invariant (P := fun vol => Truthful host.usb device fsc vol.fsc) ?_ ?_
  · rintro vol rfl
    exact hnew.truthful
  · intro vol k vol' htruthful hreadable hstep
    cases hstep
    exact (htruthful.decodes hreadable.small hreadable.loads).truthful

/-- Whatever was read before, an entry is the one that is stored on the device. -/
theorem getFatEntry_decodes (hnew : NewTable fsc)
    (hreach : Runs.Reach (readEntry host) (Readable host device) (fun vol => vol.fsc = fsc) vol)
    (hreadable : Readable host device vol k) :
    (getFatEntry host k vol).1 = tableEntry host.usb device fsc k :=
  ((truthful_reach hnew hreach).decodes hreadable.small hreadable.loads).entry

/-! ## Where all commands succeed -/

theorem sectorLoads_reliable (hok : ∀ n, host.usb.transport n = true)
    (hsize : host.usb.blksz device = 512) (hslot : Slot host.usb vol.fsc.fd device vol.devs)
    (hlength : vol.fsc.fatBuffer.length = SECTORSIZE) (hreserved : vol.fsc.resSectors < 2 ^ 16)
    (hs : s < 2 ^ 22) (hend : vol.fsc.partitionStart + s + vol.fsc.resSectors < 2 ^ 32) :
    SectorLoads host device s vol ∧
      Slot host.usb vol.fsc.fd device (loadFatSector host s vol).2.devs := by
  have hsector : int32 ((s : ℤ) + vol.fsc.resSectors) = (s + vol.fsc.resSectors : ℕ) := by
    rw [← Int.natCast_add]
    exact int32_eq_of_lt (by omega) (by omega)
  have hplace : (vol.fsc.partitionStart : ℤ) + int32 ((s : ℤ) + vol.fsc.resSectors) =
      (vol.fsc.partitionStart + s + vol.fsc.resSectors : ℕ) := by
    rw [hsector]
    omega
  have hreads := @readsector_reliable host device 1 vol.fsc (int32 (s + vol.fsc.resSectors))
    ⟨host.fatBufferAddr, vol.fsc.fatBuffer, 0⟩ vol.devs _ hok hsize hslot hplace (by omega)
    (by decide) (by dsimp only; omega)
  refine ⟨hreads.1, ?_⟩
  unfold loadFatSector
  dsimp only
  split
  · exact hreads.2
  · exact hreads.2

/-- A device whose bytes count up. -/
def tableHost : Host where
  usb := { oneUsb 512 with content := fun _ i => BitVec.ofNat 8 (i % 251) }
  refuses := fun _ => false
  steps := 0
  fatBufferAddr := 0
  dirBufferAddr := 0
  sectorBufferAddr := 0
  stackAddr := 0
  stack := []
  chainFront := fun _ _ => none
  bufferFront := fun _ _ => 0

/-- A table of FAT12 behind one reserved sector. -/
def tableVol : Vol where
  fsc := { clearedSc 0 with fatType := .fat12, resSectors := 1, fatCacheNum := -1 }
  devs := oneOpen 0
  heap := ⟨0, []⟩
  maxBufszClusts := 0

/-- Entry 341 begins in the first sector of the table and ends in the second one. -/
theorem getFatEntry_decodes_crossing : (getFatEntry tableHost (341 : ℕ) tableVol).1 = 321 := by
  have hnew : NewTable tableVol.fsc := ⟨by decide, List.length_replicate, rfl⟩
  have hslot : Slot tableHost.usb tableVol.fsc.fd 0 tableVol.devs :=
    ⟨⟨0, Or.inl rfl, rfl, rfl, rfl, rfl, rfl, List.length_replicate, List.length_replicate⟩, rfl⟩
  have hfirst := @sectorLoads_reliable tableHost 0 0 tableVol (fun _ => rfl) rfl hslot hnew.length
    hnew.resSectors_lt (by decide) (by decide)
  obtain ⟨vol, hload, htruthful, -⟩ := hnew.truthful.load (by decide) hfirst.1
  have hslot' : Slot tableHost.usb vol.fsc.fd 0 vol.devs := by
    have hdevs := hfirst.2
    rw [hload] at hdevs
    rw [htruthful.fd]
    exact hdevs
  have hnext : SectorLoads tableHost 0 1 vol := by
    refine (sectorLoads_reliable (fun _ => rfl) rfl hslot' htruthful.length ?_ (by decide) ?_).1
    · rw [htruthful.resSectors]
      decide
    · rw [htruthful.resSectors, htruthful.partitionStart]
      decide
  have hloads : EntryLoads tableHost 0 341 tableVol := by
    refine ⟨fun _ => hfirst.1, fun _ => ?_⟩
    change SectorLoads tableHost 0 1 (loadFatSector tableHost 0 tableVol).2
    rw [hload]
    exact hnext
  have hentry : tableEntry tableHost.usb 0 tableVol.fsc 341 = 321 := by decide
  exact (getFatEntry_decodes hnew (Runs.Reach.start rfl) ⟨by decide, hloads⟩).trans hentry

end Fat

end LuojiOs
