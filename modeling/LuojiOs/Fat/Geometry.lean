import LuojiOs.Fat.Entry

/-!
# The geometry of a volume

`fat_init` believes the boot sector.  What it makes of it is a geometry that the rest of the
driver can work with if and only if the fields of the boot sector fit together, which nothing
checks.
-/

namespace LuojiOs

namespace Fat

open Devfs

/-- The geometry that the rest of the driver takes for granted. -/
structure SoundGeometry (fsc : FatSc) : Prop where
  secPerClust : 1 ≤ fsc.secPerClust
  bytesPerSec : fsc.bytesPerSec = SECTORSIZE
  dataSectorBase : fsc.dataSectorBase =
    fsc.resSectors + fsc.numFATs * fsc.fatSecs + fsc.rootDirSectors
  base_le : fsc.dataSectorBase ≤ fsc.totalSectors
  dataSectors : fsc.dataSectors = fsc.totalSectors - fsc.dataSectorBase
  countOfClusters : fsc.countOfClusters = fsc.dataSectors / fsc.secPerClust
  fatType : fsc.fatType = if fsc.countOfClusters < 4085 then .fat12
    else if fsc.countOfClusters < 65525 then .fat16
    else .fat32

/-- `fat_init` comes to an end, and either fails or leaves a sound geometry. -/
def Validates (host : Host) (fd : ℤ) (partition : ℕ) (vol : Vol) : Prop :=
  ∃ res vol', fatInit host fd partition vol = some (res, vol') ∧
    (res ≠ 1 ∨ SoundGeometry vol'.fsc)

/-! ## The boot sector -/

/-- The bytes that `fat_init` takes for the boot sector. -/
def bootSector (host : Host) (fd : ℤ) (partition : ℕ) (vol : Vol) : List (BitVec 8) :=
  let vol := fatGetPartition host partition { vol with fsc := clearedSc fd }
  (readsector host vol.fsc 0 1 ⟨host.stackAddr, host.stack, 0⟩ vol.devs).2.1

/-- `bpbFATsecs`, or `bpbFATSz32` -/
def tableSectors (bpb : List (BitVec 8)) : ℕ :=
  if letoh16 bpb 22 ≠ 0 then letoh16 bpb 22 else letoh32 bpb 36

/-- `bpbSectors`, or `bpbHugeSectors` -/
def volumeSectors (bpb : List (BitVec 8)) : ℕ :=
  if letoh16 bpb 19 ≠ 0 then letoh16 bpb 19 else letoh32 bpb 32

/-- The sectors in front of the data: those reserved, the tables, and the root directory. -/
def sectorsBeforeData (bpb : List (BitVec 8)) : ℕ :=
  letoh16 bpb 14 + byteAt bpb 16 * tableSectors bpb +
    (letoh16 bpb 17 * 32 + (SECTORSIZE - 1)) / SECTORSIZE

/-- A boot sector with sectors of the right size, clusters, and room for what it describes. -/
structure FieldsFit (bpb : List (BitVec 8)) : Prop where
  bpbSecPerClust : byteAt bpb 13 ≠ 0
  bpbBytesPerSec : letoh16 bpb 11 = SECTORSIZE
  room : sectorsBeforeData bpb ≤ volumeSectors bpb

section Bytes

variable {bpb : List (BitVec 8)} {i : ℕ}

theorem byteAt_lt : byteAt bpb i < 2 ^ 8 := (bpb.getD i 0).isLt

theorem letoh16_lt : letoh16 bpb i < 2 ^ 16 := by
  have hlow : byteAt bpb i < 2 ^ 8 := byteAt_lt
  have hhigh : byteAt bpb (i + 1) < 2 ^ 8 := byteAt_lt
  unfold letoh16
  omega

theorem letoh32_lt : letoh32 bpb i < 2 ^ 32 := by
  have hlow : letoh16 bpb i < 2 ^ 16 := letoh16_lt
  have hhigh : letoh16 bpb (i + 2) < 2 ^ 16 := letoh16_lt
  unfold letoh32
  omega

theorem volumeSectors_lt : volumeSectors bpb < 2 ^ 32 := by
  unfold volumeSectors
  split
  · exact letoh16_lt.trans (by decide)
  · exact letoh32_lt

end Bytes

/-! ## What becomes of the fields -/

section Parse

variable {bpb : List (BitVec 8)} {fsc : FatSc}

theorem parseBpb_base (hbytes : letoh16 bpb 11 = SECTORSIZE) :
    (parseBpb bpb fsc).dataSectorBase = uint32 (sectorsBeforeData bpb) := by
  unfold parseBpb sectorsBeforeData tableSectors
  dsimp only
  rw [hbytes]
  push_cast
  rfl

theorem parseBpb_dataSectors :
    (parseBpb bpb fsc).dataSectors =
      uint32 (volumeSectors bpb - (parseBpb bpb fsc).dataSectorBase) := rfl

theorem parseBpb_exact (hbytes : letoh16 bpb 11 = SECTORSIZE) :
    (parseBpb bpb fsc).resSectors + (parseBpb bpb fsc).numFATs * (parseBpb bpb fsc).fatSecs +
      (parseBpb bpb fsc).rootDirSectors = sectorsBeforeData bpb := by
  unfold parseBpb sectorsBeforeData tableSectors
  dsimp only
  rw [hbytes]

theorem parseBpb_sound_iff : SoundGeometry (parseBpb bpb fsc) ↔ FieldsFit bpb := by
  constructor
  · intro h
    have hbytes : letoh16 bpb 11 = SECTORSIZE := h.bytesPerSec
    refine ⟨Nat.one_le_iff_ne_zero.mp h.secPerClust, hbytes, ?_⟩
    have hbase := h.dataSectorBase
    rw [parseBpb_exact hbytes] at hbase
    rw [← hbase]
    exact h.base_le
  · rintro ⟨hclust, hbytes, hroom⟩
    have hlt := @volumeSectors_lt bpb
    have hbase : (parseBpb bpb fsc).dataSectorBase = sectorsBeforeData bpb := by
      rw [parseBpb_base hbytes, uint32_natCast (hroom.trans_lt hlt)]
    refine ⟨Nat.one_le_iff_ne_zero.mpr hclust, hbytes, ?_, ?_, ?_, rfl, rfl⟩
    · rw [parseBpb_exact hbytes, hbase]
    · rw [hbase]
      exact hroom
    · rw [parseBpb_dataSectors, hbase, ← Int.ofNat_sub hroom, uint32_natCast (by omega)]
      rfl

/-- The buffer that is allocated and freed again is not part of the geometry. -/
theorem soundGeometry_congr {block : Option ℕ} {bytes : List (BitVec 8)} :
    SoundGeometry { fsc with lastSectorBlock := block, lastSectorBuffer := bytes } ↔
      SoundGeometry fsc :=
  ⟨fun h => ⟨h.1, h.2, h.3, h.4, h.5, h.6, h.7⟩, fun h => ⟨h.1, h.2, h.3, h.4, h.5, h.6, h.7⟩⟩

end Parse

/-! ## `fat_init` -/

/-- `fat_init` validates its geometry if and only if the boot sector begins with two zeros, where
it fails, or its fields fit together. -/
theorem fatInit_validates_iff (host : Host) (fd : ℤ) (partition : ℕ) (vol : Vol) :
    Validates host fd partition vol ↔
      (byteAt (bootSector host fd partition vol) 0 = 0 ∧
          byteAt (bootSector host fd partition vol) 1 = 0) ∨
        FieldsFit (bootSector host fd partition vol) := by
  have hinit : ∃ failed parsed, fatInit host fd partition vol =
      (if byteAt (bootSector host fd partition vol) 0 = 0 ∧
          byteAt (bootSector host fd partition vol) 1 = 0 then some (-1, failed)
        else if byteAt (bootSector host fd partition vol) 13 = 0 ∨
          letoh16 (bootSector host fd partition vol) 11 = 0 then none
        else some (1, parsed)) ∧
      ∃ fsc, SoundGeometry parsed.fsc ↔
        SoundGeometry (parseBpb (bootSector host fd partition vol) fsc) :=
    ⟨_, _, rfl, _, soundGeometry_congr⟩
  obtain ⟨failed, parsed, hinit, fsc, hsound⟩ := hinit
  rw [parseBpb_sound_iff] at hsound
  unfold Validates
  rw [hinit]
  generalize bootSector host fd partition vol = bpb at *
  by_cases hzeros : byteAt bpb 0 = 0 ∧ byteAt bpb 1 = 0
  · rw [if_pos hzeros]
    exact iff_of_true ⟨-1, failed, rfl, Or.inl (by decide)⟩ (Or.inl hzeros)
  rw [if_neg hzeros]
  by_cases hdiv : byteAt bpb 13 = 0 ∨ letoh16 bpb 11 = 0
  · rw [if_pos hdiv]
    refine iff_of_false ?_ ?_
    · rintro ⟨res, vol', hnone, -⟩
      cases hnone
    · rintro (hfailed | hfit)
      · exact hzeros hfailed
      · rcases hdiv with hclust | hbytes
        · exact hfit.bpbSecPerClust hclust
        · exact absurd (hbytes.symm.trans hfit.bpbBytesPerSec) (by decide)
  rw [if_neg hdiv]
  constructor
  · rintro ⟨res, vol', hsome, hres⟩
    obtain ⟨rfl, rfl⟩ := Prod.mk.inj (Option.some.inj hsome)
    rcases hres with hres | hres
    · exact absurd rfl hres
    · exact Or.inr (hsound.mp hres)
  · rintro (hfailed | hfit)
    · exact absurd hfailed hzeros
    · exact ⟨1, parsed, rfl, Or.inr (hsound.mpr hfit)⟩

/-- A boot sector with sectors of 512 bytes, and no sectors in a cluster. -/
def noClusters (i : ℕ) : BitVec 8 := if i = 0 then 0xeb else if i = 12 then 2 else 0

/-- The number of clusters in the buffer is a quotient by 0. -/
theorem fatInit_divides_by_zero :
    ¬Validates { tableHost with
        usb := { oneUsb 512 with content := fun _ => noClusters }
        stack := List.replicate SECTORSIZE 0 } 0 0 tableVol := by
  rintro ⟨res, vol', hsome, -⟩
  have hnone : (fatInit { tableHost with
      usb := { oneUsb 512 with content := fun _ => noClusters }
      stack := List.replicate SECTORSIZE 0 } 0 0 tableVol).isNone = true := by decide +kernel
  rw [hsome] at hnone
  cases hnone

end Fat

end LuojiOs
