import LuojiOs.Fat.Placement
import LuojiOs.Files.DeviceReads
import LuojiOs.Files.Moved

/-!
# Reads of sectors

What it means that `readsector` succeeds.  It answers 1 whether the commands succeed or not, and
-1 before the beginning of the device.  On a device whose blocks are sectors it succeeds
wherever all commands do.
-/

namespace LuojiOs

namespace Devfs

variable {usb : Usb} {fd : ℤ} {dst : Dest} {devs : Devs} {device o n : ℕ}

/-- A row that was put at the beginning of a buffer. -/
theorem take_put {l : List (BitVec 8)} (h : n ≤ l.length) :
    (Buffer.put l 0 (usb.bytes device o n)).take n = usb.bytes device o n := by
  have hpart := @take_drop_put usb device o n l 0 0 n (Nat.zero_add n).le (by omega)
  rwa [Nat.add_zero, List.drop_zero, Nat.add_zero] at hpart

/-- A part of a row that a buffer begins with. -/
theorem take_drop_of_take {l : List (BitVec 8)} {off k : ℕ}
    (h : l.take n = usb.bytes device o n) (hk : off + k ≤ n) :
    (l.drop off).take k = usb.bytes device (o + off) k := by
  have hcut : (l.drop off).take k = ((l.take n).drop off).take k := by
    rw [List.drop_take, List.take_take, min_eq_left (by omega)]
  rw [hcut, h, bytes_split (show off ≤ n by omega), List.drop_left' length_bytes,
    bytes_split (show k ≤ n - off by omega), List.take_left' length_bytes]

/-- A slot that holds a device, which has not been read into a buffer that was too short. -/
structure Slot (usb : Usb) (fd : ℤ) (device : ℕ) (devs : Devs) : Prop where
  opened : ∃ o, OpenAt usb fd device o devs
  overrun : devs.overrun = false

theorem devioRead_reliable (hok : ∀ k, usb.transport k = true) (hsize : usb.blksz device = 512)
    (h : OpenAt usb fd device o devs) (hover : devs.overrun = false)
    (hroom : dst.pos + n ≤ dst.bytes.length) (hend : o + n ≤ 2 ^ 41) :
    (devioRead usb fd dst n devs).1 = int32 n ∧
      (devioRead usb fd dst n devs).2.1.bytes =
        Buffer.put dst.bytes dst.pos (usb.bytes device o n) ∧
      Slot usb fd device (devioRead usb fd dst n devs).2.2 := by
  have hbase : (devs.opendevs fd).base ≤ (devs.opendevs fd).offs := by
    rw [h.base, h.offs]
    exact Int.natCast_nonneg _
  refine ⟨devioRead_ret hbase, ?_⟩
  unfold devioRead
  dsimp only
  rw [if_neg (not_lt.mpr hbase)]
  split
  · next hn =>
    subst hn
    exact ⟨Buffer.put_nil.symm, ⟨o, h⟩, hover⟩
  · have hsound : Sound (usb.blksz device) usb.lbuffStart n (dst.addr + dst.pos) o n := by
      rw [hsize]
      exact sound_512 lbuffStart_lt hend le_rfl
    have hfills : FillsExactly usb fd device n 0 n o dst devs :=
      hsound.fillsExactly hok h le_rfl hroom hover
    have hoffs := @devioReadFrom_offs usb fd dst devs device n n o hok h 0 le_rfl
    exact ⟨hfills.1, ⟨_, hoffs.2⟩, hfills.2⟩

end Devfs

namespace Fat

open Devfs

variable {host : Host} {device n : ℕ} {fsc : FatSc} {sector count : ℤ} {buffer : Dest}
  {devs : Devs}

/-! ## `readsector` -/

/-- The call stores the sectors of the device. -/
def SectorsRead (host : Host) (device : ℕ) (fsc : FatSc) (sector count : ℤ) (buffer : Dest)
    (devs : Devs) : Prop :=
  (readsector host fsc sector count buffer devs).1 = 1 ∧
    (readsector host fsc sector count buffer devs).2.1 = Buffer.put buffer.bytes buffer.pos
      (host.usb.bytes device ((fsc.partitionStart + sector) * SECTORSIZE).toNat
        (count * SECTORSIZE).toNat)

/-- No sector before the first one of the device can be read. -/
theorem SectorsRead.nonneg (h : SectorsRead host device fsc sector count buffer devs) :
    0 ≤ fsc.partitionStart + sector := by
  by_contra hneg
  have hbefore : (devs.opendevs fsc.fd).base +
      (fsc.partitionStart * SECTORSIZE + SECTORSIZE * sector) < (devs.opendevs fsc.fd).base := by
    unfold SECTORSIZE
    omega
  have hodd : (-1 : ℤ) ≠ int32 (SECTORSIZE * count) := by
    unfold int32 SECTORSIZE
    rw [Int.bmod_def]
    omega
  have hres := h.1
  unfold readsector devioRead devioLseek at hres
  dsimp only at hres
  rw [opendevs_setOffs, if_pos rfl, if_pos hbefore, if_neg hodd] at hres
  cases hres

theorem toNat_mul_sectorsize : ((n : ℤ) * SECTORSIZE).toNat = n * SECTORSIZE := by
  rw [← Int.natCast_mul, Int.toNat_natCast]

/-- Where all commands succeed, sectors are read. -/
theorem readsector_reliable {s : ℕ} (hok : ∀ k, host.usb.transport k = true)
    (hsize : host.usb.blksz device = 512) (hslot : Slot host.usb fsc.fd device devs)
    (hsector : fsc.partitionStart + sector = s) (hend : s + n ≤ 2 ^ 32) (hshort : n ≤ 2 ^ 22)
    (hroom : buffer.pos + n * SECTORSIZE ≤ buffer.bytes.length) :
    SectorsRead host device fsc sector n buffer devs ∧
      Slot host.usb fsc.fd device (readsector host fsc sector n buffer devs).2.2 := by
  obtain ⟨⟨o, hopen⟩, hover⟩ := hslot
  have hplace : (devs.opendevs fsc.fd).base + (fsc.partitionStart * SECTORSIZE +
      SECTORSIZE * sector) = (s * SECTORSIZE : ℕ) := by
    rw [hopen.base, Int.natCast_mul, ← hsector, Int.add_mul, Int.mul_comm (SECTORSIZE : ℤ),
      Int.zero_add]
  have hbytes : uint32 (SECTORSIZE * (n : ℤ)) = n * SECTORSIZE := by
    rw [Int.mul_comm, ← Int.natCast_mul]
    exact uint32_natCast (by unfold SECTORSIZE; omega)
  have hmul : (SECTORSIZE : ℤ) * n = (n * SECTORSIZE : ℕ) := by
    rw [Int.mul_comm, Int.natCast_mul]
  have hat : OpenAt host.usb fsc.fd device (s * SECTORSIZE)
      (devs.setOffs fsc.fd (s * SECTORSIZE : ℕ)) := hopen.setOffs
  obtain ⟨hret, hstored, hslot⟩ := devioRead_reliable hok hsize hat hover hroom
    (by unfold SECTORSIZE; omega)
  unfold SectorsRead readsector devioLseek
  dsimp only
  rw [if_pos rfl, hplace, hbytes, hmul, hsector, hret, if_pos rfl, hstored, toNat_mul_sectorsize,
    toNat_mul_sectorsize]
  exact ⟨⟨rfl, rfl⟩, hslot⟩

end Fat

end LuojiOs
