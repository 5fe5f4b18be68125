import LuojiOs.Fat.Sectors
import LuojiOs.Support.Runs

/-!
# What a read of a file delivers

`fat_read` looks for a sector of the file in the buffer by its number on the volume.  The buffer
holds a window of the file: sectors that follow one another in the file as well as on the disk.
Each round delivers from the window, and after any calls of `fat_lseek` and `fat_read` a read
delivers the bytes of the file from the position on.
-/

namespace LuojiOs

namespace Fat

open Devfs

variable {host : Host} {device m len rounds p q n d k : ℕ} {allocated : Bool} {fsc : FatSc}
  {r r' r'' : Reading} {sector : ℤ}

/-! ## The parts of a round -/

/-- The sector that a round looks for is found. -/
def seek (host : Host) (m len : ℕ) (r : Reading) : Option (ℤ × Reading) :=
  (getSectorIndexRead (host.chainFront r.posn) m (int32 (r.posn.tdiv SECTORSIZE))
    (sectorsNeeded len) r.fsc).map fun (sector, fsc) => (sector, { r with fsc := fsc })

/-- The volume, with the extent of the next read. -/
def FatSc.planned (n : ℕ) (fsc : FatSc) : FatSc :=
  { fsc with nextSectorsOfBuffer := n, nextBytesOfBuffer := n * SECTORSIZE }

@[simp] theorem fileSector_planned : fileSector (fsc.planned n) q = fileSector fsc q := rfl

/-- The sectors that follow in the volume are read into the buffer. -/
def Refilled (host : Host) (device : ℕ) (sector : ℤ) (r : Reading) : Prop :=
  SectorsRead host device (r.fsc.loadedFrom sector) sector (int32 r.fsc.nextSectorsOfBuffer)
    ⟨host.sectorBufferAddr, r.fsc.lastSectorBuffer, 0⟩ r.devs

theorem Refilled.nonneg (h : Refilled host device sector r) :
    0 ≤ (r.fsc.partitionStart : ℤ) + sector :=
  @SectorsRead.nonneg host device (r.fsc.loadedFrom sector) _ _ _ _ h

/-- The buffer is filled again if the sector is not in it. -/
def fill (host : Host) (allocated : Bool) (sector : ℤ) (r : Reading) : ℤ × Reading :=
  if missed sector r.fsc then refill host allocated sector r else (0, r)

/-- All sector reads of the loop of `fat_read` succeed. -/
def RoundsSucceed (host : Host) (device m : ℕ) (allocated : Bool) : ℕ → ℕ → Reading → Prop
  | 0, _, _ => True
  | rounds + 1, len, r => len = 0 ∨
    match seek host m len r with
    | none => True
    | some (sector, r) =>
      (missed sector r.fsc = true → Refilled host device sector r) ∧
        let (_, r) := fill host allocated sector r
        let (copylen, r) := copyOut host sector len r
        RoundsSucceed host device m allocated rounds (len - copylen) r

/-! ## The window -/

/-- The buffer holds `n` sectors, those of the file from its sector `q` on. -/
structure Window (usb : Usb) (device : ℕ) (fsc : FatSc) (q n : ℕ) : Prop where
  lastSector : fsc.lastSector = fileSector fsc q
  low : fileSector fsc q < 2 ^ 31
  sectors : fsc.sectorsOfBuffer = n
  bytes : fsc.bytesOfBuffer = n * SECTORSIZE
  short : n ≤ 2 ^ 22
  inside : q + n ≤ sectorCount fsc
  adjacent : ∀ i < n, fileSector fsc (q + i) = fileSector fsc q + i
  content : fsc.lastSectorBuffer.take (n * SECTORSIZE) =
    usb.bytes device ((fsc.partitionStart + fileSector fsc q) * SECTORSIZE) (n * SECTORSIZE)

/-- Nothing has been read yet, or the buffer holds a window of the file. -/
def Buffered (usb : Usb) (device : ℕ) (fsc : FatSc) : Prop :=
  fsc.lastSector = -1 ∨ ∃ q n, Window usb device fsc q n

theorem Buffered.planned {usb : Usb} (h : Buffered usb device fsc) :
    Buffered usb device (fsc.planned n) := by
  rcases h with hnone | ⟨q, k, hwindow⟩
  · exact Or.inl hnone
  · exact Or.inr ⟨q, k, hwindow.1, hwindow.2, hwindow.3, hwindow.4, hwindow.5, hwindow.6,
      hwindow.7, hwindow.8⟩

/-- A sector that is looked for lies in the window where it stands in the file. -/
theorem hit_inside (h : OnVolume fsc) (hbuffered : Buffered host.usb device fsc)
    (hq : q < sectorCount fsc) (hhit : missed (int32 (fileSector fsc q)) fsc = false) :
    ∃ q₀ n d, Window host.usb device fsc q₀ n ∧ q = q₀ + d ∧ d < n ∧
      int32 (fileSector fsc q) = fileSector fsc q := by
  unfold missed at hhit
  rw [decide_eq_false_iff_not, not_or, not_or] at hhit
  obtain ⟨hsome, hbefore, hbehind⟩ := hhit
  obtain ⟨q₀, n, hwindow⟩ := hbuffered.resolve_left hsome
  rw [hwindow.lastSector] at hbefore
  have hlt := h.fileSector_lt hq
  obtain ⟨heq, -⟩ := int32_eq_of_nonneg le_rfl (Int.natCast_nonneg _)
    (show (0 : ℤ) + fileSector fsc q < 2 ^ 32 by omega) (by omega)
  rw [heq, hwindow.lastSector, hwindow.sectors] at hbehind
  rw [heq] at hbefore
  have hlow := hwindow.low
  have hshort := hwindow.short
  obtain ⟨d, hd⟩ := Nat.exists_eq_add_of_le (show fileSector fsc q₀ ≤ fileSector fsc q by omega)
  have hdn : d < n := by
    unfold uint32 at hbehind
    omega
  refine ⟨q₀, n, d, hwindow, ?_, hdn, heq⟩
  have hinside := hwindow.inside
  apply h.fileSector_inj hq (by omega)
  rw [hd, hwindow.adjacent d hdn]

/-- The sectors of a refill are the window that begins with the sector looked for. -/
theorem refill_window (h : OnVolume r.fsc) (hq : q + n ≤ sectorCount r.fsc)
    (hpos : 0 < n) (hshort : n ≤ 2 ^ 22)
    (hsectors : r.fsc.nextSectorsOfBuffer = n) (hbytes : r.fsc.nextBytesOfBuffer = n * SECTORSIZE)
    (hroom : n * SECTORSIZE ≤ r.fsc.lastSectorBuffer.length)
    (hadjacent : ∀ i < n, fileSector r.fsc (q + i) = fileSector r.fsc q + i)
    (hread : Refilled host device (int32 (fileSector r.fsc q)) r) :
    ∃ bytes devs requests, refill host allocated (int32 (fileSector r.fsc q)) r = (1, { r with
        fsc := { r.fsc.loadedFrom (fileSector r.fsc q) with lastSectorBuffer := bytes }
        devs := devs
        requests := requests }) ∧ bytes.length = r.fsc.lastSectorBuffer.length ∧
      int32 (fileSector r.fsc q) = fileSector r.fsc q ∧
      Window host.usb device { r.fsc.loadedFrom (fileSector r.fsc q) with lastSectorBuffer := bytes }
        q n := by
  have hlt := h.fileSector_lt (show q < sectorCount r.fsc by omega)
  have hnonneg := hread.nonneg
  obtain ⟨heq, hlow⟩ := int32_eq_of_nonneg (Int.natCast_nonneg _) (Int.natCast_nonneg _)
    (show (r.fsc.partitionStart : ℤ) + fileSector r.fsc q < 2 ^ 32 by omega) hnonneg
  unfold Refilled SectorsRead at hread
  rw [heq] at hread
  rcases hcall : readsector host (r.fsc.loadedFrom (fileSector r.fsc q)) (fileSector r.fsc q)
    (int32 r.fsc.nextSectorsOfBuffer) ⟨host.sectorBufferAddr, r.fsc.lastSectorBuffer, 0⟩ r.devs
    with ⟨res, bytes, devs⟩
  rw [hcall] at hread
  obtain ⟨hres, hput⟩ := hread
  dsimp only at hres hput
  refine ⟨bytes, devs, r.fsc.request allocated :: r.requests, ?_, ?_, heq, ?_⟩
  · rw [heq, refill_eq hcall, hres]
  · rw [hput, Buffer.length_put]
  · have hcount : int32 n = n := int32_eq_of_lt (Int.natCast_nonneg _) (by omega)
    have hplace : (((r.fsc.partitionStart : ℤ) + fileSector r.fsc q) * SECTORSIZE).toNat =
        (r.fsc.partitionStart + fileSector r.fsc q) * SECTORSIZE := by
      rw [← Int.natCast_add, ← Int.natCast_mul, Int.toNat_natCast]
    have hsize : ((n : ℤ) * SECTORSIZE).toNat = n * SECTORSIZE := by
      rw [← Int.natCast_mul, Int.toNat_natCast]
    have hput' : bytes = Buffer.put r.fsc.lastSectorBuffer 0 (host.usb.bytes device
        (((r.fsc.partitionStart : ℤ) + fileSector r.fsc q) * SECTORSIZE).toNat
        (int32 r.fsc.nextSectorsOfBuffer * SECTORSIZE).toNat) := hput
    rw [hsectors, hcount, hplace, hsize] at hput'
    refine ⟨rfl, Int.ofNat_lt.mp hlow, hsectors, hbytes, hshort, hq, hadjacent, ?_⟩
    change bytes.take (n * SECTORSIZE) = host.usb.bytes device
      ((r.fsc.partitionStart + fileSector r.fsc q) * SECTORSIZE) (n * SECTORSIZE)
    rw [hput']
    exact take_put hroom

/-- The bytes of the window from byte `p` of the file on. -/
theorem Window.bytes_eq {k : ℕ} (hwindow : Window host.usb device fsc q n) (h : OnVolume fsc)
    (hplace : p / SECTORSIZE = q + d) (hk : d * SECTORSIZE + p % SECTORSIZE + k ≤ n * SECTORSIZE) :
    (fsc.lastSectorBuffer.drop (d * SECTORSIZE + p % SECTORSIZE)).take k =
      fileBytes host.usb device fsc p k := by
  rw [take_drop_of_take hwindow.content hk]
  unfold Usb.bytes fileBytes
  apply List.map_congr_left
  intro i hi
  rw [List.mem_range] at hi
  have hlater : (p + i) / SECTORSIZE = q + (d + (p % SECTORSIZE + i) / SECTORSIZE) := by
    unfold SECTORSIZE at *
    omega
  have hinside : d + (p % SECTORSIZE + i) / SECTORSIZE < n := by
    unfold SECTORSIZE at *
    omega
  rw [fileByte_eq h, hlater, hwindow.adjacent _ hinside]
  refine congrArg (host.usb.content device) ?_
  unfold SECTORSIZE at *
  omega

/-! ## Rounds -/

/-- From `r` to `r'`, the `k` bytes of the file from its byte `p` on have been delivered. -/
structure Delivers (host : Host) (device : ℕ) (r r' : Reading) (p k : ℕ) : Prop where
  posn : r'.posn = (p + k : ℕ)
  out : r'.out = r.out ++ fileBytes host.usb device r.fsc p k
  buffered : Buffered host.usb device r'.fsc
  unread : r'.fsc.unread = r.fsc.unread
  length : r'.fsc.lastSectorBuffer.length = r.fsc.lastSectorBuffer.length

theorem Delivers.trans {l : ℕ} (h : Delivers host device r r' p k)
    (h' : Delivers host device r' r'' (p + k) l) : Delivers host device r r'' p (k + l) where
  posn := by rw [h'.posn, Nat.add_assoc]
  out := by
    rw [h'.out, h.out, fileBytes_of_unread h.unread, List.append_assoc, fileBytes_add]
  buffered := h'.buffered
  unread := h'.unread.trans h.unread
  length := h'.length.trans h.length

/-- `len` bytes of the file are to be read from its byte `p` on. -/
structure Ready (host : Host) (device m : ℕ) (r : Reading) (p len : ℕ) : Prop where
  onVolume : OnVolume r.fsc
  buffered : Buffered host.usb device r.fsc
  bufsz : 0 < m
  capacity : m * r.fsc.bytesPerClust ≤ r.fsc.lastSectorBuffer.length
  posn : r.posn = p
  inside : p + len ≤ r.fsc.file.fileSize
  short : p + len < 2 ^ 31

theorem Ready.delivers_nothing (h : Ready host device m r p len) : Delivers host device r r p 0 :=
  ⟨h.posn, (List.append_nil _).symm, h.buffered, rfl, rfl⟩

theorem Ready.next (h : Ready host device m r p len) (hstep : Delivers host device r r' p k)
    (hk : k ≤ len) : Ready host device m r' (p + k) (len - k) := by
  have hinside := h.inside
  have hshort := h.short
  refine ⟨h.onVolume.of_unread hstep.unread, hstep.buffered, h.bufsz, ?_, hstep.posn, ?_, by omega⟩
  · rw [bytesPerClust_of_unread hstep.unread, hstep.length]
    exact h.capacity
  · rw [file_of_unread hstep.unread]
    omega

/-- The sector looked for is the one that the position lies in. -/
theorem Ready.seek_spec (h : Ready host device m r p len) (hlen : 0 < len) :
    ∃ n, seek host m len r = some (int32 (fileSector r.fsc (p / SECTORSIZE)),
        { r with fsc := r.fsc.planned n }) ∧ 0 < n ∧ n ≤ 2 ^ 22 ∧
      p / SECTORSIZE + n ≤ sectorCount r.fsc ∧ n * SECTORSIZE ≤ r.fsc.lastSectorBuffer.length ∧
      ∀ i < n, fileSector r.fsc (p / SECTORSIZE + i) = fileSector r.fsc (p / SECTORSIZE) + i := by
  have henough := h.onVolume.sectors_enough
  have hinside := h.inside
  have hshort := h.short
  have hsectors : sectorsNeeded len = (len + SECTORSIZE - 1) / SECTORSIZE := by
    unfold sectorsNeeded
    rw [uint32_natCast]
    unfold SECTORSIZE
    omega
  have hlast : p / SECTORSIZE + sectorsNeeded len ≤ sectorCount r.fsc := by
    rw [hsectors]
    unfold SECTORSIZE at *
    omega
  have hneed : 0 < sectorsNeeded len ∧ sectorsNeeded len ≤ 2 ^ 22 := by
    rw [hsectors]
    unfold SECTORSIZE
    omega
  obtain ⟨n, heq, hpos, hle, hroom, hadjacent⟩ :=
    h.onVolume.getSectorIndexRead_spec h.bufsz hneed.1 (by omega) hlast
  refine ⟨n, ?_, hpos, hle.trans hneed.2, by omega, ?_, hadjacent⟩
  · have hindex : int32 (r.posn.tdiv SECTORSIZE) = (p / SECTORSIZE : ℕ) := by
      rw [h.posn, ← Int.ofNat_tdiv]
      exact int32_eq_of_lt (Int.natCast_nonneg _) (by unfold SECTORSIZE; omega)
    have hbytes : uint32 ((n * SECTORSIZE : ℕ) : ℤ) = n * SECTORSIZE :=
      uint32_natCast (by unfold SECTORSIZE; omega)
    unfold seek
    rw [hindex, heq, hbytes]
    rfl
  · refine le_trans ?_ h.capacity
    rw [h.onVolume.bytesPerClust, ← Nat.mul_assoc]
    exact Nat.mul_le_mul_right _ hroom

/-- After the test for a sector that is missing, the buffer holds a window with the sector. -/
theorem fill_window (h : OnVolume r.fsc) (hbuffered : Buffered host.usb device r.fsc)
    (hpos : 0 < n) (hshort : n ≤ 2 ^ 22) (hq : q + n ≤ sectorCount r.fsc)
    (hroom : n * SECTORSIZE ≤ r.fsc.lastSectorBuffer.length)
    (hadjacent : ∀ i < n, fileSector r.fsc (q + i) = fileSector r.fsc q + i)
    (hplanned : r.fsc.planned n = r.fsc)
    (hok : missed (int32 (fileSector r.fsc q)) r.fsc = true →
      Refilled host device (int32 (fileSector r.fsc q)) r) :
    ∃ res r' q₀ n₀ d, fill host allocated (int32 (fileSector r.fsc q)) r = (res, r') ∧ 0 ≤ res ∧
      int32 (fileSector r.fsc q) = fileSector r'.fsc q ∧
      Window host.usb device r'.fsc q₀ n₀ ∧ q = q₀ + d ∧ d < n₀ ∧
      r'.posn = r.posn ∧ r'.out = r.out ∧ r'.fsc.unread = r.fsc.unread ∧
      r'.fsc.lastSectorBuffer.length = r.fsc.lastSectorBuffer.length := by
  unfold fill
  split
  · next hmiss =>
    have hsectors : r.fsc.nextSectorsOfBuffer = n := by rw [← hplanned]; rfl
    have hbytes : r.fsc.nextBytesOfBuffer = n * SECTORSIZE := by rw [← hplanned]; rfl
    obtain ⟨bytes, devs, requests, heq, hlength, hsector, hwindow⟩ :=
      @refill_window host device q n allocated r h hq hpos hshort hsectors hbytes hroom hadjacent
        (hok hmiss)
    exact ⟨1, _, q, n, 0, heq, Int.one_nonneg, hsector, hwindow, rfl, hpos, rfl, rfl, rfl, hlength⟩
  · next hhit =>
    rw [Bool.not_eq_true] at hhit
    obtain ⟨q₀, n₀, d, hwindow, hplace, hd, hsector⟩ := hit_inside h hbuffered (by omega) hhit
    exact ⟨0, r, q₀, n₀, d, rfl, le_rfl, hsector, hwindow, hplace, hd, rfl, rfl, rfl, rfl⟩

theorem bytesFrom_natCast {front : ℕ → BitVec 8} {buffer : List (BitVec 8)} {offset : ℕ} :
    bytesFrom front buffer offset = buffer.drop offset := by
  unfold bytesFrom
  rw [Int.toNat_natCast, Int.toNat_of_nonpos (by omega)]
  rfl

theorem copyOut_delivers (h : OnVolume r.fsc) (hwindow : Window host.usb device r.fsc q n)
    (hd : d < n) (hplace : p / SECTORSIZE = q + d) (hposn : r.posn = p) (hlen : 0 < len) :
    ∃ k r', copyOut host (fileSector r.fsc (p / SECTORSIZE)) len r = (k, r') ∧ 0 < k ∧ k ≤ len ∧
      Delivers host device r r' p k := by
  have hrest : p % SECTORSIZE < SECTORSIZE := Nat.mod_lt _ (by decide)
  have hoffset : int32 (((fileSector r.fsc (p / SECTORSIZE) : ℤ) - r.fsc.lastSector) *
      SECTORSIZE + r.posn.tmod SECTORSIZE) = (d * SECTORSIZE + p % SECTORSIZE : ℕ) := by
    have hshort := hwindow.short
    rw [hplace, hwindow.lastSector, hwindow.adjacent d hd, hposn, ← Int.ofNat_tmod]
    rw [int32_eq_of_lt] <;> unfold SECTORSIZE at * <;> omega
  have hsize : uint32 (r.fsc.bytesOfBuffer - (d * SECTORSIZE + p % SECTORSIZE : ℕ)) =
      n * SECTORSIZE - (d * SECTORSIZE + p % SECTORSIZE) := by
    have hshort := hwindow.short
    rw [hwindow.bytes]
    unfold uint32 SECTORSIZE at *
    omega
  have hleft : d * SECTORSIZE + p % SECTORSIZE < n * SECTORSIZE := by
    unfold SECTORSIZE at *
    omega
  obtain ⟨k, hk⟩ : ∃ k, min len (n * SECTORSIZE - (d * SECTORSIZE + p % SECTORSIZE)) = k :=
    ⟨_, rfl⟩
  refine ⟨k, { r with
    out := r.out ++ fileBytes host.usb device r.fsc p k
    posn := (p + k : ℕ) }, ?_, by omega, by omega, ⟨rfl, rfl, Or.inr ⟨q, n, hwindow⟩, rfl, rfl⟩⟩
  unfold copyOut
  dsimp only
  rw [hoffset, hsize, hk, hposn, bytesFrom_natCast, hwindow.bytes_eq h hplace (by omega),
    Int.natCast_add]

/-- A round delivers some bytes of the file, those from the position on. -/
theorem Ready.round (h : Ready host device m r p len) (hlen : 0 < len)
    (hread : ∀ sector r₁, seek host m len r = some (sector, r₁) → missed sector r₁.fsc = true →
      Refilled host device sector r₁) :
    ∃ sector r₁ res r₂ k r', seek host m len r = some (sector, r₁) ∧
      fill host allocated sector r₁ = (res, r₂) ∧ 0 ≤ res ∧ copyOut host sector len r₂ = (k, r') ∧
      0 < k ∧ k ≤ len ∧ Delivers host device r r' p k := by
  obtain ⟨n, hseek, hpos, hle, hinside, hroom, hadjacent⟩ := h.seek_spec hlen
  have hvolume : OnVolume (r.fsc.planned n) := h.onVolume.of_unread rfl
  obtain ⟨res, r₂, q₀, n₀, d, hfill, hres, hsector, hwindow, hplace, hd, hposn, hout, hunread,
    hlength⟩ := @fill_window host device (p / SECTORSIZE) n allocated
      { r with fsc := r.fsc.planned n } hvolume h.buffered.planned hpos hle hinside hroom hadjacent
      rfl (hread _ _ hseek)
  dsimp only at hfill hsector hposn hout hunread hlength
  rw [fileSector_planned] at hfill hsector
  obtain ⟨k, r', hcopy, hkpos, hkle, hdelivers⟩ :=
    copyOut_delivers (hvolume.of_unread hunread) hwindow hd hplace (hposn.trans h.posn) hlen
  rw [← hsector] at hcopy
  refine ⟨_, _, res, r₂, k, r', hseek, hfill, hres, hcopy, hkpos, hkle, hdelivers.posn, ?_,
    hdelivers.buffered, hdelivers.unread.trans hunread, hdelivers.length.trans hlength⟩
  rw [hdelivers.out, hout, fileBytes_of_unread hunread]
  rfl

theorem fatReadFrom_succ (hlen : len ≠ 0) : fatReadFrom host m allocated (rounds + 1) len r =
    match seek host m len r with
    | none => none
    | some (sector, r) =>
      let (res, r) := fill host allocated sector r
      if res < 0 then some (res, r)
      else
        let (copylen, r) := copyOut host sector len r
        fatReadFrom host m allocated rounds (len - copylen) r := by
  rw [fatReadFrom, if_neg hlen]
  unfold seek
  dsimp only
  cases getSectorIndexRead (host.chainFront r.posn) m (int32 (r.posn.tdiv SECTORSIZE))
    (sectorsNeeded len) r.fsc with
  | none => rfl
  | some found => rfl

/-- The rounds deliver the bytes that were asked for. -/
theorem Ready.fatReadFrom_delivers (h : Ready host device m r p len) (hrounds : len ≤ rounds)
    (hok : RoundsSucceed host device m allocated rounds len r) :
    ∃ r', fatReadFrom host m allocated rounds len r = some (0, r') ∧
      Delivers host device r r' p len := by
  induction rounds generalizing len r p with
  | zero =>
      obtain rfl : len = 0 := by omega
      exact ⟨r, rfl, h.delivers_nothing⟩
  | succ rounds ih =>
      rcases Nat.eq_zero_or_pos len with rfl | hlen
      · refine ⟨r, ?_, h.delivers_nothing⟩
        rw [fatReadFrom, if_pos rfl]
      replace hok := hok.resolve_left hlen.ne'
      obtain ⟨sector, r₁, res, r₂, k, r', hseek, hfill, hres, hcopy, hkpos, hkle, hstep⟩ :=
        @Ready.round host device m len p allocated r h hlen (by
          intro sector r₁ hseek
          rw [hseek] at hok
          exact hok.1)
      rw [hseek] at hok
      have hrest := hok.2
      rw [hfill] at hrest
      dsimp only at hrest
      rw [hcopy] at hrest
      obtain ⟨r'', hread, hlater⟩ := ih (h.next hstep hkle) (by omega) hrest
      refine ⟨r'', ?_, ?_⟩
      · rw [fatReadFrom_succ hlen.ne', hseek]
        dsimp only
        rw [hfill]
        dsimp only
        rw [if_neg (not_lt.mpr hres), hcopy]
        exact hread
      · have hall := hstep.trans hlater
        rwa [Nat.add_sub_cancel' hkle] at hall

/-! ## Devices whose commands succeed -/

/-- The numbers of the sectors of the file are not negative as an `int`. -/
def Low (fsc : FatSc) : Prop := ∀ q < sectorCount fsc, fileSector fsc q < 2 ^ 31

theorem Low.of_unread {fsc' : FatSc} (h : Low fsc) (hunread : fsc'.unread = fsc.unread) :
    Low fsc' := by
  change Low fsc'.unread
  rw [hunread]
  exact h

section Reliable

variable (hok : ∀ k, host.usb.transport k = true) (hsize : host.usb.blksz device = 512)

include hok hsize

theorem refill_reliable (h : OnVolume r.fsc) (hlow : Low r.fsc)
    (hslot : Slot host.usb r.fsc.fd device r.devs) (hpos : 0 < n) (hshort : n ≤ 2 ^ 22)
    (hq : q + n ≤ sectorCount r.fsc) (hroom : n * SECTORSIZE ≤ r.fsc.lastSectorBuffer.length)
    (hadjacent : ∀ i < n, fileSector r.fsc (q + i) = fileSector r.fsc q + i)
    (hsectors : r.fsc.nextSectorsOfBuffer = n) :
    Refilled host device (int32 (fileSector r.fsc q)) r ∧
      Slot host.usb r.fsc.fd device
        (refill host allocated (int32 (fileSector r.fsc q)) r).2.devs := by
  have hend : r.fsc.partitionStart + fileSector r.fsc q + n ≤ 2 ^ 32 := by
    have hlast := h.fileSector_lt (show q + (n - 1) < sectorCount r.fsc by omega)
    rw [hadjacent (n - 1) (by omega)] at hlast
    clear hsize hlow hslot hroom
    omega
  have hfirst := hlow q (by omega)
  have hsector : int32 (fileSector r.fsc q) = fileSector r.fsc q :=
    int32_eq_of_lt (Int.natCast_nonneg _) (by omega)
  have hcount : int32 r.fsc.nextSectorsOfBuffer = n := by
    rw [hsectors]
    exact int32_eq_of_lt (Int.natCast_nonneg _) (by omega)
  have hplace : ((r.fsc.partitionStart + fileSector r.fsc q : ℕ) : ℤ) =
      r.fsc.partitionStart + fileSector r.fsc q := Int.natCast_add ..
  have hroom' : 0 + n * SECTORSIZE ≤ r.fsc.lastSectorBuffer.length := by omega
  have hread := @readsector_reliable host device n (r.fsc.loadedFrom (fileSector r.fsc q))
    (fileSector r.fsc q) ⟨host.sectorBufferAddr, r.fsc.lastSectorBuffer, 0⟩ r.devs _ hok hsize hslot
    hplace.symm hend hshort hroom'
  rw [hsector]
  unfold Refilled
  rw [hcount]
  refine ⟨hread.1, ?_⟩
  rcases hcall : readsector host (r.fsc.loadedFrom (fileSector r.fsc q)) (fileSector r.fsc q)
    (int32 r.fsc.nextSectorsOfBuffer) ⟨host.sectorBufferAddr, r.fsc.lastSectorBuffer, 0⟩ r.devs
    with ⟨res, bytes, devs⟩
  rw [refill_eq hcall]
  rw [← hcount, hcall] at hread
  exact hread.2

/-- Where all commands succeed, the sector reads of the loop do. -/
theorem Ready.roundsSucceed (h : Ready host device m r p len) (hlow : Low r.fsc)
    (hslot : Slot host.usb r.fsc.fd device r.devs) :
    RoundsSucceed host device m allocated rounds len r := by
  induction rounds generalizing len r p with
  | zero => exact trivial
  | succ rounds ih =>
      rcases Nat.eq_zero_or_pos len with rfl | hlen
      · exact Or.inl rfl
      obtain ⟨n, hseek, hpos, hshort, hinside, hroom, hadjacent⟩ := h.seek_spec hlen
      have hrefill := @refill_reliable host device (p / SECTORSIZE) n allocated
        { r with fsc := r.fsc.planned n } hok hsize (h.onVolume.of_unread rfl) hlow hslot hpos
        hshort hinside hroom hadjacent rfl
      dsimp only at hrefill
      rw [fileSector_planned] at hrefill
      obtain ⟨sector, r₁, res, r₂, k, r', hseek', hfill, -, hcopy, hkpos, hkle, hstep⟩ :=
        @Ready.round host device m len p allocated r h hlen (by
          intro sector r₁ hseek' _
          obtain ⟨rfl, rfl⟩ := Prod.mk.inj (Option.some.inj (hseek.symm.trans hseek'))
          exact hrefill.1)
      obtain ⟨rfl, rfl⟩ := Prod.mk.inj (Option.some.inj (hseek.symm.trans hseek'))
      right
      rw [hseek]
      refine ⟨fun _ => hrefill.1, ?_⟩
      rw [hfill]
      dsimp only
      rw [hcopy]
      have hdevs : r'.devs = r₂.devs := by
        rw [show r' = _ from (congrArg Prod.snd hcopy).symm]
        rfl
      have hfd : r'.fsc.fd = r.fsc.fd := by
        change r'.fsc.unread.fd = r.fsc.unread.fd
        rw [hstep.unread]
      apply ih (h.next hstep hkle) (hlow.of_unread hstep.unread)
      rw [hfd, hdevs, show r₂ = _ from (congrArg Prod.snd hfill).symm]
      unfold fill
      split
      · exact hrefill.2
      · exact hslot

end Reliable

/-! ## Calls -/

variable {fd : ℤ} {w w' : World} {fsc₀ : FatSc}

/-- A call for an open file. -/
inductive Access where
  | lseek (offset : ℤ) (whence : Whence)
  | read (len : ℕ)

def step (host : Host) (fd : ℤ) (w : World) : Access → Option World
  | .lseek offset whence => (fatLseek fd offset whence w).map Prod.snd
  | .read len => (fatRead host fd len w).map fun (_, _, w) => w

/-- The length that `fat_read` reads, up to the end of the file. -/
def lengthRead (fsc : FatSc) (posn : ℤ) (len : ℕ) : ℕ :=
  if (fsc.file.fileSize : ℤ) < posn + len then uint32 (fsc.file.fileSize - posn) else len

/-- All sector reads that this `fat_read` makes succeed. -/
structure SectorReadsSucceed (host : Host) (device : ℕ) (fd : ℤ) (len : ℕ) (w : World) :
    Prop where
  rounds : ∀ self fsc, w.myfile fd = some (self, fsc) → (w.file fd).posn < fsc.file.fileSize →
    RoundsSucceed host device w.maxBufszClusts (w.heap.isLive fsc.lastSectorBlock)
      (lengthRead fsc (w.file fd).posn len) (lengthRead fsc (w.file fd).posn len)
      ⟨fsc, w.devs, (w.file fd).posn, [], w.requests⟩

/-- The position does not leave the range, and sectors can be read. -/
def Allowed (host : Host) (device : ℕ) (fd : ℤ) (w : World) : Access → Prop
  | .lseek offset whence => ∀ res w', fatLseek fd offset whence w = some (res, w') →
      0 ≤ (w'.file fd).posn
  | .read len => (w.file fd).posn + len < 2 ^ 31 ∧ SectorReadsSucceed host device fd len w

theorem allowed_read : Allowed host device fd w (.read len) ↔
    (w.file fd).posn + len < 2 ^ 31 ∧ SectorReadsSucceed host device fd len w := Iff.rfl

/-- A file as `fat_open` leaves it, with a buffer that is allocated. -/
structure Opened (fd : ℤ) (fsc : FatSc) (w : World) : Prop where
  myfile : ∃ self, w.myfile fd = some (self, fsc)
  lastSector : fsc.lastSector = -1
  posn : (w.file fd).posn = 0
  live : w.heap.isLive fsc.lastSectorBlock = true
  bufsz : 0 < w.maxBufszClusts
  capacity : w.maxBufszClusts * fsc.bytesPerClust ≤ fsc.lastSectorBuffer.length

/-- The file is open, and its buffer may be used. -/
structure Serving (usb : Usb) (device : ℕ) (fd : ℤ) (fsc₀ fsc : FatSc) (w : World) : Prop where
  myfile : ∃ self, w.myfile fd = some (self, fsc)
  unread : fsc.unread = fsc₀.unread
  buffered : Buffered usb device fsc
  posn : 0 ≤ (w.file fd).posn
  bufsz : 0 < w.maxBufszClusts
  capacity : w.maxBufszClusts * fsc.bytesPerClust ≤ fsc.lastSectorBuffer.length

theorem Opened.serving {usb : Usb} (h : Opened fd fsc w) : Serving usb device fd fsc fsc w :=
  ⟨h.myfile, rfl, Or.inl h.lastSector, h.posn.ge, h.bufsz, h.capacity⟩

theorem lengthRead_eq {posn : ℤ} (hposn : posn = p) (hshort : p + len < 2 ^ 31)
    (hbefore : p < fsc.file.fileSize) :
    lengthRead fsc posn len = min len (fsc.file.fileSize - p) := by
  unfold lengthRead uint32
  split <;> omega

theorem Serving.ready (h : Serving host.usb device fd fsc₀ fsc w) (hvolume : OnVolume fsc₀)
    (hshort : p + len < 2 ^ 31) (hbefore : p < fsc.file.fileSize) :
    Ready host device w.maxBufszClusts ⟨fsc, w.devs, p, [], w.requests⟩ p
      (min len (fsc.file.fileSize - p)) := by
  have hend : p + min len (fsc.file.fileSize - p) ≤ fsc.file.fileSize := by omega
  exact ⟨hvolume.of_unread h.unread, h.buffered, h.bufsz, h.capacity, rfl, hend, by omega⟩

/-- Where all commands succeed, the sector reads of a call do. -/
theorem Serving.sectorReadsSucceed (h : Serving host.usb device fd fsc₀ fsc w)
    (hvolume : OnVolume fsc₀) (hok : ∀ k, host.usb.transport k = true)
    (hsize : host.usb.blksz device = 512) (hlow : Low fsc₀)
    (hslot : Slot host.usb fsc.fd device w.devs) (hposn : (w.file fd).posn = p)
    (hshort : p + len < 2 ^ 31) : SectorReadsSucceed host device fd len w := by
  refine ⟨?_⟩
  intro self' fsc' hfile' hbefore
  obtain ⟨self, hfile⟩ := h.myfile
  obtain ⟨-, rfl⟩ := Prod.mk.inj (Option.some.inj (hfile.symm.trans hfile'))
  have hready := h.ready hvolume hshort (show p < fsc.file.fileSize by omega)
  rw [lengthRead_eq hposn hshort (by omega), hposn]
  exact hready.roundsSucceed hok hsize (hlow.of_unread h.unread) hslot

theorem fatRead_serving (h : OnVolume fsc₀) (hserving : Serving host.usb device fd fsc₀ fsc w)
    (hposn : (w.file fd).posn = p) (hshort : p + len < 2 ^ 31)
    (hbefore : p < fsc₀.file.fileSize) (hok : SectorReadsSucceed host device fd len w) :
    ∃ fsc' w', fatRead host fd len w = some (((min len (fsc₀.file.fileSize - p) : ℕ) : ℤ),
        fileBytes host.usb device fsc₀ p (min len (fsc₀.file.fileSize - p)), w') ∧
      (w'.file fd).posn = ((p + min len (fsc₀.file.fileSize - p) : ℕ) : ℤ) ∧
      Serving host.usb device fd fsc₀ fsc' w' := by
  obtain ⟨self, hfile⟩ := hserving.myfile
  have hentry : fsc.file = fsc₀.file := file_of_unread hserving.unread
  rw [← hentry] at hbefore ⊢
  have hread := hok.rounds self fsc hfile (by omega)
  have hlength := lengthRead_eq hposn hshort hbefore
  rw [hlength, hposn] at hread
  obtain ⟨r', heq, hdelivers⟩ := (hserving.ready h hshort hbefore).fatReadFrom_delivers le_rfl hread
  have hk : min len (fsc.file.fileSize - p) ≤ len := min_le_left _ _
  generalize min len (fsc.file.fileSize - p) = k at *
  unfold lengthRead at hlength
  have hunread : r'.fsc.unread = fsc.unread := hdelivers.unread
  have hat : ((({ w.setMyfile fd self r'.fsc with devs := r'.devs, requests := r'.requests } :
      World).setPosn fd r'.posn).file fd).posn = r'.posn :=
    congrArg File.posn World.file_onFile
  refine ⟨r'.fsc, ({ w.setMyfile fd self r'.fsc with devs := r'.devs, requests := r'.requests } :
    World).setPosn fd r'.posn, ?_, ?_, ?_⟩
  · unfold fatRead
    rw [hfile]
    dsimp only
    rw [if_neg (by omega), hlength, hposn, heq]
    dsimp only
    rw [if_neg (by omega), hdelivers.posn, hdelivers.out, fileBytes_of_unread hserving.unread,
      Int.natCast_add, add_sub_cancel_left, int32_eq_of_lt (Int.natCast_nonneg k) (by omega)]
    rfl
  · rw [hat, hdelivers.posn]
  · refine ⟨⟨self, Function.update_self ..⟩, hunread.trans hserving.unread, hdelivers.buffered, ?_,
      hserving.bufsz, ?_⟩
    · rw [hat, hdelivers.posn]
      exact Int.natCast_nonneg _
    · rw [bytesPerClust_of_unread hunread, hdelivers.length]
      exact hserving.capacity

theorem step_serving {call : Access} (h : OnVolume fsc₀)
    (hserving : ∃ fsc, Serving host.usb device fd fsc₀ fsc w)
    (hallowed : Allowed host device fd w call) (hstep : step host fd w call = some w') :
    ∃ fsc, Serving host.usb device fd fsc₀ fsc w' := by
  obtain ⟨fsc, hserving⟩ := hserving
  obtain ⟨self, hfile⟩ := hserving.myfile
  cases call with
  | lseek offset whence =>
      obtain ⟨⟨res, w''⟩, hseek, heq⟩ := Option.map_eq_some_iff.mp hstep
      obtain rfl : w'' = w' := heq
      have hposn := hallowed res w'' hseek
      unfold fatLseek at hseek
      rw [hfile] at hseek
      cases whence <;>
      · cases hseek
        exact ⟨fsc, ⟨self, hfile⟩, hserving.unread, hserving.buffered, hposn, hserving.bufsz,
          hserving.capacity⟩
  | read len =>
      obtain ⟨⟨res, out, w''⟩, hread, heq⟩ := Option.map_eq_some_iff.mp hstep
      obtain rfl : w'' = w' := heq
      obtain ⟨hshort, hok⟩ := hallowed
      obtain ⟨p, hp⟩ := Int.eq_ofNat_of_zero_le hserving.posn
      rcases Nat.lt_or_ge p fsc₀.file.fileSize with hbefore | hbehind
      · obtain ⟨fsc', v, heq, -, hlater⟩ :=
          fatRead_serving h hserving hp (by omega) hbefore hok
        rw [heq] at hread
        cases hread
        exact ⟨fsc', hlater⟩
      · unfold fatRead at hread
        rw [hfile] at hread
        dsimp only at hread
        rw [if_pos (by rw [file_of_unread hserving.unread]; omega)] at hread
        cases hread
        exact ⟨fsc, hserving⟩

/-- In every sequence of calls, each read delivers the bytes of the file from the position on. -/
theorem fatRead_delivers_file (h : OnVolume fsc)
    (hreach : Runs.Reach (step host fd) (Allowed host device fd) (Opened fd fsc) w)
    (hallowed : Allowed host device fd w (.read len))
    (hbefore : (w.file fd).posn < fsc.file.fileSize) :
    ∃ (p : ℕ) (w' : World), (w.file fd).posn = p ∧
      fatRead host fd len w = some (((min len (fsc.file.fileSize - p) : ℕ) : ℤ),
        fileBytes host.usb device fsc p (min len (fsc.file.fileSize - p)), w') ∧
      (w'.file fd).posn = ((p + min len (fsc.file.fileSize - p) : ℕ) : ℤ) := by
  have hserving : ∃ fsc', Serving host.usb device fd fsc fsc' w :=
    hreach.invariant (fun _ hopened => ⟨fsc, hopened.serving⟩)
      fun _ _ _ hserving hguard hstep => step_serving h hserving hguard hstep
  obtain ⟨fsc', hserving⟩ := hserving
  obtain ⟨p, hposn⟩ := Int.eq_ofNat_of_zero_le hserving.posn
  obtain ⟨hshort, hok⟩ := hallowed
  obtain ⟨-, w', hread, hat, -⟩ :=
    fatRead_serving h hserving hposn (by omega) (by omega) hok
  exact ⟨p, w', hposn, hread, hat⟩

/-- A file of 600 bytes in the clusters 5 and 3. -/
def smallFsc : FatSc :=
  { clearedSc 0 with
    secPerClust := 1
    bytesPerClust := 512
    dataSectorBase := 4
    file := ⟨[], [], 0, 5, 600, ⟨5, [5, 3, 0xfff], 2, some 1⟩⟩
    lastSector := -1
    lastSectorBlock := some 0
    lastSectorBuffer := List.replicate 1024 0 }

/-- Each byte of the device is the number of its sector. -/
def smallHost : Host where
  usb := { oneUsb 512 with content := fun _ i => BitVec.ofNat 8 (i / 512) }
  refuses := fun _ => false
  steps := 0
  fatBufferAddr := 0
  dirBufferAddr := 0
  sectorBufferAddr := 0
  stackAddr := 0
  stack := []
  chainFront := fun _ _ => none
  bufferFront := fun _ _ => 0

def smallWorld : World where
  file := fun _ => ⟨true, 0, some .fat, none⟩
  devs := oneOpen 0
  myfile := fun _ => some (7, smallFsc)
  heap := ⟨1, [(0, 1024)]⟩
  maxBufszClusts := 2
  mtdfiles := []
  netCalls := 0
  calls := []
  requests := []
  fatSteps := []

theorem smallFsc_onVolume : OnVolume smallFsc :=
  ⟨by decide, rfl, by decide, by decide, by decide, by decide⟩

theorem smallWorld_opened : Opened 0 smallFsc smallWorld := by
  refine ⟨⟨7, rfl⟩, rfl, rfl, rfl, Nat.two_pos, ?_⟩
  change 2 * 512 ≤ (List.replicate 1024 (0 : BitVec 8)).length
  rw [List.length_replicate]

/-- Four bytes across the end of the first cluster. -/
theorem fatRead_delivers_file_fragmented : ∃ w',
    fatRead smallHost 0 4 (smallWorld.setPosn 0 510) = some (4, [7, 7, 5, 5], w') ∧
      (w'.file 0).posn = 514 := by
  have hposn : ((smallWorld.setPosn 0 510).file 0).posn = (510 : ℕ) := rfl
  have hreach : Runs.Reach (step smallHost 0) (Allowed smallHost 0 0) (Opened 0 smallFsc)
      (smallWorld.setPosn 0 510) := by
    refine (Runs.Reach.start smallWorld_opened).step (e := .lseek 510 .set) ?_ rfl
    intro res w' h
    cases h
    decide
  have hserving : Serving smallHost.usb 0 0 smallFsc smallFsc (smallWorld.setPosn 0 510) :=
    ⟨⟨7, rfl⟩, rfl, Or.inl rfl, (Int.natCast_nonneg 510).trans hposn.ge, Nat.two_pos,
      smallWorld_opened.capacity⟩
  have hslot : Slot smallHost.usb smallFsc.fd 0 (smallWorld.setPosn 0 510).devs :=
    ⟨⟨0, Or.inl rfl, rfl, rfl, rfl, rfl, rfl, List.length_replicate, List.length_replicate⟩, rfl⟩
  have hlow : ∀ q < sectorCount smallFsc, fileSector smallFsc q < 2 ^ 31 := by decide
  have hok : SectorReadsSucceed smallHost 0 0 4 (smallWorld.setPosn 0 510) :=
    @Serving.sectorReadsSucceed smallHost 0 4 510 smallFsc 0 (smallWorld.setPosn 0 510) smallFsc
      hserving smallFsc_onVolume (fun _ => rfl) rfl hlow hslot hposn (by omega)
  have hshort : ((smallWorld.setPosn 0 510).file 0).posn + ((4 : ℕ) : ℤ) < 2 ^ 31 := by
    omega
  have hbefore : ((smallWorld.setPosn 0 510).file 0).posn < (smallFsc.file.fileSize : ℤ) :=
    hposn.trans_lt (Int.ofNat_lt.mpr (show 510 < 600 by decide))
  have hallowed : Allowed smallHost 0 0 (smallWorld.setPosn 0 510) (.read 4) :=
    allowed_read.mpr ⟨hshort, hok⟩
  obtain ⟨p, w', hp, hread, hat⟩ :=
    fatRead_delivers_file smallFsc_onVolume hreach hallowed hbefore
  obtain rfl : p = 510 := Int.ofNat_inj.mp (hp.symm.trans hposn)
  have hcount : min 4 (smallFsc.file.fileSize - 510) = 4 := by decide
  have hbytes : fileBytes smallHost.usb 0 smallFsc 510 4 = [7, 7, 5, 5] := by decide
  rw [hcount, hbytes] at hread
  rw [hcount] at hat
  exact ⟨w', hread, hat⟩

end Fat

end LuojiOs
