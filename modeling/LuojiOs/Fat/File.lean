import LuojiOs.Files.World

/-!
# Files on a FAT volume

`fat_open`, `fat_close`, `fat_read` and `fat_lseek`.  The function `close` of the table of open
files, which the first two call, is a parameter here.
-/

namespace LuojiOs

namespace Fat

open Devfs

variable (host : Host) (close : ℤ → World → Option (ℤ × World))

/-! ## Opening and closing -/

/-- The device that a path names, the partition on it, and the path of the file there. -/
structure FatPath where
  device : CString
  partition : ℕ
  filename : CString
  deriving DecidableEq

def fatName (path : CString) : CString :=
  let opath := skipPrefix (cstr "/dev/") path
  if (cstr "fat/").isPrefixOf opath then opath.drop 4 else skipPrefix (cstr "fat@") opath

/-- A last letter of the device is the partition. -/
def cutPartition (dpath : CString) : CString × ℕ :=
  match dpath.getLast? with
  | some c => if 0x61 ≤ c.toNat ∧ c.toNat ≤ 0x7a then (dpath.dropLast, c.toNat - 0x61)
      else (dpath, 0)
  | none => (dpath, 0)

/-- The parts of a path, if there is a component behind the device. -/
def parsePath (path : CString) : Option FatPath :=
  match cutAt slash (fatName path) with
  | (_, none) => none
  | (name, some filename) =>
    let (device, partition) := cutPartition (cstr "/dev/" ++ name)
    some ⟨device, partition, filename⟩

/-- The longest name of a device for which `dpath[64]` has room. -/
def maxDeviceName : ℕ := 58

def volOf (fsc : FatSc) (w : World) : Vol := ⟨fsc, w.devs, w.heap, w.maxBufszClusts⟩

/-- The volume has been used up to the state `vol`. -/
def useVol (vol : Vol) (w : World) : World :=
  { w with devs := vol.devs, heap := vol.heap, maxBufszClusts := vol.maxBufszClusts }

/-- `sizeof(struct fat_sc)` -/
def SIZEOF_FAT_SC : ℕ := 1416

/-- The exits behind `fat_init` that fail. -/
def failOpen (fd : ℤ) (self : ℕ) (w : World) : Option (ℤ × World) :=
  let w := { w with heap := w.heap.free (some self) }
  (close fd (w.setValid fd false)).map fun (_, w) => (-1, w)

/-- `fat_open` once the device is open. -/
def openFile (fd : ℤ) (p : FatPath) (self : ℕ) (w : World) : Option (ℤ × World) :=
  match fatInit host fd p.partition (volOf (clearedSc 0) w) with
  | none => none
  | some (res, vol) =>
    let w := { w with fatSteps := .init res :: w.fatSteps }
    if res = 0 then failOpen close fd self (useVol vol w)
    else
      let w := { w with fatSteps := .lookup :: w.fatSteps }
      match fatFindfile host p.filename vol with
      | none => none
      | some (res, vol) =>
        let w := useVol vol w
        if res ≤ 0 ∨ res = 2 then failOpen close fd self w
        else
          let fsc := { vol.fsc with lastSector := -1, bytesOfBuffer := 0, sectorsOfBuffer := 0 }
          some (fd, (w.setPosn fd 0).setMyfile fd self fsc)

/-- `fat_open`.  No result is given where the name of the device does not fit into `dpath`. -/
def fatOpen (fd : ℤ) (path : CString) (w : World) : Option (ℤ × World) :=
  match parsePath path with
  | none => some (-1, w)
  | some p =>
    if maxDeviceName < (cutAt slash (fatName path)).1.length then none
    else
      match w.heap.malloc host SIZEOF_FAT_SC with
      | (none, heap) => some (-1, { w with heap := heap })
      | (some self, heap) =>
        let w := { w with heap := heap }
        let w := w.onFile fd fun file => { file with valid := true, posn := 0 }
        let (res, devs) := devioOpen host.usb fd p.device w.devs
        let w := { w with devs := devs }
        if res = 0 then some (-1, w) else openFile host close fd p self w

/-- `fat_close`; a descriptor that was never opened has no `fat_sc`. -/
def fatClose (fd : ℤ) (w : World) : Option (ℤ × World) :=
  match w.myfile fd with
  | none => none
  | some (self, fsc) =>
    let chain := fsc.file.chain
    let fsc := { fsc with file := { fsc.file with
      chain := { chain with entries := [], count := 0, block := none } } }
    let w := { w.setMyfile fd self fsc with heap := w.heap.free chain.block }
    match close fsc.fd w with
    | none => none
    | some (_, w) =>
      some (0, { w with heap := w.heap.free (some self), devs := devioClose fd w.devs })

/-! ## Reading -/

/-- `chain->entries[place]`.  At a negative place this is the memory in front of the entries. -/
def Fatchain.entryAt (front : ℤ → Option ℕ) (chain : Fatchain) (place : ℤ) : Option ℕ :=
  if place < 0 then front place else some (chain.entries.getD place.toNat 0)

/-- The clusters that follow one another on the disk, from the place `clusterIndex` of the chain
on: the value of `i` at the end of the loop of `getSectorIndex_read`. -/
def clusterRun (front : ℤ → Option ℕ) (chain : Fatchain) : ℕ → ℤ → ℕ → ℤ → Option ℕ
  | 0, _, i, _ => some i
  | limit + 1, clusterIndex, i, lastentry =>
    if clusterIndex < chain.count then
      match chain.entryAt front clusterIndex with
      | none => none
      | some e =>
        let entry := int32 e
        if i ≠ 0 ∧ lastentry + 1 ≠ entry then some i
        else clusterRun front chain limit (clusterIndex + 1) (i + 1) entry
    else some i

/-- `getSectorIndex_read`: the sector, and the extent of a read from there on. -/
def getSectorIndexRead (front : ℤ → Option ℕ) (maxBufszClusts : ℕ) (index : ℤ) (need : ℕ)
    (fsc : FatSc) : Option (ℤ × FatSc) :=
  let chain := fsc.file.chain
  let sectorIndex := index.tmod fsc.secPerClust
  let clusterIndex := index.tdiv fsc.secPerClust
  let limit := min ((need + fsc.secPerClust - 1) / fsc.secPerClust) maxBufszClusts
  match clusterRun front chain limit clusterIndex 0 0 with
  | none => none
  | some i =>
    let entry₀ : ℤ := if 0 < limit ∧ clusterIndex < chain.count then
        int32 ((chain.entryAt front clusterIndex).getD 0)
      else 0
    let nextSectors := uint32 (min ((i * fsc.secPerClust : ℕ) - sectorIndex) need)
    some (int32 (fsc.dataSectorBase + (entry₀ - 2) * fsc.secPerClust + sectorIndex),
      { fsc with
        nextSectorsOfBuffer := nextSectors
        nextBytesOfBuffer := uint32 (nextSectors * SECTORSIZE : ℕ) })

/-- What `fat_read` works on: the file, its position, and what has been delivered. -/
structure Reading where
  fsc : FatSc
  devs : Devs
  posn : ℤ
  out : List (BitVec 8)
  requests : List Request

/-- Whether the sector lies outside of the buffer. -/
def missed (sector : ℤ) (fsc : FatSc) : Bool :=
  fsc.lastSector = -1 ∨ sector < fsc.lastSector ∨
    uint32 (fsc.lastSector + fsc.sectorsOfBuffer) ≤ uint32 sector

/-- The extent that was computed last is read into the buffer, from this sector on. -/
def refill (allocated : Bool) (sector : ℤ) (r : Reading) : ℤ × Reading :=
  let fsc := { r.fsc with
    sectorsOfBuffer := r.fsc.nextSectorsOfBuffer
    bytesOfBuffer := r.fsc.nextBytesOfBuffer
    lastSector := sector }
  let count := int32 fsc.sectorsOfBuffer
  let request : Request :=
    ⟨fsc.fd, uint32 (SECTORSIZE * count), fsc.lastSectorBuffer.length, allocated⟩
  let (res, bytes, devs) := readsector host fsc sector count
    ⟨host.sectorBufferAddr, fsc.lastSectorBuffer, 0⟩ r.devs
  (res, { r with
    fsc := { fsc with lastSectorBuffer := bytes }
    devs := devs
    requests := request :: r.requests })

/-- The bytes from `&LastSectorBuffer[offset]` on, which may lie in front of the buffer. -/
def bytesFrom (front : ℕ → BitVec 8) (buffer : List (BitVec 8)) (offset : ℤ) : List (BitVec 8) :=
  (List.range (-offset).toNat).reverse.map front ++ buffer.drop offset.toNat

/-- The bytes of the buffer from the position on are delivered, and the number of them. -/
def copyOut (sector : ℤ) (len : ℕ) (r : Reading) : ℕ × Reading :=
  let offset := int32 ((sector - r.fsc.lastSector) * SECTORSIZE + r.posn.tmod SECTORSIZE)
  let copylen := min len (uint32 (r.fsc.bytesOfBuffer - offset))
  (copylen, { r with
    out := r.out ++
      (bytesFrom (host.bufferFront r.posn) r.fsc.lastSectorBuffer offset).take copylen
    posn := r.posn + copylen })

/-- `(len + SECTORSIZE - 1) / SECTORSIZE`, of type `size_t` -/
def sectorsNeeded (len : ℕ) : ℕ := uint32 (len + SECTORSIZE - 1 : ℕ) / SECTORSIZE

/-- The loop of `fat_read`, with `res` at its end.  A round that delivers nothing repeats itself
for ever, so that as many rounds as there are bytes are enough. -/
def fatReadFrom (maxBufszClusts : ℕ) (allocated : Bool) :
    ℕ → ℕ → Reading → Option (ℤ × Reading)
  | 0, len, r => if len = 0 then some (0, r) else none
  | rounds + 1, len, r =>
    if len = 0 then some (0, r)
    else
      let index := int32 (r.posn.tdiv SECTORSIZE)
      match getSectorIndexRead (host.chainFront r.posn) maxBufszClusts index (sectorsNeeded len)
          r.fsc with
      | none => none
      | some (sector, fsc) =>
        let r := { r with fsc := fsc }
        let (res, r) := if missed sector fsc then refill host allocated sector r else (0, r)
        if res < 0 then some (res, r)
        else
          let (copylen, r) := copyOut host sector len r
          fatReadFrom maxBufszClusts allocated rounds (len - copylen) r

def Blocks.isLive (block : Option ℕ) (heap : Blocks) : Bool :=
  match block with
  | none => false
  | some b => heap.live.any fun a => a.1 = b

/-- `fat_read`: the result, and what was stored in `buf`.  The position is a `long long`, and
`origpos` and `totalcopy` are of type `int`. -/
def fatRead (fd : ℤ) (len : ℕ) (w : World) : Option (ℤ × List (BitVec 8) × World) :=
  match w.myfile fd with
  | none => none
  | some (self, fsc) =>
    let origpos := (w.file fd).posn
    if (fsc.file.fileSize : ℤ) ≤ origpos then some (-1, [], w)
    else
      let len := if (fsc.file.fileSize : ℤ) < origpos + len then uint32 (fsc.file.fileSize - origpos)
        else len
      let r : Reading := ⟨fsc, w.devs, origpos, [], w.requests⟩
      match fatReadFrom host w.maxBufszClusts (w.heap.isLive fsc.lastSectorBlock) len len r with
      | none => none
      | some (res, r) =>
        let w := { w.setMyfile fd self r.fsc with devs := r.devs, requests := r.requests }
        if res < 0 then some (res, r.out, w.setPosn fd (int32 origpos))
        else some (int32 (r.posn - origpos), r.out, w.setPosn fd r.posn)

/-- `fat_write`, with its `EROFS` -/
def fatWrite : ℤ := 30

inductive Whence where
  | set
  | cur
  | stop
  | other
  deriving DecidableEq

def fatLseek (fd : ℤ) (offset : ℤ) (whence : Whence) (w : World) : Option (ℤ × World) :=
  match w.myfile fd with
  | none => none
  | some (_, fsc) =>
    let posn := (w.file fd).posn
    match whence with
    | .set => some (offset, w.setPosn fd offset)
    | .cur => some (posn + offset, w.setPosn fd (posn + offset))
    | .stop => some (fsc.file.fileSize + offset, w.setPosn fd (fsc.file.fileSize + offset))
    | .other => some (-1, w)

end Fat

end LuojiOs
