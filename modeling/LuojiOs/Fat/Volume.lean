import LuojiOs.Files.Devfs

/-!
# FAT volumes

The functions of `fatfs.c` that read the structures of a volume: the boot sector, the table of
clusters, and directories.  Paths have been cut at each `/` beforehand.

A call has no result where the source does not come to an end in an orderly way: the walk along
a chain of clusters that does not end within the given number of steps, a division by 0, a chain
that is used although it was never filled, an array that is written without memory for it.

Left out are what is printed while a directory is listed, and the dates and check sums.
-/

namespace LuojiOs

namespace Fat

open Devfs

def SECTORSIZE : ℕ := 512

def MAX_DIRBUF : ℕ := 10

/-- A value stored in a `u_int32_t`. -/
def uint32 (x : ℤ) : ℕ := (x % 2 ^ 32).toNat

/-! ## Data -/

inductive FatType where
  | unset
  | fat12
  | fat16
  | fat32
  deriving DecidableEq

/-- `FAT12_MASK`, `FAT16_MASK`, `FAT32_MASK` -/
def FatType.mask : FatType → ℕ
  | .unset => 0
  | .fat12 => 0xfff
  | .fat16 => 0xffff
  | .fat32 => 0xfffffff

/-- `struct fatchain`; `block` is the memory behind `entries`. -/
structure Fatchain where
  start : ℤ
  entries : List ℕ
  count : ℕ
  block : Option ℕ
  deriving DecidableEq

structure FatFileentry where
  longName : CString
  shortName : CString
  highClust : ℕ
  startCluster : ℕ
  fileSize : ℕ
  chain : Fatchain
  deriving DecidableEq

/-- `struct fat_sc`.  `lastSectorBlock` is the pointer `LastSectorBuffer`, and
`lastSectorBuffer` are the bytes behind it. -/
structure FatSc where
  fd : ℤ
  fatType : FatType
  bytesPerSec : ℕ
  secPerClust : ℕ
  resSectors : ℕ
  numFATs : ℕ
  rootDirEnts : ℕ
  totalSectors : ℕ
  fatSecs : ℕ
  rootDirSectors : ℕ
  countOfClusters : ℕ
  firstRootDirSecNum : ℕ
  dataSectors : ℕ
  dataSectorBase : ℕ
  partitionStart : ℕ
  rootClus : ℕ
  fatBuffer : List (BitVec 8)
  fatCacheNum : ℤ
  dirBuffer : List (BitVec 8)
  file : FatFileentry
  lastSector : ℤ
  lastSectorBlock : Option ℕ
  lastSectorBuffer : List (BitVec 8)
  bytesPerClust : ℕ
  bytesOfBuffer : ℕ
  sectorsOfBuffer : ℕ
  nextBytesOfBuffer : ℕ
  nextSectorsOfBuffer : ℕ
  deriving DecidableEq

def emptyChain : Fatchain := ⟨0, [], 0, none⟩

/-- All fields cleared by `memset`. -/
def clearedSc (fd : ℤ) : FatSc where
  fd := fd
  fatType := .unset
  bytesPerSec := 0
  secPerClust := 0
  resSectors := 0
  numFATs := 0
  rootDirEnts := 0
  totalSectors := 0
  fatSecs := 0
  rootDirSectors := 0
  countOfClusters := 0
  firstRootDirSecNum := 0
  dataSectors := 0
  dataSectorBase := 0
  partitionStart := 0
  rootClus := 0
  fatBuffer := List.replicate SECTORSIZE 0
  fatCacheNum := 0
  dirBuffer := List.replicate SECTORSIZE 0
  file := ⟨[], [], 0, 0, 0, emptyChain⟩
  lastSector := 0
  lastSectorBlock := none
  lastSectorBuffer := []
  bytesPerClust := 0
  bytesOfBuffer := 0
  sectorsOfBuffer := 0
  nextBytesOfBuffer := 0
  nextSectorsOfBuffer := 0

/-! ## Memory -/

/-- The blocks that are allocated, with their sizes.  No number is used twice. -/
structure Blocks where
  next : ℕ
  live : List (ℕ × ℕ)
  deriving DecidableEq

/-- What lies outside: the devices, which requests for memory are refused, the number of steps
that are waited for the end of a chain, where the buffers lie, what a buffer on the stack holds
before it is filled, and what stands in memory in front of the entries of a chain and in front of
the buffer of a file, while the file is read at a position.  Where there is no memory, the
processor does not come back from reading it. -/
structure Host where
  usb : Usb
  refuses : ℕ → Bool
  steps : ℕ
  fatBufferAddr : ℕ
  dirBufferAddr : ℕ
  sectorBufferAddr : ℕ
  stackAddr : ℕ
  stack : List (BitVec 8)
  chainFront : ℤ → ℤ → Option ℕ
  bufferFront : ℤ → ℕ → BitVec 8

/-- `malloc` -/
def Blocks.malloc (host : Host) (size : ℕ) (heap : Blocks) : Option ℕ × Blocks :=
  if host.refuses heap.next then (none, { heap with next := heap.next + 1 })
  else (some heap.next, { next := heap.next + 1, live := (heap.next, size) :: heap.live })

/-- `free`, of nothing if the pointer is `NULL` -/
def Blocks.free (block : Option ℕ) (heap : Blocks) : Blocks :=
  match block with
  | none => heap
  | some b => { heap with live := heap.live.filter fun a => a.1 ≠ b }

/-- What the functions on a volume work on. -/
structure Vol where
  fsc : FatSc
  devs : Devs
  heap : Blocks
  maxBufszClusts : ℕ

/-! ## Bytes of a structure -/

def byteAt (d : List (BitVec 8)) (i : ℕ) : ℕ := (d.getD i 0).toNat

/-- `letoh16` -/
def letoh16 (d : List (BitVec 8)) (i : ℕ) : ℕ := byteAt d i + 0x100 * byteAt d (i + 1)

/-- `letoh32` -/
def letoh32 (d : List (BitVec 8)) (i : ℕ) : ℕ := letoh16 d i + 0x10000 * letoh16 d (i + 2)

/-! ## Sectors -/

/-- `readsector`: the result, and the buffer after it. -/
def readsector (host : Host) (fsc : FatSc) (sector count : ℤ) (buffer : Dest) (devs : Devs) :
    ℤ × List (BitVec 8) × Devs :=
  let res := (fsc.partitionStart : ℤ) * SECTORSIZE + SECTORSIZE * sector
  let devs := (devioLseek fsc.fd res 0 devs).2
  let (res, buffer, devs) :=
    devioRead host.usb fsc.fd buffer (uint32 (SECTORSIZE * count)) devs
  (if res = int32 (SECTORSIZE * count) then 1 else -1, buffer.bytes, devs)

/-- A sector of the table, read into `FatBuffer`, and whether that succeeded. -/
def loadFatSector (host : Host) (fatsect : ℕ) (vol : Vol) : Bool × Vol :=
  let (res, bytes, devs) := readsector host vol.fsc (int32 (fatsect + vol.fsc.resSectors)) 1
    ⟨host.fatBufferAddr, vol.fsc.fatBuffer, 0⟩ vol.devs
  let fsc := { vol.fsc with fatBuffer := bytes }
  if res < 0 then (false, { vol with fsc := fsc, devs := devs })
  else (true, { vol with fsc := { fsc with fatCacheNum := int32 fatsect }, devs := devs })

/-- The same, unless the sector is there already. -/
def cacheFatSector (host : Host) (fatsect : ℕ) (vol : Vol) : Bool × Vol :=
  if uint32 vol.fsc.fatCacheNum ≠ fatsect then loadFatSector host fatsect vol else (true, vol)

/-- The result `-1` of a failed read, as the `u_int32_t` that is returned. -/
def failedEntry : ℕ := 0xffffffff

/-- `getFatEntry` for tables whose entries do not cross a sector. -/
def wholeFatEntry (host : Host) (byteoffset : ℕ) (value : List (BitVec 8) → ℕ → ℕ) (vol : Vol) :
    ℕ × Vol :=
  match cacheFatSector host (byteoffset / SECTORSIZE) vol with
  | (false, vol) => (failedEntry, vol)
  | (true, vol) => (value vol.fsc.fatBuffer (byteoffset % SECTORSIZE), vol)

/-- `getFatEntry` for FAT12: the three bytes of an entry may lie in two sectors. -/
def fat12Entry (host : Host) (entry : ℤ) (vol : Vol) : ℕ × Vol :=
  let byteoffset := uint32 ((entry - entry % 2) * 3 / 2)
  let fatsect := byteoffset / SECTORSIZE
  let fatoffset : ℤ := (byteoffset % SECTORSIZE : ℕ)
  let byte (vol : Vol) (i : ℤ) : ℕ := byteAt vol.fsc.fatBuffer i.toNat
  match cacheFatSector host fatsect vol with
  | (false, vol) => (failedEntry, vol)
  | (true, vol) =>
    let b₁ := byte vol fatoffset
    let crossed := decide (SECTORSIZE ≤ fatoffset + 1)
    match if crossed then loadFatSector host (fatsect + 1) vol else (true, vol) with
    | (false, vol) => (failedEntry, vol)
    | (true, vol) =>
      let fatoffset := if crossed then fatoffset - SECTORSIZE else fatoffset
      let b₂ := byte vol (fatoffset + 1)
      let crossed := decide (SECTORSIZE ≤ fatoffset + 2)
      match if crossed then loadFatSector host (fatsect + 1) vol else (true, vol) with
      | (false, vol) => (failedEntry, vol)
      | (true, vol) =>
        let fatoffset := if crossed then fatoffset - SECTORSIZE else fatoffset
        let b₃ := byte vol (fatoffset + 2)
        (if entry % 2 = 1 then b₃ * 16 + b₂ / 16 else b₂ % 16 * 256 + b₁, vol)

def getFatEntry (host : Host) (entry : ℤ) (vol : Vol) : ℕ × Vol :=
  match vol.fsc.fatType with
  | .fat12 => fat12Entry host entry vol
  | .fat16 => wholeFatEntry host (uint32 (entry * 2)) letoh16 vol
  | .fat32 => wholeFatEntry host (uint32 (entry * 4)) letoh32 vol
  | .unset => (0, vol)

/-! ## Chains -/

/-- One walk along a chain: the entries read, with the one that ended it, and whether that one
was an end of chain mark. -/
def walkChain (host : Host) : ℕ → ℤ → Vol → Option (Bool × List ℕ × Vol)
  | 0, _, _ => none
  | steps + 1, flag, vol =>
    let (entry, vol) := getFatEntry host flag vol
    let mask := vol.fsc.fatType.mask
    if entry = mask &&& 0xfffffff7 then some (false, [entry], vol)
    else if mask &&& 0xfffffff8 ≤ entry then some (true, [entry], vol)
    else (walkChain host steps (int32 entry) vol).map fun (ok, entries, vol) =>
      (ok, entry :: entries, vol)

/-- `fat_getChain`: the result, and the chain if it was filled. -/
def fatGetChain (host : Host) (start : ℤ) (vol : Vol) : Option (ℤ × Option Fatchain × Vol) :=
  match walkChain host host.steps start vol with
  | none => none
  | some (false, _, vol) => some (-1, none, vol)
  | some (true, counted, vol) =>
    match vol.heap.malloc host (4 * counted.length + 512) with
    | (none, _) => none
    | (some block, heap) =>
      match walkChain host host.steps start { vol with heap := heap } with
      | none => none
      | some (ok, entries, vol) =>
        let chain : Fatchain :=
          { start := start
            entries := uint32 start :: entries
            count := counted.length
            block := some block }
        some (if ok then 1 else -1, some chain, vol)

def getSectorIndex (fsc : FatSc) (chain : Fatchain) (index clustNum : ℕ) : ℤ :=
  let entry : ℤ := if index / fsc.secPerClust < chain.count then
      int32 (chain.entries.getD clustNum 0)
    else -1
  int32 (fsc.dataSectorBase + (entry - 2) * fsc.secPerClust + index % fsc.secPerClust)

/-! ## Directory entries -/

def SLOT_EMPTY : ℕ := 0

def SLOT_DELETED : ℕ := 0xe5

def ATTR_VOLUME : ℕ := 0x08

def ATTR_WIN95 : ℕ := 0x0f

/-- The 32 bytes of `struct direntry`. -/
abbrev Direntry := List (BitVec 8)

def space : BitVec 8 := 0x20

def slash : BitVec 8 := 0x2f

/-- The characters of a `winentry`, in the order of the name. -/
def longNamePart (wine : Direntry) : CString :=
  [1, 3, 5, 7, 9, 14, 16, 18, 20, 22, 24, 28, 30].map fun i =>
    let c := wine.getD i 0
    if c = 0x0a then 0x5f else c

def parseShortFilename (dire : Direntry) : CString :=
  let ext := (dire.drop 8).take 3
  ((dire.take 8).takeWhile (· ≠ space) ++ (if ext.getD 0 0 ≠ space then [0x2e] else []) ++
    ext.takeWhile (· ≠ space)).takeWhile (· ≠ 0)

/-- `fat_parseDirEntries`, where `wines` stands in `dirbuf` before the entry. -/
def fatParseDirEntries (wines : List Direntry) (dire : Direntry) (filee : FatFileentry) :
    FatFileentry :=
  { filee with
    highClust := letoh16 dire 20
    startCluster := letoh16 dire 26
    fileSize := letoh32 dire 28
    shortName := parseShortFilename dire
    longName := if wines = [] then filee.longName
      else (wines.reverse.flatMap longNamePart).takeWhile (· ≠ 0) }

/-- `_tolower_tab_` -/
def tolower (c : BitVec 8) : BitVec 8 := if 0x41 ≤ c.toNat ∧ c.toNat ≤ 0x5a then c + 0x20 else c

/-- `strcasecmp(s1, s2) == 0` -/
def strcaseequ (s₁ s₂ : CString) : Bool := s₁.map tolower = s₂.map tolower

/-- `StartCluster | (HighClust << 16)` -/
def FatFileentry.cluster (filee : FatFileentry) : ℤ :=
  int32 (filee.startCluster + 0x10000 * filee.highClust)

/-! ## Directories -/

/-- Where the search through a directory stands: it goes on with what `dirbuf` and `filee` hold,
it has met the first unused slot, or it has found an entry with the name. -/
inductive Scan where
  | goOn (wines : List Direntry) (filee : FatFileentry)
  | unused
  | found (filee : FatFileentry)

/-- The slots of one sector.  A directory is listed when the name is empty and last. -/
def scanEntries (name : CString) (listing : Bool) :
    List Direntry → List Direntry → FatFileentry → Scan
  | [], wines, filee => .goOn wines filee
  | dire :: dires, wines, filee =>
    if byteAt dire 0 = SLOT_EMPTY then .unused
    else if byteAt dire 0 = SLOT_DELETED ∨ byteAt dire 11 = ATTR_VOLUME then
      scanEntries name listing dires wines filee
    else if byteAt dire 11 = ATTR_WIN95 then
      let wines := wines ++ [dire]
      scanEntries name listing dires (if MAX_DIRBUF ≤ wines.length then [] else wines) filee
    else
      let filee := fatParseDirEntries wines dire filee
      if ¬listing ∧ (strcaseequ name filee.shortName ∨ strcaseequ name filee.longName) then
        .found filee
      else scanEntries name listing dires [] filee

/-- The slots of a sector. -/
def direntries (sector : List (BitVec 8)) : List Direntry :=
  (List.range (SECTORSIZE / 32)).map fun i => (sector.drop (32 * i)).take 32

/-- The sectors of a directory, each read into `DirBuffer`.  The results of `readsector` are 1
and -1, so that the test against 0 never ends the search. -/
def scanSectors (host : Host) (name : CString) (listing : Bool) :
    List ℤ → List Direntry → FatFileentry → Vol → Scan × Vol
  | [], wines, filee, vol => (.goOn wines filee, vol)
  | sector :: sectors, wines, filee, vol =>
    let (_, bytes, devs) := readsector host vol.fsc sector 1
      ⟨host.dirBufferAddr, vol.fsc.dirBuffer, 0⟩ vol.devs
    let vol := { vol with fsc := { vol.fsc with dirBuffer := bytes }, devs := devs }
    match scanEntries name listing (direntries bytes) wines filee with
    | .goOn wines filee => scanSectors host name listing sectors wines filee vol
    | scan => (scan, vol)

def noFile : FatFileentry := ⟨[], [], 0, 0, 0, emptyChain⟩

/-- The sectors of a directory whose clusters are known. -/
def chainSectors (fsc : FatSc) (chain : Fatchain) : List ℤ :=
  (List.range chain.count).flatMap fun i =>
    (List.range fsc.secPerClust).map fun j => getSectorIndex fsc chain j i

def freeChain (chain : Fatchain) (vol : Vol) : Vol :=
  { vol with heap := vol.heap.free chain.block }

/-- The entry that was found is the file to open. -/
def takeFile (host : Host) (filee : FatFileentry) (vol : Vol) : Option (ℤ × Vol) :=
  let file := { vol.fsc.file with
    shortName := filee.shortName
    highClust := filee.highClust
    startCluster := filee.startCluster
    fileSize := filee.fileSize }
  match fatGetChain host file.cluster { vol with fsc := { vol.fsc with file := file } } with
  | none => none
  | some (_, none, vol) => some (1, vol)
  | some (_, some chain, vol) =>
    some (1, { vol with fsc := { vol.fsc with file := { vol.fsc.file with chain := chain } } })

/-- A directory is searched whose first cluster is known, and its chain freed. -/
def withChain (host : Host) (start : ℤ) (scan : Fatchain → Vol → Option (ℤ × Vol)) (vol : Vol) :
    Option (ℤ × Vol) :=
  match fatGetChain host start vol with
  | some (_, some chain, vol) =>
    (scan chain vol).map fun (res, vol) => (res, freeChain chain vol)
  | _ => none

/-- `fat_subdirscan` on the names of a path. -/
def fatSubdirscan (host : Host) : List CString → Fatchain → Vol → Option (ℤ × Vol)
  | [], _, _ => none
  | name :: rest, chain, vol =>
    let listing := decide (rest = [] ∧ name = [])
    match scanSectors host name listing (chainSectors vol.fsc chain) [] noFile vol with
    | (.goOn _ _, vol) => some (0, vol)
    | (.unused, vol) => some (if listing then 2 else 0, vol)
    | (.found filee, vol) =>
      if rest = [] then takeFile host filee vol
      else withChain host filee.cluster (fatSubdirscan host rest) vol

/-- `strchr(name, '/')`, again and again. -/
def splitPath (path : CString) : List CString := path.splitOn slash

/-- The sectors of the root directory, and one more. -/
def rootSectors (fsc : FatSc) : List ℤ :=
  (List.range (uint32 (fsc.rootDirSectors + fsc.firstRootDirSecNum) + 1 -
    fsc.firstRootDirSecNum)).map fun i : ℕ => int32 (fsc.firstRootDirSecNum + i : ℕ)

def fatFindfile (host : Host) (path : CString) (vol : Vol) : Option (ℤ × Vol) :=
  if vol.fsc.fatType = .fat32 then
    withChain host (int32 vol.fsc.rootClus) (fatSubdirscan host (splitPath path)) vol
  else
    match splitPath path with
    | [] => none
    | name :: rest =>
      let listing := decide (rest = [] ∧ name = [])
      match scanSectors host name listing (rootSectors vol.fsc) [] noFile vol with
      | (.goOn _ _, vol) => some (2, vol)
      | (.unused, vol) => some (if listing then 2 else 0, vol)
      | (.found filee, vol) =>
        if rest = [] then takeFile host filee vol
        else withChain host filee.cluster (fatSubdirscan host rest) vol

/-! ## `fat_init` -/

/-- `fat_getPartition`, which always returns 1. -/
def fatGetPartition (host : Host) (partition : ℕ) (vol : Vol) : Vol :=
  let (_, buffer, devs) := devioRead host.usb vol.fsc.fd ⟨host.stackAddr, host.stack, 0⟩
    SECTORSIZE vol.devs
  { vol with
    fsc := { vol.fsc with partitionStart := letoh32 buffer.bytes (446 + 16 * partition + 8) }
    devs := devs }

/-- The fields that the boot sector determines. -/
def parseBpb (bpb : List (BitVec 8)) (fsc : FatSc) : FatSc :=
  let rootDirEnts := letoh16 bpb 17
  let bytesPerSec := letoh16 bpb 11
  let resSectors := letoh16 bpb 14
  let secPerClust := byteAt bpb 13
  let numFATs := byteAt bpb 16
  let fatSecs := if letoh16 bpb 22 ≠ 0 then letoh16 bpb 22 else letoh32 bpb 36
  let totalSectors := if letoh16 bpb 19 ≠ 0 then letoh16 bpb 19 else letoh32 bpb 32
  let rootDirSectors := (rootDirEnts * 32 + (bytesPerSec - 1)) / bytesPerSec
  let dataSectorBase := uint32 (resSectors + numFATs * fatSecs + rootDirSectors)
  let dataSectors := uint32 ((totalSectors : ℤ) - dataSectorBase)
  let countOfClusters := dataSectors / secPerClust
  { fsc with
    rootDirEnts := rootDirEnts
    bytesPerSec := bytesPerSec
    resSectors := resSectors
    secPerClust := secPerClust
    bytesPerClust := secPerClust * SECTORSIZE
    numFATs := numFATs
    fatCacheNum := -1
    rootClus := letoh32 bpb 44
    fatSecs := fatSecs
    totalSectors := totalSectors
    rootDirSectors := rootDirSectors
    dataSectors := dataSectors
    dataSectorBase := dataSectorBase
    countOfClusters := countOfClusters
    firstRootDirSecNum := uint32 (resSectors + numFATs * fatSecs)
    fatType := if countOfClusters < 4085 then .fat12
      else if countOfClusters < 65525 then .fat16
      else .fat32 }

/-- `fat_init`.  Both tests against 0 are never met: `fat_getPartition` returns 1, and
`readsector` returns 1 or -1. -/
def fatInit (host : Host) (fd : ℤ) (partition : ℕ) (vol : Vol) : Option (ℤ × Vol) :=
  let vol := fatGetPartition host partition { vol with fsc := clearedSc fd }
  let (_, bootsector, devs) := readsector host vol.fsc 0 1 ⟨host.stackAddr, host.stack, 0⟩
    vol.devs
  let vol := { vol with devs := devs }
  if byteAt bootsector 0 = 0 ∧ byteAt bootsector 1 = 0 then some (-1, vol)
  else if byteAt bootsector 13 = 0 ∨ letoh16 bootsector 11 = 0 then none
  else
    let fsc := parseBpb bootsector vol.fsc
    let maxBufszClusts := 0x100000 / fsc.bytesPerClust
    let (block, heap) := vol.heap.malloc host (fsc.bytesPerClust * maxBufszClusts)
    let fsc := { fsc with
      lastSectorBlock := block
      lastSectorBuffer := List.replicate (fsc.bytesPerClust * maxBufszClusts) 0 }
    some (1, { vol with
      fsc := fsc
      maxBufszClusts := maxBufszClusts
      heap := heap.free block })

end Fat

end LuojiOs
