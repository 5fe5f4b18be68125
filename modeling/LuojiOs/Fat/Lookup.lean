import LuojiOs.Fat.Chain
import LuojiOs.Support.FirstMatch
import Mathlib.Data.List.DropRight

/-!
# Names in a directory

What the slots of a directory say, beside what `fat_findfile` reads in them.  By the format, a
long name is spread over numbered slots directly in front of its entry, which bear the check sum
of the short name; `fat_findfile` takes the slots that `dirbuf` happens to hold.
-/

namespace LuojiOs

namespace Fat

open Devfs FirstMatch

/-! ## As the slots are read -/

/-- What `dirbuf` holds behind a slot, if it holds `wines` in front of it. -/
def gather (wines : List Direntry) (dire : Direntry) : List Direntry :=
  if byteAt dire 0 = SLOT_DELETED ∨ byteAt dire 11 = ATTR_VOLUME then wines
  else if byteAt dire 11 = ATTR_WIN95 then
    if MAX_DIRBUF ≤ (wines ++ [dire]).length then [] else wines ++ [dire]
  else []

/-- What `dirbuf` holds behind these slots of the directory. -/
def gathered (front : List Direntry) : List Direntry := front.foldl gather []

/-- The long name that `fat_parseDirEntries` makes of the slots in `dirbuf`. -/
def gatheredName (wines : List Direntry) : CString :=
  (wines.reverse.flatMap longNamePart).takeWhile (· ≠ 0)

/-- The slot is taken for an entry of this name, behind the slots `front`. -/
def MatchesAsRead (name : CString) (front : List Direntry) (dire : Direntry) : Prop :=
  (byteAt dire 0 ≠ SLOT_DELETED ∧ byteAt dire 11 ≠ ATTR_VOLUME) ∧ byteAt dire 11 ≠ ATTR_WIN95 ∧
    (strcaseequ name (parseShortFilename dire) = true ∨
      gathered front ≠ [] ∧ strcaseequ name (gatheredName (gathered front)) = true)

instance (name : CString) (front : List Direntry) : DecidablePred (MatchesAsRead name front) :=
  fun _ => inferInstanceAs (Decidable (_ ∧ _))

/-! ## By the format -/

/-- The byte that stands for `SLOT_DELETED` at the beginning of a name. -/
def SLOT_E5 : BitVec 8 := 0x05

def WIN_LAST : ℕ := 0x40

def WIN_CNT : ℕ := 0x3f

/-- A field filled with blanks. -/
def blankFilled (field : List (BitVec 8)) : CString := field.rdropWhile (· = space)

/-- The name and the extension of an entry. -/
def shortNameOf (dire : Direntry) : CString :=
  let base := blankFilled (dire.take 8)
  let ext := blankFilled ((dire.drop 8).take 3)
  (if base.head? = some SLOT_E5 then 0xe5 :: base.tail else base) ++
    (if ext = [] then [] else 0x2e :: ext)

/-- `shortNameChkSum`, of the eleven bytes of a name in an entry. -/
def shortNameChkSum (name : List (BitVec 8)) : BitVec 8 :=
  name.foldl (fun sum c => (if sum &&& 1 = 1 then 0x80 else 0) + (sum >>> 1) + c) 0

/-- The slots that belong to a name with this check sum, the nearest first: they are numbered from
`cnt` on, and the last one is marked. -/
def ownSlotsFrom (sum : BitVec 8) : ℕ → List Direntry → Option (List Direntry)
  | _, [] => none
  | cnt, wine :: before =>
    if byteAt wine 0 ≠ SLOT_DELETED ∧ byteAt wine 11 = ATTR_WIN95 ∧
        byteAt wine 0 &&& WIN_CNT = cnt ∧ wine.getD 13 0 = sum then
      if byteAt wine 0 &&& WIN_LAST ≠ 0 then some [wine]
      else (ownSlotsFrom sum (cnt + 1) before).map (wine :: ·)
    else none

/-- The slots in front of an entry that belong to it. -/
def ownSlots (front : List Direntry) (dire : Direntry) : Option (List Direntry) :=
  ownSlotsFrom (shortNameChkSum (dire.take 11)) 1 front.reverse

/-- The characters of a long name, of 16 bits each. -/
def longNameUnits (wines : List Direntry) : List ℕ :=
  (wines.flatMap fun wine =>
    [1, 3, 5, 7, 9, 14, 16, 18, 20, 22, 24, 28, 30].map (letoh16 wine)).takeWhile (· ≠ 0)

def lowerUnit (unit : ℕ) : ℕ := if 0x41 ≤ unit ∧ unit ≤ 0x5a then unit + 0x20 else unit

/-- The name is this long name, ignoring case. -/
def unitsEqu (name : CString) (units : List ℕ) : Bool :=
  name.map (fun c => lowerUnit c.toNat) = units.map lowerUnit

/-- The slot is a live entry, neither a volume label nor a slot of a long name, and its short name
or its long name is this one. -/
def MatchesByFormat (name : CString) (front : List Direntry) (dire : Direntry) : Prop :=
  byteAt dire 0 ≠ SLOT_DELETED ∧ byteAt dire 11 &&& ATTR_VOLUME = 0 ∧
    (strcaseequ name (shortNameOf dire) = true ∨
      (ownSlots front dire).any (fun wines => unitsEqu name (longNameUnits wines)) = true)

instance (name : CString) (front : List Direntry) : DecidablePred (MatchesByFormat name front) :=
  fun _ => inferInstanceAs (Decidable (_ ∧ _))

/-! ## The root directory -/

/-- The slots before the first one that is empty. -/
def usedSlots (slots : List Direntry) : List Direntry :=
  slots.takeWhile fun dire => byteAt dire 0 ≠ SLOT_EMPTY

/-- The sectors of the root directory. -/
def rootRegion (fsc : FatSc) : List ℤ :=
  (List.range fsc.rootDirSectors).map fun i : ℕ => int32 (fsc.firstRootDirSecNum + i : ℕ)

/-- A sector is read into `DirBuffer`. -/
def readDirSector (host : Host) (vol : Vol) (sector : ℤ) : Vol :=
  let (_, bytes, devs) := readsector host vol.fsc sector 1
    ⟨host.dirBufferAddr, vol.fsc.dirBuffer, 0⟩ vol.devs
  { vol with fsc := { vol.fsc with dirBuffer := bytes }, devs := devs }

def readDirSectors (host : Host) (sectors : List ℤ) (vol : Vol) : Vol :=
  sectors.foldl (readDirSector host) vol

/-- The slots of these sectors of the device, in a partition that begins at the sector `start`. -/
def slotsOf (usb : Usb) (device start : ℕ) (sectors : List ℤ) : List Direntry :=
  sectors.flatMap fun sector : ℤ =>
    direntries (usb.bytes device ((start + sector) * SECTORSIZE).toNat SECTORSIZE)

/-- The slots of the root directory. -/
def rootRegionSlots (usb : Usb) (device : ℕ) (fsc : FatSc) : List Direntry :=
  slotsOf usb device fsc.partitionStart (rootRegion fsc)

/-- The entries of the root directory before the first empty slot, with the slots in between. -/
def rootSlots (usb : Usb) (device : ℕ) (fsc : FatSc) : List Direntry :=
  usedSlots (rootRegionSlots usb device fsc)

/-- The sectors whose bytes `scanSectors` takes for slots. -/
def scannedSectors (host : Host) (name : CString) (listing : Bool) :
    List ℤ → List Direntry → FatFileentry → Vol → List ℤ
  | [], _, _, _ => []
  | sector :: sectors, wines, filee, vol =>
    let vol := readDirSector host vol sector
    sector :: match scanEntries name listing (direntries vol.fsc.dirBuffer) wines filee with
      | .goOn wines filee => scannedSectors host name listing sectors wines filee vol
      | _ => []

/-- The short name, the cluster and the size. -/
structure FileFields where
  shortName : CString
  highClust : ℕ
  startCluster : ℕ
  fileSize : ℕ
  deriving DecidableEq

def FatFileentry.fields (filee : FatFileentry) : FileFields :=
  ⟨filee.shortName, filee.highClust, filee.startCluster, filee.fileSize⟩

/-- The fields of an entry, as `fat_parseDirEntries` reads them. -/
def fieldsAsRead (dire : Direntry) : FileFields :=
  ⟨parseShortFilename dire, letoh16 dire 20, letoh16 dire 26, letoh32 dire 28⟩

def fieldsByFormat (dire : Direntry) : FileFields :=
  ⟨shortNameOf dire, letoh16 dire 20, letoh16 dire 26, letoh32 dire 28⟩

/-! ## Exactness -/

/-- The sector of the device is read into `DirBuffer`. -/
def DirRead (host : Host) (device : ℕ) (vol : Vol) (sector : ℤ) : Prop :=
  SectorsRead host device vol.fsc sector 1 ⟨host.dirBufferAddr, vol.fsc.dirBuffer, 0⟩ vol.devs

/-- Each of these sectors is, when they are read one after another. -/
def AllRead (host : Host) (device : ℕ) (vol : Vol) (sectors : List ℤ) : Prop :=
  ∀ before sector behind, sectors = before ++ sector :: behind →
    DirRead host device (readDirSectors host before vol) sector

/-- The search for a name in the root directory is exact. -/
structure LookupExact (host : Host) (device : ℕ) (name : CString) (vol : Vol) (res : ℤ)
    (vol' : Vol) : Prop where
  result : res = 1 ↔ ∃ front dire behind,
    rootSlots host.usb device vol.fsc = front ++ dire :: behind ∧ MatchesByFormat name front dire
  fields : ∀ front dire, First (MatchesByFormat name) (rootSlots host.usb device vol.fsc) front dire →
    vol'.fsc.file.fields = fieldsByFormat dire
  inside : ∀ sector ∈ scannedSectors host name false (rootSectors vol.fsc) [] noFile vol,
    sector ∈ rootRegion vol.fsc
  read : AllRead host device vol
    (scannedSectors host name false (rootSectors vol.fsc) [] noFile vol)

/-- The search goes on behind these slots: none is empty, and none is read as an entry of the
name. -/
def GoesOn (name : CString) (slots : List Direntry) : Prop :=
  usedSlots slots = slots ∧ Fails (MatchesAsRead name) slots

/-- `fat_getChain` comes back when the chain of an entry is asked for, which stands behind the
slots `front` of the root directory. -/
def ChainComes (host : Host) (vol : Vol) (front : List Direntry) (dire : Direntry) : Prop :=
  let sectors := (rootRegion vol.fsc).take (front.length / (SECTORSIZE / 32) + 1)
  (takeFile host (fatParseDirEntries [] dire noFile)
    (readDirSectors host sectors vol)).isSome = true

/-- What the root directory must be like for the search to be exact. -/
structure LookupFits (host : Host) (device : ℕ) (name : CString) (vol : Vol) : Prop where
  /-- An empty slot or an entry of the name stands in the sectors of the root directory. -/
  ends : ¬GoesOn name (rootRegionSlots host.usb device vol.fsc)
  /-- The sectors up to there are read. -/
  reads : ∀ before sector behind, rootRegion vol.fsc = before ++ sector :: behind →
    GoesOn name (slotsOf host.usb device vol.fsc.partitionStart before) →
      DirRead host device (readDirSectors host before vol) sector
  /-- The name is read in a slot if and only if it is that of its entry, where it has not been met
  before. -/
  agrees : Agree (MatchesAsRead name) (MatchesByFormat name) (rootSlots host.usb device vol.fsc)
  shortName : ∀ front dire,
    First (MatchesAsRead name) (rootSlots host.usb device vol.fsc) front dire →
      parseShortFilename dire = shortNameOf dire
  chain : ∀ front dire,
    First (MatchesAsRead name) (rootSlots host.usb device vol.fsc) front dire →
      ChainComes host vol front dire

/-- No slot that is read as an entry of the name has the fields of another entry of the name. -/
def NoTwins (name : CString) (slots : List Direntry) : Prop :=
  ∀ front dire front' dire', First (MatchesAsRead name) slots front dire →
    First (MatchesByFormat name) slots front' dire' → fieldsAsRead dire = fieldsByFormat dire' →
    front = front'

end Fat

end LuojiOs
