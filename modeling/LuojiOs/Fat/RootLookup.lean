import LuojiOs.Fat.RootSearch

/-!
# What the search in the root directory finds

The search for a name is exact if what is read in the slots agrees with the format, and if it ends
in the sectors of the root directory.  Otherwise the sector behind them is read as well.
-/

namespace LuojiOs

namespace Fat

open Devfs FirstMatch

variable {host : Host} {device : ℕ} {name : CString} {vol : Vol} {front : List Direntry}
  {dire : Direntry}

/-- A name without directories, on a volume whose root directory is a region of its own. -/
structure PlainLookup (name : CString) (vol : Vol) : Prop where
  fatType : vol.fsc.fatType = .fat12 ∨ vol.fsc.fatType = .fat16
  region : vol.fsc.firstRootDirSecNum + vol.fsc.rootDirSectors < 2 ^ 32
  dirBuffer : vol.fsc.dirBuffer.length = SECTORSIZE
  nonempty : name ≠ []
  noSlash : slash ∉ name

theorem strcaseequ_nil (h : name ≠ []) : strcaseequ name [] = false := by
  unfold strcaseequ
  simp [h]

theorem goesOn_iff : GoesOn name front ↔ GoesOnFrom name [] front := by
  unfold GoesOn GoesOnFrom
  rw [search_eq_none]

/-! ## Directories as they are written -/

/-- The slot is an entry, and it is not a volume label. -/
def LiveEntry (dire : Direntry) : Prop :=
  byteAt dire 0 ≠ SLOT_DELETED ∧ byteAt dire 11 &&& ATTR_VOLUME = 0

/-- What `dirbuf` holds is the long name of the entry, or there is none. -/
inductive LongNameFits (front : List Direntry) (dire : Direntry) : Prop
  | absent (hread : gathered front = []) (hown : ownSlots front dire = none)
  | whole (hread : gathered front ≠ []) (hown : ownSlots front dire = some (gathered front).reverse)
      (hlow : ∀ unit ∈ longNameUnits (gathered front).reverse, unit < 0x100 ∧ unit ≠ 0x0a)

/-- The slot says to `fat_findfile` what it says by the format. -/
structure SlotFits (front : List Direntry) (dire : Direntry) : Prop where
  attributes : byteAt dire 11 &&& ATTR_VOLUME = 0 ∨ byteAt dire 11 = ATTR_VOLUME ∨
    byteAt dire 11 = ATTR_WIN95
  shortName : LiveEntry dire → parseShortFilename dire = shortNameOf dire
  longName : LiveEntry dire → LongNameFits front dire

/-- Characters that are read from other units, up to the first one that is 0. -/
theorem map_takeWhile_read {A : Type*} {places : List A} {read : A → BitVec 8} {unit : A → ℕ}
    (hread : ∀ a, unit a < 0x100 ∧ unit a ≠ 0x0a → (read a).toNat = unit a)
    (hlow : ∀ u ∈ (places.map unit).takeWhile (· ≠ 0), u < 0x100 ∧ u ≠ 0x0a) :
    ((places.map read).takeWhile (· ≠ 0)).map BitVec.toNat =
      (places.map unit).takeWhile (· ≠ 0) := by
  induction places with
  | nil => rfl
  | cons a places ih =>
      rw [List.map_cons, List.map_cons]
      by_cases hend : unit a = 0
      · have hzero : read a = 0 := by
          refine BitVec.eq_of_toNat_eq ?_
          rw [hread a (by omega), hend]
          rfl
        rw [List.takeWhile_cons_of_neg (by simp [hzero]),
          List.takeWhile_cons_of_neg (by simp [hend])]
        rfl
      · rw [List.map_cons, List.takeWhile_cons_of_pos (by simpa using hend)] at hlow
        obtain ⟨hbyte, hrest⟩ := List.forall_mem_cons.mp hlow
        have hunit := hread a hbyte
        have hchar : read a ≠ 0 := by
          intro hzero
          rw [hzero] at hunit
          exact hend hunit.symm
        rw [List.takeWhile_cons_of_pos (by simpa using hchar),
          List.takeWhile_cons_of_pos (by simpa using hend), List.map_cons, hunit, ih hrest]

theorem byteAt_read {wine : Direntry} {i : ℕ} (h : letoh16 wine i < 0x100 ∧ letoh16 wine i ≠ 0x0a) :
    (if wine.getD i 0 = 0x0a then 0x5f else wine.getD i 0).toNat = letoh16 wine i := by
  unfold letoh16 byteAt at *
  have hbyte : (wine.getD i 0).toNat ≠ 0x0a := by omega
  rw [if_neg fun hnewline => hbyte (by rw [hnewline]; rfl)]
  omega

theorem gatheredName_units {wines : List Direntry}
    (hlow : ∀ unit ∈ longNameUnits wines.reverse, unit < 0x100 ∧ unit ≠ 0x0a) :
    (gatheredName wines).map BitVec.toNat = longNameUnits wines.reverse := by
  have hread := @map_takeWhile_read (Direntry × ℕ)
    (wines.reverse.flatMap fun wine =>
      [1, 3, 5, 7, 9, 14, 16, 18, 20, 22, 24, 28, 30].map fun i => (wine, i))
    (fun place => if place.1.getD place.2 0 = 0x0a then 0x5f else place.1.getD place.2 0)
    (fun place => letoh16 place.1 place.2) fun place => byteAt_read
  rw [List.map_flatMap, List.map_flatMap] at hread
  exact hread hlow

theorem toNat_tolower (c : BitVec 8) : (tolower c).toNat = lowerUnit c.toNat := by
  unfold tolower lowerUnit
  split
  · rw [BitVec.toNat_add]
    have h : (0x20 : BitVec 8).toNat = 0x20 := rfl
    omega
  · rfl

theorem unitsEqu_chars {chars : CString} :
    unitsEqu name (chars.map BitVec.toNat) = strcaseequ name chars := by
  have hinj : Function.Injective (List.map (BitVec.toNat : BitVec 8 → ℕ)) :=
    List.map_injective_iff.mpr fun _ _ => BitVec.eq_of_toNat_eq
  have hlower : ∀ l : CString,
      l.map (fun c => lowerUnit c.toNat) = (l.map tolower).map BitVec.toNat := by
    intro l
    rw [List.map_map]
    exact List.map_congr_left fun c _ => (toNat_tolower c).symm
  have hchars : (chars.map BitVec.toNat).map lowerUnit = chars.map fun c => lowerUnit c.toNat :=
    List.map_map
  refine decide_eq_decide.mpr ?_
  rw [hchars, hlower name, hlower chars]
  exact hinj.eq_iff

/-- The short name and the long name are read as they are by the format. -/
theorem SlotFits.matches_iff (h : SlotFits front dire) :
    MatchesAsRead name front dire ↔ MatchesByFormat name front dire := by
  by_cases hlive : LiveEntry dire
  · have hother : ∀ attr, attr &&& ATTR_VOLUME ≠ 0 → byteAt dire 11 ≠ attr := by
      rintro attr hattr rfl
      exact hattr hlive.2
    have hlong : (gathered front ≠ [] ∧ strcaseequ name (gatheredName (gathered front)) = true) ↔
        (ownSlots front dire).any (fun wines => unitsEqu name (longNameUnits wines)) = true := by
      cases h.longName hlive with
      | absent hread hown =>
          rw [hown]
          exact iff_of_false (fun hname => hname.1 hread) Bool.false_ne_true
      | whole hread hown hlow =>
          rw [hown, Option.any_some, ← gatheredName_units hlow, unitsEqu_chars]
          exact and_iff_right hread
    unfold MatchesAsRead MatchesByFormat
    rw [hlong, h.shortName hlive]
    exact ⟨fun hname => ⟨hlive.1, hlive.2, hname.2.2⟩, fun hname =>
        ⟨⟨hlive.1, hother _ (by decide)⟩, hother _ (by decide), hname.2.2⟩⟩
  · refine iff_of_false (fun hname => ?_) fun hname => hlive ⟨hname.1, hname.2.1⟩
    rcases h.attributes with hattr | hattr | hattr
    · exact hlive ⟨hname.1.1, hattr⟩
    · exact hname.1.2 hattr
    · exact hname.2.1 hattr

/-! ## The sectors that are scanned -/

/-- The sectors of the root directory that are scanned are read. -/
def RegionRead (host : Host) (device : ℕ) (name : CString) (vol : Vol) : Prop :=
  AllRead host device vol (scannedSectors host name false (rootRegion vol.fsc) [] noFile vol)

theorem PlainLookup.regionRead (h : PlainLookup name vol)
    (hread : AllRead host device vol
      (scannedSectors host name false (rootSectors vol.fsc) [] noFile vol)) :
    RegionRead host device name vol := by
  rw [rootSectors_eq h.region] at hread
  exact hread.of_append scannedSectors_append

theorem PlainLookup.region_ends (h : PlainLookup name vol)
    (hread : RegionRead host device name vol) :
    Ends name [] (rootRegionSlots host.usb device vol.fsc)
      (scanSectors host name false (rootRegion vol.fsc) [] noFile vol).1 :=
  @scanSectors_ends host device name vol [] noFile (rootRegion vol.fsc)
    (strcaseequ_nil h.nonempty) h.dirBuffer hread

theorem PlainLookup.region_stops (h : PlainLookup name vol)
    (hread : RegionRead host device name vol)
    (hends : ¬GoesOn name (rootRegionSlots host.usb device vol.fsc)) (wines : List Direntry)
    (filee : FatFileentry) :
    (scanSectors host name false (rootRegion vol.fsc) [] noFile vol).1 ≠ .goOn wines filee := by
  intro hscan
  have hregion := h.region_ends hread
  rw [hscan] at hregion
  cases hregion with
  | goOn hsearch hused _ =>
      rw [hused] at hsearch
      exact hends (goesOn_iff.mpr ⟨hused, hsearch⟩)

/-- The sectors of the root directory are enough. -/
theorem PlainLookup.scanned_inside (h : PlainLookup name vol)
    (hread : RegionRead host device name vol)
    (hends : ¬GoesOn name (rootRegionSlots host.usb device vol.fsc)) :
    scannedSectors host name false (rootSectors vol.fsc) [] noFile vol =
      scannedSectors host name false (rootRegion vol.fsc) [] noFile vol := by
  rw [rootSectors_eq h.region]
  exact (scan_stops (h.region_stops hread hends)).2

/-- The sector behind the root directory is taken for a part of it. -/
theorem PlainLookup.scanned_outside (h : PlainLookup name vol)
    (hread : RegionRead host device name vol)
    (hgoes : GoesOn name (rootRegionSlots host.usb device vol.fsc)) :
    ∃ sector ∈ scannedSectors host name false (rootSectors vol.fsc) [] noFile vol,
      sector ∉ rootRegion vol.fsc := by
  refine ⟨_, ?_, not_mem_rootRegion h.region⟩
  rw [rootSectors_eq h.region]
  obtain ⟨hused, hsearch⟩ := goesOn_iff.mp hgoes
  have hregion := h.region_ends hread
  cases hscan : (scanSectors host name false (rootRegion vol.fsc) [] noFile vol).1 with
  | goOn wines filee => exact scan_goes_on hscan
  | unused =>
      rw [hscan] at hregion
      cases hregion with
      | unused _ hempty =>
          obtain ⟨dire, hdire, hslot⟩ := hempty
          have hlive := List.takeWhile_eq_self_iff.mp hused dire hdire
          simp [hslot] at hlive
  | found filee =>
      rw [hscan] at hregion
      cases hregion with
      | found hfound _ =>
          rw [hused, hsearch] at hfound
          cases hfound

theorem PlainLookup.regionRead_iff (h : PlainLookup name vol) :
    RegionRead host device name vol ↔
      ∀ before sector behind, rootRegion vol.fsc = before ++ sector :: behind →
        GoesOn name (slotsOf host.usb device vol.fsc.partitionStart before) →
        DirRead host device (readDirSectors host before vol) sector := by
  simp only [goesOn_iff]
  exact @allRead_iff host device name vol [] noFile (rootRegion vol.fsc)
    (strcaseequ_nil h.nonempty) h.dirBuffer

/-! ## The result -/

theorem PlainLookup.fatFindfile_eq (h : PlainLookup name vol)
    (hread : RegionRead host device name vol)
    (hends : ¬GoesOn name (rootRegionSlots host.usb device vol.fsc)) :
    fatFindfile host name vol =
      finishSearch host (scanSectors host name false (rootRegion vol.fsc) [] noFile vol) := by
  have hfat : vol.fsc.fatType ≠ .fat32 := by
    rcases h.fatType with hfat | hfat
    · rw [hfat]
      decide
    · rw [hfat]
      decide
  rw [fatFindfile_root hfat h.nonempty h.noSlash, rootSectors_eq h.region,
    (scan_stops (h.region_stops hread hends)).1]

/-- The first entry that is read as one of the name is taken. -/
theorem PlainLookup.fatFindfile_first (h : PlainLookup name vol)
    (hread : RegionRead host device name vol)
    (hends : ¬GoesOn name (rootRegionSlots host.usb device vol.fsc))
    (hfirst : First (MatchesAsRead name) (rootSlots host.usb device vol.fsc) front dire) :
    fatFindfile host name vol = takeFile host (fatParseDirEntries [] dire noFile)
      (readDirSectors host ((rootRegion vol.fsc).take (front.length / (SECTORSIZE / 32) + 1))
        vol) := by
  have hsearch := search_eq_some.mpr hfirst
  have hregion := h.region_ends hread
  have hvol := @scanSectors_vol host name vol noFile (rootRegion vol.fsc) [] false
  have hscanned := @scannedSectors_found host device name vol [] dire noFile (rootRegion vol.fsc)
    front (strcaseequ_nil h.nonempty) h.dirBuffer hread hsearch
  change scannedSectors host name false (rootRegion vol.fsc) [] noFile vol = _ at hscanned
  rw [hscanned] at hvol
  rw [h.fatFindfile_eq hread hends]
  generalize scanSectors host name false (rootRegion vol.fsc) [] noFile vol = scanned at *
  obtain ⟨scan, vol'⟩ := scanned
  dsimp only at hregion hvol ⊢
  cases hregion with
  | found hfound hfields =>
      cases hfound.symm.trans hsearch
      rw [hvol]
      exact takeFile_congr hfields
  | unused hnone _ => cases hnone.symm.trans hsearch
  | goOn hnone _ _ => cases hnone.symm.trans hsearch

/-- Nothing is found before the first empty slot. -/
theorem PlainLookup.fatFindfile_fails (h : PlainLookup name vol)
    (hread : RegionRead host device name vol)
    (hends : ¬GoesOn name (rootRegionSlots host.usb device vol.fsc))
    (hfails : Fails (MatchesAsRead name) (rootSlots host.usb device vol.fsc)) :
    ∃ vol', fatFindfile host name vol = some (0, vol') := by
  have hsearch := search_eq_none.mpr hfails
  have hregion := h.region_ends hread
  have hstops := h.region_stops hread hends
  rw [h.fatFindfile_eq hread hends]
  generalize scanSectors host name false (rootRegion vol.fsc) [] noFile vol = scanned at *
  obtain ⟨scan, vol'⟩ := scanned
  dsimp only at hregion hstops
  cases hregion with
  | found hfound _ => cases hfound.symm.trans hsearch
  | unused => exact ⟨vol', rfl⟩
  | goOn => exact absurd rfl (hstops _ _)

/-! ## Exactness -/

/-- The search comes back, and it is exact. -/
def FindsExactly (host : Host) (device : ℕ) (name : CString) (vol : Vol) : Prop :=
  ∃ res vol', fatFindfile host name vol = some (res, vol') ∧
    LookupExact host device name vol res vol'

theorem fields_found {wines : List Direntry} :
    (fatParseDirEntries wines dire noFile).fields = fieldsAsRead dire :=
  rfl

/-- The short name is read as it is by the format, so that all the fields are. -/
theorem fieldsAsRead_eq_iff : fieldsAsRead dire = fieldsByFormat dire ↔
    parseShortFilename dire = shortNameOf dire := by
  unfold fieldsAsRead fieldsByFormat
  rw [FileFields.mk.injEq]
  simp

theorem PlainLookup.findsExactly (h : PlainLookup name vol)
    (hfits : LookupFits host device name vol) : FindsExactly host device name vol := by
  have hregion := h.regionRead_iff.mpr hfits.reads
  have hscanned := h.scanned_inside hregion hfits.ends
  have hinside : ∀ sector ∈ scannedSectors host name false (rootSectors vol.fsc) [] noFile vol,
      sector ∈ rootRegion vol.fsc := by
    rw [hscanned]
    exact fun sector hsector => scannedSectors_prefix.subset hsector
  have hread : AllRead host device vol
      (scannedSectors host name false (rootSectors vol.fsc) [] noFile vol) := by
    rw [hscanned]
    exact hregion
  rcases exists_first_or_fails (MatchesAsRead name) (rootSlots host.usb device vol.fsc) with
    ⟨front, dire, hfirst⟩ | hfails
  · have hformat := hfits.agrees.first hfirst
    obtain ⟨⟨res, vol'⟩, htake⟩ := Option.isSome_iff_exists.mp (hfits.chain front dire hfirst)
    obtain ⟨rfl, hfields⟩ := takeFile_spec htake
    refine ⟨1, vol', (h.fatFindfile_first hregion hfits.ends hfirst).trans htake, ?_, ?_, hinside,
      hread⟩
    · exact iff_of_true rfl (exists_first_iff.mp ⟨front, dire, hformat⟩)
    · intro front' dire' hfirst'
      obtain ⟨-, rfl⟩ := hformat.unique hfirst'
      rw [hfields, fields_found]
      exact fieldsAsRead_eq_iff.mpr (hfits.shortName front dire hfirst)
  · have hformat := hfits.agrees.fails hfails
    obtain ⟨vol', hfind⟩ := h.fatFindfile_fails hregion hfits.ends hfails
    refine ⟨0, vol', hfind, ?_, ?_, hinside, hread⟩
    · refine iff_of_false (by decide) fun hexists => ?_
      obtain ⟨front, dire, hfirst⟩ := exists_first_iff.mpr hexists
      exact hfirst.not_fails hformat
    · intro front dire hfirst
      exact absurd hformat hfirst.not_fails

/-- An exact search that ends in the root directory takes the first entry of the name. -/
theorem PlainLookup.first_of_exact (h : PlainLookup name vol)
    (hread : RegionRead host device name vol)
    (hends : ¬GoesOn name (rootRegionSlots host.usb device vol.fsc))
    (htwins : NoTwins name (rootSlots host.usb device vol.fsc))
    (hexact : FindsExactly host device name vol)
    (hfirst : First (MatchesAsRead name) (rootSlots host.usb device vol.fsc) front dire) :
    First (MatchesByFormat name) (rootSlots host.usb device vol.fsc) front dire ∧
      parseShortFilename dire = shortNameOf dire ∧ ChainComes host vol front dire := by
  obtain ⟨res, vol', hfind, hexact⟩ := hexact
  have htake := (h.fatFindfile_first hread hends hfirst).symm.trans hfind
  obtain ⟨rfl, hfields⟩ := takeFile_spec htake
  rw [fields_found] at hfields
  obtain ⟨front', dire', hfirst'⟩ := exists_first_iff.mpr (hexact.result.mp rfl)
  have hsame := hfields.symm.trans (hexact.fields front' dire' hfirst')
  obtain rfl := htwins front dire front' dire' hfirst hfirst' hsame
  obtain rfl := hfirst.eq_of_front hfirst'
  exact ⟨hfirst', fieldsAsRead_eq_iff.mp hsame, Option.isSome_of_eq_some htake⟩

theorem PlainLookup.lookupFits (h : PlainLookup name vol)
    (htwins : NoTwins name (rootSlots host.usb device vol.fsc))
    (hexact : FindsExactly host device name vol) : LookupFits host device name vol := by
  have hread : RegionRead host device name vol := by
    obtain ⟨res, vol', -, hexact⟩ := hexact
    exact h.regionRead hexact.read
  have hends : ¬GoesOn name (rootRegionSlots host.usb device vol.fsc) := by
    intro hgoes
    obtain ⟨res, vol', -, hexact⟩ := hexact
    obtain ⟨sector, hsector, houtside⟩ := h.scanned_outside hread hgoes
    exact houtside (hexact.inside sector hsector)
  have hforward : ∀ front dire,
      First (MatchesAsRead name) (rootSlots host.usb device vol.fsc) front dire →
        First (MatchesByFormat name) (rootSlots host.usb device vol.fsc) front dire ∧
          parseShortFilename dire = shortNameOf dire ∧ ChainComes host vol front dire :=
    fun front dire hfirst => h.first_of_exact hread hends htwins hexact hfirst
  obtain ⟨res, vol', hfind, hexact⟩ := hexact
  refine ⟨hends, h.regionRead_iff.mp hread,
    agree_of_first (fun front dire hfirst => (hforward front dire hfirst).1) ?_,
    fun front dire hfirst => (hforward front dire hfirst).2.1,
    fun front dire hfirst => (hforward front dire hfirst).2.2⟩
  intro front dire hfirst
  rcases exists_first_or_fails (MatchesAsRead name) (rootSlots host.usb device vol.fsc) with
    ⟨front', dire', hfirst'⟩ | hfails
  · obtain ⟨rfl, rfl⟩ := hfirst.unique (hforward front' dire' hfirst').1
    exact hfirst'
  · obtain ⟨vol'', hnothing⟩ := h.fatFindfile_fails hread hends hfails
    have hres := hexact.result.mpr (exists_first_iff.mp ⟨front, dire, hfirst⟩)
    cases hnothing.symm.trans hfind
    cases hres

/-- In a directory whose slots are all right, the search is exact if it ends. -/
theorem LookupFits.of_slots (hends : ¬GoesOn name (rootRegionSlots host.usb device vol.fsc))
    (hreads : ∀ before sector behind, rootRegion vol.fsc = before ++ sector :: behind →
      GoesOn name (slotsOf host.usb device vol.fsc.partitionStart before) →
        DirRead host device (readDirSectors host before vol) sector)
    (hslots : ∀ front dire behind, rootSlots host.usb device vol.fsc = front ++ dire :: behind →
      SlotFits front dire)
    (hchain : ∀ front dire,
      First (MatchesAsRead name) (rootSlots host.usb device vol.fsc) front dire →
        ChainComes host vol front dire) : LookupFits host device name vol where
  ends := hends
  reads := hreads
  agrees := fun front dire behind hsplit _ _ => (hslots front dire behind hsplit).matches_iff
  shortName := by
    intro front dire hfirst
    obtain ⟨behind, hsplit⟩ := hfirst.split
    have hfits := hslots front dire behind hsplit
    have hname := hfits.matches_iff.mp hfirst.passes
    exact hfits.shortName ⟨hname.1, hname.2.1⟩
  chain := hchain

/-- The search is exact if the root directory fits it.  It is exact only then, unless an entry
that is not of the name has the same fields as the one that is. -/
theorem fatFindfile_exact_iff (h : PlainLookup name vol) :
    (LookupFits host device name vol → FindsExactly host device name vol) ∧
      (NoTwins name (rootSlots host.usb device vol.fsc) →
        (FindsExactly host device name vol ↔ LookupFits host device name vol)) :=
  ⟨h.findsExactly, fun htwins => ⟨h.lookupFits htwins, h.findsExactly⟩⟩

/-- Chains that end at once, and behind them a directory of one sector, with what follows it. -/
def dirContent (slots : List Direntry) (i : ℕ) : BitVec 8 :=
  if i < 2 * SECTORSIZE then 0xff else (slots.getD ((i - 2 * SECTORSIZE) / 32) []).getD (i % 32) 0

def dirHost (slots : List Direntry) : Host := chainHost (dirContent slots) 2

def dirVol : Vol :=
  { chainVol 1 with fsc := { (chainVol 1).fsc with firstRootDirSecNum := 2, rootDirSectors := 1 } }

/-- The slot of a file with this name and extension. -/
def fileSlot (name : List (BitVec 8)) : Direntry :=
  name ++ 0x20 :: List.replicate 14 0 ++ [2, 0, 100, 0, 0, 0]

/-- The only slot of the long name `Readme.text`, for the short name `README~1.TEX`. -/
def readmeWine : Direntry :=
  [0x41, 0x52, 0, 0x65, 0, 0x61, 0, 0x64, 0, 0x6d, 0, 0xf, 0, 0xe5, 0x65, 0, 0x2e, 0, 0x74, 0,
    0x65, 0, 0x78, 0, 0x74, 0, 0, 0, 0, 0, 0xff, 0xff]

def readme : Direntry := fileSlot (cstr "README~1TEX")

theorem dirRead_dirVol {slots : List Direntry} : DirRead (dirHost slots) 0 dirVol 2 := by
  have hslot : Slot (dirHost slots).usb dirVol.fsc.fd 0 dirVol.devs :=
    (@chainVol_serves (dirContent slots) 2 1).good
  exact (@readsector_reliable (dirHost slots) 0 1 dirVol.fsc 2
    ⟨(dirHost slots).dirBufferAddr, dirVol.fsc.dirBuffer, 0⟩ dirVol.devs 2 (fun _ => rfl) rfl hslot
    rfl (by decide) (by decide) (le_of_eq List.length_replicate.symm)).1

set_option maxRecDepth 20000 in
theorem fatFindfile_exact_readme :
    FindsExactly (dirHost [readmeWine, readme]) 0 (cstr "readme.TEXT") dirVol := by
  have hread : search (MatchesAsRead (cstr "readme.TEXT")) []
      (rootSlots (dirHost [readmeWine, readme]).usb 0 dirVol.fsc) = some ([readmeWine], readme) := by
    decide
  have hformat : search (MatchesByFormat (cstr "readme.TEXT")) []
      (rootSlots (dirHost [readmeWine, readme]).usb 0 dirVol.fsc) = some ([readmeWine], readme) := by
    decide
  have hchain : ChainComes (dirHost [readmeWine, readme]) dirVol [readmeWine] readme := by
    unfold ChainComes
    decide
  have hregion : rootRegion dirVol.fsc = [2] := by decide
  have hused : usedSlots (rootRegionSlots (dirHost [readmeWine, readme]).usb 0 dirVol.fsc) ≠
      rootRegionSlots (dirHost [readmeWine, readme]).usb 0 dirVol.fsc := by
    decide
  refine (fatFindfile_exact_iff
    ⟨Or.inr rfl, by decide, List.length_replicate, by decide, by decide⟩).1
    ⟨fun hgoes => hused hgoes.1, ?_, agree_of_first ?_ ?_, ?_, ?_⟩
  · intro before sector behind hsplit _
    rw [hregion] at hsplit
    obtain ⟨rfl, hrest⟩ | ⟨rfl, hrest⟩ := List.append_eq_singleton_iff.mp hsplit.symm
    · cases hrest
      exact dirRead_dirVol
    · cases hrest
  · intro front dire hfirst
    obtain ⟨rfl, rfl⟩ := hfirst.unique (search_eq_some.mp hread)
    exact search_eq_some.mp hformat
  · intro front dire hfirst
    obtain ⟨rfl, rfl⟩ := hfirst.unique (search_eq_some.mp hformat)
    exact search_eq_some.mp hread
  · intro front dire hfirst
    obtain ⟨rfl, rfl⟩ := hfirst.unique (search_eq_some.mp hread)
    decide
  · intro front dire hfirst
    obtain ⟨rfl, rfl⟩ := hfirst.unique (search_eq_some.mp hread)
    exact hchain

/-- A name that is not in the root directory is found. -/
theorem not_findsExactly
    (hfails : search (MatchesByFormat name) [] (rootSlots host.usb device vol.fsc) = none)
    (hfound : (fatFindfile host name vol).map Prod.fst = some 1) :
    ¬FindsExactly host device name vol := by
  rintro ⟨res, vol', hfind, hexact⟩
  rw [hfind] at hfound
  obtain ⟨front, dire, hfirst⟩ := exists_first_iff.mpr
    (hexact.result.mp (Option.some.inj hfound))
  exact hfirst.not_fails (search_eq_none.mp hfails)

/-- The directory is full, and a file behind it holds what looks like an entry. -/
def fullDir : List Direntry :=
  let other (i : ℕ) := fileSlot (cstr "OTHER" ++ BitVec.ofNat 8 (0x41 + i) :: cstr "  TXT")
  (List.range 16).map other ++ [fileSlot (cstr "SECRET  TXT")]

/-- The entry of the long name has been deleted, and another one follows. -/
def orphanDir : List Direntry :=
  [readmeWine, 0xe5 :: readme.tail, fileSlot (cstr "OTHER   TXT")]

set_option maxRecDepth 20000 in
theorem fatFindfile_finds_other :
    ¬FindsExactly (dirHost fullDir) 0 (cstr "secret.txt") dirVol ∧
      ¬FindsExactly (dirHost orphanDir) 0 (cstr "Readme.text") dirVol :=
  ⟨not_findsExactly (by decide) (by decide +kernel),
    not_findsExactly (by decide) (by decide +kernel)⟩

end Fat

end LuojiOs
