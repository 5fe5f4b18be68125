import LuojiOs.Fat.Lookup

/-!
# The search through the root directory

The loops of `fat_findfile` find the first slot that is read as an entry of the name, before the
first empty slot, and they go on behind the last sector if they meet neither.
-/

namespace LuojiOs

namespace Fat

open Devfs FirstMatch

variable {host : Host} {device : ℕ} {name : CString} {vol vol' : Vol} {front l l' : List Direntry}
  {dire : Direntry} {filee filee' : FatFileentry} {sectors sectors' : List ℤ}
  {wines : List Direntry} {listing : Bool}

/-! ## Slots -/

theorem gathered_concat : gathered (front ++ [dire]) = gather (gathered front) dire := by
  unfold gathered
  rw [List.foldl_append]
  rfl

theorem usedSlots_cons_of_empty (h : byteAt dire 0 = SLOT_EMPTY) : usedSlots (dire :: l) = [] :=
  List.takeWhile_cons_of_neg (by simpa using h)

theorem usedSlots_cons (h : byteAt dire 0 ≠ SLOT_EMPTY) :
    usedSlots (dire :: l) = dire :: usedSlots l :=
  List.takeWhile_cons_of_pos (by simpa using h)

theorem usedSlots_append (h : usedSlots l = l) : usedSlots (l ++ l') = l ++ usedSlots l' := by
  refine List.takeWhile_append_of_pos fun dire hdire => ?_
  exact List.takeWhile_eq_self_iff.mp h dire hdire

theorem usedSlots_append_of_empty (h : ∃ dire ∈ l, byteAt dire 0 = SLOT_EMPTY) :
    usedSlots (l ++ l') = usedSlots l := by
  induction l with
  | nil =>
      obtain ⟨dire, hdire, -⟩ := h
      exact absurd hdire List.not_mem_nil
  | cons d ds ih =>
      by_cases hd : byteAt d 0 = SLOT_EMPTY
      · rw [List.cons_append, usedSlots_cons_of_empty hd, usedSlots_cons_of_empty hd]
      · obtain ⟨dire, hdire, hempty⟩ := h
        have htail : dire ∈ ds := by
          rcases List.mem_cons.mp hdire with rfl | htail
          · exact absurd hempty hd
          · exact htail
        rw [List.cons_append, usedSlots_cons hd, usedSlots_cons hd, ih ⟨dire, htail, hempty⟩]

/-- How the scan through the slots `l` ends, behind the slots `front`: with the first entry of the
name, with an empty slot, or with no news. -/
inductive Ends (name : CString) (front l : List Direntry) : Scan → Prop
  | found {before : List Direntry} {dire : Direntry} {filee : FatFileentry}
      (hsearch : search (MatchesAsRead name) front (usedSlots l) = some (before, dire))
      (hfields : filee.fields = fieldsAsRead dire) : Ends name front l (.found filee)
  | unused (hsearch : search (MatchesAsRead name) front (usedSlots l) = none)
      (hempty : ∃ dire ∈ l, byteAt dire 0 = SLOT_EMPTY) : Ends name front l .unused
  | goOn {filee : FatFileentry}
      (hsearch : search (MatchesAsRead name) front (usedSlots l) = none)
      (hused : usedSlots l = l) (hfilee : strcaseequ name filee.longName = false) :
      Ends name front l (.goOn (gathered (front ++ l)) filee)

/-- A slot that is not read as an entry of the name. -/
theorem Ends.cons {scan : Scan} (hempty : byteAt dire 0 ≠ SLOT_EMPTY)
    (hdire : ¬MatchesAsRead name front dire) (h : Ends name (front ++ [dire]) l scan) :
    Ends name front (dire :: l) scan := by
  have hnext : search (MatchesAsRead name) front (usedSlots (dire :: l)) =
      search (MatchesAsRead name) (front ++ [dire]) (usedSlots l) := by
    rw [usedSlots_cons hempty, search, if_neg hdire]
  cases h with
  | found hsearch hfields => exact .found (hnext.trans hsearch) hfields
  | unused hsearch hexists =>
      obtain ⟨d, hd, hempty'⟩ := hexists
      exact .unused (hnext.trans hsearch) ⟨d, List.mem_cons_of_mem _ hd, hempty'⟩
  | goOn hsearch hused hfilee =>
      rw [← List.append_cons]
      exact .goOn (hnext.trans hsearch) (by rw [usedSlots_cons hempty, hused]) hfilee

/-- The long name of an entry without slots of its own is the one of an entry before, which was
not the name either. -/
theorem longName_matches (hfilee : strcaseequ name filee.longName = false) :
    strcaseequ name (fatParseDirEntries wines dire filee).longName = true ↔
      wines ≠ [] ∧ strcaseequ name (gatheredName wines) = true := by
  unfold fatParseDirEntries gatheredName
  dsimp only
  by_cases hwines : wines = []
  · rw [if_pos hwines, hfilee]
    simp [hwines]
  · rw [if_neg hwines]
    simp [hwines]

theorem scanEntries_ends (hfilee : strcaseequ name filee.longName = false) :
    Ends name front l (scanEntries name false l (gathered front) filee) := by
  induction l generalizing front filee with
  | nil =>
      have hgoOn : Ends name front [] (.goOn (gathered (front ++ [])) filee) := .goOn rfl rfl hfilee
      rw [List.append_nil] at hgoOn
      exact hgoOn
  | cons dire dires ih =>
      rw [scanEntries]
      by_cases hempty : byteAt dire 0 = SLOT_EMPTY
      · rw [if_pos hempty]
        refine .unused ?_ ⟨dire, List.mem_cons_self, hempty⟩
        rw [usedSlots_cons_of_empty hempty, search]
      rw [if_neg hempty]
      by_cases hskip : byteAt dire 0 = SLOT_DELETED ∨ byteAt dire 11 = ATTR_VOLUME
      · rw [if_pos hskip]
        have hgather : gathered (front ++ [dire]) = gathered front := by
          rw [gathered_concat, gather, if_pos hskip]
        have hrest := @ih (front ++ [dire]) filee hfilee
        rw [hgather] at hrest
        refine .cons hempty (fun hmatch => ?_) hrest
        rcases hskip with hdeleted | hvolume
        · exact hmatch.1.1 hdeleted
        · exact hmatch.1.2 hvolume
      rw [if_neg hskip]
      by_cases hwin : byteAt dire 11 = ATTR_WIN95
      · rw [if_pos hwin]
        have hgather : gathered (front ++ [dire]) =
            if MAX_DIRBUF ≤ (gathered front ++ [dire]).length then []
            else gathered front ++ [dire] := by
          rw [gathered_concat, gather, if_neg hskip, if_pos hwin]
        have hrest := @ih (front ++ [dire]) filee hfilee
        rw [hgather] at hrest
        exact .cons hempty (fun hmatch => hmatch.2.1 hwin) hrest
      rw [if_neg hwin]
      dsimp only
      have hgather : gathered (front ++ [dire]) = [] := by
        rw [gathered_concat, gather, if_neg hskip, if_neg hwin]
      have hmatch : MatchesAsRead name front dire ↔
          strcaseequ name (parseShortFilename dire) = true ∨
            strcaseequ name (fatParseDirEntries (gathered front) dire filee).longName = true := by
        rw [longName_matches hfilee]
        exact ⟨fun h => h.2.2, fun h => ⟨not_or.mp hskip, hwin, h⟩⟩
      by_cases hname : MatchesAsRead name front dire
      · rw [if_pos ⟨Bool.false_ne_true, hmatch.mp hname⟩]
        have hsearch : search (MatchesAsRead name) front (usedSlots (dire :: dires)) =
            some (front, dire) := by
          rw [usedSlots_cons hempty, search, if_pos hname]
        exact .found hsearch rfl
      · rw [if_neg fun h => hname (hmatch.mpr h.2)]
        have hlong : strcaseequ name
            (fatParseDirEntries (gathered front) dire filee).longName = false :=
          Bool.eq_false_iff.mpr fun hlong => hname (hmatch.mpr (Or.inr hlong))
        have hrest := @ih (front ++ [dire]) _ hlong
        rw [hgather] at hrest
        exact .cons hempty hname hrest

/-- No empty slot has been met, and the scan goes on. -/
theorem Ends.append {scan : Scan}
    (hsearch : search (MatchesAsRead name) front (usedSlots l) = none) (hused : usedSlots l = l)
    (h : Ends name (front ++ l) l' scan) : Ends name front (l ++ l') scan := by
  rw [hused] at hsearch
  have hnext : search (MatchesAsRead name) front (usedSlots (l ++ l')) =
      search (MatchesAsRead name) (front ++ l) (usedSlots l') := by
    rw [usedSlots_append hused, search_append, hsearch, Option.none_or]
  cases h with
  | found hrest hfields => exact .found (hnext.trans hrest) hfields
  | unused hrest hexists =>
      obtain ⟨d, hd, hempty⟩ := hexists
      exact .unused (hnext.trans hrest) ⟨d, List.mem_append_right _ hd, hempty⟩
  | goOn hrest hused' hfilee =>
      rw [List.append_assoc]
      exact .goOn (hnext.trans hrest) (by rw [usedSlots_append hused, hused']) hfilee

theorem usedSlots_eq_or_empty (l : List Direntry) :
    usedSlots l = l ∨ ∃ dire ∈ l, byteAt dire 0 = SLOT_EMPTY := by
  by_cases h : ∃ dire ∈ l, byteAt dire 0 = SLOT_EMPTY
  · exact Or.inr h
  · left
    refine List.takeWhile_eq_self_iff.mpr fun dire hdire => ?_
    simpa using fun hempty => h ⟨dire, hdire, hempty⟩

theorem search_usedSlots_append {found : List Direntry × Direntry}
    (h : search (MatchesAsRead name) front (usedSlots l) = some found) :
    search (MatchesAsRead name) front (usedSlots (l ++ l')) = some found := by
  rcases usedSlots_eq_or_empty l with hused | hempty
  · rw [usedSlots_append hused, search_append, ← hused, h, Option.some_or]
  · rw [usedSlots_append_of_empty hempty, h]

theorem Ends.append_of_found {before : List Direntry}
    (hsearch : search (MatchesAsRead name) front (usedSlots l) = some (before, dire))
    (hfields : filee.fields = fieldsAsRead dire) : Ends name front (l ++ l') (.found filee) :=
  .found (search_usedSlots_append hsearch) hfields

theorem Ends.append_of_unused
    (hsearch : search (MatchesAsRead name) front (usedSlots l) = none)
    (hempty : ∃ dire ∈ l, byteAt dire 0 = SLOT_EMPTY) : Ends name front (l ++ l') .unused := by
  refine .unused (by rw [usedSlots_append_of_empty hempty, hsearch]) ?_
  obtain ⟨d, hd, hd'⟩ := hempty
  exact ⟨d, List.mem_append_left _ hd, hd'⟩

/-! ## Sectors -/

theorem length_direntries (bytes : List (BitVec 8)) :
    (direntries bytes).length = SECTORSIZE / 32 := by
  unfold direntries
  rw [List.length_map, List.length_range]

/-- One sector of a directory. -/
theorem scanSectors_cons {sector : ℤ} :
    scanSectors host name listing (sector :: sectors) wines filee vol =
      match scanEntries name listing (direntries (readDirSector host vol sector).fsc.dirBuffer)
        wines filee with
      | .goOn wines filee =>
        scanSectors host name listing sectors wines filee (readDirSector host vol sector)
      | scan => (scan, readDirSector host vol sector) := by
  rw [scanSectors]
  rfl

theorem scannedSectors_cons {sector : ℤ} :
    scannedSectors host name listing (sector :: sectors) wines filee vol =
      sector :: match scanEntries name listing
          (direntries (readDirSector host vol sector).fsc.dirBuffer) wines filee with
        | .goOn wines filee =>
          scannedSectors host name listing sectors wines filee (readDirSector host vol sector)
        | _ => [] := rfl

/-- A sector that is read is in `DirBuffer`. -/
theorem DirRead.dirBuffer {sector : ℤ} (h : DirRead host device vol sector)
    (hlen : vol.fsc.dirBuffer.length = SECTORSIZE) :
    (readDirSector host vol sector).fsc.dirBuffer =
      host.usb.bytes device ((vol.fsc.partitionStart + sector) * SECTORSIZE).toNat SECTORSIZE := by
  have hput : (readDirSector host vol sector).fsc.dirBuffer = Buffer.put vol.fsc.dirBuffer 0
      (host.usb.bytes device ((vol.fsc.partitionStart + sector) * SECTORSIZE).toNat SECTORSIZE) :=
    h.2
  have hall := @take_put host.usb device
    ((vol.fsc.partitionStart + sector) * SECTORSIZE).toNat SECTORSIZE vol.fsc.dirBuffer hlen.ge
  rwa [List.take_of_length_le (Buffer.length_put.trans hlen).le, ← hput] at hall

theorem DirRead.length {sector : ℤ} (h : DirRead host device vol sector)
    (hlen : vol.fsc.dirBuffer.length = SECTORSIZE) :
    (readDirSector host vol sector).fsc.dirBuffer.length = SECTORSIZE := by
  rw [h.dirBuffer hlen, length_bytes]

theorem allRead_cons {sector : ℤ} : AllRead host device vol (sector :: sectors) ↔
    DirRead host device vol sector ∧ AllRead host device (readDirSector host vol sector) sectors := by
  constructor
  · intro h
    refine ⟨h [] sector sectors rfl, ?_⟩
    rintro before sector' behind rfl
    exact h (sector :: before) sector' behind rfl
  · rintro ⟨hfirst, hrest⟩ before sector' behind hsplit
    cases before with
    | nil =>
        obtain ⟨rfl, -⟩ := List.cons.inj hsplit
        exact hfirst
    | cons first before =>
        obtain ⟨rfl, htail⟩ := List.cons.inj hsplit
        exact hrest before sector' behind htail

theorem AllRead.of_append (h : AllRead host device vol sectors') (hfront : sectors <+: sectors') :
    AllRead host device vol sectors := by
  obtain ⟨rest, rfl⟩ := hfront
  rintro before sector behind rfl
  exact h before sector (behind ++ rest) (by rw [List.append_assoc, List.cons_append])

theorem slotsOf_cons {usb : Usb} {start : ℕ} {sector : ℤ} :
    slotsOf usb device start (sector :: sectors) =
      direntries (usb.bytes device ((start + sector) * SECTORSIZE).toNat SECTORSIZE) ++
        slotsOf usb device start sectors := rfl

theorem scanSectors_ends (hfilee : strcaseequ name filee.longName = false)
    (hlen : vol.fsc.dirBuffer.length = SECTORSIZE)
    (hread : AllRead host device vol
      (scannedSectors host name false sectors (gathered front) filee vol)) :
    Ends name front (slotsOf host.usb device vol.fsc.partitionStart sectors)
      (scanSectors host name false sectors (gathered front) filee vol).1 := by
  induction sectors generalizing front filee vol with
  | nil =>
      have hgoOn : Ends name front [] (.goOn (gathered (front ++ [])) filee) := .goOn rfl rfl hfilee
      rw [List.append_nil] at hgoOn
      exact hgoOn
  | cons sector sectors ih =>
      rw [scannedSectors_cons, allRead_cons] at hread
      obtain ⟨hfirst, hrest⟩ := hread
      have hends := @scanEntries_ends name front
        (direntries (readDirSector host vol sector).fsc.dirBuffer) filee hfilee
      rw [scanSectors_cons, slotsOf_cons, ← hfirst.dirBuffer hlen]
      generalize scanEntries name false _ (gathered front) filee = scan at hends hrest ⊢
      cases hends with
      | found hsearch hfields => exact .append_of_found hsearch hfields
      | unused hsearch hempty => exact .append_of_unused hsearch hempty
      | goOn hsearch hused hfilee' =>
          exact .append hsearch hused (ih hfilee' (hfirst.length hlen) hrest)

theorem scanSectors_vol : (scanSectors host name listing sectors wines filee vol).2 =
    readDirSectors host (scannedSectors host name listing sectors wines filee vol) vol := by
  induction sectors generalizing wines filee vol with
  | nil => rfl
  | cons sector sectors ih =>
      rw [scanSectors_cons, scannedSectors_cons]
      cases scanEntries name listing (direntries (readDirSector host vol sector).fsc.dirBuffer)
        wines filee with
      | goOn wines filee => exact ih
      | unused => rfl
      | found filee => rfl

theorem scannedSectors_prefix :
    scannedSectors host name listing sectors wines filee vol <+: sectors := by
  induction sectors generalizing wines filee vol with
  | nil => exact List.prefix_rfl
  | cons sector sectors ih =>
      rw [scannedSectors_cons]
      split
      · exact (List.prefix_cons_inj sector).mpr ih
      · exact (List.prefix_cons_inj sector).mpr (List.nil_prefix)

theorem scannedSectors_append :
    scannedSectors host name listing sectors wines filee vol <+:
      scannedSectors host name listing (sectors ++ sectors') wines filee vol := by
  induction sectors generalizing wines filee vol with
  | nil => exact List.nil_prefix
  | cons sector sectors ih =>
      rw [List.cons_append, scannedSectors_cons, scannedSectors_cons, List.prefix_cons_inj]
      split
      · exact ih
      · exact List.nil_prefix

/-- The search goes on behind the slots `l`, if `front` are those before. -/
def GoesOnFrom (name : CString) (front l : List Direntry) : Prop :=
  usedSlots l = l ∧ search (MatchesAsRead name) front l = none

theorem goesOnFrom_append (hused : usedSlots l = l)
    (hsearch : search (MatchesAsRead name) front l = none) :
    GoesOnFrom name front (l ++ l') ↔ GoesOnFrom name (front ++ l) l' := by
  unfold GoesOnFrom
  rw [usedSlots_append hused, search_append, hsearch, Option.none_or, List.append_cancel_left_eq]

/-- A sector is scanned if the search goes on behind the slots of the sectors before. -/
theorem allRead_iff (hfilee : strcaseequ name filee.longName = false)
    (hlen : vol.fsc.dirBuffer.length = SECTORSIZE) :
    AllRead host device vol (scannedSectors host name false sectors (gathered front) filee vol) ↔
      ∀ before sector behind, sectors = before ++ sector :: behind →
        GoesOnFrom name front (slotsOf host.usb device vol.fsc.partitionStart before) →
          DirRead host device (readDirSectors host before vol) sector := by
  induction sectors generalizing front filee vol with
  | nil =>
      refine iff_of_true (fun before sector behind hsplit => ?_) fun before sector behind hsplit => ?_
      · exact absurd (show [] = before ++ sector :: behind from hsplit) (by simp)
      · exact absurd hsplit (by simp)
  | cons first sectors ih =>
      rw [scannedSectors_cons, allRead_cons]
      have hfirst_iff : (∀ before sector behind, first :: sectors = before ++ sector :: behind →
          GoesOnFrom name front (slotsOf host.usb device vol.fsc.partitionStart before) →
            DirRead host device (readDirSectors host before vol) sector) ↔
          DirRead host device vol first ∧
            ∀ before sector behind, sectors = before ++ sector :: behind →
              GoesOnFrom name front
                (slotsOf host.usb device vol.fsc.partitionStart (first :: before)) →
                DirRead host device (readDirSectors host before (readDirSector host vol first))
                  sector := by
        constructor
        · intro h
          refine ⟨h [] first sectors rfl ⟨rfl, rfl⟩, ?_⟩
          rintro before sector behind rfl hgoes
          exact h (first :: before) sector behind rfl hgoes
        · rintro ⟨hfirst, hrest⟩ before sector behind hsplit hgoes
          cases before with
          | nil =>
              obtain ⟨rfl, -⟩ := List.cons.inj hsplit
              exact hfirst
          | cons first' before =>
              obtain ⟨rfl, htail⟩ := List.cons.inj hsplit
              exact hrest before sector behind htail hgoes
      rw [hfirst_iff]
      refine and_congr_right fun hfirst => ?_
      have hends := @scanEntries_ends name front
        (direntries (readDirSector host vol first).fsc.dirBuffer) filee hfilee
      have hslots : ∀ before, slotsOf host.usb device vol.fsc.partitionStart (first :: before) =
          direntries (readDirSector host vol first).fsc.dirBuffer ++
            slotsOf host.usb device vol.fsc.partitionStart before := by
        intro before
        rw [slotsOf_cons, hfirst.dirBuffer hlen]
      simp only [hslots]
      generalize scanEntries name false _ (gathered front) filee = scan at hends ⊢
      cases hends with
      | found hsearch hfields =>
          refine iff_of_true (fun before sector behind hsplit => absurd hsplit (by simp)) ?_
          rintro before sector behind - ⟨hused, hnone⟩
          rw [← hused, search_usedSlots_append hsearch] at hnone
          cases hnone
      | unused hsearch hempty =>
          refine iff_of_true (fun before sector behind hsplit => absurd hsplit (by simp)) ?_
          rintro before sector behind - ⟨hused, -⟩
          obtain ⟨dire, hdire, hslot⟩ := hempty
          have hlive := List.takeWhile_eq_self_iff.mp hused dire (List.mem_append_left _ hdire)
          simp [hslot] at hlive
      | goOn hsearch hused hfilee' =>
          rw [hused] at hsearch
          simp only [goesOnFrom_append hused hsearch]
          exact ih hfilee' (hfirst.length hlen)

/-- The sectors up to the one that an entry stands in. -/
theorem scannedSectors_found {before : List Direntry}
    (hfilee : strcaseequ name filee.longName = false)
    (hlen : vol.fsc.dirBuffer.length = SECTORSIZE)
    (hread : AllRead host device vol
      (scannedSectors host name false sectors (gathered front) filee vol))
    (hsearch : search (MatchesAsRead name) front
      (usedSlots (slotsOf host.usb device vol.fsc.partitionStart sectors)) = some (before, dire)) :
    scannedSectors host name false sectors (gathered front) filee vol =
      sectors.take ((before.length - front.length) / (SECTORSIZE / 32) + 1) := by
  induction sectors generalizing front filee vol with
  | nil => cases hsearch
  | cons sector sectors ih =>
      have hends := @scanEntries_ends name front
        (direntries (readDirSector host vol sector).fsc.dirBuffer) filee hfilee
      have hlength := length_direntries (readDirSector host vol sector).fsc.dirBuffer
      rw [scannedSectors_cons, allRead_cons] at hread
      obtain ⟨hfirst, hrest⟩ := hread
      have hnext := hfirst.length hlen
      rw [slotsOf_cons, ← hfirst.dirBuffer hlen] at hsearch
      rw [scannedSectors_cons]
      generalize direntries (readDirSector host vol sector).fsc.dirBuffer = slots at *
      cases hscan : scanEntries name false slots (gathered front) filee with
      | unused =>
          rw [hscan] at hends
          cases hends with
          | unused hnone hempty =>
              rw [usedSlots_append_of_empty hempty, hnone] at hsearch
              cases hsearch
      | found filee' =>
          rw [hscan] at hends
          cases hends with
          | found hfound _ =>
              cases (search_usedSlots_append hfound).symm.trans hsearch
              have hbounds := search_length hfound
              have hused : (usedSlots slots).length ≤ slots.length :=
                (List.takeWhile_sublist _).length_le
              rw [Nat.div_eq_of_lt (by omega), Nat.zero_add]
              rfl
      | goOn wines' filee' =>
          rw [hscan] at hends hrest
          cases hends with
          | goOn hnone hused hfilee' =>
              rw [usedSlots_append hused, search_append, ← hused, hnone, Option.none_or,
                hused] at hsearch
              have hbounds := (search_length hsearch).1
              rw [List.length_append, hlength] at hbounds
              dsimp only
              rw [ih hfilee' hnext hrest hsearch, List.length_append, hlength, List.take_succ_cons]
              have hquot : (before.length - front.length) / (SECTORSIZE / 32) =
                  (before.length - (front.length + SECTORSIZE / 32)) / (SECTORSIZE / 32) + 1 := by
                unfold SECTORSIZE at hbounds ⊢
                omega
              rw [hquot]

/-- No more sectors are scanned if the scan does not go on. -/
theorem scan_stops (hstops : ∀ wines' filee',
    (scanSectors host name listing sectors wines filee vol).1 ≠ .goOn wines' filee') :
    scanSectors host name listing (sectors ++ sectors') wines filee vol =
        scanSectors host name listing sectors wines filee vol ∧
      scannedSectors host name listing (sectors ++ sectors') wines filee vol =
        scannedSectors host name listing sectors wines filee vol := by
  induction sectors generalizing wines filee vol with
  | nil => exact absurd rfl (hstops wines filee)
  | cons sector sectors ih =>
      rw [scanSectors_cons] at hstops
      rw [List.cons_append, scanSectors_cons, scanSectors_cons, scannedSectors_cons,
        scannedSectors_cons]
      cases hentries : scanEntries name listing
        (direntries (readDirSector host vol sector).fsc.dirBuffer) wines filee with
      | goOn wines filee =>
          rw [hentries] at hstops
          obtain ⟨hscan, hscanned⟩ := ih hstops
          exact ⟨hscan, congrArg _ hscanned⟩
      | unused => exact ⟨rfl, rfl⟩
      | found filee => exact ⟨rfl, rfl⟩

/-- The next sector is scanned if it does. -/
theorem scan_goes_on {sector : ℤ} {wines' : List Direntry}
    (hgoes : (scanSectors host name listing sectors wines filee vol).1 = .goOn wines' filee') :
    sector ∈ scannedSectors host name listing (sectors ++ [sector]) wines filee vol := by
  induction sectors generalizing wines filee vol with
  | nil => exact List.mem_cons_self
  | cons first sectors ih =>
      rw [scanSectors_cons] at hgoes
      rw [List.cons_append, scannedSectors_cons]
      cases hentries : scanEntries name listing
        (direntries (readDirSector host vol first).fsc.dirBuffer) wines filee with
      | goOn wines filee =>
          rw [hentries] at hgoes
          exact List.mem_cons_of_mem _ (ih hgoes)
      | unused =>
          rw [hentries] at hgoes
          cases hgoes
      | found filee =>
          rw [hentries] at hgoes
          cases hgoes

/-! ## The root directory -/

theorem int32_inj {m n : ℕ} (hm : m < 2 ^ 32) (hn : n < 2 ^ 32) (h : int32 m = int32 n) :
    m = n := by
  unfold int32 at h
  rw [Int.bmod_def, Int.bmod_def] at h
  omega

/-- The loop goes one sector too far. -/
theorem rootSectors_eq (h : vol.fsc.firstRootDirSecNum + vol.fsc.rootDirSectors < 2 ^ 32) :
    rootSectors vol.fsc = rootRegion vol.fsc ++
      [int32 (vol.fsc.firstRootDirSecNum + vol.fsc.rootDirSectors : ℕ)] := by
  have hsum : uint32 (vol.fsc.rootDirSectors + vol.fsc.firstRootDirSecNum) + 1 -
      vol.fsc.firstRootDirSecNum = vol.fsc.rootDirSectors + 1 := by
    rw [← Int.natCast_add, uint32_natCast (by omega)]
    omega
  unfold rootSectors rootRegion
  rw [hsum, List.range_succ, List.map_append]
  rfl

theorem not_mem_rootRegion (h : vol.fsc.firstRootDirSecNum + vol.fsc.rootDirSectors < 2 ^ 32) :
    int32 (vol.fsc.firstRootDirSecNum + vol.fsc.rootDirSectors : ℕ) ∉ rootRegion vol.fsc := by
  intro hmem
  obtain ⟨i, hi, heq⟩ := List.mem_map.mp hmem
  have hlt := List.mem_range.mp hi
  have hsame := int32_inj (by omega) (by omega) heq
  omega

theorem splitPath_eq (hslash : slash ∉ name) : splitPath name = [name] := by
  unfold splitPath
  rw [List.splitOn_eq_splitOnP]
  refine List.splitOnP_eq_singleton fun c hc => beq_eq_false_iff_ne.mpr ?_
  rintro rfl
  exact hslash hc

/-- What `fat_findfile` returns for the end of a search. -/
def finishSearch (host : Host) : Scan × Vol → Option (ℤ × Vol)
  | (.goOn _ _, vol) => some (2, vol)
  | (.unused, vol) => some (0, vol)
  | (.found filee, vol) => takeFile host filee vol

/-- A name without directories, on a volume whose root directory is a region of its own. -/
theorem fatFindfile_root (hfat : vol.fsc.fatType ≠ .fat32) (hname : name ≠ [])
    (hslash : slash ∉ name) : fatFindfile host name vol =
      finishSearch host (scanSectors host name false (rootSectors vol.fsc) [] noFile vol) := by
  unfold fatFindfile
  rw [if_neg hfat, splitPath_eq hslash]
  dsimp only
  rw [decide_eq_false fun h => hname h.2]
  generalize scanSectors host name false (rootSectors vol.fsc) [] noFile vol = scanned
  obtain ⟨scan, vol'⟩ := scanned
  cases scan with
  | goOn => rfl
  | unused => rfl
  | found => rfl

theorem takeFile_spec {res : ℤ} (h : takeFile host filee vol = some (res, vol')) :
    res = 1 ∧ vol'.fsc.file.fields = filee.fields := by
  unfold takeFile at h
  dsimp only at h
  split at h
  · cases h
  · next hchain =>
    cases h
    have hfile := file_rule.fatGetChain rfl hchain
    rw [hfile]
    exact ⟨rfl, rfl⟩
  · next hchain =>
    cases h
    have hfile := file_rule.fatGetChain rfl hchain
    dsimp only
    rw [hfile]
    exact ⟨rfl, rfl⟩

/-- Only these fields of an entry are used. -/
theorem takeFile_congr (h : filee.fields = filee'.fields) :
    takeFile host filee vol = takeFile host filee' vol := by
  obtain ⟨hshort, hhigh, hstart, hsize⟩ := FileFields.mk.inj h
  unfold takeFile
  rw [hshort, hhigh, hstart, hsize]

end Fat

end LuojiOs
