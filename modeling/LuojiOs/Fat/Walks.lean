import LuojiOs.Fat.File
import LuojiOs.Files.Moved

/-!
# What a search on a volume leaves alone

The functions that look for a file fill the buffers of the volume and note the file they find.
Everything else of the volume stays as it is, no device is opened or closed, and memory that was
freed stays free.
-/

namespace LuojiOs

namespace Fat

open Devfs

variable {host : Host} {vol vol' : Vol} {devs : Devs} {heap heap' : Blocks}

/-! ## Memory -/

/-- Blocks allocated later have numbers that were not used before. -/
structure Blocks.Later (heap heap' : Blocks) : Prop where
  next : heap.next ≤ heap'.next
  live : ∀ a ∈ heap'.live, a ∈ heap.live ∨ heap.next ≤ a.1

theorem Blocks.Later.refl : Blocks.Later heap heap := ⟨le_rfl, fun _ => Or.inl⟩

theorem Blocks.Later.trans {heap'' : Blocks} (h : Blocks.Later heap heap')
    (h' : Blocks.Later heap' heap'') : Blocks.Later heap heap'' := by
  refine ⟨h.next.trans h'.next, ?_⟩
  intro a ha
  rcases h'.live a ha with hold | hnew
  · exact h.live a hold
  · exact Or.inr (h.next.trans hnew)

theorem Blocks.free_later {block : Option ℕ} : Blocks.Later heap (heap.free block) := by
  unfold Blocks.free
  split
  · exact .refl
  · exact ⟨le_rfl, fun a ha => Or.inl (List.mem_filter.mp ha).1⟩

theorem Blocks.malloc_later {size : ℕ} : Blocks.Later heap (heap.malloc host size).2 := by
  unfold Blocks.malloc
  split
  · exact ⟨Nat.le_succ _, fun _ => Or.inl⟩
  · refine ⟨Nat.le_succ _, ?_⟩
    intro a ha
    rcases List.mem_cons.mp ha with rfl | hold
    · exact Or.inr le_rfl
    · exact Or.inl hold

/-! ## What a search leaves -/

/-- The fields of a volume that are fixed once it is initialised. -/
def FatSc.fixed (fsc : FatSc) : FatSc :=
  { fsc with fatBuffer := [], fatCacheNum := 0, dirBuffer := [], file := noFile }

structure Walks (host : Host) (vol vol' : Vol) : Prop where
  fixed : vol'.fsc.fixed = vol.fsc.fixed
  devs : Moved host.usb vol.devs vol'.devs
  heap : Blocks.Later vol.heap vol'.heap
  maxBufszClusts : vol'.maxBufszClusts = vol.maxBufszClusts

theorem Walks.refl : Walks host vol vol := ⟨rfl, .refl, .refl, rfl⟩

theorem Walks.trans {vol'' : Vol} (h : Walks host vol vol') (h' : Walks host vol' vol'') :
    Walks host vol vol'' :=
  ⟨h'.fixed.trans h.fixed, h.devs.trans h'.devs, h.heap.trans h'.heap,
    h'.maxBufszClusts.trans h.maxBufszClusts⟩

theorem Walks.fd (h : Walks host vol vol') : vol'.fsc.fd = vol.fsc.fd := by
  change vol'.fsc.fixed.fd = vol.fsc.fixed.fd
  rw [h.fixed]

theorem Walks.lastSectorBlock (h : Walks host vol vol') :
    vol'.fsc.lastSectorBlock = vol.fsc.lastSectorBlock := by
  change vol'.fsc.fixed.lastSectorBlock = vol.fsc.fixed.lastSectorBlock
  rw [h.fixed]

theorem readsector_moved {fsc : FatSc} {sector count : ℤ} {buffer : Dest} :
    Moved host.usb devs (readsector host fsc sector count buffer devs).2.2 :=
  devioLseek_moved.trans devioRead_moved

/-! ## The table of clusters -/

/-- A relation that a read of a sector of the table respects, and that steps one after another
keep. -/
structure TableRule (host : Host) (R : Vol → Vol → Prop) : Prop where
  refl : ∀ vol, R vol vol
  trans : ∀ {vol vol' vol''}, R vol vol' → R vol' vol'' → R vol vol''
  load : ∀ vol fatsect, R vol (loadFatSector host fatsect vol).2

namespace TableRule

variable {R : Vol → Vol → Prop}

theorem cache (h : TableRule host R) (vol : Vol) (fatsect : ℕ) :
    R vol (cacheFatSector host fatsect vol).2 := by
  unfold cacheFatSector
  split
  · exact h.load vol fatsect
  · exact h.refl vol

/-- A sector of the table that is read only if it has to be. -/
theorem crossed (h : TableRule host R) (vol : Vol) (fatsect : ℕ) (crossed : Bool) :
    R vol (if crossed then loadFatSector host fatsect vol else (true, vol)).2 := by
  split
  · exact h.load vol fatsect
  · exact h.refl vol

theorem fat12Entry (h : TableRule host R) (vol : Vol) (entry : ℤ) :
    R vol (fat12Entry host entry vol).2 := by
  unfold Fat.fat12Entry
  dsimp only
  have hcache := h.cache vol (uint32 ((entry - entry % 2) * 3 / 2) / SECTORSIZE)
  split
  · next heq =>
    rw [heq] at hcache
    exact hcache
  · next v₁ heq =>
    rw [heq] at hcache
    have hsecond := h.crossed v₁
    split
    · next v₂ heq₂ => exact h.trans hcache (congrArg Prod.snd heq₂ ▸ hsecond _ _)
    · next v₂ heq₂ =>
      have hv₂ := h.trans hcache (congrArg Prod.snd heq₂ ▸ hsecond _ _)
      have hthird := h.crossed v₂
      split
      · next heq₃ => exact h.trans hv₂ (congrArg Prod.snd heq₃ ▸ hthird _ _)
      · next heq₃ => exact h.trans hv₂ (congrArg Prod.snd heq₃ ▸ hthird _ _)

theorem wholeFatEntry (h : TableRule host R) (vol : Vol) (byteoffset : ℕ)
    (value : List (BitVec 8) → ℕ → ℕ) : R vol (wholeFatEntry host byteoffset value vol).2 := by
  unfold Fat.wholeFatEntry
  have hcache := h.cache vol (byteoffset / SECTORSIZE)
  split
  · next heq =>
    rw [heq] at hcache
    exact hcache
  · next heq =>
    rw [heq] at hcache
    exact hcache

theorem getFatEntry (h : TableRule host R) (vol : Vol) (entry : ℤ) :
    R vol (getFatEntry host entry vol).2 := by
  unfold Fat.getFatEntry
  split
  · exact h.fat12Entry vol entry
  · exact h.wholeFatEntry vol _ _
  · exact h.wholeFatEntry vol _ _
  · exact h.refl vol

theorem walkChain (h : TableRule host R) {steps : ℕ} {flag : ℤ} {ok : Bool} {entries : List ℕ}
    (hwalk : walkChain host steps flag vol = some (ok, entries, vol')) : R vol vol' := by
  induction steps generalizing flag vol ok entries with
  | zero => cases hwalk
  | succ steps ih =>
      unfold Fat.walkChain at hwalk
      dsimp only at hwalk
      have hentry := h.getFatEntry vol flag
      split at hwalk
      · cases hwalk
        exact hentry
      split at hwalk
      · cases hwalk
        exact hentry
      · obtain ⟨⟨ok', entries', vol''⟩, hrest, heq⟩ := Option.map_eq_some_iff.mp hwalk
        cases heq
        exact h.trans hentry (ih hrest)

/-- A relation that does not depend on the heap. -/
theorem fatGetChain (h : TableRule host R) {start res : ℤ} {chain : Option Fatchain}
    (hheap : ∀ {vol} {size : ℕ}, R vol { vol with heap := (vol.heap.malloc host size).2 })
    (hchain : fatGetChain host start vol = some (res, chain, vol')) : R vol vol' := by
  unfold Fat.fatGetChain at hchain
  split at hchain
  · cases hchain
  · next hwalk =>
    cases hchain
    exact h.walkChain hwalk
  · next counted v₁ hwalk =>
    have hmalloc := @hheap v₁ (4 * counted.length + 512)
    split at hchain
    · cases hchain
    · next heap heq =>
      rw [heq] at hmalloc
      split at hchain
      · cases hchain
      · next hagain =>
        cases hchain
        exact h.trans (h.walkChain hwalk) (h.trans hmalloc (h.walkChain hagain))

end TableRule

/-- Reading the table keeps what is fixed. -/
theorem walks_rule : TableRule host (Walks host) where
  refl _ := .refl
  trans := .trans
  load vol fatsect := by
    unfold loadFatSector
    dsimp only
    split
    · exact ⟨rfl, readsector_moved, .refl, rfl⟩
    · exact ⟨rfl, readsector_moved, .refl, rfl⟩

theorem getFatEntry_walks {entry : ℤ} : Walks host vol (getFatEntry host entry vol).2 :=
  walks_rule.getFatEntry vol entry

/-! ## The search -/

theorem Walks.withHeap (h : Blocks.Later vol.heap heap) : Walks host vol { vol with heap := heap } :=
  ⟨rfl, .refl, h, rfl⟩

theorem fatGetChain_walks {start res : ℤ} {chain : Option Fatchain}
    (h : fatGetChain host start vol = some (res, chain, vol')) : Walks host vol vol' :=
  walks_rule.fatGetChain (Walks.withHeap Blocks.malloc_later) h

theorem freeChain_walks {chain : Fatchain} : Walks host vol (freeChain chain vol) :=
  Walks.withHeap Blocks.free_later

theorem scanSectors_walks {name : CString} {listing : Bool} {sectors : List ℤ}
    {wines : List Direntry} {filee : FatFileentry} :
    Walks host vol (scanSectors host name listing sectors wines filee vol).2 := by
  induction sectors generalizing wines filee vol with
  | nil => exact .refl
  | cons sector sectors ih =>
      have hread : ∀ {bytes : List (BitVec 8)} {devs : Devs}, Moved host.usb vol.devs devs →
          Walks host vol { vol with fsc := { vol.fsc with dirBuffer := bytes }, devs := devs } :=
        fun h => ⟨rfl, h, .refl, rfl⟩
      unfold scanSectors
      dsimp only
      split
      · exact (hread readsector_moved).trans ih
      · exact hread readsector_moved

theorem takeFile_walks {filee : FatFileentry} {res : ℤ}
    (h : takeFile host filee vol = some (res, vol')) : Walks host vol vol' := by
  unfold takeFile at h
  dsimp only at h
  have hfile : ∀ {file : FatFileentry} {v : Vol},
      Walks host v { v with fsc := { v.fsc with file := file } } :=
    ⟨rfl, .refl, .refl, rfl⟩
  split at h
  · cases h
  · next hchain =>
    cases h
    exact hfile.trans (fatGetChain_walks hchain)
  · next hchain =>
    cases h
    exact (hfile.trans (fatGetChain_walks hchain)).trans hfile

/-- Reading the table keeps the file. -/
theorem file_rule : TableRule host fun vol vol' => vol'.fsc.file = vol.fsc.file where
  refl _ := rfl
  trans h h' := h'.trans h
  load vol fatsect := by
    unfold loadFatSector
    dsimp only
    split
    · rfl
    · rfl

theorem withChain_walks {start res : ℤ} {scan : Fatchain → Vol → Option (ℤ × Vol)}
    (hscan : ∀ {chain v v' r}, scan chain v = some (r, v') → Walks host v v')
    (h : withChain host start scan vol = some (res, vol')) : Walks host vol vol' := by
  unfold withChain at h
  split at h
  · next hchain =>
    obtain ⟨⟨r, v⟩, hrest, heq⟩ := Option.map_eq_some_iff.mp h
    cases heq
    exact (fatGetChain_walks hchain).trans ((hscan hrest).trans freeChain_walks)
  · cases h

theorem fatSubdirscan_walks {names : List CString} {chain : Fatchain} {res : ℤ}
    (h : fatSubdirscan host names chain vol = some (res, vol')) : Walks host vol vol' := by
  induction names generalizing chain vol vol' res with
  | nil => cases h
  | cons name rest ih =>
      have hscan := @scanSectors_walks host vol name (decide (rest = [] ∧ name = []))
        (chainSectors vol.fsc chain) [] noFile
      unfold fatSubdirscan at h
      dsimp only at h
      split at h
      · next heq =>
        cases h
        rwa [heq] at hscan
      · next heq =>
        cases h
        rwa [heq] at hscan
      · next heq =>
        rw [heq] at hscan
        split at h
        · exact hscan.trans (takeFile_walks h)
        · exact hscan.trans (withChain_walks ih h)

theorem fatFindfile_walks {path : CString} {res : ℤ}
    (h : fatFindfile host path vol = some (res, vol')) : Walks host vol vol' := by
  unfold fatFindfile at h
  split at h
  · exact withChain_walks fatSubdirscan_walks h
  split at h
  · cases h
  · next name rest _ =>
    have hscan := @scanSectors_walks host vol name (decide (rest = [] ∧ name = []))
      (rootSectors vol.fsc) [] noFile
    dsimp only at h
    split at h
    · next heq =>
      cases h
      rwa [heq] at hscan
    · next heq =>
      cases h
      rwa [heq] at hscan
    · next heq =>
      rw [heq] at hscan
      split at h
      · exact hscan.trans (takeFile_walks h)
      · exact hscan.trans (withChain_walks fatSubdirscan_walks h)

/-! ## `fat_init` -/

/-- What `fat_init` leaves: the descriptor is noted, and a buffer it has allocated is freed. -/
structure Inits (host : Host) (fd : ℤ) (vol vol' : Vol) : Prop where
  fd : vol'.fsc.fd = fd
  devs : Moved host.usb vol.devs vol'.devs
  heap : Blocks.Later vol.heap vol'.heap
  freed : ∀ b ∈ vol'.fsc.lastSectorBlock, b < vol'.heap.next ∧ ∀ a ∈ vol'.heap.live, a.1 ≠ b

theorem fatGetPartition_spec {partition : ℕ} :
    (fatGetPartition host partition vol).fsc.fd = vol.fsc.fd ∧
      (fatGetPartition host partition vol).fsc.lastSectorBlock = vol.fsc.lastSectorBlock ∧
      Moved host.usb vol.devs (fatGetPartition host partition vol).devs ∧
      (fatGetPartition host partition vol).heap = vol.heap := by
  unfold fatGetPartition
  generalize hread : devioRead host.usb vol.fsc.fd ⟨host.stackAddr, host.stack, 0⟩ SECTORSIZE
    vol.devs = out
  have hmoved := @devioRead_moved host.usb vol.fsc.fd ⟨host.stackAddr, host.stack, 0⟩ vol.devs
    SECTORSIZE
  rw [hread] at hmoved
  exact ⟨rfl, rfl, hmoved, rfl⟩

theorem malloc_lt {size b : ℕ} (h : (heap.malloc host size).1 = some b) :
    b < (heap.malloc host size).2.next := by
  unfold Blocks.malloc at h ⊢
  split at h
  · cases h
  · next hgranted =>
    cases h
    rw [if_neg hgranted]
    exact Nat.lt_succ_self _

theorem fatInit_inits {fd res : ℤ} {partition : ℕ}
    (h : fatInit host fd partition vol = some (res, vol')) : Inits host fd vol vol' := by
  obtain ⟨hfd, hblock, hmoved, hheap⟩ :=
    @fatGetPartition_spec host { vol with fsc := clearedSc fd } partition
  unfold fatInit at h
  generalize fatGetPartition host partition { vol with fsc := clearedSc fd } = v at *
  have hread := @readsector_moved host v.devs v.fsc 0 1 ⟨host.stackAddr, host.stack, 0⟩
  dsimp only at h
  generalize readsector host v.fsc 0 1 ⟨host.stackAddr, host.stack, 0⟩ v.devs = out at *
  split at h
  · cases h
    refine ⟨hfd, hmoved.trans hread, ?_, ?_⟩
    · rw [hheap]
      exact .refl
    · intro b hb
      rw [hblock] at hb
      cases hb
  split at h
  · cases h
  · have hlt := @malloc_lt host v.heap ((parseBpb out.2.1 v.fsc).bytesPerClust *
      (0x100000 / (parseBpb out.2.1 v.fsc).bytesPerClust))
    have hlater := @Blocks.malloc_later host v.heap ((parseBpb out.2.1 v.fsc).bytesPerClust *
      (0x100000 / (parseBpb out.2.1 v.fsc).bytesPerClust))
    generalize (v.heap.malloc host ((parseBpb out.2.1 v.fsc).bytesPerClust *
      (0x100000 / (parseBpb out.2.1 v.fsc).bytesPerClust))) = got at *
    cases h
    refine ⟨hfd, hmoved.trans hread, ?_, ?_⟩
    · rw [← hheap]
      exact hlater.trans Blocks.free_later
    · intro b hb
      have hgot : got.1 = some b := hb
      change b < (Blocks.free got.1 got.2).next ∧ ∀ a ∈ (Blocks.free got.1 got.2).live, a.1 ≠ b
      rw [hgot]
      refine ⟨hlt hgot, ?_⟩
      intro a ha
      exact of_decide_eq_true (List.mem_filter.mp ha).2

end Fat

end LuojiOs
