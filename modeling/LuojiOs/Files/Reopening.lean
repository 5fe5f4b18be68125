import LuojiOs.Files.Descriptors
import LuojiOs.Files.DeviceReads

/-!
# Opens that fail

A `fat_open` that fails before it opens the device leaves no trace.  One that fails later leaves
the slot of its descriptor open, so that the next `fat_open` with this descriptor fails too.
-/

namespace LuojiOs

open Devfs Fat Mtd

namespace Filesys

variable {sys : System} {host : Host} {close : ℤ → World → Option (ℤ × World)}
  {w w' v v' : World} {fd x r : ℤ} {path : CString} {fs : FileSystem}

/-! ## What a call does -/

/-- The boot sector as `fat_init` reads it. -/
def bootSector (host : Host) (fd : ℤ) (partition : ℕ) (devs : Devs) : List (BitVec 8) :=
  let vol := fatGetPartition host partition ⟨clearedSc fd, devs, ⟨0, []⟩, 0⟩
  (readsector host vol.fsc 0 1 ⟨host.stackAddr, host.stack, 0⟩ vol.devs).2.1

def Blank (sector : List (BitVec 8)) : Prop := byteAt sector 0 = 0 ∧ byteAt sector 1 = 0

theorem fatGetPartition_eq {partition : ℕ} (fsc : FatSc) (devs : Devs) :
    ∃ fsc' devs', ∀ heap m, fatGetPartition host partition ⟨fsc, devs, heap, m⟩ =
      ⟨fsc', devs', heap, m⟩ := by
  rcases hread : devioRead host.usb fsc.fd ⟨host.stackAddr, host.stack, 0⟩ SECTORSIZE devs with
    ⟨ret, buffer, devs'⟩
  refine ⟨{ fsc with
    partitionStart := letoh32 buffer.bytes (446 + 16 * partition + 8) }, devs', ?_⟩
  intro heap m
  unfold fatGetPartition
  simp only [hread]

theorem fatInit_res {partition : ℕ} {vol vol' : Vol} {res : ℤ}
    (h : fatInit host fd partition vol = some (res, vol')) :
    (res = -1 ∧ Blank (bootSector host fd partition vol.devs)) ∨
      (res = 1 ∧ ¬Blank (bootSector host fd partition vol.devs)) := by
  obtain ⟨fsc, devs, hpartition⟩ := @fatGetPartition_eq host partition (clearedSc fd) vol.devs
  rcases hread : readsector host fsc 0 1 ⟨host.stackAddr, host.stack, 0⟩ devs with
    ⟨ret, sector, devs'⟩
  unfold bootSector
  unfold fatInit at h
  simp only [hpartition, hread] at h ⊢
  split at h
  · next hblank =>
    cases h
    exact Or.inl ⟨rfl, hblank⟩
  · next hblank =>
    split at h
    · cases h
    · cases h
      exact Or.inr ⟨rfl, hblank⟩

/-- `fat_open` comes to an end without having opened the device. -/
def Early (host : Host) (fd : ℤ) (path : CString) (w : World) : Prop :=
  ∀ p, parsePath path = some p →
    host.refuses w.heap.next = true ∨ findDevice host.usb p.device (w.devs.opendevs fd) = none

/-- The device is opened, and its boot sector begins with two bytes of zero. -/
def ReadsBlank (host : Host) (fd : ℤ) (path : CString) (w : World) : Prop :=
  ∃ p, parsePath path = some p ∧ host.refuses w.heap.next = false ∧
    DiskOpens host.usb fd p.device w.devs ∧
    Blank (bootSector host fd p.partition (devioOpen host.usb fd p.device w.devs).2)

theorem devioOpen_of_opens {usb : Usb} {name : CString} {devs : Devs}
    (h : DiskOpens usb fd name devs) :
    ((devioOpen usb fd name devs).2.opendevs fd).openedFlag = true := by
  obtain ⟨hfree, hfound⟩ := h
  obtain ⟨biodev, hfound⟩ := Option.isSome_iff_exists.mp hfound
  unfold devioOpen
  dsimp only
  rw [if_neg (by rw [hfree]; exact Bool.false_ne_true), hfound]
  dsimp only
  rw [Function.update_self]

theorem devioOpen_of_not_opens {usb : Usb} {name : CString} {devs : Devs}
    (h : ¬DiskOpens usb fd name devs) : devioOpen usb fd name devs = (0, devs) := by
  unfold devioOpen
  dsimp only
  split
  · rfl
  · next hfree =>
    split
    · next biodev hfound =>
      exact absurd ⟨Bool.not_eq_true _ ▸ hfree, Option.isSome_iff_exists.mpr ⟨_, hfound⟩⟩ h
    · rfl

/-- How a call ends: the device was not opened and nothing has been looked up, or the device is
open and the file was looked up, whatever `fat_init` answered. -/
inductive Ends (host : Host) (fd : ℤ) (path : CString) (w : World) (r : ℤ) (w' : World) : Prop
  | before (hr : r = -1) (hdevs : w'.devs = w.devs) (hsteps : w'.fatSteps = w.fatSteps)
      (hnot : ∀ p, parsePath path = some p → host.refuses w.heap.next = true ∨
        ¬DiskOpens host.usb fd p.device w.devs)
  | after (p : FatPath) (res : ℤ) (hp : parsePath path = some p)
      (hheap : host.refuses w.heap.next = false) (hopens : DiskOpens host.usb fd p.device w.devs)
      (hflag : (w'.devs.opendevs fd).openedFlag = true) (hr : r = -1 ∨ r = fd)
      (hsteps : w'.fatSteps = .lookup :: .init res :: w.fatSteps)
      (hres : (res = -1 ∧ ReadsBlank host fd path w) ∨ (res = 1 ∧ ¬ReadsBlank host fd path w))

theorem failOpen_fields (hclose : ClosesOnlyOpen close) {self : ℕ}
    (h : failOpen close fd self w = some (r, w')) :
    r = -1 ∧ w'.devs = w.devs ∧ w'.fatSteps = w.fatSteps := by
  unfold failOpen at h
  dsimp only at h
  rw [hclose fd] at h
  · cases h
    exact ⟨rfl, rfl, rfl⟩
  · unfold World.setValid
    rw [World.file_onFile]

theorem fat_openFile_ends (hclose : ClosesOnlyOpen close) {p : FatPath} {self : ℕ}
    (h : Fat.openFile host close fd p self w = some (r, w')) :
    ∃ res, w'.fatSteps = .lookup :: .init res :: w.fatSteps ∧ Moved host.usb w.devs w'.devs ∧
      (r = -1 ∨ r = fd) ∧
      ((res = -1 ∧ Blank (bootSector host fd p.partition w.devs)) ∨
        (res = 1 ∧ ¬Blank (bootSector host fd p.partition w.devs))) := by
  unfold Fat.openFile at h
  split at h
  · cases h
  · next res vol hinit =>
    have hmoved : Moved host.usb w.devs vol.devs := (fatInit_inits hinit).devs
    have hres := fatInit_res hinit
    dsimp only at h
    split at h
    · next hzero =>
      rcases hres with ⟨hres, -⟩ | ⟨hres, -⟩ <;> omega
    · split at h
      · cases h
      · next res' vol' hfind =>
        have hmoved' := hmoved.trans (fatFindfile_walks hfind).devs
        split at h
        · obtain ⟨hr, hdevs, hsteps⟩ := failOpen_fields hclose h
          refine ⟨res, hsteps, ?_, Or.inl hr, hres⟩
          rw [hdevs]
          exact hmoved'
        · cases h
          exact ⟨res, rfl, hmoved', Or.inr rfl, hres⟩

theorem fatOpen_ends (hclose : ClosesOnlyOpen close)
    (h : fatOpen host close fd path w = some (r, w')) : Ends host fd path w r w' := by
  unfold fatOpen at h
  split at h
  · next hnone =>
    cases h
    refine .before rfl rfl rfl ?_
    intro p hp
    rw [hnone] at hp
    cases hp
  next p hp =>
  have honly : ∀ {q : FatPath}, parsePath path = some q → q = p :=
    fun hq => Option.some.inj (hq.symm.trans hp)
  split at h
  · cases h
  unfold Blocks.malloc at h
  by_cases hrefuse : host.refuses w.heap.next = true
  · rw [if_pos hrefuse] at h
    cases h
    exact .before rfl rfl rfl fun _ _ => Or.inl hrefuse
  · rw [if_neg hrefuse] at h
    have hheap : host.refuses w.heap.next = false := by simpa using hrefuse
    by_cases hopens : DiskOpens host.usb fd p.device w.devs
    · have hone : (devioOpen host.usb fd p.device w.devs).1 = 1 := devioOpen_eq_one_iff.mpr hopens
      have hflag := devioOpen_of_opens hopens
      have hblank : Blank (bootSector host fd p.partition
          (devioOpen host.usb fd p.device w.devs).2) ↔ ReadsBlank host fd path w := by
        refine ⟨fun hb => ⟨p, hp, hheap, hopens, hb⟩, ?_⟩
        rintro ⟨q, hq, -, -, hb⟩
        rwa [honly hq] at hb
      rcases hopen : devioOpen host.usb fd p.device w.devs with ⟨res, devs⟩
      rw [hopen] at hone hflag hblank
      obtain rfl : res = 1 := hone
      simp only [World.onFile, hopen] at h
      rw [if_neg (by decide)] at h
      obtain ⟨res, hsteps, hmoved, hr, hres⟩ := fat_openFile_ends hclose h
      refine .after p res hp hheap hopens ?_ hr hsteps ?_
      · rw [hmoved.openedFlag fd]
        exact hflag
      · rw [← hblank]
        exact hres
    · have hopen := devioOpen_of_not_opens hopens
      simp only [World.onFile, hopen] at h
      rw [if_pos trivial] at h
      cases h
      refine .before rfl rfl rfl ?_
      intro q hq
      rw [honly hq]
      exact Or.inr hopens

/-! ## Slots over a run -/

/-- The slot of a descriptor is open only while a file on a volume is. -/
def Holds (fd : ℤ) (w : World) : Prop :=
  (w.devs.opendevs fd).openedFlag = true → fd ∈ openSet w ∧ (w.file fd).fs = some .fat

theorem Holds.of_free (h : (w.devs.opendevs fd).openedFlag = false) : Holds fd w := by
  intro hflag
  rw [h] at hflag
  cases hflag

/-- What matters is the entry and the slot. -/
theorem Holds.congr (h : Holds fd w) (hfile : w'.file fd = w.file fd)
    (hslot : (w'.devs.opendevs fd).openedFlag = (w.devs.opendevs fd).openedFlag) :
    Holds fd w' := by
  intro hflag
  rw [hslot] at hflag
  obtain ⟨hmem, hfs⟩ := h hflag
  exact ⟨(mem_openSet_congr hfile).mpr hmem, hfile ▸ hfs⟩

theorem devioClose_slot {devs : Devs} :
    ((devioClose fd devs).opendevs fd).openedFlag = false := by
  unfold devioClose
  dsimp only
  rw [Function.update_self]

/-- Closing files keeps it, nested calls included. -/
theorem closeNested_holds {depth : ℕ} (h : closeNested sys depth x w = some (r, w'))
    (hholds : Holds fd w) : Holds fd w' := by
  induction depth generalizing x w r w' with
  | zero => cases h
  | succ depth ih =>
      unfold closeNested at h
      split at h
      · split at h
        · cases h
        · next fs hfs =>
          have hmark : x ≠ fd → Holds fd (w.setValid x false) := fun hx =>
            hholds.congr (World.file_onFile_of_ne (Ne.symm hx)) rfl
          have hother : x = fd → fs ≠ .fat → (w.devs.opendevs fd).openedFlag = false := by
            intro hx hne
            by_contra hflag
            obtain ⟨-, hfat⟩ := hholds (by simpa using hflag)
            rw [← hx, hfs] at hfat
            exact hne (Option.some.inj hfat)
          unfold driverClose at h
          dsimp only at h
          split at h
          · split at h
            · cases h
              by_cases hx : x = fd
              · exact .of_free (hother hx nofun)
              · exact (hmark hx).congr rfl rfl
            · cases h
          · unfold fatClose at h
            split at h
            · cases h
            · dsimp only at h
              split at h
              · cases h
              · next _ u hnested =>
                cases h
                by_cases hx : x = fd
                · subst hx
                  exact .of_free devioClose_slot
                · have hu : Holds fd u := ih hnested ((hmark hx).congr rfl rfl)
                  exact hu.congr rfl (devioClose_slots (Ne.symm hx))
          · cases h
            by_cases hx : x = fd
            · subst hx
              exact .of_free devioClose_slot
            · exact (hmark hx).congr rfl (devioClose_slots (Ne.symm hx))
          · split at h
            · cases h
              by_cases hx : x = fd
              · exact .of_free (hother hx nofun)
              · exact (hmark hx).congr rfl rfl
            · cases h
      · cases h
        exact hholds

theorem Uses.holds (h : Uses x w w') (hholds : Holds fd w) : Holds fd w' := by
  by_cases hx : fd = x
  · subst hx
    intro hflag
    rw [h.slot] at hflag
    obtain ⟨⟨hfd, hmax, hvalid⟩, hfs⟩ := hholds hflag
    exact ⟨⟨hfd, hmax, h.valid.trans hvalid⟩, h.fs.trans hfs⟩
  · exact hholds.congr (h.touches.file fd hx) (h.touches.slots fd hx)

theorem driverOpen_others (hclose : ClosesOnlyOpen close)
    (h : driverOpen sys close fs x path w = some (r, w')) (hx : fd ≠ x) :
    w'.file fd = w.file fd ∧
      (w'.devs.opendevs fd).openedFlag = (w.devs.opendevs fd).openedFlag := by
  have hall : ∀ {v : World} {call : DriverCall}, Touches x w v → (v.record call).file fd =
      w.file fd ∧ ((v.record call).devs.opendevs fd).openedFlag =
        (w.devs.opendevs fd).openedFlag :=
    fun htouch => ⟨htouch.file fd hx, htouch.slots fd hx⟩
  unfold driverOpen at h
  split at h
  · obtain ⟨⟨r', v⟩, hopen, heq⟩ := Option.map_eq_some_iff.mp h
    cases heq
    exact hall (mtdopen_touches hopen).2
  · obtain ⟨⟨r', v⟩, hopen, heq⟩ := Option.map_eq_some_iff.mp h
    cases heq
    exact hall (fatOpen_touches hclose hopen).2
  · obtain ⟨-, rfl⟩ := Prod.mk.inj (Option.some.inj h)
    exact ⟨rfl, devioOpen_slots hx⟩
  · obtain ⟨⟨r', ok, v⟩, hopen, heq⟩ := Option.map_eq_some_iff.mp h
    cases heq
    exact hall (netopen_touches hopen).1

theorem tryOpen_others {dname : Option CString} {fss : List FileSystem}
    (hclose : ClosesOnlyOpen close) (h : tryOpen sys close path dname x fss w = some (r, w'))
    (hx : fd ≠ x) : w'.file fd = w.file fd ∧
      (w'.devs.opendevs fd).openedFlag = (w.devs.opendevs fd).openedFlag := by
  have hfill : ∀ {v : World} {f : File → File}, (v.onFile x f).file fd = v.file fd :=
    World.file_onFile_of_ne hx
  induction fss generalizing w with
  | nil =>
      cases h
      exact ⟨rfl, rfl⟩
  | cons fsp fss ih =>
      unfold tryOpen at h
      dsimp only at h
      split at h
      · split at h
        · split at h
          · cases h
          · next xx v hopen =>
            have hothers := driverOpen_others hclose hopen hx
            split at h
            · cases h
              exact hothers
            · cases h
              exact ⟨hfill.trans hothers.1, hothers.2⟩
        · exact ih h
      · split at h
        · split at h
          · cases h
          · next xx v hopen =>
            have hothers := driverOpen_others hclose hopen hx
            split at h
            · cases h
              exact ⟨hfill.trans hothers.1, hothers.2⟩
            · obtain ⟨hfile, hslot⟩ := ih h
              exact ⟨hfile.trans hothers.1, hslot.trans hothers.2⟩
        · exact ih h

theorem netopenFrom_devs {url : Url} {opss : List NetFileOps} {i : ℕ} {ok ok' : Bool}
    (h : netopenFrom sys fd url opss i ok w = (r, ok', w')) : w'.devs = w.devs := by
  induction opss generalizing i ok w with
  | nil =>
      cases h
      rfl
  | cons ops rest ih =>
      unfold netopenFrom at h
      split at h
      · split at h
        · cases h
          rfl
        · dsimp only at h
          split at h
          · cases h
            rfl
          · exact (ih h).trans rfl
      · exact ih h

/-- If `fat_open` fails for this descriptor, it fails before it opens the device. -/
def FailsEarly (sys : System) (fd : ℤ) (path : CString) (w : World) : Prop :=
  ∀ u, fatOpen sys.host (closeFile sys) fd path w = some (-1, u) → Early sys.host fd path w

/-- A driver other than `disk` opens the slot of the descriptor only with a file. -/
theorem driverOpen_slot (hdisk : fs ≠ .disk)
    (hfat : fs = .fat → FailsEarly sys fd path w)
    (hfree : (w.devs.opendevs fd).openedFlag = false)
    (h : driverOpen sys (closeFile sys) fs fd path w = some (r, w'))
    (hflag : (w'.devs.opendevs fd).openedFlag = true) : r = fd ∧ fs = .fat := by
  have hsame : w'.devs = w.devs → False := by
    intro heq
    rw [heq, hfree] at hflag
    cases hflag
  unfold driverOpen at h
  split at h
  · obtain ⟨⟨r', v⟩, hopen, heq⟩ := Option.map_eq_some_iff.mp h
    cases heq
    refine (hsame ?_).elim
    unfold mtdopen at hopen
    split at hopen
    · cases hopen
      rfl
    split at hopen
    · cases hopen
    · cases hopen
      rfl
  · obtain ⟨⟨r', v⟩, hopen, heq⟩ := Option.map_eq_some_iff.mp h
    cases heq
    refine ⟨?_, rfl⟩
    cases fatOpen_ends closeFile_closesOnlyOpen hopen with
    | before hr hdevs => exact (hsame hdevs).elim
    | after p res hp hheap hopens hset hr =>
        rcases hr with hr | hr
        · subst hr
          rcases hfat rfl v hopen p hp with hrefuse | hnone
          · rw [hheap] at hrefuse
            cases hrefuse
          · have hfound := hopens.2
            rw [hnone] at hfound
            cases hfound
        · exact hr
  · exact absurd rfl hdisk
  · obtain ⟨⟨r', ok, v⟩, hopen, heq⟩ := Option.map_eq_some_iff.mp h
    cases heq
    refine (hsame ?_).elim
    unfold netopen at hopen
    split at hopen
    · cases hopen
      rfl
    · cases hopen
    · change v.devs = w.devs
      exact netopenFrom_devs (Option.some.inj hopen)

/-- Nothing is left to try once the file systems of the type `FS_FILE` are through. -/
theorem tryOpen_none {fss : List FileSystem} (hfss : FileSystem.fat ∉ fss) :
    tryOpen sys close path none fd fss w = some (-1, w) := by
  induction fss with
  | nil => rfl
  | cons fsp fss ih =>
      have hne : ¬fsp.isFsFile = true := by
        cases fsp with
        | fat => exact absurd List.mem_cons_self hfss
        | mtd => exact Bool.false_ne_true
        | disk => exact Bool.false_ne_true
        | net => exact Bool.false_ne_true
      unfold tryOpen
      dsimp only
      rw [if_neg hne]
      exact ih fun hmem => hfss (List.mem_cons_of_mem _ hmem)

theorem tryOpen_slot {dname : Option CString} {fss : List FileSystem} (hnodup : fss.Nodup)
    (hdisk : FileSystem.disk ∉ asked dname fss)
    (hfat : FileSystem.fat ∈ asked dname fss → FailsEarly sys fd path w)
    (hfree : (w.devs.opendevs fd).openedFlag = false)
    (h : tryOpen sys (closeFile sys) path dname fd fss w = some (r, w'))
    (hflag : (w'.devs.opendevs fd).openedFlag = true) :
    r = fd ∧ (w'.file fd).valid = true ∧ (w'.file fd).fs = some .fat := by
  have hfree' : ¬(w.devs.opendevs fd).openedFlag = true := by simp [hfree]
  induction fss with
  | nil =>
      cases h
      exact absurd hflag hfree'
  | cons fsp fss ih =>
      obtain ⟨hfsp, hnodup⟩ := List.nodup_cons.mp hnodup
      unfold tryOpen at h
      dsimp only at h
      split at h
      · next name =>
        split at h
        · next hname =>
          have hmem := @mem_asked_of_pos fsp name fss hname
          have hne : fsp ≠ .disk := fun heq => hdisk (heq ▸ hmem)
          split at h
          · cases h
          · next xx v hopen =>
            have hslot := driverOpen_slot hne (fun heq => hfat (heq ▸ hmem)) hfree hopen
            split at h
            · next hxx =>
              cases h
              exact absurd (hslot hflag).1 hxx
            · cases h
              refine ⟨rfl, by rw [World.file_onFile], ?_⟩
              rw [World.file_onFile, (hslot hflag).2]
        · next hname =>
          rw [asked_of_neg hname] at hdisk hfat
          exact ih hnodup hdisk hfat h
      · split at h
        · next htype =>
          have hmem : fsp ∈ asked none (fsp :: fss) :=
            List.mem_filter.mpr ⟨List.mem_cons_self, htype⟩
          have hne : fsp ≠ .disk := fun heq => hdisk (heq ▸ hmem)
          split at h
          · cases h
          · next xx v hopen =>
            have hslot := driverOpen_slot hne (fun heq => hfat (heq ▸ hmem)) hfree hopen
            split at h
            · cases h
              refine ⟨rfl, by rw [World.file_onFile], ?_⟩
              rw [World.file_onFile, (hslot hflag).2]
            · next hxx =>
              obtain rfl : fsp = .fat := by
                cases fsp with
                | fat => rfl
                | mtd => cases htype
                | disk => cases htype
                | net => cases htype
              rw [tryOpen_none hfsp] at h
              cases h
              exact absurd (hslot hflag).1 hxx
        · next htype =>
          have hsub : asked none fss = asked none (fsp :: fss) :=
            (List.filter_cons_of_neg htype).symm
          rw [← hsub] at hdisk hfat
          exact ih hnodup hdisk hfat h

/-- If the call is given the descriptor to open, it does not ask `disk`, and a `fat_open` that it
asks for opens the file or fails early. -/
def Harmless (sys : System) (fd : ℤ) (w : World) (call : FileCall) : Prop :=
  ∀ filename lu, call = .openFile filename → freeEntry w = some lu → (lu : ℤ) = fd →
    FileSystem.disk ∉ asked (route filename).2 sys.fileSystems ∧
      (FileSystem.fat ∈ asked (route filename).2 sys.fileSystems →
        FailsEarly sys fd (route filename).1
          (w.onFile fd fun _ => { clearedFile with valid := true }))

theorem openFile_holds {filename : CString} (hholds : Holds fd w)
    (hharmless : Harmless sys fd w (.openFile filename))
    (h : openFile sys (closeFile sys) filename w = some (r, w')) : Holds fd w' := by
  unfold openFile at h
  split at h
  · cases h
    exact hholds
  · next lu hlu =>
    obtain ⟨hmax, hvalid⟩ := freeEntry_some hlu
    split at h
    · cases h
    · obtain ⟨⟨i, v⟩, htry, heq⟩ := Option.map_eq_some_iff.mp h
      obtain ⟨rfl, rfl⟩ := Prod.mk.inj heq
      let marked := w.onFile lu fun _ => { clearedFile with valid := true }
      have htry : tryOpen sys (closeFile sys) (route filename).1 (route filename).2 lu
          sys.fileSystems marked = some (i, v) := htry
      by_cases hfd : fd = lu
      · have hfree : (marked.devs.opendevs fd).openedFlag = false := by
          by_contra hflag
          obtain ⟨⟨-, -, hopen⟩, -⟩ := hholds (eq_true_of_ne_false hflag)
          rw [hfd, hvalid] at hopen
          cases hopen
        obtain ⟨hdisk, hfat⟩ := hharmless filename lu rfl hlu hfd.symm
        subst hfd
        have hslot := tryOpen_slot sys.nodup hdisk hfat hfree htry
        split
        · next hi =>
          intro hflag
          have := (hslot hflag).1
          omega
        · intro hflag
          obtain ⟨-, hopen, hfs⟩ := hslot hflag
          exact ⟨⟨Int.natCast_nonneg lu, hmax, hopen⟩, hfs⟩
      · have hmark : Holds fd marked := hholds.congr (World.file_onFile_of_ne hfd) rfl
        obtain ⟨hfile, hslot⟩ := tryOpen_others closeFile_closesOnlyOpen htry hfd
        have hv := hmark.congr hfile hslot
        split
        · exact hv.congr (World.file_onFile_of_ne hfd) rfl
        · exact hv

theorem exec_holds {call : FileCall} (hholds : Holds fd w) (hharmless : Harmless sys fd w call)
    (h : exec sys w call = some (r, w')) : Holds fd w' := by
  cases call with
  | openFile filename => exact openFile_holds hholds hharmless h
  | read x n =>
      change readFile sys x n w = _ at h
      by_cases hopen : isOpen x w = true
      · obtain ⟨fs, huses⟩ := readFile_uses hopen h
        exact huses.holds (hholds.congr rfl rfl)
      · unfold readFile at h
        rw [if_neg hopen] at h
        cases h
        exact hholds
  | write x n =>
      change writeFile sys x w = _ at h
      by_cases hopen : isOpen x w = true
      · obtain ⟨fs, huses⟩ := writeFile_uses hopen h
        exact huses.holds (hholds.congr rfl rfl)
      · unfold writeFile at h
        rw [if_neg hopen] at h
        cases h
        exact hholds
  | lseek x offset whence =>
      change lseekFile sys x offset whence w = _ at h
      by_cases hopen : isOpen x w = true
      · obtain ⟨fs, huses⟩ := lseekFile_uses hopen h
        exact huses.holds (hholds.congr rfl rfl)
      · unfold lseekFile at h
        rw [if_neg hopen] at h
        cases h
        exact hholds
  | close x => exact closeNested_holds h hholds

/-! ## What is promised of `fat_open` -/

/-- What `open` leaves once `fat_open` has failed. -/
def afterFailure (fd : ℤ) (w : World) : World :=
  (w.record (.opened .fat fd false)).setValid fd false

/-- The file can be opened by a descriptor whose slot is free. -/
def Existing (sys : System) (fd : ℤ) (path : CString) (w : World) : Prop :=
  ∃ w', fatOpen sys.host (closeFile sys) fd path { w with devs := devioClose fd w.devs } =
    some (fd, w')

/-- The slot of the descriptor is free again.  Whatever comes later, up to another failure that
leaves it open, a file that exists can be opened when the descriptor is given out. -/
def Restored (sys : System) (fd : ℤ) (w : World) : Prop :=
  (w.devs.opendevs fd).openedFlag = false ∧
    ∀ v, Runs.Reach (step sys) (Harmless sys fd) (· = afterFailure fd w) v → fd ∉ openSet v →
      ∀ path, Existing sys fd path v →
        ∃ v', fatOpen sys.host (closeFile sys) fd path v = some (fd, v')

/-- Of the steps in between, no file was looked up after `fat_init` had answered with an error. -/
def NeverAfterError (w w' : World) : Prop :=
  ∀ new res, w'.fatSteps = new ++ w.fatSteps → [.lookup, .init res] <:+: new → res = 1

theorem devioClose_of_free {devs : Devs} (h : (devs.opendevs fd).openedFlag = false) :
    devioClose fd devs = devs := by
  have hself : { devs.opendevs fd with openedFlag := false } = devs.opendevs fd := by
    rw [← h]
  unfold devioClose
  rw [hself, Function.update_eq_self]

theorem restored_of_free (h : (w.devs.opendevs fd).openedFlag = false) : Restored sys fd w := by
  refine ⟨h, ?_⟩
  intro v hreach hfd path hfile
  have hholds : Holds fd v := by
    refine hreach.invariant ?_ ?_
    · rintro _ rfl
      exact .of_free h
    · intro u call u' hu hharmless hstep
      obtain ⟨⟨r, u''⟩, hexec, rfl⟩ := Option.map_eq_some_iff.mp hstep
      exact exec_holds hu hharmless hexec
  have hfree : (v.devs.opendevs fd).openedFlag = false := by
    by_contra hflag
    exact hfd (hholds (eq_true_of_ne_false hflag)).1
  unfold Existing at hfile
  rwa [devioClose_of_free hfree] at hfile

theorem neverAfterError_of_same (h : w'.fatSteps = w.fatSteps) : NeverAfterError w w' := by
  intro new res hnew hsub
  have hnil : new = [] := List.append_left_eq_self.mp (hnew.symm.trans h)
  rw [hnil] at hsub
  cases List.infix_nil.mp hsub

theorem neverAfterError_iff {res : ℤ} (h : w'.fatSteps = .lookup :: .init res :: w.fatSteps) :
    NeverAfterError w w' ↔ res = 1 := by
  constructor
  · intro hnever
    exact hnever [.lookup, .init res] res h (List.infix_refl _)
  · intro hres new res' hnew hsub
    have hlist : new = [.lookup, .init res] :=
      List.append_cancel_right (hnew.symm.trans h)
    rw [hlist] at hsub
    cases hsub.eq_of_length rfl
    exact hres

/-- A failure leaves the slot free and nothing is looked up after an error, if and only if the
call fails before it opens the device and with the slot free before, and the boot sector of a
device that it opens does not begin with two bytes of zero. -/
theorem fatOpen_restores_iff (h : fatOpen sys.host (closeFile sys) fd path w = some (r, w')) :
    (r = -1 → Restored sys fd w') ∧ NeverAfterError w w' ↔
      (r = -1 → (w.devs.opendevs fd).openedFlag = false ∧ Early sys.host fd path w) ∧
        ¬ReadsBlank sys.host fd path w := by
  cases fatOpen_ends closeFile_closesOnlyOpen h with
  | before hr hdevs hsteps hnot =>
      have hblank : ¬ReadsBlank sys.host fd path w := by
        rintro ⟨p, hp, hheap, hopens, -⟩
        rcases hnot p hp with hrefuse | hclosed
        · rw [hheap] at hrefuse
          cases hrefuse
        · exact hclosed hopens
      rw [and_iff_left (neverAfterError_of_same hsteps), and_iff_left hblank]
      refine imp_congr_right fun _ => ⟨?_, ?_⟩
      · intro hrestored
        have hfree := hrestored.1
        rw [hdevs] at hfree
        refine ⟨hfree, ?_⟩
        intro p hp
        refine (hnot p hp).imp_right ?_
        intro hclosed
        by_contra hfound
        exact hclosed ⟨hfree, Option.isSome_iff_ne_none.mpr hfound⟩
      · intro hearly
        apply restored_of_free
        rw [hdevs]
        exact hearly.1
  | after p res hp hheap hopens hflag hr hsteps hres =>
      have hnot : ¬Early sys.host fd path w := by
        intro hearly
        rcases hearly p hp with hrefuse | hnone
        · rw [hheap] at hrefuse
          cases hrefuse
        · have hfound := hopens.2
          rw [hnone] at hfound
          cases hfound
      rw [neverAfterError_iff hsteps]
      refine and_congr (imp_congr_right fun _ => ?_) ?_
      · refine iff_of_false ?_ fun hearly => hnot hearly.2
        intro hrestored
        rw [hrestored.1] at hflag
        cases hflag
      · rcases hres with ⟨hres, hblank⟩ | ⟨hres, hblank⟩
        · exact iff_of_false (by omega) fun h => h hblank
        · exact iff_of_true hres hblank

/-- There is no device, and the slot stays free. -/
theorem fatOpen_restores_no_device : ∃ w', fatOpen bareSystem.host (closeFile bareSystem) 0
    (cstr "/dev/fat@usb0/boot.cfg") bareWorld = some (-1, w') ∧ Restored bareSystem 0 w' ∧
      NeverAfterError bareWorld w' := by
  obtain ⟨⟨r, w'⟩, hopen, hr⟩ := Runs.exists_of_any (show (fatOpen bareSystem.host
    (closeFile bareSystem) 0 (cstr "/dev/fat@usb0/boot.cfg") bareWorld).any
      (fun out => decide (out.1 = -1)) = true by decide)
  obtain rfl : r = -1 := of_decide_eq_true hr
  have hnone : ∀ p, parsePath (cstr "/dev/fat@usb0/boot.cfg") = some p →
      findDevice bareSystem.host.usb p.device (bareWorld.devs.opendevs 0) = none := fun _ _ => rfl
  have hblank : ¬ReadsBlank bareSystem.host 0 (cstr "/dev/fat@usb0/boot.cfg") bareWorld := by
    rintro ⟨p, hp, -, hopens, -⟩
    have hfound := hopens.2
    rw [hnone p hp] at hfound
    cases hfound
  obtain ⟨hrestored, hnever⟩ := (fatOpen_restores_iff hopen).mpr
    ⟨fun _ => ⟨rfl, fun p hp => Or.inr (hnone p hp)⟩, hblank⟩
  exact ⟨w', hopen, hrestored rfl, hnever⟩

/-- One device, all of whose bytes are 0. -/
def blankSystem : System :=
  { bareSystem with
    host := { bareSystem.host with usb := oneUsb 512, stack := List.replicate SECTORSIZE 0 } }

/-- The open fails, and the slot stays open. -/
theorem fatOpen_not_restored : ¬∀ sys fd path w r w',
    fatOpen sys.host (closeFile sys) fd path w = some (r, w') →
      (r = -1 → Restored sys fd w') ∧ NeverAfterError w w' := by
  intro h
  obtain ⟨⟨r, w'⟩, hopen, hres⟩ := Runs.exists_of_any (show (fatOpen blankSystem.host
    (closeFile blankSystem) 0 (cstr "/dev/fat@usb0/boot.cfg") bareWorld).any
      (fun out => decide (out.1 = -1 ∧ (out.2.devs.opendevs 0).openedFlag = true)) = true by
        decide +kernel)
  obtain ⟨hr, hflag⟩ := of_decide_eq_true hres
  have hfree := ((h blankSystem 0 _ bareWorld r w' hopen).1 hr).1
  rw [hfree] at hflag
  cases hflag

end Filesys

end LuojiOs
