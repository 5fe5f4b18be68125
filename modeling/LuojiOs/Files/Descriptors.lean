import LuojiOs.Files.Drivers
import LuojiOs.Fat.Rounds
import LuojiOs.Support.Runs

/-!
# The table of descriptors

Over every run of calls of the functions of `filesys.c`: an open answers with a descriptor that
was free if and only if a driver has opened the object, a descriptor that is not open reaches no
driver, and what a driver has opened it closes once.
-/

namespace LuojiOs

open Devfs Fat Mtd

namespace Filesys

variable {sys : System} {close : ℤ → World → Option (ℤ × World)} {w w' : World} {fd x r : ℤ}
  {fs : FileSystem} {calls new : List DriverCall}

/-! ## Sessions -/

/-- The descriptors that are open. -/
def openSet (w : World) : Set ℤ := {fd | 0 ≤ fd ∧ fd < OPEN_MAX ∧ (w.file fd).valid = true}

instance : Decidable (fd ∈ openSet w) :=
  inferInstanceAs (Decidable (0 ≤ fd ∧ fd < OPEN_MAX ∧ (w.file fd).valid = true))

/-- The driver of a descriptor that is open. -/
def holder (w : World) (fd : ℤ) : Option FileSystem :=
  if fd ∈ openSet w then (w.file fd).fs else none

/-- The driver that the calls, newest first, leave with an object open at a descriptor.  There is
no answer unless opens that succeed and closes by the same driver alternate. -/
def session (fd : ℤ) : List DriverCall → Option (Option FileSystem)
  | [] => some none
  | .opened fs x ok :: calls =>
    if x = fd ∧ ok = true then
      if session fd calls = some none then some (some fs) else none
    else session fd calls
  | .closed fs x :: calls =>
    if x = fd then
      if session fd calls = some (some fs) then some none else none
    else session fd calls
  | .used _ _ :: calls => session fd calls

/-- The opens of a descriptor that have failed. -/
def Failures (fd : ℤ) (calls : List DriverCall) : Prop :=
  ∀ call ∈ calls, ∃ fs, call = .opened fs fd false

theorem Failures.session (h : Failures x new) : session fd (new ++ calls) = session fd calls := by
  induction new with
  | nil => rfl
  | cons call new ih =>
      obtain ⟨fs, rfl⟩ := h call List.mem_cons_self
      change (if x = fd ∧ false = true then _ else _) = _
      rw [if_neg (fun h => Bool.false_ne_true h.2)]
      exact ih fun call hcall => h call (List.mem_cons_of_mem _ hcall)

theorem session_opened (h : session fd calls = some none) :
    session fd (.opened fs fd true :: calls) = some (some fs) := by
  change (if fd = fd ∧ true = true then _ else _) = _
  rw [if_pos ⟨rfl, rfl⟩, if_pos h]

theorem session_opened_of_ne (h : x ≠ fd) {ok : Bool} :
    session fd (.opened fs x ok :: calls) = session fd calls := by
  change (if x = fd ∧ ok = true then _ else _) = _
  rw [if_neg fun heq => h heq.1]

theorem session_closed (h : session fd calls = some (some fs)) :
    session fd (.closed fs fd :: calls) = some none := by
  change (if fd = fd then _ else _) = _
  rw [if_pos rfl, if_pos h]

theorem session_closed_of_ne (h : x ≠ fd) :
    session fd (.closed fs x :: calls) = session fd calls := by
  change (if x = fd then _ else _) = _
  rw [if_neg h]

/-- What the descriptors and the drivers agree on. -/
structure Tidy (w : World) : Prop where
  myfile : MyfileOk w
  backed : ∀ fd ∈ openSet w, ∃ fs, (w.file fd).fs = some fs ∧ Backed fd w fs
  sessions : ∀ fd, session fd w.calls = some (holder w fd)

theorem Tidy.of_boot (h : Boot w) : Tidy w := by
  have hclosed : ∀ fd, fd ∉ openSet w := by
    rintro fd ⟨hfd, hmax, hvalid⟩
    rw [h.file fd hfd hmax] at hvalid
    cases hvalid
  refine ⟨?_, fun fd hfd => absurd hfd (hclosed fd), ?_⟩
  · intro x self fsc hx
    rw [h.myfile x] at hx
    cases hx
  · intro fd
    unfold holder
    rw [h.calls, if_neg (hclosed fd)]
    rfl

/-! ## Entries that a driver leaves alone -/

theorem mem_openSet_congr (h : w'.file x = w.file x) : x ∈ openSet w' ↔ x ∈ openSet w := by
  unfold openSet
  rw [Set.mem_ofPred_eq, Set.mem_ofPred_eq, h]

theorem holder_congr (h : w'.file x = w.file x) : holder w' x = holder w x := by
  unfold holder
  simp only [mem_openSet_congr h, h]

theorem Backed.congr (hdata : (w'.file x).data = (w.file x).data)
    (hmyfile : (w.myfile x).isSome → (w'.myfile x).isSome) (h : Backed x w fs) :
    Backed x w' fs := by
  unfold Backed HasMtd HasNet at *
  cases fs with
  | mtd => rwa [hdata]
  | fat => exact hmyfile h
  | disk => trivial
  | net => rwa [hdata]

/-! ## Opening -/

/-- The effect of the calls of drivers by which a descriptor may have been opened. -/
structure Attempt (fd : ℤ) (new : List DriverCall) (w w' : World) (r : ℤ) : Prop where
  touches : Touches fd { w with calls := new ++ w.calls } w'
  result : (r = -1 ∧ Failures fd new) ∨
    (r = fd ∧ ∃ fs rest, new = .opened fs fd true :: rest ∧ Failures fd rest ∧
      (w'.file fd).valid = true ∧ (w'.file fd).fs = some fs ∧ Backed fd w' fs)

theorem Touches.record {call : DriverCall} (h : Touches fd w w') :
    Touches fd (w.record call) (w'.record call) :=
  ⟨h.file, congrArg (call :: ·) h.calls, h.myfile, h.keeps, h.slots⟩

/-- Once a driver has answered with the descriptor, the entry is filled. -/
theorem attempt_opened {v : World} {path : CString} (hfd : 0 ≤ fd) (hclose : ClosesOnlyOpen close)
    (hplain : PlainDriver sys fd path w.devs fs)
    (h : driverOpen sys close fs fd path w = some (fd, v)) :
    Attempt fd [.opened fs fd true] w
      (v.onFile fd fun file => { file with valid := true, posn := 0, fs := some fs }) fd := by
  obtain ⟨u, htouch, rfl, hbacked⟩ := driverOpen_spec hclose hfd hplain h
  rw [decide_eq_true rfl]
  refine ⟨htouch.record.onFile, Or.inr ⟨rfl, fs, [], rfl, ?_, ?_⟩⟩
  · exact fun _ hcall => absurd hcall List.not_mem_nil
  · refine ⟨by rw [World.file_onFile], by rw [World.file_onFile], ?_⟩
    apply Backed.congr _ _ (hbacked rfl)
    · rw [World.file_onFile]
      rfl
    · exact id

theorem attempt_failed {v : World} {path : CString} (hfd : 0 ≤ fd) (hclose : ClosesOnlyOpen close)
    (hplain : PlainDriver sys fd path w.devs fs)
    (h : driverOpen sys close fs fd path w = some (r, v)) (hr : r ≠ fd) :
    Attempt fd [.opened fs fd false] w v (-1) := by
  obtain ⟨u, htouch, rfl, -⟩ := driverOpen_spec hclose hfd hplain h
  rw [decide_eq_false hr]
  refine ⟨htouch.record, Or.inl ⟨rfl, ?_⟩⟩
  intro call hcall
  exact ⟨fs, List.mem_singleton.mp hcall⟩

theorem Attempt.after {v : World} {new' : List DriverCall} (hfirst : Attempt fd new w v (-1))
    (hfd : 0 ≤ fd) (h : Attempt fd new' v w' r) : Attempt fd (new' ++ new) w w' r := by
  have hfail : Failures fd new := by
    rcases hfirst.result with ⟨-, hfail⟩ | ⟨hr, -⟩
    · exact hfail
    · omega
  have happend : ∀ {calls : List DriverCall}, Failures fd calls → Failures fd (calls ++ new) := by
    intro calls hcalls call hcall
    exact (List.mem_append.mp hcall).elim (hcalls call) (hfail call)
  refine ⟨?_, ?_⟩
  · have hcalls : v.calls = new ++ w.calls := hfirst.touches.calls
    refine ⟨fun x hx => (h.touches.file x hx).trans (hfirst.touches.file x hx), ?_,
      fun hok => h.touches.myfile (hfirst.touches.myfile hok),
      fun x hx => h.touches.keeps x (hfirst.touches.keeps x hx),
      fun x hx => (h.touches.slots x hx).trans (hfirst.touches.slots x hx)⟩
    rw [h.touches.calls]
    change new' ++ v.calls = _
    rw [hcalls, List.append_assoc]
  · rcases h.result with ⟨hr, hnew⟩ | ⟨hr, fs, rest, rfl, hrest, hfile⟩
    · exact Or.inl ⟨hr, happend hnew⟩
    · exact Or.inr ⟨hr, fs, rest ++ new, rfl, happend hrest, hfile⟩

/-- The file systems that an open asks: one with a name that fits, or those of the type
`FS_FILE`. -/
def asked (dname : Option CString) (fss : List FileSystem) : List FileSystem :=
  match dname with
  | some name => (fss.find? fun fs => strbequ name fs.devname).toList
  | none => fss.filter FileSystem.isFsFile

theorem mem_asked_of_pos {name : CString} {fss : List FileSystem}
    (h : strbequ name fs.devname = true) : fs ∈ asked (some name) (fs :: fss) := by
  simp [asked, h]

theorem asked_of_neg {name : CString} {fss : List FileSystem}
    (h : ¬strbequ name fs.devname = true) : asked (some name) (fs :: fss) = asked (some name) fss := by
  simp [asked, h]

theorem plainDriver_of_isFsFile {path : CString} {devs : Devs} (h : fs.isFsFile = true) :
    PlainDriver sys fd path devs fs := by
  cases fs with
  | fat => exact ⟨nofun, nofun⟩
  | mtd => cases h
  | disk => cases h
  | net => cases h

theorem tryOpen_attempt {fname : CString} {dname : Option CString} {fss : List FileSystem}
    (hfd : 0 ≤ fd) (hclose : ClosesOnlyOpen close)
    (hplain : ∀ fs ∈ asked dname fss, PlainDriver sys fd fname w.devs fs)
    (h : tryOpen sys close fname dname fd fss w = some (r, w')) :
    ∃ new, Attempt fd new w w' r ∧
      ∀ call ∈ new, ∃ fs ∈ asked dname fss, ∃ ok, call = .opened fs fd ok := by
  have hnone : Failures fd [] := fun _ hcall => absurd hcall List.not_mem_nil
  induction fss generalizing w with
  | nil =>
      cases h
      exact ⟨[], ⟨.refl, Or.inl ⟨rfl, hnone⟩⟩, fun _ hcall => absurd hcall List.not_mem_nil⟩
  | cons fsp fss ih =>
      unfold tryOpen at h
      dsimp only at h
      split at h
      · next name =>
        split at h
        · next hname =>
          have hfits : PlainDriver sys fd fname w.devs fsp := hplain fsp (mem_asked_of_pos hname)
          have hasked : ∀ {ok : Bool}, ∀ call ∈ [DriverCall.opened fsp fd ok],
              ∃ fs ∈ asked (some name) (fsp :: fss), ∃ ok, call = .opened fs fd ok :=
            fun call hcall => ⟨fsp, mem_asked_of_pos hname, _, List.mem_singleton.mp hcall⟩
          split at h
          · cases h
          · next xx v hopen =>
            split at h
            · next hne =>
              cases h
              exact ⟨_, attempt_failed hfd hclose hfits hopen hne, hasked⟩
            · next heq =>
              obtain rfl : xx = fd := not_not.mp heq
              cases h
              exact ⟨_, attempt_opened hfd hclose hfits hopen, hasked⟩
        · next hname =>
          rw [asked_of_neg hname] at hplain ⊢
          exact ih hplain h
      · have hrest : ∀ (v : World), ∀ fs ∈ asked none fss, PlainDriver sys fd fname v.devs fs :=
          fun v fs hfs => plainDriver_of_isFsFile (List.mem_filter.mp hfs).2
        have hlater : ∀ new : List DriverCall,
            (∀ call ∈ new, ∃ fs ∈ asked none fss, ∃ ok, call = .opened fs fd ok) →
            ∀ call ∈ new, ∃ fs ∈ asked none (fsp :: fss), ∃ ok, call = .opened fs fd ok := by
          intro new hnew call hcall
          obtain ⟨fs, hfs, ok, heq⟩ := hnew call hcall
          obtain ⟨hmem, htype⟩ := List.mem_filter.mp hfs
          exact ⟨fs, List.mem_filter.mpr ⟨List.mem_cons_of_mem _ hmem, htype⟩, ok, heq⟩
        split at h
        · next htype =>
          have hfits : PlainDriver sys fd fname w.devs fsp := plainDriver_of_isFsFile htype
          have hasked : ∀ {ok : Bool}, ∀ call ∈ [DriverCall.opened fsp fd ok],
              ∃ fs ∈ asked none (fsp :: fss), ∃ ok, call = .opened fs fd ok :=
            fun call hcall => ⟨fsp, List.mem_filter.mpr ⟨List.mem_cons_self, htype⟩, _,
              List.mem_singleton.mp hcall⟩
          split at h
          · cases h
          · next xx v hopen =>
            split at h
            · next heq =>
              subst heq
              cases h
              exact ⟨_, attempt_opened hfd hclose hfits hopen, hasked⟩
            · next hne =>
              obtain ⟨new, hnew, hcalls⟩ := ih (hrest v) h
              refine ⟨_, (attempt_failed hfd hclose hfits hopen hne).after hfd hnew, ?_⟩
              intro call hcall
              exact (List.mem_append.mp hcall).elim (hlater new hcalls call) (hasked call)
        · obtain ⟨new, hnew, hcalls⟩ := ih (hrest w) h
          exact ⟨new, hnew, hlater new hcalls⟩

/-- A step for one descriptor keeps the others. -/
theorem Tidy.of_touches (h : Tidy w) (htouch : Touches fd { w with calls := new ++ w.calls } w')
    (hothers : ∀ x, x ≠ fd → session x (new ++ w.calls) = session x w.calls)
    (hbacked : fd ∈ openSet w' → ∃ fs, (w'.file fd).fs = some fs ∧ Backed fd w' fs)
    (hsession : session fd w'.calls = some (holder w' fd)) : Tidy w' := by
  refine ⟨htouch.myfile h.myfile, ?_, ?_⟩
  · intro x hx
    by_cases hfd : x = fd
    · subst hfd
      exact hbacked hx
    · have hfile : w'.file x = w.file x := htouch.file x hfd
      obtain ⟨fs, hfs, hback⟩ := h.backed x ((mem_openSet_congr hfile).mp hx)
      exact ⟨fs, hfile ▸ hfs, hback.congr (congrArg File.data hfile) (htouch.keeps x)⟩
  · intro x
    by_cases hfd : x = fd
    · subst hfd
      exact hsession
    · rw [htouch.calls, holder_congr (htouch.file x hfd)]
      exact (hothers x hfd).trans (h.sessions x)

/-- An open answers with a descriptor that was free, which a driver that was asked has opened, or
with -1, and nothing is open that was not before. -/
def OpenOk (sys : System) (filename : CString) (w : World) (r : ℤ) (w' : World) : Prop :=
  ∃ new, w'.calls = new ++ w.calls ∧
    ((r = -1 ∧ (∀ fs fd, .opened fs fd true ∉ new) ∧ openSet w' = openSet w) ∨
      (0 ≤ r ∧ r < OPEN_MAX ∧ r ∉ openSet w ∧
        (∃ fs ∈ asked (route filename).2 sys.fileSystems, .opened fs r true ∈ new) ∧
        openSet w' = insert r (openSet w)))

theorem freeEntry_some {lu : ℕ} (h : freeEntry w = some lu) :
    (lu : ℤ) < OPEN_MAX ∧ (w.file lu).valid = false := by
  unfold freeEntry at h
  have hmem := List.mem_range.mp (List.mem_of_find?_eq_some h)
  have hfree := List.find?_some h
  refine ⟨by exact_mod_cast hmem, ?_⟩
  simpa using hfree

/-- Nothing but one entry has changed. -/
theorem openSet_of_file (h : ∀ x, x ≠ fd → w'.file x = w.file x) (hfd : fd ∉ openSet w)
    (hfd' : fd ∉ openSet w') : openSet w' = openSet w := by
  ext x
  by_cases hx : x = fd
  · subst hx
    exact iff_of_false hfd' hfd
  · exact mem_openSet_congr (h x hx)

theorem openSet_insert (h : ∀ x, x ≠ fd → w'.file x = w.file x) (hfd' : fd ∈ openSet w') :
    openSet w' = insert fd (openSet w) := by
  ext x
  by_cases hx : x = fd
  · subst hx
    exact iff_of_true hfd' (Set.mem_insert _ _)
  · rw [mem_openSet_congr (h x hx), Set.mem_insert_iff, or_iff_right hx]

theorem Failures.opened_not_mem (h : Failures fd new) (fs : FileSystem) (x : ℤ) :
    .opened fs x true ∉ new := by
  intro hmem
  obtain ⟨fs', heq⟩ := h _ hmem
  cases heq

theorem session_others (hcalls : ∀ call ∈ new, ∃ fs ok, call = .opened fs fd ok) (h : x ≠ fd) :
    session x (new ++ calls) = session x calls := by
  induction new with
  | nil => rfl
  | cons call new ih =>
      obtain ⟨fs, ok, rfl⟩ := hcalls call List.mem_cons_self
      rw [List.cons_append, session_opened_of_ne (Ne.symm h)]
      exact ih fun call hcall => hcalls call (List.mem_cons_of_mem _ hcall)

theorem openFile_spec {filename : CString} (htidy : Tidy w) (hclose : ClosesOnlyOpen close)
    (hplain : ∀ lu, freeEntry w = some lu → ∀ fs ∈ asked (route filename).2 sys.fileSystems,
      PlainDriver sys lu (route filename).1 w.devs fs)
    (h : openFile sys close filename w = some (r, w')) :
    Tidy w' ∧ OpenOk sys filename w r w' := by
  unfold openFile at h
  split at h
  · cases h
    refine ⟨htidy, [], rfl, Or.inl ⟨rfl, fun _ _ => List.not_mem_nil, rfl⟩⟩
  · next lu hfree =>
    obtain ⟨hmax, hvalid⟩ := freeEntry_some hfree
    have hlu : (lu : ℤ) ∉ openSet w := by
      rintro ⟨-, -, hopen⟩
      rw [hvalid] at hopen
      cases hopen
    have hnone : session lu w.calls = some none := by
      rw [htidy.sessions lu]
      unfold holder
      rw [if_neg hlu]
    split at h
    · cases h
    · obtain ⟨⟨i, v⟩, htry, heq⟩ := Option.map_eq_some_iff.mp h
      obtain ⟨rfl, rfl⟩ := Prod.mk.inj heq
      let marked := w.onFile lu fun _ => { clearedFile with valid := true }
      have htry : tryOpen sys close (route filename).1 (route filename).2 lu sys.fileSystems marked =
          some (i, v) := htry
      have hplain : ∀ fs ∈ asked (route filename).2 sys.fileSystems,
          PlainDriver sys lu (route filename).1 marked.devs fs := hplain lu hfree
      obtain ⟨new, ⟨htouch, hres⟩, hcalls⟩ :=
        tryOpen_attempt (Int.natCast_nonneg lu) hclose hplain htry
      have hothers : ∀ x, x ≠ (lu : ℤ) → session x (new ++ w.calls) = session x w.calls := by
        intro x hx
        refine session_others ?_ hx
        intro call hcall
        obtain ⟨fs, -, heq⟩ := hcalls call hcall
        exact ⟨fs, heq⟩
      have hmark : Touches lu { w with calls := new ++ w.calls }
          { marked with calls := new ++ marked.calls } :=
        ⟨fun _ hx => Function.update_of_ne hx .., rfl, id, fun _ => id, fun _ _ => rfl⟩
      have hall := hmark.trans htouch
      rcases hres with ⟨rfl, hfail⟩ | ⟨rfl, fs, rest, hnew, hrest, hopen, hfs, hback⟩
      · have hset := hall.trans (@setValid_touches v lu false)
        have hnot : (lu : ℤ) ∉ openSet (v.setValid lu false) := by
          rintro ⟨-, -, hopen⟩
          unfold World.setValid at hopen
          rw [World.file_onFile] at hopen
          cases hopen
        rw [if_pos rfl]
        refine ⟨htidy.of_touches hset hothers (fun hmem => absurd hmem hnot) ?_, new, hset.calls,
          Or.inl ⟨rfl, hfail.opened_not_mem, openSet_of_file hset.file hlu hnot⟩⟩
        rw [hset.calls]
        unfold holder
        rw [if_neg hnot]
        exact hfail.session.trans hnone
      · have hmem : (lu : ℤ) ∈ openSet v := ⟨Int.natCast_nonneg lu, hmax, hopen⟩
        rw [if_neg (by omega)]
        refine ⟨htidy.of_touches hall hothers (fun _ => ⟨fs, hfs, hback⟩) ?_, new, hall.calls,
          Or.inr ⟨Int.natCast_nonneg lu, hmax, hlu, ⟨fs, ?_, ?_⟩, openSet_insert hall.file hmem⟩⟩
        · rw [hall.calls]
          unfold holder
          rw [if_pos hmem, hfs, hnew]
          exact session_opened (hrest.session.trans hnone)
        · rw [hnew] at hcalls
          obtain ⟨fs', hasked, ok, heq⟩ := hcalls _ List.mem_cons_self
          cases heq
          exact hasked
        · rw [hnew]
          exact List.mem_cons_self

/-! ## Opens that come back -/

/-- The state in which the drivers are asked. -/
def marked (lu : ℤ) (w : World) : World := w.onFile lu fun _ => { clearedFile with valid := true }

/-- The path fits into the buffer on the stack, and each driver that is asked comes back from its
open. -/
def Answers (sys : System) (w : World) (filename : CString) (lu : ℤ) : Prop :=
  ((cstr "/dev/").isPrefixOf filename = true ∨ filename.length + 3 ≤ MAXLN) ∧
    ∀ fs ∈ asked (route filename).2 sys.fileSystems,
      (driverOpen sys (closeFile sys) fs lu (route filename).1 (marked lu w)).isSome = true

theorem tryOpen_named {fname name : CString} {fss : List FileSystem}
    (hcomes : ∀ fs ∈ asked (some name) fss, (driverOpen sys close fs fd fname w).isSome = true) :
    ∃ out, tryOpen sys close fname (some name) fd fss w = some out := by
  induction fss with
  | nil => exact ⟨_, rfl⟩
  | cons fsp fss ih =>
      unfold tryOpen
      dsimp only
      split
      · next hname =>
        obtain ⟨out, hopen⟩ := Option.isSome_iff_exists.mp (hcomes fsp (mem_asked_of_pos hname))
        rw [hopen]
        dsimp only
        split
        · exact ⟨_, rfl⟩
        · exact ⟨_, rfl⟩
      · next hname =>
        rw [asked_of_neg hname] at hcomes
        exact ih hcomes

theorem tryOpen_unnamed_of_none {fname : CString} {fss : List FileSystem}
    (hnone : ∀ fs ∈ fss, fs.isFsFile = false) :
    tryOpen sys close fname none fd fss w = some (-1, w) := by
  induction fss with
  | nil => rfl
  | cons fsp fss ih =>
      unfold tryOpen
      dsimp only
      rw [if_neg (by rw [hnone fsp List.mem_cons_self]; exact Bool.false_ne_true)]
      exact ih fun fs hfs => hnone fs (List.mem_cons_of_mem _ hfs)

theorem eq_fat_of_isFsFile (h : fs.isFsFile = true) : fs = .fat := by
  cases fs with
  | fat => rfl
  | mtd => cases h
  | disk => cases h
  | net => cases h

/-- Only one file system has the type `FS_FILE`, so that no other state than `w` is met. -/
theorem tryOpen_unnamed {fname : CString} {fss : List FileSystem} (hnodup : fss.Nodup)
    (hcomes : ∀ fs ∈ asked none fss, (driverOpen sys close fs fd fname w).isSome = true) :
    ∃ out, tryOpen sys close fname none fd fss w = some out := by
  induction fss with
  | nil => exact ⟨_, rfl⟩
  | cons fsp fss ih =>
      obtain ⟨hnotin, hrest⟩ := List.nodup_cons.mp hnodup
      unfold tryOpen
      dsimp only
      split
      · next htype =>
        obtain ⟨out, hopen⟩ := Option.isSome_iff_exists.mp
          (hcomes fsp (List.mem_filter.mpr ⟨List.mem_cons_self, htype⟩))
        rw [hopen]
        dsimp only
        split
        · exact ⟨_, rfl⟩
        · refine ⟨_, tryOpen_unnamed_of_none fun fs hfs => ?_⟩
          apply Bool.eq_false_iff.mpr
          intro hfile
          rw [eq_fat_of_isFsFile htype] at hnotin
          exact hnotin (eq_fat_of_isFsFile hfile ▸ hfs)
      · refine ih hrest fun fs hfs => ?_
        obtain ⟨hmem, hfile⟩ := List.mem_filter.mp hfs
        exact hcomes fs (List.mem_filter.mpr ⟨List.mem_cons_of_mem _ hmem, hfile⟩)

theorem openFile_comes {filename : CString}
    (h : ∀ lu, freeEntry w = some lu → Answers sys w filename lu) :
    ∃ r w', openFile sys (closeFile sys) filename w = some (r, w') := by
  unfold openFile
  split
  · exact ⟨_, _, rfl⟩
  · next lu hfree =>
    obtain ⟨hfits, hcomes⟩ := h lu hfree
    have htry : ∃ out, tryOpen sys (closeFile sys) (route filename).1 (route filename).2 lu
        sys.fileSystems (marked lu w) = some out := by
      cases hname : (route filename).2 with
      | none =>
          rw [hname] at hcomes
          exact tryOpen_unnamed sys.nodup hcomes
      | some name =>
          rw [hname] at hcomes
          exact tryOpen_named hcomes
    obtain ⟨out, htry⟩ := htry
    have hroom : ¬(¬(cstr "/dev/").isPrefixOf filename = true ∧ MAXLN < filename.length + 3) :=
      fun hlong => hfits.elim hlong.1 fun hle => absurd hle (Nat.not_le.mpr hlong.2)
    rw [if_neg hroom]
    unfold marked at htry
    dsimp only
    rw [htry]
    exact ⟨_, _, rfl⟩

/-! ## Using a descriptor -/

/-- A driver works for a descriptor and moves its position. -/
structure Uses (fd : ℤ) (w w' : World) : Prop where
  touches : Touches fd w w'
  valid : (w'.file fd).valid = (w.file fd).valid
  fs : (w'.file fd).fs = (w.file fd).fs
  data : (w'.file fd).data = (w.file fd).data
  slot : (w'.devs.opendevs fd).openedFlag = (w.devs.opendevs fd).openedFlag

theorem Uses.of_same (hfile : w'.file = w.file) (hcalls : w'.calls = w.calls)
    (hmyfile : w'.myfile = w.myfile) (hslots : ∀ x,
      (w'.devs.opendevs x).openedFlag = (w.devs.opendevs x).openedFlag) : Uses fd w w' :=
  ⟨.of_same hfile hcalls hmyfile fun x _ => hslots x, by rw [hfile], by rw [hfile],
    by rw [hfile], hslots fd⟩

theorem setPosn_uses {posn : ℤ} : Uses fd w (w.setPosn fd posn) := by
  refine ⟨onFile_touches, ?_, ?_, ?_, rfl⟩ <;> unfold World.setPosn <;> rw [World.file_onFile]

theorem Uses.setPosn {posn : ℤ} (h : Uses fd w w') : Uses fd w (w'.setPosn fd posn) :=
  ⟨h.touches.trans setPosn_uses.touches, setPosn_uses.valid.trans h.valid,
    setPosn_uses.fs.trans h.fs, setPosn_uses.data.trans h.data, h.slot⟩

theorem fatRead_uses {host : Host} {len : ℕ} {out : List (BitVec 8)}
    (h : fatRead host fd len w = some (r, out, w')) : Uses fd w w' := by
  unfold fatRead at h
  split at h
  · cases h
  · next self fsc hfile =>
    have hset : ∀ (fsc' : FatSc) (devs : Devs) (requests : List Request), fsc'.fd = fsc.fd →
        Moved host.usb w.devs devs →
        Uses fd w { w.setMyfile fd self fsc' with devs := devs, requests := requests } := by
      intro fsc' devs requests hfd hmoved
      have htouch : Touches fd w (w.setMyfile fd self fsc') :=
        setMyfile_touches fun hok => hfd.trans (hok fd self fsc hfile)
      exact ⟨htouch.trans (.of_same rfl rfl rfl fun x _ => hmoved.openedFlag x), rfl, rfl, rfl,
        hmoved.openedFlag fd⟩
    extract_lets origpos len' r₀ at h
    split at h
    · cases h
      exact .of_same rfl rfl rfl fun _ => rfl
    split at h
    · cases h
    · next res r' hread =>
      have hreads := fatReadFrom_reads hread
      split at h <;>
      · cases h
        exact (hset _ _ _ hreads.fd hreads.devs).setPosn

theorem fatLseek_uses {offset : ℤ} {whence : Fat.Whence}
    (h : fatLseek fd offset whence w = some (r, w')) : Uses fd w w' := by
  unfold fatLseek at h
  split at h
  · cases h
  · dsimp only at h
    split at h
    · cases h
      exact setPosn_uses
    · cases h
      exact setPosn_uses
    · cases h
      exact setPosn_uses
    · cases h
      exact .of_same rfl rfl rfl fun _ => rfl

theorem driverData_uses (h : driverData sys fs fd w = some (r, w')) : Uses fd w w' := by
  unfold driverData at h
  dsimp only at h
  split at h
  · cases h
    exact setPosn_uses
  · cases h
    exact .of_same rfl rfl rfl fun _ => rfl
  · cases h

theorem readFile_uses {n : ℕ} (hopen : isOpen fd w = true)
    (h : readFile sys fd n w = some (r, w')) :
    ∃ fs, Uses fd (w.record (.used fs fd)) w' := by
  unfold readFile at h
  rw [if_pos hopen] at h
  split at h
  · cases h
  · next fs _ =>
    refine ⟨fs, ?_⟩
    dsimp only at h
    split at h
    · obtain ⟨⟨res, out, v⟩, hread, heq⟩ := Option.map_eq_some_iff.mp h
      cases heq
      exact fatRead_uses hread
    · have hmoved := @devioRead_moved sys.host.usb fd ⟨0, List.replicate n 0, 0⟩
        (w.record (.used .disk fd)).devs n
      generalize devioRead sys.host.usb fd _ n _ = out at h hmoved
      cases h
      exact .of_same rfl rfl rfl hmoved.openedFlag
    · exact driverData_uses h

theorem writeFile_uses (hopen : isOpen fd w = true) (h : writeFile sys fd w = some (r, w')) :
    ∃ fs, Uses fd (w.record (.used fs fd)) w' := by
  unfold writeFile at h
  rw [if_pos hopen] at h
  split at h
  · cases h
  · next fs _ =>
    refine ⟨fs, ?_⟩
    dsimp only at h
    split at h
    · cases h
      exact .of_same rfl rfl rfl fun _ => rfl
    · cases h
      exact .of_same rfl rfl rfl (@setOffs_moved sys.host.usb _ _ _).openedFlag
    · exact driverData_uses h

theorem lseekFile_uses {offset : ℤ} {whence : Fat.Whence} (hopen : isOpen fd w = true)
    (h : lseekFile sys fd offset whence w = some (r, w')) :
    ∃ fs, Uses fd (w.record (.used fs fd)) w' := by
  unfold lseekFile at h
  rw [if_pos hopen] at h
  split at h
  · cases h
  · next fs _ =>
    refine ⟨fs, ?_⟩
    dsimp only at h
    split at h
    · exact fatLseek_uses h
    · cases h
      exact .of_same rfl rfl rfl (@devioLseek_moved sys.host.usb _ _ _ _).openedFlag
    · exact driverData_uses h

theorem Tidy.of_uses (h : Tidy w) (huses : Uses fd (w.record (.used fs fd)) w') : Tidy w' := by
  have hmem : fd ∈ openSet w' ↔ fd ∈ openSet w := by
    unfold openSet
    rw [Set.mem_ofPred_eq, Set.mem_ofPred_eq, huses.valid]
    rfl
  refine @Tidy.of_touches w w' fd [.used fs fd] h huses.touches (fun _ _ => rfl) ?_ ?_
  · intro hfd
    obtain ⟨fs, hfs, hback⟩ := h.backed fd (hmem.mp hfd)
    exact ⟨fs, huses.fs.trans hfs, hback.congr huses.data (huses.touches.keeps fd)⟩
  · rw [huses.touches.calls]
    refine (h.sessions fd).trans (congrArg some ?_)
    unfold holder
    simp only [hmem, huses.fs]
    rfl

/-! ## Closing -/

theorem driverClose_spec (hclose : ClosesOnlyOpen close) (hok : MyfileOk w)
    (hvalid : (w.file fd).valid = false) (hback : Backed fd w fs) :
    ∃ r w', driverClose sys close fs fd w = some (r, w') ∧ w'.file = w.file ∧
      Touches fd (w.record (.closed fs fd)) w' := by
  unfold driverClose
  cases fs with
  | mtd =>
      obtain ⟨block, priv, hdata⟩ := hback
      simp only [World.record, hdata]
      exact ⟨_, _, rfl, rfl, .of_same rfl rfl rfl fun _ _ => rfl⟩
  | fat =>
      obtain ⟨w', hfat, hfile, htouch⟩ :=
        @fatClose_touches close (w.record (.closed .fat fd)) fd hclose hok hvalid hback
      exact ⟨0, w', hfat, hfile, htouch⟩
  | disk => exact ⟨_, _, rfl, rfl, .of_same rfl rfl rfl fun _ hx => devioClose_slots hx⟩
  | net =>
      obtain ⟨block, ops, hdata⟩ := hback
      simp only [World.record, hdata]
      exact ⟨_, _, rfl, rfl, .of_same rfl rfl rfl fun _ _ => rfl⟩

theorem isOpen_of_mem (h : fd ∈ openSet w) : isOpen fd w = true := by
  unfold isOpen
  exact decide_eq_true ⟨h.2.1, h.2.2⟩

theorem not_isOpen (h : fd ∉ openSet w) (hneg : fd < 0 → (w.file fd).valid = false) :
    isOpen fd w = false := by
  unfold isOpen
  apply decide_eq_false
  rintro ⟨hmax, hvalid⟩
  by_cases hfd : 0 ≤ fd
  · exact h ⟨hfd, hmax, hvalid⟩
  · rw [hneg (by omega)] at hvalid
    cases hvalid

/-- What a descriptor is closed by is called once, and the descriptor is free afterwards. -/
theorem closeFile_spec (htidy : Tidy w) (hfd : fd ∈ openSet w) :
    ∃ r w' fs, closeFile sys fd w = some (r, w') ∧ w'.calls = .closed fs fd :: w.calls ∧
      openSet w' = openSet w \ {fd} ∧ Tidy w' := by
  obtain ⟨fs, hfs, hback⟩ := htidy.backed fd hfd
  have hmark : Touches fd w (w.setValid fd false) := setValid_touches
  have hvalid : ((w.setValid fd false).file fd).valid = false := by
    unfold World.setValid
    rw [World.file_onFile]
  have hback' : Backed fd (w.setValid fd false) fs := by
    apply hback.congr _ (hmark.keeps fd)
    unfold World.setValid
    rw [World.file_onFile]
  obtain ⟨r, w', hclose, hfile, htouch⟩ := @driverClose_spec sys (closeNested sys (OPEN_MAX + 1))
    (w.setValid fd false) fd fs closeNested_closesOnlyOpen (hmark.myfile htidy.myfile) hvalid hback'
  have hall : Touches fd { w with calls := [.closed fs fd] ++ w.calls } w' :=
    Touches.trans (hmark.record) htouch
  have hnot : fd ∉ openSet w' := by
    rintro ⟨-, -, hopen⟩
    rw [hfile, hvalid] at hopen
    cases hopen
  refine ⟨r, w', fs, ?_, hall.calls, ?_, ?_⟩
  · unfold closeFile closeNested
    rw [if_pos (isOpen_of_mem hfd), hfs]
    exact hclose
  · ext x
    by_cases hx : x = fd
    · subst hx
      exact iff_of_false hnot (fun h => h.2 rfl)
    · rw [mem_openSet_congr (hall.file x hx)]
      exact ⟨fun h => ⟨h, hx⟩, And.left⟩
  · refine htidy.of_touches hall (fun x hx => session_closed_of_ne (Ne.symm hx))
      (fun h => absurd h hnot) ?_
    rw [hall.calls]
    unfold holder
    rw [if_neg hnot]
    apply session_closed
    refine (htidy.sessions fd).trans ?_
    unfold holder
    rw [if_pos hfd, hfs]

/-! ## Runs -/

/-- The descriptor that a call is given. -/
def FileCall.descriptor : FileCall → Option ℤ
  | .openFile _ => none
  | .read fd _ => some fd
  | .write fd _ => some fd
  | .lseek fd _ _ => some fd
  | .close fd => some fd

/-- What is promised of a call. -/
structure CallOk (sys : System) (w : World) (call : FileCall) : Prop where
  opens : ∀ filename, call = .openFile filename → ∃ r w', exec sys w call = some (r, w') ∧
    OpenOk sys filename w r w'
  idle : ∀ fd, call.descriptor = some fd → fd ∉ openSet w →
    ∃ r, (r = -1 ∨ r = 0) ∧ exec sys w call = some (r, w)
  closes : ∀ fd, call = .close fd → fd ∈ openSet w → ∃ r w' fs, exec sys w call = some (r, w') ∧
    w'.calls = .closed fs fd :: w.calls ∧ openSet w' = openSet w \ {fd}

/-- The drivers that an open asks come back and answer as the table expects, and below the table
stands no entry that is marked. -/
structure Plain (sys : System) (w : World) (call : FileCall) : Prop where
  drivers : ∀ filename, call = .openFile filename → ∀ lu, freeEntry w = some lu →
    ∀ fs ∈ asked (route filename).2 sys.fileSystems,
      PlainDriver sys lu (route filename).1 w.devs fs
  answers : ∀ filename, call = .openFile filename → ∀ lu, freeEntry w = some lu →
    Answers sys w filename lu
  below : ∀ fd, call.descriptor = some fd → fd < 0 → (w.file fd).valid = false

theorem exec_idle {call : FileCall} (hcall : call.descriptor = some fd) (hopen : isOpen fd w = false) :
    ∃ r, (r = -1 ∨ r = 0) ∧ exec sys w call = some (r, w) := by
  have hif : ¬isOpen fd w = true := by simp [hopen]
  cases call with
  | openFile filename => cases hcall
  | read x n =>
      cases hcall
      exact ⟨-1, Or.inl rfl, if_neg hif⟩
  | write x n =>
      cases hcall
      exact ⟨-1, Or.inl rfl, if_neg hif⟩
  | lseek x offset whence =>
      cases hcall
      exact ⟨-1, Or.inl rfl, if_neg hif⟩
  | close x =>
      cases hcall
      exact ⟨0, Or.inr rfl, if_neg hif⟩

theorem closeFile_closesOnlyOpen : ClosesOnlyOpen (closeFile sys) := closeNested_closesOnlyOpen

theorem Tidy.callOk {call : FileCall} (h : Tidy w) (hplain : Plain sys w call) :
    CallOk sys w call := by
  refine ⟨?_, ?_, ?_⟩
  · rintro filename rfl
    obtain ⟨r, w', hexec⟩ := openFile_comes (hplain.answers filename rfl)
    exact ⟨r, w', hexec,
      (openFile_spec h closeFile_closesOnlyOpen (hplain.drivers filename rfl) hexec).2⟩
  · intro fd hcall hfd
    exact exec_idle hcall (not_isOpen hfd (hplain.below fd hcall))
  · rintro fd rfl hfd
    obtain ⟨r, w', fs, hclose, hcalls, hset, -⟩ := closeFile_spec h hfd
    exact ⟨r, w', fs, hclose, hcalls, hset⟩

theorem Tidy.exec {call : FileCall} (h : Tidy w) (hplain : Plain sys w call)
    (hexec : exec sys w call = some (r, w')) : Tidy w' := by
  have hidle : ∀ fd, call.descriptor = some fd → fd ∉ openSet w → Tidy w' := by
    intro fd hcall hfd
    obtain ⟨r', -, hsame⟩ := @exec_idle sys w fd call hcall (not_isOpen hfd (hplain.below fd hcall))
    rw [hexec] at hsame
    cases hsame
    exact h
  cases call with
  | openFile filename =>
      exact (openFile_spec h closeFile_closesOnlyOpen (hplain.drivers filename rfl) hexec).1
  | read fd n =>
      by_cases hfd : fd ∈ openSet w
      · obtain ⟨fs, huses⟩ := readFile_uses (isOpen_of_mem hfd) hexec
        exact h.of_uses huses
      · exact hidle fd rfl hfd
  | write fd n =>
      by_cases hfd : fd ∈ openSet w
      · obtain ⟨fs, huses⟩ := writeFile_uses (isOpen_of_mem hfd) hexec
        exact h.of_uses huses
      · exact hidle fd rfl hfd
  | lseek fd offset whence =>
      by_cases hfd : fd ∈ openSet w
      · obtain ⟨fs, huses⟩ := lseekFile_uses (isOpen_of_mem hfd) hexec
        exact h.of_uses huses
      · exact hidle fd rfl hfd
  | close fd =>
      by_cases hfd : fd ∈ openSet w
      · obtain ⟨r', v, fs, hclose, -, -, htidy⟩ := @closeFile_spec sys w fd h hfd
        change closeFile sys fd w = some (r, w') at hexec
        rw [hclose] at hexec
        cases hexec
        exact htidy
      · exact hidle fd rfl hfd

theorem reach_tidy (h : Runs.Reach (step sys) (Plain sys) Boot w) : Tidy w := by
  refine h.invariant (fun _ => Tidy.of_boot) ?_
  intro w call w' htidy hplain hstep
  obtain ⟨⟨r, v⟩, hexec, rfl⟩ := Option.map_eq_some_iff.mp hstep
  exact htidy.exec hplain hexec

/-- One partition of the flash, and no device. -/
def bareSystem : System where
  host :=
    { usb := ⟨[], fun _ => 512, fun _ _ => 0, fun _ => true, 0⟩
      refuses := fun _ => false
      steps := 0
      fatBufferAddr := 0
      dirBufferAddr := 0
      sectorBufferAddr := 0
      stackAddr := 0
      stack := []
      chainFront := fun _ _ => none
      bufferFront := fun _ _ => 0 }
  fileSystems := [.mtd, .fat, .disk, .net]
  nodup := by decide
  netFileSystems := []
  ret := fun _ => 0
  posn := fun _ => 0

def bareWorld : World where
  file := fun _ => clearedFile
  devs := ⟨fun _ => ⟨0, 0, false, 0, 0⟩, [], [], 0, 0, false⟩
  myfile := fun _ => none
  heap := ⟨0, []⟩
  maxBufszClusts := 0
  mtdfiles := [⟨0, 0, 0x100000, 0, cstr "kernel"⟩]
  netCalls := 0
  calls := []
  requests := []
  fatSteps := []

theorem bareWorld_boot : Boot bareWorld :=
  ⟨fun _ _ _ => rfl, fun _ => rfl, fun _ => rfl, rfl, rfl⟩

end Filesys

end LuojiOs
