import LuojiOs.Files.Reopening

/-!
# The buffer that is read ahead into

`fat_init` frees the buffer that it has allocated.  The memory of a buffer that a volume refers to
is therefore never allocated, whatever is opened, read and closed in between, and each sector that
`fat_read` asks for is stored in memory that belongs to somebody else.
-/

namespace LuojiOs

open Devfs Fat Mtd

namespace Filesys

variable {sys : System} {host : Host} {close : ℤ → World → Option (ℤ × World)}
  {w w' : World} {fd x r : ℤ} {path : CString} {fs : FileSystem} {heap heap' : Blocks}

/-- A block that was freed: its number is not given out again. -/
def Dead (heap : Blocks) (b : ℕ) : Prop := b < heap.next ∧ ∀ a ∈ heap.live, a.1 ≠ b

theorem Dead.later {b : ℕ} (h : Dead heap b) (hlater : Blocks.Later heap heap') :
    Dead heap' b := by
  refine ⟨lt_of_lt_of_le h.1 hlater.next, ?_⟩
  intro a ha
  rcases hlater.live a ha with hold | hnew
  · exact h.2 a hold
  · have := h.1
    omega

/-- The buffers of the volumes are freed, and no request has found its buffer allocated. -/
structure Stale (w : World) : Prop where
  myfile : ∀ x self fsc, w.myfile x = some (self, fsc) → ∀ b ∈ fsc.lastSectorBlock, Dead w.heap b
  requests : ∀ q ∈ w.requests, q.allocated = false

theorem Stale.of_boot (h : Boot w) : Stale w := by
  refine ⟨?_, ?_⟩
  · intro x self fsc hx
    rw [h.myfile x] at hx
    cases hx
  · rw [h.requests]
    exact fun _ hq => absurd hq List.not_mem_nil

theorem Stale.of_later (h : Stale w) (hlater : Blocks.Later w.heap w'.heap)
    (hmyfile : w'.myfile = w.myfile) (hrequests : w'.requests = w.requests) : Stale w' := by
  refine ⟨?_, ?_⟩
  · intro x self fsc hx b hb
    rw [hmyfile] at hx
    exact (h.myfile x self fsc hx b hb).later hlater
  · rw [hrequests]
    exact h.requests

theorem Stale.setPosn {posn : ℤ} (h : Stale w) : Stale (w.setPosn fd posn) :=
  ⟨h.myfile, h.requests⟩

theorem Stale.setMyfile {self : ℕ} {fsc : FatSc} (h : Stale w)
    (hdead : ∀ b ∈ fsc.lastSectorBlock, Dead w.heap b) : Stale (w.setMyfile fd self fsc) := by
  refine ⟨?_, h.requests⟩
  intro x self' fsc' hx
  change Function.update w.myfile fd (some (self, fsc)) x = _ at hx
  by_cases hfd : x = fd
  · subst hfd
    rw [Function.update_self] at hx
    cases hx
    exact hdead
  · rw [Function.update_of_ne hfd] at hx
    exact h.myfile x self' fsc' hx

/-! ## Each driver -/

def KeepsStale (close : ℤ → World → Option (ℤ × World)) : Prop :=
  ∀ fd w r w', close fd w = some (r, w') → Stale w → Stale w'

theorem failOpen_stale (hclose : KeepsStale close) {self : ℕ}
    (h : failOpen close fd self w = some (r, w')) (hstale : Stale w) : Stale w' := by
  unfold failOpen at h
  dsimp only at h
  obtain ⟨⟨r', v⟩, hv, heq⟩ := Option.map_eq_some_iff.mp h
  cases heq
  have hfree : Blocks.Later w.heap (w.heap.free (some self)) := Blocks.free_later
  exact hclose _ _ _ _ hv (hstale.of_later hfree rfl rfl)

theorem fat_openFile_stale (hclose : KeepsStale close) {p : FatPath} {self : ℕ}
    (h : Fat.openFile host close fd p self w = some (r, w')) (hstale : Stale w) : Stale w' := by
  unfold Fat.openFile at h
  split at h
  · cases h
  · next res vol hinit =>
    have hinits := fatInit_inits hinit
    dsimp only at h
    split at h
    · exact failOpen_stale hclose h (hstale.of_later hinits.heap rfl rfl)
    · split at h
      · cases h
      · next res' vol' hfind =>
        have hwalks := fatFindfile_walks hfind
        have huse : ∀ steps : List FatStep, Stale (useVol vol' { w with fatSteps := steps }) :=
          fun _ => hstale.of_later (hinits.heap.trans hwalks.heap) rfl rfl
        split at h
        · exact failOpen_stale hclose h (huse _)
        · cases h
          refine (huse _).setPosn.setMyfile ?_
          intro b hb
          have hb : b ∈ vol'.fsc.lastSectorBlock := hb
          rw [hwalks.lastSectorBlock] at hb
          have hdead : Dead vol.heap b := hinits.freed b hb
          exact hdead.later hwalks.heap

theorem fatOpen_stale (hclose : KeepsStale close)
    (h : fatOpen host close fd path w = some (r, w')) (hstale : Stale w) : Stale w' := by
  unfold fatOpen at h
  split at h
  · cases h
    exact hstale
  split at h
  · cases h
  have hlater := @Blocks.malloc_later host w.heap SIZEOF_FAT_SC
  generalize w.heap.malloc host SIZEOF_FAT_SC = got at h hlater
  split at h
  · cases h
    exact hstale.of_later hlater rfl rfl
  · dsimp only at h
    split at h
    · cases h
      exact hstale.of_later hlater rfl rfl
    · exact fat_openFile_stale hclose h (hstale.of_later hlater rfl rfl)

theorem fatClose_stale (hclose : KeepsStale close)
    (h : fatClose close fd w = some (r, w')) (hstale : Stale w) : Stale w' := by
  unfold fatClose at h
  split at h
  · cases h
  · next self fsc hfile =>
    dsimp only at h
    split at h
    · cases h
    · next _ v hv =>
      cases h
      have hset : ∀ fsc' : FatSc, fsc'.lastSectorBlock = fsc.lastSectorBlock → Stale
          { w.setMyfile fd self fsc' with heap := w.heap.free fsc.file.chain.block } := by
        intro fsc' hblock
        have hdead : ∀ b ∈ fsc'.lastSectorBlock, Dead w.heap b := by
          rw [hblock]
          exact hstale.myfile fd self fsc hfile
        exact (hstale.setMyfile hdead).of_later Blocks.free_later rfl rfl
      have hv : Stale v := hclose _ _ _ _ hv (hset _ rfl)
      have hfree : Blocks.Later v.heap (v.heap.free (some self)) := Blocks.free_later
      exact hv.of_later hfree rfl rfl

theorem mtdopen_stale (h : mtdopen sys fd path w = some (r, w')) (hstale : Stale w) :
    Stale w' := by
  unfold mtdopen at h
  split at h
  · cases h
    exact hstale
  have hlater := @Blocks.malloc_later sys.host w.heap 12
  generalize w.heap.malloc sys.host 12 = got at h hlater
  split at h
  · cases h
  · cases h
    exact hstale.of_later hlater rfl rfl

theorem netopenFrom_stale {url : Url} {opss : List NetFileOps} {i : ℕ} {ok ok' : Bool}
    (h : netopenFrom sys fd url opss i ok w = (r, ok', w')) (hstale : Stale w) : Stale w' := by
  induction opss generalizing i ok w with
  | nil =>
      cases h
      exact hstale
  | cons ops rest ih =>
      unfold netopenFrom at h
      split at h
      · have hlater := @Blocks.malloc_later sys.host w.heap 8
        generalize w.heap.malloc sys.host 8 = got at h hlater
        split at h
        · cases h
          exact hstale.of_later hlater rfl rfl
        · next nfp heap =>
          have hfree : Blocks.Later heap (heap.free (some nfp)) := Blocks.free_later
          dsimp only at h
          split at h
          · cases h
            exact hstale.of_later (hlater.trans hfree) rfl rfl
          · exact ih h (hstale.of_later hlater rfl rfl)
      · exact ih h hstale

theorem driverOpen_stale (hclose : KeepsStale close)
    (h : driverOpen sys close fs fd path w = some (r, w')) (hstale : Stale w) : Stale w' := by
  unfold driverOpen at h
  split at h
  · obtain ⟨⟨r', v⟩, hopen, heq⟩ := Option.map_eq_some_iff.mp h
    cases heq
    exact (mtdopen_stale hopen hstale).of_later .refl rfl rfl
  · obtain ⟨⟨r', v⟩, hopen, heq⟩ := Option.map_eq_some_iff.mp h
    cases heq
    exact (fatOpen_stale hclose hopen hstale).of_later .refl rfl rfl
  · obtain ⟨-, rfl⟩ := Prod.mk.inj (Option.some.inj h)
    exact hstale.of_later .refl rfl rfl
  · obtain ⟨⟨r', ok, v⟩, hopen, heq⟩ := Option.map_eq_some_iff.mp h
    cases heq
    have hv : Stale v := by
      unfold netopen at hopen
      split at hopen
      · cases hopen
        exact hstale
      · cases hopen
      · exact netopenFrom_stale (Option.some.inj hopen) hstale
    exact hv.of_later .refl rfl rfl

theorem driverClose_stale (hclose : KeepsStale close)
    (h : driverClose sys close fs fd w = some (r, w')) (hstale : Stale w) : Stale w' := by
  unfold driverClose at h
  dsimp only at h
  split at h
  · split at h
    · next block priv _ =>
      have hfree : Blocks.Later w.heap (w.heap.free (some block)) := Blocks.free_later
      cases h
      exact hstale.of_later hfree rfl rfl
    · cases h
  · exact fatClose_stale hclose h (hstale.of_later .refl rfl rfl)
  · cases h
    exact hstale.of_later .refl rfl rfl
  · split at h
    · cases h
      exact hstale.of_later .refl rfl rfl
    · cases h

theorem closeNested_stale {depth : ℕ} : KeepsStale (closeNested sys depth) := by
  induction depth with
  | zero =>
      intro fd w r w' h
      cases h
  | succ depth ih =>
      intro fd w r w' h hstale
      unfold closeNested at h
      split at h
      · split at h
        · cases h
        · exact driverClose_stale ih h (hstale.of_later .refl rfl rfl)
      · cases h
        exact hstale

theorem isLive_of_dead {block : Option ℕ} (h : ∀ b ∈ block, Dead heap b) :
    heap.isLive block = false := by
  cases block with
  | none => rfl
  | some b =>
      change (heap.live.any fun a => decide (a.1 = b)) = false
      rw [List.any_eq_false]
      intro a ha
      rw [decide_eq_true_iff]
      exact (h b rfl).2 a ha

theorem fatRead_stale {len : ℕ} {out : List (BitVec 8)}
    (h : fatRead host fd len w = some (r, out, w')) (hstale : Stale w) : Stale w' := by
  unfold fatRead at h
  split at h
  · cases h
  · next self fsc hfile =>
    have hdead := hstale.myfile fd self fsc hfile
    rw [isLive_of_dead hdead] at h
    extract_lets origpos len' r₀ at h
    split at h
    · cases h
      exact hstale
    split at h
    · cases h
    · next res r' hread =>
      have hreads := fatReadFrom_reads hread
      have hblock : r'.fsc.lastSectorBlock = fsc.lastSectorBlock := by
        change r'.fsc.unread.lastSectorBlock = fsc.unread.lastSectorBlock
        rw [hreads.unread]
      have hset : Stale { w.setMyfile fd self r'.fsc with
          devs := r'.devs, requests := r'.requests } := by
        refine ⟨(hstale.setMyfile (hblock ▸ hdead)).myfile, ?_⟩
        obtain ⟨new, heq, hnew⟩ := hreads.requests
        intro q hq
        have hq : q ∈ new ++ w.requests := heq ▸ hq
        exact (List.mem_append.mp hq).elim (fun hq => (hnew q hq).2) (hstale.requests q)
      split at h <;>
      · cases h
        exact hset.of_later .refl rfl rfl

/-! ## Runs -/

theorem driverData_stale (h : driverData sys fs fd w = some (r, w')) (hstale : Stale w) :
    Stale w' := by
  unfold driverData at h
  dsimp only at h
  split at h
  · cases h
    exact hstale.setPosn
  · cases h
    exact hstale
  · cases h

theorem tryOpen_stale {dname : Option CString} {fss : List FileSystem} (hclose : KeepsStale close)
    (h : tryOpen sys close path dname fd fss w = some (r, w')) (hstale : Stale w) : Stale w' := by
  induction fss generalizing w with
  | nil =>
      cases h
      exact hstale
  | cons fsp fss ih =>
      have hopen : ∀ {xx : ℤ} {v : World}, driverOpen sys close fsp fd path w = some (xx, v) →
          Stale v := fun hopen => driverOpen_stale hclose hopen hstale
      unfold tryOpen at h
      dsimp only at h
      split at h
      · split at h
        · split at h
          · cases h
          · next xx v hv =>
            split at h <;>
            · cases h
              exact (hopen hv).of_later .refl rfl rfl
        · exact ih h hstale
      · split at h
        · split at h
          · cases h
          · next xx v hv =>
            split at h
            · cases h
              exact (hopen hv).of_later .refl rfl rfl
            · exact ih h (hopen hv)
        · exact ih h hstale

theorem openFile_stale {filename : CString} (hclose : KeepsStale close)
    (h : openFile sys close filename w = some (r, w')) (hstale : Stale w) : Stale w' := by
  unfold openFile at h
  split at h
  · cases h
    exact hstale
  · split at h
    · cases h
    · obtain ⟨⟨i, v⟩, htry, heq⟩ := Option.map_eq_some_iff.mp h
      obtain ⟨-, rfl⟩ := Prod.mk.inj heq
      have hv : Stale v := tryOpen_stale hclose htry (hstale.of_later .refl rfl rfl)
      split
      · exact hv.of_later .refl rfl rfl
      · exact hv

theorem exec_stale {call : FileCall} (h : exec sys w call = some (r, w')) (hstale : Stale w) :
    Stale w' := by
  have hrecord : ∀ call : DriverCall, Stale (w.record call) :=
    fun _ => hstale.of_later .refl rfl rfl
  cases call with
  | openFile filename => exact openFile_stale closeNested_stale h hstale
  | read fd n =>
      change readFile sys fd n w = _ at h
      unfold readFile at h
      split at h
      · split at h
        · cases h
        · dsimp only at h
          split at h
          · obtain ⟨⟨res, out, v⟩, hread, heq⟩ := Option.map_eq_some_iff.mp h
            cases heq
            exact fatRead_stale hread (hrecord _)
          · generalize devioRead sys.host.usb fd _ n _ = out at h
            cases h
            exact hstale.of_later .refl rfl rfl
          · exact driverData_stale h (hrecord _)
      · cases h
        exact hstale
  | write fd n =>
      change writeFile sys fd w = _ at h
      unfold writeFile at h
      split at h
      · split at h
        · cases h
        · dsimp only at h
          split at h
          · cases h
            exact hrecord _
          · cases h
            exact hstale.of_later .refl rfl rfl
          · exact driverData_stale h (hrecord _)
      · cases h
        exact hstale
  | lseek fd offset whence =>
      change lseekFile sys fd offset whence w = _ at h
      unfold lseekFile at h
      split at h
      · split at h
        · cases h
        · dsimp only at h
          split at h
          · unfold fatLseek at h
            split at h
            · cases h
            · dsimp only at h
              split at h <;> cases h
              · exact (hrecord _).setPosn
              · exact (hrecord _).setPosn
              · exact (hrecord _).setPosn
              · exact hrecord _
          · cases h
            exact hstale.of_later .refl rfl rfl
          · exact driverData_stale h (hrecord _)
      · cases h
        exact hstale
  | close fd => exact closeNested_stale _ _ _ _ h hstale

theorem reach_stale (h : Runs.Reach (step sys) (fun _ _ => True) Boot w) : Stale w := by
  refine h.invariant (fun _ => Stale.of_boot) ?_
  intro w call w' hstale _ hstep
  obtain ⟨⟨r, v⟩, hexec, rfl⟩ := Option.map_eq_some_iff.mp hstep
  exact exec_stale hexec hstale

/-- The bytes of a request fit into a buffer that is allocated. -/
def SafeRequest (q : Request) : Prop := q.bytes ≤ q.capacity ∧ q.allocated = true

/-- No request of any run is safe: the requests of a run all are if and only if there are none. -/
theorem reach_requests_safe_iff (h : Runs.Reach (step sys) (fun _ _ => True) Boot w) :
    (∀ q ∈ w.requests, SafeRequest q) ↔ w.requests = [] := by
  constructor
  · intro hsafe
    rw [List.eq_nil_iff_forall_not_mem]
    intro q hq
    have hallocated := (hsafe q hq).2
    rw [(reach_stale h).requests q hq] at hallocated
    cases hallocated
  · intro hnone q hq
    rw [hnone] at hq
    exact absurd hq List.not_mem_nil

/-- A volume with one file, `a`, of five bytes. -/
def smallContent (i : ℕ) : BitVec 8 :=
  if i = 0 then 0xeb else if i = 12 then 2 else if i = 13 then 1 else if i = 14 then 1
  else if i = 16 then 1 else if i = 17 then 16 else if i = 19 then 20 else if i = 22 then 1
  else if i = 515 then 0xff else if i = 516 then 0xff
  else if i = 1024 then 0x41 else if 1024 < i ∧ i < 1035 then 0x20 else if i = 1050 then 2
  else if i = 1052 then 5
  else if i = 1536 then 0x68 else if i = 1537 then 0x65 else if 1537 < i ∧ i < 1540 then 0x6c
  else if i = 1540 then 0x6f else 0

def smallSystem : System :=
  { bareSystem with
    host := { bareSystem.host with
      usb := { oneUsb 512 with content := fun _ => smallContent }
      steps := 8
      stack := List.replicate SECTORSIZE 0 } }

theorem smallRun : ∃ w, Runs.run (step smallSystem) bareWorld
    [.openFile (cstr "/dev/fat@usb0/a"), .read 0 3] = some w ∧ w.requests ≠ [] := by
  obtain ⟨w, hrun, hne⟩ := Runs.exists_of_any (show (Runs.run (step smallSystem) bareWorld
    [.openFile (cstr "/dev/fat@usb0/a"), .read 0 3]).any (fun w => decide (w.requests ≠ [])) =
      true by decide +kernel)
  exact ⟨w, hrun, of_decide_eq_true hne⟩

/-- Once the file has been read, there is a request that is not safe. -/
theorem reach_requests_safe_iff_read : ∃ w, Runs.run (step smallSystem) bareWorld
    [.openFile (cstr "/dev/fat@usb0/a"), .read 0 3] = some w ∧
      ¬∀ q ∈ w.requests, SafeRequest q := by
  obtain ⟨w, hrun, hne⟩ := smallRun
  refine ⟨w, hrun, ?_⟩
  rw [reach_requests_safe_iff (.of_run (.start bareWorld_boot) hrun)]
  exact hne

theorem requests_not_safe : ¬∀ sys w, Runs.Reach (step sys) (fun _ _ => True) Boot w →
    ∀ q ∈ w.requests, SafeRequest q := by
  intro h
  obtain ⟨w, hrun, hne⟩ := smallRun
  have hreach := Runs.Reach.of_run (.start bareWorld_boot) hrun
  obtain ⟨q, hq⟩ := List.exists_mem_of_ne_nil _ hne
  have hallocated := (h smallSystem w hreach q hq).2
  rw [(reach_stale hreach).requests q hq] at hallocated
  cases hallocated

end Filesys

end LuojiOs
