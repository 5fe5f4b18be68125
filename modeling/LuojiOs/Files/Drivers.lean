import LuojiOs.Files.Table
import LuojiOs.Fat.Walks

/-!
# What the drivers do to the table

While it opens a descriptor a driver touches no other entry of the table and calls no other
driver: the calls of `close` from within `fat_open` find the entry marked as free.
-/

namespace LuojiOs

open Devfs Fat Mtd

namespace Filesys

variable {sys : System} {host : Host} {close : ℤ → World → Option (ℤ × World)} {w w' : World}
  {fd r : ℤ} {path fname : CString}

/-- `close` does nothing for a descriptor that is not open. -/
def ClosesOnlyOpen (close : ℤ → World → Option (ℤ × World)) : Prop :=
  ∀ fd w, (w.file fd).valid = false → close fd w = some (0, w)

theorem closeNested_closesOnlyOpen {depth : ℕ} : ClosesOnlyOpen (closeNested sys (depth + 1)) := by
  intro fd w hvalid
  unfold closeNested isOpen
  rw [if_neg]
  rw [hvalid]
  simp

/-- Each volume in use knows its own descriptor. -/
def MyfileOk (w : World) : Prop := ∀ x self fsc, w.myfile x = some (self, fsc) → fsc.fd = x

/-- The effect of a driver on the table while it works for one descriptor. -/
structure Touches (fd : ℤ) (w w' : World) : Prop where
  file : ∀ x, x ≠ fd → w'.file x = w.file x
  calls : w'.calls = w.calls
  myfile : MyfileOk w → MyfileOk w'
  keeps : ∀ x, (w.myfile x).isSome → (w'.myfile x).isSome
  slots : ∀ x, x ≠ fd → (w'.devs.opendevs x).openedFlag = (w.devs.opendevs x).openedFlag

theorem Touches.refl : Touches fd w w := ⟨fun _ _ => rfl, rfl, id, fun _ => id, fun _ _ => rfl⟩

theorem Touches.of_same (hfile : w'.file = w.file) (hcalls : w'.calls = w.calls)
    (hmyfile : w'.myfile = w.myfile) (hslots : ∀ x, x ≠ fd →
      (w'.devs.opendevs x).openedFlag = (w.devs.opendevs x).openedFlag) : Touches fd w w' := by
  refine ⟨fun x _ => congrFun hfile x, hcalls, ?_, ?_, hslots⟩
  · intro hok x self fsc hx
    rw [hmyfile] at hx
    exact hok x self fsc hx
  · intro x hx
    rw [hmyfile]
    exact hx

theorem Touches.trans {w'' : World} (h : Touches fd w w') (h' : Touches fd w' w'') :
    Touches fd w w'' :=
  ⟨fun x hx => (h'.file x hx).trans (h.file x hx), h'.calls.trans h.calls,
    fun hok => h'.myfile (h.myfile hok), fun x hx => h'.keeps x (h.keeps x hx),
    fun x hx => (h'.slots x hx).trans (h.slots x hx)⟩

theorem onFile_touches {f : File → File} : Touches fd w (w.onFile fd f) :=
  ⟨fun _ hx => World.file_onFile_of_ne hx, rfl, id, fun _ => id, fun _ _ => rfl⟩

theorem setValid_touches {valid : Bool} : Touches fd w (w.setValid fd valid) := onFile_touches

theorem Touches.onFile {f : File → File} (h : Touches fd w w') : Touches fd w (w'.onFile fd f) :=
  h.trans onFile_touches

/-- A volume is noted for its own descriptor. -/
theorem setMyfile_touches {self : ℕ} {fsc : FatSc} (h : MyfileOk w → fsc.fd = fd) :
    Touches fd w (w.setMyfile fd self fsc) := by
  refine ⟨fun _ _ => rfl, rfl, ?_, ?_, fun _ _ => rfl⟩
  · intro hok x self' fsc' hx
    change Function.update w.myfile fd (some (self, fsc)) x = _ at hx
    by_cases hfd : x = fd
    · subst hfd
      rw [Function.update_self] at hx
      cases hx
      exact h hok
    · rw [Function.update_of_ne hfd] at hx
      exact hok x self' fsc' hx
  · intro x hx
    change (Function.update w.myfile fd (some (self, fsc)) x).isSome
    by_cases hfd : x = fd
    · subst hfd
      rw [Function.update_self]
      rfl
    · rw [Function.update_of_ne hfd]
      exact hx

theorem devioOpen_slots {usb : Usb} {devs : Devs} {x : ℤ} (hx : x ≠ fd) :
    ((devioOpen usb fd path devs).2.opendevs x).openedFlag = (devs.opendevs x).openedFlag := by
  unfold devioOpen
  dsimp only
  split
  · rfl
  · split
    · exact congrArg Biodev.openedFlag (Function.update_of_ne hx ..)
    · rfl

theorem devioClose_slots {devs : Devs} {x : ℤ} (hx : x ≠ fd) :
    ((devioClose fd devs).opendevs x).openedFlag = (devs.opendevs x).openedFlag :=
  congrArg Biodev.openedFlag (Function.update_of_ne hx ..)

/-! ## The driver `fat` -/

section Fat

variable (hclose : ClosesOnlyOpen close)

include hclose

theorem failOpen_touches {self : ℕ} (h : failOpen close fd self w = some (r, w')) :
    r = -1 ∧ Touches fd w w' := by
  have hfree : Touches fd w { w with heap := w.heap.free (some self) } :=
    .of_same rfl rfl rfl fun _ _ => rfl
  unfold failOpen at h
  dsimp only at h
  rw [hclose fd] at h
  · cases h
    exact ⟨rfl, hfree.trans setValid_touches⟩
  · unfold World.setValid
    rw [World.file_onFile]

theorem fat_openFile_touches {p : FatPath} {self : ℕ}
    (h : Fat.openFile host close fd p self w = some (r, w')) :
    (r = -1 ∨ r = fd ∧ (w'.myfile fd).isSome) ∧ Touches fd w w' := by
  have huse : ∀ {vol : Vol} {steps : List FatStep}, Moved host.usb w.devs vol.devs →
      Touches fd w (useVol vol { w with fatSteps := steps }) :=
    fun hmoved => .of_same rfl rfl rfl fun x _ => hmoved.openedFlag x
  unfold Fat.openFile at h
  split at h
  · cases h
  · next res vol hinit =>
    have hmoved : Moved host.usb w.devs vol.devs := (fatInit_inits hinit).devs
    dsimp only at h
    split at h
    · obtain ⟨hr, hfail⟩ := failOpen_touches hclose h
      exact ⟨Or.inl hr, (huse hmoved).trans hfail⟩
    · split at h
      · cases h
      · next res' vol' hfind =>
        have hmoved' := hmoved.trans (fatFindfile_walks hfind).devs
        split at h
        · obtain ⟨hr, hfail⟩ := failOpen_touches hclose h
          exact ⟨Or.inl hr, (huse hmoved').trans hfail⟩
        · cases h
          refine ⟨Or.inr ⟨rfl, ?_⟩, (huse hmoved').trans
            (onFile_touches.trans (setMyfile_touches fun _ => ?_))⟩
          · unfold World.setMyfile
            dsimp only
            rw [Function.update_self]
            rfl
          · exact (fatFindfile_walks hfind).fd.trans (fatInit_inits hinit).fd

theorem fatOpen_touches (h : fatOpen host close fd path w = some (r, w')) :
    (r = -1 ∨ r = fd ∧ (w'.myfile fd).isSome) ∧ Touches fd w w' := by
  unfold fatOpen at h
  split at h
  · cases h
    exact ⟨Or.inl rfl, .refl⟩
  next p _ =>
  split at h
  · cases h
  split at h
  · cases h
    exact ⟨Or.inl rfl, .of_same rfl rfl rfl fun _ _ => rfl⟩
  · next self heap _ =>
    let marked := { w with heap := heap }.onFile fd fun file => { file with valid := true, posn := 0 }
    have hmark : Touches fd w marked := Touches.onFile (.of_same rfl rfl rfl fun _ _ => rfl)
    have hdevs : Touches fd w
        { marked with devs := (devioOpen host.usb fd p.device marked.devs).2 } :=
      hmark.trans (.of_same rfl rfl rfl fun _ hx => devioOpen_slots hx)
    dsimp only at h
    split at h
    · cases h
      exact ⟨Or.inl rfl, hdevs⟩
    · obtain ⟨hr, hopen⟩ := fat_openFile_touches hclose h
      exact ⟨hr, hdevs.trans hopen⟩

/-- The file is closed, and the nested call finds its descriptor closed already. -/
theorem fatClose_touches (hok : MyfileOk w) (hvalid : (w.file fd).valid = false)
    (hfile : (w.myfile fd).isSome) :
    ∃ w', fatClose close fd w = some (0, w') ∧ w'.file = w.file ∧ Touches fd w w' := by
  obtain ⟨⟨self, fsc⟩, hfile⟩ := Option.isSome_iff_exists.mp hfile
  have hfd := hok fd self fsc hfile
  have hset : ∀ (fsc' : FatSc) (heap : Blocks), fsc'.fd = fd → Touches fd w
      { w.setMyfile fd self fsc' with heap := heap, devs := devioClose fd w.devs } :=
    fun _ _ h => (setMyfile_touches fun _ => h).trans
      (.of_same rfl rfl rfl fun _ hx => devioClose_slots hx)
  unfold fatClose
  rw [hfile]
  dsimp only
  rw [hclose]
  · exact ⟨_, rfl, rfl, hset _ _ hfd⟩
  · rw [hfd]
    exact hvalid

end Fat

/-! ## The other drivers -/

def HasNet (fd : ℤ) (w : World) : Prop := ∃ block ops, (w.file fd).data = some (.net block ops)

def HasMtd (fd : ℤ) (w : World) : Prop := ∃ block priv, (w.file fd).data = some (.mtd block priv)

theorem netopenFrom_touches {url : Url} {opss : List NetFileOps} {i : ℕ} {ok ok' : Bool}
    (hok : ok = true → HasNet fd w) (h : netopenFrom sys fd url opss i ok w = (r, ok', w')) :
    Touches fd w w' ∧ (ok' = true → HasNet fd w') ∧ ((r = -1 ∧ ok' = false) ∨
      (r = fd ∧ ok' = (ok || opss.any fun ops => url.protocol = ops.protocol))) := by
  induction opss generalizing i ok w with
  | nil =>
      cases h
      exact ⟨.refl, hok, Or.inr ⟨rfl, (Bool.or_false _).symm⟩⟩
  | cons ops rest ih =>
      unfold netopenFrom at h
      split at h
      · next hprotocol =>
        split at h
        · cases h
          exact ⟨.of_same rfl rfl rfl fun _ _ => rfl, fun h => (Bool.false_ne_true h).elim,
            Or.inl ⟨rfl, rfl⟩⟩
        · next nfp heap _ =>
          have hdata : Touches fd w ({ w with heap := heap, netCalls := w.netCalls + 1 }.onFile fd
              fun file => { file with data := some (.net nfp i) }) :=
            Touches.onFile (.of_same rfl rfl rfl fun _ _ => rfl)
          dsimp only at h
          split at h
          · cases h
            exact ⟨hdata.trans (.of_same rfl rfl rfl fun _ _ => rfl),
              fun h => (Bool.false_ne_true h).elim, Or.inl ⟨rfl, rfl⟩⟩
          · obtain ⟨htouch, hnet, hres⟩ := ih (fun _ => ⟨nfp, i, by rw [World.file_onFile]⟩) h
            refine ⟨hdata.trans htouch, hnet, ?_⟩
            simpa [hprotocol] using hres
      · next hprotocol =>
        obtain ⟨htouch, hnet, hres⟩ := ih hok h
        refine ⟨htouch, hnet, ?_⟩
        simpa [hprotocol] using hres

/-- The protocol of an address is one of those that are registered. -/
def KnownProtocol (sys : System) (path : CString) : Prop :=
  ∀ url, parseUrl (skipPrefix (cstr "/dev/net/") path) = .good url →
    ∃ ops ∈ sys.netFileSystems, url.protocol = ops.protocol

theorem netopen_touches {ok : Bool} (h : netopen sys fd path w = some (r, ok, w')) :
    Touches fd w w' ∧ (ok = true → HasNet fd w') ∧
      (KnownProtocol sys path → 0 ≤ fd → (ok = true ↔ r = fd)) := by
  unfold netopen at h
  split at h
  · cases h
    refine ⟨.refl, fun h => (Bool.false_ne_true h).elim, fun _ hfd => ?_⟩
    simp
    omega
  · cases h
  · next url hurl =>
    obtain ⟨htouch, hnet, hres⟩ :=
      netopenFrom_touches (fun h => (Bool.false_ne_true h).elim) (Option.some.inj h)
    refine ⟨htouch, hnet, ?_⟩
    intro hknown hfd
    obtain ⟨ops, hops, hprotocol⟩ := hknown url hurl
    have hany : (sys.netFileSystems.any fun ops => url.protocol = ops.protocol) = true :=
      List.any_eq_true.mpr ⟨ops, hops, decide_eq_true hprotocol⟩
    rcases hres with ⟨hr, hok⟩ | ⟨hr, hok⟩
    · rw [hr, hok]
      simp
      omega
    · rw [hr, hok, hany]
      simp

theorem mtdopen_touches (h : mtdopen sys fd path w = some (r, w')) :
    (r = -1 ∨ r = fd ∧ HasMtd fd w') ∧ Touches fd w w' := by
  unfold mtdopen at h
  split at h
  · cases h
    exact ⟨Or.inl rfl, .refl⟩
  split at h
  · cases h
  · next priv _ _ _ block _ _ =>
    cases h
    exact ⟨Or.inr ⟨rfl, block, priv, by rw [World.file_onFile]⟩,
      Touches.onFile (.of_same rfl rfl rfl fun _ _ => rfl)⟩

/-! ## The result of an open -/

/-- The device that a path names is there, and the slot of the descriptor is not in use. -/
def DiskOpens (usb : Usb) (fd : ℤ) (path : CString) (devs : Devs) : Prop :=
  (devs.opendevs fd).openedFlag = false ∧ (findDevice usb path (devs.opendevs fd)).isSome

theorem devioOpen_eq_one_iff {usb : Usb} {devs : Devs} :
    (devioOpen usb fd path devs).1 = 1 ↔ DiskOpens usb fd path devs := by
  unfold devioOpen DiskOpens
  dsimp only
  split
  · next hopen => simp [hopen]
  · next hopen =>
    split <;> simp [*]

theorem devioOpen_result {usb : Usb} {devs : Devs} :
    (devioOpen usb fd path devs).1 = 0 ∨ (devioOpen usb fd path devs).1 = 1 := by
  unfold devioOpen
  dsimp only
  split
  · exact Or.inl rfl
  · split
    · exact Or.inr rfl
    · exact Or.inl rfl

/-- A driver answers as the table expects: the answer 1 of a device that was opened is the
descriptor, or it was not opened and the descriptor is not its answer 0, and the protocol of an
address on the network is known. -/
def PlainDriver (sys : System) (fd : ℤ) (path : CString) (devs : Devs) (fs : FileSystem) : Prop :=
  (fs = .disk → fd = 1 ∨ fd ≠ 0 ∧ ¬DiskOpens sys.host.usb fd path devs) ∧
    (fs = .net → KnownProtocol sys path)

/-- What a driver needs to close a descriptor stands behind it. -/
def Backed (fd : ℤ) (w : World) : FileSystem → Prop
  | .mtd => HasMtd fd w
  | .fat => (w.myfile fd).isSome
  | .disk => True
  | .net => HasNet fd w

/-- The result of a driver says whether it has opened the object. -/
theorem driverOpen_spec {fs : FileSystem} (hclose : ClosesOnlyOpen close) (hfd : 0 ≤ fd)
    (hplain : PlainDriver sys fd path w.devs fs)
    (h : driverOpen sys close fs fd path w = some (r, w')) :
    ∃ v, Touches fd w v ∧ w' = v.record (.opened fs fd (decide (r = fd))) ∧
      (r = fd → Backed fd v fs) := by
  have hne : r = -1 → r ≠ fd := by omega
  unfold driverOpen at h
  split at h
  · obtain ⟨⟨r', v⟩, hopen, heq⟩ := Option.map_eq_some_iff.mp h
    cases heq
    obtain ⟨hr, htouch⟩ := mtdopen_touches hopen
    refine ⟨v, htouch, rfl, ?_⟩
    intro hrfd
    exact hr.elim (fun hr => absurd hrfd (hne hr)) And.right
  · obtain ⟨⟨r', v⟩, hopen, heq⟩ := Option.map_eq_some_iff.mp h
    cases heq
    obtain ⟨hr, htouch⟩ := fatOpen_touches hclose hopen
    refine ⟨v, htouch, rfl, ?_⟩
    intro hrfd
    exact hr.elim (fun hr => absurd hrfd (hne hr)) And.right
  · have hdisk := hplain.1 rfl
    rw [← devioOpen_eq_one_iff] at hdisk
    have hres := @devioOpen_result fd path sys.host.usb w.devs
    have hiff : (devioOpen sys.host.usb fd path w.devs).1 = 1 ↔
        (devioOpen sys.host.usb fd path w.devs).1 = fd := by omega
    have hslots := @devioOpen_slots fd path sys.host.usb w.devs
    clear hdisk hres
    generalize devioOpen sys.host.usb fd path w.devs = out at h hiff hslots
    obtain ⟨hr, hw⟩ := Prod.mk.inj (Option.some.inj h)
    refine ⟨{ w with devs := out.2 }, .of_same rfl rfl rfl fun _ hx => hslots hx, ?_,
      fun _ => trivial⟩
    rw [← hw, ← hr, decide_eq_decide.mpr hiff]
  · obtain ⟨⟨r', ok, v⟩, hopen, heq⟩ := Option.map_eq_some_iff.mp h
    cases heq
    obtain ⟨htouch, hnet, hok⟩ := netopen_touches hopen
    have hiff := hok (hplain.2 rfl) hfd
    refine ⟨v, htouch, ?_, fun hr => hnet (hiff.mpr hr)⟩
    rw [Bool.eq_iff_iff.mpr (hiff.trans (decide_eq_true_iff).symm)]

end Filesys

end LuojiOs
