import LuojiOs.Files.Descriptors

/-!
# Errors of the device

The errors of `usb_read_dst` are printed and forgotten: `devio_read` answers with the number of
bytes that it was asked for.  What the functions above it do about errors is therefore done as it
should be only as long as there are none.
-/

namespace LuojiOs

open Devfs Fat

namespace Filesys

variable {host : Host} {usb : Usb} {fd : ℤ} {dst : Dest} {devs : Devs} {n fuel left : ℕ}
  {w w' : World}

theorem usbStorRead_fails {device start blks : ℕ} {bounce : Bool}
    (hfail : usb.FailsAt devs.commands) :
    (usbStorRead usb device bounce start blks dst devs).1 = 0 := by
  rw [usbStorRead]
  split
  · rfl
  · next hpos =>
    rcases hfail with hnever | ⟨honce, hread⟩
    · have hready := usbTestUnitReady_fails hnever
      split
      · rfl
      · next heq =>
        rw [heq] at hready
        cases hready
    · obtain ⟨fuel, hfuel⟩ := Nat.exists_eq_add_one_of_ne_zero hpos
      have htries := @usbRead10_fails usb { devs with commands := devs.commands + 1 } 3 hread
      rw [usbTestUnitReady, if_pos honce, hfuel]
      dsimp only
      rw [usbStorReadFrom]
      split
      · exact Nat.sub_self _
      · next heq =>
        rw [heq] at htries
        cases htries

theorem usbReadDst_fails {device : ℕ} (hopen : (devs.opendevs fd).devIndex = device)
    (hsize : usb.blksz device = 512 ∨ usb.blksz device = 1024 ∨ usb.blksz device = 2048)
    (hn : 0 < n) (hfail : usb.FailsAt devs.commands) :
    devs.errors < (usbReadDst usb fd n dst devs).2.errors := by
  have hblocks : 0 < howmany n (usb.blksz device) := by
    unfold howmany
    apply Nat.div_pos
    · omega
    · omega
  have herrors : ∀ {start blks : ℕ} {bounce : Bool},
      (usbStorRead usb device bounce start blks dst devs).2.2.errors = devs.errors :=
    usbStorRead_errors
  unfold usbReadDst
  dsimp only
  rw [hopen, if_pos hsize, usbStorRead_fails hfail, if_pos hblocks.ne]
  exact Nat.lt_succ_of_le herrors.symm.le

/-- The error of the first block read is not taken back by the rest of the loop. -/
theorem devioReadFrom_fails {ret : ℤ} {device : ℕ} (hopened : (devs.opendevs fd).openedFlag = true)
    (htype : (devs.opendevs fd).devType = BLOCK_DEV_USB_STOR_FLAG)
    (hopen : (devs.opendevs fd).devIndex = device)
    (hsize : usb.blksz device = 512 ∨ usb.blksz device = 1024 ∨ usb.blksz device = 2048)
    (hoffs : (devs.opendevs fd).offs = 0) (hleft : left = DEV_BSIZE)
    (hfail : usb.FailsAt devs.commands) :
    devs.errors < (devioReadFrom usb fd (fuel + 1) ret left dst devs).2.2.2.errors := by
  have hbytes : (if left % DEV_BSIZE ≠ 0 then min (left - left % DEV_BSIZE) MAXPHYS
      else min left MAXPHYS) = left := by
    rw [hleft]
    decide
  have hread : devs.errors < (readDevice usb fd left dst devs).2.2.errors := by
    unfold readDevice
    dsimp only
    rw [if_pos ⟨hopened, htype⟩]
    exact usbReadDst_fails hopen hsize (by rw [hleft]; decide) hfail
  rw [devioReadFrom]
  dsimp only
  rw [if_neg (by rw [hleft]; decide), hoffs, if_neg (by rw [hleft]; decide), hbytes,
    readDevice_ret, if_neg (not_lt.mpr (Int.natCast_nonneg _))]
  have hrest := (@devioReadFrom_spec usb fd
    { (readDevice usb fd left dst devs).2.1 with pos := dst.pos + left }
    ((readDevice usb fd left dst devs).2.2.setOffs fd
      (((readDevice usb fd left dst devs).2.2.opendevs fd).offs + left)) fuel (left - left)
    left (Int.natCast_nonneg _) (by omega)).2.2
  exact lt_of_lt_of_le hread hrest.errors

/-- What the code does about errors, if each failed block read is counted. -/
structure ErrorsReachCaller (host : Host) : Prop where
  devio : ∀ fd dst n devs, devs.errors < (devioRead host.usb fd dst n devs).2.2.errors →
    (devioRead host.usb fd dst n devs).1 < 0 ∨ (devioRead host.usb fd dst n devs).1 < n
  sector : ∀ fsc sector count buffer devs,
    devs.errors < (readsector host fsc sector count buffer devs).2.2.errors →
      (readsector host fsc sector count buffer devs).1 = -1
  init : ∀ fd partition vol res vol', fatInit host fd partition vol = some (res, vol') →
    vol.devs.errors < vol'.devs.errors → res ≠ 1
  findfile : ∀ path vol res vol', fatFindfile host path vol = some (res, vol') →
    vol.devs.errors < vol'.devs.errors → res ≤ 0
  subdirscan : ∀ names chain vol res vol', fatSubdirscan host names chain vol = some (res, vol') →
    vol.devs.errors < vol'.devs.errors → res ≤ 0
  entry : ∀ entry vol, vol.devs.errors < (getFatEntry host entry vol).2.devs.errors →
    (getFatEntry host entry vol).1 < vol.fsc.fatType.mask &&& 0xfffffff8
  read : ∀ fd len w res out w', fatRead host fd len w = some (res, out, w') →
    w.devs.errors < w'.devs.errors → res < 0 ∧ (w'.file fd).posn = (w.file fd).posn ∧
      ∀ self fsc, w'.myfile fd = some (self, fsc) → ∀ sector, missed sector fsc = true

theorem fatRead_quiet {len : ℕ} {res : ℤ} {out : List (BitVec 8)} (hok : host.usb.Reliable)
    (h : fatRead host fd len w = some (res, out, w')) : w'.devs.errors = w.devs.errors := by
  unfold fatRead at h
  split at h
  · cases h
  · extract_lets origpos len' r₀ at h
    split at h
    · cases h
      rfl
    split at h
    · cases h
    · next res' r hread =>
      have hmoved := (fatReadFrom_reads hread).devs
      split at h <;>
      · cases h
        exact hmoved.quiet hok

theorem errorsReachCaller_of_reliable (hok : host.usb.Reliable) : ErrorsReachCaller host := by
  refine ⟨?_, ?_, ?_, ?_, ?_, ?_, ?_⟩
  · intro _ _ _ _ h
    exact absurd (devioRead_moved.quiet hok) h.ne'
  · intro _ _ _ _ _ h
    exact absurd (readsector_moved.quiet hok) h.ne'
  · intro _ _ _ _ _ hinit h
    exact absurd ((fatInit_inits hinit).devs.quiet hok) h.ne'
  · intro _ _ _ _ hfind h
    exact absurd ((fatFindfile_walks hfind).devs.quiet hok) h.ne'
  · intro _ _ _ _ _ hscan h
    exact absurd ((fatSubdirscan_walks hscan).devs.quiet hok) h.ne'
  · intro _ _ h
    exact absurd (getFatEntry_walks.devs.quiet hok) h.ne'
  · intro _ _ _ _ _ _ hread h
    exact absurd (fatRead_quiet hok hread) h.ne'

/-- A device whose next command has the number `k`. -/
def openAtCommand (device k : ℕ) : Devs where
  opendevs := fun _ => ⟨BLOCK_DEV_USB_STOR_FLAG, device, true, 0, 0⟩
  lbuff := []
  bulkbuf := []
  commands := k
  errors := 0
  overrun := false

theorem devioRead_fails {device k : ℕ} (hn : n = DEV_BSIZE)
    (hsize : usb.blksz device = 512 ∨ usb.blksz device = 1024 ∨ usb.blksz device = 2048)
    (hfail : usb.FailsAt k) :
    0 < (devioRead usb fd dst n (openAtCommand device k)).2.2.errors := by
  have hpos : n ≠ 0 := by
    rw [hn]
    decide
  obtain ⟨fuel, hfuel⟩ := Nat.exists_eq_succ_of_ne_zero hpos
  have hloop := @devioReadFrom_fails usb fd dst (openAtCommand device k) fuel n 0 device rfl rfl rfl
    hsize rfl hn hfail
  have hplace : ¬((openAtCommand device k).opendevs fd).offs <
      ((openAtCommand device k).opendevs fd).base := lt_irrefl (0 : ℤ)
  unfold devioRead
  dsimp only
  rw [if_neg hplace, if_neg hpos]
  rw [← Nat.succ_eq_add_one, ← hfuel] at hloop
  exact hloop

/-- Errors reach the caller if and only if there are none. -/
theorem errorsReachCaller_iff : ErrorsReachCaller host ↔ host.usb.Reliable := by
  refine ⟨?_, errorsReachCaller_of_reliable⟩
  intro h device hsize k hfail
  obtain ⟨n, hn⟩ : ∃ n, n = DEV_BSIZE := ⟨_, rfl⟩
  have herror := @devioRead_fails host.usb 0 ⟨0, List.replicate n 0, 0⟩ n device k hn hsize hfail
  have hanswer := h.devio 0 _ n (openAtCommand device k) herror
  have hret := @devioRead_ret host.usb 0 ⟨0, List.replicate n 0, 0⟩ (openAtCommand device k) n le_rfl
  rw [hret] at hanswer
  have hint : int32 n = n := by
    rw [hn]
    decide
  rw [hint] at hanswer
  omega

/-- No command to the device succeeds. -/
def deadHost : Host :=
  { usb := ⟨[], fun _ => 512, fun _ _ => 0, fun _ => false, 0⟩
    refuses := fun _ => false
    steps := 0
    fatBufferAddr := 0
    dirBufferAddr := 0
    sectorBufferAddr := 0
    stackAddr := 0
    stack := []
    chainFront := fun _ _ => none
    bufferFront := fun _ _ => 0 }

theorem not_errorsReachCaller : ¬∀ host, ErrorsReachCaller host := by
  intro h
  have hanswer := (h deadHost).devio 0 ⟨0, List.replicate 512 0, 0⟩ 512 (openAtCommand 0 0)
    (by decide)
  revert hanswer
  decide

end Filesys

end LuojiOs
