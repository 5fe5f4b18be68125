import LuojiOs.Files.ExactReads

/-!
# What reading does not change

A read of a device moves the offset of an open device.  It opens and closes nothing, and it
answers with the number of bytes that it was asked for, whether the commands succeed or not.
-/

namespace LuojiOs

namespace Devfs

variable {usb : Usb} {fd : ℤ} {dst : Dest} {devs devs' : Devs} {fuel left n : ℕ}

/-- A slot, up to its offset. -/
def Biodev.still (biodev : Biodev) : Biodev := { biodev with offs := 0 }

/-- A block read fails whose first command has the number `k`: the device does not get ready, or
it is ready at once and the three tries of the first command behind that fail. -/
def Usb.FailsAt (usb : Usb) (k : ℕ) : Prop :=
  (∀ i < 11, usb.transport (k + 2 * i) = false) ∨
    (usb.transport k = true ∧ ∀ i < 3, usb.transport (k + 1 + i) = false)

/-- Block reads succeed wherever they begin, if there is a device that they can be for. -/
def Usb.Reliable (usb : Usb) : Prop :=
  ∀ device, usb.blksz device = 512 ∨ usb.blksz device = 1024 ∨ usb.blksz device = 2048 →
    ∀ k, ¬usb.FailsAt k

/-- The devices are the same, up to their offsets, messages are never taken back, and there is
none while all commands succeed. -/
structure Moved (usb : Usb) (devs devs' : Devs) : Prop where
  slots : ∀ x, (devs'.opendevs x).still = (devs.opendevs x).still
  errors : devs.errors ≤ devs'.errors
  quiet : usb.Reliable → devs'.errors = devs.errors

theorem Moved.refl : Moved usb devs devs := ⟨fun _ => rfl, le_rfl, fun _ => rfl⟩

theorem Moved.trans {devs'' : Devs} (h : Moved usb devs devs') (h' : Moved usb devs' devs'') :
    Moved usb devs devs'' :=
  ⟨fun x => (h'.slots x).trans (h.slots x), h.errors.trans h'.errors,
    fun hok => (h'.quiet hok).trans (h.quiet hok)⟩

theorem Moved.openedFlag (h : Moved usb devs devs') (x : ℤ) :
    (devs'.opendevs x).openedFlag = (devs.opendevs x).openedFlag := by
  change (devs'.opendevs x).still.openedFlag = (devs.opendevs x).still.openedFlag
  rw [h.slots x]

theorem setOffs_moved {offs : ℤ} : Moved usb devs (devs.setOffs fd offs) := by
  refine ⟨?_, le_rfl, fun _ => rfl⟩
  intro x
  by_cases hx : x = fd
  · subst hx
    rw [opendevs_setOffs]
    rfl
  · rw [opendevs_setOffs_of_ne hx]

theorem devioLseek_moved {offs whence : ℤ} : Moved usb devs (devioLseek fd offs whence devs).2 :=
  setOffs_moved

theorem usbTestUnitReady_errors {tries : ℕ} :
    (usbTestUnitReady usb tries devs).2.errors = devs.errors := by
  induction tries generalizing devs with
  | zero => rfl
  | succ tries ih =>
      rw [usbTestUnitReady]
      split
      · rfl
      · exact ih

theorem usbRead10_errors {tries : ℕ} : (usbRead10 usb tries devs).2.errors = devs.errors := by
  induction tries generalizing devs with
  | zero => rfl
  | succ tries ih =>
      unfold usbRead10
      dsimp only
      split
      · rfl
      · exact ih

theorem deliver_errors {bounce : Bool} {data : List (BitVec 8)} :
    (deliver bounce data dst devs).2.errors = devs.errors := by
  cases bounce <;> rfl

theorem usbStorReadFrom_errors {device start blks : ℕ} {bounce : Bool} :
    (usbStorReadFrom usb device bounce fuel start blks dst devs).2.2.errors = devs.errors := by
  induction fuel generalizing start blks dst devs with
  | zero => rfl
  | succ fuel ih =>
      unfold usbStorReadFrom
      generalize (if USB_MAX_READ_BLK < blks then USB_MAX_READ_BLK else blks) = smallblks
      dsimp only
      have htries := @usbRead10_errors usb devs 3
      split
      · next heq =>
        rw [heq] at htries
        exact htries
      · next heq =>
        rw [heq] at htries
        split
        · exact deliver_errors.trans htries
        · exact ih.trans (deliver_errors.trans htries)

theorem usbStorRead_errors {device start blks : ℕ} {bounce : Bool} :
    (usbStorRead usb device bounce start blks dst devs).2.2.errors = devs.errors := by
  unfold usbStorRead
  split
  · rfl
  · have hready := @usbTestUnitReady_errors usb devs 11
    split
    · next heq =>
      rw [heq] at hready
      exact hready
    · next heq =>
      rw [heq] at hready
      exact usbStorReadFrom_errors.trans hready

/-! ## Commands that fail -/

/-- The command before the next one has succeeded. -/
def Ready (usb : Usb) (devs : Devs) : Prop :=
  ∃ k, devs.commands = k + 1 ∧ usb.transport k = true

theorem usbTestUnitReady_ready {tries i : ℕ} (hi : i < tries)
    (h : usb.transport (devs.commands + 2 * i) = true) :
    ∃ devs', usbTestUnitReady usb tries devs = (true, devs') ∧ Ready usb devs' := by
  induction tries generalizing i devs with
  | zero => exact absurd hi (Nat.not_lt_zero i)
  | succ tries ih =>
      rw [usbTestUnitReady]
      by_cases hnow : usb.transport devs.commands = true
      · exact ⟨_, if_pos hnow, devs.commands, rfl, hnow⟩
      · rw [if_neg hnow]
        cases i with
        | zero => exact absurd h hnow
        | succ i =>
            apply ih (Nat.lt_of_succ_lt_succ hi)
            rwa [Nat.mul_succ, Nat.add_comm (2 * i), ← Nat.add_assoc] at h

theorem usbTestUnitReady_fails {tries : ℕ}
    (h : ∀ i < tries, usb.transport (devs.commands + 2 * i) = false) :
    (usbTestUnitReady usb tries devs).1 = false := by
  induction tries generalizing devs with
  | zero => rfl
  | succ tries ih =>
      have hnow : ¬usb.transport devs.commands = true := by
        have hfirst := h 0 (Nat.succ_pos tries)
        exact ne_true_of_eq_false hfirst
      rw [usbTestUnitReady, if_neg hnow]
      apply ih
      intro i hi
      have hnext := h (i + 1) (Nat.succ_lt_succ hi)
      rwa [Nat.mul_succ, Nat.add_comm (2 * i), ← Nat.add_assoc] at hnext

theorem usbRead10_ready {tries i : ℕ} (hi : i < tries)
    (h : usb.transport (devs.commands + i) = true) :
    ∃ devs', usbRead10 usb tries devs = (true, devs') ∧ Ready usb devs' := by
  induction tries generalizing i devs with
  | zero => exact absurd hi (Nat.not_lt_zero i)
  | succ tries ih =>
      rw [usbRead10]
      by_cases hnow : usb.transport devs.commands = true
      · exact ⟨_, if_pos hnow, devs.commands, rfl, hnow⟩
      · rw [if_neg hnow]
        cases i with
        | zero => exact absurd h hnow
        | succ i =>
            apply ih (Nat.lt_of_succ_lt_succ hi)
            rwa [Nat.add_comm i, ← Nat.add_assoc] at h

theorem usbRead10_fails {tries : ℕ} (h : ∀ i < tries, usb.transport (devs.commands + i) = false) :
    (usbRead10 usb tries devs).1 = false := by
  induction tries generalizing devs with
  | zero => rfl
  | succ tries ih =>
      have hnow : ¬usb.transport devs.commands = true := by
        have hfirst := h 0 (Nat.succ_pos tries)
        exact ne_true_of_eq_false hfirst
      rw [usbRead10, if_neg hnow]
      apply ih
      intro i hi
      have hnext := h (i + 1) (Nat.succ_lt_succ hi)
      rwa [Nat.add_comm i, ← Nat.add_assoc] at hnext

section Succeeds

variable (hok : ∀ k, ¬usb.FailsAt k)

include hok

/-- Behind a command that has succeeded one of the next three does. -/
theorem usbRead10_succeeds (h : Ready usb devs) :
    ∃ devs', usbRead10 usb 3 devs = (true, devs') ∧ Ready usb devs' := by
  obtain ⟨k, hk, hlast⟩ := h
  by_contra hnone
  refine hok k (Or.inr ⟨hlast, ?_⟩)
  intro i hi
  by_contra hnext
  rw [Bool.not_eq_false, ← hk] at hnext
  exact hnone (usbRead10_ready hi hnext)

theorem usbStorReadFrom_succeeds {device start blks : ℕ} {bounce : Bool} (h : Ready usb devs)
    (hpos : 0 < blks) (hfuel : blks ≤ fuel) :
    (usbStorReadFrom usb device bounce fuel start blks dst devs).1 = 0 := by
  induction fuel generalizing start blks dst devs with
  | zero => omega
  | succ fuel ih =>
      obtain ⟨devs', heq, hready⟩ := usbRead10_succeeds hok h
      rw [usbStorReadFrom, heq]
      have hsmall : 0 < if USB_MAX_READ_BLK < blks then USB_MAX_READ_BLK else blks := by
        split
        · decide
        · exact hpos
      generalize (if USB_MAX_READ_BLK < blks then USB_MAX_READ_BLK else blks) = smallblks at *
      dsimp only
      split
      · rfl
      · have hcommands : ∀ {data : List (BitVec 8)},
            Ready usb (deliver bounce data dst devs').2 := by
          intro data
          cases bounce <;> exact hready
        exact ih hcommands (by omega) (by omega)

/-- Where no read fails, all blocks are read. -/
theorem usbStorRead_succeeds {device start blks : ℕ} {bounce : Bool} :
    (usbStorRead usb device bounce start blks dst devs).1 = blks := by
  rw [usbStorRead]
  split
  · next hzero => exact hzero.symm
  · next hpos =>
    obtain ⟨devs', heq, hready⟩ : ∃ devs', usbTestUnitReady usb 11 devs = (true, devs') ∧
        Ready usb devs' := by
      by_contra hnone
      refine hok devs.commands (Or.inl ?_)
      intro i hi
      by_contra hnext
      rw [Bool.not_eq_false] at hnext
      exact hnone (usbTestUnitReady_ready hi hnext)
    rw [heq]
    dsimp only
    rw [usbStorReadFrom_succeeds hok hready (Nat.pos_of_ne_zero hpos) le_rfl, Nat.sub_zero]

end Succeeds

theorem usbReadDst_errors : devs.errors ≤ (usbReadDst usb fd n dst devs).2.errors ∧
    (usb.Reliable → (usbReadDst usb fd n dst devs).2.errors = devs.errors) := by
  unfold usbReadDst
  dsimp only
  split
  · next hsize =>
    split
    · next hne =>
      exact ⟨(usbStorRead_errors.symm.le).trans (Nat.le_succ _), fun hok =>
        absurd (usbStorRead_succeeds (hok _ hsize)) hne⟩
    · exact ⟨usbStorRead_errors.symm.le, fun _ => usbStorRead_errors⟩
  · exact ⟨le_rfl, fun _ => rfl⟩

theorem readDevice_moved : Moved usb devs (readDevice usb fd n dst devs).2.2 := by
  have hslots : ∀ x, ((readDevice usb fd n dst devs).2.2.opendevs x).still =
      (devs.opendevs x).still := by
    intro x
    rw [readDevice_fills.opendevs]
  have herrors := @usbReadDst_errors usb fd dst devs n
  refine ⟨hslots, ?_, ?_⟩
  · unfold readDevice
    dsimp only
    split
    · exact herrors.1
    · exact le_rfl
  · unfold readDevice
    dsimp only
    split
    · exact herrors.2
    · exact fun _ => rfl

@[simp] theorem readDevice_ret : (readDevice usb fd n dst devs).1 = n := rfl

theorem readLbuff_moved : Moved usb devs (readLbuff usb fd devs).2 := by
  obtain ⟨hslots, herrors, hquiet⟩ := @readDevice_moved usb fd
    { addr := usb.lbuffAddr, bytes := devs.lbuff, pos := usb.lbuffStart } devs DEV_BSIZE
  exact ⟨hslots, herrors, hquiet⟩

theorem wrote_moved {l i m : ℕ} : Moved usb devs (devs.wrote l i m) :=
  ⟨fun _ => rfl, le_rfl, fun _ => rfl⟩

/-- The loop ends because nothing is left, and never because of a failure. -/
theorem devioReadFrom_spec {ret : ℤ} (hret : 0 ≤ ret) (hfuel : left ≤ fuel) :
    0 ≤ (devioReadFrom usb fd fuel ret left dst devs).1 ∧
      (devioReadFrom usb fd fuel ret left dst devs).2.1 = 0 ∧
      Moved usb devs (devioReadFrom usb fd fuel ret left dst devs).2.2.2 := by
  induction fuel generalizing ret left dst devs with
  | zero =>
      obtain rfl : left = 0 := by omega
      exact ⟨hret, rfl, .refl⟩
  | succ fuel ih =>
      rw [devioReadFrom]
      dsimp only
      split
      · next hleft => exact ⟨hret, hleft, .refl⟩
      split
      · next hleft hedge =>
        have hmod : ((devs.opendevs fd).offs % (DEV_BSIZE : ℤ)).toNat < DEV_BSIZE := by
          unfold DEV_BSIZE
          omega
        rw [if_neg]
        · have hrest : left - min (DEV_BSIZE - ((devs.opendevs fd).offs % (DEV_BSIZE : ℤ)).toNat)
              left ≤ fuel := by omega
          obtain ⟨hnonneg, hzero, hmoved⟩ := @ih _ _ _ (readLbuff usb fd (devs.setOffs fd
            ((devs.opendevs fd).offs - ((devs.opendevs fd).offs % (DEV_BSIZE : ℤ)).toNat))).1
            (Int.natCast_nonneg _) hrest
          exact ⟨hnonneg, hzero, setOffs_moved.trans
            ((readLbuff_moved.trans (wrote_moved.trans setOffs_moved)).trans hmoved)⟩
        · exact not_lt.mpr (Int.natCast_nonneg _)
      · next hleft hbody =>
        have hlong : DEV_BSIZE ≤ left := by omega
        generalize hn : (if left % DEV_BSIZE ≠ 0 then min (left - left % DEV_BSIZE) MAXPHYS
          else min left MAXPHYS) = m
        have hpos : 0 < m := by
          unfold DEV_BSIZE MAXPHYS at *
          split at hn <;> omega
        rw [if_neg]
        · obtain ⟨hnonneg, hzero, hmoved⟩ := @ih _ _ _ (m : ℤ) (Int.natCast_nonneg _)
            (show left - m ≤ fuel by omega)
          exact ⟨hnonneg, hzero, (readDevice_moved.trans setOffs_moved).trans hmoved⟩
        · exact not_lt.mpr (Int.natCast_nonneg _)

theorem devioRead_moved : Moved usb devs (devioRead usb fd dst n devs).2.2 := by
  unfold devioRead
  dsimp only
  split
  · exact .refl
  · split
    · exact .refl
    · exact (devioReadFrom_spec le_rfl le_rfl).2.2

/-- `devio_read` answers with the number of bytes that it was asked for, also when commands fail. -/
theorem devioRead_ret (h : (devs.opendevs fd).base ≤ (devs.opendevs fd).offs) :
    (devioRead usb fd dst n devs).1 = int32 n := by
  unfold devioRead
  dsimp only
  rw [if_neg (not_lt.mpr h)]
  split
  · next hn =>
    subst hn
    change (0 : ℤ) = int32 (0 : ℕ)
    decide
  · have hspec := @devioReadFrom_spec usb fd dst devs n n 0 le_rfl le_rfl
    dsimp only
    rw [if_neg (not_lt.mpr hspec.1), hspec.2.1, Nat.sub_zero]

end Devfs

end LuojiOs
