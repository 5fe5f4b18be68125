import LuojiOs.Files.Devfs

/-!
# What a device read delivers

The loop of `devio_read` runs in edges, which go through `lbuff`, and in bodies, which go
straight to the destination.  While all commands succeed, each of these stores one row of
device bytes: `source` is the byte of the device with which the first block read begins.

`Sound` says of a whole run that each of its steps reads from the right place and stays inside
the buffers.  A run is exact for every content of the device if and only if it is sound; what
is left then is arithmetic.
-/

namespace LuojiOs

namespace Devfs

variable {usb : Usb} {fd : ℤ} {dst dst' : Dest} {devs devs' : Devs} {bounce : Bool}
  {device start blks fuel left o n a pos : ℕ} {content : ℕ → ℕ → BitVec 8}

/-! ## Blocks -/

@[simp] theorem length_blocks : (usb.blocks device start blks).length = blks * usb.blksz device := by
  simp [Usb.blocks]

theorem blocks_add {m : ℕ} : usb.blocks device start (m + n) =
    usb.blocks device start m ++ usb.blocks device (start + m) n := by
  unfold Usb.blocks
  rw [Nat.add_mul, List.range_add, List.map_append, List.map_map]
  congr 1
  apply List.map_congr_left
  intro i _
  simp only [Function.comp_apply]
  congr 1
  rw [Nat.add_mul]
  omega

/-- The bytes of a device from the offset `o` on. -/
def Usb.bytes (usb : Usb) (device o n : ℕ) : List (BitVec 8) :=
  (List.range n).map fun i => usb.content device (o + i)

@[simp] theorem length_bytes : (usb.bytes device o n).length = n := by
  simp [Usb.bytes]

theorem getElem?_bytes {i : ℕ} (h : i < n) :
    (usb.bytes device o n)[i]? = some (usb.content device (o + i)) := by
  simp [Usb.bytes, h]

theorem bytes_add {m : ℕ} : usb.bytes device o (m + n) =
    usb.bytes device o m ++ usb.bytes device (o + m) n := by
  unfold Usb.bytes
  rw [List.range_add, List.map_append, List.map_map]
  congr 1
  apply List.map_congr_left
  intro i _
  simp only [Function.comp_apply, Nat.add_assoc]

theorem blocks_eq_bytes : usb.blocks device start blks =
    usb.bytes device (start * usb.blksz device) (blks * usb.blksz device) := rfl

/-- A part of a row that was put into a buffer. -/
theorem take_drop_put {l : List (BitVec 8)} {s i m : ℕ} (hm : i + n ≤ m)
    (hl : s + i + n ≤ l.length) :
    ((Buffer.put l s (usb.bytes device o m)).drop (s + i)).take n =
      usb.bytes device (o + i) n := by
  apply List.ext_getElem?
  intro j
  by_cases hj : j < n
  · rw [List.getElem?_take_of_lt hj, List.getElem?_drop, Buffer.getElem?_put, length_bytes,
      if_pos (by omega), getElem?_bytes (by omega), getElem?_bytes hj]
    congr 2
    omega
  · rw [List.getElem?_eq_none, List.getElem?_eq_none]
    · rw [length_bytes]
      omega
    · rw [List.length_take]
      omega

/-! ## What stays as it is -/

/-- A call that fills a destination touches neither the open devices nor `lbuff`, keeps what is
before the place where it writes, and does not take an overrun back. -/
structure Fills (dst : Dest) (devs : Devs) (dst' : Dest) (devs' : Devs) : Prop where
  opendevs : devs'.opendevs = devs.opendevs
  lbuff : devs'.lbuff = devs.lbuff
  bulkbuf : devs'.bulkbuf.length = devs.bulkbuf.length
  overrun : devs.overrun = true → devs'.overrun = true
  addr : dst'.addr = dst.addr
  length : dst'.bytes.length = dst.bytes.length
  pos : dst.pos ≤ dst'.pos
  before : ∀ i < dst.pos, dst'.bytes[i]? = dst.bytes[i]?

theorem Fills.refl : Fills dst devs dst devs :=
  ⟨rfl, rfl, rfl, id, rfl, rfl, le_rfl, fun _ _ => rfl⟩

theorem Fills.trans {dst'' : Dest} {devs'' : Devs} (h : Fills dst devs dst' devs')
    (h' : Fills dst' devs' dst'' devs'') : Fills dst devs dst'' devs'' where
  opendevs := h'.opendevs.trans h.opendevs
  lbuff := h'.lbuff.trans h.lbuff
  bulkbuf := h'.bulkbuf.trans h.bulkbuf
  overrun := fun ho => h'.overrun (h.overrun ho)
  addr := h'.addr.trans h.addr
  length := h'.length.trans h.length
  pos := h.pos.trans h'.pos
  before := by
    intro i hi
    exact (h'.before i (Nat.lt_of_lt_of_le hi h.pos)).trans (h.before i hi)

theorem commands_fills {k : ℕ} : Fills dst devs dst { devs with commands := k } :=
  ⟨rfl, rfl, rfl, id, rfl, rfl, le_rfl, fun _ _ => rfl⟩

theorem usbTestUnitReady_fills {tries : ℕ} :
    Fills dst devs dst (usbTestUnitReady usb tries devs).2 := by
  induction tries generalizing devs with
  | zero => exact .refl
  | succ tries ih =>
      rw [usbTestUnitReady]
      split
      · exact commands_fills
      · exact commands_fills.trans ih

theorem usbRead10_fills {tries : ℕ} : Fills dst devs dst (usbRead10 usb tries devs).2 := by
  induction tries generalizing devs with
  | zero => exact .refl
  | succ tries ih =>
      rw [usbRead10]
      split
      · exact commands_fills
      · exact commands_fills.trans ih

theorem deliver_fills {data : List (BitVec 8)} :
    Fills dst devs (deliver bounce data dst devs).1 (deliver bounce data dst devs).2 := by
  have hbefore : ∀ i < dst.pos, (dst.put data).bytes[i]? = dst.bytes[i]? := fun i hi =>
    Buffer.getElem?_put_of_outside (Or.inl hi)
  unfold deliver
  cases bounce with
  | false =>
      exact ⟨rfl, rfl, rfl, fun ho => by simp [Devs.wrote, ho], rfl, Buffer.length_put,
        Nat.le_add_right _ _, hbefore⟩
  | true =>
      exact ⟨rfl, rfl, Buffer.length_put, fun ho => by simp [Devs.wrote, ho], rfl,
        Buffer.length_put, Nat.le_add_right _ _, hbefore⟩

theorem usbStorReadFrom_fills : Fills dst devs
    (usbStorReadFrom usb device bounce fuel start blks dst devs).2.1
    (usbStorReadFrom usb device bounce fuel start blks dst devs).2.2 := by
  induction fuel generalizing start blks dst devs with
  | zero => exact .refl
  | succ fuel ih =>
      unfold usbStorReadFrom
      generalize (if USB_MAX_READ_BLK < blks then USB_MAX_READ_BLK else blks) = smallblks
      dsimp only
      have htries := @usbRead10_fills usb dst devs 3
      split
      · next devs' heq =>
        rw [heq] at htries
        exact htries
      · next devs' heq =>
        rw [heq] at htries
        split
        · exact htries.trans deliver_fills
        · exact (htries.trans deliver_fills).trans ih

theorem usbReadDst_fills : Fills dst devs (usbReadDst usb fd n dst devs).1
    (usbReadDst usb fd n dst devs).2 := by
  have herror : ∀ {dst'' : Dest} {devs'' : Devs}, Fills dst devs dst'' devs'' →
      Fills dst devs dst'' { devs'' with errors := devs''.errors + 1 } := by
    rintro dst'' devs'' ⟨h₁, h₂, h₃, h₄, h₅, h₆, h₇, h₈⟩
    exact ⟨h₁, h₂, h₃, h₄, h₅, h₆, h₇, h₈⟩
  unfold usbReadDst usbStorRead
  dsimp only
  split
  · split
    · split
      · exact herror .refl
      · exact .refl
    · have hready := @usbTestUnitReady_fills usb dst devs 11
      split
      · next heq =>
        rw [heq] at hready
        split
        · exact herror hready
        · exact hready
      · next heq =>
        rw [heq] at hready
        split
        · exact herror (hready.trans usbStorReadFrom_fills)
        · exact hready.trans usbStorReadFrom_fills
  · exact .refl

theorem readDevice_fills : Fills dst devs (readDevice usb fd n dst devs).2.1
    (readDevice usb fd n dst devs).2.2 := by
  unfold readDevice
  dsimp only
  split
  · exact usbReadDst_fills
  · exact .refl

/-! ## Reads of blocks that succeed -/

section Succeeds

variable (hok : ∀ k, usb.transport k = true)

include hok

theorem usbTestUnitReady_ok {tries : ℕ} :
    usbTestUnitReady usb (tries + 1) devs =
      (true, { devs with commands := devs.commands + 1 }) := by
  rw [usbTestUnitReady, if_pos (hok _)]

theorem usbRead10_ok {tries : ℕ} :
    usbRead10 usb (tries + 1) devs = (true, { devs with commands := devs.commands + 1 }) := by
  unfold usbRead10
  dsimp only
  rw [if_pos (hok _)]

/-- All blocks are stored in one row.  The first command is the largest one, so it is the one
that may be too long for `bulkbuf`. -/
theorem usbStorReadFrom_ok (hpos : 0 < blks) (hfuel : blks ≤ fuel) :
    ∃ devs', usbStorReadFrom usb device bounce fuel start blks dst devs =
        (0, dst.put (usb.blocks device start blks), devs') ∧
      (devs'.overrun = true ↔ devs.overrun = true ∨
        dst.bytes.length < dst.pos + blks * usb.blksz device ∨
        (bounce = true ∧ devs.bulkbuf.length < min USB_MAX_READ_BLK blks * usb.blksz device)) := by
  induction fuel generalizing start blks dst devs with
  | zero => omega
  | succ fuel ih =>
      have hdeliver : ∀ {m : ℕ} {dst : Dest} {devs : Devs},
          ((deliver bounce (usb.blocks device start m) dst devs).2.overrun = true ↔
            devs.overrun = true ∨ dst.bytes.length < dst.pos + m * usb.blksz device ∨
              (bounce = true ∧ devs.bulkbuf.length < m * usb.blksz device)) := by
        intro m dst devs
        cases bounce <;> simp [deliver, Devs.wrote, or_comm, or_left_comm]
      unfold usbStorReadFrom
      dsimp only
      rw [usbRead10_ok hok]
      dsimp only
      by_cases hsmall : USB_MAX_READ_BLK < blks
      · have hmin : min USB_MAX_READ_BLK blks = USB_MAX_READ_BLK := min_eq_left hsmall.le
        have hsum : USB_MAX_READ_BLK * usb.blksz device +
            (blks - USB_MAX_READ_BLK) * usb.blksz device = blks * usb.blksz device := by
          rw [← Nat.add_mul, Nat.add_sub_cancel' hsmall.le]
        have hrest : min USB_MAX_READ_BLK (blks - USB_MAX_READ_BLK) * usb.blksz device ≤
            USB_MAX_READ_BLK * usb.blksz device :=
          Nat.mul_le_mul_right _ (min_le_left _ _)
        rw [if_pos hsmall, if_neg (by omega), hmin]
        have hfill := @deliver_fills dst { devs with commands := devs.commands + 1 } bounce
          (usb.blocks device start USB_MAX_READ_BLK)
        obtain ⟨devs', heq, hover⟩ := @ih
          (deliver bounce (usb.blocks device start USB_MAX_READ_BLK) dst
            { devs with commands := devs.commands + 1 }).1
          (deliver bounce (usb.blocks device start USB_MAX_READ_BLK) dst
            { devs with commands := devs.commands + 1 }).2
          (start + USB_MAX_READ_BLK) (blks - USB_MAX_READ_BLK)
          (by omega) (by unfold USB_MAX_READ_BLK at *; omega)
        refine ⟨devs', ?_, ?_⟩
        · rw [heq]
          have hblocks : usb.blocks device start blks =
              usb.blocks device start USB_MAX_READ_BLK ++
                usb.blocks device (start + USB_MAX_READ_BLK) (blks - USB_MAX_READ_BLK) := by
            rw [← blocks_add, Nat.add_sub_cancel' hsmall.le]
          simp only [deliver, Dest.put, hblocks, List.length_append, Buffer.put_put,
            Nat.add_assoc]
        · rw [hover, hdeliver, hfill.length, hfill.bulkbuf]
          have hplace : (deliver bounce (usb.blocks device start USB_MAX_READ_BLK) dst
              { devs with commands := devs.commands + 1 }).1.pos =
                dst.pos + USB_MAX_READ_BLK * usb.blksz device := by
            simp [deliver, Dest.put]
          rw [hplace]
          constructor
          · rintro ((ho | hlen | hbulk) | hlen | hbulk)
            · exact Or.inl ho
            · exact Or.inr (Or.inl (by omega))
            · exact Or.inr (Or.inr hbulk)
            · exact Or.inr (Or.inl (by omega))
            · exact Or.inr (Or.inr ⟨hbulk.1, lt_of_lt_of_le hbulk.2 hrest⟩)
          · rintro (ho | hlen | hbulk)
            · exact Or.inl (Or.inl ho)
            · exact Or.inr (Or.inl (by omega))
            · exact Or.inl (Or.inr (Or.inr hbulk))
      · have hmin : min USB_MAX_READ_BLK blks = blks := min_eq_right (Nat.le_of_not_lt hsmall)
        rw [if_neg hsmall, if_pos (Nat.sub_self blks), hmin]
        exact ⟨_, rfl, hdeliver⟩

theorem usbStorRead_ok (hpos : 0 < blks) :
    ∃ devs', usbStorRead usb device bounce start blks dst devs =
        (blks, dst.put (usb.blocks device start blks), devs') ∧
      (devs'.overrun = true ↔ devs.overrun = true ∨
        dst.bytes.length < dst.pos + blks * usb.blksz device ∨
        (bounce = true ∧ devs.bulkbuf.length < min USB_MAX_READ_BLK blks * usb.blksz device)) := by
  obtain ⟨devs', heq, hover⟩ := @usbStorReadFrom_ok usb dst
    { devs with commands := devs.commands + 1 } bounce device start blks blks hok hpos le_rfl
  refine ⟨devs', ?_, hover⟩
  unfold usbStorRead
  rw [if_neg hpos.ne', usbTestUnitReady_ok hok]
  dsimp only
  rw [heq, Nat.sub_zero]

end Succeeds

/-! ## One step of the loop -/

/-- The slot `fd` holds the given device, which is at the offset `o`. -/
structure OpenAt (usb : Usb) (fd : ℤ) (device o : ℕ) (devs : Devs) : Prop where
  size : usb.blksz device = 512 ∨ usb.blksz device = 1024 ∨ usb.blksz device = 2048
  opened : (devs.opendevs fd).openedFlag = true
  devType : (devs.opendevs fd).devType = BLOCK_DEV_USB_STOR_FLAG
  index : (devs.opendevs fd).devIndex = device
  base : (devs.opendevs fd).base = 0
  offs : (devs.opendevs fd).offs = o
  lbuff : devs.lbuff.length = 2 * DEV_BSIZE
  bulkbuf : devs.bulkbuf.length = 24 * 1024

/-- The first byte of the block that is read at the offset `o`, for blocks of `b` bytes. -/
def source (b o : ℕ) : ℕ := o / DEV_BSIZE % 2 ^ 32 / (b / DEV_BSIZE) * b

def edgeLength (o left : ℕ) : ℕ := min (DEV_BSIZE - o % DEV_BSIZE) left

def bodyLength (left : ℕ) : ℕ := min (left - left % DEV_BSIZE) MAXPHYS

theorem btodb_natCast : btodb (o : ℤ) = o / DEV_BSIZE % 2 ^ 32 := by
  unfold btodb
  omega

theorem lbuffStart_lt : usb.lbuffStart < DEV_BSIZE := Nat.mod_lt _ (by decide)

theorem OpenAt.fills (h : OpenAt usb fd device o devs) (hfill : Fills dst devs dst' devs') :
    OpenAt usb fd device o devs' := by
  obtain ⟨h₁, h₂, h₃, h₄, h₅, h₆, h₇, h₈⟩ := h
  rw [← hfill.opendevs] at h₂ h₃ h₄ h₅ h₆
  exact ⟨h₁, h₂, h₃, h₄, h₅, h₆, hfill.lbuff ▸ h₇, hfill.bulkbuf.trans h₈⟩

theorem OpenAt.setOffs (h : OpenAt usb fd device o devs) :
    OpenAt usb fd device n (devs.setOffs fd n) := by
  obtain ⟨h₁, h₂, h₃, h₄, h₅, -, h₇, h₈⟩ := h
  exact ⟨h₁, by rwa [opendevs_setOffs], by rwa [opendevs_setOffs], by rwa [opendevs_setOffs],
    by rwa [opendevs_setOffs], by rw [opendevs_setOffs], h₇, h₈⟩

theorem OpenAt.wrote {l i m : ℕ} (h : OpenAt usb fd device o devs) :
    OpenAt usb fd device o (devs.wrote l i m) :=
  ⟨h.1, h.2, h.3, h.4, h.5, h.6, h.7, h.8⟩

section Steps

variable (hok : ∀ k, usb.transport k = true) (h : OpenAt usb fd device o devs)

include hok h

/-- A read of a device that is open stores whole blocks. -/
theorem readDevice_ok (hn : 0 < n) : ∃ devs', readDevice usb fd n dst devs =
      ((n : ℤ), dst.put (usb.bytes device (source (usb.blksz device) o)
        (howmany n (usb.blksz device) * usb.blksz device)), devs') ∧
    OpenAt usb fd device o devs' ∧ devs'.lbuff = devs.lbuff ∧
    (devs'.overrun = true ↔ devs.overrun = true ∨
      dst.bytes.length < dst.pos + howmany n (usb.blksz device) * usb.blksz device ∨
      ((dst.addr + dst.pos) % 0x80 ≠ 0 ∧ 24 * 1024 <
        min USB_MAX_READ_BLK (howmany n (usb.blksz device)) * usb.blksz device)) := by
  have hsize := h.size
  have hcount : 0 < howmany n (usb.blksz device) := by
    unfold howmany
    rcases hsize with hb | hb | hb <;> rw [hb] <;> omega
  have hfill := @readDevice_fills usb fd dst devs n
  obtain ⟨devs', heq, hover⟩ := @usbStorRead_ok usb dst devs
    (decide ((dst.addr + dst.pos) % 0x80 ≠ 0)) device
    (btodb (devs.opendevs fd).offs / (usb.blksz device / DEV_BSIZE))
    (howmany n (usb.blksz device)) hok hcount
  have hread : readDevice usb fd n dst devs =
      ((n : ℤ), dst.put (usb.bytes device (source (usb.blksz device) o)
        (howmany n (usb.blksz device) * usb.blksz device)), devs') := by
    unfold readDevice usbReadDst
    simp only [h.opened, h.devType, h.index, hsize, heq, and_self, if_true, ne_eq,
      not_true_eq_false, if_false]
    rw [blocks_eq_bytes, h.offs, btodb_natCast]
    rfl
  rw [hread] at hfill
  refine ⟨devs', hread, h.fills hfill, hfill.lbuff, ?_⟩
  rw [hover, h.bulkbuf, decide_eq_true_iff]

theorem readLbuff_ok : ∃ devs', readLbuff usb fd devs = ((DEV_BSIZE : ℤ), devs') ∧
    OpenAt usb fd device o devs' ∧
    devs'.lbuff = Buffer.put devs.lbuff usb.lbuffStart
      (usb.bytes device (source (usb.blksz device) o) (usb.blksz device)) ∧
    (devs'.overrun = true ↔ devs.overrun = true ∨
      2 * DEV_BSIZE < usb.lbuffStart + usb.blksz device) := by
  have hone : howmany DEV_BSIZE (usb.blksz device) = 1 := by
    unfold howmany DEV_BSIZE
    rcases h.size with hb | hb | hb <;> rw [hb]
  have haligned : (usb.lbuffAddr + usb.lbuffStart) % 0x80 = 0 := by
    unfold Usb.lbuffStart DEV_BSIZE
    omega
  obtain ⟨devs', heq, hopen, hlbuff, hover⟩ := @readDevice_ok usb fd
    { addr := usb.lbuffAddr, bytes := devs.lbuff, pos := usb.lbuffStart } devs device o DEV_BSIZE
    hok h (by decide)
  rw [hone, Nat.one_mul] at heq hover
  refine ⟨{ devs' with
      lbuff := Buffer.put devs.lbuff usb.lbuffStart
        (usb.bytes device (source (usb.blksz device) o) (usb.blksz device)) }, ?_, ?_, rfl, ?_⟩
  · unfold readLbuff
    dsimp only
    rw [heq]
    rfl
  · exact ⟨hopen.1, hopen.2, hopen.3, hopen.4, hopen.5, hopen.6, Buffer.length_put.trans h.lbuff,
      hopen.8⟩
  · rw [h.lbuff] at hover
    rw [hover]
    constructor
    · rintro (ho | hlen | ⟨hbounce, -⟩)
      · exact Or.inl ho
      · exact Or.inr hlen
      · exact absurd haligned hbounce
    · rintro (ho | hlen)
      · exact Or.inl ho
      · exact Or.inr (Or.inl hlen)

/-- An edge: part of one sector, by way of `lbuff`. -/
theorem devioReadFrom_edge {ret : ℤ} (hleft : 0 < left)
    (hedge : o % DEV_BSIZE ≠ 0 ∨ left < DEV_BSIZE) :
    ∃ ret' devs', devioReadFrom usb fd (fuel + 1) ret left dst devs =
        devioReadFrom usb fd fuel ret' (left - edgeLength o left)
          (dst.put (usb.bytes device (source (usb.blksz device) o + o % DEV_BSIZE)
            (edgeLength o left))) devs' ∧
      OpenAt usb fd device (o + edgeLength o left) devs' ∧
      (devs'.overrun = true ↔ devs.overrun = true ∨
        2 * DEV_BSIZE < usb.lbuffStart + usb.blksz device ∨
        dst.bytes.length < dst.pos + edgeLength o left) := by
  have hsub : ((devs.opendevs fd).offs % (DEV_BSIZE : ℤ)).toNat = o % DEV_BSIZE := by
    rw [h.offs, ← Int.natCast_emod, Int.toNat_natCast]
  have hsub' : (devs.opendevs fd).offs % (DEV_BSIZE : ℤ) ≠ 0 ∨ left < DEV_BSIZE := by
    rw [h.offs, ← Int.natCast_emod]
    omega
  have hdown : (devs.opendevs fd).offs - (o % DEV_BSIZE : ℕ) = ((o - o % DEV_BSIZE : ℕ) : ℤ) := by
    rw [h.offs]
    exact (Int.ofNat_sub (Nat.mod_le ..)).symm
  obtain ⟨devs', heq, hopen, hlbuff, hover⟩ := readLbuff_ok hok (h.setOffs (n := o - o % DEV_BSIZE))
  have hsource : source (usb.blksz device) (o - o % DEV_BSIZE) = source (usb.blksz device) o := by
    unfold source
    rw [show (o - o % DEV_BSIZE) / DEV_BSIZE = o / DEV_BSIZE by unfold DEV_BSIZE; omega]
  have hstart : usb.lbuffStart < DEV_BSIZE := lbuffStart_lt
  have hsize : DEV_BSIZE ≤ usb.blksz device := by
    unfold DEV_BSIZE
    rcases h.size with hb | hb | hb <;> omega
  have hn : o % DEV_BSIZE + edgeLength o left ≤ DEV_BSIZE := by
    unfold edgeLength DEV_BSIZE
    omega
  have hdata : (devs'.lbuff.drop (usb.lbuffStart + o % DEV_BSIZE)).take (edgeLength o left) =
      usb.bytes device (source (usb.blksz device) o + o % DEV_BSIZE) (edgeLength o left) := by
    rw [hlbuff, hsource]
    apply take_drop_put
    · exact hn.trans hsize
    · have hlength : (devs.setOffs fd ((o - o % DEV_BSIZE : ℕ) : ℤ)).lbuff.length =
          2 * DEV_BSIZE := h.lbuff
      rw [hlength, Nat.add_assoc, Nat.two_mul]
      exact Nat.add_le_add hstart.le hn
  refine ⟨(DEV_BSIZE : ℤ), (devs'.wrote dst.bytes.length dst.pos (edgeLength o left)).setOffs fd
    ((o + edgeLength o left : ℕ) : ℤ), ?_, hopen.wrote.setOffs, ?_⟩
  · have hnext : (devs'.opendevs fd).offs + ((o % DEV_BSIZE : ℕ) + (edgeLength o left : ℕ) : ℤ) =
        ((o + edgeLength o left : ℕ) : ℤ) := by
      have hadd : ∀ r e : ℕ, r ≤ o → ((o - r : ℕ) : ℤ) + (r + e) = ((o + e : ℕ) : ℤ) := by
        intro r e hr
        omega
      rw [hopen.offs]
      exact hadd _ _ (Nat.mod_le ..)
    rw [devioReadFrom]
    dsimp only
    rw [if_neg hleft.ne', if_pos hsub', hsub, hdown, heq]
    dsimp only
    rw [if_neg (by decide)]
    change devioReadFrom usb fd fuel _ (left - edgeLength o left) (dst.put
      ((devs'.lbuff.drop (usb.lbuffStart + o % DEV_BSIZE)).take (edgeLength o left)))
      ((devs'.wrote dst.bytes.length dst.pos (edgeLength o left)).setOffs fd
        ((devs'.opendevs fd).offs + ((o % DEV_BSIZE : ℕ) + (edgeLength o left : ℕ) : ℤ))) = _
    rw [hdata, hnext]
  · have hkept : (devs.setOffs fd ((o - o % DEV_BSIZE : ℕ) : ℤ)).overrun = devs.overrun := rfl
    rw [hkept] at hover
    change (devs'.overrun || decide (dst.bytes.length < dst.pos + edgeLength o left)) = true ↔ _
    rw [Bool.or_eq_true, decide_eq_true_iff, hover, or_assoc]

/-- A body: whole sectors, straight into the destination. -/
theorem devioReadFrom_body {ret : ℤ} (hwhole : o % DEV_BSIZE = 0) (hleft : DEV_BSIZE ≤ left) :
    ∃ ret' devs', devioReadFrom usb fd (fuel + 1) ret left dst devs =
        devioReadFrom usb fd fuel ret' (left - bodyLength left)
          { dst.put (usb.bytes device (source (usb.blksz device) o)
              (howmany (bodyLength left) (usb.blksz device) * usb.blksz device)) with
            pos := dst.pos + bodyLength left } devs' ∧
      OpenAt usb fd device (o + bodyLength left) devs' ∧
      (devs'.overrun = true ↔ devs.overrun = true ∨
        dst.bytes.length < dst.pos +
          howmany (bodyLength left) (usb.blksz device) * usb.blksz device ∨
        ((dst.addr + dst.pos) % 0x80 ≠ 0 ∧ 24 * 1024 <
          min USB_MAX_READ_BLK (howmany (bodyLength left) (usb.blksz device)) *
            usb.blksz device)) := by
  have hbody : (if left % DEV_BSIZE ≠ 0 then min (left - left % DEV_BSIZE) MAXPHYS
      else min left MAXPHYS) = bodyLength left := by
    unfold bodyLength
    split <;> congr 1
    omega
  have hn : 0 < bodyLength left := by
    unfold bodyLength DEV_BSIZE MAXPHYS at *
    omega
  obtain ⟨devs', heq, hopen, -, hover⟩ := @readDevice_ok usb fd dst devs device o
    (bodyLength left) hok h hn
  refine ⟨(bodyLength left : ℤ), devs'.setOffs fd ((o + bodyLength left : ℕ) : ℤ), ?_,
    hopen.setOffs, hover⟩
  rw [devioReadFrom]
  dsimp only
  have hnext : (devs'.opendevs fd).offs + (bodyLength left : ℕ) =
      ((o + bodyLength left : ℕ) : ℤ) := by
    rw [hopen.offs]
    omega
  rw [if_neg (by unfold DEV_BSIZE at hleft; omega), if_neg, hbody, heq]
  · dsimp only
    rw [if_neg (by omega), hnext]
  · rw [h.offs]
    omega

/-- However wrong the bytes are, the offset goes on by what was asked for. -/
theorem devioReadFrom_offs {ret : ℤ} (hfuel : left ≤ fuel) :
    (devioReadFrom usb fd fuel ret left dst devs).2.1 = 0 ∧
      OpenAt usb fd device (o + left) (devioReadFrom usb fd fuel ret left dst devs).2.2.2 := by
  induction fuel generalizing ret left dst devs o with
  | zero =>
      obtain rfl : left = 0 := by omega
      exact ⟨rfl, h⟩
  | succ fuel ih =>
      by_cases hleft : left = 0
      · subst hleft
        rw [devioReadFrom, if_pos rfl]
        exact ⟨rfl, h⟩
      · by_cases hedge : o % DEV_BSIZE ≠ 0 ∨ left < DEV_BSIZE
        · obtain ⟨ret', devs', heq, hopen, -⟩ :=
            @devioReadFrom_edge usb fd dst devs device fuel left o hok h ret (by omega) hedge
          have hlength : 0 < edgeLength o left ∧ edgeLength o left ≤ left := by
            unfold edgeLength DEV_BSIZE
            omega
          rw [heq, show o + left = o + edgeLength o left + (left - edgeLength o left) by omega]
          exact ih hopen (by omega)
        · obtain ⟨ret', devs', heq, hopen, -⟩ :=
            @devioReadFrom_body usb fd dst devs device fuel left o hok h ret (by omega) (by omega)
          have hlength : 0 < bodyLength left ∧ bodyLength left ≤ left := by
            unfold bodyLength DEV_BSIZE MAXPHYS at *
            omega
          rw [heq, show o + left = o + bodyLength left + (left - bodyLength left) by omega]
          exact ih hopen (by omega)

end Steps

/-- Bytes in front of the place where the loop writes are kept, and an overrun stays one. -/
theorem devioReadFrom_keeps {ret : ℤ} :
    (∀ i < dst.pos, (devioReadFrom usb fd fuel ret left dst devs).2.2.1.bytes[i]? =
      dst.bytes[i]?) ∧
    (devs.overrun = true →
      (devioReadFrom usb fd fuel ret left dst devs).2.2.2.overrun = true) := by
  induction fuel generalizing ret left dst devs with
  | zero => exact ⟨fun _ _ => rfl, id⟩
  | succ fuel ih =>
      rw [devioReadFrom]
      dsimp only
      split
      · exact ⟨fun _ _ => rfl, id⟩
      split
      · have hover : ∀ {offs : ℤ}, devs.overrun = true →
            (readLbuff usb fd (devs.setOffs fd offs)).2.overrun = true := by
          intro offs ho
          unfold readLbuff
          exact readDevice_fills.overrun ho
        split
        · exact ⟨fun _ _ => rfl, hover⟩
        · refine ⟨?_, ?_⟩
          · intro i hi
            rw [ih.1 i (Nat.lt_of_lt_of_le hi (Nat.le_add_right _ _))]
            exact Buffer.getElem?_put_of_outside (Or.inl hi)
          · intro ho
            apply ih.2
            change (_ || _) = true
            rw [hover ho, Bool.true_or]
      · generalize (if left % DEV_BSIZE ≠ 0 then min (left - left % DEV_BSIZE) MAXPHYS
          else min left MAXPHYS) = m
        have hfill := @readDevice_fills usb fd dst devs m
        split
        · exact ⟨hfill.before, hfill.overrun⟩
        · refine ⟨?_, fun ho => ih.2 (hfill.overrun ho)⟩
          intro i hi
          rw [ih.1 i (Nat.lt_of_lt_of_le hi (Nat.le_add_right _ _))]
          exact hfill.before i hi

/-! ## Runs that are sound -/

/-- An edge reads from the right block, and the block fits behind the place of `lbuff`. -/
def EdgeOk (b start o : ℕ) : Prop :=
  source b o + o % DEV_BSIZE = o ∧ start + b ≤ 2 * DEV_BSIZE

/-- A body of `n` bytes reads from the right block, is made of whole blocks, and each of its
commands fits into `bulkbuf` where it has to go through it. -/
def BodyOk (b a o n : ℕ) : Prop :=
  source b o = o ∧ n % b = 0 ∧ (a % 0x80 = 0 ∨ min USB_MAX_READ_BLK (n / b) * b ≤ 24 * 1024)

/-- Every step of the loop is in order, for blocks of `b` bytes, `lbuff` at `start` in its
array, and a destination at the address `a`. -/
def Sound (b start : ℕ) : ℕ → ℕ → ℕ → ℕ → Prop
  | 0, _, _, left => left = 0
  | fuel + 1, a, o, left =>
    left = 0 ∨
      if o % DEV_BSIZE ≠ 0 ∨ left < DEV_BSIZE then
        EdgeOk b start o ∧ Sound b start fuel (a + edgeLength o left) (o + edgeLength o left)
          (left - edgeLength o left)
      else
        BodyOk b a o (bodyLength left) ∧ Sound b start fuel (a + bodyLength left)
          (o + bodyLength left) (left - bodyLength left)

/-- The loop has filled the rest of the buffer with the bytes of the device. -/
def FillsExactly (usb : Usb) (fd : ℤ) (device fuel : ℕ) (ret : ℤ) (left o : ℕ) (dst : Dest)
    (devs : Devs) : Prop :=
  (devioReadFrom usb fd fuel ret left dst devs).2.2.1.bytes =
      Buffer.put dst.bytes dst.pos (usb.bytes device o left) ∧
    (devioReadFrom usb fd fuel ret left dst devs).2.2.2.overrun = false

theorem howmany_mul_of_dvd {b : ℕ} (hb : 0 < b) (h : n % b = 0) :
    howmany n b = n / b ∧ howmany n b * b = n := by
  obtain ⟨c, rfl⟩ := Nat.dvd_of_mod_eq_zero h
  have hcount : howmany (b * c) b = c := by
    unfold howmany
    rw [Nat.mul_add_div hb, Nat.div_eq_of_lt (by omega), Nat.add_zero]
  rw [hcount, Nat.mul_div_cancel_left c hb, Nat.mul_comm]
  exact ⟨rfl, rfl⟩

theorem bytes_split (h : n ≤ left) :
    usb.bytes device o left = usb.bytes device o n ++ usb.bytes device (o + n) (left - n) := by
  rw [← bytes_add, Nat.add_sub_cancel' h]

theorem put_advance : ({ dst.put (usb.bytes device o n) with pos := dst.pos + n } : Dest) =
    dst.put (usb.bytes device o n) := by
  simp [Dest.put]

theorem Sound.fillsExactly {ret : ℤ} (hok : ∀ k, usb.transport k = true)
    (h : OpenAt usb fd device o devs) (hfuel : left ≤ fuel)
    (hroom : dst.pos + left ≤ dst.bytes.length) (hover : devs.overrun = false)
    (hs : Sound (usb.blksz device) usb.lbuffStart fuel (dst.addr + dst.pos) o left) :
    FillsExactly usb fd device fuel ret left o dst devs := by
  induction fuel generalizing ret left dst devs o with
  | zero =>
      obtain rfl : left = 0 := by omega
      exact ⟨(Buffer.put_nil).symm, hover⟩
  | succ fuel ih =>
      unfold Sound at hs
      by_cases hleft : left = 0
      · subst hleft
        unfold FillsExactly
        rw [devioReadFrom, if_pos rfl]
        exact ⟨(Buffer.put_nil).symm, hover⟩
      replace hs := hs.resolve_left hleft
      by_cases hedge : o % DEV_BSIZE ≠ 0 ∨ left < DEV_BSIZE
      · rw [if_pos hedge] at hs
        obtain ⟨⟨hsource, hstart⟩, hrest⟩ := hs
        obtain ⟨ret', devs', heq, hopen, hover'⟩ :=
          @devioReadFrom_edge usb fd dst devs device fuel left o hok h ret (by omega) hedge
        have hlength : 0 < edgeLength o left ∧ edgeLength o left ≤ left := by
          unfold edgeLength DEV_BSIZE
          omega
        have hfine : devs'.overrun = false := by
          rw [← Bool.not_eq_true, hover', hover]
          rintro (ho | hlong | hlong)
          · cases ho
          · omega
          · omega
        have hnext : FillsExactly usb fd device fuel ret' (left - edgeLength o left)
            (o + edgeLength o left) (dst.put (usb.bytes device o (edgeLength o left))) devs' := by
          apply ih hopen (by omega) _ hfine
          · rw [show (dst.put (usb.bytes device o (edgeLength o left))).addr +
              (dst.put (usb.bytes device o (edgeLength o left))).pos =
                dst.addr + dst.pos + edgeLength o left by simp [Dest.put, Nat.add_assoc]]
            exact hrest
          · simp only [Dest.put, Buffer.length_put, length_bytes]
            omega
        unfold FillsExactly at hnext ⊢
        rw [heq, hsource]
        refine ⟨hnext.1.trans ?_, hnext.2⟩
        rw [bytes_split hlength.2]
        exact Buffer.put_put rfl
      · rw [if_neg hedge] at hs
        obtain ⟨⟨hsource, hwhole, hbulk⟩, hrest⟩ := hs
        obtain ⟨ret', devs', heq, hopen, hover'⟩ :=
          @devioReadFrom_body usb fd dst devs device fuel left o hok h ret (by omega) (by omega)
        have hlength : 0 < bodyLength left ∧ bodyLength left ≤ left := by
          unfold bodyLength DEV_BSIZE MAXPHYS at *
          omega
        have hb : 0 < usb.blksz device := by
          rcases h.size with hb | hb | hb <;> omega
        obtain ⟨hcount, hmul⟩ := howmany_mul_of_dvd hb hwhole
        rw [hmul, hcount] at hover'
        rw [hmul, hsource] at heq
        have hfine : devs'.overrun = false := by
          rw [← Bool.not_eq_true, hover', hover]
          rintro (ho | hlong | ⟨hbounce, hlong⟩)
          · cases ho
          · omega
          · rcases hbulk with haligned | hshort
            · exact hbounce haligned
            · omega
        rw [put_advance] at heq
        have hnext : FillsExactly usb fd device fuel ret' (left - bodyLength left)
            (o + bodyLength left) (dst.put (usb.bytes device o (bodyLength left))) devs' := by
          apply ih hopen (by omega) _ hfine
          · rw [show (dst.put (usb.bytes device o (bodyLength left))).addr +
              (dst.put (usb.bytes device o (bodyLength left))).pos =
                dst.addr + dst.pos + bodyLength left by simp [Dest.put, Nat.add_assoc]]
            exact hrest
          · simp only [Dest.put, Buffer.length_put, length_bytes]
            omega
        unfold FillsExactly at hnext ⊢
        rw [heq]
        refine ⟨hnext.1.trans ?_, hnext.2⟩
        rw [bytes_split hlength.2]
        exact Buffer.put_put rfl

end Devfs

end LuojiOs
