import LuojiOs.Files.ExactReads

/-!
# When device reads are exact

`devio_read` counts in sectors of 512 bytes, and the driver in blocks of the device.  For
devices whose blocks are sectors the two always agree.  For larger blocks `devioRead_exact_iff`
says which offsets, lengths and addresses are read rightly.
-/

namespace LuojiOs

namespace Devfs

variable {usb : Usb} {fd : ℤ} {dst : Dest} {devs : Devs} {device fuel left o a b start n : ℕ}

/-! ## A run that is exact is sound -/

/-- The same devices with other bytes on them. -/
def Usb.withContent (usb : Usb) (content : ℕ → ℕ → BitVec 8) : Usb :=
  { usb with content := content }

@[simp] theorem blksz_withContent {content : ℕ → ℕ → BitVec 8} :
    (usb.withContent content).blksz = usb.blksz := rfl

/-- Content that tells the byte at the offset `o` from all others. -/
def markedAt (o : ℕ) : ℕ → ℕ → BitVec 8 := fun _ i => if i = o then 1 else 0

theorem eq_of_markedAt {i : ℕ} (h : markedAt o device i = markedAt o device o) : i = o := by
  unfold markedAt at h
  rw [if_pos rfl] at h
  by_contra hne
  rw [if_neg hne] at h
  exact absurd h (by decide)

/-- Whatever is on the device, some run with the rest of the loop before it is exact. -/
def ExactRuns (usb : Usb) (fd : ℤ) (device fuel a o left : ℕ) : Prop :=
  ∀ content, ∃ dst devs ret, dst.addr + dst.pos = a ∧ dst.bytes.length = dst.pos + left ∧
    OpenAt (usb.withContent content) fd device o devs ∧
    FillsExactly (usb.withContent content) fd device fuel ret left o dst devs

section Step

variable {dst' : Dest} {devs' : Devs} {src m : ℕ} {ret ret' : ℤ}

/-- In an exact run no step has an overrun. -/
theorem FillsExactly.no_overrun
    (hrun : FillsExactly usb fd device (fuel + 1) ret left o dst devs)
    (heq : devioReadFrom usb fd (fuel + 1) ret left dst devs =
      devioReadFrom usb fd fuel ret' n dst' devs') : devs'.overrun = false := by
  unfold FillsExactly at hrun
  rw [heq] at hrun
  rw [← Bool.not_eq_true]
  intro ho
  rw [devioReadFrom_keeps.2 ho] at hrun
  cases hrun.2

/-- The first step of an exact run stores the right byte first. -/
theorem FillsExactly.first_byte
    (hrun : FillsExactly usb fd device (fuel + 1) ret left o dst devs)
    (heq : devioReadFrom usb fd (fuel + 1) ret left dst devs =
      devioReadFrom usb fd fuel ret' n dst' devs')
    (hpos : dst.pos < dst'.pos)
    (hbytes : dst'.bytes = Buffer.put dst.bytes dst.pos (usb.bytes device src m)) (hm : 0 < m)
    (hfits : Buffer.Fits dst.bytes dst.pos m) (hleft : 0 < left)
    (hroom : Buffer.Fits dst.bytes dst.pos left) :
    usb.content device src = usb.content device o := by
  have hput : ∀ {s k : ℕ}, 0 < k → Buffer.Fits dst.bytes dst.pos k →
      (Buffer.put dst.bytes dst.pos (usb.bytes device s k))[dst.pos]? =
        some (usb.content device s) := by
    intro s k hk hfit
    have hplace := Buffer.getElem?_put_of_inside (n := 0) (d := usb.bytes device s k)
      (by rwa [length_bytes]) (by rwa [length_bytes])
    rw [Nat.add_zero] at hplace
    rw [hplace, getElem?_bytes hk, Nat.add_zero]
  unfold FillsExactly at hrun
  rw [heq] at hrun
  have hfirst := (@devioReadFrom_keeps usb fd dst' devs' fuel n ret').1 dst.pos hpos
  rw [hrun.1, hbytes, hput hleft hroom, hput hm hfits] at hfirst
  exact (Option.some.inj hfirst).symm

/-- What is left of an exact run behind a step that was right. -/
theorem FillsExactly.rest (hrun : FillsExactly usb fd device (fuel + 1) ret left o dst devs)
    (heq : devioReadFrom usb fd (fuel + 1) ret left dst devs =
      devioReadFrom usb fd fuel ret' (left - n) (dst.put (usb.bytes device o n)) devs')
    (hn : n ≤ left) : FillsExactly usb fd device fuel ret' (left - n) (o + n)
      (dst.put (usb.bytes device o n)) devs' := by
  unfold FillsExactly at hrun ⊢
  rw [heq] at hrun
  refine ⟨hrun.1.trans ?_, hrun.2⟩
  rw [bytes_split hn]
  exact (Buffer.put_put rfl).symm

end Step

theorem edgeLength_bounds (h : 0 < left) :
    0 < edgeLength o left ∧ edgeLength o left ≤ left := by
  unfold edgeLength DEV_BSIZE
  omega

theorem bodyLength_bounds (h : DEV_BSIZE ≤ left) :
    0 < bodyLength left ∧ bodyLength left ≤ left := by
  unfold bodyLength DEV_BSIZE MAXPHYS at *
  omega

/-- A body of which the last block is cut would not fit into what is left of the buffer. -/
theorem bodyLength_whole (hb : b = 512 ∨ b = 1024 ∨ b = 2048)
    (h : howmany (bodyLength left) b * b ≤ left) : bodyLength left % b = 0 := by
  unfold howmany bodyLength DEV_BSIZE MAXPHYS at *
  rcases hb with rfl | rfl | rfl <;> omega

theorem ExactRuns.sound (hok : ∀ k, usb.transport k = true)
    (h : ExactRuns usb fd device fuel a o left) (hfuel : left ≤ fuel) :
    Sound (usb.blksz device) usb.lbuffStart fuel a o left := by
  induction fuel generalizing a o left with
  | zero => exact Nat.le_zero.mp hfuel
  | succ fuel ih =>
      unfold Sound
      by_cases hleft : left = 0
      · exact Or.inl hleft
      right
      have hok' : ∀ content k, (usb.withContent content).transport k = true := fun _ => hok
      by_cases hedge : o % DEV_BSIZE ≠ 0 ∨ left < DEV_BSIZE
      · rw [if_pos hedge]
        have hlength := edgeLength_bounds (o := o) (Nat.pos_of_ne_zero hleft)
        have hstep : ∀ {content dst devs ret},
            OpenAt (usb.withContent content) fd device o devs → _ := fun {content dst devs ret}
            hopen => @devioReadFrom_edge (usb.withContent content) fd dst devs device fuel left o
              (hok' content) hopen ret (Nat.pos_of_ne_zero hleft) hedge
        have hsource : EdgeOk (usb.blksz device) usb.lbuffStart o := by
          obtain ⟨dst, devs, ret, -, hlen, hopen, hrun⟩ := h (markedAt o)
          obtain ⟨ret', devs', heq, -, hover⟩ := hstep hopen
          have hfine := hrun.no_overrun heq
          have hfit : Buffer.Fits dst.bytes dst.pos (edgeLength o left) := by
            unfold Buffer.Fits
            omega
          constructor
          · refine eq_of_markedAt (?_ : markedAt o device _ = markedAt o device o)
            exact hrun.first_byte heq (Nat.lt_add_of_pos_right
              (by rw [length_bytes]; exact hlength.1)) rfl hlength.1 hfit
              (Nat.pos_of_ne_zero hleft) hlen.ge
          · by_contra hlong
            rw [hover.mpr (Or.inr (Or.inl (Nat.lt_of_not_le hlong)))] at hfine
            cases hfine
        refine ⟨hsource, ih ?_ (by omega)⟩
        intro content
        obtain ⟨dst, devs, ret, haddr, hlen, hopen, hrun⟩ := h content
        obtain ⟨ret', devs', heq, hopen', -⟩ := hstep hopen
        rw [blksz_withContent, hsource.1] at heq
        refine ⟨_, devs', ret', ?_, ?_, hopen', hrun.rest heq hlength.2⟩
        · simp only [Dest.put, length_bytes]
          omega
        · simp only [Dest.put, Buffer.length_put, length_bytes]
          omega
      · rw [if_neg hedge]
        have hleft' : DEV_BSIZE ≤ left := by omega
        have hlength := bodyLength_bounds hleft'
        have hstep : ∀ {content dst devs ret},
            OpenAt (usb.withContent content) fd device o devs → _ := fun {content dst devs ret}
            hopen => @devioReadFrom_body (usb.withContent content) fd dst devs device fuel left o
              (hok' content) hopen ret (by omega) (by omega)
        have hbody : BodyOk (usb.blksz device) a o (bodyLength left) := by
          obtain ⟨dst, devs, ret, haddr, hlen, hopen, hrun⟩ := h (markedAt o)
          obtain ⟨ret', devs', heq, -, hover⟩ := hstep hopen
          have hfine := hrun.no_overrun heq
          rw [blksz_withContent] at heq hover
          have hroom : howmany (bodyLength left) (usb.blksz device) * usb.blksz device ≤ left := by
            by_contra hlong
            rw [hover.mpr (Or.inr (Or.inl (by omega)))] at hfine
            cases hfine
          have hwhole : bodyLength left % usb.blksz device = 0 :=
            bodyLength_whole hopen.size hroom
          have hb : 0 < usb.blksz device := by
            have hsize : usb.blksz device = 512 ∨ usb.blksz device = 1024 ∨
              usb.blksz device = 2048 := hopen.size
            omega
          obtain ⟨hcount, hmul⟩ := howmany_mul_of_dvd hb hwhole
          refine ⟨?_, hwhole, ?_⟩
          · refine eq_of_markedAt (?_ : markedAt o device _ = markedAt o device o)
            have hfit : Buffer.Fits dst.bytes dst.pos
                (howmany (bodyLength left) (usb.blksz device) * usb.blksz device) := by
              unfold Buffer.Fits
              omega
            exact hrun.first_byte heq (Nat.lt_add_of_pos_right hlength.1) rfl
              (by rw [hmul]; exact hlength.1) hfit (Nat.pos_of_ne_zero hleft) hlen.ge
          · by_contra hbulk
            obtain ⟨hbounce, hlong⟩ := not_or.mp hbulk
            rw [hover.mpr (Or.inr (Or.inr ⟨haddr ▸ hbounce, ?_⟩))] at hfine
            · cases hfine
            · rw [hcount]
              omega
        refine ⟨hbody, ih ?_ (by omega)⟩
        intro content
        obtain ⟨dst, devs, ret, haddr, hlen, hopen, hrun⟩ := h content
        obtain ⟨ret', devs', heq, hopen', -⟩ := hstep hopen
        have hb : 0 < usb.blksz device := by
          have hsize : usb.blksz device = 512 ∨ usb.blksz device = 1024 ∨
            usb.blksz device = 2048 := hopen.size
          omega
        rw [blksz_withContent, hbody.1, (howmany_mul_of_dvd hb hbody.2.1).2, put_advance] at heq
        refine ⟨_, devs', ret', ?_, ?_, hopen', hrun.rest heq hlength.2⟩
        · simp only [Dest.put, length_bytes]
          omega
        · simp only [Dest.put, Buffer.length_put, length_bytes]
          omega

/-! ## Arithmetic -/

theorem source_512 (ho : o < 2 ^ 41) : source 512 o + o % DEV_BSIZE = o := by
  unfold source DEV_BSIZE
  omega

theorem sound_zero : Sound b start fuel a o 0 := by
  cases fuel with
  | zero => exact rfl
  | succ fuel => exact Or.inl rfl

/-- Sectors are the blocks of the device: every step is in order. -/
theorem sound_512 (hstart : start < DEV_BSIZE) (hend : o + left ≤ 2 ^ 41) (hfuel : left ≤ fuel) :
    Sound 512 start fuel a o left := by
  induction fuel generalizing a o left with
  | zero => exact Nat.le_zero.mp hfuel
  | succ fuel ih =>
      unfold Sound
      by_cases hleft : left = 0
      · exact Or.inl hleft
      have hsource := source_512 (o := o) (by omega)
      right
      split
      · have hlength := edgeLength_bounds (o := o) (Nat.pos_of_ne_zero hleft)
        refine ⟨⟨hsource, ?_⟩, ih (by omega) (by omega)⟩
        unfold DEV_BSIZE at *
        omega
      · next hedge =>
        have hleft' : DEV_BSIZE ≤ left := by omega
        have hlength := bodyLength_bounds hleft'
        refine ⟨⟨?_, ?_, ?_⟩, ih (by omega) (by omega)⟩
        · omega
        · unfold bodyLength DEV_BSIZE MAXPHYS
          omega
        · right
          unfold USB_MAX_READ_BLK
          omega

/-- Larger blocks, from the beginning of one on: whole blocks, where the last sector that is
read has a number of 32 bits and `bulkbuf` is large enough; or, for blocks of 1024 bytes, also
a part of the first sector of one more block, where `lbuff` has room for it. -/
def ReadsBlocks (b start a o left : ℕ) : Prop :=
  (left % b = 0 ∧ o + (left - 1) / MAXPHYS * MAXPHYS < 2 ^ 41 ∧
      (a % 0x80 = 0 ∨ b = 1024 ∨ left ≤ 24 * 1024)) ∨
    (b = 1024 ∧ start = 0 ∧ 0 < left % b ∧ left % b < DEV_BSIZE ∧ o + left - left % b < 2 ^ 41)

theorem source_eq_iff (hb : b = 1024 ∨ b = 2048) :
    source b o + o % DEV_BSIZE = o ↔ o % b < DEV_BSIZE ∧ o < 2 ^ 41 := by
  unfold source DEV_BSIZE
  rcases hb with rfl | rfl <;> omega

/-- A step of the largest length, with more to read behind it. -/
theorem readsBlocks_full (hb : b = 1024 ∨ b = 2048) (hright : source b o = o ↔ o < 2 ^ 41)
    (hleft : MAXPHYS < left) : BodyOk b a o MAXPHYS ∧
      ReadsBlocks b start (a + MAXPHYS) (o + MAXPHYS) (left - MAXPHYS) ↔
    ReadsBlocks b start a o left := by
  have hstep : o + MAXPHYS + (left - MAXPHYS - 1) / MAXPHYS * MAXPHYS =
      o + (left - 1) / MAXPHYS * MAXPHYS := by
    unfold MAXPHYS at *
    omega
  have hmod : (left - MAXPHYS) % b = left % b := by
    unfold MAXPHYS at *
    rcases hb with rfl | rfl <;> omega
  have halign : (a + MAXPHYS) % 0x80 = a % 0x80 := by
    unfold MAXPHYS
    omega
  have hend : o + MAXPHYS + (left - MAXPHYS) = o + left := by omega
  have hfirst : BodyOk b a o MAXPHYS ↔ o < 2 ^ 41 ∧ (a % 0x80 = 0 ∨ b = 1024) := by
    unfold BodyOk MAXPHYS USB_MAX_READ_BLK
    rw [hright]
    rcases hb with rfl | rfl <;> omega
  have hsum : o ≤ o + (left - 1) / MAXPHYS * MAXPHYS := Nat.le_add_right ..
  rw [hfirst]
  unfold ReadsBlocks
  rw [hstep, hmod, halign, hend]
  have hlarge : ¬left ≤ 24 * 1024 := by
    unfold MAXPHYS at hleft
    omega
  constructor
  · rintro ⟨⟨-, hbulk⟩, ⟨hwhole, hlast, -⟩ | hcut⟩
    · exact Or.inl ⟨hwhole, hlast, hbulk.imp_right Or.inl⟩
    · exact Or.inr hcut
  · rintro (⟨hwhole, hlast, hbulk⟩ | hcut)
    · have hbulk' : a % 0x80 = 0 ∨ b = 1024 :=
        hbulk.imp_right fun h => h.resolve_right hlarge
      exact ⟨⟨hsum.trans_lt hlast, hbulk'⟩, Or.inl ⟨hwhole, hlast, hbulk'.imp_right Or.inl⟩⟩
    · refine ⟨⟨?_, Or.inr hcut.1⟩, Or.inr hcut⟩
      obtain ⟨-, -, -, hshort, hend'⟩ := hcut
      unfold DEV_BSIZE at hshort
      omega

/-- The last whole sectors, with part of one behind them. -/
theorem readsBlocks_tail (hb : b = 1024 ∨ b = 2048) (hright : source b o = o ↔ o < 2 ^ 41)
    (hn : 0 < n) (hwhole : n % DEV_BSIZE = 0) (hrest : 0 < left - n)
    (htail : left - n < DEV_BSIZE) : BodyOk b a o n ∧
      ReadsBlocks b start (a + n) (o + n) (left - n) ↔ ReadsBlocks b start a o left := by
  have hcut : left % b ≠ 0 ∧ (left - n) % b = left - n := by
    unfold DEV_BSIZE at *
    rcases hb with rfl | rfl <;> omega
  have hblocks : n % b = 0 ↔ left % b < DEV_BSIZE := by
    unfold DEV_BSIZE at *
    rcases hb with rfl | rfl <;> omega
  have hmod : n % b = 0 → left % b = left - n := by
    unfold DEV_BSIZE at *
    rcases hb with rfl | rfl <;> omega
  unfold ReadsBlocks
  rw [hcut.2, or_iff_right (fun h => hrest.ne' h.1), or_iff_right (fun h => hcut.1 h.1)]
  constructor
  · rintro ⟨⟨-, hwhole, -⟩, hb, hstart, -, -, hend⟩
    rw [hmod hwhole]
    exact ⟨hb, hstart, hrest, htail, by omega⟩
  · rintro ⟨hb, hstart, -, hshort, hend⟩
    have hwhole := hblocks.mpr hshort
    rw [hmod hwhole] at hend
    refine ⟨⟨hright.mpr (by omega), hwhole, Or.inr ?_⟩, hb, hstart, hrest, htail, by omega⟩
    subst hb
    unfold USB_MAX_READ_BLK
    omega

/-- A block behind `lbuff` ends inside the array only if it takes the array up. -/
theorem edge_room_iff (hb : b = 1024 ∨ b = 2048) :
    start + b ≤ 2 * DEV_BSIZE ↔ b = 1024 ∧ start = 0 := by
  unfold DEV_BSIZE
  rcases hb with rfl | rfl <;> omega

/-- Less than a sector, from the beginning of a block on. -/
theorem readsBlocks_edge (hb : b = 1024 ∨ b = 2048) (ho : o % b = 0) (hleft : 0 < left)
    (hshort : left < DEV_BSIZE) : EdgeOk b start o ↔ ReadsBlocks b start a o left := by
  have hmod : left % b = left := by
    unfold DEV_BSIZE at hshort
    exact Nat.mod_eq_of_lt (by omega)
  unfold EdgeOk ReadsBlocks
  rw [source_eq_iff hb, edge_room_iff hb, hmod, or_iff_right fun h => hleft.ne' h.1,
    Nat.add_sub_cancel, ho]
  constructor
  · rintro ⟨⟨-, hrange⟩, hblock, hstart⟩
    exact ⟨hblock, hstart, hleft, hshort, hrange⟩
  · rintro ⟨hblock, hstart, -, -, hrange⟩
    exact ⟨⟨by decide, hrange⟩, hblock, hstart⟩

/-- The last step, of whole sectors. -/
theorem readsBlocks_last (hb : b = 1024 ∨ b = 2048) (hright : source b o = o ↔ o < 2 ^ 41)
    (hleft : left ≤ MAXPHYS) (hsectors : left % DEV_BSIZE = 0) :
    BodyOk b a o left ↔ ReadsBlocks b start a o left := by
  have hcut : ¬(b = 1024 ∧ start = 0 ∧ 0 < left % b ∧ left % b < DEV_BSIZE ∧
      o + left - left % b < 2 ^ 41) := by
    rintro ⟨rfl, -, hpos, hshort, -⟩
    unfold DEV_BSIZE at *
    omega
  have hlast : (left - 1) / MAXPHYS = 0 := by
    unfold MAXPHYS at *
    omega
  have hbulk (hwhole : left % b = 0) :
      min USB_MAX_READ_BLK (left / b) * b ≤ 24 * 1024 ↔ b = 1024 ∨ left ≤ 24 * 1024 := by
    unfold MAXPHYS at hleft
    unfold USB_MAX_READ_BLK
    rcases hb with rfl | rfl <;> omega
  unfold BodyOk ReadsBlocks
  rw [or_iff_left hcut, hlast, Nat.zero_mul, Nat.add_zero, hright]
  constructor
  · rintro ⟨hrange, hwhole, hroom⟩
    exact ⟨hwhole, hrange, hroom.imp_right (hbulk hwhole).mp⟩
  · rintro ⟨hwhole, hrange, hroom⟩
    exact ⟨hrange, hwhole, hroom.imp_right (hbulk hwhole).mpr⟩

theorem sound_aligned_iff (hb : b = 1024 ∨ b = 2048) (ho : o % b = 0) (hleft : 0 < left)
    (hfuel : left ≤ fuel) : Sound b start fuel a o left ↔ ReadsBlocks b start a o left := by
  induction fuel generalizing a o left with
  | zero => omega
  | succ fuel ih =>
      have hsource := source_eq_iff (b := b) (o := o) hb
      have hsector : o % DEV_BSIZE = 0 := by
        unfold DEV_BSIZE
        rcases hb with rfl | rfl <;> omega
      unfold Sound
      rw [or_iff_right hleft.ne']
      split
      · next hedge =>
        have hshort : left < DEV_BSIZE := hedge.resolve_left (not_not.mpr hsector)
        have hwhole : edgeLength o left = left := by
          unfold edgeLength
          rw [hsector, Nat.sub_zero]
          exact min_eq_right hshort.le
        rw [hwhole, Nat.sub_self, and_iff_left sound_zero]
        exact readsBlocks_edge hb ho hleft hshort
      · next hbody =>
        have hleft' : DEV_BSIZE ≤ left := by omega
        have hlength := bodyLength_bounds hleft'
        have hright : source b o = o ↔ o < 2 ^ 41 := by
          rw [hsector, Nat.add_zero] at hsource
          rw [hsource, ho]
          exact and_iff_right (by decide)
        by_cases hrest : left - bodyLength left = 0
        · have hwhole : bodyLength left = left := by omega
          have hlast : left ≤ MAXPHYS ∧ left % DEV_BSIZE = 0 := by
            unfold bodyLength DEV_BSIZE MAXPHYS at *
            omega
          rw [hrest, and_iff_left sound_zero, hwhole]
          exact readsBlocks_last hb hright hlast.1 hlast.2
        · have hsound : BodyOk b a o (bodyLength left) ∧
              Sound b start fuel (a + bodyLength left) (o + bodyLength left)
                (left - bodyLength left) ↔
              BodyOk b a o (bodyLength left) ∧ ReadsBlocks b start (a + bodyLength left)
                (o + bodyLength left) (left - bodyLength left) := by
            apply and_congr_right
            rintro ⟨-, hmod, -⟩
            apply ih _ (Nat.pos_of_ne_zero hrest) (by omega)
            rw [Nat.add_mod, ho, hmod, Nat.zero_mod]
          rw [hsound]
          by_cases hfull : bodyLength left = MAXPHYS
          · rw [hfull] at hlength hrest ⊢
            exact readsBlocks_full hb hright (by omega)
          · have htail : left - bodyLength left = left % DEV_BSIZE ∧
                bodyLength left % DEV_BSIZE = 0 := by
              unfold bodyLength DEV_BSIZE MAXPHYS at *
              omega
            exact readsBlocks_tail hb hright (by omega) htail.2 (by omega)
              (htail.1 ▸ Nat.mod_lt _ (by decide))

/-- A sector that is not the first one of its block is not read from the right place. -/
theorem not_sound_inside (hb : b = 1024 ∨ b = 2048) (ho : o % b ≠ 0) (hsector : o % DEV_BSIZE = 0)
    (hleft : 0 < left) (hfuel : left ≤ fuel) : ¬Sound b start fuel a o left := by
  obtain ⟨fuel, rfl⟩ := Nat.exists_eq_succ_of_ne_zero (by omega : fuel ≠ 0)
  have hwrong : source b o + o % DEV_BSIZE ≠ o := by
    intro h
    have hlt := ((source_eq_iff hb).mp h).1
    unfold DEV_BSIZE at *
    rcases hb with rfl | rfl <;> omega
  intro hs
  unfold Sound at hs
  replace hs := hs.resolve_left hleft.ne'
  split at hs
  · exact hwrong hs.1.1
  · apply hwrong
    rw [hsector]
    exact hs.1.1

theorem sound_unaligned_iff (hb : b = 1024 ∨ b = 2048) (ho : o % b ≠ 0) (hleft : 0 < left)
    (hfuel : left ≤ fuel) : Sound b start fuel a o left ↔
      b = 1024 ∧ start = 0 ∧ o % b + left ≤ DEV_BSIZE ∧ o < 2 ^ 41 := by
  by_cases hsector : o % DEV_BSIZE = 0
  · constructor
    · intro hs
      exact absurd hs (not_sound_inside hb ho hsector hleft hfuel)
    · rintro ⟨-, -, hshort, -⟩
      unfold DEV_BSIZE at *
      rcases hb with rfl | rfl <;> omega
  obtain ⟨fuel, rfl⟩ := Nat.exists_eq_succ_of_ne_zero (by omega : fuel ≠ 0)
  have hlength := edgeLength_bounds (o := o) hleft
  unfold Sound
  rw [or_iff_right hleft.ne', if_pos (Or.inl hsector)]
  unfold EdgeOk
  rw [source_eq_iff hb, edge_room_iff hb]
  constructor
  · rintro ⟨⟨⟨hfirst, hrange⟩, hblock, hstart⟩, hrest⟩
    refine ⟨hblock, hstart, ?_, hrange⟩
    by_contra hlong
    have hedge : edgeLength o left = DEV_BSIZE - o % DEV_BSIZE := by
      unfold edgeLength DEV_BSIZE at *
      rcases hb with rfl | rfl <;> omega
    revert hrest
    apply not_sound_inside hb
    · rw [hedge]
      unfold DEV_BSIZE at *
      rcases hb with rfl | rfl <;> omega
    · rw [hedge]
      unfold DEV_BSIZE
      omega
    · rw [hedge]
      unfold DEV_BSIZE at *
      rcases hb with rfl | rfl <;> omega
    · omega
  · rintro ⟨hb, hstart, hshort, hrange⟩
    have hedge : edgeLength o left = left := by
      subst hb
      unfold edgeLength DEV_BSIZE at *
      omega
    refine ⟨⟨⟨by omega, hrange⟩, hb, hstart⟩, ?_⟩
    rw [hedge, Nat.sub_self]
    exact sound_zero

/-! ## The call -/

/-- `devio_read` of the whole buffer `dst` stores the bytes of the device from `o` on, whatever
they are, writes nowhere else, and advances the offset. -/
def ReadsExactly (usb : Usb) (fd : ℤ) (device o : ℕ) (dst : Dest) (devs : Devs) : Prop :=
  ∀ content, ∃ ret dst' devs',
    devioRead (usb.withContent content) fd dst dst.bytes.length devs = (ret, dst', devs') ∧
      dst'.bytes = (usb.withContent content).bytes device o dst.bytes.length ∧
      devs'.overrun = false ∧ (devs'.opendevs fd).offs = (o + dst.bytes.length : ℕ)

section Call

variable (hok : ∀ k, usb.transport k = true) (h : OpenAt usb fd device o devs)
  (hover : devs.overrun = false) (hpos : dst.pos = 0)

include hok h hover hpos

theorem readsExactly_iff_sound : ReadsExactly usb fd device o dst devs ↔
    Sound (usb.blksz device) usb.lbuffStart dst.bytes.length dst.addr o dst.bytes.length := by
  have hopen : ∀ content, OpenAt (usb.withContent content) fd device o devs := fun _ =>
    ⟨h.1, h.2, h.3, h.4, h.5, h.6, h.7, h.8⟩
  have hbase : ¬(devs.opendevs fd).offs < (devs.opendevs fd).base := by
    rw [h.offs, h.base]
    omega
  by_cases hlen : dst.bytes.length = 0
  · rw [hlen]
    refine iff_of_true ?_ sound_zero
    intro content
    refine ⟨0, dst, devs, ?_, ?_, hover, ?_⟩
    · unfold devioRead
      dsimp only
      rw [if_neg hbase, if_pos hlen]
    · rw [hlen, List.length_eq_zero_iff.mp hlen]
      rfl
    · rw [hlen, Nat.add_zero, h.offs]
  have hcall : ∀ content, ∃ ret,
      devioRead (usb.withContent content) fd dst dst.bytes.length devs =
        (ret, (devioReadFrom (usb.withContent content) fd dst.bytes.length 0 dst.bytes.length dst
          devs).2.2) := by
    intro content
    unfold devioRead
    dsimp only
    rw [if_neg hbase, if_neg hlen]
    exact ⟨_, rfl⟩
  have hwhole : ∀ content, Buffer.put dst.bytes dst.pos
      ((usb.withContent content).bytes device o dst.bytes.length) =
        (usb.withContent content).bytes device o dst.bytes.length := by
    intro content
    rw [hpos]
    exact Buffer.put_all length_bytes
  constructor
  · intro hexact
    have hruns : ExactRuns usb fd device dst.bytes.length dst.addr o dst.bytes.length := by
      intro content
      obtain ⟨ret, dst', devs', heq, hbytes, hfine, -⟩ := hexact content
      obtain ⟨ret', hret⟩ := hcall content
      have hout := congrArg Prod.snd (hret.symm.trans heq)
      refine ⟨dst, devs, 0, by omega, by omega, hopen content, ?_⟩
      unfold FillsExactly
      dsimp only at hout
      rw [hout, hwhole]
      exact ⟨hbytes, hfine⟩
    exact hruns.sound hok le_rfl
  · intro hs content
    have hplace : dst.addr = dst.addr + dst.pos := by omega
    rw [hplace] at hs
    have hfills := @Sound.fillsExactly (usb.withContent content) fd dst devs device
      dst.bytes.length dst.bytes.length o 0 hok (hopen content) le_rfl (by omega) hover hs
    unfold FillsExactly at hfills
    rw [hwhole] at hfills
    have hoffs := @devioReadFrom_offs (usb.withContent content) fd dst devs device
      dst.bytes.length dst.bytes.length o hok (hopen content) 0 le_rfl
    obtain ⟨ret, hret⟩ := hcall content
    exact ⟨ret, _, _, hret, hfills.1, hfills.2, hoffs.2.offs⟩

end Call

/-- The blocks of `b` bytes that make a read exact: sectors always do; of larger blocks whole
ones, or a part of one sector at the beginning of a block that fits into `lbuff`. -/
def ReadsRightly (b start a o len : ℕ) : Prop :=
  len = 0 ∨ b = 512 ∨ (o % b = 0 ∧ ReadsBlocks b start a o len) ∨
    (o % b ≠ 0 ∧ b = 1024 ∧ start = 0 ∧ o % b + len ≤ DEV_BSIZE ∧ o < 2 ^ 41)

/-- Where all commands succeed, a read of bytes that the device has is exact if and only if its
blocks are sectors or the read keeps to its blocks. -/
theorem devioRead_exact_iff (hok : ∀ k, usb.transport k = true)
    (h : OpenAt usb fd device o devs) (hover : devs.overrun = false) (hpos : dst.pos = 0)
    (hend : o + dst.bytes.length ≤ 2 ^ 32 * usb.blksz device) :
    ReadsExactly usb fd device o dst devs ↔
      ReadsRightly (usb.blksz device) usb.lbuffStart dst.addr o dst.bytes.length := by
  rw [readsExactly_iff_sound hok h hover hpos]
  by_cases hlen : dst.bytes.length = 0
  · rw [hlen]
    exact iff_of_true sound_zero (Or.inl rfl)
  unfold ReadsRightly
  rw [or_iff_right hlen]
  by_cases hsector : usb.blksz device = 512
  · refine iff_of_true ?_ (Or.inl hsector)
    rw [hsector] at hend ⊢
    exact sound_512 lbuffStart_lt (by omega) le_rfl
  rw [or_iff_right hsector]
  have hb := h.size.resolve_left hsector
  by_cases ho : o % usb.blksz device = 0
  · rw [sound_aligned_iff hb ho (Nat.pos_of_ne_zero hlen) le_rfl, and_iff_right ho,
      or_iff_left fun hcut => hcut.1 ho]
  · rw [sound_unaligned_iff hb ho (Nat.pos_of_ne_zero hlen) le_rfl, and_iff_right ho,
      or_iff_right fun hcut => ho hcut.1]

/-- One device with blocks of `b` bytes, all of whose commands succeed. -/
def oneUsb (b : ℕ) : Usb where
  found := [⟨cstr "usb0", 0⟩]
  blksz := fun _ => b
  content := fun _ _ => 0
  transport := fun _ => true
  lbuffAddr := 0

/-- It is open in the slot 0, at the offset `o`. -/
def oneOpen (o : ℕ) : Devs where
  opendevs := fun _ => ⟨BLOCK_DEV_USB_STOR_FLAG, 0, true, 0, o⟩
  lbuff := List.replicate (2 * DEV_BSIZE) 0
  bulkbuf := List.replicate (24 * 1024) 0
  commands := 0
  errors := 0
  overrun := false

theorem oneOpen_at (hb : b = 512 ∨ b = 1024 ∨ b = 2048) :
    OpenAt (oneUsb b) 0 0 o (oneOpen o) :=
  ⟨hb, rfl, rfl, rfl, rfl, rfl, List.length_replicate, List.length_replicate⟩

/-- Seven bytes across the end of a sector. -/
theorem devioRead_exact_sectors :
    ReadsExactly (oneUsb 512) 0 0 510 ⟨0x81000001, List.replicate 7 0, 0⟩ (oneOpen 510) :=
  (devioRead_exact_iff (fun _ => rfl) (oneOpen_at (by decide)) rfl rfl (by decide)).mpr
    (Or.inr (Or.inl rfl))

/-- The second sector of a block of 1024 bytes. -/
theorem devioRead_not_exact : ¬ReadsExactly (oneUsb 1024) 0 0 512
    ⟨0x81000000, List.replicate 512 0, 0⟩ (oneOpen 512) := by
  rw [readsExactly_iff_sound (fun _ => rfl) (oneOpen_at (by decide)) rfl rfl,
    List.length_replicate]
  exact not_sound_inside (Or.inl rfl) (by decide) (by decide) (by decide) (Nat.le_refl 512)

end Devfs

end LuojiOs
