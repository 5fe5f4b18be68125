import LuojiOs.Flash.SpiFlash

/-!
# Programming the boot rom

The blocks of 64 KB that an image touches are erased, and the image is programmed into them.
The environment variables lie in the middle of a block, so that they are erased with the
image that reaches into it.
-/

namespace LuojiOs

open SpiFlash Bytes

namespace SpiFlash

section Chip

variable {m : Bytes} {a x page i : ℕ} {c : BitVec 8} {data : List (BitVec 8)}

/-- What programming does to bytes that do not wrap in their page. -/
def programmed (a : ℕ) (data : List (BitVec 8)) (m : Bytes) : Bytes :=
  fun x => if a ≤ x then (data[x - a]?).elim (m x) (m x &&& ·) else m x

theorem programmed_nil : programmed a [] m = m := by
  funext x
  unfold programmed
  split
  · rfl
  · rfl

/-- The bytes may be programmed one after the other. -/
theorem programmed_cons :
    programmed a (c :: data) m = programmed (a + 1) data (m.set a (m a &&& c)) := by
  funext x
  unfold programmed
  rcases Nat.lt_trichotomy x a with hlt | rfl | hgt
  · rw [if_neg (by omega), if_neg (by omega), set_of_ne (by omega)]
  · rw [if_pos (Nat.le_refl x), if_neg (by omega), set_self, Nat.sub_self]
    rfl
  · obtain ⟨k, rfl⟩ : ∃ k, x = a + 1 + k := ⟨x - (a + 1), by omega⟩
    have hplace : a + 1 + k - a = k + 1 := by omega
    rw [if_pos (by omega), if_pos (by omega), set_of_ne (by omega), hplace,
      Nat.add_sub_cancel_left, List.getElem?_cons_succ]

theorem programmed_append {rest : List (BitVec 8)} :
    programmed a (data ++ rest) m = programmed (a + data.length) rest (programmed a data m) := by
  induction data generalizing a m with
  | nil => rw [programmed_nil]; rfl
  | cons c data ih =>
      rw [List.cons_append, programmed_cons, programmed_cons, ih, List.length_cons,
        Nat.add_right_comm, Nat.add_assoc]

theorem programPage_of_fits (h : i + data.length ≤ 256) :
    programPage page i data m = programmed (256 * page + i) data m := by
  induction data generalizing i m with
  | nil => exact programmed_nil.symm
  | cons c data ih =>
      rw [List.length_cons] at h
      have hplace : i % 256 = i := Nat.mod_eq_of_lt (by omega)
      unfold programPage
      dsimp only
      rw [hplace, programmed_cons, ih (by omega), Nat.add_assoc]

theorem pageProgram_of_fits (ha : a < 0x1000000) (h : a % 256 + data.length ≤ 256) :
    pageProgram a data m = programmed a data m := by
  have haddress : address a = a := Nat.mod_eq_of_lt ha
  unfold pageProgram
  rw [haddress, programPage_of_fits h, Nat.div_add_mod]

theorem spiFlashWriteArea_eq (h : a + data.length ≤ 0x1000000) :
    spiFlashWriteArea a data m = programmed a data m := by
  induction data generalizing a m with
  | nil => exact programmed_nil.symm
  | cons c data ih =>
      rw [List.length_cons] at h
      have hfits : a % 256 + [c].length ≤ 256 := by
        rw [List.length_singleton]
        omega
      unfold spiFlashWriteArea
      rw [pageProgram_of_fits (by omega) hfits, ih (by omega), programmed_cons, programmed_cons,
        programmed_nil]

/-- Whole pages may be programmed one after the other. -/
theorem writeFastFrom_eq {fuel : ℕ} (hpage : a % 256 = 0) (h : a + data.length ≤ 0x1000000)
    (hfuel : data.length < fuel) : writeFastFrom fuel a data m = programmed a data m := by
  induction fuel generalizing a data m with
  | zero => omega
  | succ fuel ih =>
      unfold writeFastFrom
      split
      · next hpos =>
        split
        · next hfull =>
          have hlen : (data.take 256).length = 256 := List.length_take_of_le hfull
          have hrest : (data.drop 256).length = data.length - 256 := List.length_drop
          rw [pageProgram_of_fits (by omega) (by rw [hpage, hlen]), ih (by omega) (by omega)
            (by omega)]
          conv_rhs => rw [← List.take_append_drop 256 data, programmed_append, hlen]
        · next hshort => exact pageProgram_of_fits (by omega) (by omega)
      · next hempty =>
        have hnil : data = [] := List.eq_nil_of_length_eq_zero (by omega)
        rw [hnil, programmed_nil]

/-- From the beginning of a block on, the blocks that begin before the end are erased. -/
theorem eraseFrom_eq {eaddr fuel : ℕ} (hblock : a % 0x10000 = 0) (hend : eaddr ≤ 0x1000000)
    (hfuel : eaddr - a ≤ fuel) :
    eraseFrom eaddr 0x10000 fuel a m x =
      if a ≤ x ∧ 0x10000 * (x / 0x10000) < eaddr then 0xff else m x := by
  induction fuel generalizing a m with
  | zero =>
      have hnot : ¬(a ≤ x ∧ 0x10000 * (x / 0x10000) < eaddr) := by
        rintro ⟨hle, hlt⟩
        omega
      rw [if_neg hnot]
      rfl
  | succ fuel ih =>
      unfold eraseFrom
      split
      · next hlt =>
        rw [ih (by omega) (by omega)]
        have haddress : address a = a := Nat.mod_eq_of_lt (by omega)
        unfold blockErase
        rw [haddress]
        by_cases hin : x / 0x10000 = a / 0x10000
        · have hwhole : a ≤ x ∧ 0x10000 * (x / 0x10000) < eaddr := by omega
          rw [if_pos hin, ite_self, if_pos hwhole]
        · rw [if_neg hin]
          by_cases hnext : a + 0x10000 ≤ x ∧ 0x10000 * (x / 0x10000) < eaddr
          · have hwhole : a ≤ x ∧ 0x10000 * (x / 0x10000) < eaddr := by omega
            rw [if_pos hnext, if_pos hwhole]
          · have hwhole : ¬(a ≤ x ∧ 0x10000 * (x / 0x10000) < eaddr) := by omega
            rw [if_neg hnext, if_neg hwhole]
      · next hdone =>
        have hnot : ¬(a ≤ x ∧ 0x10000 * (x / 0x10000) < eaddr) := by
          rintro ⟨hle, hlt⟩
          omega
        rw [if_neg hnot]

end Chip

/-! ## The boot rom -/

section BootRom

variable {aai : ℕ → List (BitVec 8) → Bytes → Bytes} {mfg id : BitVec 8} {erase : Bool}
  {image : List (BitVec 8)} {m : Bytes} {x : ℕ}

theorem flFindMap_boot : flFindMap 0xbfc00000 = some ⟨0xbfc00000, 0x80000, 0⟩ := by decide

/-- The flash after the blocks that the image touches were erased. -/
def erased (size : ℕ) (m : Bytes) : Bytes :=
  fun x => if 0x10000 * (x / 0x10000) < size then 0xff else m x

theorem flEraseDevice_boot {size : ℕ} (hsize : size ≤ 0x1000000) :
    flEraseDevice 0xbfc00000 size m = some (erased size m) := by
  unfold flEraseDevice spiFlashEraseArea
  rw [flFindMap_boot]
  refine congrArg some (funext fun x => ?_)
  have hoff : FlMap.offset ⟨0xbfc00000, 0x80000, 0⟩ 0xbfc00000 = 0 := rfl
  dsimp only
  rw [hoff, Nat.zero_add, eraseFrom_eq rfl hsize (Nat.le_refl _)]
  unfold erased
  simp only [Nat.zero_le, true_and]

theorem flKnownDev_makers :
    ∀ dev ∈ flKnownDev, dev.flMfg = 0xbf ∧ dev.flId = 0x8e ∨ dev.flMfg = 0xef := by decide

/-- Each device that is known, but the first one, is programmed page by page, and an unknown
one byte by byte. -/
theorem flProgramDevice_boot (hid : ¬(mfg = 0xbf ∧ id = 0x8e))
    (hsize : image.length ≤ 0x1000000) :
    flProgramDevice aai (flDevident mfg id) 0xbfc00000 image m =
      some (programmed 0 image m) := by
  unfold flProgramDevice
  rw [flFindMap_boot]
  refine congrArg some ?_
  have hoff : FlMap.offset ⟨0xbfc00000, 0x80000, 0⟩ 0xbfc00000 = 0 := rfl
  dsimp only
  rw [hoff]
  have hbytes : 0 + image.length ≤ 0x1000000 := by omega
  cases hdev : flDevident mfg id with
  | none => exact spiFlashWriteArea_eq hbytes
  | some dev =>
      have hfound := List.find?_some hdev
      have hknown := List.mem_of_find?_eq_some hdev
      have hcode : dev.flMfg = mfg ∧ dev.flId = id := of_decide_eq_true hfound
      rcases flKnownDev_makers dev hknown with hsst | hwinbond
      · exact absurd ⟨hcode.1 ▸ hsst.1, hcode.2 ▸ hsst.2⟩ hid
      · dsimp only
        rw [hwinbond, if_neg (by decide), if_pos rfl]
        exact writeFastFrom_eq rfl hbytes (Nat.lt_succ_self _)

/-- The flash after the image was programmed. -/
theorem programmed_erased (image : List (BitVec 8)) (m : Bytes) (x : ℕ) :
    programmed 0 image (erased image.length m) x =
      (image[x]?).getD (erased image.length m x) := by
  unfold programmed
  rw [if_pos (Nat.zero_le x), Nat.sub_zero]
  cases hx : image[x]? with
  | none => rfl
  | some c =>
      have hlt : x < image.length := (List.getElem?_eq_some_iff.mp hx).1
      have herased : erased image.length m x = 0xff := if_pos (by omega)
      rw [Option.elim_some, Option.getD_some, herased]
      exact BitVec.allOnes_and

theorem flVerifyDevice_matches {norDev : Option FlDevice} (hsize : image.length ≤ 0x80000)
    (hmatch : ∀ i < image.length, m i = image.getD i 0) :
    flVerifyDevice norDev erase 0xbfc00000 image m = some m := by
  unfold flVerifyDevice
  rw [flFindMap_boot]
  cases norDev with
  | none => rfl
  | some dev =>
      have hroom : ¬0x80000 < image.length + (0xbfc00000 - 0xbfc00000) := by omega
      have hall : ((List.range image.length).all fun i =>
          m (0xbfc00000 - 0xbfc00000 + i) = image.getD i 0) = true := by
        rw [List.all_eq_true]
        intro i hi
        rw [Nat.sub_self, Nat.zero_add]
        exact decide_eq_true (hmatch i (List.mem_range.mp hi))
      dsimp only
      rw [if_neg hroom, if_pos hall]

theorem tgtFlashprogram_boot (hid : ¬(mfg = 0xbf ∧ id = 0x8e)) (hsize : image.length ≤ 0x80000) :
    tgtFlashprogram aai (flDevident mfg id) erase 0xbfc00000 image m =
      some fun x => (image[x]?).getD (erased image.length m x) := by
  unfold tgtFlashprogram
  rw [flEraseDevice_boot (by omega)]
  have hwhole : programmed 0 image (erased image.length m) =
      fun x => (image[x]?).getD (erased image.length m x) := by
    funext x
    exact programmed_erased image m x
  refine Option.bind_eq_some_iff.mpr ⟨_, rfl, Option.bind_eq_some_iff.mpr
    ⟨_, flProgramDevice_boot hid (by omega), ?_⟩⟩
  rw [hwhole]
  apply flVerifyDevice_matches hsize
  intro i hi
  rw [List.getD_eq_getElem?_getD, List.getElem?_eq_getElem hi, Option.getD_some,
    Option.getD_some]

/-- The image is in the flash, and the sector of the environment variables is as it was. -/
def KeepsEnv (image : List (BitVec 8)) (m : Bytes) (after : Option Bytes) : Prop :=
  ∃ m', after = some m' ∧ (∀ x, NVRAM_POS ≤ x → x < bootRomSize → m' x = m x) ∧
    ∀ i (h : i < image.length), m' i = image[i]

/-- An image that fits below the environment variables keeps them if and only if it ends
before the block in which they lie, or their sector was erased already. -/
theorem tgtFlashprogram_keeps_env_iff (hid : ¬(mfg = 0xbf ∧ id = 0x8e))
    (hpos : 1 ≤ image.length) (hfits : image.length ≤ NVRAM_POS) :
    KeepsEnv image m (tgtFlashprogram aai (flDevident mfg id) erase 0xbfc00000 image m) ↔
      image.length ≤ 0x70000 ∨ ∀ x, NVRAM_POS ≤ x → x < bootRomSize → m x = 0xff := by
  have hsector : NVRAM_POS = 0x75000 ∧ bootRomSize = 0x76000 := by decide
  rw [hsector.1] at hfits
  unfold KeepsEnv
  rw [hsector.1, hsector.2, tgtFlashprogram_boot hid (by omega)]
  have houtside : ∀ x, 0x75000 ≤ x → (image[x]?).getD (erased image.length m x) =
      erased image.length m x := by
    intro x hx
    rw [List.getElem?_eq_none (by omega), Option.getD_none]
  constructor
  · rintro ⟨m', hm', hkeeps, -⟩
    cases hm'
    by_contra hnot
    obtain ⟨hlong, hsome⟩ := not_or.mp hnot
    apply hsome
    intro x hlow hhigh
    have hkept : (image[x]?).getD (erased image.length m x) = m x := hkeeps x hlow hhigh
    rw [houtside x hlow] at hkept
    rw [← hkept]
    exact if_pos (by omega)
  · intro hcond
    refine ⟨_, rfl, ?_, ?_⟩
    · intro x hlow hhigh
      rw [houtside x hlow]
      unfold erased
      rcases hcond with hshort | hempty
      · exact if_neg (by omega)
      · rw [hempty x hlow hhigh, ite_self]
    · intro i hi
      rw [List.getElem?_eq_getElem hi, Option.getD_some]

/-- A short image and any environment. -/
theorem tgtFlashprogram_keeps_env_short :
    KeepsEnv [1, 2, 3] (fun _ => 0x55) (tgtFlashprogram (fun _ _ m => m) (flDevident 0xef 0x13)
      false 0xbfc00000 [1, 2, 3] fun _ => 0x55) :=
  (tgtFlashprogram_keeps_env_iff (by decide) (by decide) (by decide)).mpr (Or.inl (by decide))

/-- An image of one byte more than seven blocks. -/
theorem tgtFlashprogram_loses_env :
    ∃ image : List (BitVec 8), 1 ≤ image.length ∧ image.length ≤ NVRAM_POS ∧
      ¬KeepsEnv image (fun _ => 0) (tgtFlashprogram (fun _ _ m => m) (flDevident 0xef 0x13) false
        0xbfc00000 image fun _ => 0) := by
  obtain ⟨image, hlen⟩ : ∃ image : List (BitVec 8), image.length = 0x70001 :=
    ⟨_, List.length_replicate (a := 0)⟩
  refine ⟨image, by omega, by rw [hlen]; decide, ?_⟩
  rintro ⟨m', hm', hkeeps, -⟩
  rw [tgtFlashprogram_boot (by decide) (by omega)] at hm'
  cases hm'
  have hkept : (image[0x75000]?).getD (erased image.length (fun _ => 0) 0x75000) =
      (0 : BitVec 8) := hkeeps 0x75000 (by decide) (by decide)
  have herased : erased image.length (fun _ => 0) 0x75000 = 0xff := by
    unfold erased
    rw [if_pos (by omega)]
  rw [List.getElem?_eq_none (by omega), Option.getD_none, herased] at hkept
  exact absurd hkept (by decide)

end BootRom

end SpiFlash

end LuojiOs
