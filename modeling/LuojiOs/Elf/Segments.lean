import LuojiOs.Support.Patches
import Mathlib.Algebra.Group.Nat.Defs
import Mathlib.Data.Int.Notation

/-!
# Loading segments

`load_elf` without flags, for a file that is not compressed, from the program headers on and up to
the end of its loop over the segments.  The messages are left out, and so is what is computed for
the flag `KFLAG` only.
-/

namespace LuojiOs

namespace Elf

open Patches

/-! ## Memory and files -/

abbrev Memory := BitVec 32 → BitVec 8

/-- The `n` bytes from the address `a` on are set to those of `f`. -/
def Memory.fill (m : Memory) (a : BitVec 32) (n : ℕ) (f : ℕ → BitVec 8) : Memory :=
  fun x => if (x - a).toNat < n then f (x - a).toNat else m x

/-- A file that has been opened. -/
structure ElfFile where
  content : ℕ → BitVec 8
  /-- Whether `lseek` to a place returns this place -/
  lseek : BitVec 32 → Bool
  /-- What `read` returns at a place, for a size -/
  read : BitVec 32 → BitVec 32 → ℤ

/-- The memory with the addresses between which it has been modified, and the position in the
file. -/
structure Loader where
  mem : Memory
  dlMinaddr : BitVec 32
  dlMaxaddr : BitVec 32
  pos : BitVec 32

/-- `Elf32_Phdr`, as far as it is read. -/
structure Phdr where
  pType : BitVec 32
  pOffset : BitVec 32
  pVaddr : BitVec 32
  pFilesz : BitVec 32
  pMemsz : BitVec 32
  deriving DecidableEq

def PT_NULL : BitVec 32 := 0

def PT_LOAD : BitVec 32 := 1

/-! ## The loader -/

section Loading

variable (file : ElfFile) (dlOffset : BitVec 32)

namespace Loader

def lseek (offs : BitVec 32) (s : Loader) : Bool × Loader :=
  if file.lseek offs then (true, { s with pos := offs }) else (false, s)

def read (addr size : BitVec 32) (s : Loader) : ℤ × Loader :=
  let i := file.read s.pos size
  (i, { s with
    mem := s.mem.fill addr i.toNat fun k => file.content (s.pos.toNat + k)
    pos := s.pos + BitVec.ofInt 32 i })

end Loader

/-- `md_valid_load_addr`, in which the tests are commented out -/
def mdValidLoadAddr (_ _ : BitVec 32) : Bool := false

def dlCheckloadaddr (vaddr size : BitVec 32) : Bool := !mdValidLoadAddr vaddr (vaddr + size)

def dlChecksetloadaddr (vaddr size : BitVec 32) (s : Loader) : Bool × Loader :=
  if ¬dlCheckloadaddr vaddr size then (false, s)
  else
    (true, { s with
      dlMinaddr := if vaddr < s.dlMinaddr then vaddr else s.dlMinaddr
      dlMaxaddr := if vaddr + size > s.dlMaxaddr then vaddr + size else s.dlMaxaddr })

def bootread (addr size : BitVec 32) (s : Loader) : ℤ × Loader :=
  match dlChecksetloadaddr (addr + dlOffset) size s with
  | (false, s) => (-1, s)
  | (true, s) =>
    let (i, s) := s.read file (addr + dlOffset) size
    if i < size.toInt then (-1, s) else (size.toInt, s)

def bootclear (addr size : BitVec 32) (s : Loader) : ℤ × Loader :=
  if ¬dlCheckloadaddr (addr + dlOffset) size then (-1, s)
  else if 0 < size.toInt then
    (size.toInt, { s with mem := s.mem.fill (addr + dlOffset) size.toNat fun _ => 0 })
  else (size.toInt, s)

/-- The scan for the nearest loadable segment, from the header `i` on. -/
def nearestFrom : List Phdr → ℕ → BitVec 32 → Option (ℕ × Phdr) → Option (ℕ × Phdr)
  | [], _, _, found => found
  | ph :: phtab, i, lowestOffset, found =>
    if ph.pType = PT_LOAD ∧ ph.pOffset < lowestOffset then
      nearestFrom phtab (i + 1) ph.pOffset (some (i, ph))
    else nearestFrom phtab (i + 1) lowestOffset found

def nearest (phtab : List Phdr) : Option (ℕ × Phdr) := nearestFrom phtab 0 (~~~0) none

/-- The bytes of a segment that are in the file. -/
def readSegment (ph : Phdr) (s : Loader) : Bool × Loader :=
  if ph.pFilesz = 0 then (true, s)
  else
    match s.lseek file ph.pOffset with
    | (false, s) => (false, s)
    | (true, s) =>
      let (ret, s) := bootread file dlOffset ph.pVaddr ph.pFilesz s
      (decide (BitVec.ofInt 32 ret = ph.pFilesz), s)

/-- A round of the loop, which ends the function if the segment cannot be read. -/
def loadSegment (ph : Phdr) (s : Loader) : Bool × Loader :=
  match readSegment file dlOffset ph s with
  | (false, s) => (false, s)
  | (true, s) =>
    if ph.pFilesz < ph.pMemsz then
      (true, (bootclear dlOffset (ph.pVaddr + ph.pFilesz) (ph.pMemsz - ph.pFilesz) s).2)
    else (true, s)

/-- The loop: whether all segments have been loaded, if it ends in this number of rounds. -/
def loadSegments : ℕ → List Phdr → Loader → Option (Bool × Loader)
  | 0, _, _ => none
  | rounds + 1, phtab, s =>
    match nearest phtab with
    | none => some (true, s)
    | some (i, ph) =>
      match loadSegment file dlOffset ph s with
      | (false, s) => some (false, s)
      | (true, s) => loadSegments rounds (phtab.set i { ph with pType := PT_NULL }) s

end Loading

/-! ## What a segment leaves -/

namespace Phdr

def loadable (ph : Phdr) : Bool := ph.pType = PT_LOAD

/-- The sizes and the place of a segment. -/
structure Proper (ph : Phdr) : Prop where
  filesz_le : ph.pFilesz ≤ ph.pMemsz
  memsz_lt : ph.pMemsz.toNat < 2 ^ 31
  offset_lt : ph.pOffset.toNat < 2 ^ 31

variable (file : ElfFile) (dlOffset : BitVec 32)

/-- The bytes of the segment can be read. -/
structure Reads (ph : Phdr) : Prop where
  lseek : ph.pFilesz ≠ 0 → file.lseek ph.pOffset = true
  read : ph.pFilesz ≠ 0 → file.read ph.pOffset ph.pFilesz = ph.pFilesz.toNat

/-- The bytes of the file, and zeros behind them. -/
def patch (ph : Phdr) (x : BitVec 32) : Option (BitVec 8) :=
  let k := (x - (ph.pVaddr + dlOffset)).toNat
  if k < ph.pFilesz.toNat then some (file.content (ph.pOffset.toNat + k))
  else if k < ph.pMemsz.toNat then some 0
  else none

/-- Segments without bytes in the file do not count for the addresses. -/
def lower (a : BitVec 32) (ph : Phdr) : BitVec 32 :=
  if ph.pFilesz ≠ 0 ∧ ph.pVaddr + dlOffset < a then ph.pVaddr + dlOffset else a

def raise (a : BitVec 32) (ph : Phdr) : BitVec 32 :=
  if ph.pFilesz ≠ 0 ∧ ph.pVaddr + dlOffset + ph.pFilesz > a then
    ph.pVaddr + dlOffset + ph.pFilesz
  else a

end Phdr

variable {file : ElfFile} {dlOffset : BitVec 32} {ph : Phdr} {phtab : List Phdr} {s : Loader}
  {m : Memory}

/-- No address is refused. -/
theorem dlCheckloadaddr_eq (vaddr size : BitVec 32) : dlCheckloadaddr vaddr size = true := rfl

theorem Memory.fill_zero {a : BitVec 32} {f : ℕ → BitVec 8} : m.fill a 0 f = m :=
  funext fun _ => if_neg (Nat.not_lt_zero _)

/-- What is cleared lies behind what is read. -/
theorem Phdr.Proper.cleared_iff (h : ph.Proper) (hlt : ph.pFilesz < ph.pMemsz) (x : BitVec 32) :
    (x - (ph.pVaddr + ph.pFilesz + dlOffset)).toNat < (ph.pMemsz - ph.pFilesz).toNat ↔
      ph.pFilesz.toNat ≤ (x - (ph.pVaddr + dlOffset)).toNat ∧
        (x - (ph.pVaddr + dlOffset)).toNat < ph.pMemsz.toNat := by
  have hmem := h.memsz_lt
  have hshift : x - (ph.pVaddr + ph.pFilesz + dlOffset) =
      x - (ph.pVaddr + dlOffset) - ph.pFilesz := by
    bv_omega
  rw [hshift]
  generalize x - (ph.pVaddr + dlOffset) = y
  bv_omega

theorem Phdr.Proper.mem_eq (h : ph.Proper) :
    (if ph.pFilesz < ph.pMemsz then
      (m.fill (ph.pVaddr + dlOffset) ph.pFilesz.toNat fun k =>
        file.content (ph.pOffset.toNat + k)).fill (ph.pVaddr + ph.pFilesz + dlOffset)
          (ph.pMemsz - ph.pFilesz).toNat fun _ => 0
    else m.fill (ph.pVaddr + dlOffset) ph.pFilesz.toNat fun k =>
      file.content (ph.pOffset.toNat + k)) = apply m (ph.patch file dlOffset) := by
  have hle := h.filesz_le
  funext x
  unfold apply Phdr.patch Memory.fill
  dsimp only
  by_cases hclear : ph.pFilesz < ph.pMemsz
  · rw [if_pos hclear]
    by_cases hzero : (x - (ph.pVaddr + ph.pFilesz + dlOffset)).toNat <
        (ph.pMemsz - ph.pFilesz).toNat
    · obtain ⟨hge, hlt⟩ := (h.cleared_iff hclear x).mp hzero
      rw [if_pos hzero, if_neg (Nat.not_lt.mpr hge), if_pos hlt]
      rfl
    · rw [if_neg hzero]
      by_cases hread : (x - (ph.pVaddr + dlOffset)).toNat < ph.pFilesz.toNat
      · rw [if_pos hread, if_pos hread]
        rfl
      · have hbehind : ¬(x - (ph.pVaddr + dlOffset)).toNat < ph.pMemsz.toNat := fun hlt =>
          hzero ((h.cleared_iff hclear x).mpr ⟨Nat.not_lt.mp hread, hlt⟩)
        rw [if_neg hread, if_neg hread, if_neg hbehind]
        rfl
  · rw [if_neg hclear]
    by_cases hread : (x - (ph.pVaddr + dlOffset)).toNat < ph.pFilesz.toNat
    · rw [if_pos hread, if_pos hread]
      rfl
    · have hbehind : ¬(x - (ph.pVaddr + dlOffset)).toNat < ph.pMemsz.toNat := by
        have hsame : ph.pMemsz.toNat ≤ ph.pFilesz.toNat := by bv_omega
        omega
      rw [if_neg hread, if_neg hread, if_neg hbehind]
      rfl

theorem readSegment_eq (hreads : ph.Reads file) (hlt : ph.pFilesz.toNat < 2 ^ 31) :
    ∃ pos, readSegment file dlOffset ph s = (true,
      ⟨s.mem.fill (ph.pVaddr + dlOffset) ph.pFilesz.toNat fun k =>
          file.content (ph.pOffset.toNat + k),
        ph.lower dlOffset s.dlMinaddr, ph.raise dlOffset s.dlMaxaddr, pos⟩) := by
  unfold readSegment
  by_cases hzero : ph.pFilesz = 0
  · refine ⟨s.pos, ?_⟩
    rw [if_pos hzero, hzero]
    unfold Phdr.lower Phdr.raise
    rw [if_neg (fun h => h.1 hzero), if_neg (fun h => h.1 hzero)]
    rw [show (0 : BitVec 32).toNat = 0 from rfl, Memory.fill_zero]
  · have hint : ph.pFilesz.toInt = ph.pFilesz.toNat :=
      BitVec.toInt_eq_toNat_of_lt (by omega)
    have hseek : s.lseek file ph.pOffset = (true, { s with pos := ph.pOffset }) :=
      if_pos (hreads.lseek hzero)
    have hset : dlChecksetloadaddr (ph.pVaddr + dlOffset) ph.pFilesz { s with pos := ph.pOffset } =
        (true, ⟨s.mem, ph.lower dlOffset s.dlMinaddr, ph.raise dlOffset s.dlMaxaddr,
          ph.pOffset⟩) := by
      unfold dlChecksetloadaddr Phdr.lower Phdr.raise
      rw [if_neg (not_not.mpr (dlCheckloadaddr_eq _ _))]
      simp only [ne_eq, hzero, not_false_eq_true, true_and]
    have hret : BitVec.ofInt 32 ph.pFilesz.toNat = ph.pFilesz := by
      rw [BitVec.ofInt_natCast, BitVec.ofNat_toNat, BitVec.setWidth_eq]
    have hboot : bootread file dlOffset ph.pVaddr ph.pFilesz { s with pos := ph.pOffset } =
        ((ph.pFilesz.toNat : ℤ),
          ⟨s.mem.fill (ph.pVaddr + dlOffset) ph.pFilesz.toNat fun k =>
              file.content (ph.pOffset.toNat + k),
            ph.lower dlOffset s.dlMinaddr, ph.raise dlOffset s.dlMaxaddr,
            ph.pOffset + ph.pFilesz⟩) := by
      unfold bootread
      rw [hset]
      unfold Loader.read
      dsimp only
      rw [hreads.read hzero, hint, if_neg (Int.lt_irrefl _), hret, Int.toNat_natCast]
    refine ⟨ph.pOffset + ph.pFilesz, ?_⟩
    rw [if_neg hzero, hseek]
    dsimp only
    rw [hboot]
    dsimp only
    rw [hret, decide_eq_true rfl]

/-- A segment that can be read leaves its bytes, and zeros behind them. -/
theorem loadSegment_eq (h : ph.Proper) (hreads : ph.Reads file) :
    ∃ pos, loadSegment file dlOffset ph s = (true,
      ⟨apply s.mem (ph.patch file dlOffset), ph.lower dlOffset s.dlMinaddr,
        ph.raise dlOffset s.dlMaxaddr, pos⟩) := by
  have hle := h.filesz_le
  have hmem := h.memsz_lt
  obtain ⟨pos, hread⟩ := @readSegment_eq file dlOffset ph s hreads (by bv_omega)
  refine ⟨pos, ?_⟩
  rw [← h.mem_eq]
  unfold loadSegment
  rw [hread]
  dsimp only
  by_cases hclear : ph.pFilesz < ph.pMemsz
  · have hint : (ph.pMemsz - ph.pFilesz).toInt = (ph.pMemsz - ph.pFilesz).toNat :=
      BitVec.toInt_eq_toNat_of_lt (by bv_omega)
    have hpos : (0 : ℤ) < (ph.pMemsz - ph.pFilesz).toInt := by
      rw [hint]
      bv_omega
    unfold bootclear
    rw [if_pos hclear, if_neg (not_not.mpr (dlCheckloadaddr_eq _ _)), if_pos hpos, if_pos hclear]
  · rw [if_neg hclear, if_neg hclear]

/-! ## The order of the segments -/

theorem nearestFrom_eq {i : ℕ} {lowest : BitVec 32} {found : Option (ℕ × Phdr)} :
    (nearestFrom phtab i lowest found = found ∧
      ∀ ph ∈ phtab, ph.loadable = true → ¬ph.pOffset < lowest) ∨
    ∃ k ph, nearestFrom phtab i lowest found = some (i + k, ph) ∧ phtab[k]? = some ph ∧
      ph.loadable = true := by
  induction phtab generalizing i lowest found with
  | nil => exact Or.inl ⟨rfl, nofun⟩
  | cons ph phtab ih =>
      unfold nearestFrom
      by_cases hnear : ph.pType = PT_LOAD ∧ ph.pOffset < lowest
      · rw [if_pos hnear]
        refine Or.inr ?_
        rcases @ih (i + 1) ph.pOffset (some (i, ph)) with ⟨heq, -⟩ | ⟨k, ph', heq, hk, hload⟩
        · exact ⟨0, ph, heq, rfl, decide_eq_true hnear.1⟩
        · exact ⟨k + 1, ph', by rw [heq, Nat.add_right_comm, Nat.add_assoc], hk, hload⟩
      · rw [if_neg hnear]
        rcases @ih (i + 1) lowest found with ⟨heq, hnone⟩ | ⟨k, ph', heq, hk, hload⟩
        · refine Or.inl ⟨heq, List.forall_mem_cons.mpr ⟨?_, hnone⟩⟩
          exact fun hload hlt => hnear ⟨of_decide_eq_true hload, hlt⟩
        · exact Or.inr ⟨k + 1, ph', by rw [heq, Nat.add_right_comm, Nat.add_assoc], hk, hload⟩

/-- A segment is found as long as there is one. -/
theorem nearest_cases (h : ∀ ph ∈ phtab, ph.loadable = true → ph.Proper) :
    (nearest phtab = none ∧ phtab.filter Phdr.loadable = []) ∨
    ∃ i ph, nearest phtab = some (i, ph) ∧ phtab[i]? = some ph ∧ ph.loadable = true := by
  rcases @nearestFrom_eq phtab 0 (~~~0) none with ⟨heq, hnone⟩ | ⟨i, ph, heq, hi, hload⟩
  · refine Or.inl ⟨heq, List.filter_eq_nil_iff.mpr fun ph hph hload => hnone ph hph hload ?_⟩
    have hlt := (h ph hph hload).offset_lt
    have hmax : (~~~0 : BitVec 32).toNat = 2 ^ 32 - 1 := rfl
    exact BitVec.lt_def.mpr (by omega)
  · rw [Nat.zero_add] at heq
    exact Or.inr ⟨i, ph, heq, hi, hload⟩

/-- The segment that has been loaded is not considered any more. -/
theorem filter_set {i : ℕ} (hi : phtab[i]? = some ph) (hload : ph.loadable = true) :
    (phtab.filter Phdr.loadable).Perm
      (ph :: (phtab.set i { ph with pType := PT_NULL }).filter Phdr.loadable) := by
  obtain ⟨hlt, hget⟩ := List.getElem?_eq_some_iff.mp hi
  have hsplit : phtab = phtab.take i ++ ph :: phtab.drop (i + 1) := by
    rw [← hget, List.getElem_cons_drop, List.take_append_drop]
  have hnull : Phdr.loadable { ph with pType := PT_NULL } = false := rfl
  have hset : (phtab.set i { ph with pType := PT_NULL }).filter Phdr.loadable =
      (phtab.take i).filter Phdr.loadable ++ (phtab.drop (i + 1)).filter Phdr.loadable := by
    rw [List.set_eq_take_append_cons_drop, if_pos hlt, List.filter_append,
      List.filter_cons_of_neg (by rw [hnull]; decide)]
  rw [hset]
  conv_lhs => rw [hsplit]
  rw [List.filter_append, List.filter_cons_of_pos hload]
  exact List.perm_middle

theorem lower_comm (a : BitVec 32) (p q : Phdr) :
    Phdr.lower dlOffset (Phdr.lower dlOffset a p) q =
      Phdr.lower dlOffset (Phdr.lower dlOffset a q) p := by
  unfold Phdr.lower
  split_ifs <;> first | rfl | bv_omega

theorem raise_comm (a : BitVec 32) (p q : Phdr) :
    Phdr.raise dlOffset (Phdr.raise dlOffset a p) q =
      Phdr.raise dlOffset (Phdr.raise dlOffset a q) p := by
  unfold Phdr.raise
  split_ifs <;> first | rfl | bv_omega

/-- The loop loads each segment once, in some order. -/
theorem loadSegments_order {rounds : ℕ}
    (h : ∀ ph ∈ phtab, ph.loadable = true → ph.Proper ∧ ph.Reads file)
    (hrounds : (phtab.filter Phdr.loadable).length < rounds) :
    ∃ (order : List Phdr) (pos : BitVec 32), order.Perm (phtab.filter Phdr.loadable) ∧
      loadSegments file dlOffset rounds phtab s = some (true,
        ⟨applyAll s.mem (order.map (Phdr.patch file dlOffset)),
          order.foldl (Phdr.lower dlOffset) s.dlMinaddr,
          order.foldl (Phdr.raise dlOffset) s.dlMaxaddr, pos⟩) := by
  induction rounds generalizing phtab s with
  | zero => exact absurd hrounds (Nat.not_lt_zero _)
  | succ rounds ih =>
      unfold loadSegments
      rcases nearest_cases fun ph hph hload => (h ph hph hload).1 with
        ⟨heq, hnone⟩ | ⟨i, ph, heq, hi, hload⟩
      · rw [heq, hnone]
        exact ⟨[], s.pos, List.Perm.refl [], rfl⟩
      · obtain ⟨hproper, hreads⟩ := h ph (List.mem_of_getElem? hi) hload
        obtain ⟨pos, hsegment⟩ := @loadSegment_eq file dlOffset ph s hproper hreads
        have hperm := filter_set hi hload
        have hrest : ∀ ph' ∈ phtab.set i { ph with pType := PT_NULL }, ph'.loadable = true →
            ph'.Proper ∧ ph'.Reads file := by
          intro ph' hph' hload'
          rcases List.mem_or_eq_of_mem_set hph' with hmem | rfl
          · exact h ph' hmem hload'
          · cases hload'
        have hfewer := hperm.length_eq
        rw [List.length_cons] at hfewer
        obtain ⟨order, pos', horder, hrun⟩ := ih (s := ⟨_, _, _, pos⟩) hrest (by omega)
        rw [heq]
        dsimp only
        rw [hsegment]
        exact ⟨ph :: order, pos', (horder.cons ph).trans hperm.symm, hrun⟩

/-! ## The image -/

/-- The addresses of the segments are different ones. -/
def Phdr.Disjoint (p q : Phdr) : Prop :=
  ∀ k < p.pMemsz.toNat, ∀ l < q.pMemsz.toNat,
    p.pVaddr + BitVec.ofNat 32 k ≠ q.pVaddr + BitVec.ofNat 32 l

/-- The memory `m'` is `m` with the segments loaded. -/
structure Faithful (file : ElfFile) (dlOffset : BitVec 32) (phtab : List Phdr) (m m' : Memory) :
    Prop where
  bytes : ∀ ph ∈ phtab, ph.loadable = true → ∀ k < ph.pFilesz.toNat,
    m' (ph.pVaddr + dlOffset + BitVec.ofNat 32 k) = file.content (ph.pOffset.toNat + k)
  zeros : ∀ ph ∈ phtab, ph.loadable = true → ∀ k < ph.pMemsz.toNat, ph.pFilesz.toNat ≤ k →
    m' (ph.pVaddr + dlOffset + BitVec.ofNat 32 k) = 0
  others : ∀ x, (∀ ph ∈ phtab, ph.loadable = true → ∀ k < ph.pMemsz.toNat,
    x ≠ ph.pVaddr + dlOffset + BitVec.ofNat 32 k) → m' x = m x

theorem Phdr.Disjoint.apart {p q : Phdr} (h : p.Disjoint q) (hp : p.Proper) (hq : q.Proper) :
    Apart (p.patch file dlOffset) (q.patch file dlOffset) := by
  have hple := hp.filesz_le
  have hqle := hq.filesz_le
  intro x
  by_cases hpx : (x - (p.pVaddr + dlOffset)).toNat < p.pMemsz.toNat
  · by_cases hqx : (x - (q.pVaddr + dlOffset)).toNat < q.pMemsz.toNat
    · refine absurd ?_ (h _ hpx _ hqx)
      rw [BitVec.ofNat_toNat, BitVec.ofNat_toNat, BitVec.setWidth_eq, BitVec.setWidth_eq]
      bv_omega
    · refine Or.inr ?_
      unfold Phdr.patch
      dsimp only
      rw [if_neg (by bv_omega), if_neg hqx]
  · refine Or.inl ?_
    unfold Phdr.patch
    dsimp only
    rw [if_neg (by bv_omega), if_neg hpx]

theorem patch_at {k : ℕ} (h : ph.Proper) (hk : k < ph.pMemsz.toNat) :
    ph.patch file dlOffset (ph.pVaddr + dlOffset + BitVec.ofNat 32 k) =
      if k < ph.pFilesz.toNat then some (file.content (ph.pOffset.toNat + k)) else some 0 := by
  have hmem := h.memsz_lt
  have hplace : (ph.pVaddr + dlOffset + BitVec.ofNat 32 k - (ph.pVaddr + dlOffset)).toNat = k := by
    bv_omega
  unfold Phdr.patch
  dsimp only
  rw [hplace, if_pos hk]

theorem patch_of_outside {x : BitVec 32} (h : ph.Proper)
    (hx : ∀ k < ph.pMemsz.toNat, x ≠ ph.pVaddr + dlOffset + BitVec.ofNat 32 k) :
    ph.patch file dlOffset x = none := by
  have hle := h.filesz_le
  have hbehind : ¬(x - (ph.pVaddr + dlOffset)).toNat < ph.pMemsz.toNat := by
    intro hlt
    refine hx _ hlt ?_
    rw [BitVec.ofNat_toNat, BitVec.setWidth_eq]
    bv_omega
  unfold Phdr.patch
  dsimp only
  rw [if_neg (by bv_omega), if_neg hbehind]

/-- For every order of the program headers the loop leaves the same memory, with the segments in
it, and the same addresses. -/
theorem loadSegments_faithful
    (h : ∀ ph ∈ phtab, ph.loadable = true → ph.Proper ∧ ph.Reads file)
    (hdisjoint : (phtab.filter Phdr.loadable).Pairwise Phdr.Disjoint) :
    ∃ mem dlMinaddr dlMaxaddr, Faithful file dlOffset phtab s.mem mem ∧
      ∀ phtab', phtab.Perm phtab' → ∀ rounds, phtab'.length < rounds →
        ∃ pos, loadSegments file dlOffset rounds phtab' s =
          some (true, ⟨mem, dlMinaddr, dlMaxaddr, pos⟩) := by
  have hsegment : ∀ ph ∈ phtab.filter Phdr.loadable, ph.Proper := fun ph hph =>
    (h ph (List.mem_filter.mp hph).1 (List.mem_filter.mp hph).2).1
  have hapart : ((phtab.filter Phdr.loadable).map (Phdr.patch file dlOffset)).Pairwise Apart := by
    rw [List.pairwise_map]
    exact hdisjoint.imp_of_mem fun hp hq hpq => hpq.apart (hsegment _ hp) (hsegment _ hq)
  refine ⟨applyAll s.mem ((phtab.filter Phdr.loadable).map (Phdr.patch file dlOffset)),
    (phtab.filter Phdr.loadable).foldl (Phdr.lower dlOffset) s.dlMinaddr,
    (phtab.filter Phdr.loadable).foldl (Phdr.raise dlOffset) s.dlMaxaddr, ⟨?_, ?_, ?_⟩, ?_⟩
  · intro ph hph hload k hk
    have hmem : ph ∈ phtab.filter Phdr.loadable := List.mem_filter.mpr ⟨hph, hload⟩
    have hle := (hsegment ph hmem).filesz_le
    refine applyAll_of_some hapart (List.mem_map_of_mem hmem) ?_
    rw [patch_at (hsegment ph hmem) (by bv_omega), if_pos hk]
  · intro ph hph hload k hk hge
    have hmem : ph ∈ phtab.filter Phdr.loadable := List.mem_filter.mpr ⟨hph, hload⟩
    refine applyAll_of_some hapart (List.mem_map_of_mem hmem) ?_
    rw [patch_at (hsegment ph hmem) hk, if_neg (Nat.not_lt.mpr hge)]
  · intro x hx
    refine applyAll_of_none fun p hp => ?_
    obtain ⟨ph, hmem, rfl⟩ := List.mem_map.mp hp
    obtain ⟨hph, hload⟩ := List.mem_filter.mp hmem
    exact patch_of_outside (hsegment ph hmem) (hx ph hph hload)
  · intro phtab' hperm rounds hrounds
    have hfilter := hperm.filter Phdr.loadable
    obtain ⟨order, pos, horder, hrun⟩ := @loadSegments_order file dlOffset phtab' s rounds
      (fun ph hph => h ph (hperm.mem_iff.mpr hph))
      (Nat.lt_of_le_of_lt (List.length_filter_le _ _) hrounds)
    have hsame : (phtab.filter Phdr.loadable).Perm order := hfilter.trans horder.symm
    refine ⟨pos, ?_⟩
    rw [hrun, applyAll_perm hapart (hsame.map _),
      hsame.foldl_eq' (fun p _ q _ a => lower_comm a p q),
      hsame.foldl_eq' (fun p _ q _ a => raise_comm a p q)]

/-- The bytes of this file are the numbers of their places. -/
def countingFile : ElfFile where
  content k := BitVec.ofNat 8 k
  lseek _ := true
  read _ size := size.toNat

/-- Two segments at the same place in the file. -/
def twoSegments : List Phdr :=
  [⟨PT_LOAD, 0x100, 0x80200000, 2, 5⟩, ⟨PT_NULL, 0, 0, 0, 0⟩, ⟨PT_LOAD, 0x100, 0x80200005, 3, 3⟩]

theorem loadSegments_faithful_two :
    ∃ mem dlMinaddr dlMaxaddr, Faithful countingFile 0 twoSegments (fun _ => 7) mem ∧
      ∀ phtab', twoSegments.Perm phtab' → ∀ rounds, phtab'.length < rounds →
        ∃ pos, loadSegments countingFile 0 rounds phtab' ⟨fun _ => 7, ~~~0, 0, 0⟩ =
          some (true, ⟨mem, dlMinaddr, dlMaxaddr, pos⟩) := by
  refine loadSegments_faithful (s := ⟨fun _ => 7, ~~~0, 0, 0⟩) ?_ ?_
  · intro ph hph _
    simp only [twoSegments, List.mem_cons, List.not_mem_nil, or_false] at hph
    rcases hph with rfl | rfl | rfl <;>
      exact ⟨⟨by decide, by decide, by decide⟩, fun _ => rfl, fun _ => rfl⟩
  · unfold Phdr.Disjoint
    decide

end Elf

end LuojiOs
