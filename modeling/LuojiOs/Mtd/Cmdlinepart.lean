import LuojiOs.Mtd.Devices
import LuojiOs.Parse.IsoNumbers

/-!
# The string of the partitions

`mtdpart_setup_real` reads definitions of partitions, separated by commas, and `newpart`
registers each of them before the next one is looked at.  What is printed is left out.  A result
is `none` where a name does not fit into the array `realname`, and where `add_mtd_device` has
none.
-/

namespace LuojiOs

namespace Mtd

open Devfs Numerals

def SIZE_REMAINING : BitVec 32 := 0xffffffff

def PAGE_SIZE : ℕ := 4096

/-- The size of the array `realname`. -/
def realnameSize : ℕ := 200

def dash : BitVec 8 := 0x2d

def openParen : BitVec 8 := 0x28

def closeParen : BitVec 8 := 0x29

def colonSign : BitVec 8 := 0x3a

def semicolon : BitVec 8 := 0x3b

/-! ## Numbers -/

/-- By how many places the cases of the suffixes `G`, `M` and `K` shift, which fall through. -/
def suffixShift (c : BitVec 8) : ℕ :=
  if c = 0x47 ∨ c = 0x67 then 30
  else if c = 0x4d ∨ c = 0x6d then 20
  else if c = 0x4b ∨ c = 0x6b then 10
  else 0

/-- `memparse`: the number, and the string behind it. -/
def memparse (ptr : CString) : BitVec 64 × CString :=
  let r := Parse.strtoul ptr 0
  let ret := BitVec.ofNat 64 r.result
  match r.endptr with
  | [] => (ret, [])
  | c :: rest => if suffixShift c = 0 then (ret, c :: rest) else (ret <<< suffixShift c, rest)

def digitSymbol (d : ℕ) : BitVec 8 := BitVec.ofNat 8 (0x30 + d)

/-- `sprintf` with `%d` -/
def sprintfInt (n : ℤ) : CString :=
  if n < 0 then dash :: render digitSymbol 10 n.natAbs else render digitSymbol 10 n.natAbs

/-! ## Definitions -/

/-- The static variables `mtd_offset` and `this_part`, and the partitions. -/
structure Cmdline where
  mtdOffset : BitVec 32
  thisPart : BitVec 32
  devices : Devices

/-- The size of a partition, and the string behind it; `none` if the size is too small. -/
def fetchSize (s : CString) : Option (BitVec 32 × CString) :=
  if s.head? = some dash then some (SIZE_REMAINING, s.tail)
  else
    let (size, s) := memparse s
    let size := size.setWidth 32
    if size.toNat < PAGE_SIZE then none else some (size, s)

/-- The offset of a partition, if one is given, and the string behind it. -/
def fetchOffset (mtdOffset : BitVec 32) (s : CString) : BitVec 32 × CString :=
  if s.head? = some atSign then
    let (offset, s) := memparse s.tail
    (offset.setWidth 32, s)
  else (mtdOffset, s)

/-- The name of a partition, and the string behind it; `none` if the parenthesis is not closed. -/
def fetchName (thisPart : BitVec 32) (s : CString) : Option (CString × CString) :=
  if s.head? = some openParen then
    if closeParen ∈ s.tail then
      some (s.tail.takeWhile (· ≠ closeParen), (s.tail.dropWhile (· ≠ closeParen)).tail)
    else none
  else some (cstr "mtd" ++ sprintfInt thisPart.toInt, s)

section Setup

-- the flash `ls1x_mtd` and its size, and what `malloc` returns for each partition
variable (mtd : ℕ) (mtdSize : BitVec 32) (malloc : BitVec 32 → Option ℕ)

/-- `newpart`: the string at `*retptr` if another definition follows. -/
def newpart (s : CString) (st : Cmdline) : Option (Option CString × Cmdline) :=
  match fetchSize s with
  | none => some (none, st)
  | some (size, s) =>
    let (mtdOffset, s) := fetchOffset st.mtdOffset s
    match fetchName st.thisPart s with
    | none => some (none, { st with mtdOffset := mtdOffset })
    | some (realname, s) =>
      if realnameSize ≤ realname.length then none
      else
        let size := if size = SIZE_REMAINING then mtdSize - mtdOffset else size
        (st.devices.addMtdDevice (malloc st.thisPart) mtd mtdSize.toNat mtdOffset.toInt size.toInt
          realname).map fun r =>
          if s.head? = some comma then (some s, ⟨mtdOffset + size, st.thisPart + 1, r.2⟩)
          else (none, ⟨mtdOffset, st.thisPart + 1, r.2⟩)

/-- The loop of `mtdpart_setup_real`, from the delimiter in front of a definition. -/
def setupLoop : ℕ → CString → Cmdline → Option Cmdline
  | 0, _, _ => none
  | rounds + 1, p, st =>
    match newpart mtd mtdSize malloc p.tail st with
    | none => none
    | some (none, st) => some st
    | some (some s, st) => setupLoop rounds s st

/-- `mtdpart_setup_real`: what it returns, and the state.  A definition is shorter than the string,
so that the loop takes no more rounds than the string has characters. -/
def mtdpartSetupReal (s : CString) (st : Cmdline) : Option (ℤ × Cmdline) :=
  if colonSign ∈ s then
    (setupLoop mtd mtdSize malloc s.length (s.dropWhile (· ≠ colonSign)) st).map (0, ·)
  else some (0, st)

end Setup

end Mtd

end LuojiOs
