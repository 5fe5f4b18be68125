import LuojiOs.Files.Devfs

/-!
# Partitions of the flash

The partitions that `add_mtd_device` has made, and the part of `mtdfile_open` that finds one of
them and the window in it from a name such as `/dev/mtd1@0x1000,0x2000`.  What is printed when
no partition is meant is left out.
-/

namespace LuojiOs

namespace Mtd

open Devfs

/-- `struct mtdfile`, without the flash it lies on. -/
structure Mtdfile where
  refs : ℤ
  index : ℤ
  partSize : ℕ
  partOffset : ℕ
  name : CString
  deriving DecidableEq

/-- `struct mtdpriv`, with the place of the partition in the list. -/
structure Mtdpriv where
  file : ℕ
  openOffset : ℕ
  openSize : ℕ
  deriving DecidableEq

/-! ## Numbers in a name -/

def isdigit (c : BitVec 8) : Bool := 0x30 ≤ c.toNat ∧ c.toNat ≤ 0x39

def isspace (c : BitVec 8) : Bool := c.toNat = 0x20 ∨ (9 ≤ c.toNat ∧ c.toNat ≤ 13)

/-- The value of a digit or of a letter. -/
def digitValue (c : BitVec 8) : Option ℕ :=
  if isdigit c then some (c.toNat - 0x30)
  else if 0x41 ≤ c.toNat ∧ c.toNat ≤ 0x5a then some (c.toNat - 0x41 + 10)
  else if 0x61 ≤ c.toNat ∧ c.toNat ≤ 0x7a then some (c.toNat - 0x61 + 10)
  else none

/-- The digits at the beginning of a string, and none if the number is too large. -/
def digitsFrom (base : ℕ) : Option ℕ → CString → Option ℕ
  | result, [] => result
  | result, c :: s =>
    match digitValue c with
    | none => result
    | some digit =>
      if base ≤ digit then result
      else digitsFrom base (result.bind fun r =>
        if base * r + digit < 2 ^ 32 then some (base * r + digit) else none) s

/-- `strtoul(s, 0, 0)` -/
def strtoul (s : CString) : ℕ :=
  let s := s.dropWhile isspace
  let negative := decide (s.head? = some 0x2d)
  let s := if s.head? = some 0x2b ∨ negative then s.drop 1 else s
  let (base, s) := if s.head? = some 0x30 then
      let s := s.drop 1
      if s.head? = some 0x78 ∨ s.head? = some 0x58 then (16, s.drop 1) else (8, s)
    else (10, s)
  match digitsFrom base (some 0) s with
  | none => 2 ^ 32 - 1
  | some result => if negative then (2 ^ 32 - result) % 2 ^ 32 else result

/-! ## Opening -/

def atSign : BitVec 8 := 0x40

def comma : BitVec 8 := 0x2c

/-- The window `@offset,size` of a partition; a size of 0, or none, stands for all of it. -/
def openWindow (poffset : Option CString) (partSize : ℕ) : ℕ × ℕ :=
  match poffset with
  | none => (0, partSize)
  | some poffset =>
    let (poffset, psize) := cutAt comma poffset
    let openSize := (psize.map strtoul).getD 0
    (strtoul poffset, if openSize = 0 then partSize else openSize)

/-- The partition that a name means, as its place in the list, and what stands behind the `@`. -/
def findPartition (mtdfiles : List Mtdfile) (fname : CString) : Option (ℕ × Option CString) :=
  let namebuf := fname.take 63
  let dname := skipPrefix (cstr "/dev/") namebuf
  if ¬(cstr "mtd").isPrefixOf dname then none
  else
    let dname := dname.drop 3
    match dname with
    | [] => none
    | c :: rest =>
      if c = 0x2f then
        let (dname, poffset) := cutAt atSign rest
        if rest = [] then none
        else (mtdfiles.findIdx? fun p => p.name = dname).map fun i => (i, poffset)
      else if isdigit c then
        let (dname, poffset) := cutAt atSign dname
        let idx := int32 (strtoul dname)
        if idx = -1 then none
        else (mtdfiles.findIdx? fun p => p.index = idx).map fun i => (i, poffset)
      else none

/-- `mtdfile_open`: what the descriptor refers to, and the partitions after it. -/
def mtdfileOpen (fname : CString) (mtdfiles : List Mtdfile) : Option (Mtdpriv × List Mtdfile) :=
  match findPartition mtdfiles fname with
  | none => none
  | some (i, poffset) =>
    match mtdfiles[i]? with
    | none => none
    | some p =>
      let (openOffset, openSize) := openWindow poffset p.partSize
      some (⟨i, openOffset, openSize⟩, mtdfiles.set i { p with refs := p.refs + 1 })

def mtdfileClose (priv : Mtdpriv) (mtdfiles : List Mtdfile) : List Mtdfile :=
  match mtdfiles[priv.file]? with
  | none => mtdfiles
  | some p => mtdfiles.set priv.file { p with refs := p.refs - 1 }

end Mtd

end LuojiOs
