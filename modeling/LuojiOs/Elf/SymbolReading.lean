import LuojiOs.Elf.Segments
import LuojiOs.Elf.Symbols
import LuojiOs.Support.Loops

/-!
# Reading the symbols of a file

`elfreadsyms`, with the section headers apart from the memory that the tables are read to.  What
is stored in front of the tables for the debugger of the kernel is left out, but not where.  There
is memory at some addresses only: an access to another one never comes back, since the handler of
the exception shuts the processor down.
-/

namespace LuojiOs

namespace Elf

open Loops

/-- `Elf32_Shdr`, as far as it is read. -/
structure Shdr where
  shName : BitVec 32
  shType : BitVec 32
  shOffset : BitVec 32
  shSize : BitVec 32
  shLink : BitVec 32
  shInfo : BitVec 32
  shEntsize : BitVec 32
  deriving DecidableEq

/-- `Elf32_Ehdr`, as far as it is read. -/
structure Ehdr where
  eShnum : BitVec 16
  eShstrndx : BitVec 16

/-- `Elf32_Sym`, as far as it is read. -/
structure ElfSym where
  stName : BitVec 32
  stValue : BitVec 32
  stInfo : BitVec 8
  stShndx : BitVec 16
  deriving DecidableEq

def SHT_SYMTAB : BitVec 32 := 2

def SHN_UNDEF : BitVec 16 := 0

def SHN_COMMON : BitVec 16 := 0xfff2

def STB_GLOBAL : BitVec 8 := 1

def STT_FUNC : BitVec 8 := 2

def STT_SECTION : BitVec 8 := 3

def STT_FILE : BitVec 8 := 4

/-- The offset of a table that has been read. -/
def READ : BitVec 32 := 0x7fffffff

def roundup (x y : BitVec 32) : BitVec 32 := (x + (y - 1)) / y * y

/-- `sizeof (Elf32_Sym)` -/
def symSize : BitVec 32 := 16

/-! ## The tables -/

/-- There is memory at the `n` addresses from `a` on. -/
def Mapped (mapped : BitVec 32 → Bool) (a : BitVec 32) (n : ℕ) : Prop :=
  ∀ k < n, mapped (a + BitVec.ofNat 32 k) = true

instance (mapped : BitVec 32 → Bool) (a : BitVec 32) (n : ℕ) : Decidable (Mapped mapped a n) :=
  inferInstanceAs (Decidable (∀ k < n, _))

/-- `gettable`: where the table is put, and the new `tablebase`. -/
def gettable (kflag : Bool) (dlMaxaddr size tablebase : BitVec 32) : BitVec 32 × BitVec 32 :=
  if ¬kflag then
    let base := (tablebase - size) &&& ~~~7
    if base < dlMaxaddr then (0, tablebase) else (base, base)
  else
    let base := roundup tablebase 4
    (base, base + size)

/-- `readtable`, which returns `base` on success, so that it fails for a table at 0.  It may not
come back. -/
def readtable (file : ElfFile) (mapped : BitVec 32 → Bool) (offs base size : BitVec 32)
    (s : Loader) : Option (Bool × Loader) :=
  match s.lseek file offs with
  | (false, s) => some (false, s)
  | (true, s) =>
    if Mapped mapped base (file.read s.pos size).toNat then
      let (i, s) := s.read file base size
      some (decide (i = size.toInt ∧ base ≠ 0), s)
    else none

/-- What does not change while the tables are read: the indices of the headers `shstrh`, `strh`
and `sh`, the places of the tables, and the size of that of the symbols. -/
structure Tables where
  shstrh : ℕ
  strh : ℕ
  sh : ℕ
  shstrtab : BitVec 32
  strtab : BitVec 32
  symtab : BitVec 32
  size : BitVec 32

/-- The section headers, from `shtab` on, with the offset `offs` of the symbols. -/
structure Reading where
  loader : Loader
  shtab : ℕ → Shdr
  offs : BitVec 32

/-- `strcpy` of a string to a place. -/
def Memory.strcpy (m : Memory) (a : BitVec 32) (s : CString) : Memory :=
  m.fill a (s.length + 1) fun k => s.getD k 0

/-! ### The names of the sections

Their table is not read, but written.  The headers count here by their names and sizes only.
-/

namespace Tables

variable (tables : Tables) (name size : ℕ → BitVec 32)

def putNames (mem : Memory) : Memory :=
  let mem := mem.fill tables.shstrtab (size tables.shstrh).toNat fun _ => 0
  let mem := mem.strcpy (tables.shstrtab + name tables.shstrh) (cstr ".shstrtab")
  let mem := mem.strcpy (tables.shstrtab + name tables.strh) (cstr ".strtab")
  mem.strcpy (tables.shstrtab + name tables.sh) (cstr ".symtab")

/-- There is memory for the table, and for the strings that are copied. -/
def NamesMapped (mapped : BitVec 32 → Bool) : Prop :=
  Mapped mapped tables.shstrtab (size tables.shstrh).toNat ∧
  Mapped mapped (tables.shstrtab + name tables.shstrh) 10 ∧
  Mapped mapped (tables.shstrtab + name tables.strh) 8 ∧
  Mapped mapped (tables.shstrtab + name tables.sh) 8

instance (mapped : BitVec 32 → Bool) : Decidable (tables.NamesMapped name size mapped) :=
  inferInstanceAs (Decidable (_ ∧ _))

end Tables

/-! ### The loop -/

section Tables

variable (file : ElfFile) (mapped : BitVec 32 → Bool) (tables : Tables)

namespace Reading

/-- The offset of a header is set to that of a table that has been read. -/
def mark (i : ℕ) (r : Reading) : Reading :=
  { r with shtab := Function.update r.shtab i { r.shtab i with shOffset := READ } }

def name (r : Reading) (i : ℕ) : BitVec 32 := (r.shtab i).shName

def size (r : Reading) (i : ℕ) : BitVec 32 := (r.shtab i).shSize

def shstrOffset (r : Reading) : BitVec 32 := (r.shtab tables.shstrh).shOffset

def strOffset (r : Reading) : BitVec 32 := (r.shtab tables.strh).shOffset

/-- The first `if` of a round. -/
def writeNames (r : Reading) : Option Reading :=
  if r.shstrOffset tables < r.offs ∧ r.shstrOffset tables < r.strOffset tables then
    if tables.NamesMapped r.name r.size mapped then
      let mem := tables.putNames r.name r.size r.loader.mem
      some ({ r with loader := { r.loader with mem := mem } }.mark tables.shstrh)
    else none
  else some r

def readSyms (r : Reading) : Option (Bool × Reading) :=
  if r.offs < r.strOffset tables ∧ r.offs < r.shstrOffset tables then
    match readtable file mapped r.offs tables.symtab tables.size r.loader with
    | none => none
    | some (false, loader) => some (false, { r with loader := loader })
    | some (true, loader) => some (true, { r with loader := loader, offs := READ })
  else some (true, r)

def readStrings (r : Reading) : Option (Bool × Reading) :=
  if r.strOffset tables < r.offs ∧ r.strOffset tables < r.shstrOffset tables then
    match readtable file mapped (r.strOffset tables) tables.strtab (r.size tables.strh) r.loader with
    | none => none
    | some (false, loader) => some (false, { r with loader := loader })
    | some (true, loader) => some (true, { r with loader := loader }.mark tables.strh)
  else some (true, r)

def AllRead (r : Reading) : Prop :=
  r.offs = READ ∧ r.strOffset tables = READ ∧ r.shstrOffset tables = READ

instance (r : Reading) : Decidable (r.AllRead tables) := inferInstanceAs (Decidable (_ ∧ _))

end Reading

/-- A round of the loop that reads the tables.  The function returns 0 if one cannot be read.  A
round that does not come back is made for ever. -/
def tableRound (r : Reading) : (Bool × Reading) ⊕ Reading :=
  match r.writeNames mapped tables with
  | none => .inr r
  | some r₁ =>
    match r₁.readSyms file mapped tables with
    | none => .inr r
    | some (false, r₂) => .inl (false, r₂)
    | some (true, r₂) =>
      match r₂.readStrings file mapped tables with
      | none => .inr r
      | some (false, r₃) => .inl (false, r₃)
      | some (true, r₃) => if r₃.AllRead tables then .inl (true, r₃) else .inr r₃

end Tables

/-! ## The symbols -/

/-- The `n` bytes from an address on, the low ones first. -/
def Memory.load (m : Memory) (a : BitVec 32) : ℕ → ℕ
  | 0 => 0
  | n + 1 => (m a).toNat + 256 * Memory.load m (a + 1) n

/-- The string at an address, if reading it comes back. -/
def Memory.string (m : Memory) (mapped : BitVec 32 → Bool) : ℕ → BitVec 32 → Option CString
  | 0, _ => none
  | n + 1, a =>
    if ¬mapped a then none
    else if m a = 0 then some []
    else (Memory.string m mapped n (a + 1)).map (m a :: ·)

def Memory.sym (m : Memory) (a : BitVec 32) : ElfSym where
  stName := BitVec.ofNat 32 (m.load a 4)
  stValue := BitVec.ofNat 32 (m.load (a + 4) 4)
  stInfo := m (a + 12)
  stShndx := BitVec.ofNat 16 (m.load (a + 14) 2)

namespace ElfSym

def type (sym : ElfSym) : BitVec 8 := sym.stInfo &&& 0xf

def bind (sym : ElfSym) : BitVec 8 := sym.stInfo >>> 4

/-- The symbols that the loop goes on behind. -/
def skipped (sym : ElfSym) : Bool :=
  sym.stShndx = SHN_UNDEF ∨ sym.stShndx = SHN_COMMON ∨ sym.type = STT_SECTION ∨
    sym.type = STT_FILE

/-- The globals and the functions, whose names are checked. -/
def used (sym : ElfSym) : Bool := sym.bind = STB_GLOBAL ∨ sym.type = STT_FUNC

end ElfSym

/-- What `elfreadsyms` returns, with the symbols that `newsym` has been called for. -/
structure Loaded where
  ret : Bool
  calls : List ElfSym
  table : Symtab

section Symbols

variable (mem : Memory) (mapped : BitVec 32 → Bool) (strtab strSize : BitVec 32)

/-- The name that `newsym` is called with, for the symbol at a place. -/
def nameOf (a : BitVec 32) : Option CString :=
  if Mapped mapped (a + 4) 4 then mem.string mapped (2 ^ 32) (strtab + (mem.sym a).stName) else none

/-- The loop over the symbols at some places, of which the first one has the number `i`.  `malloc`
tells by this number whether there is memory for a new symbol. -/
def addSymbols (malloc : ℕ → Bool) : List (BitVec 32) → ℕ → Symtab → Option Loaded
  | [], _, t => some ⟨true, [], t⟩
  | a :: places, i, t =>
    let sym := mem.sym a
    if ¬Mapped mapped (a + 12) 4 then none
    else if sym.skipped then addSymbols malloc places (i + 1) t
    else if ¬Mapped mapped a 4 then none
    else if sym.used ∧ strSize ≤ sym.stName then some ⟨false, [], t⟩
    else
      match nameOf mem mapped strtab a with
      | none => none
      | some name =>
        match t.newsym name sym.stValue (malloc i) with
        | (false, t) => some ⟨false, [sym], t⟩
        | (true, t) =>
          (addSymbols malloc places (i + 1) t).map fun rest =>
            { rest with calls := sym :: rest.calls }

end Symbols

/-! ## `elfreadsyms` -/

/-- The first symbol table among the sections. -/
def findSymtab (shnum : ℕ) (shtab : ℕ → Shdr) : Option ℕ :=
  (List.range shnum).find? fun i => (shtab i).shType = SHT_SYMTAB

/-- `symptr`, where the places of the headers for the debugger are stored. -/
def symptr (tablebase : BitVec 32) : BitVec 32 := roundup tablebase 4

def keh (tablebase : BitVec 32) : BitVec 32 := symptr tablebase + 8

def ksh (tablebase : BitVec 32) : BitVec 32 := roundup (keh tablebase + 52) 4

/-- What is left of the memory for tables behind the headers for the debugger. -/
def debuggerTables (shnum tablebase : BitVec 32) : BitVec 32 :=
  ksh tablebase + roundup (40 * shnum) 4

/-- The call, as it is made by `load_elf`. -/
structure SymCallState where
  file : ElfFile
  kflag : Bool
  eh : Ehdr
  shtab : ℕ → Shdr
  loader : Loader
  tablebase : BitVec 32
  malloc : ℕ → Bool
  table : Symtab
  /-- Whether there is memory at an address -/
  mapped : BitVec 32 → Bool
  /-- Whether the header of this number lies in memory -/
  inMemory : ℕ → Bool

inductive SymResult
  | divisionByZero
  | returns (loaded : Loaded)

namespace SymCallState

variable (c : SymCallState) (sh : ℕ)

/-- The number of symbols that are read. -/
def nsym : BitVec 32 :=
  if c.kflag then (c.shtab sh).shSize / (c.shtab sh).shEntsize
  else (c.shtab sh).shSize / (c.shtab sh).shEntsize - (c.shtab sh).shInfo

/-- The places of the tables. -/
def tables : Tables :=
  let symh := c.shtab sh
  let size := if c.kflag then symh.shSize else c.nsym sh * symh.shEntsize
  let base := if c.kflag then debuggerTables (c.eh.eShnum.setWidth 32) c.tablebase else c.tablebase
  let shstr := gettable c.kflag c.loader.dlMaxaddr (c.shtab c.eh.eShstrndx.toNat).shSize base
  let str := gettable c.kflag c.loader.dlMaxaddr (c.shtab symh.shLink.toNat).shSize shstr.2
  let sym := gettable c.kflag c.loader.dlMaxaddr size str.2
  ⟨c.eh.eShstrndx.toNat, symh.shLink.toNat, sh, shstr.1, str.1, sym.1, size⟩

/-- The state that the first round begins with. -/
def start : Reading :=
  let symh := c.shtab sh
  let offs := if c.kflag then symh.shOffset else symh.shOffset + symh.shInfo * symh.shEntsize
  ⟨c.loader, c.shtab, offs⟩

/-- The places of the symbols. -/
def symbols : List (BitVec 32) :=
  (List.range (c.nsym sh).toInt.toNat).map fun i =>
    (c.tables sh).symtab + symSize * BitVec.ofNat 32 i

/-- The symbols are added to the table. -/
def addAll (r : Reading) : Option Loaded :=
  addSymbols r.loader.mem c.mapped (c.tables sh).strtab (r.size (c.tables sh).strh) c.malloc
    (c.symbols sh) 0 c.table

/-- The headers that are found by a number lie in memory. -/
def HeadersInMemory : Prop :=
  c.inMemory (c.tables sh).shstrh = true ∧ c.inMemory (c.tables sh).strh = true

instance : Decidable (c.HeadersInMemory sh) := inferInstanceAs (Decidable (_ ∧ _))

/-- There is memory for the copy of the headers. -/
def CopyMapped : Prop := Mapped c.mapped (ksh c.tablebase) (40 * c.eh.eShnum.toNat)

instance : Decidable c.CopyMapped := inferInstanceAs (Decidable (Mapped ..))

/-- There is memory for what is stored at the end for the debugger. -/
def DebuggerMapped : Prop :=
  Mapped c.mapped (keh c.tablebase) 52 ∧ Mapped c.mapped (symptr c.tablebase) 8

instance : Decidable c.DebuggerMapped := inferInstanceAs (Decidable (_ ∧ _))

/-- What is done behind the loop over the tables. -/
def finish (x : Bool × Reading) : Option SymResult :=
  if ¬x.1 then some (.returns ⟨false, [], c.table⟩)
  else if ¬c.kflag then (c.addAll sh x.2).map .returns
  else if c.DebuggerMapped then some (.returns ⟨true, [], c.table⟩)
  else none

/-- `elfreadsyms`, if its loop over the tables ends in this number of rounds, and it comes back. -/
def elfreadsyms (rounds : ℕ) : Option SymResult :=
  if c.kflag ∧ ¬c.CopyMapped then none
  else
    match findSymtab c.eh.eShnum.toNat c.shtab with
    | none => some (.returns ⟨false, [], c.table⟩)
    | some sh =>
      if (c.shtab sh).shEntsize = 0 then some .divisionByZero
      else if ¬c.HeadersInMemory sh then none
      else (run (tableRound c.file c.mapped (c.tables sh)) rounds (c.start sh)).bind (c.finish sh)

end SymCallState

end Elf

end LuojiOs
