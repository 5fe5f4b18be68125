import LuojiOs.Env.Nvram

/-!
# The SPI flash

The driver `spi_flash.c` erases blocks of 64 KB and programs pages of 256 bytes.  A command
has an address of 24 bits.  Left out are the single transfers of the SPI bus, the status
register, and the messages.

Chips of one maker are programmed by commands of their own, which increment the address in
the chip.  What such a sequence of commands does is a parameter.
-/

namespace LuojiOs

/-- The size of the boot rom, and the place of the environment variables at its end. -/
def bootRomSize : ℕ := (512 - 4 * 10) * 1024

def NVRAM_POS : ℕ := bootRomSize - NVRAM_SECSIZE

namespace SpiFlash

/-! ## Commands of the chip -/

/-- The three bytes of an address. -/
def address (a : ℕ) : ℕ := a % 0x1000000

/-- The command `0xd8`: the block of 64 KB around the address. -/
def blockErase (a : ℕ) (m : Bytes) : Bytes :=
  fun x => if x / 0x10000 = address a / 0x10000 then 0xff else m x

/-- The command `0x02` from the place `i` of a page on.  A bit that is 0 stays 0, and the
place wraps inside the page. -/
def programPage (page : ℕ) : ℕ → List (BitVec 8) → Bytes → Bytes
  | _, [], m => m
  | i, c :: data, m =>
    let x := 256 * page + i % 256
    programPage page (i + 1) data (m.set x (m x &&& c))

def pageProgram (a : ℕ) (data : List (BitVec 8)) (m : Bytes) : Bytes :=
  programPage (address a / 256) (address a % 256) data m

/-! ## The driver -/

def eraseFrom (eaddr sectorsize : ℕ) : ℕ → ℕ → Bytes → Bytes
  | 0, _, m => m
  | fuel + 1, addr, m =>
    if addr < eaddr then eraseFrom eaddr sectorsize fuel (addr + sectorsize) (blockErase addr m)
    else m

def spiFlashEraseArea (saddr eaddr sectorsize : ℕ) (m : Bytes) : Bytes :=
  eraseFrom eaddr sectorsize (eaddr - saddr) saddr m

def spiFlashWriteArea : ℕ → List (BitVec 8) → Bytes → Bytes
  | _, [], m => m
  | flashaddr, c :: buffer, m =>
    spiFlashWriteArea (flashaddr + 1) buffer (pageProgram flashaddr [c] m)

def writeFastFrom : ℕ → ℕ → List (BitVec 8) → Bytes → Bytes
  | 0, _, _, m => m
  | fuel + 1, flashaddr, buffer, m =>
    if 0 < buffer.length then
      if 256 ≤ buffer.length then
        writeFastFrom fuel (flashaddr + 256) (buffer.drop 256)
          (pageProgram flashaddr (buffer.take 256) m)
      else pageProgram flashaddr buffer m
    else m

def spiFlashWriteAreaFast (flashaddr : ℕ) (buffer : List (BitVec 8)) (m : Bytes) : Bytes :=
  writeFastFrom (buffer.length + 1) flashaddr buffer m

/-- `spi_flash_write_area_sst_fast`, with its commands `0xad` as a parameter. -/
def spiFlashWriteAreaSstFast (aai : ℕ → List (BitVec 8) → Bytes → Bytes) (flashaddr : ℕ)
    (buffer : List (BitVec 8)) (m : Bytes) : Bytes :=
  let odd := buffer.length % 2
  let m := spiFlashWriteArea flashaddr (buffer.take odd) m
  if buffer.length - odd ≠ 0 then aai (flashaddr + odd) (buffer.drop odd) m else m

/-! ## Devices -/

structure FlDevice where
  flName : String
  flMfg : BitVec 8
  flId : BitVec 8
  deriving DecidableEq

def flKnownDev : List FlDevice :=
  [⟨"sst25vf080", 0xbf, 0x8e⟩, ⟨"winb25x128", 0xef, 0x18⟩, ⟨"winb25x64", 0xef, 0x17⟩,
    ⟨"winb25x80", 0xef, 0x14⟩, ⟨"winb25x40", 0xef, 0x13⟩, ⟨"winb25x20", 0xef, 0x12⟩,
    ⟨"winb25x10", 0xef, 0x11⟩]

/-- The chip with the maker and the device code that `read_jedecid` has read. -/
def flDevident (mfg id : BitVec 8) : Option FlDevice :=
  flKnownDev.find? fun dev => dev.flMfg = mfg ∧ dev.flId = id

structure FlMap where
  flMapBase : ℕ
  flMapSize : ℕ
  flMapOffset : ℕ
  deriving DecidableEq

def tgtFlashmap : List FlMap := [⟨0xbfc00000, 0x80000, 0⟩]

def flFindMap (base : ℕ) : Option FlMap :=
  tgtFlashmap.find? fun map => map.flMapBase ≤ base ∧ base ≤ map.flMapBase + map.flMapSize - 1

def FlMap.offset (map : FlMap) (base : ℕ) : ℕ := base - map.flMapBase + map.flMapOffset

def flEraseDevice (flBase size : ℕ) (m : Bytes) : Option Bytes :=
  (flFindMap flBase).map fun map =>
    let off := map.offset flBase
    spiFlashEraseArea off (off + size) 0x10000 m

section Programming

variable (aai : ℕ → List (BitVec 8) → Bytes → Bytes) (norDev : Option FlDevice)

def flProgramDevice (flBase : ℕ) (data : List (BitVec 8)) (m : Bytes) : Option Bytes :=
  (flFindMap flBase).map fun map =>
    let off := map.offset flBase
    match norDev with
    | some dev =>
      if dev.flMfg = 0xbf then spiFlashWriteAreaSstFast aai off data m
      else if dev.flMfg = 0xef then spiFlashWriteAreaFast off data m
      else m
    | none => spiFlashWriteArea off data m

/-- The first byte that differs ends the comparison; `erase` is the answer to the question
whether the whole flash shall be erased then. -/
def flVerifyDevice (erase : Bool) (flBase : ℕ) (data : List (BitVec 8)) (m : Bytes) :
    Option Bytes :=
  match norDev, flFindMap flBase with
  | none, _ => some m
  | some _, none => none
  | some _, some map =>
    let off := flBase - map.flMapBase
    if map.flMapSize < data.length + off then some m
    else if (List.range data.length).all fun i => m (off + i) = data.getD i 0 then some m
    else if erase then flEraseDevice map.flMapBase map.flMapSize m
    else some m

def tgtFlashprogram (erase : Bool) (flBase : ℕ) (s : List (BitVec 8)) (m : Bytes) :
    Option Bytes := do
  let m ← flEraseDevice flBase s.length m
  let m ← flProgramDevice aai norDev flBase s m
  flVerifyDevice norDev erase flBase s m

end Programming

end SpiFlash

end LuojiOs
