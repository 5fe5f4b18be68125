import LuojiOs.Support.CStrings

/-!
# The environment variables

The variables are kept twice: in the table `envvar` in RAM, and as strings `name=value` in
one sector of the flash.  The sector begins with a checksum of two bytes.  The strings
follow, each with a NUL at its end, and an empty string ends them.

A call of `malloc` has its result as a parameter of the function that makes it.  For a
block of `NVRAM_SECSIZE` bytes this is the memory from the block on, with what lies in the
block and behind it, or nothing if the call returns `NULL`.
-/

namespace LuojiOs

/-- A string, without the NUL at its end. -/
abbrev CString := List (BitVec 8)

instance CString.decidableMem (c : BitVec 8) (s : CString) : Decidable (c ∈ s) :=
  List.instDecidableMemOfLawfulBEq c s

def cstr (s : String) : CString := s.toList.map fun c => BitVec.ofNat 8 c.toNat

def NVRAM_SECSIZE : ℕ := 4096

/-- The largest number of variables in RAM. -/
def NVAR : ℕ := 64

def ENV_MAC_NAME : CString := cstr "ethaddr"

/-- The character `=`. -/
def equals : BitVec 8 := 0x3d

structure EnvPair where
  name : Option CString
  value : Option CString
  deriving DecidableEq, Repr

/-- The flash and the variables of `env.c`. -/
structure Env where
  /-- the sector at `NVRAM_POS` -/
  flash : Bytes
  nvramInvalid : ℕ
  envvar : List EnvPair
  envinited : Bool

def stdenvtab : List (CString × CString) :=
  [("localIp", "192.168.11.3"), ("localMask", "255.255.255.0"),
    ("localGateway", "192.168.11.1"), ("ethaddr", "00:55:7B:B5:7D:F7"),
    ("tftpServerIp", "192.168.11.2"), ("pmonBinName", "luojios.bin"),
    ("mtdparts", "ls1x-nand:14M@0(kernel),100M@14M(rootfs),14M@114M(data);" ++
      "spi-flash:512K@0(pmon),4K@520192(nvram)"),
    ("memsize", "32"), ("highmemsize", "0"), ("pll_reg0", "0x8000549c"),
    ("pll_reg1", "0x00008283"), ("cpuclock", "252000000"), ("busclock", "126000000"),
    ("xres", "480"), ("yres", "272"), ("depth", "16"), ("systype", "FCR"), ("moresz", "10"),
    ("brkcmd", "l -r @cpc 1"), ("TZ", "UTC8"), ("datasize", "-b"), ("dlecho", "off"),
    ("dlproto", "none"), ("bootp", "no"), ("hostport", "tty0"), ("inalpha", "hex"),
    ("inbase", "16"), ("regstyle", "sw"), ("rptcmd", "trace"), ("trabort", "^K"),
    ("ulcr", "cr"), ("uleof", "%"), ("showsym", "yes"), ("fpfmt", "both"), ("fpdis", "yes"),
    ("bootdelay", "8"), ("loadelfAddr", "/dev/mtd0"),
    ("append", "console=ttyS2,115200 root=/dev/mtdblock1 rw rootfstype=yaffs2 " ++
      "video=ls1bfb:vga1024x768-24@60 panic=10 noswap"),
    ("al", "mtd0")].map fun p => (cstr p.1, cstr p.2)

def striequ (s₁ s₂ : CString) : Bool := s₁.length = s₂.length ∧ s₁ = s₂

/-! ## The table in RAM -/

/-- The value of a variable; none is given for a name that is not in the table, where the
source runs off the end of the function. -/
def getenv (name : CString) (σ : Env) : Option CString :=
  if σ.envinited then
    (σ.envvar.find? fun ep => ep.name.any (striequ name)).map fun ep => ep.value.getD []
  else none

/-- The slot of the variable `name`, and the first free slot before it. -/
def findSlot (name : CString) : List EnvPair → ℕ → Option ℕ → Option ℕ × Option ℕ
  | [], _, bp => (none, bp)
  | ep :: eps, i, bp =>
    if ep.name = none ∧ bp = none then findSlot name eps (i + 1) (some i)
    else if ep.name.any (striequ name) then (some i, bp)
    else findSlot name eps (i + 1) bp

/-- The end of `set_mem_env`: the value goes to the slot `i`. -/
def fillSlot (i : ℕ) (value : Option CString) (okValue : Bool) (envvar : List EnvPair) :
    Bool × List EnvPair :=
  match value with
  | none => (true, envvar)
  | some v =>
    if okValue then (true, envvar.modify i fun ep => { ep with value := some v })
    else (false, envvar.modify i fun _ => { name := none, value := none })

/-- `okName` and `okValue` say whether `malloc` has memory for the name and the value. -/
def setMemEnv (name : CString) (value : Option CString) (okName okValue : Bool)
    (envvar : List EnvPair) : Bool × List EnvPair :=
  match findSlot name envvar 0 none with
  | (some i, _) =>
    fillSlot i value okValue (envvar.modify i fun ep => { ep with value := none })
  | (none, some i) =>
    if okName then
      fillSlot i value okValue (envvar.modify i fun ep => { ep with name := some name })
    else (false, envvar)
  | (none, none) => (false, envvar)

/-! ## The sector -/

/-- The sum of `sz` words of 16 bits from `sp` on, the high byte first. -/
def wordSum (m : Bytes) : ℕ → ℕ → BitVec 16 → BitVec 16
  | 0, _, sum => sum
  | sz + 1, sp, sum =>
    wordSum m sz (sp + 2) (sum + (m sp).setWidth 16 <<< 8 + (m (sp + 1)).setWidth 16)

def cksum (s : ℕ) (set : Bool) (m : Bytes) : BitVec 16 × Bytes :=
  let m := if set then (m.set 0 0).set 1 0 else m
  let sum := wordSum m (s / 2) 0 0
  if set then
    let sum := -sum
    (sum, (m.set 0 ((sum >>> 8).setWidth 8)).set 1 (sum.setWidth 8))
  else (sum, m)

def nvramGet (buffer : Bytes) (σ : Env) : Bytes :=
  fun x => if x < NVRAM_SECSIZE then σ.flash x else buffer x

def nvramPut (buffer : Bytes) (σ : Env) : Env :=
  { σ with flash := fun x => if x < NVRAM_SECSIZE then buffer x else σ.flash x }

/-- The contents of a sector that is reset. -/
def resetBuffer (nvrambuf : Bytes) : BitVec 16 × Bytes :=
  cksum NVRAM_SECSIZE true (((nvrambuf.fill 0 0xff NVRAM_SECSIZE).set 2 0).set 3 0)

def resetNorEnvSpace (block : Option Bytes) (σ : Env) : Env :=
  if σ.nvramInvalid ≠ 0 then
    match block with
    | none => σ
    | some nvrambuf =>
      let (_, nvrambuf) := resetBuffer nvrambuf
      { nvramPut nvrambuf σ with nvramInvalid := 0 }
  else σ

/-- A walk that takes this many steps has met no NUL in the whole memory. -/
def maxWalk : ℕ := 4294967296

/-- `while ((*ep == *np) && (*ep != '=') && (*np != '\0'))`: what is left of the name, and
where the walk stops. -/
def matchName (m : Bytes) : CString → ℕ → CString × ℕ
  | [], ep => ([], ep)
  | c :: np, ep => if m ep = c ∧ m ep ≠ equals then matchName m np (ep + 1) else (c :: np, ep)

/-- The loop of `unset_rom_env`: where the string of `name` starts, and where its name ends. -/
def findString (name : CString) (m : Bytes) : ℕ → ℕ → Option (Option (ℕ × ℕ))
  | 0, _ => none
  | fuel + 1, ep =>
    if m ep ≠ 0 ∧ ep < NVRAM_SECSIZE then
      let (np, e) := matchName m name ep
      if np = [] ∧ (m e = 0 ∨ m e = equals) then some (some (ep, e))
      else if m e ≠ 0 then (m.skipString maxWalk e).bind (findString name m fuel)
      else findString name m fuel e
    else some none

/-- The sector without the string that starts at `sp`; the next one starts at `ep`.  The
bytes behind it move down one by one, so that none is overwritten before it is read. -/
def cutString (sp ep : ℕ) (nvrambuf : Bytes) : BitVec 16 × Bytes :=
  let m := nvrambuf.copy sp ep (NVRAM_SECSIZE - ep)
  cksum NVRAM_SECSIZE true (if m 2 = 0 then m.set 3 0 else m)

def unsetRomEnv (name : CString) (block : Option Bytes) (σ : Env) : Option (ℤ × Env) :=
  if σ.nvramInvalid ≠ 0 then some (0, σ)
  else
    match block with
    | none => some (0, σ)
    | some buffer => do
      let nvram := nvramGet buffer σ
      match ← findString name nvram (NVRAM_SECSIZE + 1) 2 with
      | none => return (0, σ)
      | some (sp, e) =>
        let ep ← nvram.skipString maxWalk e
        let (_, nvram) := cutString sp ep nvram
        return (1, nvramPut nvram σ)

/-- `do { while (*ep++ != '\0'); } while (*ep++ != '\0'); ep--;` -/
def endLoop (m : Bytes) : ℕ → ℕ → Option ℕ
  | 0, _ => none
  | fuel + 1, ep => do
    let ep ← m.skipString maxWalk ep
    if m ep ≠ 0 then endLoop m fuel (ep + 1) else some ep

/-- The end of the environment strings. -/
def endOfStrings (m : Bytes) : Option ℕ := if m 2 ≠ 0 then endLoop m maxWalk 2 else some 2

/-- What `set_rom_env` appends: the string with its NUL, and the end of the strings. -/
def entryText (name : CString) : Option CString → CString
  | some value => name ++ equals :: value ++ [0] ++ [0]
  | none => name ++ [0] ++ [0]

/-- The result of `set_rom_env`, with its buffer of `NVRAM_SECSIZE` bytes and the memory
behind it. -/
structure RomResult where
  status : ℤ
  env : Env
  buffer : Option Bytes

def setRomEnv (name : CString) (value : Option CString) (reset block scratch : Option Bytes)
    (σ : Env) : Option RomResult :=
  if name.length = 0 then some ⟨0, σ, none⟩
  else
    let envlen := name.length + (value.map List.length).getD 0 + 2
    if 255 < envlen then some ⟨0, σ, none⟩
    else
      let σ := if σ.nvramInvalid ≠ 0 then resetNorEnvSpace reset σ else σ
      match block with
      | none => some ⟨-1, σ, none⟩
      | some buffer => do
        let (_, σ) ← unsetRomEnv name scratch σ
        let m := nvramGet (buffer.fill 0 0 NVRAM_SECSIZE) σ
        let ep ← endOfStrings m
        if ep + NVRAM_SECSIZE - ep < envlen + 1 then return ⟨0, σ, some m⟩
        let (_, m) := cksum NVRAM_SECSIZE true (m.write ep (entryText name value))
        return ⟨1, nvramPut m σ, some m⟩

/-! ## Reading the sector -/

/-- The inner loop of `map_rom_env`: the place in the sector, the characters read, and the
string so far, with what follows the first `=` as the value. -/
structure EntryReader where
  ep : ℕ
  i : ℕ
  name : CString
  val : Option CString
  deriving DecidableEq, Repr

namespace EntryReader

def push (c : BitVec 8) (r : EntryReader) : EntryReader :=
  match r.val with
  | none => { r with name := r.name ++ [c] }
  | some v => { r with val := some (v ++ [c]) }

/-- `while ((*p++ = *ep++) && (ep <= nvram + NVRAM_SECSIZE - 1) && i++ < 255)` -/
def read (m : Bytes) : ℕ → EntryReader → EntryReader
  | 0, r => r
  | fuel + 1, r =>
    let c := m r.ep
    let r := { r with ep := r.ep + 1 }
    if c = 0 then r
    else if r.ep ≤ NVRAM_SECSIZE - 1 then
      if r.i < 255 then
        let r := { r with i := r.i + 1 }
        if c = equals ∧ r.val = none then read m fuel { r with val := some [] }
        else read m fuel (r.push c)
      else { r.push c with i := r.i + 1 }
    else r.push c

end EntryReader

/-- The rounds that the inner loop of `map_rom_env` can take. -/
def maxEntry : ℕ := 256

/-- The outer loop of `map_rom_env`; `oks` says which of its calls of `malloc` succeed. -/
def mapStrings (nvram : Bytes) (oks : ℕ → Bool × Bool) : ℕ → ℕ → ℕ → Env → Option Env
  | 0, _, _, _ => none
  | fuel + 1, k, ep, σ =>
    if nvram ep ≠ 0 then
      let r := EntryReader.read nvram maxEntry ⟨ep, 0, [], none⟩
      if r.ep ≤ NVRAM_SECSIZE - 1 ∧ r.i < 255 then
        let envvar := (setMemEnv r.name r.val (oks k).1 (oks k).2 σ.envvar).2
        mapStrings nvram oks fuel (k + 1) r.ep { σ with envvar := envvar }
      else some { σ with nvramInvalid := 2 }
    else some σ

def mapRomEnv (block reset : Option Bytes) (oks : ℕ → Bool × Bool) (σ : Env) : Option Env :=
  match block with
  | none => some σ
  | some buffer =>
    let nvram := nvramGet (buffer.fill 0 0 NVRAM_SECSIZE) σ
    if (cksum NVRAM_SECSIZE false nvram).1 ≠ 0 then
      some (resetNorEnvSpace reset { σ with nvramInvalid := 1 })
    else mapStrings nvram oks (NVRAM_SECSIZE + 1) 0 2 σ

/-! ## `do_setenv` and `envinit` -/

def hexDigit (c : BitVec 8) : Option ℕ :=
  let n := c.toNat
  if 0x30 ≤ n ∧ n ≤ 0x39 then some (n - 0x30)
  else if 0x41 ≤ n ∧ n ≤ 0x46 then some (n - 0x41 + 10)
  else if 0x61 ≤ n ∧ n ≤ 0x66 then some (n - 0x61 + 10)
  else none

/-- The loop of `str_to_hex`; -1 for a character that is no hexadecimal digit. -/
def strToHexFrom : CString → BitVec 32 → BitVec 32
  | [], tempx => tempx
  | c :: p, tempx =>
    match hexDigit c with
    | some d => strToHexFrom p (tempx <<< 4 + BitVec.ofNat 32 d)
    | none => -1

def strToHex (p : CString) : BitVec 32 := strToHexFrom p 0

/-- `00:11:22:33:44:55`, each byte less than 255. -/
def checkMacFormat (macStr : CString) : Bool :=
  macStr.length = 17 ∧ (∀ i ∈ [2, 5, 8, 11, 14], macStr[i]? = some 0x3a) ∧
    ∀ i ∈ [0, 3, 6, 9, 12, 15],
      let hexValue := (strToHex ((macStr.drop i).take 2)).toInt
      0 ≤ hexValue ∧ hexValue < 0xff

/-- The results of `malloc` in one call of `do_setenv`. -/
structure Allocs where
  name : Bool
  value : Bool
  reset : Option Bytes
  block : Option Bytes
  scratch : Option Bytes

def doSetenv (name value : CString) (a : Allocs) (σ : Env) : Option Env :=
  if striequ name ENV_MAC_NAME ∧ ¬checkMacFormat value then some σ
  else
    let σ := { σ with envvar := (setMemEnv name (some value) a.name a.value σ.envvar).2 }
    (setRomEnv name (some value) a.reset a.block a.scratch σ).map RomResult.env

/-- The defaults of `envinit`, for the variables of the table `tab`.  For a name that is not
set `getenv` returns no defined value; `null` says where the caller sees a null pointer. -/
def setDefaults (null : CString → Bool) (allocs : CString → Allocs) :
    List (CString × CString) → Env → Option Env
  | [], σ => some σ
  | (name, value) :: tab, σ =>
    if getenv name σ = none ∧ null name then
      (doSetenv name value (allocs name) σ).bind (setDefaults null allocs tab)
    else setDefaults null allocs tab σ

def envinit (block reset : Option Bytes) (oks : ℕ → Bool × Bool) (null : CString → Bool)
    (allocs : CString → Allocs) (σ : Env) : Option Env := do
  let σ := { σ with envvar := List.replicate NVAR ⟨none, none⟩ }
  let σ ← mapRomEnv block reset oks σ
  setDefaults null allocs stdenvtab { σ with envinited := true }

end LuojiOs
