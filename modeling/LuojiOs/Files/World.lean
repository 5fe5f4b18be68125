import LuojiOs.Fat.Volume
import LuojiOs.Mtd.Partition

/-!
# The table of open files

`_file[]` and the variables of the drivers behind it.  A descriptor is any `int`.  What stands
in memory outside of the ten entries is kept too, as the entries with other numbers.

`calls`, `requests` and `fatSteps` record the calls of drivers, the sectors that `fat_read` asks
for, and the steps of `fat_open`, newest first.  No function reads them.
-/

namespace LuojiOs

open Devfs Fat Mtd

def OPEN_MAX : ℕ := 10

/-- The registered file systems, `mtdfs`, `fatfs`, `diskfs` and `netfs`. -/
inductive FileSystem where
  | mtd
  | fat
  | disk
  | net
  deriving DecidableEq

def FileSystem.devname : FileSystem → CString
  | .mtd => cstr "mtd"
  | .fat => cstr "fat"
  | .disk => cstr "disk"
  | .net => cstr "net"

/-- `FS_FILE` is the type of one of them. -/
def FileSystem.isFsFile : FileSystem → Bool
  | .fat => true
  | _ => false

/-- What `data` of an open file points to: a partition, or the place of a protocol in the list of
protocols. -/
inductive FileData where
  | mtd (block : ℕ) (priv : Mtdpriv)
  | net (block : ℕ) (ops : ℕ)
  deriving DecidableEq

structure File where
  valid : Bool
  posn : ℤ
  fs : Option FileSystem
  data : Option FileData
  deriving DecidableEq

/-- A call of a driver; of an open, whether the object was opened. -/
inductive DriverCall where
  | opened (fs : FileSystem) (fd : ℤ) (ok : Bool)
  | used (fs : FileSystem) (fd : ℤ)
  | closed (fs : FileSystem) (fd : ℤ)
  deriving DecidableEq

/-- What `fat_read` asks `readsector` for: the number of bytes, the size that the buffer was
allocated with, and whether it is allocated. -/
structure Request where
  fd : ℤ
  bytes : ℕ
  capacity : ℕ
  allocated : Bool
  deriving DecidableEq

/-- A step of `fat_open`: `fat_init`, with its result, and `fat_findfile`. -/
inductive FatStep where
  | init (res : ℤ)
  | lookup
  deriving DecidableEq

structure World where
  file : ℤ → File
  devs : Devs
  /-- `_myfile`: the memory pointed to, and what stands there -/
  myfile : ℤ → Option (ℕ × FatSc)
  heap : Blocks
  /-- `MAX_BUFSZ_CLUSTS` -/
  maxBufszClusts : ℕ
  mtdfiles : List Mtdfile
  /-- the number of calls of `fo_open` -/
  netCalls : ℕ
  calls : List DriverCall
  requests : List Request
  fatSteps : List FatStep

namespace World

variable {w : World} {fd x : ℤ} {f : File → File}

def onFile (fd : ℤ) (f : File → File) (w : World) : World :=
  { w with file := Function.update w.file fd (f (w.file fd)) }

@[simp] theorem file_onFile : (w.onFile fd f).file fd = f (w.file fd) := Function.update_self ..

theorem file_onFile_of_ne (h : x ≠ fd) : (w.onFile fd f).file x = w.file x :=
  Function.update_of_ne h ..

def setValid (fd : ℤ) (valid : Bool) (w : World) : World :=
  w.onFile fd fun file => { file with valid := valid }

def setPosn (fd : ℤ) (posn : ℤ) (w : World) : World :=
  w.onFile fd fun file => { file with posn := posn }

def setMyfile (fd : ℤ) (self : ℕ) (fsc : FatSc) (w : World) : World :=
  { w with myfile := Function.update w.myfile fd (some (self, fsc)) }

def record (call : DriverCall) (w : World) : World := { w with calls := call :: w.calls }

end World

end LuojiOs
