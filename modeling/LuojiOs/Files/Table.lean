import LuojiOs.Fat.File

/-!
# Opening and closing files

The functions of `filesys.c`, over the drivers of the four file systems.  The data of partitions
and of files on the network is not part of the table: the results of the calls that transfer it
are given, as are the results of the functions of a protocol.

A call has no result where the source follows a pointer that is `NULL`, or copies a path to an
array that is too short for it.
-/

namespace LuojiOs

open Devfs Fat Mtd

namespace Filesys

/-! ## `common_fun.c` -/

/-- The longest string that `strpat` has room for. -/
def MAXLN : ℕ := 256

def BANCHOR : BitVec 8 := 0xde

def EANCHOR : BitVec 8 := 0xa4

def star : BitVec 8 := 0x2a

def question : BitVec 8 := 0x3f

/-- `strposn`: what stands behind the first occurrence of `q`. -/
def behind (q : CString) : CString → Option CString
  | [] => if q = [] then some [] else none
  | c :: p => if q.isPrefixOf (c :: p) then some ((c :: p).drop q.length) else behind q p

/-- The loop of `strpat`. -/
def strpatFrom : ℕ → CString → CString → Bool
  | 0, _, _ => false
  | _, [], [] => true
  | _, [], pat => pat = [star]
  | _, _ :: _, [] => false
  | fuel + 1, c :: p, d :: pat =>
    if d = star then
      let tmp := pat.takeWhile fun e => e ≠ star ∧ e ≠ question
      -- `strposn` finds the empty string at the end
      match if tmp = [] then some [] else behind tmp (c :: p) with
      | none => false
      | some p => strpatFrom fuel p (pat.drop tmp.length)
    else if d = question ∨ d = c then strpatFrom fuel p pat
    else false

def strpat (s pat : CString) : Bool :=
  strpatFrom (s.length + pat.length + 4) (BANCHOR :: s ++ [EANCHOR]) (BANCHOR :: pat ++ [EANCHOR])

/-- `strbequ` -/
def strbequ (s pre : CString) : Bool := pre.isPrefixOf s

/-! ## `netio.c` -/

structure Url where
  protocol : CString
  hostname : CString
  filename : CString
  port : ℤ
  deriving DecidableEq

/-- How `parseUrl` ends.  A user name is copied in the wrong direction, out of memory that was
never filled, so that nothing is known of such an address. -/
inductive UrlResult where
  | bad
  | garbled
  | good (url : Url)
  deriving DecidableEq

def colon : BitVec 8 := 0x3a

/-- `atoi` -/
def atoi (s : CString) : ℤ :=
  let s := s.dropWhile isspace
  let negative := s.head? = some 0x2d
  let digits := if negative ∨ s.head? = some 0x2b then s.tail else s
  let v : ℕ := (digits.takeWhile isdigit).foldl (fun v c => 10 * v + (c.toNat - 0x30)) 0
  int32 (if negative then -v else v)

/-- The value stored in a `short`. -/
def int16 (x : ℤ) : ℤ := x.bmod (2 ^ 16)

def PROTOCOLSIZE : ℕ := 8

def HOSTNAMESIZE : ℕ := 80

def FILENAMESIZE : ℕ := 80

def parseUrl (path : CString) : UrlResult :=
  match cutAt colon path with
  | (_, none) => .bad
  | (protocol, some rest) =>
    if PROTOCOLSIZE < protocol.length + 1 then .bad
    else if ¬(cstr "//").isPrefixOf rest then .bad
    else
      let dname := rest.drop 2
      if (cutAt atSign dname).2.isSome then .garbled
      else
        match cutAt colon dname with
        | (hostname, some dname) =>
          if HOSTNAMESIZE < hostname.length + 1 then .bad
          else
            match cutAt slash dname with
            | (_, none) => .bad
            | (_, some filename) =>
              .good ⟨protocol, hostname, filename.take FILENAMESIZE, int16 (atoi dname)⟩
        | (_, none) =>
          match cutAt slash dname with
          | (hostname, some filename) =>
            if HOSTNAMESIZE < hostname.length + 1 then .bad
            else .good ⟨protocol, hostname, filename.take FILENAMESIZE, 0⟩
          | (_, none) => .good ⟨protocol, [], dname.take FILENAMESIZE, 0⟩

/-- A protocol, with the results of its `fo_open`, by the number of calls so far. -/
structure NetFileOps where
  protocol : CString
  foOpen : ℕ → Url → ℤ

/-! ## The system -/

/-- What the functions of the table are run with.  `ret` and `posn` are the result of a call of a
driver that transfers data, and the position after it, by the number of calls so far. -/
structure System where
  host : Host
  /-- `FileSystems`, each of which registers itself once -/
  fileSystems : List FileSystem
  nodup : fileSystems.Nodup
  /-- `NetFileSystems` -/
  netFileSystems : List NetFileOps
  ret : ℕ → ℤ
  posn : ℕ → ℤ

variable (sys : System) (close : ℤ → World → Option (ℤ × World))

/-! ## Drivers -/

/-- The loop of `netopen` over the protocols: the result, and whether one of them has opened the
file. -/
def netopenFrom (fd : ℤ) (url : Url) : List NetFileOps → ℕ → Bool → World →
    ℤ × Bool × World
  | [], _, ok, w => (fd, ok, w)
  | ops :: rest, i, ok, w =>
    if url.protocol = ops.protocol then
      match w.heap.malloc sys.host 8 with
      | (none, heap) => (-1, false, { w with heap := heap })
      | (some nfp, heap) =>
        let w := { w with heap := heap, netCalls := w.netCalls + 1 }
        let w := w.onFile fd fun file => { file with data := some (.net nfp i) }
        if ops.foOpen (w.netCalls - 1) url ≠ 0 then
          (-1, false, { w with heap := w.heap.free (some nfp) })
        else netopenFrom fd url rest (i + 1) true w
    else netopenFrom fd url rest (i + 1) ok w

def netopen (fd : ℤ) (path : CString) (w : World) : Option (ℤ × Bool × World) :=
  match parseUrl (skipPrefix (cstr "/dev/net/") path) with
  | .bad => some (-1, false, w)
  | .garbled => none
  | .good url => some (netopenFrom sys fd url sys.netFileSystems 0 false w)

/-- `mtdfile_open`, whose memory is not checked -/
def mtdopen (fd : ℤ) (path : CString) (w : World) : Option (ℤ × World) :=
  match mtdfileOpen path w.mtdfiles with
  | none => some (-1, w)
  | some (priv, mtdfiles) =>
    match w.heap.malloc sys.host 12 with
    | (none, _) => none
    | (some block, heap) =>
      let w := { w with mtdfiles := mtdfiles, heap := heap }
      some (fd, w.onFile fd fun file => { file with posn := 0, data := some (.mtd block priv) })

/-- `(*fsp->open)`: the result, with the call recorded. -/
def driverOpen (fs : FileSystem) (fd : ℤ) (path : CString) (w : World) : Option (ℤ × World) :=
  match fs with
  | .mtd => (mtdopen sys fd path w).map fun (res, w) =>
      (res, w.record (.opened .mtd fd (res = fd)))
  | .fat => (fatOpen sys.host close fd path w).map fun (res, w) =>
      (res, w.record (.opened .fat fd (res = fd)))
  | .disk =>
    let (res, devs) := devioOpen sys.host.usb fd path w.devs
    some (res, { w with devs := devs }.record (.opened .disk fd (res = 1)))
  | .net => (netopen sys fd path w).map fun (res, ok, w) =>
      (res, w.record (.opened .net fd ok))

/-- `->close`; `devio_close` returns nothing. -/
def driverClose (fs : FileSystem) (fd : ℤ) (w : World) : Option (ℤ × World) :=
  let calls := w.calls.length
  let w := w.record (.closed fs fd)
  match fs with
  | .mtd =>
    match (w.file fd).data with
    | some (.mtd block priv) =>
      some (0, { w with mtdfiles := mtdfileClose priv w.mtdfiles, heap := w.heap.free (some block) })
    | _ => none
  | .fat => fatClose close fd w
  | .disk => some (sys.ret calls, { w with devs := devioClose fd w.devs })
  | .net =>
    match (w.file fd).data with
    | some (.net _ _) => some (sys.ret calls, w)
    | _ => none

/-- `->read`, `->write` and `->lseek` of a partition or of a file on the network -/
def driverData (fs : FileSystem) (fd : ℤ) (w : World) : Option (ℤ × World) :=
  let calls := w.calls.length
  match fs, (w.file fd).data with
  | .mtd, some (.mtd _ _) => some (sys.ret calls, w.setPosn fd (sys.posn calls))
  | .net, some (.net _ _) => some (sys.ret calls, w)
  | _, _ => none

/-! ## The table -/

/-- `__try_open`, for the path `dname` or, without one, for the type `FS_FILE`. -/
def tryOpen (fname : CString) (dname : Option CString) (lu : ℤ) :
    List FileSystem → World → Option (ℤ × World)
  | [], w => some (-1, w)
  | fsp :: fss, w =>
    let opened (w : World) : Option (ℤ × World) :=
      some (lu, w.onFile lu fun file => { file with valid := true, posn := 0, fs := some fsp })
    match dname with
    | some name =>
      if strbequ name fsp.devname then
        match driverOpen sys close fsp lu fname w with
        | none => none
        | some (xx, w) => if xx ≠ lu then some (-1, w) else opened w
      else tryOpen fname dname lu fss w
    | none =>
      if fsp.isFsFile then
        match driverOpen sys close fsp lu fname w with
        | none => none
        | some (xx, w) => if xx = lu then opened w else tryOpen fname dname lu fss w
      else tryOpen fname dname lu fss w

/-- The call of `__try_open` that a path leads to: its `fname` and its `dname`. -/
def route (filename : CString) : CString × Option CString :=
  if (cstr "/dev/").isPrefixOf filename then (filename, some (filename.drop 5))
  else if strpat filename (cstr "*ftp://*") then (filename, some (cstr "net"))
  else if strpat filename (cstr "file://*") then (filename.drop 6, none)
  else if strpat filename (cstr "http://*") ∨ strpat filename (cstr "nfs://*") then
    (filename, some (cstr "net"))
  else (filename, some filename)

/-- The first entry that is free. -/
def freeEntry (w : World) : Option ℕ :=
  (List.range OPEN_MAX).find? fun lu => ¬(w.file lu).valid

def clearedFile : File := ⟨false, 0, none, none⟩

def openFile (filename : CString) (w : World) : Option (ℤ × World) :=
  match freeEntry w with
  | none => some (-1, w)
  | some lu =>
    if ¬(cstr "/dev/").isPrefixOf filename ∧ MAXLN < filename.length + 3 then none
    else
      let w := w.onFile lu fun _ => { clearedFile with valid := true }
      let (fname, dname) := route filename
      (tryOpen sys close fname dname lu sys.fileSystems w).map fun (i, w) =>
        (i, if i = -1 then w.setValid lu false else w)

/-- `(fd < OPEN_MAX) && _file[fd].valid` -/
def isOpen (fd : ℤ) (w : World) : Bool := fd < OPEN_MAX ∧ (w.file fd).valid

/-- `close`, for calls from within drivers nested up to the given depth. -/
def closeNested : ℕ → ℤ → World → Option (ℤ × World)
  | 0, _, _ => none
  | depth + 1, fd, w =>
    if isOpen fd w then
      match (w.file fd).fs with
      | none => none
      | some fs => driverClose sys (closeNested depth) fs fd (w.setValid fd false)
    else some (0, w)

/-- Each nested call closes one more descriptor. -/
def closeFile : ℤ → World → Option (ℤ × World) := closeNested sys (OPEN_MAX + 2)

def readFile (fd : ℤ) (n : ℕ) (w : World) : Option (ℤ × World) :=
  if isOpen fd w then
    match (w.file fd).fs with
    | none => none
    | some fs =>
      let w := w.record (.used fs fd)
      match fs with
      | .fat => (fatRead sys.host fd n w).map fun (res, _, w) => (res, w)
      | .disk =>
        let (res, _, devs) := devioRead sys.host.usb fd ⟨0, List.replicate n 0, 0⟩ n w.devs
        some (res, { w with devs := devs })
      | _ => driverData sys fs fd w
  else some (-1, w)

def writeFile (fd : ℤ) (w : World) : Option (ℤ × World) :=
  if isOpen fd w then
    match (w.file fd).fs with
    | none => none
    | some fs =>
      let w := w.record (.used fs fd)
      match fs with
      | .fat => some (fatWrite, w)
      | .disk => some (sys.ret w.calls.length, { w with
          devs := w.devs.setOffs fd (sys.posn w.calls.length) })
      | _ => driverData sys fs fd w
  else some (-1, w)

def lseekFile (fd : ℤ) (offset : ℤ) (whence : Fat.Whence) (w : World) : Option (ℤ × World) :=
  if isOpen fd w then
    match (w.file fd).fs with
    | none => none
    | some fs =>
      let w := w.record (.used fs fd)
      match fs with
      | .fat => fatLseek fd offset whence w
      | .disk =>
        let (res, devs) := devioLseek fd offset (if whence = .set then 0 else 1) w.devs
        some (res, { w with devs := devs })
      | _ => driverData sys fs fd w
  else some (-1, w)

/-! ## Runs -/

inductive FileCall where
  | openFile (filename : CString)
  | read (fd : ℤ) (n : ℕ)
  | write (fd : ℤ) (n : ℕ)
  | lseek (fd : ℤ) (offset : ℤ) (whence : Fat.Whence)
  | close (fd : ℤ)
  deriving DecidableEq

/-- A call: its result, and the state after it. -/
def exec (w : World) : FileCall → Option (ℤ × World)
  | .openFile filename => openFile sys (closeFile sys) filename w
  | .read fd n => readFile sys fd n w
  | .write fd _ => writeFile sys fd w
  | .lseek fd offset whence => lseekFile sys fd offset whence w
  | .close fd => closeFile sys fd w

def step (w : World) (call : FileCall) : Option World := (exec sys w call).map Prod.snd

/-- The state after the start: no file is open, and no device, and nothing has been recorded. -/
structure Boot (w : World) : Prop where
  file : ∀ fd : ℤ, 0 ≤ fd → fd < OPEN_MAX → w.file fd = clearedFile
  opendevs : ∀ fd, (w.devs.opendevs fd).openedFlag = false
  myfile : ∀ fd, w.myfile fd = none
  calls : w.calls = []
  requests : w.requests = []

end Filesys

end LuojiOs
