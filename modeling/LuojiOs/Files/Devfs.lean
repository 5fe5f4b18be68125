import LuojiOs.Env.Nvram
import LuojiOs.Support.Buffer
import Mathlib.Logic.Function.Basic

/-!
# Block devices

The functions of `devfs.c` over the USB storage driver.  A device is read in commands of at
most 16 blocks, each tried three times; which of the commands of a run succeed is given by
`transport`, and a command that fails leaves the buffer as it was.

The destination of a read is a buffer of its own.  A byte that is written behind the end of a
buffer is dropped, and `overrun` is set.  `errors` counts the message `usb_read_dst error`.
-/

namespace LuojiOs

namespace Devfs

def DEV_BSIZE : ℕ := 512

def MAXPHYS : ℕ := 32 * 1024

def USB_MAX_READ_BLK : ℕ := 16

def BLOCK_DEV_USB_STOR_FLAG : ℕ := 0

/-- A value stored in an `int`. -/
def int32 (x : ℤ) : ℤ := x.bmod (2 ^ 32)

/-- `btodb`, stored in an `unsigned int` -/
def btodb (x : ℤ) : ℕ := (x / DEV_BSIZE % 2 ^ 32).toNat

def howmany (x y : ℕ) : ℕ := (x + (y - 1)) / y

/-! ## State -/

structure UsbFoundDev where
  name : CString
  index : ℕ
  deriving DecidableEq

/-- The devices that were found, what is stored on them, and how their commands will end. -/
structure Usb where
  /-- `usb_found_devs` -/
  found : List UsbFoundDev
  /-- `usb_dev_desc[i].blksz` -/
  blksz : ℕ → ℕ
  content : ℕ → ℕ → BitVec 8
  /-- whether the command with this number succeeds -/
  transport : ℕ → Bool
  /-- the address of `_lbuff` -/
  lbuffAddr : ℕ

/-- `struct biodev`; the end of the device, which no function reads, is left out. -/
structure Biodev where
  devType : ℕ
  devIndex : ℕ
  openedFlag : Bool
  base : ℤ
  offs : ℤ
  deriving DecidableEq

/-- The static variables of `devfs.c`, the bounce buffer of the driver, and the number of
commands given so far. -/
structure Devs where
  opendevs : ℤ → Biodev
  /-- the array `_lbuff` -/
  lbuff : List (BitVec 8)
  bulkbuf : List (BitVec 8)
  commands : ℕ
  errors : ℕ
  overrun : Bool

/-- A buffer that is filled: its address, its bytes, and the place where the next byte goes. -/
structure Dest where
  addr : ℕ
  bytes : List (BitVec 8)
  pos : ℕ

def Dest.put (dst : Dest) (data : List (BitVec 8)) : Dest :=
  { dst with bytes := Buffer.put dst.bytes dst.pos data, pos := dst.pos + data.length }

/-- Bytes written to a buffer of this length from the place `i` on. -/
def Devs.wrote (length i n : ℕ) (devs : Devs) : Devs :=
  { devs with overrun := devs.overrun || decide (length < i + n) }

/-! ## `usb_storage.c` -/

/-- The bytes of `count` blocks. -/
def Usb.blocks (usb : Usb) (device start count : ℕ) : List (BitVec 8) :=
  (List.range (count * usb.blksz device)).map fun i =>
    usb.content device (start * usb.blksz device + i)

/-- `usb_test_unit_ready`: whether one of the first `tries` commands succeeds.  Behind each that
fails stands a `usb_request_sense`, a command whose own result is dropped. -/
def usbTestUnitReady (usb : Usb) : ℕ → Devs → Bool × Devs
  | 0, devs => (false, devs)
  | tries + 1, devs =>
    if usb.transport devs.commands then (true, { devs with commands := devs.commands + 1 })
    else usbTestUnitReady usb tries { devs with commands := devs.commands + 2 }

/-- `usb_read_10` and its `retry_it`: whether one of the first `tries` commands succeeds. -/
def usbRead10 (usb : Usb) : ℕ → Devs → Bool × Devs
  | 0, devs => (false, devs)
  | tries + 1, devs =>
    let ok := usb.transport devs.commands
    let devs := { devs with commands := devs.commands + 1 }
    if ok then (true, devs) else usbRead10 usb tries devs

section Read

variable (usb : Usb) (device : ℕ) (bounce : Bool)

/-- What a command has read, stored directly or by way of `bulkbuf`. -/
def deliver (data : List (BitVec 8)) (dst : Dest) (devs : Devs) : Dest × Devs :=
  let devs := if bounce then
      { devs.wrote devs.bulkbuf.length 0 data.length with
        bulkbuf := Buffer.put devs.bulkbuf 0 data }
    else devs
  (dst.put data, devs.wrote dst.bytes.length dst.pos data.length)

/-- The loop of `usb_stor_read`, with the number of blocks that are left at its end. -/
def usbStorReadFrom : ℕ → ℕ → ℕ → Dest → Devs → ℕ × Dest × Devs
  | 0, _, blks, dst, devs => (blks, dst, devs)
  | fuel + 1, start, blks, dst, devs =>
    let smallblks := if USB_MAX_READ_BLK < blks then USB_MAX_READ_BLK else blks
    match usbRead10 usb 3 devs with
    | (false, devs) => (blks, dst, devs)
    | (true, devs) =>
      let (dst, devs) := deliver bounce (usb.blocks device start smallblks) dst devs
      if blks - smallblks = 0 then (0, dst, devs)
      else usbStorReadFrom fuel (start + smallblks) (blks - smallblks) dst devs

/-- `usb_stor_read`: the number of blocks that were read. -/
def usbStorRead (blknr blkcnt : ℕ) (dst : Dest) (devs : Devs) : ℕ × Dest × Devs :=
  if blkcnt = 0 then (0, dst, devs)
  else
    match usbTestUnitReady usb 11 devs with
    | (false, devs) => (0, dst, devs)
    | (true, devs) =>
      let (left, dst, devs) := usbStorReadFrom usb device bounce blkcnt blknr blkcnt dst devs
      (blkcnt - left, dst, devs)

end Read

/-- `usb_read_dst`, which returns nothing. -/
def usbReadDst (usb : Usb) (fd : ℤ) (blen : ℕ) (dst : Dest) (devs : Devs) : Dest × Devs :=
  let biodev := devs.opendevs fd
  let secsize := usb.blksz biodev.devIndex
  if secsize = 512 ∨ secsize = 1024 ∨ secsize = 2048 then
    let blkno := btodb biodev.offs / (secsize / DEV_BSIZE)
    let blkcnt := howmany blen secsize
    let bounce := (dst.addr + dst.pos) % 0x80 ≠ 0
    let (ret, dst, devs) := usbStorRead usb biodev.devIndex bounce blkno blkcnt dst devs
    (dst, if ret ≠ blkcnt then { devs with errors := devs.errors + 1 } else devs)
  else (dst, devs)

/-! ## `devfs.c` -/

def readDevice (usb : Usb) (fd : ℤ) (blen : ℕ) (dst : Dest) (devs : Devs) : ℤ × Dest × Devs :=
  let biodev := devs.opendevs fd
  let (dst, devs) :=
    if biodev.openedFlag ∧ biodev.devType = BLOCK_DEV_USB_STOR_FLAG then
      usbReadDst usb fd blen dst devs
    else (dst, devs)
  (blen, dst, devs)

def Devs.setOffs (fd : ℤ) (offs : ℤ) (devs : Devs) : Devs :=
  { devs with opendevs := Function.update devs.opendevs fd { devs.opendevs fd with offs := offs } }

@[simp] theorem opendevs_setOffs {fd offs : ℤ} {devs : Devs} :
    (devs.setOffs fd offs).opendevs fd = { devs.opendevs fd with offs := offs } :=
  Function.update_self ..

theorem opendevs_setOffs_of_ne {fd offs x : ℤ} {devs : Devs} (h : x ≠ fd) :
    (devs.setOffs fd offs).opendevs x = devs.opendevs x :=
  Function.update_of_ne h ..

/-- The place of `lbuff` in `_lbuff`: the first address that is a multiple of `DEV_BSIZE`. -/
def Usb.lbuffStart (usb : Usb) : ℕ := (DEV_BSIZE - usb.lbuffAddr % DEV_BSIZE) % DEV_BSIZE

/-- `read_device(fd, lbuff, DEV_BSIZE)` -/
def readLbuff (usb : Usb) (fd : ℤ) (devs : Devs) : ℤ × Devs :=
  let dst : Dest := { addr := usb.lbuffAddr, bytes := devs.lbuff, pos := usb.lbuffStart }
  let (ret, dst, devs) := readDevice usb fd DEV_BSIZE dst devs
  (ret, { devs with lbuff := dst.bytes })

/-- The loop of `devio_read`, with the last `ret` and the number of bytes left at its end. -/
def devioReadFrom (usb : Usb) (fd : ℤ) : ℕ → ℤ → ℕ → Dest → Devs → ℤ × ℕ × Dest × Devs
  | 0, ret, leftlen, dst, devs => (ret, leftlen, dst, devs)
  | fuel + 1, ret, leftlen, dst, devs =>
    if leftlen = 0 then (ret, leftlen, dst, devs)
    else
      let offs := (devs.opendevs fd).offs
      if offs % DEV_BSIZE ≠ 0 ∨ leftlen < DEV_BSIZE then
        let suboffs := (offs % DEV_BSIZE).toNat
        let n := min (DEV_BSIZE - suboffs) leftlen
        let (ret, devs) := readLbuff usb fd (devs.setOffs fd (offs - suboffs))
        if ret < 0 then (ret, leftlen, dst, devs)
        else
          let data := (devs.lbuff.drop (usb.lbuffStart + suboffs)).take n
          let devs := devs.wrote dst.bytes.length dst.pos n
          devioReadFrom usb fd fuel ret (leftlen - n) (dst.put data)
            (devs.setOffs fd ((devs.opendevs fd).offs + (suboffs + n)))
      else
        let n := if leftlen % DEV_BSIZE ≠ 0 then min (leftlen - leftlen % DEV_BSIZE) MAXPHYS
          else min leftlen MAXPHYS
        -- `buf += n` counts what was asked for, not what was stored
        let (ret, dst', devs) := readDevice usb fd n dst devs
        if ret < 0 then (ret, leftlen, dst', devs)
        else
          devioReadFrom usb fd fuel ret (leftlen - n) { dst' with pos := dst.pos + n }
            (devs.setOffs fd ((devs.opendevs fd).offs + n))

/-- `devio_read`: the result, and the buffer `buf` after it. -/
def devioRead (usb : Usb) (fd : ℤ) (dst : Dest) (blen : ℕ) (devs : Devs) : ℤ × Dest × Devs :=
  let biodev := devs.opendevs fd
  if biodev.offs < biodev.base then (-1, dst, devs)
  else if blen = 0 then (0, dst, devs)
  else
    let (ret, leftlen, dst, devs) := devioReadFrom usb fd blen 0 blen dst devs
    (if ret < 0 then ret else int32 (blen - leftlen : ℕ), dst, devs)

def devioLseek (fd : ℤ) (offs : ℤ) (whence : ℤ) (devs : Devs) : ℤ × Devs :=
  let biodev := devs.opendevs fd
  let offs' := if whence = 0 then biodev.base + offs else biodev.offs + offs
  (offs' - biodev.base, devs.setOffs fd offs')

/-! ## Opening -/

/-- A prefix that may stand at the beginning of a name. -/
def skipPrefix (pre s : CString) : CString := if pre.isPrefixOf s then s.drop pre.length else s

/-- What stands before a character, and behind it, if it is there: `strchr`, and a 0 stored at
the place that it finds. -/
def cutAt (c : BitVec 8) (s : CString) : CString × Option CString :=
  (s.takeWhile (· ≠ c), if c ∈ s then some ((s.dropWhile (· ≠ c)).drop 1) else none)

/-- `find_usb_device`: the index of the device, and its slot with the index noted. -/
def findUsbDevice (usb : Usb) (name : CString) (biodev : Biodev) : Option (ℕ × Biodev) :=
  (usb.found.find? fun dev => striequ name dev.name).map fun dev =>
    (dev.index, { biodev with devType := BLOCK_DEV_USB_STOR_FLAG, devIndex := dev.index })

/-- `find_device`: the slot of the device with this name. -/
def findDevice (usb : Usb) (name : CString) (biodev : Biodev) : Option Biodev :=
  let pname := skipPrefix (cstr "/") (skipPrefix (cstr "disk/") (skipPrefix (cstr "/dev/") name))
  (findUsbDevice usb pname biodev).map Prod.snd

def devioOpen (usb : Usb) (fd : ℤ) (name : CString) (devs : Devs) : ℤ × Devs :=
  let biodev := devs.opendevs fd
  if biodev.openedFlag then (0, devs)
  else
    match findDevice usb name biodev with
    | some biodev =>
      let biodev := { biodev with base := 0, offs := 0, openedFlag := true }
      (1, { devs with opendevs := Function.update devs.opendevs fd biodev })
    | none => (0, devs)

/-- `devio_close`, which returns nothing. -/
def devioClose (fd : ℤ) (devs : Devs) : Devs :=
  { devs with
    opendevs := Function.update devs.opendevs fd { devs.opendevs fd with openedFlag := false } }

end Devfs

end LuojiOs
