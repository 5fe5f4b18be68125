import LuojiOs.Support.CStrings

/-!
# The TFTP client

The functions of `tftplib.c` wait for the network in rounds: a round sends the request once
and then waits for one answer.  The network is a parameter.  It has a state of its own, and
what it does in each round is given by an event; a call that needs more rounds than there are
events has not returned yet.

Left out are the messages that are printed, `errno`, and the search for the server before the
socket is used, of which only the success is kept.
-/

namespace LuojiOs

abbrev Datagram := List (BitVec 8)

namespace Tftp

def RRQ : BitVec 16 := 1
def WRQ : BitVec 16 := 2
def DATA : BitVec 16 := 3
def ACK : BitVec 16 := 4
def ERROR : BitVec 16 := 5

def O_RDONLY : BitVec 16 := 0
def O_WRONLY : BitVec 16 := 1
def O_ACCMODE : BitVec 16 := 3

def SEGSIZE : ℕ := 512

def PKTSIZE : ℕ := SEGSIZE + 4

def MAXREXMT : ℤ := 0x7fffffff

/-- The port of the service `tftp` in `servtab`. -/
def servicePort : BitVec 16 := 69

/-! ## Bytes of a packet -/

/-- `htons`: the bytes of a number, the high one first. -/
def htons (v : BitVec 16) : Datagram := [v.extractLsb' 8 8, v.extractLsb' 0 8]

/-- `ntohs`: the number at the address `a`. -/
def ntohs (m : Bytes) (a : ℕ) : BitVec 16 := m a ++ m (a + 1)

/-- The two numbers of the header, stored back in the byte order of the processor. -/
def hostOrder (m : Bytes) : Bytes :=
  (((m.set 0 (m 1)).set 1 (m 0)).set 2 (m 3)).set 3 (m 2)

/-- The first `n` bytes of a buffer. -/
def firstBytes (m : Bytes) (n : ℕ) : Datagram := (List.range n).map m

end Tftp

open Tftp

/-! ## State -/

/-- `struct tftpfile`, with `end` as `stop` and the port of `sin`.  `ackbuf` is the static
buffer of `tftpwrq`. -/
structure TftpFile where
  port : BitVec 16
  block : BitVec 16
  flags : BitVec 16
  eof : Bool
  start : ℤ
  stop : ℤ
  foffs : ℤ
  buf : Bytes
  ackbuf : Bytes

/-- What `select` and `recvfrom` return. -/
inductive Reply where
  | selectFails
  | timesOut
  | recvFails
  | packet (port : BitVec 16) (bytes : Datagram)

/-- A network with states `W` and events `E`. -/
structure Network (W E : Type) where
  /-- `sendto`; nothing if it fails -/
  sendto : E → BitVec 16 → Datagram → W → Option W
  wait : E → W → W × Reply
  /-- `synchnet` throws away what has arrived. -/
  synchnet : W → W

/-- The file, the network, and the events of the rounds to come. -/
structure Session (W E : Type) where
  rounds : List E
  net : W
  file : TftpFile

/-- What is done with a packet: the value to return, or none for another round, and whether
`synchnet` is called. -/
structure Handled where
  ret : Option ℤ
  file : TftpFile
  flush : Bool

/-! ## Packets -/

def makerequest (request : BitVec 16) (name mode : Datagram) : Datagram :=
  htons request ++ name ++ [0] ++ mode ++ [0]

def octet : Datagram := [0x6f, 0x63, 0x74, 0x65, 0x74]

namespace TftpFile

/-- The port of the packet is taken over, or has to be the known one. -/
def checkPort (learn : Bool) (port : BitVec 16) (tfp : TftpFile) : Option TftpFile :=
  if learn then some { tfp with port := port } else if port ≠ tfp.port then none else some tfp

def tftpnxtblk (tfp : TftpFile) : TftpFile := { tfp with block := tfp.block + 1 }

/-- `th_opcode` and `th_block` of the packet in `buf`. -/
def header (opcode block : BitVec 16) (tfp : TftpFile) : TftpFile :=
  { tfp with buf := tfp.buf.write 0 (htons opcode ++ htons block) }

end TftpFile

/-- The packet part of `tftprrq`; `recvfrom` reads at most `PKTSIZE` bytes into `buf`. -/
def rrqPacket (port : BitVec 16) (bytes : Datagram) (tfp : TftpFile) : Handled :=
  let bytes := bytes.take PKTSIZE
  let tfp := { tfp with buf := tfp.buf.write 0 bytes }
  match tfp.checkPort (tfp.block.toNat ≤ 1) port with
  | none => ⟨none, tfp, false⟩
  | some tfp =>
    let opcode := ntohs tfp.buf 0
    let block := ntohs tfp.buf 2
    let tfp := { tfp with buf := hostOrder tfp.buf }
    if opcode = ERROR then ⟨some (-1), tfp, false⟩
    else if opcode = DATA then
      if block = tfp.block then
        let n : ℤ := bytes.length - 4
        ⟨some n, if n < SEGSIZE then { tfp with eof := true } else tfp, false⟩
      -- both sides are promoted to `int`
      else if (block.toNat : ℤ) ≠ tfp.block.toNat - 1 then ⟨some (-1), tfp, true⟩
      else ⟨none, tfp, true⟩
    else ⟨none, tfp, false⟩

/-- The packet part of `tftpwrq`. -/
def wrqPacket (size : ℤ) (port : BitVec 16) (bytes : Datagram) (tfp : TftpFile) : Handled :=
  let bytes := bytes.take PKTSIZE
  let tfp := { tfp with ackbuf := tfp.ackbuf.write 0 bytes }
  match tfp.checkPort (tfp.block = 0) port with
  | none => ⟨none, tfp, false⟩
  | some tfp =>
    let opcode := ntohs tfp.ackbuf 0
    let block := ntohs tfp.ackbuf 2
    let tfp := { tfp with ackbuf := hostOrder tfp.ackbuf }
    if opcode = ERROR then ⟨some (-1), tfp, false⟩
    else if opcode = ACK then
      if block = tfp.block then ⟨some size, tfp, false⟩
      else if (block.toNat : ℤ) ≠ tfp.block.toNat - 1 then ⟨some (-1), tfp, true⟩
      else ⟨none, tfp, true⟩
    else ⟨none, tfp, false⟩

/-- `if (++rexmt > MAXREXMT) return -1; if (rexmt > 100) return -2;` -/
def rrqTimeout (rexmt : BitVec 32) : Option ℤ :=
  if MAXREXMT < rexmt.toInt then some (-1) else if 100 < rexmt.toInt then some (-2) else none

def wrqTimeout (rexmt : BitVec 32) : Option ℤ := if MAXREXMT < rexmt.toInt then some (-1) else none

section Calls

variable {W E : Type} (N : Network W E)

/-- The loop that `tftprrq` and `tftpwrq` share.  They differ in what ends it after a send,
after a timeout, and with a packet. -/
def exchange (req : Datagram) (sent : TftpFile → Bool) (timeout : BitVec 32 → Option ℤ)
    (packet : BitVec 16 → Datagram → TftpFile → Handled) :
    List E → BitVec 32 → TftpFile → W → Option (ℤ × Session W E)
  | [], _, _, _ => none
  | e :: es, rexmt, tfp, w =>
    match N.sendto e tfp.port req w with
    | none => some (-1, ⟨es, w, tfp⟩)
    | some w =>
      if sent tfp then some (0, ⟨es, w, tfp⟩)
      else
        match N.wait e w with
        | (w, .selectFails) => some (-1, ⟨es, w, tfp⟩)
        | (w, .timesOut) =>
          match timeout (rexmt + 1) with
          | some ret => some (ret, ⟨es, w, tfp⟩)
          | none => exchange req sent timeout packet es (rexmt + 1) tfp w
        | (w, .recvFails) => some (-1, ⟨es, w, tfp⟩)
        | (w, .packet port bytes) =>
          let h := packet port bytes tfp
          let w := if h.flush then N.synchnet w else w
          match h.ret with
          | some ret => some (ret, ⟨es, w, h.file⟩)
          | none => exchange req sent timeout packet es rexmt h.file w

def tftprrq (req : Datagram) (s : Session W E) : Option (ℤ × Session W E) :=
  exchange N req TftpFile.eof rrqTimeout rrqPacket s.rounds 0 s.file s.net

def tftpwrq (req : Datagram) (size : ℤ) (s : Session W E) : Option (ℤ × Session W E) :=
  exchange N req (fun _ => false) wrqTimeout (wrqPacket size) s.rounds 0 s.file s.net

/-- `ready` says whether the server was found and the socket could be used. -/
def tftpopen (ready : Bool) (filename : Datagram) (flags : BitVec 16) (ackbuf : Bytes)
    (rounds : List E) (w : W) : Option (ℤ × Session W E) :=
  let oflags := flags &&& O_ACCMODE
  let tfp : TftpFile := ⟨servicePort, 0, flags, false, 0, 0, 0, fun _ => 0, ackbuf⟩
  if oflags ≠ O_RDONLY ∧ oflags ≠ O_WRONLY then some (-1, ⟨rounds, w, tfp⟩)
  else if ¬ready then some (-1, ⟨rounds, w, tfp⟩)
  else if oflags = O_RDONLY then do
    let (size, s) ← tftprrq N (makerequest RRQ filename octet)
      ⟨rounds, w, { tfp with block := 1 }⟩
    if size < 0 then return (-1, s)
    return (0, { s with file := { s.file with stop := s.file.start + size } })
  else do
    let req := makerequest WRQ filename octet
    let (size, s) ← tftpwrq N req (req.length - 4) ⟨rounds, w, tfp⟩
    if 0 ≤ size then return (0, s)
    return (-1, s)

/-! ## Reading -/

/-- The result of `tftpread`, with the bytes that were put into the caller's buffer. -/
structure ReadResult (W E : Type) where
  ret : ℤ
  bytes : Datagram
  session : Session W E

/-- The number of bytes that one round of the loop of `tftpread` copies. -/
def TftpFile.available (nb : ℕ) (tfp : TftpFile) : ℕ :=
  if tfp.start ≤ tfp.foffs ∧ tfp.foffs < tfp.stop then min (tfp.stop - tfp.foffs).toNat nb
  else 0

def tftpreadFrom (nread : ℕ) : ℕ → ℕ → Datagram → Session W E → Option (ReadResult W E)
  | 0, _, _, _ => none
  | fuel + 1, nb, out, s =>
    let tfp := s.file
    if nb ≠ 0 ∧ tfp.start < tfp.stop then
      let n := tfp.available nb
      let src := 4 + (tfp.foffs - tfp.start).toNat
      let out := out ++ (List.range n).map fun i => tfp.buf (src + i)
      let nb := nb - n
      let tfp := { tfp with foffs := tfp.foffs + n }
      if tfp.stop ≤ tfp.foffs then
        match tftprrq N (htons ACK ++ htons tfp.block) { s with file := tfp.tftpnxtblk } with
        | none => none
        | some (n, s) =>
          if n < 0 then some ⟨-1, out, s⟩
          else
            let tfp := s.file
            tftpreadFrom nread fuel nb out
              { s with file := { tfp with start := tfp.stop, stop := tfp.stop + n } }
      else tftpreadFrom nread fuel nb out { s with file := tfp }
    else some ⟨nread - nb, out, s⟩

/-- Every round of the loop but the last one waits for the network. -/
def tftpread (nread : ℕ) (s : Session W E) : Option (ReadResult W E) :=
  if s.file.flags &&& O_ACCMODE ≠ O_RDONLY then some ⟨-1, [], s⟩
  else tftpreadFrom N nread (s.rounds.length + 2) nread [] s

/-! ## Writing -/

/-- The next block, with `size` bytes of the data area. -/
def sendBlock (size : ℤ) (s : Session W E) : Option (ℤ × Session W E) :=
  let tfp := s.file.tftpnxtblk
  let tfp := tfp.header DATA tfp.block
  tftpwrq N (firstBytes tfp.buf (size + 4).toNat) size { s with file := tfp }

/-- The result of `tftpwrite`, with the places in the data area and the counts of its calls
of `memcpy`. -/
structure WriteResult (W E : Type) where
  ret : ℤ
  copies : List (ℤ × ℤ)
  session : Session W E

def tftpwriteFrom (nwrite : ℕ) :
    ℕ → Datagram → List (ℤ × ℤ) → Session W E → Option (WriteResult W E)
  | 0, _, _, _ => none
  | fuel + 1, data, copies, s =>
    let tfp := s.file
    if data.length ≠ 0 then
      let n := min ((SEGSIZE : ℤ) - tfp.stop) data.length
      let copies := copies ++ [(tfp.stop, n)]
      let tfp := { tfp with
        buf := tfp.buf.write ((4 : ℤ) + tfp.stop).toNat (data.take n.toNat)
        stop := tfp.stop + n
        foffs := tfp.foffs + n }
      let data := data.drop n.toNat
      if tfp.stop = (SEGSIZE : ℤ) then
        match sendBlock N tfp.stop { s with file := tfp } with
        | none => none
        | some (n, s) =>
          if n < 0 then some ⟨-1, copies, s⟩
          else tftpwriteFrom nwrite fuel data copies { s with file := { s.file with stop := 0 } }
      else tftpwriteFrom nwrite fuel data copies { s with file := tfp }
    else some ⟨nwrite - data.length, copies, s⟩

def tftpwrite (data : Datagram) (s : Session W E) : Option (WriteResult W E) :=
  if s.file.flags &&& O_ACCMODE ≠ O_WRONLY then some ⟨-1, [], s⟩
  else tftpwriteFrom N data.length (s.rounds.length + 2) data [] s

/-! ## Seeking and closing -/

inductive Whence where
  | set
  | cur
  | other
  deriving DecidableEq

def tftplseek (offs : ℤ) (how : Whence) (tfp : TftpFile) : ℤ × TftpFile :=
  let seek (noffs : ℤ) : ℤ × TftpFile :=
    if tfp.flags &&& O_ACCMODE = O_WRONLY then
      if noffs ≠ tfp.foffs then (-1, tfp) else (tfp.foffs, tfp)
    else if noffs < tfp.start then (-1, tfp)
    else (noffs, { tfp with foffs := noffs })
  match how with
  | .set => seek offs
  | .cur => seek (tfp.foffs + offs)
  | .other => (-1, tfp)

/-- `file closed` -/
def closedMessage : Datagram :=
  [0x66, 0x69, 0x6c, 0x65, 0x20, 0x63, 0x6c, 0x6f, 0x73, 0x65, 0x64]

/-- The results of the transfers in `tftpclose`, which returns 0 in any case. -/
def tftpclose (s : Session W E) : Option (List ℤ × Session W E) :=
  if s.file.flags &&& O_ACCMODE = O_WRONLY then do
    let (n, s) ← sendBlock N s.file.stop s
    if 0 ≤ n ∧ s.file.stop = SEGSIZE then
      let (m, s) ← sendBlock N 0 s
      return ([n, m], s)
    return ([n], s)
  else if s.file.foffs < s.file.stop ∨ s.file.eof = false then
    match s.rounds with
    | [] => none
    | e :: es =>
      let error := htons ERROR ++ htons 0 ++ closedMessage
      match N.sendto e s.file.port error s.net with
      | none => some ([], { s with rounds := es })
      | some w => some ([], { s with rounds := es, net := w })
  else some ([], s)

end Calls

end LuojiOs
