import LuojiOs.Support.SerialNumbers

/-!
# The text of TCP segments

`tcp_receive` of `tcp_in.c`, from where it has dealt with the acknowledgement, with the queue of
segments that are out of sequence (`ooseq`), and what `tcp_input` does about its results.  A chain
of buffers is the list of its bytes, `pbuf_realloc` and `pbuf_header` shorten it from behind and
from the front.  The application takes what it is offered: data that it refuses, as its mailbox is
full, and that then waits in `refused_data`, is left out, and so are segments with a SYN and the
window that is announced.
-/

namespace LuojiOs

namespace Tcp

/-- `TCP_SEQ_LT` -/
def seqLt (a b : BitVec 32) : Bool := decide ((a - b).toInt < 0)

/-- `TCP_SEQ_LEQ` -/
def seqLeq (a b : BitVec 32) : Bool := decide ((a - b).toInt ≤ 0)

/-- `TCP_SEQ_GT` -/
def seqGt (a b : BitVec 32) : Bool := decide (0 < (a - b).toInt)

/-- `TCP_SEQ_GEQ` -/
def seqGeq (a b : BitVec 32) : Bool := decide (0 ≤ (a - b).toInt)

/-- `TCP_SEQ_BETWEEN` -/
def seqBetween (a b c : BitVec 32) : Bool := seqGeq a b && seqLeq a c

/-- `TCP_WND` -/
def tcpWnd : BitVec 16 := 2048

/-- `struct tcp_seg` -/
structure Seg where
  seqno : BitVec 32
  len : ℕ
  p : List (BitVec 8)
  /-- `TCP_FIN` in the flags of the header -/
  fin : Bool
deriving DecidableEq

/-- `TCP_TCPLEN` -/
def Seg.tcplen (s : Seg) : ℕ := s.len + s.fin.toNat

/-- The number behind the last one of the data. -/
def Seg.edge (s : Seg) : BitVec 32 := s.seqno + BitVec.ofNat 32 s.len

/-- `len` is set, and the data is shortened to it. -/
def Seg.realloc (s : Seg) (len : BitVec 32) : Seg :=
  { s with len := len.toNat % 2 ^ 16, p := s.p.take (len.toNat % 2 ^ 16) }

/-- What `tcp_receive` uses of `struct tcp_pcb`. -/
structure Pcb where
  rcvNxt : BitVec 32
  rcvWnd : BitVec 16
  ooseq : List Seg
  /-- the state is `CLOSE_WAIT` or a later one -/
  closing : Bool

inductive Ack
  /-- `tcp_ack` -/
  | delayed
  /-- `tcp_ack_now` -/
  | now
  /-- `tcp_send_empty_ack` -/
  | empty
deriving DecidableEq

/-- `recv_data`, `TF_GOT_FIN` of `recv_flags`, and what is acknowledged. -/
structure Received where
  data : List (BitVec 8)
  gotFin : Bool
  acks : List Ack

/-! ## The queue -/

/-- The segments whose data ends at `edge` or before are taken from the queue, and a FIN is copied.
`step` is what the FIN adds to the edge. -/
def dropCovered (edge step : BitVec 32) : Bool → List Seg → Bool × List Seg
  | fin, [] => (fin, [])
  | fin, next :: rest =>
    if seqGeq (if fin then edge + step else edge) next.edge then
      dropCovered edge step (fin || next.fin) rest
    else (fin, next :: rest)

/-- `tcp_oos_insert_segment` -/
def tcpOosInsertSegment (cseg : Seg) (next : List Seg) : List Seg :=
  -- received segment overlaps all following segments
  if cseg.fin then [cseg]
  else
    -- delete some following segments
    let r := dropCovered cseg.edge 0 false next
    let cseg := { cseg with fin := r.1 }
    match r.2 with
    | [] => [cseg]
    | next :: rest =>
      if seqGt cseg.edge next.seqno then cseg.realloc (next.seqno - cseg.seqno) :: next :: rest
      else cseg :: next :: rest

/-- The previous segment is trimmed to `seqno`. -/
def trimPrev (prev : Seg) (seqno : BitVec 32) : Seg :=
  if seqGt prev.edge seqno then prev.realloc (seqno - prev.seqno) else prev

/-- The last segment is trimmed to the window. -/
def trimLast (rcvNxt : BitVec 32) (rcvWnd : BitVec 16) (inseg : Seg) : Seg :=
  -- check if the remote side overruns our receive window
  if rcvNxt + rcvWnd.setWidth 32 < BitVec.ofNat 32 inseg.tcplen + inseg.seqno then
    { inseg with fin := false }.realloc (rcvNxt + rcvWnd.setWidth 32 - inseg.seqno)
  else inseg

/-- The loop over the queue, where `mem` says whether there is memory for a copy of the segment. -/
def oosWalk (pcb : Pcb) (mem : Bool) (inseg : Seg) : Option Seg → List Seg → List Seg
  | prev, [] => prev.toList
  | prev, next :: rest =>
    if inseg.seqno = next.seqno then
      if next.len < inseg.len ∧ mem then prev.toList ++ tcpOosInsertSegment inseg (next :: rest)
      -- we ditch the incoming segment
      else prev.toList ++ next :: rest
    else if prev = none ∧ seqLt inseg.seqno next.seqno then
      -- we put the incoming segment first on the queue
      if mem then tcpOosInsertSegment inseg (next :: rest) else next :: rest
    else if prev.any fun prev => seqBetween inseg.seqno (prev.seqno + 1) (next.seqno - 1) then
      if mem then
        (prev.map (trimPrev · inseg.seqno)).toList ++ tcpOosInsertSegment inseg (next :: rest)
      else prev.toList ++ next :: rest
    else if rest = [] ∧ seqGt inseg.seqno next.seqno then
      -- segment "next" already contains all data
      if next.fin then prev.toList ++ [next]
      else if mem then
        prev.toList ++ [trimPrev next inseg.seqno, trimLast pcb.rcvNxt pcb.rcvWnd inseg]
      else prev.toList ++ [next]
    else prev.toList ++ oosWalk pcb mem inseg (some next) rest

/-- A segment that is out of sequence is put on the queue. -/
def queueSegment (pcb : Pcb) (mem : Bool) (inseg : Seg) : List Seg :=
  if pcb.ooseq = [] then if mem then [inseg] else []
  else oosWalk pcb mem inseg none pcb.ooseq

/-! ## The next segment in sequence -/

/-- The first edge is trimmed, if the segment begins before `rcv_nxt` and ends behind it. -/
def trimFront (rcvNxt : BitVec 32) (inseg : Seg) : Seg :=
  let off := rcvNxt - inseg.seqno
  { inseg with
    seqno := rcvNxt
    len := (inseg.len + (2 ^ 16 - off.toNat % 2 ^ 16)) % 2 ^ 16
    p := inseg.p.drop off.toNat }

/-- The end is trimmed to the window. -/
def trimWindow (rcvWnd : BitVec 16) (inseg : Seg) : Seg :=
  if rcvWnd.toNat < inseg.tcplen then
    { inseg with fin := false }.realloc (rcvWnd.setWidth 32)
  else inseg

/-- The queue is adjusted to a segment in sequence, and the segment to the queue. -/
def adjustOoseq (inseg : Seg) (ooseq : List Seg) : Seg × List Seg :=
  if inseg.fin then
    -- bin the ooseq queue
    (inseg, [])
  else
    let r := dropCovered inseg.edge 1 false ooseq
    let inseg := { inseg with fin := r.1 }
    match r.2 with
    | [] => (inseg, [])
    | next :: rest =>
      -- trim right side of inseg if it overlaps with the first segment on ooseq
      if seqGt (inseg.seqno + BitVec.ofNat 32 inseg.tcplen) next.seqno then
        (inseg.realloc (next.seqno - inseg.seqno), next :: rest)
      else (inseg, next :: rest)

/-- A segment in sequence is passed to the application. -/
def takeSegment (pcb : Pcb) (seg : Seg) (r : Received) : Pcb × Received :=
  ({ pcb with
      rcvNxt := pcb.rcvNxt + BitVec.ofNat 32 seg.tcplen
      rcvWnd := pcb.rcvWnd - BitVec.ofNat 16 seg.tcplen },
    { r with data := r.data ++ seg.p, gotFin := r.gotFin || seg.fin })

/-- The segments on the queue that are now in sequence. -/
def takeOoseq (pcb : Pcb) (r : Received) : List Seg → Pcb × Received
  | [] => ({ pcb with ooseq := [] }, r)
  | cseg :: rest =>
    if cseg.seqno = pcb.rcvNxt then
      takeOoseq (takeSegment pcb cseg r).1 (takeSegment pcb cseg r).2 rest
    else ({ pcb with ooseq := cseg :: rest }, r)

/-- The segment is the next in sequence. -/
def receiveNext (pcb : Pcb) (inseg : Seg) (acks : List Ack) : Pcb × Received :=
  let r := adjustOoseq (trimWindow pcb.rcvWnd inseg) pcb.ooseq
  let t := takeSegment pcb r.1 ⟨[], false, acks⟩
  let t := takeOoseq t.1 t.2 r.2
  (t.1, { t.2 with acks := t.2.acks ++ [.delayed] })

/-! ## Segments -/

/-- The end of the window. -/
def Pcb.last (pcb : Pcb) : BitVec 32 := pcb.rcvNxt + pcb.rcvWnd.setWidth 32 - 1

/-- `tcp_receive`, from the data of the segment on. -/
def tcpReceive (mem : Bool) (pcb : Pcb) (inseg : Seg) : Pcb × Received :=
  if 0 < inseg.tcplen ∧ ¬pcb.closing then
    -- first, we check if we must trim the first edge
    let trim := seqBetween pcb.rcvNxt (inseg.seqno + 1)
      (inseg.seqno + BitVec.ofNat 32 inseg.tcplen - 1)
    -- or the whole segment is < rcv_nxt
    let acks := if !trim && seqLt inseg.seqno pcb.rcvNxt then [Ack.now] else []
    let inseg := if trim then trimFront pcb.rcvNxt inseg else inseg
    -- the sequence number must be within the window
    if seqBetween inseg.seqno pcb.rcvNxt pcb.last then
      if pcb.rcvNxt = inseg.seqno then receiveNext pcb inseg acks
      else ({ pcb with ooseq := queueSegment pcb mem inseg }, ⟨[], false, acks ++ [.empty]⟩)
    else (pcb, ⟨[], false, acks ++ [.empty]⟩)
  else
    (pcb, ⟨[], false, if seqBetween inseg.seqno pcb.rcvNxt pcb.last then [] else [.now]⟩)

/-- `tcp_process` and `tcp_input` behind it, where the application takes the data. -/
def tcpInput (mem : Bool) (pcb : Pcb) (inseg : Seg) : Pcb × Received :=
  let r := tcpReceive mem pcb inseg
  if r.2.gotFin then
    ({ r.1 with
        -- the application won't call tcp_recved() for the FIN's seqno
        rcvWnd := if r.1.rcvWnd ≠ tcpWnd then r.1.rcvWnd + 1 else r.1.rcvWnd
        closing := true },
      { r.2 with acks := r.2.acks ++ [.now] })
  else r

/-- `tcp_recved` -/
def tcpRecved (len : ℕ) (pcb : Pcb) : Pcb :=
  let rcvWnd := pcb.rcvWnd + BitVec.ofNat 16 len
  { pcb with rcvWnd := if tcpWnd < rcvWnd then tcpWnd else rcvWnd }

end Tcp

end LuojiOs
