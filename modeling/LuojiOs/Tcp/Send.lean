import LuojiOs.Tcp.Receive

/-!
# The queues of a sender

`tcp_write`, `tcp_send_fin` and `tcp_output` of `tcp_out.c` with the retransmissions, and what
`tcp_receive` does about an acknowledgement.  Whether a segment is passed on by IP is of no
interest here: it counts as sent.  How many buffers there are, and so the length of the queues in
buffers, is left to the caller, as are the measurement of the round trip and the choice of the
moments.
-/

namespace LuojiOs

namespace Tcp

/-- `TCP_MSS` -/
def tcpMss : ℕ := 1460

/-- `TCP_SND_BUF` -/
def tcpSndBuf : ℕ := 4096

/-- What the functions below use of `struct tcp_pcb`. -/
structure SndPcb where
  lastack : BitVec 32
  sndNxt : BitVec 32
  sndLbb : BitVec 32
  sndWl1 : BitVec 32
  sndWl2 : BitVec 32
  sndWnd : ℕ
  sndWndMax : ℕ
  sndBuf : ℕ
  mss : ℕ
  cwnd : ℕ
  ssthresh : ℕ
  dupacks : ℕ
  /-- `rtime` is not negative -/
  timing : Bool
  unsent : List Seg
  unacked : List Seg
  unsentOversize : ℕ
  /-- `TF_INFR` -/
  infr : Bool
  /-- `TF_NAGLEMEMERR` -/
  nagleMemErr : Bool
  /-- `TF_FIN`, and the state that goes with it -/
  fin : Bool
  /-- `TF_NODELAY` -/
  nodelay : Bool
deriving DecidableEq

/-! ## Writing -/

/-- `LWIP_MEM_ALIGN_SIZE` -/
def memAlign (size : ℕ) : ℕ := (size + 3) / 4 * 4

/-- `tcp_pbuf_prealloc`, where what is of interest is the room behind the data. -/
def tcpPbufPrealloc (pcb : SndPcb) (more first : Bool) (length maxLength : ℕ) : ℕ :=
  if length < maxLength ∧
      (more ∨ ¬pcb.nodelay ∧ (¬first ∨ pcb.unsent ≠ [] ∨ pcb.unacked ≠ [])) then
    min maxLength (memAlign (length + tcpMss)) - length
  else 0

/-- The first two phases of `tcp_write`: how much of the data is added to the last segment, and the
room that is behind it then.  `mem` says whether there is memory for another buffer. -/
def fillLast (pcb : SndPcb) (more copy : Bool) (mssLocal len : ℕ) (last : Seg) : ℕ × ℕ :=
  -- copy data directly into an oversized pbuf
  let used := min pcb.unsentOversize len
  let oversize := pcb.unsentOversize - used
  let space := (mssLocal + 2 ^ 16 - last.len % 2 ^ 16 + 2 ^ 16 - used) % 2 ^ 16
  -- chain a new pbuf to the end
  if used < len ∧ 0 < space ∧ 0 < last.len then
    let seglen := min space (len - used)
    (used + seglen, if copy then tcpPbufPrealloc pcb more true seglen space else oversize)
  else (used, oversize)

/-- The third phase, with room for as many segments as `room` says. -/
def newSegments (pcb : SndPcb) (more copy : Bool) (mssLocal : ℕ) :
    ℕ → Bool → BitVec 32 → List (BitVec 8) → ℕ → Option (List Seg × ℕ)
  | _, _, _, [], oversize => some ([], oversize)
  | 0, _, _, _ :: _, _ => none
  | room + 1, first, seqno, b :: data, oversize =>
    let seglen := min (b :: data).length mssLocal
    let oversize := if copy then tcpPbufPrealloc pcb more first seglen mssLocal else oversize
    (newSegments pcb more copy mssLocal room false (seqno + BitVec.ofNat 32 seglen)
      ((b :: data).drop seglen) oversize).map fun r =>
        (⟨seqno, seglen, (b :: data).take seglen, false⟩ :: r.1, r.2)

/-- The maximal size of the segments that are created. -/
def SndPcb.mssLocal (pcb : SndPcb) : ℕ := min pcb.mss (pcb.sndWndMax / 2)

/-- The queue `unsent` with the data, and the room behind its end. -/
def segmented (pcb : SndPcb) (more copy : Bool) (room : ℕ) (data : List (BitVec 8)) :
    Option (List Seg × ℕ) :=
  match pcb.unsent.getLast? with
  | none => newSegments pcb more copy pcb.mssLocal room true pcb.sndLbb data 0
  | some last =>
    let k := fillLast pcb more copy pcb.mssLocal data.length last
    (newSegments pcb more copy pcb.mssLocal room true (pcb.sndLbb + BitVec.ofNat 32 k.1)
      (data.drop k.1) k.2).map fun r =>
        (pcb.unsent.dropLast ++
          { last with len := last.len + k.1, p := last.p ++ data.take k.1 } :: r.1, r.2)

/-- `tcp_write`, and whether it has taken the data.  `mem` says that the queue is not too long and
that there is memory for the buffer that is chained to the last segment. -/
def tcpWrite (copy more mem : Bool) (room : ℕ) (data : List (BitVec 8)) (pcb : SndPcb) :
    Bool × SndPcb :=
  if pcb.fin then (false, pcb)
  else if pcb.sndBuf < data.length ∨ ¬mem then (false, { pcb with nagleMemErr := true })
  else
    match segmented pcb more copy room data with
    | none => (false, { pcb with nagleMemErr := true })
    | some r =>
      (true, { pcb with
        unsent := r.1
        unsentOversize := r.2
        sndLbb := pcb.sndLbb + BitVec.ofNat 32 data.length
        sndBuf := pcb.sndBuf - data.length })

/-- `tcp_enqueue_flags` with the FIN -/
def tcpEnqueueFlags (mem : Bool) (pcb : SndPcb) : SndPcb :=
  if ¬mem then { pcb with nagleMemErr := true }
  else if pcb.sndBuf = 0 then pcb
  else
    { pcb with
      unsent := pcb.unsent ++ [⟨pcb.sndLbb, 0, [], true⟩]
      unsentOversize := 0
      sndLbb := pcb.sndLbb + 1
      sndBuf := pcb.sndBuf - 1
      fin := true }

/-- `tcp_send_fin` -/
def tcpSendFin (mem : Bool) (pcb : SndPcb) : SndPcb :=
  match pcb.unsent.getLast? with
  | none => tcpEnqueueFlags mem pcb
  | some last =>
    -- first, try to add the fin to the last unsent segment
    if last.fin then tcpEnqueueFlags mem pcb
    else { pcb with unsent := pcb.unsent.dropLast ++ [{ last with fin := true }], fin := true }

/-! ## Output -/

/-- A segment is put before the first one that does not come before it. -/
def insertSeg (seg : Seg) : List Seg → List Seg
  | [] => [seg]
  | cur :: rest =>
    if seqLt cur.seqno seg.seqno then cur :: insertSeg seg rest else seg :: cur :: rest

/-- `tcp_do_output_nagle`, where `long` says that the queue has `TCP_SND_QUEUELEN` buffers. -/
def tcpDoOutputNagle (long : Bool) (pcb : SndPcb) : Bool :=
  pcb.unacked.isEmpty || pcb.nodelay || pcb.infr ||
    (match pcb.unsent with
      | [] => false
      | seg :: rest => !rest.isEmpty || decide (pcb.mss ≤ seg.len)) ||
    decide (pcb.sndBuf = 0) || long

/-- A segment that is sent is put on the unacknowledged list. -/
def putUnacked (seg : Seg) (unacked : List Seg) : List Seg :=
  match unacked.getLast? with
  | none => [seg]
  | some useg =>
    -- in the case of fast retransmit, the packet should not go to the tail
    if seqLt seg.seqno useg.seqno then insertSeg seg unacked else unacked ++ [seg]

/-- What `tcp_output` and `tcp_output_segment` note about a segment that is sent. -/
def noteSent (seg : Seg) (pcb : SndPcb) : SndPcb :=
  let sndNxt := seg.seqno + BitVec.ofNat 32 seg.tcplen
  { pcb with
    timing := true
    sndNxt := if seqLt pcb.sndNxt sndNxt then sndNxt else pcb.sndNxt
    unacked := if 0 < seg.tcplen then putUnacked seg pcb.unacked else pcb.unacked }

/-- `ntohl(seg->tcphdr->seqno) - pcb->lastack + seg->len` -/
def windowUse (pcb : SndPcb) (seg : Seg) : ℕ :=
  (seg.seqno - pcb.lastack + BitVec.ofNat 32 seg.len).toNat

/-- The loop of `tcp_output`, with the segments that it sends. -/
def outputLoop (long : Bool) (wnd : ℕ) (pcb : SndPcb) : List Seg → SndPcb × List Seg
  | [] => ({ pcb with unsent := [] }, [])
  | seg :: rest =>
    if windowUse pcb seg ≤ wnd ∧
        (tcpDoOutputNagle long { pcb with unsent := seg :: rest } ∨ pcb.nagleMemErr ∨ pcb.fin) then
      let r := outputLoop long wnd (noteSent seg pcb) rest
      (r.1, seg :: r.2)
    else ({ pcb with unsent := seg :: rest }, [])

/-- `tcp_output`, where `ackNow` is `TF_ACK_NOW`. -/
def tcpOutput (ackNow long : Bool) (pcb : SndPcb) : SndPcb × List Seg :=
  let wnd := min pcb.sndWnd pcb.cwnd
  if ackNow ∧ pcb.unsent.head?.all (fun seg => wnd < windowUse pcb seg) then (pcb, [])
  else
    let r := outputLoop long wnd pcb pcb.unsent
    ({ r.1 with
        unsentOversize := if r.1.unsent = [] then 0 else r.1.unsentOversize
        nagleMemErr := false },
      r.2)

/-! ## Retransmission -/

/-- `tcp_rexmit_rto`, from the part of `tcp_slowtmr` on that calls it. -/
def tcpRexmitRto (ackNow long : Bool) (pcb : SndPcb) : SndPcb × List Seg :=
  if pcb.unacked = [] then (pcb, [])
  else
    tcpOutput ackNow long { pcb with
      timing := true
      ssthresh := max (min pcb.cwnd pcb.sndWnd / 2) (2 * pcb.mss)
      cwnd := pcb.mss
      -- move all unacked segments to the head of the unsent queue
      unsent := pcb.unacked ++ pcb.unsent
      unacked := [] }

/-- `tcp_rexmit` -/
def tcpRexmit (pcb : SndPcb) : SndPcb :=
  match pcb.unacked with
  | [] => pcb
  | seg :: rest =>
    { pcb with
      unacked := rest
      unsent := insertSeg seg pcb.unsent
      -- the retransmitted segment may be the last in unsent
      unsentOversize :=
        if pcb.unsent.all fun cur => seqLt cur.seqno seg.seqno then 0 else pcb.unsentOversize }

/-- `tcp_rexmit_fast` -/
def tcpRexmitFast (pcb : SndPcb) : SndPcb :=
  if pcb.unacked ≠ [] ∧ ¬pcb.infr then
    let ssthresh := max (min pcb.cwnd pcb.sndWnd / 2) (2 * pcb.mss)
    { tcpRexmit pcb with ssthresh, cwnd := (ssthresh + 3 * pcb.mss) % 2 ^ 16, infr := true }
  else pcb

/-- `tcp_zero_window_probe` -/
def tcpZeroWindowProbe (pcb : SndPcb) : List Seg :=
  match pcb.unacked ++ pcb.unsent with
  | [] => []
  | seg :: _ =>
    if seg.fin ∧ seg.len = 0 then [⟨seg.seqno, 0, [], true⟩]
    else [⟨seg.seqno, 1, seg.p.take 1, false⟩]

/-! ## Acknowledgements -/

/-- What `tcp_receive` uses of the header of a segment with an acknowledgement. -/
structure AckHdr where
  seqno : BitVec 32
  ackno : BitVec 32
  wnd : ℕ
  tcplen : ℕ
deriving DecidableEq

/-- The window is updated. -/
def updateWindow (h : AckHdr) (pcb : SndPcb) : SndPcb :=
  if seqLt pcb.sndWl1 h.seqno ∨ pcb.sndWl1 = h.seqno ∧ seqLt pcb.sndWl2 h.ackno ∨
      pcb.sndWl2 = h.ackno ∧ pcb.sndWnd < h.wnd then
    { pcb with
      sndWnd := h.wnd
      sndWndMax := max pcb.sndWndMax h.wnd
      sndWl1 := h.seqno
      sndWl2 := h.ackno }
  else pcb

/-- The congestion window is increased, but not if the value overflows. -/
def raiseCwnd (cwnd by_ : ℕ) : ℕ :=
  if cwnd < (cwnd + by_) % 2 ^ 16 then (cwnd + by_) % 2 ^ 16 else cwnd

/-- The acknowledgement does not acknowledge new data; `right` is the edge of the window before. -/
def oldAck (right : BitVec 32) (h : AckHdr) (pcb : SndPcb) : SndPcb :=
  if h.tcplen = 0 ∧ pcb.sndWl2 + BitVec.ofNat 32 pcb.sndWnd = right ∧ pcb.timing ∧
      pcb.lastack = h.ackno then
    let dupacks := raiseDup pcb.dupacks
    if 3 < dupacks then { pcb with dupacks, cwnd := raiseCwnd pcb.cwnd pcb.mss }
    else if dupacks = 3 then tcpRexmitFast { pcb with dupacks }
    else { pcb with dupacks }
  else { pcb with dupacks := 0 }
where
  /-- `dupacks` is an `u8_t` -/
  raiseDup (dupacks : ℕ) : ℕ := if dupacks < (dupacks + 1) % 2 ^ 8 then dupacks + 1 else dupacks

/-- The acknowledgement acknowledges new data. -/
def newAck (ackno : BitVec 32) (pcb : SndPcb) : SndPcb :=
  let cwnd := if pcb.infr then pcb.ssthresh else pcb.cwnd
  let unacked := pcb.unacked.dropWhile fun seg =>
    seqLeq (seg.seqno + BitVec.ofNat 32 seg.tcplen) ackno
  { pcb with
    infr := false
    sndBuf := (pcb.sndBuf + (ackno - pcb.lastack).toNat % 2 ^ 16) % 2 ^ 16
    dupacks := 0
    lastack := ackno
    cwnd :=
      if cwnd < pcb.ssthresh then raiseCwnd cwnd pcb.mss
      else raiseCwnd cwnd (pcb.mss * pcb.mss / cwnd)
    unacked
    timing := !unacked.isEmpty }

/-- Segments that wait for their retransmission may be acknowledged, too. -/
def dropUnsent (ackno : BitVec 32) (pcb : SndPcb) : SndPcb :=
  let unsent := pcb.unsent.dropWhile fun seg =>
    seqBetween ackno (seg.seqno + BitVec.ofNat 32 seg.tcplen) pcb.sndNxt
  { pcb with unsent, unsentOversize := if unsent = [] then 0 else pcb.unsentOversize }

/-- `tcp_receive`, up to where it comes to the data of the segment. -/
def tcpReceiveAck (h : AckHdr) (pcb : SndPcb) : SndPcb :=
  let right := BitVec.ofNat 32 pcb.sndWnd + pcb.sndWl2
  let pcb := updateWindow h pcb
  dropUnsent h.ackno
    (if seqLeq h.ackno pcb.lastack then oldAck right h pcb
    else if seqBetween h.ackno (pcb.lastack + 1) pcb.sndNxt then newAck h.ackno pcb
    else pcb)

end Tcp

end LuojiOs
