import LuojiOs.Tcp.Connection
import LuojiOs.Tcp.Writing

/-!
# Two sides and a network

A sender and a receiver, and between them a network that loses, repeats and reorders segments and
acknowledgements.  Whatever happens, the application behind the receiver has a beginning of what
was written, and the sender still has the rest.
-/

namespace LuojiOs

namespace Tcp

open SerialNumbers

/-- The state of both sides, what has been written, and all that was ever sent, each with how much
had been delivered then. -/
structure Net where
  snd : SndPcb
  rcv : Conn
  written : List (BitVec 8)
  sent : List (ℕ × Seg)
  acks : List (ℕ × BitVec 32)

inductive NetEvent
  | write (copy more mem : Bool) (room : ℕ) (data : List (BitVec 8))
  | close (mem ackNow long : Bool)
  | output (ackNow long : Bool)
  | timeout (ackNow long : Bool)
  | probe
  /-- The receiver sends a segment, which has an acknowledgement. -/
  | acknowledge
  | ack (hdr : AckHdr)
  | arrive (s : Seg) (mem : Bool)
  | recved (len : ℕ)

namespace Net

/-- The segments are given to the network. -/
def transmit (net : Net) (r : SndPcb × List Seg) : Net :=
  { net with
    snd := r.1
    sent := net.sent ++ r.2.map fun s => (net.rcv.delivered.length, s) }

def step (net : Net) : NetEvent → Option Net
  | .write copy more mem room data =>
    let r := tcpWrite copy more mem room data net.snd
    some { net with snd := r.2, written := if r.1 then net.written ++ data else net.written }
  | .close mem ackNow long =>
    -- `tcp_close_shutdown`
    if net.snd.fin then some net
    else
      let snd := tcpSendFin mem net.snd
      some (if snd.fin then net.transmit (tcpOutput ackNow long snd) else { net with snd })
  | .output ackNow long => some (net.transmit (tcpOutput ackNow long net.snd))
  | .timeout ackNow long => some (net.transmit (tcpRexmitRto ackNow long net.snd))
  | .probe => some (net.transmit (net.snd, tcpZeroWindowProbe net.snd))
  | .acknowledge =>
    some { net with acks := net.acks ++ [(net.rcv.delivered.length, net.rcv.pcb.rcvNxt)] }
  | .ack hdr => some { net with snd := tcpReceiveAck hdr net.snd }
  | .arrive s mem => (Tcp.step net.rcv (.arrive s mem)).map fun rcv => { net with rcv }
  | .recved len => (Tcp.step net.rcv (.recved len)).map fun rcv => { net with rcv }

/-- What arrives was sent, and not so long ago that its numbers have come around.  Nothing is
written, and no timer expires, while a segment waits for its fast retransmission. -/
def Guard (net : Net) : NetEvent → Prop
  | .write _ _ _ _ _ | .close _ _ _ | .timeout _ _ => Ordered net.snd
  | .ack hdr => ∃ d, (d, hdr.ackno) ∈ net.acks ∧ net.rcv.delivered.length < d + 2 ^ 28
  | .arrive s _ => ∃ d, (d, s) ∈ net.sent ∧ net.rcv.delivered.length < d + 2 ^ 28 ∧
      (seqGt s.seqno net.rcv.pcb.rcvNxt = true → PlainOverrun net.rcv.pcb s)
  | _ => True

/-- Nothing has been written yet. -/
structure Fresh (base : BitVec 32) (net : Net) : Prop where
  rcv : net.rcv = opened base
  written : net.written = []
  sent : net.sent = []
  acks : net.acks = []
  lastack : net.snd.lastack = base
  sndNxt : net.snd.sndNxt = base
  sndLbb : net.snd.sndLbb = base
  sndBuf : net.snd.sndBuf = tcpSndBuf
  mss : net.snd.mss ≤ tcpMss
  unacked : net.snd.unacked = []
  unsent : net.snd.unsent = []
  oversize : net.snd.unsentOversize = 0
  fin : net.snd.fin = false

/-! ## The invariant -/

/-- A stream that begins with what is written, and ends there if the sender has closed. -/
structure Extends (st : Stream) (net : Net) : Prop where
  bytes : net.written = st.bytes 0 net.written.length
  le : ∀ l, st.size = some l → net.written.length ≤ l
  size : net.snd.fin = true → st.size = some net.written.length

/-- What holds in every state, for each such stream. -/
structure Good (st : Stream) (base : BitVec 32) (net : Net) : Prop where
  conn : net.rcv.Good st base
  snd : ∃ n, n ≤ net.rcv.delivered.length + net.rcv.eof.toNat ∧
    Sound st base net.written.length n net.snd
  sent : ∀ x ∈ net.sent, ∃ pos, Piece st base x.2 pos ∧ pos ≤ net.written.length ∧
    x.1 < pos + 2 ^ 18
  acks : ∀ x ∈ net.acks, ∃ p, x.2 = num base p ∧ x.1 ≤ p ∧
    p ≤ net.rcv.delivered.length + net.rcv.eof.toNat

def Inv (base : BitVec 32) (net : Net) : Prop := ∀ st, Extends st net → Good st base net

variable {st : Stream} {base : BitVec 32} {net net' : Net}

/-- What is written, and `pad` behind it. -/
def padded (written : List (BitVec 8)) (pad : BitVec 8) (size : Option ℕ) : Stream :=
  ⟨fun i => (written[i]?).getD pad, size⟩

theorem padded_bytes (written : List (BitVec 8)) (pad : BitVec 8) (size : Option ℕ) :
    written = (padded written pad size).bytes 0 written.length := by
  refine List.ext_getElem (by rw [Stream.length_bytes]) fun i hi _ => ?_
  simp [Stream.bytes, padded, hi]

theorem padded_extends (net : Net) (pad : BitVec 8) :
    Extends (padded net.written pad (some net.written.length)) net :=
  ⟨padded_bytes _ _ _, fun _ hl => (Option.some.inj hl).le, fun _ => rfl⟩

/-- The receiver cannot know what has not been written. -/
theorem Inv.delivered_le (h : Inv base net) :
    net.rcv.delivered.length ≤ net.written.length := by
  refine Nat.le_of_not_lt fun hlt => ?_
  have hzero := (h _ (padded_extends net 0)).conn.data
  have hone := (h _ (padded_extends net 1)).conn.data
  have hbyte := congrArg (·[net.written.length]?) (hzero.symm.trans hone)
  simp [Stream.bytes, padded, hlt] at hbyte

/-- Nor that the sender is going to close. -/
theorem Inv.fin_of_eof (h : Inv base net) (heof : net.rcv.eof = true) : net.snd.fin = true := by
  refine (Bool.not_eq_false _).mp fun hfin => ?_
  have hext : Extends (padded net.written 0 none) net :=
    ⟨padded_bytes _ _ _, fun _ hl => (by cases hl), fun hf => (by rw [hfin] at hf; cases hf)⟩
  have hconn := (h _ hext).conn
  cases hconn.inv.size (hconn.closing.trans heof)

theorem Inv.delivered_eq (h : Inv base net) (heof : net.rcv.eof = true) :
    net.rcv.delivered.length = net.written.length := by
  have hconn := (h _ (padded_extends net 0)).conn
  exact (Option.some.inj (hconn.inv.size (hconn.closing.trans heof))).symm

theorem Inv.received_le (h : Inv base net) :
    net.rcv.delivered.length + net.rcv.eof.toNat ≤ net.written.length + net.snd.fin.toNat := by
  have hle := h.delivered_le
  cases heof : net.rcv.eof with
  | false => exact hle.trans (Nat.le_add_right _ _)
  | true =>
      rw [h.fin_of_eof heof]
      exact Nat.add_le_add_right hle _

/-! ## The end of the stream is kept -/

theorem outputLoop_fin (long : Bool) (wnd : ℕ) (pcb : SndPcb) (l : List Seg) :
    (outputLoop long wnd pcb l).1.fin = pcb.fin := by
  induction l generalizing pcb with
  | nil => rfl
  | cons seg rest ih =>
      rw [outputLoop]
      split
      · exact ih _
      · rfl

theorem tcpOutput_fin (ackNow long : Bool) (pcb : SndPcb) :
    (tcpOutput ackNow long pcb).1.fin = pcb.fin := by
  unfold tcpOutput
  dsimp only
  split
  · rfl
  · exact outputLoop_fin _ _ _ _

theorem tcpRexmitRto_fin (ackNow long : Bool) (pcb : SndPcb) :
    (tcpRexmitRto ackNow long pcb).1.fin = pcb.fin := by
  unfold tcpRexmitRto
  split
  · rfl
  · exact tcpOutput_fin _ _ _

theorem tcpRexmit_fin (pcb : SndPcb) : (tcpRexmit pcb).fin = pcb.fin := by
  unfold tcpRexmit
  split <;> rfl

theorem oldAck_fin (right : BitVec 32) (hdr : AckHdr) (pcb : SndPcb) :
    (oldAck right hdr pcb).fin = pcb.fin := by
  unfold oldAck
  split
  · dsimp only
    split
    · rfl
    · split
      · unfold tcpRexmitFast
        split
        · exact tcpRexmit_fin _
        · rfl
      · rfl
  · rfl

theorem tcpReceiveAck_fin (hdr : AckHdr) (pcb : SndPcb) :
    (tcpReceiveAck hdr pcb).fin = pcb.fin := by
  have hwindow : (updateWindow hdr pcb).fin = pcb.fin := by
    unfold updateWindow
    split <;> rfl
  unfold tcpReceiveAck
  rw [← hwindow]
  dsimp only
  split
  · exact oldAck_fin _ _ _
  · split <;> rfl

/-! ## Steps of the sender -/

/-- Segments that are sent are of the stream, and not far behind what is acknowledged. -/
theorem sent_transmit (h : Inv base net) (hext : Extends st net) {n : ℕ} {r : SndPcb × List Seg}
    (hbound : net.written.length ≤ n + tcpSndBuf)
    (hr : ∀ s ∈ r.2, ∃ pos, Piece st base s pos ∧ pos ≤ net.written.length ∧ n < pos + 2 ^ 17) :
    ∀ x ∈ (net.transmit r).sent, ∃ pos, Piece st base x.2 pos ∧ pos ≤ net.written.length ∧
      x.1 < pos + 2 ^ 18 := by
  intro x hx
  rcases List.mem_append.mp hx with hx | hx
  · exact (h st hext).sent x hx
  · obtain ⟨s, hs, rfl⟩ := List.mem_map.mp hx
    obtain ⟨pos, hpiece, hpos, hlo⟩ := hr s hs
    have hle := h.delivered_le
    unfold tcpSndBuf at hbound
    exact ⟨pos, hpiece, hpos, by dsimp only; omega⟩

/-- The sender has sent segments of its queues. -/
theorem good_transmit (h : Inv base net) (hext : Extends st net) {n : ℕ} {r : SndPcb × List Seg}
    (hn : n ≤ net.rcv.delivered.length + net.rcv.eof.toNat)
    (hsnd : Sound st base net.written.length n r.1)
    (hr : ∀ s ∈ r.2, ∃ pos, Piece st base s pos ∧ pos ≤ net.written.length ∧ n < pos + 2 ^ 17) :
    Good st base (net.transmit r) :=
  ⟨(h st hext).conn, ⟨n, hn, hsnd⟩, sent_transmit h hext hsnd.bound hr, (h st hext).acks⟩

theorem Sound.sendable {w n : ℕ} {pcb : SndPcb} {s : Seg} (h : Sound st base w n pcb)
    (hs : s ∈ pcb.unacked ++ pcb.unsent) :
    ∃ pos, Piece st base s pos ∧ pos ≤ w ∧ n < pos + 2 ^ 17 := by
  obtain ⟨pos, haround⟩ := h.queues.mem hs
  have hlen := haround.piece.len
  have hle := tcplen_le s
  have hpos := haround.tcplen
  have hlo := haround.lo
  have hhi := haround.hi
  have hfin := Bool.toNat_le pcb.fin
  exact ⟨pos, haround.piece, by omega, by omega⟩

/-- A stream of the state behind is one of the state before. -/
theorem Extends.before (h : Extends st net') {tail : List (BitVec 8)}
    (hwritten : net'.written = net.written ++ tail)
    (hfin : net.snd.fin = true → net'.snd.fin = true ∧ tail = []) :
    Extends st net ∧ Next st net.written.length tail := by
  have hbytes := h.bytes
  have hle := h.le
  rw [hwritten, List.length_append] at hbytes hle
  rw [← st.bytes_append, Nat.zero_add] at hbytes
  obtain ⟨hhead, htail⟩ := List.append_inj hbytes (by rw [st.length_bytes])
  refine ⟨⟨hhead, fun l hl => (Nat.le_add_right _ _).trans (hle l hl), fun hf => ?_⟩, htail, hle⟩
  obtain ⟨hf', rfl⟩ := hfin hf
  rw [h.size hf', hwritten, List.append_nil]

theorem inv_write (h : Inv base net) (ho : Ordered net.snd) {copy more mem : Bool} {room : ℕ}
    {data : List (BitVec 8)} (he : net.step (.write copy more mem room data) = some net') :
    Inv base net' := by
  intro st hext
  obtain rfl := Option.some.inj he
  rcases tcpWrite_cases copy more mem room data net.snd with ⟨hok, hsame⟩ | ⟨r, hopen, hle, hr, heq⟩
  · rw [hok] at hext ⊢
    have hfin : (tcpWrite copy more mem room data net.snd).2.fin = net.snd.fin :=
      (congrArg SndPcb.fin hsame :)
    obtain ⟨hbefore, -⟩ : Extends st net ∧ Next st net.written.length [] :=
      hext.before (List.append_nil _).symm fun hf => ⟨hfin.trans hf, rfl⟩
    have hgood := h st hbefore
    obtain ⟨n, hn, hsnd⟩ := hgood.snd
    exact ⟨hgood.conn, ⟨n, hn, hsnd.of_eq hsame⟩, hgood.sent, hgood.acks⟩
  · rw [heq] at hext ⊢
    obtain ⟨hbefore, hnext⟩ : Extends st net ∧ Next st net.written.length data :=
      hext.before rfl fun hf => by
        rw [hopen] at hf
        cases hf
    have hgood := h st hbefore
    obtain ⟨n, hn, hsnd⟩ := hgood.snd
    have hafter := hsnd.segmented ho hopen hle hnext hr
    rw [← List.length_append] at hafter
    refine ⟨hgood.conn, ⟨n, hn, hafter⟩, fun x hx => ?_, hgood.acks⟩
    obtain ⟨pos, hpiece, hpos, hlo⟩ := hgood.sent x hx
    refine ⟨pos, hpiece, hpos.trans ?_, hlo⟩
    change net.written.length ≤ (net.written ++ data).length
    rw [List.length_append]
    exact Nat.le_add_right _ _

theorem inv_close (h : Inv base net) (ho : Ordered net.snd) {mem ackNow long : Bool}
    (he : net.step (.close mem ackNow long) = some net') : Inv base net' := by
  change (if net.snd.fin then some net else some _) = some net' at he
  by_cases hfin : net.snd.fin = true
  · rw [if_pos hfin] at he
    obtain rfl := Option.some.inj he
    exact h
  · rw [if_neg hfin] at he
    have hopen := (Bool.not_eq_true _).mp hfin
    obtain rfl := Option.some.inj he
    intro st hext
    by_cases hclosed : (tcpSendFin mem net.snd).fin = true
    · rw [if_pos hclosed] at hext ⊢
      have hsize := hext.size ((tcpOutput_fin _ _ _).trans hclosed)
      have hbefore : Extends st net := ⟨hext.bytes, hext.le, fun hf => absurd hf hfin⟩
      obtain ⟨n, hn, hsnd⟩ := (h st hbefore).snd
      have hfinished := hsnd.tcpSendFin ho hopen hsize mem
      obtain ⟨hafter, hsent⟩ := hfinished.toCore.tcpOutput ackNow long hfinished.empty
      exact good_transmit h hbefore hn hafter fun s hs =>
        Sound.sendable hfinished (List.mem_append_right _ (hsent s hs))
    · rw [if_neg hclosed] at hext ⊢
      have hbefore : Extends st net := ⟨hext.bytes, hext.le, fun hf => absurd hf hfin⟩
      have hgood := h st hbefore
      obtain ⟨n, hn, hsnd⟩ := hgood.snd
      exact ⟨hgood.conn, ⟨n, hn, hsnd.of_eq (tcpSendFin_refused hclosed)⟩, hgood.sent, hgood.acks⟩

theorem inv_output (h : Inv base net) {ackNow long : Bool}
    (he : net.step (.output ackNow long) = some net') : Inv base net' := by
  intro st hext
  obtain rfl := Option.some.inj he
  have hbefore : Extends st net :=
    ⟨hext.bytes, hext.le, fun hf => hext.size ((tcpOutput_fin _ _ _).trans hf)⟩
  obtain ⟨n, hn, hsnd⟩ := (h st hbefore).snd
  obtain ⟨hafter, hsent⟩ := hsnd.toCore.tcpOutput ackNow long hsnd.empty
  exact good_transmit h hbefore hn hafter fun s hs =>
    Sound.sendable hsnd (List.mem_append_right _ (hsent s hs))

theorem inv_timeout (h : Inv base net) (ho : Ordered net.snd) {ackNow long : Bool}
    (he : net.step (.timeout ackNow long) = some net') : Inv base net' := by
  intro st hext
  obtain rfl := Option.some.inj he
  have hbefore : Extends st net :=
    ⟨hext.bytes, hext.le, fun hf => hext.size ((tcpRexmitRto_fin _ _ _).trans hf)⟩
  obtain ⟨n, hn, hsnd⟩ := (h st hbefore).snd
  obtain ⟨hafter, hsent⟩ := hsnd.tcpRexmitRto ho ackNow long
  exact good_transmit h hbefore hn hafter fun s hs => Sound.sendable hsnd (hsent s hs)

theorem inv_probe (h : Inv base net) (he : net.step .probe = some net') : Inv base net' := by
  intro st hext
  obtain rfl := Option.some.inj he
  have hbefore : Extends st net := ⟨hext.bytes, hext.le, hext.size⟩
  obtain ⟨n, hn, hsnd⟩ := (h st hbefore).snd
  exact good_transmit h hbefore hn hsnd fun s hs => hsnd.tcpZeroWindowProbe hs

/-! ## Steps of the network and the receiver -/

theorem inv_acknowledge (h : Inv base net) (he : net.step .acknowledge = some net') :
    Inv base net' := by
  intro st hext
  obtain rfl := Option.some.inj he
  have hgood := h st ⟨hext.bytes, hext.le, hext.size⟩
  refine ⟨hgood.conn, hgood.snd, hgood.sent, fun x hx => ?_⟩
  rcases List.mem_append.mp hx with hx | hx
  · exact hgood.acks x hx
  · obtain rfl := List.mem_singleton.mp hx
    exact ⟨_, hgood.conn.rcvNxt, Nat.le_add_right _ _, le_rfl⟩

theorem inv_ack (h : Inv base net) {hdr : AckHdr} (hg : Guard net (.ack hdr))
    (he : net.step (.ack hdr) = some net') : Inv base net' := by
  intro st hext
  obtain rfl := Option.some.inj he
  have hgood := h st
    ⟨hext.bytes, hext.le, fun hf => hext.size ((tcpReceiveAck_fin _ _).trans hf)⟩
  obtain ⟨n, hn, hsnd⟩ := hgood.snd
  obtain ⟨d, hmem, hage⟩ := hg
  obtain ⟨p, hack, hd, hp⟩ := hgood.acks _ hmem
  have heof := Bool.toNat_le net.rcv.eof
  have hle := h.received_le
  have hstop := hsnd.stop_le
  unfold tcpSndBuf at hstop
  dsimp only at hd hack
  obtain ⟨n', -, hn', hafter⟩ := hsnd.tcpReceiveAck hack (by omega) (by omega)
  exact ⟨hgood.conn, ⟨n', hn'.trans (max_le hn hp), hafter⟩, hgood.sent, hgood.acks⟩

/-- What the receiver has becomes more. -/
theorem received_mono {c c' : Conn} {e : Event} (he : Tcp.step c e = some c') :
    c.delivered.length + c.eof.toNat ≤ c'.delivered.length + c'.eof.toNat := by
  cases e with
  | arrive s mem =>
      obtain rfl := Option.some.inj he
      dsimp only
      rw [List.length_append]
      cases c.eof with
      | false => exact (Nat.le_add_right _ _).trans (Nat.le_add_right _ _)
      | true => exact Nat.add_le_add_right (Nat.le_add_right _ _) _
  | recved len =>
      obtain rfl := Option.some.inj he
      exact le_rfl

/-- The receiver takes a step. -/
theorem inv_receiver (h : Inv base net) {e : Event} {rcv : Conn}
    (he : Tcp.step net.rcv e = some rcv)
    (hg : ∀ st, Extends st net → Good st base net → Genuine st base net.rcv e) :
    Inv base { net with rcv } := by
  intro st hext
  have hbefore : Extends st net := ⟨hext.bytes, hext.le, hext.size⟩
  have hgood := h st hbefore
  have hmono := received_mono he
  obtain ⟨n, hn, hsnd⟩ := hgood.snd
  refine ⟨step_good hgood.conn (hg st hbefore hgood) he, ⟨n, hn.trans hmono, hsnd⟩, hgood.sent,
    fun x hx => ?_⟩
  obtain ⟨p, hack, hd, hp⟩ := hgood.acks x hx
  exact ⟨p, hack, hd, hp.trans hmono⟩

/-- A segment that arrives is one of the stream. -/
theorem genuine_arrive (h : Inv base net) {s : Seg} {mem : Bool} (hg : Guard net (.arrive s mem))
    (hgood : Good st base net) : Genuine st base net.rcv (.arrive s mem) := by
  obtain ⟨d, hmem, hage, hplain⟩ := hg
  obtain ⟨pos, hpiece, hpos, hd⟩ := hgood.sent _ hmem
  obtain ⟨n, hn, hsnd⟩ := hgood.snd
  have hbound := hsnd.bound
  have heof := Bool.toNat_le net.rcv.eof
  unfold tcpSndBuf at hbound
  dsimp only at hd hpiece
  refine ⟨pos, hpiece, by omega, by omega, fun hahead => hplain ?_⟩
  have hopen : net.rcv.eof = false := by
    refine (Bool.not_eq_true _).mp fun heof => ?_
    have hall := h.delivered_eq heof
    omega
  rw [hpiece.seqno, hgood.conn.rcvNxt, hopen, Bool.toNat_false, Nat.add_zero]
  exact (Tcp.seqGt_iff base ⟨by change pos < _ + 2 ^ 31; omega,
    by change _ < pos + 2 ^ 31; omega⟩).mpr hahead

theorem step_inv (h : Inv base net) {e : NetEvent} (hg : Guard net e)
    (he : net.step e = some net') : Inv base net' := by
  cases e with
  | write copy more mem room data => exact inv_write h hg he
  | close mem ackNow long => exact inv_close h hg he
  | output ackNow long => exact inv_output h he
  | timeout ackNow long => exact inv_timeout h hg he
  | probe => exact inv_probe h he
  | acknowledge => exact inv_acknowledge h he
  | ack hdr => exact inv_ack h hg he
  | arrive s mem =>
      have hmap : (Tcp.step net.rcv (.arrive s mem)).map (fun rcv => { net with rcv }) =
        some net' := he
      obtain ⟨rcv, hrcv, rfl⟩ := Option.map_eq_some_iff.mp hmap
      exact inv_receiver h hrcv fun st _ hgood => genuine_arrive h hg hgood
  | recved len =>
      have hmap : (Tcp.step net.rcv (.recved len)).map (fun rcv => { net with rcv }) =
        some net' := he
      obtain ⟨rcv, hrcv, rfl⟩ := Option.map_eq_some_iff.mp hmap
      exact inv_receiver h hrcv fun _ _ _ => trivial

/-! ## Runs -/

theorem queues_nil (st : Stream) (base : BitVec 32) : Queues st base 0 0 [] [] :=
  ⟨0, [], ⟨⟨rfl, fun x hx => (by cases hx), by decide⟩, le_rfl, le_rfl, fun x hx => (by cases hx)⟩,
    rfl, rfl⟩

theorem Fresh.sound (h : Fresh base net) (st : Stream) : Sound st base 0 0 net.snd := by
  have hzero : base = num base 0 := (BitVec.add_zero base).symm
  refine ⟨⟨h.lastack.trans hzero, ⟨0, h.sndNxt.trans hzero, le_rfl, Nat.zero_le _⟩,
    fun _ => h.sndLbb.trans hzero, fun _ => ?_, Nat.zero_le _, ?_, h.mss, fun s hs => ?_,
    fun s hs => ?_⟩, fun _ => h.oversize⟩
  · rw [h.sndBuf]
  · rw [h.fin, h.unacked, h.unsent]
    exact queues_nil st base
  · rw [h.unacked, h.unsent] at hs
    cases hs
  · rw [h.unsent] at hs
    cases hs

theorem Fresh.inv (h : Fresh base net) : Inv base net := by
  intro st _
  have hsound := h.sound st
  refine ⟨h.rcv ▸ opened_good st base, ⟨0, Nat.zero_le _, ?_⟩, fun x hx => ?_, fun x hx => ?_⟩
  · rw [h.written]
    exact hsound
  · rw [h.sent] at hx
    cases hx
  · rw [h.acks] at hx
    cases hx

theorem inv_of_reach (h : Runs.Reach step Guard (Fresh base) net) : Inv base net :=
  h.invariant (fun _ hfresh => hfresh.inv) fun _ _ _ hinv => step_inv hinv

theorem bytes_prefix (st : Stream) {m n : ℕ} (h : m ≤ n) : st.bytes 0 m <+: st.bytes 0 n := by
  obtain ⟨k, rfl⟩ := Nat.exists_eq_add_of_le h
  have happend := st.bytes_append 0 m k
  exact ⟨st.bytes (0 + m) k, happend⟩

theorem getElem?_bytes (st : Stream) (pos : ℕ) {i n : ℕ} (h : i < n) :
    (st.bytes pos n)[i]? = some (st.byte (pos + i)) := by
  simp [Stream.bytes, h]

/-- What the receiver does not have is on the queues of the sender. -/
theorem held (h : Inv base net) {x : ℕ} (hx : net.rcv.delivered.length ≤ x)
    (hx' : x < net.written.length) :
    ∃ s ∈ net.snd.unacked ++ net.snd.unsent, ∃ i,
      s.seqno + BitVec.ofNat 32 i = num base x ∧ s.p[i]? = net.written[x]? := by
  have hext := padded_extends net 0
  generalize padded net.written 0 (some net.written.length) = st at hext
  have hgood := h st hext
  obtain ⟨n, hn, hsnd⟩ := hgood.snd
  have hopen : net.rcv.eof = false := by
    refine (Bool.not_eq_true _).mp fun heof => ?_
    have hall := h.delivered_eq heof
    omega
  rw [hopen, Bool.toNat_false] at hn
  obtain ⟨s, hs, pos, hpiece, hle, hlt⟩ := hsnd.queues.covers (hn.trans hx)
    (Nat.lt_of_lt_of_le hx' (Nat.le_add_right _ _))
  have hin : x < pos + s.len := by
    refine Nat.lt_of_not_le fun hend => ?_
    have htcplen : s.tcplen = s.len + s.fin.toNat := rfl
    cases hfin : s.fin with
    | false =>
        rw [htcplen, hfin, Bool.toNat_false] at hlt
        omega
    | true =>
        have hsize := hext.le _ (hpiece.fin hfin)
        omega
  have hwritten := congrArg (·[x]?) hext.bytes
  refine ⟨s, hs, x - pos, ?_, ?_⟩
  · rw [hpiece.seqno, ← num_add, Nat.add_sub_cancel' hle]
  · rw [hwritten, hpiece.data, getElem?_bytes st pos (by omega), getElem?_bytes st 0 hx',
      Nat.add_sub_cancel' hle, Nat.zero_add]

theorem held_fin (h : Inv base net) (hfin : net.snd.fin = true) (hopen : net.rcv.eof = false) :
    ∃ s ∈ net.snd.unacked ++ net.snd.unsent, s.fin = true := by
  have hext := padded_extends net 0
  generalize padded net.written 0 (some net.written.length) = st at hext
  obtain ⟨n, hn, hsnd⟩ := (h st hext).snd
  have hle := h.delivered_le
  have hqueues := hsnd.queues
  rw [hopen, Bool.toNat_false] at hn
  rw [hfin, Bool.toNat_true] at hqueues
  obtain ⟨s, hs, pos, hpiece, hpos, hlt⟩ := hqueues.covers (hn.trans hle) (Nat.lt_succ_self _)
  refine ⟨s, hs, (Bool.not_eq_false _).mp fun hf => ?_⟩
  have hin := hpiece.inside _ (hext.size hfin)
  unfold Seg.tcplen at hlt
  rw [hf, Bool.toNat_false] at hlt
  omega

/-- A connection over which nothing has gone, in segments of two bytes. -/
def idle : Net :=
  ⟨⟨7, 7, 7, 0, 7, 2048, 2048, 4096, 2, 4, 20, 0, false, [], [], 0, false, false, false, false⟩,
    opened 7, [], [], []⟩

/-- The first two of three bytes have been sent. -/
def begun : Net :=
  { idle with
    snd := { idle.snd with
      sndNxt := 9, sndLbb := 10, sndBuf := 4093, timing := true, unacked := [⟨7, 2, [1, 2], false⟩],
      unsent := [⟨9, 1, [3], false⟩], unsentOversize := 1 }
    written := [1, 2, 3]
    sent := [(0, ⟨7, 2, [1, 2], false⟩)] }

/-- They were lost, sent again, and have arrived. -/
def halfway : Net :=
  { begun with
    snd := { begun.snd with cwnd := 2, ssthresh := 4 }
    rcv := ⟨⟨9, 2046, [], false⟩, [1, 2], false, 0⟩
    sent := [(0, ⟨7, 2, [1, 2], false⟩), (0, ⟨7, 2, [1, 2], false⟩)] }

theorem fresh_idle : Fresh 7 idle :=
  ⟨rfl, rfl, rfl, rfl, rfl, rfl, rfl, rfl, by decide, rfl, rfl, rfl, rfl⟩

theorem reach_begun : Runs.Reach step Guard (Fresh 7) begun :=
  ((Runs.Reach.start fresh_idle).step (e := .write true false true 2 [1, 2, 3])
    (show Ordered idle.snd by decide) rfl).step (e := .output false false) trivial rfl

-- With the first segment waiting for its retransmission, the data would be put behind it.
example : (segmented { begun.snd with
      unacked := [⟨8, 1, [2], false⟩], unsent := [⟨7, 1, [1], false⟩], unsentOversize := 0 }
    false true 1 [9]).map Prod.fst = some [⟨7, 2, [1, 9], false⟩] := by decide

end Net

end Tcp

end LuojiOs
