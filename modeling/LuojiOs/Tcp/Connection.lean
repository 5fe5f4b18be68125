import LuojiOs.Tcp.Delivery

/-!
# Connections

The runs of a connection: segments arrive, and the application says how much it has used.  The
segments are those of one stream, and otherwise they are as the network likes: late, repeated, cut
anew, or lost.
-/

namespace LuojiOs

namespace Tcp

open SerialNumbers

/-- A connection, with what the application has got from it. -/
structure Conn where
  pcb : Pcb
  delivered : List (BitVec 8)
  eof : Bool
  /-- what the application has passed to `tcp_recved` altogether -/
  recved : ℕ

/-- Whether there is memory for a copy is up to the run. -/
inductive Event
  | arrive (s : Seg) (mem : Bool)
  | recved (len : ℕ)

def step (c : Conn) : Event → Option Conn
  | .arrive s mem =>
    let r := tcpInput mem c.pcb s
    some { c with pcb := r.1, delivered := c.delivered ++ r.2.data, eof := c.eof || r.2.gotFin }
  | .recved len => some { c with pcb := tcpRecved len c.pcb, recved := c.recved + len }

/-- A connection that expects `base` as the number of the first byte. -/
def opened (base : BitVec 32) : Conn := ⟨⟨base, tcpWnd, [], false⟩, [], false, 0⟩

/-- The segments that arrive are of the stream, and from a part of it that the numbers still tell
from the others.  Where one is ahead, the comparison of its end with that of the window is not
misled by a wrap. -/
def Genuine (st : Stream) (base : BitVec 32) (c : Conn) : Event → Prop
  | .arrive s _ => ∃ pos, Piece st base s pos ∧ c.delivered.length < pos + 2 ^ 30 ∧
      pos < c.delivered.length + 2 ^ 30 ∧ (c.delivered.length < pos → PlainOverrun c.pcb s)
  | .recved _ => True

variable {st : Stream} {base : BitVec 32} {s : Seg} {pcb : Pcb} {c c' : Conn} {pos hi n k : ℕ}

/-! ## What `tcp_input` does -/

/-- When the end of the stream has come, nothing else is received. -/
theorem tcpReceive_of_closing (mem : Bool) (s : Seg) (h : pcb.closing = true) :
    (tcpReceive mem pcb s).1 = pcb ∧ (tcpReceive mem pcb s).2.data = [] ∧
      (tcpReceive mem pcb s).2.gotFin = false := by
  unfold tcpReceive
  rw [if_neg fun hall => hall.2 h]
  exact ⟨rfl, rfl, rfl⟩

theorem tcpInput_of_closing (mem : Bool) (s : Seg) (h : pcb.closing = true) :
    (tcpInput mem pcb s).1 = pcb ∧ (tcpInput mem pcb s).2.data = [] ∧
      (tcpInput mem pcb s).2.gotFin = false := by
  obtain ⟨hpcb, hdata, hfin⟩ := tcpReceive_of_closing mem s h
  unfold tcpInput
  dsimp only
  rw [hfin, if_neg Bool.false_ne_true]
  exact ⟨hpcb, hdata, hfin⟩

/-- What `tcp_input` adds is the window and the state. -/
theorem tcpInput_eq (mem : Bool) (pcb : Pcb) (s : Seg) :
    (tcpInput mem pcb s).1.rcvNxt = (tcpReceive mem pcb s).1.rcvNxt ∧
      (tcpInput mem pcb s).1.ooseq = (tcpReceive mem pcb s).1.ooseq ∧
      (tcpInput mem pcb s).2.data = (tcpReceive mem pcb s).2.data ∧
      (tcpInput mem pcb s).2.gotFin = (tcpReceive mem pcb s).2.gotFin := by
  unfold tcpInput
  dsimp only
  split
  · exact ⟨rfl, rfl, rfl, rfl⟩
  · exact ⟨rfl, rfl, rfl, rfl⟩

theorem tcpInput_closing (mem : Bool) (pcb : Pcb) (s : Seg) :
    (tcpInput mem pcb s).1.closing =
      ((tcpReceive mem pcb s).1.closing || (tcpReceive mem pcb s).2.gotFin) := by
  unfold tcpInput
  dsimp only
  split
  · next h => rw [h, Bool.or_true]
  · next h => rw [(Bool.not_eq_true _).mp h, Bool.or_false]

/-! ## Runs -/

/-- What holds in every state of a connection. -/
structure Conn.Good (st : Stream) (base : BitVec 32) (c : Conn) : Prop where
  inv : Inv st base (c.delivered.length + 2 ^ 17) c.pcb c.delivered.length
  data : c.delivered = st.bytes 0 c.delivered.length
  rcvNxt : c.pcb.rcvNxt = num base (c.delivered.length + c.eof.toNat)
  closing : c.pcb.closing = c.eof

theorem opened_good (st : Stream) (base : BitVec 32) : (opened base).Good st base where
  inv := ⟨⟨Nat.le_add_right _ _, le_rfl⟩, fun _ => (BitVec.add_zero base).symm, fun _ => .nil,
    fun h => (by cases h)⟩
  data := rfl
  rcvNxt := (BitVec.add_zero base).symm
  closing := rfl

/-- The bytes of a step are behind those of the state. -/
theorem append_data {l l' : List (BitVec 8)} (h : l = st.bytes 0 l.length)
    (h' : l' = st.bytes l.length k) : l ++ l' = st.bytes 0 (l ++ l').length := by
  have hk : l'.length = k := by rw [h', st.length_bytes]
  rw [List.length_append, hk, ← st.bytes_append, Nat.zero_add, ← h, ← h']

/-- The state behind a segment, from what the segment has brought. -/
theorem Conn.Good.of_step (h : c.Good st base) (hopen : c.eof = false) {mem : Bool}
    (hstep : Step st base (c.delivered.length + 2 ^ 17) c.pcb c.delivered.length k
      (tcpReceive mem c.pcb s).1 (tcpReceive mem c.pcb s).2) :
    Conn.Good st base { c with
      pcb := (tcpInput mem c.pcb s).1
      delivered := c.delivered ++ (tcpInput mem c.pcb s).2.data
      eof := c.eof || (tcpInput mem c.pcb s).2.gotFin } := by
  obtain ⟨hrcv, hooseq, hdata, hfin⟩ := tcpInput_eq mem c.pcb s
  have hclosing := tcpInput_closing mem c.pcb s
  have hbytes := hstep.data
  have hbound := hstep.bound
  rw [← hdata] at hbytes
  have hlen : (c.delivered ++ (tcpInput mem c.pcb s).2.data).length = c.delivered.length + k := by
    rw [List.length_append, hbytes, st.length_bytes]
  rw [hstep.closing, h.closing, hopen, Bool.false_or, ← hfin] at hclosing
  have hnext : (tcpInput mem c.pcb s).1.rcvNxt =
      num base (c.delivered.length + k + (tcpInput mem c.pcb s).2.gotFin.toNat) := by
    rw [hrcv, hstep.rcvNxt, hfin]
  refine ⟨⟨?_, fun hcl => ?_, fun _ => ?_, fun hcl => ?_⟩, ?_, ?_, ?_⟩
  · exact ⟨Nat.le_add_right _ _, le_rfl⟩
  · rw [hlen, hnext, ← hclosing, hcl]
    rfl
  · rw [hlen, hooseq]
    exact hstep.queue.raise (Nat.add_le_add_right (Nat.le_add_right _ _) _)
  · rw [hlen]
    exact hstep.size (hfin.symm.trans (hclosing.symm.trans hcl))
  · exact append_data h.data hbytes
  · dsimp only
    rw [hlen, hnext, hopen, Bool.false_or]
  · dsimp only
    rw [hclosing, hopen, Bool.false_or]

theorem step_good (h : c.Good st base) {e : Event} (hg : Genuine st base c e)
    (he : step c e = some c') : c'.Good st base := by
  cases e with
  | arrive s mem =>
      obtain ⟨pos, hpiece, hbehind, hahead, hplain⟩ := hg
      obtain rfl := Option.some.inj he
      cases heof : c.eof with
      | true =>
          obtain ⟨hpcb, hdata, hfin⟩ := tcpInput_of_closing mem s (h.closing.trans heof)
          rw [hpcb, hdata, hfin, List.append_nil, Bool.or_false, ← heof]
          exact h
      | false =>
          have hlen := hpiece.len
          have hwnd := c.pcb.rcvWnd.isLt
          obtain ⟨k, hstep, -⟩ := tcpReceive_spec h.inv (h.closing.trans heof) mem hpiece hbehind
            hahead (by omega) hplain
          rw [← heof]
          exact h.of_step heof hstep
  | recved len =>
      obtain rfl := Option.some.inj he
      exact ⟨⟨h.inv.bound, h.inv.rcvNxt, h.inv.queue, h.inv.size⟩, h.data, h.rcvNxt, h.closing⟩

theorem good_of_reach (h : Runs.Reach step (Genuine st base) (fun c => c = opened base) c) :
    c.Good st base :=
  h.invariant (fun _ hc => hc ▸ opened_good st base) fun _ _ _ hc => step_good hc

/-- Whatever arrives, the application has the first bytes of the stream, each one once, and is told
of the end only behind the last one.  What is acknowledged is what it has. -/
theorem delivered_in_order
    (h : Runs.Reach step (Genuine st base) (fun c => c = opened base) c) :
    c.delivered = st.bytes 0 c.delivered.length ∧
      (c.eof = true → st.size = some c.delivered.length) ∧
      c.pcb.rcvNxt = num base (c.delivered.length + c.eof.toNat) :=
  have hgood := good_of_reach h
  ⟨hgood.data, fun heof => hgood.inv.size (hgood.closing.trans heof), hgood.rcvNxt⟩

/-- A segment with the next byte, or with the end that is next, always brings something if the
window is open, whatever is on the queue. -/
theorem next_byte_delivered
    (h : Runs.Reach step (Genuine st base) (fun c => c = opened base) c) (hopen : c.eof = false)
    (hwnd : 0 < c.pcb.rcvWnd.toNat) (hs : Piece st base s pos)
    (hbehind : pos ≤ c.delivered.length) (hnext : c.delivered.length < pos + s.tcplen) {mem : Bool}
    (he : step c (.arrive s mem) = some c') :
    c.delivered.length < c'.delivered.length ∨ c'.eof = true := by
  have hgood := good_of_reach h
  have hlen := hs.len
  have htcplen := tcplen_le s
  have hlt := c.pcb.rcvWnd.isLt
  obtain ⟨k, hstep, hmore⟩ := tcpReceive_spec hgood.inv (hgood.closing.trans hopen) mem hs
    (by omega) (by omega) (by omega) fun hahead => absurd hahead (Nat.not_lt.mpr hbehind)
  obtain ⟨-, -, hdata, hfin⟩ := tcpInput_eq mem c.pcb s
  obtain rfl := Option.some.inj he
  refine (hmore hbehind hnext hwnd).imp (fun hk => ?_) fun hgot => ?_
  · dsimp only
    rw [List.length_append, hdata, hstep.data, st.length_bytes]
    exact Nat.lt_add_of_pos_right hk
  · dsimp only
    rw [hfin, hgot, Bool.or_true]

/-! ## A run where the numbers wrap -/

/-- The bytes 0, 1 and 2. -/
def short : Stream := ⟨BitVec.ofNat 8, some 3⟩

/-- The last two bytes, with the number 0, and the end. -/
def lateSeg : Seg := ⟨0, 2, [1, 2], true⟩

def firstSeg : Seg := ⟨0xFFFFFFFF, 1, [0], false⟩

/-- The last two bytes have come. -/
def waiting : Conn := ⟨⟨0xFFFFFFFF, 2048, [lateSeg], false⟩, [], false, 0⟩

/-- All of the bytes have come. -/
def complete : Conn := ⟨⟨3, 2045, [], true⟩, [0, 1, 2], true, 0⟩

theorem piece_lateSeg : Piece short 0xFFFFFFFF lateSeg 1 :=
  ⟨by decide, by decide, by decide, fun _ => rfl, fun _ hl => (Option.some.inj hl).le⟩

theorem piece_firstSeg : Piece short 0xFFFFFFFF firstSeg 0 :=
  ⟨by decide, by decide, by decide, fun h => (by cases h),
    fun _ hl => (show 1 ≤ 3 by decide).trans (Option.some.inj hl).le⟩

theorem step_lateSeg : step (opened 0xFFFFFFFF) (.arrive lateSeg true) = some waiting := rfl

theorem step_firstSeg : step waiting (.arrive firstSeg true) = some complete := rfl

theorem genuine_lateSeg :
    Genuine short 0xFFFFFFFF (opened 0xFFFFFFFF) (.arrive lateSeg true) :=
  ⟨1, piece_lateSeg, by decide, by decide, fun _ h => absurd h (by decide)⟩

theorem genuine_firstSeg : Genuine short 0xFFFFFFFF waiting (.arrive firstSeg true) :=
  ⟨0, piece_firstSeg, by decide, by decide, fun h => absurd h (by decide)⟩

theorem reach_opened (guard : Conn → Event → Prop) (base : BitVec 32) :
    Runs.Reach step guard (fun c => c = opened base) (opened base) :=
  .start rfl

theorem reach_waiting :
    Runs.Reach step (Genuine short 0xFFFFFFFF) (fun c => c = opened 0xFFFFFFFF) waiting :=
  (reach_opened _ _).step genuine_lateSeg step_lateSeg

theorem delivered_in_order_complete :
    complete.delivered = short.bytes 0 3 ∧ (complete.eof = true → short.size = some 3) ∧
      complete.pcb.rcvNxt = num 0xFFFFFFFF 4 :=
  delivered_in_order (reach_waiting.step genuine_firstSeg step_firstSeg)

theorem next_byte_delivered_complete :
    waiting.delivered.length < complete.delivered.length ∨ complete.eof = true :=
  next_byte_delivered reach_waiting rfl (by decide) piece_firstSeg (by decide) (by decide)
    step_firstSeg

end Tcp

end LuojiOs
