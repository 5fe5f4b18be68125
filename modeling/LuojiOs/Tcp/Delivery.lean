import LuojiOs.Tcp.Reassembly
import LuojiOs.Support.Runs

/-!
# What a connection delivers

Segments of one stream arrive in any order, cut in any way, again and again or not at all, and
their numbers wrap.  The application is given the bytes of the stream, in order and each one once,
and the end of the stream only behind its last byte.
-/

namespace LuojiOs

namespace Tcp

open SerialNumbers

variable {st : Stream} {base : BitVec 32} {s : Seg} {pcb : Pcb} {pos lo hi n j : ℕ}

/-! ## Trimming -/

theorem trimFront_spec (h : Piece st base s pos) (hlt : pos < n) (hle : n < pos + s.tcplen) :
    Piece st base (trimFront (num base n) s) n ∧ 0 < (trimFront (num base n) s).tcplen ∧
      pos + s.len = n + (trimFront (num base n) s).len := by
  have hlen := h.len
  have htcplen := tcplen_le s
  have hoff := toNat_num_sub base hlt.le (by omega)
  rw [← h.seqno] at hoff
  have hshort : (s.len + (2 ^ 16 - (num base n - s.seqno).toNat % 2 ^ 16)) % 2 ^ 16 =
      s.len - (n - pos) := by
    rw [hoff]
    omega
  have hpos : pos + (n - pos) = n := by omega
  unfold trimFront Seg.tcplen at *
  dsimp only
  rw [hshort, hoff]
  refine ⟨⟨rfl, by dsimp only; omega, ?_, fun hfin => ?_, fun l hl => ?_⟩, by omega, by omega⟩
  · dsimp only
    rw [h.data, st.drop_bytes (by omega), hpos]
  · rw [h.fin hfin, Option.some.injEq]
    dsimp only
    omega
  · have hle' := h.inside l hl
    dsimp only
    omega

theorem trimWindow_spec (h : Piece st base s pos) (hpos : 0 < s.tcplen) {wnd : BitVec 16}
    (hwnd : 0 < wnd.toNat) :
    Piece st base (trimWindow wnd s) pos ∧ 0 < (trimWindow wnd s).tcplen ∧
      (trimWindow wnd s).len ≤ s.len := by
  unfold trimWindow
  by_cases hover : wnd.toNat < s.tcplen
  · have hle := tcplen_le s
    have hd : (wnd.setWidth 32).toNat = wnd.toNat := by
      rw [BitVec.toNat_setWidth, Nat.mod_eq_of_lt (by have := wnd.isLt; omega)]
    obtain ⟨hshort, -, hlen⟩ := h.clearFin.realloc rfl (show wnd.toNat ≤ s.len by omega) hd
    rw [if_pos hover]
    exact ⟨hshort, tcplen_pos (by omega), by omega⟩
  · rw [if_neg hover]
    exact ⟨h, hpos, le_rfl⟩

/-! ## The queue and a segment in sequence -/

/-- What a FIN adds to the edge does not matter, as there is nothing behind it. -/
theorem dropCovered_step {l : List Seg} (h : Queue st base hi lo l) (edge step step' : BitVec 32) :
    dropCovered edge step false l = dropCovered edge step' false l := by
  induction h with
  | nil => rfl
  | @cons _ _ s _ _ _ _ _ hfin _ ih =>
      rw [dropCovered, dropCovered]
      simp only [Bool.false_eq_true, if_false, Bool.false_or]
      cases hs : s.fin with
      | false => rw [ih]
      | true =>
          obtain rfl := hfin hs
          rfl

theorem dropCovered_nil {l : List Seg} (h : Queue st base hi lo l) (edge step : BitVec 32)
    (hfin : (dropCovered edge step false l).1 = true) : (dropCovered edge step false l).2 = [] := by
  induction h with
  | nil => rfl
  | @cons _ _ s rest _ _ _ _ hlast _ ih =>
      rw [dropCovered] at hfin ⊢
      simp only [Bool.false_eq_true, if_false, Bool.false_or] at hfin ⊢
      by_cases hcovered : seqGeq edge s.edge = true
      · rw [if_pos hcovered] at hfin ⊢
        cases hs : s.fin with
        | false =>
            rw [hs] at hfin
            exact ih hfin
        | true =>
            obtain rfl := hlast hs
            rfl
      · rw [if_neg hcovered] at hfin
        cases hfin

/-- A segment in sequence is adjusted as one that is put on the queue. -/
theorem adjustOoseq_eq {l : List Seg} (hl : Queue st base hi lo l) (s : Seg) :
    (adjustOoseq s l).1 :: (adjustOoseq s l).2 = tcpOosInsertSegment s l := by
  unfold adjustOoseq tcpOosInsertSegment
  cases hs : s.fin with
  | true => rfl
  | false =>
      have hnil := dropCovered_nil hl s.edge 0
      simp only [Bool.false_eq_true, if_false]
      rw [dropCovered_step hl s.edge 1 0]
      generalize dropCovered s.edge 0 false l = r at hnil
      cases hr : r.2 with
      | nil => rfl
      | cons t rest =>
          have hcopied : r.1 = false := by
            refine (Bool.not_eq_true _).mp fun hcopied => ?_
            rw [hnil hcopied] at hr
            cases hr
          rw [hcopied]
          have htcplen : ({ s with fin := false } : Seg).tcplen = s.len := Nat.add_zero _
          have hedge : ({ s with fin := false } : Seg).edge =
            s.seqno + BitVec.ofNat 32 s.len := rfl
          dsimp only
          rw [htcplen, hedge]
          by_cases hgt : seqGt (s.seqno + BitVec.ofNat 32 s.len) t.seqno = true
          · rw [if_pos hgt, if_pos hgt]
          · rw [if_neg hgt, if_neg hgt]

theorem adjustOoseq_seqno (s : Seg) (l : List Seg) : (adjustOoseq s l).1.seqno = s.seqno := by
  unfold adjustOoseq
  split
  · rfl
  · dsimp only
    split
    · rfl
    · split <;> rfl

/-- After the adjustment the segment and the queue are a queue. -/
theorem adjustOoseq_spec {l : List Seg} (h : Piece st base s n) (hpos : 0 < s.tcplen)
    (hl : Queue st base hi (n + 1) l) (hb : hi + 1 < n + 2 ^ 31) (hhi : n + s.len ≤ hi) :
    Piece st base (adjustOoseq s l).1 n ∧ 0 < (adjustOoseq s l).1.tcplen ∧
      n + (adjustOoseq s l).1.len ≤ hi ∧
      ((adjustOoseq s l).1.fin = true → (adjustOoseq s l).2 = []) ∧
      Queue st base hi (n + (adjustOoseq s l).1.len) (adjustOoseq s l).2 := by
  have hinsert := insert_queue h hpos hl hb le_rfl hhi le_rfl
  rw [← adjustOoseq_eq hl s] at hinsert
  cases hinsert with
  | @cons _ q _ _ hpiece hle hqpos hqhi hfin hrest =>
      have hq : q = n := by
        have hseqno := adjustOoseq_seqno s l
        rwa [hpiece.seqno, h.seqno, num_inj base (by decide)
          (near_of_bounds hb hle (by omega) le_rfl (by omega))] at hseqno
      subst hq
      exact ⟨hpiece, hqpos, hqhi, hfin, hrest⟩

/-! ## Taking segments -/

/-- Behind the position `n`, `k` bytes have been taken, and the end of the stream perhaps. -/
structure Taken (st : Stream) (base : BitVec 32) (n k : ℕ) (pcb : Pcb) (r : Received) : Prop where
  data : r.data = st.bytes n k
  rcvNxt : pcb.rcvNxt = num base (n + k + r.gotFin.toNat)
  size : r.gotFin = true → st.size = some (n + k)

theorem Taken.segment {r : Received} (h : Taken st base n j pcb r) (hopen : r.gotFin = false)
    (hs : Piece st base s (n + j)) :
    Taken st base n (j + s.len) (takeSegment pcb s r).1 (takeSegment pcb s r).2 ∧
      (takeSegment pcb s r).2.gotFin = s.fin := by
  have hfin : (r.gotFin || s.fin) = s.fin := by rw [hopen, Bool.false_or]
  refine ⟨⟨?_, ?_, fun hgot => ?_⟩, hfin⟩
  · change r.data ++ s.p = _
    rw [h.data, hs.data, st.bytes_append]
  · change pcb.rcvNxt + BitVec.ofNat 32 (s.len + s.fin.toNat) =
      num base (n + (j + s.len) + (r.gotFin || s.fin).toNat)
    rw [h.rcvNxt, hopen, ← num_add]
    congr 1
    simp only [Bool.false_or, Bool.toNat_false]
    omega
  · rw [hs.fin (hfin.symm.trans hgot), Nat.add_assoc]

theorem takeOoseq_nil (pcb : Pcb) (r : Received) :
    takeOoseq pcb r [] = ({ pcb with ooseq := [] }, r) :=
  rfl

/-- The queue gives the segments that are in sequence, and what is left begins behind a gap. -/
theorem takeOoseq_spec {l : List Seg} {r : Received} (hl : Queue st base hi (n + j) l)
    (hb : hi + 1 < n + 2 ^ 31) (hj : n + j ≤ hi) (h : Taken st base n j pcb r)
    (hopen : r.gotFin = true → l = []) :
    ∃ k, j ≤ k ∧ n + k ≤ hi ∧ Taken st base n k (takeOoseq pcb r l).1 (takeOoseq pcb r l).2 ∧
      Queue st base hi (n + k + 1) (takeOoseq pcb r l).1.ooseq := by
  induction l generalizing pcb r j with
  | nil => exact ⟨j, le_rfl, hj, ⟨h.data, h.rcvNxt, h.size⟩, .nil⟩
  | cons cseg rest ih =>
      have hgot : r.gotFin = false := (Bool.not_eq_true _).mp fun hgot => by cases hopen hgot
      cases hl with
      | @cons _ q _ _ hpiece hle hqpos hqhi hlast hrest =>
          rw [takeOoseq]
          by_cases hnext : cseg.seqno = pcb.rcvNxt
          · rw [if_pos hnext]
            rw [hpiece.seqno, h.rcvNxt, hgot, Bool.toNat_false, Nat.add_zero,
              num_inj base (by decide)
                (near_of_bounds hb (by omega) (by omega) (by omega) (by omega))] at hnext
            subst hnext
            obtain ⟨htaken, hfin⟩ := h.segment hgot hpiece
            rw [Nat.add_assoc] at hrest hqhi
            obtain ⟨k, hk, hdone⟩ := ih hrest (by omega) htaken fun hr => hlast (hfin.symm.trans hr)
            exact ⟨k, (Nat.le_add_right _ _).trans hk, hdone⟩
          · rw [if_neg hnext]
            have hne : q ≠ n + j := fun heq => hnext (by
              rw [hpiece.seqno, h.rcvNxt, hgot, heq]
              rfl)
            refine ⟨j, le_rfl, hj, ⟨h.data, h.rcvNxt, h.size⟩, ?_⟩
            exact .cons hpiece (by omega) hqpos hqhi hlast hrest

/-! ## A segment -/

/-- The state of a connection that has delivered `n` bytes and has none from `hi` on. -/
structure Inv (st : Stream) (base : BitVec 32) (hi : ℕ) (pcb : Pcb) (n : ℕ) : Prop where
  bound : n ≤ hi ∧ hi ≤ n + 2 ^ 17
  rcvNxt : pcb.closing = false → pcb.rcvNxt = num base n
  queue : pcb.closing = false → Queue st base hi (n + 1) pcb.ooseq
  size : pcb.closing = true → st.size = some n

/-- What a segment brings: the next `k` bytes, and the end of the stream perhaps. -/
structure Step (st : Stream) (base : BitVec 32) (hi : ℕ) (pcb : Pcb) (n k : ℕ) (pcb' : Pcb)
    (r : Received) : Prop extends Taken st base n k pcb' r where
  bound : n + k ≤ hi
  queue : Queue st base hi (n + k + 1) pcb'.ooseq
  closing : pcb'.closing = pcb.closing

theorem takeOoseq_closing (pcb : Pcb) (r : Received) (l : List Seg) :
    (takeOoseq pcb r l).1.closing = pcb.closing := by
  induction l generalizing pcb r with
  | nil => rfl
  | cons cseg rest ih =>
      rw [takeOoseq]
      split
      · exact ih _ _
      · rfl

theorem receiveNext_spec (h : Inv st base hi pcb n) (hopen : pcb.closing = false)
    (hs : Piece st base s n) (hpos : 0 < s.tcplen) (hhi : n + s.len ≤ hi)
    (hwnd : 0 < pcb.rcvWnd.toNat) (acks : List Ack) :
    ∃ k, Step st base hi pcb n k (receiveNext pcb s acks).1 (receiveNext pcb s acks).2 ∧
      (0 < k ∨ (receiveNext pcb s acks).2.gotFin = true) := by
  obtain ⟨hlo, hb⟩ := h.bound
  obtain ⟨hwindow, hwindowpos, hwindowle⟩ := trimWindow_spec hs hpos hwnd
  obtain ⟨hadjust, hadjustpos, hadjusthi, hlast, hrest⟩ := adjustOoseq_spec hwindow hwindowpos
    (h.queue hopen) (by omega) (by omega)
  unfold receiveNext
  dsimp only
  generalize adjustOoseq (trimWindow pcb.rcvWnd s) pcb.ooseq = r
    at hadjust hadjustpos hadjusthi hlast hrest ⊢
  have hstart : Taken st base n 0 pcb ⟨[], false, acks⟩ :=
    ⟨rfl, h.rcvNxt hopen, fun hgot => (by cases hgot)⟩
  obtain ⟨htaken, hfin⟩ := hstart.segment rfl hadjust
  rw [Nat.zero_add] at htaken
  obtain ⟨k, hk, hkhi, hdone, hqueue⟩ := takeOoseq_spec hrest (by omega) hadjusthi htaken
    fun hgot => hlast (hfin.symm.trans hgot)
  refine ⟨k, ⟨⟨hdone.data, hdone.rcvNxt, hdone.size⟩, hkhi, hqueue, takeOoseq_closing _ _ _⟩, ?_⟩
  cases hr : r.1.fin with
  | false => exact Or.inl (Nat.lt_of_lt_of_le (len_pos hadjustpos hr) hk)
  | true =>
      rw [hlast hr, takeOoseq_nil]
      exact Or.inr (hfin.trans hr)

/-- A segment that brings nothing. -/
theorem Step.none (h : Inv st base hi pcb n) (hopen : pcb.closing = false) {ooseq : List Seg}
    (hqueue : Queue st base hi (n + 1) ooseq) (acks : List Ack) :
    Step st base hi pcb n 0 { pcb with ooseq } ⟨[], false, acks⟩ :=
  ⟨⟨rfl, h.rcvNxt hopen, fun hgot => (by cases hgot)⟩, h.bound.1, hqueue, rfl⟩

theorem queueSegment_queue (h : Inv st base hi pcb n) (hopen : pcb.closing = false) (mem : Bool)
    (hs : Piece st base s pos) (hpos : 0 < s.tcplen) (hlt : n < pos)
    (hwnd : pos < n + pcb.rcvWnd.toNat) (hhi : pos + s.len ≤ hi) (hplain : PlainOverrun pcb s) :
    Queue st base hi (n + 1) (queueSegment pcb mem s) := by
  have hb := h.bound.2
  unfold queueSegment
  split
  · split
    · exact .single hs hlt hpos hhi
    · exact .nil
  · exact oosWalk_queue mem hs hpos (h.rcvNxt hopen) hwnd hplain (by omega) hlt.le hhi
      none (h.queue hopen) (Nat.le_succ n) hlt fun p hp => (by cases hp)

theorem inWindow_iff (hrcv : pcb.rcvNxt = num base n) (hbehind : n < pos + 2 ^ 30)
    (hahead : pos < n + 2 ^ 30) :
    seqBetween (num base pos) pcb.rcvNxt pcb.last = true ↔
      n ≤ pos ∧ pos < n + pcb.rcvWnd.toNat := by
  have hw := pcb.rcvWnd.isLt
  unfold Pcb.last
  rw [window_eq hrcv, hrcv]
  exact seqBetween_iff ⟨by change pos < n + 2 ^ 31; omega, by change n < pos + 2 ^ 31; omega⟩
    ⟨by change pos + 1 < _ + 2 ^ 31; omega, by change _ < pos + 1 + 2 ^ 31; omega⟩

theorem trim_iff (hrcv : pcb.rcvNxt = num base n) (hs : Piece st base s pos)
    (hbehind : n < pos + 2 ^ 30) (hahead : pos < n + 2 ^ 30) :
    seqBetween pcb.rcvNxt (s.seqno + 1) (s.seqno + BitVec.ofNat 32 s.tcplen - 1) = true ↔
      pos < n ∧ n < pos + s.tcplen := by
  have hlen := hs.len
  have hle := tcplen_le s
  have hsucc : s.seqno + 1 = num base (pos + 1) := by
    rw [hs.seqno, num_add]
    rfl
  rw [BitVec.add_comm s.seqno (BitVec.ofNat 32 _), tcplen_eq hs, hsucc, hrcv]
  have hnear : Near 32 n (pos + 1) := ⟨by change n < _ + 2 ^ 31; omega,
    by change pos + 1 < n + 2 ^ 31; omega⟩
  exact seqBetween_iff hnear
    ⟨by change n + 1 < _ + 2 ^ 31; omega, by change _ < n + 1 + 2 ^ 31; omega⟩

/-- What is done about a segment in the window, or outside of it. -/
def receiveWindow (mem : Bool) (pcb : Pcb) (s : Seg) (acks : List Ack) : Pcb × Received :=
  if seqBetween s.seqno pcb.rcvNxt pcb.last then
    if pcb.rcvNxt = s.seqno then receiveNext pcb s acks
    else ({ pcb with ooseq := queueSegment pcb mem s }, ⟨[], false, acks ++ [.empty]⟩)
  else (pcb, ⟨[], false, acks ++ [.empty]⟩)

theorem receiveWindow_spec (h : Inv st base hi pcb n) (hopen : pcb.closing = false) (mem : Bool)
    (hs : Piece st base s pos) (hpos : 0 < s.tcplen) (hbehind : n < pos + 2 ^ 30)
    (hahead : pos < n + 2 ^ 30) (hhi : pos < n + pcb.rcvWnd.toNat → pos + s.len ≤ hi)
    (hplain : n < pos → PlainOverrun pcb s) (acks : List Ack) :
    ∃ k, Step st base hi pcb n k (receiveWindow mem pcb s acks).1
        (receiveWindow mem pcb s acks).2 ∧
      (pos = n → 0 < pcb.rcvWnd.toNat →
        0 < k ∨ (receiveWindow mem pcb s acks).2.gotFin = true) := by
  have hrcv := h.rcvNxt hopen
  have hwindow := inWindow_iff hrcv hbehind hahead
  unfold receiveWindow
  rw [hs.seqno]
  by_cases hin : seqBetween (num base pos) pcb.rcvNxt pcb.last = true
  · rw [if_pos hin]
    obtain ⟨hle, hlt⟩ := hwindow.mp hin
    by_cases heq : pcb.rcvNxt = num base pos
    · rw [if_pos heq]
      rw [hrcv, num_inj base (by decide)
        ⟨by change n < pos + 2 ^ 31; omega, by change pos < n + 2 ^ 31; omega⟩] at heq
      subst heq
      obtain ⟨k, hstep, hmore⟩ := receiveNext_spec h hopen hs hpos (hhi hlt) (by omega) acks
      exact ⟨k, hstep, fun _ _ => hmore⟩
    · rw [if_neg heq]
      have hne : pos ≠ n := fun hpn => heq (by rw [hrcv, hpn])
      refine ⟨0, .none h hopen ?_ _, fun hpn => absurd hpn hne⟩
      exact queueSegment_queue h hopen mem hs hpos (by omega) hlt (hhi hlt) (hplain (by omega))
  · rw [if_neg hin]
    refine ⟨0, .none h hopen (h.queue hopen) _, fun hpn hwnd => ?_⟩
    exact absurd (hwindow.mpr ⟨by omega, by omega⟩) hin

/-- What a segment of the stream brings, wherever it is from; and if it has the next byte, or the
end that is next, and the window is open, it does bring something. -/
theorem tcpReceive_spec (h : Inv st base hi pcb n) (hopen : pcb.closing = false) (mem : Bool)
    (hs : Piece st base s pos) (hbehind : n < pos + 2 ^ 30) (hahead : pos < n + 2 ^ 30)
    (hhi : pos < n + pcb.rcvWnd.toNat → pos + s.len ≤ hi)
    (hplain : n < pos → PlainOverrun pcb s) :
    ∃ k, Step st base hi pcb n k (tcpReceive mem pcb s).1 (tcpReceive mem pcb s).2 ∧
      (pos ≤ n → n < pos + s.tcplen → 0 < pcb.rcvWnd.toNat →
        0 < k ∨ (tcpReceive mem pcb s).2.gotFin = true) := by
  have hrcv := h.rcvNxt hopen
  unfold tcpReceive
  by_cases hpos : 0 < s.tcplen
  · rw [if_pos ⟨hpos, by rw [hopen]; decide⟩]
    dsimp only
    have htrim := trim_iff hrcv hs hbehind hahead
    by_cases hfront : seqBetween pcb.rcvNxt (s.seqno + 1)
      (s.seqno + BitVec.ofNat 32 s.tcplen - 1) = true
    · obtain ⟨hlt, hin⟩ := htrim.mp hfront
      obtain ⟨hshort, hshortpos, hend⟩ := trimFront_spec hs hlt hin
      rw [← hrcv] at hshort hshortpos hend
      simp only [hfront, if_true]
      obtain ⟨k, hstep, hmore⟩ := receiveWindow_spec h hopen mem hshort hshortpos (by omega)
        (by omega) (fun hnn => hend ▸ hhi (by omega)) (fun hnn => absurd hnn (Nat.lt_irrefl n)) _
      exact ⟨k, hstep, fun _ _ => hmore rfl⟩
    · simp only [hfront]
      obtain ⟨k, hstep, hmore⟩ := receiveWindow_spec h hopen mem hs hpos hbehind hahead hhi hplain _
      refine ⟨k, hstep, fun hle hin => hmore ?_⟩
      have hnot := mt htrim.mpr hfront
      omega
  · rw [if_neg fun hall => hpos hall.1]
    exact ⟨0, .none h hopen (h.queue hopen) _, fun hle hin => by omega⟩

end Tcp

end LuojiOs
