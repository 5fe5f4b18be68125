import LuojiOs.Tcp.Connection

/-!
# The window of a connection

The other side keeps within the window, and the application says what it has used.  Then the window
is what is free of `TCP_WND`: no byte of it is lost for good, and the queue has room in it.
-/

namespace LuojiOs

namespace Tcp

open SerialNumbers

variable {st : Stream} {base : BitVec 32} {s : Seg} {pcb : Pcb} {c c' : Conn} {pos lo hi n k : ℕ}

/-! ## The end of the stream -/

/-- A segment of the queue has the FIN. -/
def Closes (l : List Seg) : Prop := ∃ s ∈ l, s.fin = true

@[simp] theorem closes_nil : ¬Closes [] := fun ⟨_, h, _⟩ => (by cases h)

@[simp] theorem closes_cons {l : List Seg} : Closes (s :: l) ↔ s.fin = true ∨ Closes l := by
  simp [Closes]

@[simp] theorem closes_append {l l' : List Seg} : Closes (l ++ l') ↔ Closes l ∨ Closes l' := by
  simp [Closes, or_and_right, exists_or]

theorem dropCovered_closes (edge add : BitVec 32) (fin : Bool) {l : List Seg}
    (h : (dropCovered edge add fin l).1 = true ∨ Closes (dropCovered edge add fin l).2) :
    fin = true ∨ Closes l := by
  induction l generalizing fin with
  | nil => exact h
  | cons next rest ih =>
      rw [dropCovered] at h
      by_cases hcovered : seqGeq (if fin then edge + add else edge) next.edge = true
      · rw [if_pos hcovered] at h
        have hrest := ih _ h
        rw [Bool.or_eq_true, or_assoc] at hrest
        exact hrest.imp_right closes_cons.mpr
      · rwa [if_neg hcovered] at h

theorem tcpOosInsertSegment_closes {l : List Seg} (h : Closes (tcpOosInsertSegment s l)) :
    s.fin = true ∨ Closes l := by
  unfold tcpOosInsertSegment at h
  by_cases hfin : s.fin = true
  · exact Or.inl hfin
  · rw [if_neg hfin] at h
    have hdrop := dropCovered_closes s.edge 0 false (l := l)
    dsimp only at h
    refine Or.inr ((hdrop ?_).resolve_left Bool.false_ne_true)
    split at h
    · exact Or.inl ((closes_cons.mp h).resolve_right closes_nil)
    · next hcons =>
      rw [hcons]
      split at h <;> simpa [Seg.realloc] using h

@[simp] theorem trimPrev_fin (prev : Seg) (seqno : BitVec 32) :
    (trimPrev prev seqno).fin = prev.fin := by
  unfold trimPrev
  split <;> rfl

theorem fin_of_trimLast (rcvNxt : BitVec 32) (rcvWnd : BitVec 16)
    (h : (trimLast rcvNxt rcvWnd s).fin = true) : s.fin = true := by
  unfold trimLast at h
  split at h
  · cases h
  · exact h

theorem oosWalk_closes {mem : Bool} {prev : Option Seg} {l : List Seg}
    (h : Closes (oosWalk pcb mem s prev l)) : s.fin = true ∨ Closes (prev.toList ++ l) := by
  induction l generalizing prev with
  | nil =>
      rw [List.append_nil]
      exact Or.inr h
  | cons next rest ih =>
      have hinsert := tcpOosInsertSegment_closes (s := s) (l := next :: rest)
      have hprev : ∀ seqno, Closes (prev.map (trimPrev · seqno)).toList ↔ Closes prev.toList := by
        cases prev <;> simp
      rw [closes_append]
      rw [oosWalk] at h
      split at h
      · split at h
        · rcases closes_append.mp h with hold | hnew
          · exact Or.inr (Or.inl hold)
          · exact (hinsert hnew).imp_right Or.inr
        · exact Or.inr (closes_append.mp h)
      · split at h
        · split at h
          · exact (hinsert h).imp_right Or.inr
          · exact Or.inr (Or.inr h)
        · split at h
          · split at h
            · rw [closes_append, hprev] at h
              rcases h with hold | hnew
              · exact Or.inr (Or.inl hold)
              · exact (hinsert hnew).imp_right Or.inr
            · exact Or.inr (closes_append.mp h)
          · split at h
            · next hend =>
              rw [hend.1]
              have hlast := fin_of_trimLast (s := s) pcb.rcvNxt pcb.rcvWnd
              split at h
              · exact Or.inr (closes_append.mp h)
              · split at h
                · simp only [closes_append, closes_cons, closes_nil, trimPrev_fin, or_false] at h ⊢
                  rcases h with hold | hnext | hnew
                  · exact Or.inr (Or.inl hold)
                  · exact Or.inr (Or.inr hnext)
                  · exact Or.inl (hlast hnew)
                · exact Or.inr (closes_append.mp h)
            · rw [closes_append] at h
              have hrest := @ih (some next)
              rw [closes_append] at hrest
              simp only [Option.toList_some, closes_cons, closes_nil, or_false] at hrest ⊢
              rcases h with hold | hnew
              · exact Or.inr (Or.inl hold)
              · exact (hrest hnew).imp_right Or.inr

theorem queueSegment_closes {mem : Bool} (h : Closes (queueSegment pcb mem s)) :
    s.fin = true ∨ Closes pcb.ooseq := by
  unfold queueSegment at h
  split at h
  · split at h
    · exact Or.inl ((closes_cons.mp h).resolve_right closes_nil)
    · exact absurd h closes_nil
  · exact oosWalk_closes h

theorem adjustOoseq_closes {l : List Seg}
    (h : (adjustOoseq s l).1.fin = true ∨ Closes (adjustOoseq s l).2) :
    s.fin = true ∨ Closes l := by
  unfold adjustOoseq at h
  by_cases hfin : s.fin = true
  · exact Or.inl hfin
  · rw [if_neg hfin] at h
    have hdrop := dropCovered_closes s.edge 1 false (l := l)
    dsimp only at h
    refine Or.inr ((hdrop ?_).resolve_left Bool.false_ne_true)
    split at h
    · next hnil => rwa [hnil]
    · next hcons =>
      rw [hcons]
      split at h <;> exact h

theorem takeOoseq_closes {r : Received} {l : List Seg}
    (h : (takeOoseq pcb r l).2.gotFin = true ∨ Closes (takeOoseq pcb r l).1.ooseq) :
    r.gotFin = true ∨ Closes l := by
  induction l generalizing pcb r with
  | nil => exact h
  | cons cseg rest ih =>
      rw [takeOoseq] at h
      split at h
      · have hrest := ih h
        change (r.gotFin || cseg.fin) = true ∨ _ at hrest
        rw [Bool.or_eq_true, or_assoc] at hrest
        exact hrest.imp_right closes_cons.mpr
      · exact h

theorem receiveNext_closes {acks : List Ack}
    (h : (receiveNext pcb s acks).2.gotFin = true ∨ Closes (receiveNext pcb s acks).1.ooseq) :
    s.fin = true ∨ Closes pcb.ooseq := by
  have htake := takeOoseq_closes h
  change (false || _) = true ∨ _ at htake
  rw [Bool.false_or] at htake
  refine (adjustOoseq_closes htake).imp_left fun hfin => ?_
  unfold trimWindow at hfin
  split at hfin
  · cases hfin
  · exact hfin

theorem receiveWindow_closes {mem : Bool} {acks : List Ack}
    (h : (receiveWindow mem pcb s acks).2.gotFin = true ∨
      Closes (receiveWindow mem pcb s acks).1.ooseq) : s.fin = true ∨ Closes pcb.ooseq := by
  unfold receiveWindow at h
  by_cases hin : seqBetween s.seqno pcb.rcvNxt pcb.last = true
  · rw [if_pos hin] at h
    by_cases heq : pcb.rcvNxt = s.seqno
    · rw [if_pos heq] at h
      exact receiveNext_closes h
    · rw [if_neg heq] at h
      exact queueSegment_closes (h.resolve_left Bool.false_ne_true)
  · rw [if_neg hin] at h
    exact Or.inr (h.resolve_left Bool.false_ne_true)

/-- Where the end of the stream is known, it has come with the segment or was known before. -/
theorem tcpReceive_closes {mem : Bool}
    (h : (tcpReceive mem pcb s).2.gotFin = true ∨ Closes (tcpReceive mem pcb s).1.ooseq) :
    s.fin = true ∨ Closes pcb.ooseq := by
  have hsame : ∀ b : Bool, (if b then trimFront pcb.rcvNxt s else s).fin = s.fin := by
    intro b
    split <;> rfl
  unfold tcpReceive at h
  by_cases htext : 0 < s.tcplen ∧ ¬pcb.closing
  · rw [if_pos htext] at h
    rw [← hsame]
    exact receiveWindow_closes h
  · rw [if_neg htext] at h
    exact Or.inr (h.resolve_left Bool.false_ne_true)

/-! ## The sum of the window and the next number -/

/-- The number behind the window, as far as a window can tell. -/
def Pcb.room (pcb : Pcb) : BitVec 16 := pcb.rcvWnd + pcb.rcvNxt.setWidth 16

theorem takeSegment_room (pcb : Pcb) (seg : Seg) (r : Received) :
    (takeSegment pcb seg r).1.room = pcb.room := by
  change pcb.rcvWnd - BitVec.ofNat 16 seg.tcplen +
    (pcb.rcvNxt + BitVec.ofNat 32 seg.tcplen).setWidth 16 = _
  unfold Pcb.room
  generalize seg.tcplen = t
  bv_omega

theorem takeOoseq_room (pcb : Pcb) (r : Received) (l : List Seg) :
    (takeOoseq pcb r l).1.room = pcb.room := by
  induction l generalizing pcb r with
  | nil => rfl
  | cons cseg rest ih =>
      rw [takeOoseq]
      split
      · rw [ih, takeSegment_room]
      · rfl

theorem receiveWindow_room (mem : Bool) (pcb : Pcb) (s : Seg) (acks : List Ack) :
    (receiveWindow mem pcb s acks).1.room = pcb.room := by
  unfold receiveWindow
  by_cases hin : seqBetween s.seqno pcb.rcvNxt pcb.last = true
  · rw [if_pos hin]
    by_cases heq : pcb.rcvNxt = s.seqno
    · rw [if_pos heq]
      unfold receiveNext
      dsimp only
      rw [takeOoseq_room, takeSegment_room]
    · rw [if_neg heq]
      rfl
  · rw [if_neg hin]

theorem tcpReceive_room (mem : Bool) (pcb : Pcb) (s : Seg) :
    (tcpReceive mem pcb s).1.room = pcb.room := by
  unfold tcpReceive
  by_cases htext : 0 < s.tcplen ∧ ¬pcb.closing
  · rw [if_pos htext]
    exact receiveWindow_room _ _ _ _
  · rw [if_neg htext]

/-- What the next number gains, the window loses. -/
theorem rcvWnd_of_room {pcb' : Pcb} (h : pcb'.room = pcb.room) (hrcv : pcb.rcvNxt = num base n)
    (hrcv' : pcb'.rcvNxt = num base (n + k)) (hk : k ≤ pcb.rcvWnd.toNat) :
    pcb'.rcvWnd.toNat + k = pcb.rcvWnd.toNat := by
  have hw := pcb.rcvWnd.isLt
  unfold Pcb.room at h
  rw [hrcv, hrcv', num_add] at h
  generalize num base n = r at h
  generalize pcb.rcvWnd = w at h hk hw ⊢
  generalize pcb'.rcvWnd = w' at h ⊢
  have hw' : w' = w - BitVec.ofNat 16 k := by bv_omega
  rw [hw', BitVec.toNat_sub, BitVec.toNat_ofNat]
  omega

/-! ## Runs -/

/-- The other side sends nothing behind the window, and the application does not say that it has
used what it has not got. -/
def WithinWindow (st : Stream) (base : BitVec 32) (c : Conn) : Event → Prop
  | .arrive s _ => ∃ pos, Piece st base s pos ∧ c.delivered.length < pos + 2 ^ 30 ∧
      pos + s.tcplen ≤ c.delivered.length + c.pcb.rcvWnd.toNat ∧
      (c.delivered.length < pos → PlainOverrun c.pcb s)
  | .recved len => c.recved + len ≤ c.delivered.length

theorem WithinWindow.genuine {e : Event} (h : WithinWindow st base c e) :
    Genuine st base c e := by
  cases e with
  | arrive s mem =>
      obtain ⟨pos, hpiece, hbehind, hwithin, hplain⟩ := h
      have hwnd := c.pcb.rcvWnd.isLt
      exact ⟨pos, hpiece, hbehind, by omega, hplain⟩
  | recved len => trivial

/-- What holds besides in every state, if the other side keeps within the window. -/
structure Conn.Kept (st : Stream) (base : BitVec 32) (c : Conn) : Prop where
  good : c.Good st base
  recved : c.recved ≤ c.delivered.length
  window : c.pcb.rcvWnd.toNat + c.delivered.length = c.recved + 2048
  queue : Queue st base (c.recved + 2048) (c.delivered.length + 1) c.pcb.ooseq
  /-- The FIN has room in the window. -/
  last : c.eof = true ∨ Closes c.pcb.ooseq → ∀ l, st.size = some l → l + 1 ≤ c.recved + 2048

theorem Conn.Kept.inv (h : c.Kept st base) :
    Inv st base (c.recved + 2048) c.pcb c.delivered.length :=
  have hwindow := h.window
  have hrecved := h.recved
  ⟨by omega, h.good.inv.rcvNxt, fun _ => h.queue, h.good.inv.size⟩

/-- The window behind `tcp_input`, where a FIN takes nothing from it. -/
theorem tcpInput_rcvWnd {mem : Bool} {free : ℕ}
    (h : (tcpReceive mem pcb s).1.rcvWnd.toNat + (tcpReceive mem pcb s).2.gotFin.toNat = free)
    (hfree : free ≤ 2048) : (tcpInput mem pcb s).1.rcvWnd.toNat = free := by
  unfold tcpInput
  dsimp only
  cases hfin : (tcpReceive mem pcb s).2.gotFin with
  | false =>
      rw [hfin] at h
      exact h
  | true =>
      rw [hfin, Bool.toNat_true] at h
      generalize (tcpReceive mem pcb s).1.rcvWnd = w at h ⊢
      have hne : w ≠ tcpWnd := by
        rintro rfl
        change 2048 + 1 = free at h
        omega
      rw [if_pos rfl]
      dsimp only
      rw [if_pos hne, BitVec.toNat_add, Nat.mod_eq_of_lt]
      · exact h
      · change w.toNat + 1 < _
        omega

/-- The FIN that a segment brings has room in the window. -/
theorem Conn.Kept.last_of_receive (h : c.Kept st base) (mem : Bool) (hs : Piece st base s pos)
    (hwithin : pos + s.tcplen ≤ c.delivered.length + c.pcb.rcvWnd.toNat)
    (hcl : (tcpReceive mem c.pcb s).2.gotFin = true ∨ Closes (tcpReceive mem c.pcb s).1.ooseq)
    {l : ℕ} (hl : st.size = some l) : l + 1 ≤ c.recved + 2048 := by
  rcases tcpReceive_closes hcl with hfin | hold
  · have hend := Option.some.inj (hl.symm.trans (hs.fin hfin))
    have hwindow := h.window
    have hone : s.tcplen = s.len + 1 := by
      unfold Seg.tcplen
      rw [hfin, Bool.toNat_true]
    omega
  · exact h.last (Or.inr hold) l hl

/-- What a segment brings is taken from the window, and there is room for it. -/
theorem Conn.Kept.rcvWnd_of_receive (h : c.Kept st base) (hopen : c.eof = false) {mem : Bool}
    (hs : Piece st base s pos)
    (hwithin : pos + s.tcplen ≤ c.delivered.length + c.pcb.rcvWnd.toNat)
    (hstep : Step st base (c.recved + 2048) c.pcb c.delivered.length k (tcpReceive mem c.pcb s).1
      (tcpReceive mem c.pcb s).2) :
    (tcpInput mem c.pcb s).1.rcvWnd.toNat + k = c.pcb.rcvWnd.toNat := by
  have hwindow := h.window
  have hrecved := h.recved
  have hbound := hstep.bound
  have hroom : k + (tcpReceive mem c.pcb s).2.gotFin.toNat ≤ c.pcb.rcvWnd.toNat := by
    cases hgot : (tcpReceive mem c.pcb s).2.gotFin with
    | false =>
        change k + 0 ≤ _
        omega
    | true =>
        have hlast := h.last_of_receive mem hs hwithin (Or.inl hgot) (hstep.size hgot)
        change k + 1 ≤ _
        omega
  have hrest := rcvWnd_of_room (tcpReceive_room mem c.pcb s)
    (h.inv.rcvNxt (h.good.closing.trans hopen)) (by rw [hstep.rcvNxt, Nat.add_assoc]) hroom
  have hfree : (tcpInput mem c.pcb s).1.rcvWnd.toNat = c.pcb.rcvWnd.toNat - k :=
    tcpInput_rcvWnd (by omega) (by omega)
  omega

theorem arrive_kept (h : c.Kept st base) (hopen : c.eof = false) {mem : Bool}
    (hs : Piece st base s pos) (hbehind : c.delivered.length < pos + 2 ^ 30)
    (hwithin : pos + s.tcplen ≤ c.delivered.length + c.pcb.rcvWnd.toNat)
    (hplain : c.delivered.length < pos → PlainOverrun c.pcb s)
    (hgood : c'.Good st base) (he : step c (.arrive s mem) = some c') : c'.Kept st base := by
  have hwindow := h.window
  have hwnd := c.pcb.rcvWnd.isLt
  have hle : s.len ≤ s.tcplen := Nat.le_add_right _ _
  obtain ⟨k, hstep, -⟩ := tcpReceive_spec h.inv (h.good.closing.trans hopen) mem hs hbehind
    (by omega) (by omega) hplain
  have hfree := h.rcvWnd_of_receive hopen hs hwithin hstep
  obtain ⟨-, hooseq, hdata, hfin⟩ := tcpInput_eq mem c.pcb s
  have hlen : (c.delivered ++ (tcpInput mem c.pcb s).2.data).length = c.delivered.length + k := by
    rw [List.length_append, hdata, hstep.data, st.length_bytes]
  obtain rfl := Option.some.inj he
  refine ⟨hgood, ?_, ?_, ?_, fun hcl l hl => h.last_of_receive mem hs hwithin ?_ hl⟩
  · dsimp only
    rw [hlen]
    exact h.recved.trans (Nat.le_add_right _ _)
  · dsimp only
    rw [hlen]
    omega
  · dsimp only
    rw [hlen, hooseq]
    exact hstep.queue
  · dsimp only at hcl
    rwa [hopen, hooseq, hfin, Bool.false_or] at hcl

theorem recved_kept (h : c.Kept st base) {len : ℕ} (hlen : c.recved + len ≤ c.delivered.length)
    (hgood : c'.Good st base) (he : step c (.recved len) = some c') : c'.Kept st base := by
  have hwindow := h.window
  obtain rfl := Option.some.inj he
  have hadd : (c.pcb.rcvWnd + BitVec.ofNat 16 len).toNat = c.pcb.rcvWnd.toNat + len := by
    rw [BitVec.toNat_add, BitVec.toNat_ofNat]
    omega
  have hfit : ¬tcpWnd < c.pcb.rcvWnd + BitVec.ofNat 16 len := by
    rw [BitVec.lt_def, hadd]
    change ¬2048 < _
    omega
  have hraise : c.recved + 2048 ≤ c.recved + len + 2048 := by omega
  refine ⟨hgood, hlen, ?_, h.queue.raise hraise, fun hcl l hl => (h.last hcl l hl).trans hraise⟩
  change (tcpRecved len c.pcb).rcvWnd.toNat + _ = c.recved + len + 2048
  unfold tcpRecved
  dsimp only
  rw [if_neg hfit, hadd]
  omega

theorem step_kept (h : c.Kept st base) {e : Event} (hg : WithinWindow st base c e)
    (he : step c e = some c') : c'.Kept st base := by
  have hgood := step_good h.good hg.genuine he
  cases e with
  | arrive s mem =>
      obtain ⟨pos, hpiece, hbehind, hwithin, hplain⟩ := hg
      cases heof : c.eof with
      | false => exact arrive_kept h heof hpiece hbehind hwithin hplain hgood he
      | true =>
          obtain ⟨hpcb, hdata, hfin⟩ := tcpInput_of_closing mem s (h.good.closing.trans heof)
          obtain rfl := Option.some.inj he
          rw [hpcb, hdata, hfin, List.append_nil, Bool.or_false]
          exact h
  | recved len => exact recved_kept h hg hgood he

theorem Queue.sum_le {l : List Seg} (h : Queue st base hi lo l) :
    (l.map Seg.len).sum ≤ hi - lo := by
  induction h with
  | nil => exact Nat.zero_le _
  | cons _ hlo _ hhi _ _ ih =>
      rw [List.map_cons, List.sum_cons]
      omega

theorem kept_of_reach
    (h : Runs.Reach step (WithinWindow st base) (fun c => c = opened base) c) : c.Kept st base := by
  refine h.invariant (fun _ hc => ?_) fun _ _ _ hc => step_kept hc
  subst hc
  exact ⟨opened_good st base, le_rfl, rfl, .nil,
    fun hcl => (hcl.resolve_left Bool.false_ne_true |> closes_nil).elim⟩

theorem within_lateSeg :
    WithinWindow short 0xFFFFFFFF (opened 0xFFFFFFFF) (.arrive lateSeg true) :=
  ⟨1, piece_lateSeg, by decide, by decide, fun _ h => absurd h (by decide)⟩

theorem within_firstSeg : WithinWindow short 0xFFFFFFFF waiting (.arrive firstSeg true) :=
  ⟨0, piece_firstSeg, by decide, by decide, fun h => absurd h (by decide)⟩

end Tcp

end LuojiOs
