import LuojiOs.Tcp.Queues

/-!
# What a sender keeps

All that has been written and is not acknowledged stays on the queues, through any order of writes,
transmissions, retransmissions and acknowledgements.  One state is to be kept away from: while a
segment waits for its fast retransmission at the end of `unsent`, `tcp_write` and `tcp_send_fin`
would put what comes behind all segments behind this one.
-/

namespace LuojiOs

namespace Tcp

open SerialNumbers

variable {st : Stream} {base : BitVec 32} {s : Seg} {pcb pcb' : SndPcb} {U V L : List Seg}
  {a b e n p w : ℕ}

theorem seqLeq_iff (base : BitVec 32) (h : Near 32 a b) :
    seqLeq (num base a) (num base b) = true ↔ a ≤ b := by
  unfold seqLeq
  rw [decide_eq_true_iff, toInt_num_sub base (by decide) h]
  omega

/-! ## The invariant -/

/-- What holds of a sender that has taken `w` bytes, of which `n` are acknowledged, within
`tcp_output`. -/
structure Core (st : Stream) (base : BitVec 32) (w n : ℕ) (pcb : SndPcb) : Prop where
  lastack : pcb.lastack = num base n
  sndNxt : ∃ nxt, pcb.sndNxt = num base nxt ∧ n ≤ nxt ∧ nxt ≤ w + pcb.fin.toNat
  sndLbb : pcb.fin = false → pcb.sndLbb = num base w
  sndBuf : pcb.fin = false → w + pcb.sndBuf = n + tcpSndBuf
  bound : w ≤ n + tcpSndBuf
  queues : Queues st base n (w + pcb.fin.toNat) pcb.unacked pcb.unsent
  mss : pcb.mss ≤ tcpMss
  size : ∀ s ∈ pcb.unacked ++ pcb.unsent, s.len ≤ pcb.mssLocal
  room : ∀ s ∈ pcb.unsent.getLast?, s.len + pcb.unsentOversize ≤ pcb.mssLocal

/-- What holds of it between the calls. -/
structure Sound (st : Stream) (base : BitVec 32) (w n : ℕ) (pcb : SndPcb) : Prop
    extends Core st base w n pcb where
  empty : pcb.unsent = [] → pcb.unsentOversize = 0

/-- What is of no interest to the queues is cleared. -/
def SndPcb.queuesOnly (pcb : SndPcb) : SndPcb :=
  { pcb with
    sndWl1 := 0, sndWl2 := 0, sndWnd := 0, cwnd := 0, ssthresh := 0, dupacks := 0, timing := false,
    infr := false, nagleMemErr := false, nodelay := false }

theorem Sound.of_eq (h : Sound st base w n pcb) (heq : pcb'.queuesOnly = pcb.queuesOnly) :
    Sound st base w n pcb' := by
  have hclear : Sound st base w n pcb.queuesOnly :=
    ⟨⟨h.lastack, h.sndNxt, h.sndLbb, h.sndBuf, h.bound, h.queues, h.mss, h.size, h.room⟩, h.empty⟩
  rw [← heq] at hclear
  exact ⟨⟨hclear.lastack, hclear.sndNxt, hclear.sndLbb, hclear.sndBuf, hclear.bound,
    hclear.queues, hclear.mss, hclear.size, hclear.room⟩, hclear.empty⟩

theorem Core.stop_le (h : Core st base w n pcb) : w + pcb.fin.toNat ≤ n + (tcpSndBuf + 1) := by
  have hfin := Bool.toNat_le pcb.fin
  have hbound := h.bound
  omega

/-! ## Acknowledgements -/

theorem acked_iff (hs : Around st base n e s p) (hn : n ≤ b) (hb : b ≤ e) (he : e < n + 2 ^ 30) :
    seqLeq (s.seqno + BitVec.ofNat 32 s.tcplen) (num base b) = true ↔ p + s.tcplen ≤ b := by
  have hnear := hs.near
  have hlo := hs.lo
  have hhi := hs.hi
  rw [hs.piece.seqno, ← num_add]
  exact seqLeq_iff base ⟨by change p + s.tcplen < b + 2 ^ 31; omega,
    by change b < p + s.tcplen + 2 ^ 31; omega⟩

theorem unsent_acked_iff {nxt : ℕ} (hs : Around st base n e s p) (hb : n < b + 2 ^ 30)
    (hb' : b < n + 2 ^ 30) (hnxt : n ≤ nxt) (hnxt' : nxt ≤ e) (he : e < n + 2 ^ 30) :
    seqBetween (num base b) (s.seqno + BitVec.ofNat 32 s.tcplen) (num base nxt) = true ↔
      p + s.tcplen ≤ b ∧ b ≤ nxt := by
  have hlo := hs.lo
  have hhi := hs.hi
  unfold seqBetween
  rw [hs.piece.seqno, ← num_add, Bool.and_eq_true,
    seqGeq_iff ⟨by change b < p + s.tcplen + 2 ^ 31; omega,
      by change p + s.tcplen < b + 2 ^ 31; omega⟩,
    seqLeq_iff base ⟨by change b < nxt + 2 ^ 31; omega, by change nxt < b + 2 ^ 31; omega⟩]

theorem Sound.updateWindow (h : Sound st base w n pcb) (hdr : AckHdr) :
    Sound st base w n (updateWindow hdr pcb) := by
  unfold Tcp.updateWindow
  split
  · have hle : pcb.mssLocal ≤ min pcb.mss (max pcb.sndWndMax hdr.wnd / 2) :=
      min_le_min_left _ (Nat.div_le_div_right (Nat.le_max_left _ _))
    exact ⟨⟨h.lastack, h.sndNxt, h.sndLbb, h.sndBuf, h.bound, h.queues, h.mss,
      fun s hs => (h.size s hs).trans hle, fun s hs => (h.room s hs).trans hle⟩, h.empty⟩
  · exact h

theorem mem_insertSeg {x : Seg} {l : List Seg} : x ∈ insertSeg s l ↔ x = s ∨ x ∈ l := by
  induction l with
  | nil => simp [insertSeg]
  | cons cur rest ih =>
      rw [insertSeg]
      split
      · rw [List.mem_cons, ih, List.mem_cons]
        exact or_left_comm
      · exact List.mem_cons

theorem insertSeg_ne_nil (s : Seg) (l : List Seg) : insertSeg s l ≠ [] :=
  List.ne_nil_of_mem (mem_insertSeg.mpr (Or.inl rfl))

theorem getLast?_cons_of_ne_nil {α : Type*} {x : α} {l : List α} (h : l ≠ []) :
    (x :: l).getLast? = l.getLast? := by
  rw [List.getLast?_cons, List.getLast?_eq_some_getLast h]
  rfl

/-- The last segment of a queue stays the last one, if there are others behind the place. -/
theorem getLast?_insertSeg {l : List Seg} (h : ¬l.all fun cur => seqLt cur.seqno s.seqno) :
    (insertSeg s l).getLast? = l.getLast? := by
  induction l with
  | nil => exact absurd rfl h
  | cons cur rest ih =>
      rw [insertSeg]
      split
      · next hcur =>
        rw [List.all_cons, hcur, Bool.true_and] at h
        have hrest : rest ≠ [] := fun hnil => h (by rw [hnil]; rfl)
        rw [getLast?_cons_of_ne_nil (insertSeg_ne_nil s rest), ih h,
          getLast?_cons_of_ne_nil hrest]
      · exact getLast?_cons_of_ne_nil (List.cons_ne_nil cur rest)

theorem Sound.tcpRexmit (h : Sound st base w n pcb) : Sound st base w n (tcpRexmit pcb) := by
  unfold Tcp.tcpRexmit
  have hqueues := h.queues
  have hsize := h.size
  split
  · exact h
  · next seg rest hunacked =>
    rw [hunacked] at hqueues hsize
    have hseg : seg.len ≤ pcb.mssLocal := hsize seg List.mem_cons_self
    refine ⟨⟨h.lastack, h.sndNxt, h.sndLbb, h.sndBuf, h.bound, hqueues.rexmit, h.mss,
      fun s hs => ?_, fun s hs => ?_⟩, fun hnil => absurd hnil (insertSeg_ne_nil _ _)⟩
    · rcases List.mem_append.mp hs with hrest | hunsent
      · exact hsize s (List.mem_append_left _ (List.mem_cons_of_mem _ hrest))
      · rcases mem_insertSeg.mp hunsent with rfl | hunsent
        · exact hseg
        · exact hsize s (List.mem_append_right _ hunsent)
    · change s ∈ (insertSeg seg pcb.unsent).getLast? at hs
      change s.len + (if pcb.unsent.all fun cur => seqLt cur.seqno seg.seqno then 0
        else pcb.unsentOversize) ≤ pcb.mssLocal
      by_cases hall : pcb.unsent.all fun cur => seqLt cur.seqno seg.seqno
      · rw [if_pos hall]
        have hmem := List.mem_of_getLast? hs
        rcases mem_insertSeg.mp hmem with rfl | hunsent
        · exact hseg
        · exact hsize s (List.mem_append_right _ hunsent)
      · rw [if_neg hall]
        rw [getLast?_insertSeg hall] at hs
        exact h.room s hs

theorem Sound.tcpRexmitFast (h : Sound st base w n pcb) :
    Sound st base w n (tcpRexmitFast pcb) := by
  unfold Tcp.tcpRexmitFast
  split
  · exact h.tcpRexmit.of_eq rfl
  · exact h

theorem Sound.oldAck (h : Sound st base w n pcb) (right : BitVec 32) (hdr : AckHdr) :
    Sound st base w n (oldAck right hdr pcb) := by
  unfold Tcp.oldAck
  split
  · dsimp only
    split
    · exact h.of_eq rfl
    · split
      · exact Sound.tcpRexmitFast (h.of_eq rfl)
      · exact h.of_eq rfl
  · exact h.of_eq rfl

theorem room_dropWhile {o m : ℕ} (h : ∀ s ∈ V.getLast?, s.len + o ≤ m) (q : Seg → Bool) :
    ∀ s ∈ (V.dropWhile q).getLast?, s.len + (if V.dropWhile q = [] then 0 else o) ≤ m := by
  intro s hs
  have hne : V.dropWhile q ≠ [] := fun hnil => by
    rw [hnil] at hs
    cases hs
  rw [if_neg hne]
  refine h s ?_
  rwa [← List.takeWhile_append_dropWhile (p := q) (l := V), List.getLast?_append_of_ne_nil _ hne]

/-- An acknowledgement of nothing new takes nothing from `unsent`. -/
theorem Sound.dropUnsent (h : Sound st base w n pcb) {q : ℕ} (hq : q < n + 2 ^ 29)
    (hq' : n < q + 2 ^ 30) (hold : q ≤ n ∨ seqLeq (num base q) pcb.sndNxt = false) :
    Sound st base w n (dropUnsent (num base q) pcb) := by
  obtain ⟨nxt, hnxt, hlo, hhi⟩ := h.sndNxt
  have hstop := h.stop_le
  have hsame : (pcb.unsent.dropWhile fun seg => seqBetween (num base q)
      (seg.seqno + BitVec.ofNat 32 seg.tcplen) pcb.sndNxt) = pcb.unsent := by
    refine dropWhile_eq_self fun s hs => ?_
    obtain ⟨pos, haround⟩ := h.queues.mem (List.mem_append_right _ hs)
    have hn := haround.lo
    unfold tcpSndBuf at hstop
    rcases hold with hle | hbeyond
    · rw [hnxt, ← Bool.not_eq_true, unsent_acked_iff haround hq' (by omega) hlo hhi (by omega)]
      omega
    · unfold seqBetween
      rw [hbeyond, Bool.and_false]
  have hroom := room_dropWhile h.room fun seg => seqBetween (num base q)
    (seg.seqno + BitVec.ofNat 32 seg.tcplen) pcb.sndNxt
  unfold Tcp.dropUnsent
  dsimp only
  rw [hsame] at hroom ⊢
  exact ⟨⟨h.lastack, h.sndNxt, h.sndLbb, h.sndBuf, h.bound, h.queues, h.mss, h.size, hroom⟩,
    fun hnil => if_pos hnil⟩

/-- New data is acknowledged. -/
theorem Sound.newAck (h : Sound st base w n pcb) {q nxt : ℕ} (hn : n < q)
    (hnxt : pcb.sndNxt = num base nxt) (hq : q ≤ nxt) (hend : nxt ≤ w + pcb.fin.toNat) :
    Sound st base w q (Tcp.dropUnsent (num base q) (Tcp.newAck (num base q) pcb)) := by
  have hstop := h.stop_le
  have hbound := h.bound
  unfold tcpSndBuf at hstop hbound
  have hqueues := h.queues.ack hn.le (hq.trans hend)
    (fun s pos hs => acked_iff hs hn.le (hq.trans hend) (by omega))
    (fun s pos hs => (unsent_acked_iff hs (by omega) (by omega) (by omega) hend (by omega)).trans
      (and_iff_left hq))
  rw [← hnxt] at hqueues
  refine ⟨⟨rfl, ⟨nxt, hnxt, hq, hend⟩, h.sndLbb, fun hfin => ?_, ?_, hqueues, h.mss,
    fun s hs => h.size s ?_, room_dropWhile h.room _⟩, fun hnil => if_pos hnil⟩
  · change pcb.fin = false at hfin
    have hbuf := h.sndBuf hfin
    have hdiff := toNat_num_sub base hn.le (by omega)
    change w + (pcb.sndBuf + (num base q - pcb.lastack).toNat % 2 ^ 16) % 2 ^ 16 = q + tcpSndBuf
    rw [h.lastack, hdiff]
    unfold tcpSndBuf at hbuf ⊢
    rw [hfin, Bool.toNat_false] at hend
    omega
  · change w ≤ q + 4096
    omega
  · rcases List.mem_append.mp hs with hs | hs
    · exact List.mem_append_left _ ((List.dropWhile_sublist _).subset hs)
    · exact List.mem_append_right _ ((List.dropWhile_sublist _).subset hs)

/-- What is acknowledged becomes more, and never less. -/
theorem Sound.tcpReceiveAck (h : Sound st base w n pcb) {hdr : AckHdr} {q : ℕ}
    (hack : hdr.ackno = num base q) (hq : q < n + 2 ^ 29) (hq' : n < q + 2 ^ 30) :
    ∃ n', n ≤ n' ∧ n' ≤ max n q ∧ Sound st base w n' (tcpReceiveAck hdr pcb) := by
  have hwindow := h.updateWindow hdr
  unfold Tcp.tcpReceiveAck
  dsimp only
  rw [hack]
  generalize Tcp.updateWindow hdr pcb = pcb' at hwindow ⊢
  generalize BitVec.ofNat 32 pcb.sndWnd + pcb.sndWl2 = right
  obtain ⟨nxt, hnxt, hlo, hhi⟩ := hwindow.sndNxt
  have hstop := hwindow.stop_le
  unfold tcpSndBuf at hstop
  have hold := seqLeq_iff base (a := q) (b := n) ⟨by change q < n + 2 ^ 31; omega,
    by change n < q + 2 ^ 31; omega⟩
  by_cases hle : seqLeq (num base q) pcb'.lastack = true
  · rw [if_pos hle]
    rw [hwindow.lastack] at hle
    exact ⟨n, le_rfl, le_max_left _ _,
      (hwindow.oldAck right hdr).dropUnsent hq hq' (Or.inl (hold.mp hle))⟩
  · rw [if_neg hle]
    rw [hwindow.lastack] at hle
    have hnew : n < q := Nat.lt_of_not_le (mt hold.mpr hle)
    by_cases hbetween : seqBetween (num base q) (pcb'.lastack + 1) pcb'.sndNxt = true
    · rw [if_pos hbetween]
      have hupto : q ≤ nxt := by
        unfold seqBetween at hbetween
        rw [Bool.and_eq_true, hnxt, seqLeq_iff base ⟨by change q < nxt + 2 ^ 31; omega,
          by change nxt < q + 2 ^ 31; omega⟩] at hbetween
        exact hbetween.2
      exact ⟨q, hnew.le, le_max_right _ _, hwindow.newAck hnew hnxt hupto hhi⟩
    · rw [if_neg hbetween]
      refine ⟨n, le_rfl, le_max_left _ _, hwindow.dropUnsent hq hq' (Or.inr ?_)⟩
      have hahead : seqGeq (num base q) (pcb'.lastack + 1) = true := by
        have hsucc : num base n + 1 = num base (n + 1) := by
          rw [num_add]
          rfl
        rw [hwindow.lastack, hsucc]
        exact (seqGeq_iff ⟨by change q < n + 1 + 2 ^ 31; omega,
          by change n + 1 < q + 2 ^ 31; omega⟩).mpr hnew
      unfold seqBetween at hbetween
      rwa [hahead, Bool.true_and, Bool.not_eq_true] at hbetween

/-! ## Output -/

theorem mem_putUnacked {x : Seg} {l : List Seg} : x ∈ putUnacked s l ↔ x = s ∨ x ∈ l := by
  unfold putUnacked
  split
  · next hnil => simp [List.getLast?_eq_none_iff.mp hnil]
  · split
    · exact mem_insertSeg
    · rw [List.mem_append, List.mem_singleton, or_comm]

theorem Core.noteSent (h : Core st base w n { pcb with unsent := s :: V }) :
    Core st base w n { noteSent s pcb with unsent := V } := by
  obtain ⟨nxt, hnxt, hlo, hhi⟩ := h.sndNxt
  obtain ⟨pos, haround⟩ := h.queues.mem (List.mem_append_right _ List.mem_cons_self)
  have hstop := h.stop_le
  have hslo := haround.lo
  have hshi := haround.hi
  unfold tcpSndBuf at hstop
  change nxt ≤ w + pcb.fin.toNat at hhi
  change w + pcb.fin.toNat ≤ n + (4096 + 1) at hstop
  change pos + s.tcplen ≤ w + pcb.fin.toNat at hshi
  refine ⟨h.lastack, ?_, h.sndLbb, h.sndBuf, h.bound, ?_, h.mss, fun x hx => ?_, fun x hx => ?_⟩
  · change ∃ nxt, (if seqLt pcb.sndNxt (s.seqno + BitVec.ofNat 32 s.tcplen) then
      s.seqno + BitVec.ofNat 32 s.tcplen else pcb.sndNxt) = num base nxt ∧ _
    rw [haround.piece.seqno, ← num_add]
    split
    · exact ⟨pos + s.tcplen, rfl, hslo.le, hshi⟩
    · exact ⟨nxt, hnxt, hlo, hhi⟩
  · change Queues st base n (w + pcb.fin.toNat)
      (if 0 < s.tcplen then putUnacked s pcb.unacked else pcb.unacked) V
    rw [if_pos haround.tcplen]
    exact h.queues.send
  · change x ∈ (if 0 < s.tcplen then putUnacked s pcb.unacked else pcb.unacked) ++ V at hx
    rw [if_pos haround.tcplen, List.mem_append, mem_putUnacked] at hx
    refine h.size x (List.mem_append.mpr ?_)
    rcases hx with (rfl | hx) | hx
    · exact Or.inr List.mem_cons_self
    · exact Or.inl hx
    · exact Or.inr (List.mem_cons_of_mem s hx)
  · change x ∈ V.getLast? at hx
    refine h.room x ?_
    change x ∈ (s :: V).getLast?
    rwa [getLast?_cons_of_ne_nil]
    rintro rfl
    cases hx

/-- The loop sends segments of `unsent`, and the queues keep them. -/
theorem outputLoop_spec (long : Bool) (wnd : ℕ) (h : Core st base w n { pcb with unsent := V }) :
    Core st base w n (outputLoop long wnd pcb V).1 ∧
      ∀ s ∈ (outputLoop long wnd pcb V).2, s ∈ V := by
  induction V generalizing pcb with
  | nil => exact ⟨h, fun s hs => (by cases hs)⟩
  | cons seg rest ih =>
      rw [outputLoop]
      split
      · obtain ⟨hcore, hsent⟩ := ih h.noteSent
        refine ⟨hcore, fun s hs => ?_⟩
        rcases List.mem_cons.mp hs with rfl | hs
        · exact List.mem_cons_self
        · exact List.mem_cons_of_mem seg (hsent s hs)
      · exact ⟨h, fun s hs => (by cases hs)⟩

theorem Core.tcpOutput (h : Core st base w n pcb) (ackNow long : Bool) (hempty : pcb.unsent = [] →
    pcb.unsentOversize = 0) :
    Sound st base w n (tcpOutput ackNow long pcb).1 ∧
      ∀ s ∈ (tcpOutput ackNow long pcb).2, s ∈ pcb.unsent := by
  unfold Tcp.tcpOutput
  dsimp only
  split
  · exact ⟨⟨h, hempty⟩, fun s hs => (by cases hs)⟩
  · obtain ⟨hcore, hsent⟩ := outputLoop_spec long (min pcb.sndWnd pcb.cwnd) h
    generalize outputLoop long (min pcb.sndWnd pcb.cwnd) pcb pcb.unsent = r at hcore hsent ⊢
    refine ⟨⟨⟨hcore.lastack, hcore.sndNxt, hcore.sndLbb, hcore.sndBuf, hcore.bound, hcore.queues,
      hcore.mss, hcore.size, fun s hs => ?_⟩, fun hnil => if_pos hnil⟩, hsent⟩
    change s ∈ r.1.unsent.getLast? at hs
    change s.len + (if r.1.unsent = [] then 0 else r.1.unsentOversize) ≤ r.1.mssLocal
    rw [if_neg fun hnil => by rw [hnil] at hs; cases hs]
    exact hcore.room s hs

/-- No segment that is to be sent comes before one that is sent. -/
def Ordered (pcb : SndPcb) : Prop :=
  ∀ s ∈ pcb.unacked, ∀ u ∈ pcb.unsent, seqLt s.seqno u.seqno = true

instance : DecidablePred Ordered := fun pcb =>
  inferInstanceAs (Decidable (∀ s ∈ pcb.unacked, ∀ u ∈ pcb.unsent, seqLt s.seqno u.seqno = true))

theorem Sound.tcpRexmitRto (h : Sound st base w n pcb) (ho : Ordered pcb) (ackNow long : Bool) :
    Sound st base w n (tcpRexmitRto ackNow long pcb).1 ∧
      ∀ s ∈ (tcpRexmitRto ackNow long pcb).2, s ∈ pcb.unacked ++ pcb.unsent := by
  unfold Tcp.tcpRexmitRto
  by_cases hnil : pcb.unacked = []
  · rw [if_pos hnil]
    exact ⟨h, fun s hs => (by cases hs)⟩
  · rw [if_neg hnil]
    have hcore : Core st base w n { pcb with
        timing := true
        ssthresh := max (min pcb.cwnd pcb.sndWnd / 2) (2 * pcb.mss)
        cwnd := pcb.mss
        unsent := pcb.unacked ++ pcb.unsent
        unacked := [] } := by
      refine ⟨h.lastack, h.sndNxt, h.sndLbb, h.sndBuf, h.bound, Line.queues (h.queues.line ho),
        h.mss, h.size, fun s hs => ?_⟩
      change s ∈ (pcb.unacked ++ pcb.unsent).getLast? at hs
      by_cases hunsent : pcb.unsent = []
      · rw [hunsent, List.append_nil] at hs
        change s.len + pcb.unsentOversize ≤ pcb.mssLocal
        rw [h.empty hunsent]
        exact h.size s (List.mem_append_left _ (List.mem_of_getLast? hs))
      · rw [List.getLast?_append_of_ne_nil _ hunsent] at hs
        exact h.room s hs
    exact hcore.tcpOutput ackNow long fun hall => absurd (List.append_eq_nil_iff.mp hall).1 hnil

end Tcp

end LuojiOs
