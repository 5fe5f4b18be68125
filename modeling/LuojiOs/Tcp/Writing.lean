import LuojiOs.Tcp.Sender

/-!
# What is written

`tcp_write` puts the data behind all that was written before: some of it at the end of the last
segment, where there is room, and the rest in new segments.  `tcp_send_fin` puts the end there.
-/

namespace LuojiOs

namespace Tcp

open SerialNumbers

variable {st : Stream} {base : BitVec 32} {s last : Seg} {pcb : SndPcb} {U V L : List Seg}
  {more copy first : Bool} {data : List (BitVec 8)} {e n o o' room w : ℕ}

/-- The data is that of the stream, behind `w`. -/
structure Next (st : Stream) (w : ℕ) (data : List (BitVec 8)) : Prop where
  bytes : data = st.bytes w data.length
  le : ∀ l, st.size = some l → w + data.length ≤ l

theorem Next.drop (h : Next st w data) {k : ℕ} (hk : k ≤ data.length) :
    Next st (w + k) (data.drop k) := by
  have hlen : (data.drop k).length = data.length - k := List.length_drop
  refine ⟨?_, fun l hl => ?_⟩
  · rw [hlen, ← st.drop_bytes hk w, ← h.bytes]
  · have hle := h.le l hl
    omega

theorem Next.take (h : Next st w data) {k : ℕ} (hk : k ≤ data.length) :
    data.take k = st.bytes w k := by
  rw [← st.take_bytes hk w, ← h.bytes]

/-! ## Room -/

theorem tcpPbufPrealloc_le (pcb : SndPcb) (more first : Bool) {length maxLength : ℕ}
    (h : length ≤ maxLength) :
    length + tcpPbufPrealloc pcb more first length maxLength ≤ maxLength := by
  unfold tcpPbufPrealloc
  split
  · have hmin := Nat.min_le_left maxLength (memAlign (length + tcpMss))
    omega
  · exact h

/-- What is put at the end of the last segment has room there, and if it is not all of the data,
there is no room left. -/
theorem fillLast_spec {mssLocal len : ℕ} (hmss : mssLocal ≤ tcpMss)
    (hroom : last.len + pcb.unsentOversize ≤ mssLocal) :
    (fillLast pcb more copy mssLocal len last).1 ≤ len ∧
      last.len + (fillLast pcb more copy mssLocal len last).1 +
        (fillLast pcb more copy mssLocal len last).2 ≤ mssLocal ∧
      ((fillLast pcb more copy mssLocal len last).1 < len →
        (fillLast pcb more copy mssLocal len last).2 = 0) := by
  unfold tcpMss at hmss
  have hspace : (mssLocal + 2 ^ 16 - last.len % 2 ^ 16 + 2 ^ 16 - min pcb.unsentOversize len) %
      2 ^ 16 = mssLocal - last.len - min pcb.unsentOversize len := by omega
  unfold fillLast
  dsimp only
  rw [hspace]
  generalize hused : min pcb.unsentOversize len = used
  have husedle : used ≤ len := hused ▸ Nat.min_le_right _ _
  by_cases hmore : used < len ∧ 0 < mssLocal - last.len - used ∧ 0 < last.len
  · rw [if_pos hmore]
    have hall : used = pcb.unsentOversize := by omega
    have hpre := tcpPbufPrealloc_le pcb more true
      (Nat.min_le_left (mssLocal - last.len - used) (len - used))
    have hfull : min (mssLocal - last.len - used) (len - used) < len - used →
        tcpPbufPrealloc pcb more true (min (mssLocal - last.len - used) (len - used))
          (mssLocal - last.len - used) = 0 := fun hlt => by omega
    cases copy with
    | true =>
        refine ⟨by omega, ?_, fun hlt => hfull (by dsimp only at hlt; omega)⟩
        simp only [if_true]
        omega
    | false =>
        refine ⟨by omega, ?_, fun _ => ?_⟩
        · simp only [Bool.false_eq_true, if_false]
          omega
        · simp only [Bool.false_eq_true, if_false]
          omega
  · rw [if_neg hmore]
    exact ⟨husedle, by dsimp only; omega, fun hlt => by dsimp only at hlt ⊢; omega⟩

/-! ## New segments -/

theorem newSegments_zero (hdata : data ≠ []) (mssLocal : ℕ) (seqno : BitVec 32) :
    newSegments pcb more copy mssLocal 0 first seqno data o = none := by
  obtain ⟨b, data, rfl⟩ := List.exists_cons_of_ne_nil hdata
  rfl

theorem newSegments_succ (hdata : data ≠ []) (mssLocal : ℕ) (seqno : BitVec 32) :
    newSegments pcb more copy mssLocal (room + 1) first seqno data o =
      (newSegments pcb more copy mssLocal room false
        (seqno + BitVec.ofNat 32 (min data.length mssLocal))
        (data.drop (min data.length mssLocal))
        (if copy then tcpPbufPrealloc pcb more first (min data.length mssLocal) mssLocal
          else o)).map fun r =>
        (⟨seqno, min data.length mssLocal, data.take (min data.length mssLocal), false⟩ :: r.1,
          r.2) := by
  obtain ⟨b, data, rfl⟩ := List.exists_cons_of_ne_nil hdata
  rfl

/-- Where segments have no size, there are never enough of them. -/
theorem newSegments_eq_none (hdata : data ≠ []) (seqno : BitVec 32) :
    newSegments pcb more copy 0 room first seqno data o = none := by
  induction room generalizing first seqno o with
  | zero => exact newSegments_zero hdata 0 seqno
  | succ room ih =>
      rw [newSegments_succ hdata, Nat.min_zero, List.drop_zero, ih]
      rfl

/-- A new segment behind those before. -/
theorem Line.newSeg (hline : Line st base n w L) (hnext : Next st w data) {k : ℕ}
    (hk : k ≤ data.length) (hpos : 0 < k) (hmss : k ≤ tcpMss)
    (hnear : w + data.length + 2 ^ 16 < n + 2 ^ 30) :
    Line st base n (w + k) (L ++ [⟨num base w, k, data.take k, false⟩]) := by
  have hlen : k < 2 ^ 16 := Nat.lt_of_le_of_lt hmss (by decide)
  have hpiece : Piece st base ⟨num base w, k, data.take k, false⟩ w :=
    ⟨rfl, hlen, hnext.take hk, fun hfin => (by cases hfin), fun l hl => by
      have hle := hnext.le l hl
      dsimp only
      omega⟩
  have hadd := hline.snoc hpiece (tcplen_pos hpos) (by
    change w + (k + 0) + _ < _
    omega)
  exact hadd

/-- What is left of the data needs no room in the segments before. -/
theorem prealloc_full {mssLocal : ℕ} (hfull : data ≠ [] → o = 0)
    (hmore : data.drop (min data.length mssLocal) ≠ []) :
    (if copy then tcpPbufPrealloc pcb more first (min data.length mssLocal) mssLocal
      else o) = 0 := by
  have hlt : min data.length mssLocal < data.length :=
    Nat.lt_of_not_le fun hle => hmore (List.drop_eq_nil_of_le hle)
  split
  · unfold tcpPbufPrealloc
    rw [if_neg fun hall => by omega]
  · exact hfull fun hnil => hmore (by rw [hnil, List.drop_nil])

/-- The new segments follow those before, and have no more than the size they may have. -/
theorem newSegments_spec {mssLocal : ℕ} {q : List Seg} (hmss : mssLocal ≤ tcpMss)
    (hline : Line st base n w L) (hnear : w + data.length + 2 ^ 16 < n + 2 ^ 30)
    (hnext : Next st w data) (hfull : data ≠ [] → o = 0)
    (h : newSegments pcb more copy mssLocal room first (num base w) data o = some (q, o')) :
    Line st base n (w + data.length) (L ++ q) ∧ (∀ s ∈ q, s.len ≤ mssLocal) ∧
      (∀ s ∈ q.getLast?, s.len + o' ≤ mssLocal) ∧ (q = [] → o' = o) := by
  induction room generalizing first w data o L q with
  | zero =>
      by_cases hdata : data = []
      · subst hdata
        obtain ⟨rfl, rfl⟩ := Prod.mk.inj (Option.some.inj h)
        rw [List.append_nil]
        exact ⟨hline, fun s hs => (by cases hs), fun s hs => (by cases hs), fun _ => rfl⟩
      · rw [newSegments_zero hdata] at h
        cases h
  | succ room ih =>
      by_cases hdata : data = []
      · subst hdata
        obtain ⟨rfl, rfl⟩ := Prod.mk.inj (Option.some.inj h)
        rw [List.append_nil]
        exact ⟨hline, fun s hs => (by cases hs), fun s hs => (by cases hs), fun _ => rfl⟩
      · rcases Nat.eq_zero_or_pos mssLocal with rfl | hpos
        · rw [newSegments_eq_none hdata] at h
          cases h
        · have hk : min data.length mssLocal ≤ data.length := Nat.min_le_left _ _
          have hkmss : min data.length mssLocal ≤ mssLocal := Nat.min_le_right _ _
          have hkpos := Nat.lt_min.mpr ⟨List.length_pos_of_ne_nil hdata, hpos⟩
          have hstep := hline.newSeg hnext hk hkpos (hkmss.trans hmss) hnear
          have hrest : (data.drop (min data.length mssLocal)).length =
              data.length - min data.length mssLocal := List.length_drop
          rw [newSegments_succ hdata, ← num_add] at h
          obtain ⟨⟨q', o''⟩, hrec, heq⟩ := Option.map_eq_some_iff.mp h
          obtain ⟨rfl, rfl⟩ := Prod.mk.inj heq
          obtain ⟨hall, hsize, hlast, hnil⟩ := ih hstep (by omega) (hnext.drop hk)
            (prealloc_full hfull) hrec
          rw [hrest, List.append_assoc, show w + min data.length mssLocal +
            (data.length - min data.length mssLocal) = w + data.length by omega] at hall
          refine ⟨hall, fun s hs => ?_, fun s hs => ?_, fun hq => by cases hq⟩
          · rcases List.mem_cons.mp hs with rfl | hs
            · exact hkmss
            · exact hsize s hs
          · dsimp only at hs hlast hnil ⊢
            by_cases hq : q' = []
            · subst hq
              obtain rfl := Option.some.inj hs
              rw [hnil rfl]
              split
              · exact tcpPbufPrealloc_le pcb more first hkmss
              · rw [hfull hdata]
                exact hkmss
            · rw [getLast?_cons_of_ne_nil hq] at hs
              exact hlast s hs

/-! ## Writing -/

/-- A segment that may not be the last of the stream has no FIN. -/
theorem fin_of_stop_le {pos : ℕ} (hs : Piece st base s pos) (hle : ∀ l, st.size = some l → w ≤ l)
    (hstop : pos + s.tcplen ≤ w) : s.fin = false := by
  refine (Bool.not_eq_true _).mp fun hfin => ?_
  have hlast := hle _ (hs.fin hfin)
  unfold Seg.tcplen at hstop
  rw [hfin, Bool.toNat_true] at hstop
  omega

/-- Data is put at the end of the last segment. -/
theorem Line.fill (hline : Line st base n w (L ++ [last])) (hnext : Next st w data)
    (hfin : last.fin = false) {k : ℕ} (hk : k ≤ data.length) (hmss : last.len + k ≤ tcpMss)
    (hnear : w + data.length + 2 ^ 16 < n + 2 ^ 30) :
    Line st base n (w + k)
      (L ++ [{ last with len := last.len + k, p := last.p ++ data.take k }]) := by
  have htcplen : last.tcplen = last.len := by
    unfold Seg.tcplen
    rw [hfin]
    rfl
  refine hline.extend (fun pos hpos hend => ?_) ?_ (by omega)
  · rw [htcplen] at hend
    refine ⟨hpos.seqno, Nat.lt_of_le_of_lt hmss (by decide), ?_, fun h => ?_, fun l hl => ?_⟩
    · dsimp only
      rw [hpos.data, hnext.take hk, ← hend, st.bytes_append]
    · exact absurd (h.symm.trans hfin) (by decide)
    · have hle := hnext.le l hl
      dsimp only
      omega
  · unfold Seg.tcplen
    dsimp only
    omega

/-- With the data the segments are those of the stream, in a line. -/
structure Segmented (st : Stream) (base : BitVec 32) (e n mssLocal : ℕ) (unacked unsent : List Seg)
    (o : ℕ) : Prop where
  line : Line st base n e (unacked ++ unsent)
  size : ∀ s ∈ unsent, s.len ≤ mssLocal
  room : ∀ s ∈ unsent.getLast?, s.len + o ≤ mssLocal
  empty : unsent = [] → o = 0

theorem segmented_spec (h : Sound st base w n pcb) (ho : Ordered pcb) (hopen : pcb.fin = false)
    (hnext : Next st w data) (hnear : w + data.length + 2 ^ 16 < n + 2 ^ 30) {r : List Seg × ℕ}
    (hr : segmented pcb more copy room data = some r) :
    Segmented st base (w + data.length) n pcb.mssLocal pcb.unacked r.1 r.2 := by
  have hline := h.queues.line ho
  have hmss : pcb.mssLocal ≤ tcpMss := (Nat.min_le_left _ _).trans h.mss
  rw [hopen, Bool.toNat_false, Nat.add_zero] at hline
  unfold segmented at hr
  rw [h.sndLbb hopen] at hr
  rcases List.eq_nil_or_concat pcb.unsent with hnil | ⟨V, last, hunsent⟩
  · rw [hnil] at hr hline
    rw [List.append_nil] at hline
    obtain ⟨hall, hsize, hroom, hempty⟩ := newSegments_spec hmss hline hnear hnext
      (fun _ => rfl) hr
    exact ⟨hall, hsize, hroom, hempty⟩
  · rw [List.concat_eq_append] at hunsent
    have hroom := h.room last
    have hsize := h.size
    rw [hunsent] at hr hline hroom hsize
    rw [List.getLast?_concat] at hr hroom
    have hfilled := @fillLast_spec last pcb more copy _ data.length hmss (hroom rfl)
    obtain ⟨hk, hfit, hfull⟩ := hfilled
    have hfin : last.fin = false := by
      obtain ⟨pos, haround⟩ := h.queues.mem (List.mem_append_right pcb.unacked
        (hunsent ▸ List.mem_append_right V List.mem_cons_self))
      have hhi := haround.hi
      rw [hopen, Bool.toNat_false, Nat.add_zero] at hhi
      exact fin_of_stop_le haround.piece (fun l hl => (Nat.le_add_right _ _).trans (hnext.le l hl))
        hhi
    dsimp only at hr
    rw [← num_add, List.dropLast_concat] at hr
    rw [← List.append_assoc] at hline
    generalize fillLast pcb more copy pcb.mssLocal data.length last = k at hr hk hfit hfull
    have hfill := hline.fill hnext hfin hk (by omega) hnear
    have hrest : (data.drop k.1).length = data.length - k.1 := List.length_drop
    obtain ⟨⟨q, o'⟩, hrec, rfl⟩ := Option.map_eq_some_iff.mp hr
    obtain ⟨hall, hqsize, hqroom, hqempty⟩ := newSegments_spec hmss hfill (by omega)
      (hnext.drop hk) (fun hne => hfull (Nat.lt_of_not_le fun hle =>
        hne (List.drop_eq_nil_of_le hle))) hrec
    rw [hrest, show w + k.1 + (data.length - k.1) = w + data.length by omega, List.append_assoc,
      List.append_assoc] at hall
    refine ⟨hall, fun s hs => ?_, fun s hs => ?_, fun hnil => by simp at hnil⟩
    · rcases List.mem_append.mp hs with hs | hs
      · exact hsize s (List.mem_append_right _ (List.mem_append_left _ hs))
      · rcases List.mem_cons.mp hs with rfl | hs
        · dsimp only
          omega
        · exact hqsize s hs
    · dsimp only at hs hqroom hqempty ⊢
      rw [List.getLast?_append_of_ne_nil _ (List.cons_ne_nil _ _)] at hs
      by_cases hq : q = []
      · subst hq
        obtain rfl := Option.some.inj hs
        rw [hqempty rfl]
        exact hfit
      · rw [getLast?_cons_of_ne_nil hq] at hs
        exact hqroom s hs

/-- The data is refused, and nothing of interest changes, or all of it is taken. -/
theorem tcpWrite_cases (copy more mem : Bool) (room : ℕ) (data : List (BitVec 8)) (pcb : SndPcb) :
    ((tcpWrite copy more mem room data pcb).1 = false ∧
        (tcpWrite copy more mem room data pcb).2.queuesOnly = pcb.queuesOnly) ∨
      ∃ r, pcb.fin = false ∧ data.length ≤ pcb.sndBuf ∧
        segmented pcb more copy room data = some r ∧
        tcpWrite copy more mem room data pcb =
          (true, { pcb with
            unsent := r.1
            unsentOversize := r.2
            sndLbb := pcb.sndLbb + BitVec.ofNat 32 data.length
            sndBuf := pcb.sndBuf - data.length }) := by
  unfold tcpWrite
  by_cases hfin : pcb.fin = true
  · rw [if_pos hfin]
    exact Or.inl ⟨rfl, rfl⟩
  · rw [if_neg hfin]
    by_cases hrefused : pcb.sndBuf < data.length ∨ ¬mem
    · rw [if_pos hrefused]
      exact Or.inl ⟨rfl, rfl⟩
    · rw [if_neg hrefused]
      cases hr : segmented pcb more copy room data with
      | none => exact Or.inl ⟨rfl, rfl⟩
      | some r =>
          exact Or.inr ⟨r, (Bool.not_eq_true _).mp hfin,
            Nat.le_of_not_lt fun hlt => hrefused (Or.inl hlt), rfl, rfl⟩

theorem Sound.segmented (h : Sound st base w n pcb) (ho : Ordered pcb) (hopen : pcb.fin = false)
    (hle : data.length ≤ pcb.sndBuf) (hnext : Next st w data) {r : List Seg × ℕ}
    (hr : segmented pcb more copy room data = some r) :
    Sound st base (w + data.length) n { pcb with
      unsent := r.1
      unsentOversize := r.2
      sndLbb := pcb.sndLbb + BitVec.ofNat 32 data.length
      sndBuf := pcb.sndBuf - data.length } := by
  have hbuf := h.sndBuf hopen
  have hbound := h.bound
  unfold tcpSndBuf at hbuf hbound
  have hall := segmented_spec h ho hopen hnext (by omega) hr
  obtain ⟨nxt, hnxt, hlo, hhi⟩ := h.sndNxt
  have hqueues := hall.line.queues
  have hstop : w + data.length = w + data.length + pcb.fin.toNat := by
    rw [hopen]
    rfl
  rw [hstop] at hqueues
  rw [hopen, Bool.toNat_false] at hhi
  refine ⟨⟨h.lastack, ⟨nxt, hnxt, hlo, ?_⟩, fun _ => ?_, fun _ => ?_, ?_, hqueues, h.mss,
    fun s hs => ?_, hall.room⟩, hall.empty⟩
  · change nxt ≤ w + data.length + pcb.fin.toNat
    omega
  · change pcb.sndLbb + BitVec.ofNat 32 data.length = num base (w + data.length)
    rw [h.sndLbb hopen, ← num_add]
  · change w + data.length + (pcb.sndBuf - data.length) = n + 4096
    omega
  · change w + data.length ≤ n + 4096
    omega
  · rcases List.mem_append.mp hs with hs | hs
    · exact h.size s (List.mem_append_left _ hs)
    · exact hall.size s hs

/-! ## The end -/

/-- The FIN has its place behind the last byte. -/
theorem Sound.closed {unsent : List Seg} {o : ℕ} (h : Sound st base w n pcb)
    (hopen : pcb.fin = false) (hline : Line st base n (w + 1) (pcb.unacked ++ unsent))
    (hsize : ∀ s ∈ unsent, s.len ≤ pcb.mssLocal)
    (hroom : ∀ s ∈ unsent.getLast?, s.len + o ≤ pcb.mssLocal) (hne : unsent ≠ [])
    (sndLbb : BitVec 32) (sndBuf : ℕ) :
    Sound st base w n { pcb with unsent, unsentOversize := o, sndLbb, sndBuf, fin := true } := by
  obtain ⟨nxt, hnxt, hlo, hhi⟩ := h.sndNxt
  rw [hopen, Bool.toNat_false] at hhi
  refine ⟨⟨h.lastack, ⟨nxt, hnxt, hlo, hhi.trans (Nat.le_succ w)⟩, fun hf => (by cases hf),
    fun hf => (by cases hf), h.bound, hline.queues, h.mss, fun s hs => ?_, hroom⟩,
    fun hnil => absurd hnil hne⟩
  rcases List.mem_append.mp hs with hs | hs
  · exact h.size s (List.mem_append_left _ hs)
  · exact hsize s hs

theorem Sound.tcpEnqueueFlags (h : Sound st base w n pcb) (ho : Ordered pcb)
    (hopen : pcb.fin = false) (hsize : st.size = some w) (mem : Bool) :
    Sound st base w n (tcpEnqueueFlags mem pcb) := by
  unfold Tcp.tcpEnqueueFlags
  split
  · exact h.of_eq rfl
  · split
    · exact h
    · have hline := h.queues.line ho
      have hbound := h.bound
      unfold tcpSndBuf at hbound
      rw [hopen, Bool.toNat_false, Nat.add_zero] at hline
      have hpiece : Piece st base ⟨pcb.sndLbb, 0, [], true⟩ w :=
        ⟨h.sndLbb hopen, Nat.two_pow_pos 16, rfl, fun _ => hsize, fun l hl =>
          (Option.some.inj (hsize.symm.trans hl)).le⟩
      have hadd := hline.snoc hpiece Nat.zero_lt_one (by
        change w + 1 + 2 ^ 16 < n + 2 ^ 30
        omega)
      rw [List.append_assoc] at hadd
      refine h.closed hopen hadd (fun s hs => ?_) (fun s hs => ?_) (by simp) _ _
      · rcases List.mem_append.mp hs with hs | hs
        · exact h.size s (List.mem_append_right _ hs)
        · obtain rfl := List.mem_singleton.mp hs
          exact Nat.zero_le _
      · rw [List.getLast?_concat] at hs
        obtain rfl := Option.some.inj hs
        exact Nat.zero_le _

theorem Sound.tcpSendFin (h : Sound st base w n pcb) (ho : Ordered pcb) (hopen : pcb.fin = false)
    (hsize : st.size = some w) (mem : Bool) : Sound st base w n (tcpSendFin mem pcb) := by
  unfold Tcp.tcpSendFin
  split
  · exact h.tcpEnqueueFlags ho hopen hsize mem
  · next last hlast =>
    split
    · exact h.tcpEnqueueFlags ho hopen hsize mem
    · next hfin =>
      have hline := h.queues.line ho
      have hbound := h.bound
      have hroom := h.room last hlast
      have hall := h.size
      unfold tcpSndBuf at hbound
      obtain ⟨V, hunsent⟩ := List.getLast?_eq_some_iff.mp hlast
      rw [hopen, Bool.toNat_false, Nat.add_zero, hunsent, ← List.append_assoc] at hline
      rw [hunsent] at hall ⊢
      rw [List.dropLast_concat]
      have hext : Line st base n (w + 1)
          (pcb.unacked ++ V ++ [{ last with fin := true }]) :=
        hline.extend (fun pos hpos hend => ?_) ?_ (by omega)
      · rw [List.append_assoc] at hext
        refine h.closed hopen hext (fun s hs => ?_) (fun s hs => ?_) (by simp) _ _
        · rcases List.mem_append.mp hs with hs | hs
          · exact hall s (List.mem_append_right _ (List.mem_append_left _ hs))
          · obtain rfl := List.mem_singleton.mp hs
            exact hall last (by simp)
        · rw [List.getLast?_concat] at hs
          obtain rfl := Option.some.inj hs
          exact hroom
      · have hpos' : pos + last.len = w := by
          unfold Seg.tcplen at hend
          rw [(Bool.not_eq_true _).mp hfin] at hend
          exact hend
        exact ⟨hpos.seqno, hpos.len, hpos.data, fun _ => by rw [hsize, ← hpos'], hpos.inside⟩
      · unfold Seg.tcplen
        rw [(Bool.not_eq_true _).mp hfin]
        rfl

/-- Where there is no room for the FIN, nothing of interest changes. -/
theorem tcpSendFin_refused {mem : Bool} (h : ¬(tcpSendFin mem pcb).fin = true) :
    (tcpSendFin mem pcb).queuesOnly = pcb.queuesOnly := by
  have henqueue : ¬(tcpEnqueueFlags mem pcb).fin = true →
      (tcpEnqueueFlags mem pcb).queuesOnly = pcb.queuesOnly := by
    unfold tcpEnqueueFlags
    split
    · exact fun _ => rfl
    · split
      · exact fun _ => rfl
      · exact fun hfin => absurd rfl hfin
  unfold tcpSendFin at h ⊢
  split at h
  · exact henqueue h
  · split at h
    · next hfin =>
      rw [if_pos hfin]
      exact henqueue h
    · exact absurd rfl h

/-! ## Probes -/

/-- A probe has the first byte of the queues, or the FIN. -/
theorem Sound.tcpZeroWindowProbe (h : Sound st base w n pcb) (hs : s ∈ tcpZeroWindowProbe pcb) :
    ∃ pos, Piece st base s pos ∧ pos ≤ w ∧ n < pos + 2 ^ 17 := by
  have hend := Bool.toNat_le pcb.fin
  unfold Tcp.tcpZeroWindowProbe at hs
  have hmem : ∀ x ∈ pcb.unacked ++ pcb.unsent, ∃ pos, Around st base n (w + pcb.fin.toNat) x pos :=
    fun x hx => h.queues.mem hx
  cases hall : pcb.unacked ++ pcb.unsent with
  | nil =>
      rw [hall] at hs
      cases hs
  | cons seg rest =>
      rw [hall] at hs hmem
      obtain ⟨pos, haround⟩ := hmem seg List.mem_cons_self
      have hpiece := haround.piece
      have hlen := hpiece.len
      have hle := tcplen_le seg
      have hlo := haround.lo
      have hhi := haround.hi
      have htcplen := haround.tcplen
      dsimp only at hs
      by_cases hfin : seg.fin = true ∧ seg.len = 0
      · rw [if_pos hfin] at hs
        obtain rfl := List.mem_singleton.mp hs
        have hsize := hpiece.fin hfin.1
        rw [hfin.2] at hsize
        exact ⟨pos, ⟨hpiece.seqno, Nat.two_pow_pos 16, rfl, fun _ => hsize, fun l hl =>
          (Option.some.inj (hsize.symm.trans hl)).le⟩, by omega, by omega⟩
      · rw [if_neg hfin] at hs
        obtain rfl := List.mem_singleton.mp hs
        have hone : 1 ≤ seg.len := by
          refine Nat.one_le_iff_ne_zero.mpr fun hzero => ?_
          cases hf : seg.fin with
          | true => exact hfin ⟨hf, hzero⟩
          | false => exact absurd (len_pos htcplen hf) (by omega)
        refine ⟨pos, ⟨hpiece.seqno, Nat.one_lt_two_pow (by decide), ?_, fun hf => (by cases hf),
          fun l hl => ?_⟩, by omega, by omega⟩
        · dsimp only
          rw [hpiece.data, st.take_bytes hone]
        · have hin := hpiece.inside l hl
          dsimp only
          omega

end Tcp

end LuojiOs
