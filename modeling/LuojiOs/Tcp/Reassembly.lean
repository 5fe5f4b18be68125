import LuojiOs.Tcp.Receive
import Mathlib.Data.List.Range

/-!
# The queue of segments out of sequence

The segments of the queue are pieces of one stream, in the order of their positions and without
overlap, and only the last one may have the FIN.  Each of the operations on the queue keeps this.
-/

namespace LuojiOs

namespace Tcp

open SerialNumbers

/-! ## Comparisons -/

variable {base : BitVec 32} {a b c : ℕ}

theorem seqLt_iff (base : BitVec 32) (h : Near 32 a b) :
    seqLt (num base a) (num base b) = true ↔ a < b := by
  unfold seqLt
  rw [decide_eq_true_iff, toInt_num_sub base (by decide) h]
  omega

theorem seqGt_iff (base : BitVec 32) (h : Near 32 a b) :
    seqGt (num base a) (num base b) = true ↔ b < a := by
  unfold seqGt
  rw [decide_eq_true_iff, toInt_num_sub base (by decide) h]
  omega

theorem seqGeq_iff (h : Near 32 a b) : seqGeq (num base a) (num base b) = true ↔ b ≤ a := by
  unfold seqGeq
  rw [decide_eq_true_iff, toInt_num_sub base (by decide) h]
  omega

theorem seqLeq_pred_iff (h : Near 32 (a + 1) c) :
    seqLeq (num base a) (num base c - 1) = true ↔ a < c := by
  have hsub : num base a - (num base c - 1) = num base (a + 1) - num base c := by
    rw [num_add]
    bv_omega
  unfold seqLeq
  rw [decide_eq_true_iff, hsub, toInt_num_sub base (by decide) h]
  omega

theorem seqBetween_iff (hab : Near 32 a b) (hac : Near 32 (a + 1) c) :
    seqBetween (num base a) (num base b) (num base c - 1) = true ↔ b ≤ a ∧ a < c := by
  unfold seqBetween
  rw [Bool.and_eq_true, seqGeq_iff hab, seqLeq_pred_iff hac]

/-! ## Pieces -/

/-- What the other side sends: its bytes, and where they end, if they do. -/
structure Stream where
  byte : ℕ → BitVec 8
  size : Option ℕ

namespace Stream

variable (st : Stream)

/-- The `n` bytes from `pos` on. -/
def bytes (pos n : ℕ) : List (BitVec 8) := (List.range' pos n).map st.byte

@[simp] theorem length_bytes (pos n : ℕ) : (st.bytes pos n).length = n := by
  rw [bytes, List.length_map, List.length_range']

theorem bytes_append (pos m n : ℕ) :
    st.bytes pos m ++ st.bytes (pos + m) n = st.bytes pos (m + n) := by
  unfold bytes
  rw [← List.map_append, List.range'_append_1]

theorem take_bytes {k n : ℕ} (h : k ≤ n) (pos : ℕ) : (st.bytes pos n).take k = st.bytes pos k := by
  obtain ⟨r, rfl⟩ := Nat.exists_eq_add_of_le h
  rw [← bytes_append, List.take_left' (st.length_bytes pos k)]

theorem drop_bytes {k n : ℕ} (h : k ≤ n) (pos : ℕ) :
    (st.bytes pos n).drop k = st.bytes (pos + k) (n - k) := by
  obtain ⟨r, rfl⟩ := Nat.exists_eq_add_of_le h
  rw [← bytes_append, List.drop_left' (st.length_bytes pos k), Nat.add_sub_cancel_left]

end Stream

theorem toNat_num_sub (base : BitVec 32) (h : a ≤ b) (hlt : b < a + 2 ^ 32) :
    (num base b - num base a).toNat = b - a := by
  obtain ⟨k, rfl⟩ := Nat.exists_eq_add_of_le h
  rw [num_add_sub, BitVec.toNat_ofNat, Nat.mod_eq_of_lt (by omega), Nat.add_sub_cancel_left]

/-- A segment has the bytes of the stream at the position `pos`. -/
structure Piece (st : Stream) (base : BitVec 32) (s : Seg) (pos : ℕ) : Prop where
  seqno : s.seqno = num base pos
  len : s.len < 2 ^ 16
  data : s.p = st.bytes pos s.len
  fin : s.fin = true → st.size = some (pos + s.len)
  inside : ∀ l, st.size = some l → pos + s.len ≤ l

variable {st : Stream} {s : Seg} {pos lo hi n : ℕ}

theorem Piece.edge_eq (h : Piece st base s pos) : s.edge = num base (pos + s.len) := by
  unfold Seg.edge
  rw [h.seqno, num_add]

theorem Piece.clearFin (h : Piece st base s pos) : Piece st base { s with fin := false } pos :=
  ⟨h.seqno, h.len, h.data, fun hfin => (by cases hfin), h.inside⟩

/-- A piece without a FIN is shortened. -/
theorem Piece.realloc (h : Piece st base s pos) (hfin : s.fin = false) {k : ℕ} (hk : k ≤ s.len)
    {d : BitVec 32} (hd : d.toNat = k) :
    Piece st base (s.realloc d) pos ∧ (s.realloc d).fin = false ∧ (s.realloc d).len = k := by
  have hlen : d.toNat % 2 ^ 16 = k := by
    rw [hd, Nat.mod_eq_of_lt (Nat.lt_of_le_of_lt hk h.len)]
  unfold Seg.realloc
  rw [hlen]
  refine ⟨⟨h.seqno, Nat.lt_of_le_of_lt hk h.len, ?_, fun hs => ?_, fun l hl => ?_⟩, hfin, rfl⟩
  · change s.p.take k = st.bytes pos k
    rw [h.data, st.take_bytes hk]
  · exact absurd (hs.symm.trans hfin) (by decide)
  · have hle := h.inside l hl
    change pos + k ≤ l
    omega

/-- The segments of a queue, from the position `lo` on and up to `hi`. -/
inductive Queue (st : Stream) (base : BitVec 32) (hi : ℕ) : ℕ → List Seg → Prop
  | nil {lo : ℕ} : Queue st base hi lo []
  | cons {lo pos : ℕ} {s : Seg} {rest : List Seg} (hpiece : Piece st base s pos) (hlo : lo ≤ pos)
      (hpos : 0 < s.tcplen) (hhi : pos + s.len ≤ hi) (hfin : s.fin = true → rest = [])
      (hrest : Queue st base hi (pos + s.len) rest) : Queue st base hi lo (s :: rest)

theorem Queue.lower {l : List Seg} (h : Queue st base hi n l) (hle : lo ≤ n) :
    Queue st base hi lo l := by
  cases h with
  | nil => exact .nil
  | cons hpiece hlo hpos hhi hfin hrest =>
      exact .cons hpiece (hle.trans hlo) hpos hhi hfin hrest

theorem Queue.raise {l : List Seg} {hi' : ℕ} (h : Queue st base hi lo l) (hle : hi ≤ hi') :
    Queue st base hi' lo l := by
  induction h with
  | nil => exact .nil
  | cons hpiece hlo hpos hhi hfin _ ih =>
      exact .cons hpiece hlo hpos (hhi.trans hle) hfin ih

theorem Queue.single (h : Piece st base s pos) (hlo : lo ≤ pos) (hpos : 0 < s.tcplen)
    (hhi : pos + s.len ≤ hi) : Queue st base hi lo [s] :=
  .cons h hlo hpos hhi (fun _ => rfl) .nil

theorem len_pos (h : 0 < s.tcplen) (hfin : s.fin = false) : 0 < s.len := by
  unfold Seg.tcplen at h
  rwa [hfin] at h

theorem tcplen_pos (h : 0 < s.len) : 0 < s.tcplen := Nat.lt_of_lt_of_le h (Nat.le_add_right _ _)

/-! ## Segments that are covered -/

/-- Positions from `n` to `hi` can be compared. -/
theorem near_of_bounds (hb : hi + 1 < n + 2 ^ 31) (ha : n ≤ a) (ha' : a ≤ hi + 1) (hc : n ≤ c)
    (hc' : c ≤ hi + 1) : Near 32 a c :=
  ⟨by change a < c + 2 ^ 31; omega, by change c < a + 2 ^ 31; omega⟩

theorem dropCovered_queue (edge step : BitVec 32) (fin : Bool) {l : List Seg}
    (h : Queue st base hi lo l) : Queue st base hi lo (dropCovered edge step fin l).2 := by
  induction h generalizing fin with
  | nil => exact .nil
  | @cons lo pos s rest hpiece hlo hpos hhi hfin hrest ih =>
      rw [dropCovered]
      by_cases hcovered : seqGeq (if fin then edge + step else edge) s.edge = true
      · rw [if_pos hcovered]
        exact (ih _).lower (hlo.trans (Nat.le_add_right pos s.len))
      · rw [if_neg hcovered]
        exact .cons hpiece hlo hpos hhi hfin hrest

/-- The first segment that is left ends behind the edge. -/
theorem dropCovered_head (edge step : BitVec 32) (fin : Bool) {l rest : List Seg}
    (h : (dropCovered edge step fin l).2 = s :: rest) :
    seqGeq (if (dropCovered edge step fin l).1 then edge + step else edge) s.edge = false := by
  induction l generalizing fin with
  | nil => cases h
  | cons next tail ih =>
      rw [dropCovered] at h ⊢
      by_cases hcovered : seqGeq (if fin then edge + step else edge) next.edge = true
      · rw [if_pos hcovered] at h ⊢
        exact ih _ h
      · rw [if_neg hcovered] at h ⊢
        obtain ⟨rfl, -⟩ := List.cons.inj h
        exact (Bool.not_eq_true _).mp hcovered

/-- A FIN that is copied was that of the last segment, and stands at the edge. -/
theorem dropCovered_fin (step : BitVec 32) {l : List Seg} (h : Queue st base hi lo l)
    (hb : hi + 1 < n + 2 ^ 31) (hlo : n ≤ lo) (hc : n ≤ c) (hc' : c ≤ hi)
    (hsize : ∀ k, st.size = some k → c ≤ k)
    (hfin : (dropCovered (num base c) step false l).1 = true) :
    (dropCovered (num base c) step false l).2 = [] ∧ st.size = some c := by
  induction h with
  | nil => cases hfin
  | @cons lo pos s rest hpiece hle hpos hhi hlast hrest ih =>
      rw [dropCovered] at hfin ⊢
      simp only [Bool.false_eq_true, if_false, Bool.false_or] at hfin ⊢
      rw [hpiece.edge_eq] at hfin ⊢
      have hnear : Near 32 c (pos + s.len) := near_of_bounds hb hc (by omega) (by omega) (by omega)
      by_cases hcovered : seqGeq (num base c) (num base (pos + s.len)) = true
      · rw [if_pos hcovered] at hfin ⊢
        cases hs : s.fin with
        | false =>
            rw [hs] at hfin
            exact ih (by omega) hfin
        | true =>
            obtain rfl := hlast hs
            have hend := hpiece.fin hs
            have hcle := hsize _ hend
            have hge := (seqGeq_iff hnear).mp hcovered
            refine ⟨rfl, ?_⟩
            rw [hend, Option.some.injEq]
            omega
      · rw [if_neg hcovered] at hfin
        cases hfin

/-! ## Insertion -/

/-- A piece takes the place of those that it covers, in front of the others. -/
theorem insert_queue {l : List Seg} (h : Piece st base s pos) (hpos : 0 < s.tcplen)
    (hl : Queue st base hi (pos + 1) l) (hb : hi + 1 < n + 2 ^ 31) (hn : n ≤ pos)
    (hhi : pos + s.len ≤ hi) (hlo : lo ≤ pos) :
    Queue st base hi lo (tcpOosInsertSegment s l) := by
  unfold tcpOosInsertSegment
  cases hs : s.fin with
  | true => exact .single h hlo hpos hhi
  | false =>
      have hlen := len_pos hpos hs
      have hqueue := dropCovered_queue s.edge 0 false hl
      have hhead := fun t rest (hcons : (dropCovered s.edge 0 false l).2 = t :: rest) =>
        dropCovered_head s.edge 0 false hcons
      have hfin := dropCovered_fin 0 hl hb (by omega) (c := pos + s.len) (by omega) hhi h.inside
      rw [← h.edge_eq] at hfin
      simp only [Bool.false_eq_true, if_false]
      generalize dropCovered s.edge 0 false l = r at hqueue hhead hfin
      have hpiece : Piece st base { s with fin := r.1 } pos :=
        ⟨h.seqno, h.len, h.data, fun hr => (hfin hr).2, h.inside⟩
      cases hr : r.2 with
      | nil =>
          exact .single hpiece hlo (tcplen_pos hlen) hhi
      | cons t rest =>
          rw [hr] at hqueue
          have hcopied : r.1 = false := by
            cases hr1 : r.1 with
            | false => rfl
            | true => rw [(hfin hr1).1] at hr; cases hr
          have hedge := hhead t rest hr
          rw [hcopied] at hedge hpiece ⊢
          cases hqueue with
          | @cons _ post _ _ hpost hle hpost' hhit hlast hrest =>
              simp only [Bool.false_eq_true, if_false] at hedge
              rw [h.edge_eq, hpost.edge_eq] at hedge
              have hbehind : pos + s.len < post + t.len := by
                refine Nat.lt_of_not_le fun hcovered => ?_
                rw [(seqGeq_iff (near_of_bounds hb (by omega) (by omega) (by omega)
                  (by omega))).mpr hcovered] at hedge
                cases hedge
              have htrim := seqGt_iff base (near_of_bounds hb (a := pos + s.len) (c := post)
                (by omega) (by omega) (by omega) (by omega))
              change Queue st base hi lo (if seqGt s.edge t.seqno = true then _ else _)
              rw [h.edge_eq, hpost.seqno]
              by_cases hgt : seqGt (num base (pos + s.len)) (num base post) = true
              · rw [if_pos hgt]
                have hlt := htrim.mp hgt
                have hdiff := toNat_num_sub base (show pos ≤ post by omega) (by omega)
                rw [← h.seqno] at hdiff
                obtain ⟨hshort, hfin', hlen'⟩ := hpiece.realloc rfl
                  (show post - pos ≤ s.len by omega) hdiff
                refine .cons hshort hlo (tcplen_pos (by omega)) (by omega)
                  (fun hr => absurd (hr.symm.trans hfin') (by decide)) ?_
                exact .cons hpost (by omega) hpost' hhit hlast hrest
              · rw [if_neg hgt]
                have hnot := mt htrim.mpr hgt
                have hnext : Queue st base hi (pos + s.len) (t :: rest) :=
                  .cons hpost (by omega) hpost' hhit hlast hrest
                exact .cons hpiece hlo (tcplen_pos hlen) hhi (fun hr => (by cases hr)) hnext

/-- A longer piece takes the place of one at the same position. -/
theorem replace_queue {t : Seg} {rest : List Seg} (h : Piece st base s pos) (hpos : 0 < s.tcplen)
    (ht : Piece st base t pos) (hlt : t.len < s.len) (htpos : 0 < t.tcplen)
    (hrest : Queue st base hi (pos + t.len) rest) (hb : hi + 1 < n + 2 ^ 31) (hn : n ≤ pos)
    (hhi : pos + s.len ≤ hi) (hlo : lo ≤ pos) :
    Queue st base hi lo (tcpOosInsertSegment s (t :: rest)) := by
  have hfin : t.fin = false := by
    refine (Bool.not_eq_true _).mp fun hfin => ?_
    have hend := h.inside _ (ht.fin hfin)
    omega
  have hcovered : seqGeq s.edge t.edge = true := by
    rw [h.edge_eq, ht.edge_eq]
    exact (seqGeq_iff (near_of_bounds hb (by omega) (by omega) (by omega) (by omega))).mpr
      (by omega)
  have hdrop : dropCovered s.edge 0 false (t :: rest) = dropCovered s.edge 0 false rest := by
    rw [dropCovered, hfin]
    exact if_pos hcovered
  have heq : tcpOosInsertSegment s (t :: rest) = tcpOosInsertSegment s rest := by
    unfold tcpOosInsertSegment
    rw [hdrop]
  rw [heq]
  exact insert_queue h hpos (hrest.lower (by have := len_pos htpos hfin; omega)) hb hn hhi hlo

/-! ## The loop over the queue -/

/-- What follows the first segment may be exchanged. -/
theorem Queue.replace {prev : Option Seg} {l l' : List Seg}
    (h : Queue st base hi lo (prev.toList ++ l)) (hl : l ≠ [])
    (hl' : ∀ m, lo ≤ m → Queue st base hi m l → Queue st base hi m l') :
    Queue st base hi lo (prev.toList ++ l') := by
  cases prev with
  | none => exact hl' lo le_rfl h
  | some p =>
      cases h with
      | cons hpiece hlo hpos hhi hfin hrest =>
          exact .cons hpiece hlo hpos hhi (fun hp => absurd (hfin hp) hl)
            (hl' _ (hlo.trans (Nat.le_add_right _ _)) hrest)

/-- The previous segment, trimmed to the position of the next. -/
theorem trimPrev_spec {b : ℕ} (h : Piece st base s pos) (hpos : 0 < s.tcplen) (hfin : s.fin = false)
    (hb : hi + 1 < n + 2 ^ 31) (hn : n ≤ pos) (hhi : pos + s.len ≤ hi) (hlt : pos < b)
    (hb' : b ≤ hi) :
    Piece st base (trimPrev s (num base b)) pos ∧ 0 < (trimPrev s (num base b)).tcplen ∧
      (trimPrev s (num base b)).fin = false ∧ pos + (trimPrev s (num base b)).len ≤ b ∧
      (trimPrev s (num base b)).len ≤ s.len := by
  have hgt := seqGt_iff base (near_of_bounds hb (a := pos + s.len) (c := b) (by omega)
    (by omega) (by omega) (by omega))
  unfold trimPrev
  rw [h.edge_eq]
  by_cases hover : seqGt (num base (pos + s.len)) (num base b) = true
  · have hlt' := hgt.mp hover
    have hdiff := toNat_num_sub base hlt.le (by omega)
    rw [← h.seqno] at hdiff
    obtain ⟨hshort, hfin', hlen⟩ := h.realloc hfin (show b - pos ≤ s.len by omega) hdiff
    rw [if_pos hover]
    exact ⟨hshort, tcplen_pos (by omega), hfin', by omega, by omega⟩
  · have hnot := mt hgt.mpr hover
    rw [if_neg hover]
    exact ⟨h, hpos, hfin, by omega, le_rfl⟩

/-- The overrun of the window, which `tcp_receive` looks for without regard to the wrap of the
numbers, is there when it is found. -/
def PlainOverrun (pcb : Pcb) (s : Seg) : Prop :=
  pcb.rcvNxt + pcb.rcvWnd.setWidth 32 < BitVec.ofNat 32 s.tcplen + s.seqno →
    seqGt (BitVec.ofNat 32 s.tcplen + s.seqno) (pcb.rcvNxt + pcb.rcvWnd.setWidth 32) = true

theorem window_eq {pcb : Pcb} (h : pcb.rcvNxt = num base n) :
    pcb.rcvNxt + pcb.rcvWnd.setWidth 32 = num base (n + pcb.rcvWnd.toNat) := by
  rw [h, num_add, BitVec.ofNat_toNat]

theorem tcplen_eq (h : Piece st base s pos) :
    BitVec.ofNat 32 s.tcplen + s.seqno = num base (pos + s.tcplen) := by
  rw [h.seqno, num_add, BitVec.add_comm]

theorem tcplen_le (s : Seg) : s.tcplen ≤ s.len + 1 :=
  Nat.add_le_add_left (Bool.toNat_le s.fin) s.len

theorem trimLast_spec {pcb : Pcb} (h : Piece st base s pos) (hpos : 0 < s.tcplen)
    (hrcv : pcb.rcvNxt = num base n) (hwnd : pos < n + pcb.rcvWnd.toNat)
    (hplain : PlainOverrun pcb s) (hn : n ≤ pos) :
    Piece st base (trimLast pcb.rcvNxt pcb.rcvWnd s) pos ∧
      0 < (trimLast pcb.rcvNxt pcb.rcvWnd s).tcplen ∧
      (trimLast pcb.rcvNxt pcb.rcvWnd s).len ≤ s.len := by
  have hw := pcb.rcvWnd.isLt
  have hlen := h.len
  have hle := tcplen_le s
  unfold PlainOverrun at hplain
  unfold trimLast
  rw [window_eq hrcv, tcplen_eq h] at hplain ⊢
  split
  · next hover =>
    have hspan : n + 2 ^ 18 + 1 < n + 2 ^ 31 := by omega
    have hlt := (seqGt_iff base (near_of_bounds hspan (by omega) (by omega) (by omega)
      (by omega))).mp (hplain hover)
    have hdiff := toNat_num_sub base hwnd.le (by omega)
    rw [← h.seqno] at hdiff
    obtain ⟨hshort, hfin, hlen'⟩ := h.clearFin.realloc rfl
      (show n + pcb.rcvWnd.toNat - pos ≤ s.len by omega) hdiff
    exact ⟨hshort, tcplen_pos (by omega), by omega⟩
  · exact ⟨h, hpos, le_rfl⟩

-- Where the end of the window has wrapped and that of the segment has not, the segment is given a
-- length beyond its data.
example : (trimLast 0xFFFFFF00 2048 ⟨0xFFFFFF80, 2, [1, 2], false⟩).len = 1920 := by decide

/-- The segment that the loop is at. -/
theorem Queue.at_next {prev : Option Seg} {next : Seg} {rest : List Seg}
    (h : Queue st base hi lo (prev.toList ++ next :: rest)) :
    ∃ q, lo ≤ q ∧ Piece st base next q ∧ 0 < next.tcplen ∧ q + next.len ≤ hi ∧
      (next.fin = true → rest = []) ∧ Queue st base hi (q + next.len) rest := by
  cases prev with
  | none =>
      cases h with
      | cons hpiece hlo hpos hhi hfin hrest => exact ⟨_, hlo, hpiece, hpos, hhi, hfin, hrest⟩
  | some p =>
      cases h with
      | cons _ hlo _ _ _ hrest =>
          cases hrest with
          | cons hpiece hlo' hpos hhi hfin hrest =>
              exact ⟨_, hlo.trans ((Nat.le_add_right _ _).trans hlo'), hpiece, hpos, hhi, hfin,
                hrest⟩

theorem between_iff {p next : Seg} {pp q : ℕ} (h : Piece st base s pos) (hp : Piece st base p pp)
    (hnext : Piece st base next q) (hb : hi + 1 < n + 2 ^ 31) (hn : n ≤ pos) (hhi : pos ≤ hi)
    (hpn : n ≤ pp) (hphi : pp ≤ hi) (hqn : n ≤ q) (hqhi : q ≤ hi) :
    seqBetween s.seqno (p.seqno + 1) (next.seqno - 1) = true ↔ pp < pos ∧ pos < q := by
  have hsucc : p.seqno + 1 = num base (pp + 1) := by
    rw [hp.seqno, num_add]
    rfl
  rw [h.seqno, hsucc, hnext.seqno]
  exact seqBetween_iff (near_of_bounds hb hn (by omega) (by omega) (by omega))
    (near_of_bounds hb (by omega) (by omega) hqn (by omega))

/-- A segment between the previous one and the next. -/
theorem between_queue {p next : Seg} {rest : List Seg} (h : Piece st base s pos)
    (hpos : 0 < s.tcplen) (hb : hi + 1 < n + 2 ^ 31) (hn : n ≤ lo) (hhi : pos + s.len ≤ hi)
    (hl : Queue st base hi lo (p :: next :: rest)) (hnpos : n ≤ pos)
    (hbetween : seqBetween s.seqno (p.seqno + 1) (next.seqno - 1) = true) :
    Queue st base hi lo (trimPrev p s.seqno :: tcpOosInsertSegment s (next :: rest)) := by
  cases hl with
  | @cons _ pp _ _ hp hlo hppos hphi hpfin hrest =>
      cases hrest with
      | @cons _ q _ _ hnext hle hqpos hqhi hqfin hqrest =>
          rw [between_iff h hp hnext hb hnpos (by omega) (by omega) (by omega) (by omega)
            (by omega)] at hbetween
          have hpf : p.fin = false :=
            (Bool.not_eq_true _).mp fun hfin => List.cons_ne_nil _ _ (hpfin hfin)
          obtain ⟨htrim, htrimpos, htrimfin, htrimle, -⟩ := trimPrev_spec hp hppos hpf hb
            (by omega) hphi (show pp < pos by omega) (by omega)
          rw [← h.seqno] at htrim htrimpos htrimfin htrimle
          refine .cons htrim hlo htrimpos (by omega)
            (fun hfin => absurd (hfin.symm.trans htrimfin) (by decide)) ?_
          exact insert_queue h hpos (.cons hnext (by omega) hqpos hqhi hqfin hqrest) hb hnpos hhi
            htrimle

/-- The loop keeps the queue. -/
theorem oosWalk_queue {pcb : Pcb} (mem : Bool) (h : Piece st base s pos) (hpos : 0 < s.tcplen)
    (hrcv : pcb.rcvNxt = num base n) (hwnd : pos < n + pcb.rcvWnd.toNat)
    (hplain : PlainOverrun pcb s) (hb : hi + 1 < n + 2 ^ 31) (hn : n ≤ pos)
    (hhi : pos + s.len ≤ hi) (prev : Option Seg) {l : List Seg}
    (hl : Queue st base hi lo (prev.toList ++ l)) (hlo : n ≤ lo) (hlopos : lo ≤ pos)
    (hprev : ∀ p, prev = some p → seqLt p.seqno s.seqno = true) :
    Queue st base hi lo (oosWalk pcb mem s prev l) := by
  induction l generalizing prev lo with
  | nil => rwa [oosWalk, ← List.append_nil prev.toList]
  | cons next rest ih =>
      have hnear : ∀ {a c : ℕ}, n ≤ a → a ≤ hi + 1 → n ≤ c → c ≤ hi + 1 → Near 32 a c :=
        fun ha ha' hc hc' => near_of_bounds hb ha ha' hc hc'
      rw [oosWalk]
      by_cases hsame : s.seqno = next.seqno
      · rw [if_pos hsame]
        split
        · next hmore =>
          refine hl.replace (List.cons_ne_nil _ _) fun m hm hq => ?_
          cases hq with
          | @cons _ q _ _ hnext hle hnextpos hnexthi hfin hrest =>
              rw [h.seqno, hnext.seqno,
                num_inj base (by decide) (hnear hn (by omega) (by omega) (by omega))] at hsame
              subst hsame
              exact replace_queue h hpos hnext hmore.1 hnextpos hrest hb hn hhi hle
        · exact hl
      · rw [if_neg hsame]
        obtain ⟨q, hloq, hnext, hqpos, hqhi, hqfin, hqrest⟩ := hl.at_next
        have hlt := seqLt_iff base (hnear hn (by omega) (hlo.trans hloq) (by omega))
        have hgt := seqGt_iff base (hnear hn (by omega) (hlo.trans hloq) (by omega))
        rw [← h.seqno, ← hnext.seqno] at hlt hgt
        have hne : pos ≠ q := fun heq => hsame (by rw [h.seqno, hnext.seqno, heq])
        by_cases hfirst : prev = none ∧ seqLt s.seqno next.seqno
        · rw [if_pos hfirst]
          obtain ⟨rfl, hbefore⟩ := hfirst
          split
          · exact insert_queue h hpos (.cons hnext (hlt.mp hbefore) hqpos hqhi hqfin hqrest) hb hn
              hhi hlopos
          · exact hl
        · rw [if_neg hfirst]
          by_cases hbetween : prev.any fun prev =>
              seqBetween s.seqno (prev.seqno + 1) (next.seqno - 1)
          · rw [if_pos hbetween]
            cases prev with
            | none => cases hbetween
            | some p =>
                split
                · exact between_queue h hpos hb hlo hhi hl hn hbetween
                · exact hl
          · rw [if_neg hbetween]
            by_cases hend : rest = [] ∧ seqGt s.seqno next.seqno
            · rw [if_pos hend]
              obtain ⟨rfl, hbehind⟩ := hend
              split
              · exact hl
              · next hfin =>
                split
                · refine hl.replace (List.cons_ne_nil _ _) fun m hm hq => ?_
                  cases hq with
                  | @cons _ q' _ _ hnext' hle hqpos' hqhi' _ _ =>
                      have hgt' := (seqGt_iff base (a := pos) (b := q')
                        (hnear hn (by omega) (by omega) (by omega))).mp
                        (by rwa [← h.seqno, ← hnext'.seqno])
                      obtain ⟨htrim, htrimpos, htrimfin, htrimle, -⟩ := trimPrev_spec hnext' hqpos'
                        ((Bool.not_eq_true _).mp hfin) hb (by omega) hqhi' hgt' (by omega)
                      rw [← h.seqno] at htrim htrimpos htrimfin htrimle
                      obtain ⟨hlast, hlastpos, hlastlen⟩ := trimLast_spec h hpos hrcv hwnd hplain hn
                      exact .cons htrim hle htrimpos (by omega)
                        (fun hf => absurd (hf.symm.trans htrimfin) (by decide))
                        (.single hlast htrimle hlastpos (by omega))
                · exact hl
            · rw [if_neg hend]
              have hqlt : q < pos := by
                refine Nat.lt_of_not_le fun hle => ?_
                have hposlt : pos < q := Nat.lt_of_le_of_ne hle hne
                cases prev with
                | none => exact hfirst ⟨rfl, hlt.mpr hposlt⟩
                | some p =>
                    cases hl with
                    | @cons _ pp _ _ hp hpp _ hphi _ hprest =>
                        have hplt := hprev p rfl
                        rw [h.seqno, hp.seqno, seqLt_iff base
                          (hnear (by omega) (by omega) hn (by omega))] at hplt
                        exact hbetween ((between_iff h hp hnext hb hn (by omega) (by omega)
                          (by omega) (by omega) (by omega)).mpr ⟨hplt, hposlt⟩)
              have hnextlt : seqLt next.seqno s.seqno = true := by
                rw [h.seqno, hnext.seqno]
                exact (seqLt_iff base (hnear (by omega) (by omega) hn (by omega))).mpr hqlt
              refine hl.replace (List.cons_ne_nil _ _) fun m hm hq => ?_
              refine ih (some next) hq (by omega) ?_ fun p hp => Option.some.inj hp ▸ hnextlt
              cases hq with
              | @cons _ q' _ _ hnext' hle hqpos' hqhi' _ _ =>
                  rw [hnext'.seqno, h.seqno, seqLt_iff base
                    (hnear (by omega) (by omega) hn (by omega))] at hnextlt
                  omega

end Tcp

end LuojiOs
