import LuojiOs.Gmac.Descriptors
import LuojiOs.Support.Runs

/-!
# Transmission

`rt_eth_tx` of `synMain.c`, against a controller that transmits what it owns at any time, also in
the middle of the function.  The lock of the driver is taken for the whole of it, and some of its
returns leave it taken.  The counters of the statistics are left out.
-/

namespace LuojiOs

namespace Gmac

def vaToPa (a : BitVec 32) : BitVec 32 := a &&& 0x1fffffff

/-- `sem_lock`.  It is lost when a function has returned without its release. -/
inductive Lock
  | free
  | taken
  | lost
deriving DecidableEq

/-- The driver and the controller: what is in the memory at the physical address of a buffer, which
buffers are allocated, and what has been sent, with the status, accepted and taken back so far. -/
structure Tx where
  q : Queue
  cur : ℕ
  mem : BitVec 32 → List (BitVec 8)
  live : List (BitVec 32)
  lock : Lock
  sent : List (List (BitVec 8) × BitVec 32)
  accepted : List (BitVec 32 × List (BitVec 8))
  reclaimed : ℕ
  freedTwice : Bool

def platFreeMemory (a : BitVec 32) (s : Tx) : Tx :=
  if s.live.contains a then { s with live := s.live.erase a } else { s with freedTwice := true }

/-- `rt_eth_tx` up to its loop, with the bytes of the chain of buffers, where `a` is what
`plat_alloc_memory` returns. -/
def ethTxStart (a : BitVec 32) (p : List (BitVec 8)) (s : Tx) : Tx :=
  if isDescOwnedByDma (s.q.desc s.q.nextDesc) then { s with lock := .taken }
  else if a = 0 then { s with lock := .lost }
  else
    let s := { s with mem := Function.update s.mem (vaToPa a) p, live := s.live ++ [a] }
    let r := setTxQptr (vaToPa a) (BitVec.ofNat 32 p.length) a 0 0 0 s.q
    if r.1 < 0 then { platFreeMemory a s with q := r.2, lock := .lost }
    else { s with q := r.2, lock := .taken, accepted := s.accepted ++ [(a, p)] }

/-- A round of the loop of `rt_eth_tx`. -/
def ethTxReclaim (s : Tx) : Tx :=
  let r := getQptr s.q
  match r.1 with
  | none => { s with lock := .free }
  | some (_, d) =>
    let s := if d.data1 = 0 then s else platFreeMemory d.data1 s
    { s with q := r.2, reclaimed := s.reclaimed + 1 }

/-- The controller transmits the frame of its next descriptor, if that is its own. -/
def dmaTransmit (st : BitVec 32) (s : Tx) : Tx :=
  let d := s.q.desc s.cur
  if isDescOwnedByDma d then
    { s with
      q := { s.q with desc := Function.update s.q.desc s.cur (giveBack st d) }
      cur := dmaNext d s.cur
      sent := s.sent ++ [((s.mem d.buffer1).take (d.length &&& descSize1Mask).toNat, st)] }
  else s

inductive TxEvent
  | start (a : BitVec 32) (p : List (BitVec 8))
  | reclaim
  | transmit (st : BitVec 32)
  /-- somebody else writes to memory -/
  | other (pa : BitVec 32) (bytes : List (BitVec 8))

def Tx.step (s : Tx) : TxEvent → Option Tx
  | .start a p => if s.lock = .free then some (ethTxStart a p s) else none
  | .reclaim => if s.lock = .taken then some (ethTxReclaim s) else none
  | .transmit st => some (dmaTransmit st s)
  | .other pa bytes => some { s with mem := Function.update s.mem pa bytes }

/-- A frame fits in a buffer of a descriptor; memory that is allocated was free, and nobody else
writes to it. -/
def Tx.Allowed (s : Tx) : TxEvent → Prop
  | .start a p => 0 < p.length ∧ p.length < 2048 ∧ (a ≠ 0 → vaToPa a ∉ s.live.map vaToPa)
  | .other pa _ => pa ∉ s.live.map vaToPa
  | _ => True

/-- The driver after `init_eth`. -/
structure Tx.Fresh (s : Tx) : Prop where
  q : ∃ base ≠ 0, s.q = setupDescQueue base descSize
  cur : s.cur = 0
  live : s.live = []
  lock : s.lock = .free
  sent : s.sent = []
  accepted : s.accepted = []
  reclaimed : s.reclaimed = 0
  freedTwice : s.freedTwice = false

/-! ## The invariant -/

/-- The buffer with a frame. -/
def txBuf (e : BitVec 32 × List (BitVec 8)) : Buf := ⟨vaToPa e.1, BitVec.ofNat 32 e.2.length, e.1⟩

structure Tx.Good (s : Tx) : Prop where
  ring : Shares descTxFlags descSize s.q s.cur (s.accepted.map txBuf) (s.sent.map Prod.snd)
    s.reclaimed
  sent : s.sent.map Prod.fst = (s.accepted.take s.sent.length).map Prod.snd
  live : s.live = (s.accepted.drop s.reclaimed).map Prod.fst
  nodup : (s.live.map vaToPa).Nodup
  mem : ∀ e ∈ s.accepted.drop s.reclaimed, s.mem (vaToPa e.1) = e.2
  data : ∀ e ∈ s.accepted, e.1 ≠ 0 ∧ e.2.length < 2048
  once : s.freedTwice = false

variable {s s' : Tx} {a : BitVec 32} {p : List (BitVec 8)}

theorem size_of_lt {n : ℕ} (h : n < 2048) :
    (BitVec.ofNat 32 n &&& descSize1Mask).toNat = n := by
  rw [Masks.toNat_and_mask _ (k := 11) rfl, BitVec.toNat_ofNat]
  omega

theorem Tx.Fresh.good (h : s.Fresh) : s.Good := by
  obtain ⟨base, hbase, hq⟩ := h.q
  refine ⟨?_, ?_, ?_, ?_, fun e he => ?_, fun e he => ?_, h.freedTwice⟩
  · rw [hq, h.cur, h.accepted, h.reclaimed, h.sent]
    exact shares_setup hbase (by decide)
  · rw [h.sent, h.accepted]
    rfl
  · rw [h.live, h.accepted, h.reclaimed]
    rfl
  · rw [h.live]
    exact .nil
  · rw [h.accepted, h.reclaimed] at he
    cases he
  · rw [h.accepted] at he
    cases he

theorem Tx.Good.full_iff (h : s.Good) :
    isDescOwnedByDma (s.q.desc s.q.nextDesc) = true ↔
      s.accepted.length = s.reclaimed + descSize ∧ s.reclaimed = s.sent.length := by
  have hiff := h.ring.next_owned
  rwa [List.length_map, List.length_map] at hiff

theorem txBuf_size (hp : 0 < p.length) (hlt : p.length < 2048) :
    (txBuf (a, p)).length1 &&& descSize1Mask ≠ 0 := fun hzero => by
  have hsize := size_of_lt hlt
  have hnat := congrArg BitVec.toNat hzero
  unfold txBuf at hnat
  rw [hsize] at hnat
  exact hp.ne' hnat

/-- What is written to memory that is not in use does not matter. -/
theorem Tx.Good.write (h : s.Good) {pa : BitVec 32} (hpa : pa ∉ s.live.map vaToPa)
    (bytes : List (BitVec 8)) : Tx.Good { s with mem := Function.update s.mem pa bytes } where
  ring := h.ring
  sent := h.sent
  live := h.live
  nodup := h.nodup
  mem e he := by
    have hne : vaToPa e.1 ≠ pa := fun heq => hpa (by
      rw [h.live, List.map_map]
      exact List.mem_map.mpr ⟨e, he, heq⟩)
    exact (Function.update_of_ne hne _ _).trans (h.mem e he)
  data := h.data
  once := h.once

/-- There is room: the frame is accepted. -/
theorem Tx.Good.accept (h : s.Good) (hroom : s.accepted.length < s.reclaimed + descSize)
    (ha : a ≠ 0) (hp : 0 < p.length) (hlt : p.length < 2048)
    (hfresh : vaToPa a ∉ s.live.map vaToPa) :
    (setTxQptr (vaToPa a) (BitVec.ofNat 32 p.length) a 0 0 0 s.q).1 = s.q.next ∧
      Tx.Good { s with
        mem := Function.update s.mem (vaToPa a) p
        live := s.live ++ [a]
        q := (setTxQptr (vaToPa a) (BitVec.ofNat 32 p.length) a 0 0 0 s.q).2
        lock := .taken
        accepted := s.accepted ++ [(a, p)] } := by
  obtain ⟨hnext, hring⟩ := h.ring.set flags_tx (by rwa [List.length_map]) (txBuf (a, p))
    (txBuf_size hp hlt)
  have hclosed := h.ring.holds.taken_le.trans h.ring.holds.closed_le
  have hsent := h.ring.holds.closed_le
  rw [List.length_map] at hclosed hsent
  rw [List.length_map] at hsent
  have hdrop : (s.accepted ++ [(a, p)]).drop s.reclaimed =
      s.accepted.drop s.reclaimed ++ [(a, p)] := List.drop_append_of_le_length hclosed
  refine ⟨hnext, ⟨?_, ?_, ?_, ?_, fun e he => ?_, fun e he => ?_, h.once⟩⟩
  · dsimp only
    rw [List.map_append]
    exact hring
  · dsimp only
    rw [List.take_append_of_le_length hsent]
    exact h.sent
  · dsimp only
    rw [hdrop, List.map_append, ← h.live]
    rfl
  · dsimp only
    rw [List.map_append]
    refine List.nodup_append.mpr ⟨h.nodup, List.nodup_singleton _, fun x hx y hy hxy => hfresh ?_⟩
    rwa [← List.mem_singleton.mp hy, ← hxy]
  · dsimp only at he
    rw [hdrop] at he
    rcases List.mem_append.mp he with he | he
    · exact (h.write hfresh p).mem e he
    · obtain rfl := List.mem_singleton.mp he
      exact Function.update_self _ _ _
  · rcases List.mem_append.mp he with he | he
    · exact h.data e he
    · obtain rfl := List.mem_singleton.mp he
      exact ⟨ha, hlt⟩

theorem Tx.Good.lock (h : s.Good) (l : Lock) : Tx.Good { s with lock := l } :=
  ⟨h.ring, h.sent, h.live, h.nodup, h.mem, h.data, h.once⟩

/-- The state behind the beginning of a call that accepts its frame. -/
def Tx.accepts (a : BitVec 32) (p : List (BitVec 8)) (s : Tx) : Tx :=
  { s with
    mem := Function.update s.mem (vaToPa a) p
    live := s.live ++ [a]
    q := (setTxQptr (vaToPa a) (BitVec.ofNat 32 p.length) a 0 0 0 s.q).2
    lock := .taken
    accepted := s.accepted ++ [(a, p)] }

theorem Tx.Good.start_eq (h : s.Good) (hroom : s.accepted.length < s.reclaimed + descSize)
    (ha : a ≠ 0) (hp : 0 < p.length) (hlt : p.length < 2048)
    (hfresh : vaToPa a ∉ s.live.map vaToPa) :
    ethTxStart a p s = s.accepts a p ∧ (s.accepts a p).Good := by
  obtain ⟨hnext, hgood⟩ := h.accept hroom ha hp hlt hfresh
  refine ⟨?_, hgood⟩
  unfold ethTxStart
  rw [if_neg fun howned => absurd (h.full_iff.mp howned).1 hroom.ne, if_neg ha]
  dsimp only
  rw [if_neg (by rw [hnext]; omega)]
  rfl

/-- What a call does before its loop, and when it leaves the lock taken for ever. -/
theorem Tx.Good.start (h : s.Good) (hp : 0 < p.length) (hlt : p.length < 2048)
    (hfresh : a ≠ 0 → vaToPa a ∉ s.live.map vaToPa) :
    (ethTxStart a p s).Good ∧ ((ethTxStart a p s).lock = .lost ↔
      s.accepted.length = s.reclaimed + descSize ∧ s.reclaimed < s.sent.length ∨
        s.accepted.length < s.reclaimed + descSize ∧ a = 0) := by
  have hfull := h.full_iff
  have hle := h.ring.holds.taken_le
  have hroom := h.ring.holds.filled_le
  rw [List.length_map] at hle hroom
  by_cases howned : isDescOwnedByDma (s.q.desc s.q.nextDesc) = true
  · unfold ethTxStart
    rw [if_pos howned]
    obtain ⟨hlength, hnone⟩ := hfull.mp howned
    exact ⟨h.lock _, fun hlost => (by cases hlost), fun hor => by omega⟩
  · have hnot := mt hfull.mpr howned
    by_cases ha : a = 0
    · unfold ethTxStart
      rw [if_neg howned, if_pos ha]
      refine ⟨h.lock _, fun _ => ?_, fun _ => rfl⟩
      rcases Nat.lt_or_ge s.accepted.length (s.reclaimed + descSize) with hlt' | hge
      · exact Or.inr ⟨hlt', ha⟩
      · exact Or.inl (by omega)
    · rcases Nat.lt_or_ge s.accepted.length (s.reclaimed + descSize) with hlt' | hge
      · obtain ⟨heq, hgood⟩ := h.start_eq hlt' ha hp hlt (hfresh ha)
        rw [heq]
        exact ⟨hgood, fun hlost => (by cases hlost), fun hor => absurd hor (by
          rintro (⟨hlength, -⟩ | ⟨-, hzero⟩)
          · omega
          · exact ha hzero)⟩
      · have hset := h.ring.set_full flags_tx (by rw [List.length_map]; omega) descTxFlags
          (vaToPa a) (BitVec.ofNat 32 p.length) a 0 0 0
        have hnew : a ∉ s.live := fun hmem => hfresh ha (List.mem_map_of_mem hmem)
        unfold ethTxStart
        rw [if_neg howned, if_neg ha]
        unfold setTxQptr
        dsimp only
        rw [hset, if_pos (show (-1 : ℤ) < 0 by decide)]
        unfold platFreeMemory
        rw [if_pos (List.contains_iff_mem.mpr (List.mem_append_right _ List.mem_cons_self)),
          List.erase_append_right _ hnew, List.erase_cons_head, List.append_nil]
        exact ⟨(h.write (hfresh ha) p).lock _, fun _ => Or.inl (by omega), fun _ => rfl⟩

theorem Tx.Good.reclaim (h : s.Good) : (ethTxReclaim s).Good := by
  unfold ethTxReclaim
  rcases Nat.lt_or_ge s.reclaimed s.sent.length with hlt | hge
  · obtain ⟨b, st, hb, -, hget, hring⟩ := h.ring.get flags_tx (by rwa [List.length_map])
    obtain ⟨e, he, rfl⟩ := Option.map_eq_some_iff.mp (List.getElem?_map ▸ hb)
    have hmem := List.mem_of_getElem? he
    have hdrop : s.accepted.drop s.reclaimed = e :: s.accepted.drop (s.reclaimed + 1) := by
      obtain ⟨hi, rfl⟩ := List.getElem?_eq_some_iff.mp he
      exact List.drop_eq_getElem_cons hi
    have hlive := h.live
    rw [hdrop, List.map_cons] at hlive
    have hdata : (giveBack st ((txBuf e).desc descTxFlags descSize s.reclaimed)).data1 = e.1 := rfl
    have hfree : platFreeMemory e.1 s =
        { s with live := (s.accepted.drop (s.reclaimed + 1)).map Prod.fst } := by
      unfold platFreeMemory
      rw [hlive, if_pos (List.contains_iff_mem.mpr List.mem_cons_self), List.erase_cons_head]
    dsimp only
    rw [hget]
    dsimp only
    rw [hdata, if_neg (h.data e hmem).1, hfree]
    refine ⟨hring, h.sent, rfl, ?_, fun x hx => h.mem x ?_, h.data, h.once⟩
    · have hnodup := h.nodup
      rw [hlive, List.map_cons] at hnodup
      exact (List.nodup_cons.mp hnodup).2
    · rw [hdrop]
      exact List.mem_cons_of_mem _ hx
  · have hget := h.ring.get_none (le_antisymm h.ring.holds.taken_le (by rwa [List.length_map]))
    rw [hget]
    exact h.lock _

theorem Tx.Good.transmit (h : s.Good) (st : BitVec 32) : (dmaTransmit st s).Good := by
  have howned := h.ring.cur_owned
  have hle := h.ring.holds.taken_le
  rw [List.length_map] at howned hle
  unfold dmaTransmit
  by_cases hsome : s.sent.length < (s.accepted.map txBuf).length
  · obtain ⟨b, hb, hd, hring⟩ := h.ring.dma flags_tx (by rwa [List.length_map]) st
    rw [List.length_map] at hb hd
    obtain ⟨e, he, rfl⟩ := Option.map_eq_some_iff.mp (List.getElem?_map ▸ hb)
    obtain ⟨hi, hval⟩ := List.getElem?_eq_some_iff.mp he
    have hsize : ((txBuf e).desc descTxFlags descSize s.sent.length).length &&& descSize1Mask =
        BitVec.ofNat 32 e.2.length &&& descSize1Mask := filledDesc_size flags_tx
    have hmem : e ∈ s.accepted.drop s.reclaimed := by
      have hsplit := List.drop_eq_getElem_cons hi
      rw [hval] at hsplit
      refine List.mem_of_mem_drop (i := s.sent.length - s.reclaimed) ?_
      rw [List.drop_drop, Nat.add_sub_cancel' hle, hsplit]
      exact List.mem_cons_self
    have hbuffer : ((txBuf e).desc descTxFlags descSize s.sent.length).buffer1 = vaToPa e.1 := rfl
    dsimp only
    rw [if_pos (howned.mpr hsome)]
    refine ⟨?_, ?_, h.live, h.nodup, h.mem, h.data, h.once⟩
    · dsimp only
      rw [List.map_append]
      exact hring
    · dsimp only
      rw [hd, hsize, size_of_lt (h.data e (List.mem_of_getElem? he)).2, hbuffer, h.mem e hmem,
        List.take_length, List.length_append, List.length_singleton, List.take_add_one, he,
        List.map_append, List.map_append, ← h.sent]
      rfl
  · dsimp only
    rw [if_neg (mt howned.mp hsome)]
    exact h

/-! ## Runs -/

theorem Tx.Good.step {e : TxEvent} (h : s.Good) (hg : s.Allowed e) (he : s.step e = some s') :
    s'.Good := by
  cases e with
  | start a p =>
      obtain ⟨hfree, hs⟩ := Option.ite_none_right_eq_some.mp he
      obtain rfl := Option.some.inj hs
      exact (h.start hg.1 hg.2.1 hg.2.2).1
  | reclaim =>
      obtain ⟨htaken, hs⟩ := Option.ite_none_right_eq_some.mp he
      obtain rfl := Option.some.inj hs
      exact h.reclaim
  | transmit st =>
      obtain rfl := Option.some.inj he
      exact h.transmit st
  | other pa bytes =>
      obtain rfl := Option.some.inj he
      exact h.write hg bytes

theorem good_of_reach (h : Runs.Reach Tx.step Tx.Allowed Tx.Fresh s) : s.Good :=
  h.invariant (fun _ hs => hs.good) fun _ _ _ hs => hs.step

/-- The frames that are accepted are sent in their order, as they were when they were accepted, and
the buffers that are allocated are those of the frames that are not taken back. -/
theorem sent_in_order (h : Runs.Reach Tx.step Tx.Allowed Tx.Fresh s) :
    s.sent.map Prod.fst = (s.accepted.take s.sent.length).map Prod.snd ∧
      s.live = (s.accepted.drop s.reclaimed).map Prod.fst ∧ s.live.Nodup ∧
      s.reclaimed ≤ s.sent.length ∧ s.accepted.length ≤ s.reclaimed + descSize ∧
      s.q.busyCount = BitVec.ofNat 32 (s.accepted.length - s.reclaimed) ∧ s.freedTwice = false := by
  have hgood := good_of_reach h
  have hle := hgood.ring.holds.taken_le
  have hroom := hgood.ring.holds.filled_le
  have hcount := hgood.ring.count
  rw [List.length_map] at hle hroom hcount
  exact ⟨hgood.sent, hgood.live, hgood.nodup.of_map _, hle, hroom, hcount, hgood.once⟩

def idleTx : Tx :=
  ⟨setupDescQueue 0x80000100 descSize, 0, fun _ => [], [], .free, [], [], 0, false⟩

theorem fresh_idleTx : idleTx.Fresh :=
  ⟨⟨0x80000100, by decide, rfl⟩, rfl, rfl, rfl, rfl, rfl, rfl, rfl⟩

/-- Two frames are accepted, in two calls.  Both are sent, and the first buffer is taken back. -/
def sentTwo : Tx :=
  ethTxReclaim (dmaTransmit 0 (dmaTransmit 0 (ethTxStart 0x80002000 [4, 5]
    (ethTxReclaim (ethTxStart 0x80001000 [1, 2, 3] idleTx)))))

theorem reach_sentTwo : Runs.Reach Tx.step Tx.Allowed Tx.Fresh sentTwo := by
  have hidle : Runs.Reach Tx.step Tx.Allowed Tx.Fresh idleTx := .start fresh_idleTx
  have hfirst := (hidle.step (e := TxEvent.start 0x80001000 [1, 2, 3])
    ⟨by decide, by decide, fun _ => List.not_mem_nil⟩ rfl).step (e := TxEvent.reclaim) trivial rfl
  have hsecond := hfirst.step (e := TxEvent.start 0x80002000 [4, 5])
    ⟨by decide, by decide, fun _ => by decide⟩ rfl
  have hsent := (hsecond.step (e := TxEvent.transmit 0) trivial rfl).step
    (e := TxEvent.transmit 0) trivial rfl
  exact hsent.step (e := TxEvent.reclaim) trivial rfl

theorem sent_in_order_sentTwo :
    sentTwo.sent.map Prod.fst = [[1, 2, 3], [4, 5]] ∧
      sentTwo.sent.map Prod.fst = (sentTwo.accepted.take sentTwo.sent.length).map Prod.snd ∧
      sentTwo.live = (sentTwo.accepted.drop sentTwo.reclaimed).map Prod.fst ∧
      sentTwo.live.Nodup ∧ sentTwo.reclaimed ≤ sentTwo.sent.length ∧
      sentTwo.accepted.length ≤ sentTwo.reclaimed + descSize ∧
      sentTwo.q.busyCount =
        BitVec.ofNat 32 (sentTwo.accepted.length - sentTwo.reclaimed) ∧
      sentTwo.freedTwice = false :=
  ⟨by decide, sent_in_order reach_sentTwo⟩

/-- A call loses the lock if the ring is full and a frame of it has been sent since the last call
went through it, or if the ring is not full and there is no memory. -/
theorem lock_lost_iff (h : Runs.Reach Tx.step Tx.Allowed Tx.Fresh s)
    (hg : s.Allowed (.start a p)) (he : s.step (.start a p) = some s') :
    s'.lock = .lost ↔
      s.accepted.length = s.reclaimed + descSize ∧ s.reclaimed < s.sent.length ∨
        s.accepted.length < s.reclaimed + descSize ∧ a = 0 := by
  obtain ⟨hfree, hs⟩ := Option.ite_none_right_eq_some.mp he
  obtain rfl := Option.some.inj hs
  exact ((good_of_reach h).start hg.1 hg.2.1 hg.2.2).2

/-- The addresses of `n` buffers, and a frame of one byte for each. -/
def oneByteFrames (n : ℕ) : List (BitVec 32 × List (BitVec 8)) :=
  (List.range n).map fun i => (BitVec.ofNat 32 (i + 1), [1])

theorem vaToPa_ofNat {n : ℕ} (hn : n ≤ descSize) :
    (vaToPa (BitVec.ofNat 32 n)).toNat = n := by
  unfold vaToPa descSize at *
  rw [Masks.toNat_and_mask _ (k := 29) rfl, BitVec.toNat_ofNat]
  omega

theorem unused_of_lt {n : ℕ} {pa : BitVec 32} (hn : n ≤ descSize) (h : n < pa.toNat) :
    pa ∉ ((oneByteFrames n).map Prod.fst).map vaToPa := by
  intro hmem
  obtain ⟨x, hx, rfl⟩ := List.mem_map.mp hmem
  obtain ⟨y, hy, rfl⟩ := List.mem_map.mp hx
  obtain ⟨i, hi, rfl⟩ := List.mem_map.mp hy
  have hlt := List.mem_range.mp hi
  rw [vaToPa_ofNat (by omega)] at h
  omega

/-- Calls fill the ring before the controller has sent anything. -/
theorem exists_filled {n : ℕ} (hn : n ≤ descSize) :
    ∃ s, Runs.Reach Tx.step Tx.Allowed Tx.Fresh s ∧ s.lock = .free ∧ s.sent = [] ∧
      s.reclaimed = 0 ∧ s.accepted = oneByteFrames n := by
  induction n with
  | zero => exact ⟨idleTx, .start fresh_idleTx, rfl, rfl, rfl, rfl⟩
  | succ n ih =>
      obtain ⟨s, hreach, hlock, hsent, hreclaimed, haccepted⟩ := ih (by omega)
      have hgood := good_of_reach hreach
      have hfresh : vaToPa (BitVec.ofNat 32 (n + 1)) ∉ s.live.map vaToPa := by
        rw [hgood.live, hreclaimed, haccepted, List.drop_zero]
        refine unused_of_lt (by omega) ?_
        rw [vaToPa_ofNat hn]
        exact Nat.lt_succ_self n
      have hne : BitVec.ofNat 32 (n + 1) ≠ 0 := by
        intro hzero
        have hnat := vaToPa_ofNat hn
        rw [hzero] at hnat
        cases hnat
      have hroom : s.accepted.length < s.reclaimed + descSize := by
        rw [haccepted, hreclaimed, oneByteFrames, List.length_map, List.length_range]
        omega
      obtain ⟨heq, hgood'⟩ := hgood.start_eq (p := [1]) hroom hne (by decide) (by decide) hfresh
      have hstart := hreach.step (e := TxEvent.start (BitVec.ofNat 32 (n + 1)) [1])
        ⟨Nat.one_pos, by decide, fun _ => hfresh⟩ (if_pos hlock)
      rw [heq] at hstart
      have hend := hstart.step (e := TxEvent.reclaim) trivial rfl
      have hnone := hgood'.ring.get_none (by
        change s.reclaimed = (s.sent.map Prod.snd).length
        rw [hreclaimed, hsent]
        rfl)
      unfold ethTxReclaim at hend
      rw [hnone] at hend
      refine ⟨_, hend, rfl, hsent, hreclaimed, ?_⟩
      change s.accepted ++ [(BitVec.ofNat 32 (n + 1), [1])] = oneByteFrames (n + 1)
      rw [haccepted]
      unfold oneByteFrames
      rw [List.range_succ, List.map_append, List.map_singleton]

/-- The ring was left full, and a frame of it has been sent since. -/
theorem lock_lost_iff_filled :
    ∃ s s' : Tx, s.step (.start 0x80001000 [1, 2, 3]) = some s' ∧ s'.lock = .lost := by
  obtain ⟨s, hreach, hlock, hsent, hreclaimed, haccepted⟩ := exists_filled le_rfl
  have hlength : s.accepted.length = descSize := by
    rw [haccepted, oneByteFrames, List.length_map, List.length_range]
  have hgood := good_of_reach hreach
  have howned := hgood.ring.cur_owned.mpr (by
    rw [List.length_map, List.length_map, hsent, hlength]
    decide)
  have hnext := hreach.step (e := TxEvent.transmit 0) trivial rfl
  have hfree : (dmaTransmit 0 s).lock = .free := by
    unfold dmaTransmit
    dsimp only
    rw [if_pos howned]
    exact hlock
  have hallowed : (dmaTransmit 0 s).Allowed (.start 0x80001000 [1, 2, 3]) := by
    refine ⟨by decide, by decide, fun _ => ?_⟩
    rw [(good_of_reach hnext).live]
    unfold dmaTransmit
    dsimp only
    rw [if_pos howned]
    dsimp only
    rw [hreclaimed, haccepted]
    exact unused_of_lt le_rfl (by decide)
  refine ⟨dmaTransmit 0 s, _, if_pos hfree, (lock_lost_iff hnext hallowed (if_pos hfree)).mpr ?_⟩
  left
  unfold dmaTransmit
  dsimp only
  rw [if_pos howned]
  dsimp only
  rw [hreclaimed, hsent, hlength]
  exact ⟨(Nat.zero_add _).symm, Nat.one_pos⟩

end Gmac

end LuojiOs
