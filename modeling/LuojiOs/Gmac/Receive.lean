import LuojiOs.Gmac.Transmit

/-!
# Reception

`rt_eth_rx` of `synMain.c`, against a controller that puts frames into the buffers it owns.  Where
there is no memory for the copy of a frame, the function returns without giving the buffer back.
Where `rt_eth_tx` has lost the lock of the driver, it does not return.  The counters of the
statistics are left out.
-/

namespace LuojiOs

namespace Gmac

/-- `RX_BUF_SIZE` -/
def rxBufSize : BitVec 32 := 1522

def maxEthernetPayload : ℕ := 1500

/-- What `rt_eth_rx` returns: the length of the buffer, whatever came, and the bytes that are
copied to its payload. -/
structure Pbuf where
  totLen : ℕ
  written : List (BitVec 8)
deriving DecidableEq

/-- What becomes of a frame. -/
inductive Outcome
  | delivered (p : Pbuf)
  | bad
  | dropped
deriving DecidableEq

structure Rx where
  q : Queue
  cur : ℕ
  mem : BitVec 32 → List (BitVec 8)
  given : List (BitVec 32)
  arrived : List (List (BitVec 8) × BitVec 32)
  log : List Outcome
  freed : List (BitVec 32)
  /-- whether a copy was longer than the payload it was made to -/
  overrun : Bool
  /-- whether `sem_lock` will never be released again -/
  lockLost : Bool

/-- The buffer of the descriptor `d` is given to the controller again. -/
def giveAgain (d : DmaDesc) (s : Rx) : Rx :=
  let r := setRxQptr d.buffer1 rxBufSize d.data1 0 0 0 s.q
  if r.1 < 0 then { s with q := r.2, freed := s.freed ++ [d.data1] }
  else { s with q := r.2, given := s.given ++ [d.data1] }

/-- `rt_eth_rx`, where `mem` is whether `pbuf_alloc` has memory. -/
def ethRx (mem : Bool) (s : Rx) : Rx :=
  if s.lockLost then
    -- `rt_sem_take` does not come back
    s
  else
    let r := getQptr s.q
    match r.1 with
    | none => s
    | some (_, d) =>
      let s := { s with q := r.2 }
      if d.data1 = 0 then s
      else if isRxDescValid d.status then
        if mem then
          let len := (getRxDescFrameLength d.status).toNat
          giveAgain d { s with
            log := s.log ++ [.delivered ⟨maxEthernetPayload, (s.mem (vaToPa d.data1)).take len⟩]
            overrun := s.overrun || decide (maxEthernetPayload < len) }
        else { s with log := s.log ++ [.dropped] }
      else giveAgain d { s with log := s.log ++ [.bad] }

/-- The controller puts a frame into the buffer of its next descriptor, if that is its own. -/
def dmaReceive (f : List (BitVec 8)) (st : BitVec 32) (s : Rx) : Rx :=
  let d := s.q.desc s.cur
  if isDescOwnedByDma d then
    { s with
      q := { s.q with desc := Function.update s.q.desc s.cur (giveBack st d) }
      cur := dmaNext d s.cur
      mem := Function.update s.mem d.buffer1 f
      arrived := s.arrived ++ [(f, st)] }
  else s

inductive RxEvent
  | receive (f : List (BitVec 8)) (st : BitVec 32)
  | rx (mem : Bool)
  /-- `rt_eth_tx` returns without the release of the lock -/
  | loseLock

def Rx.step (s : Rx) : RxEvent → Option Rx
  | .receive f st => some (dmaReceive f st s)
  | .rx mem => some (ethRx mem s)
  | .loseLock => some { s with lockLost := true }

/-- The status as the driver finds it. -/
def clearOwn (st : BitVec 32) : BitVec 32 := st &&& ~~~descOwnByDma

/-- A frame without an error has the length that its status says, and a pbuf has room for it. -/
def Rx.Allowed (_ : Rx) : RxEvent → Prop
  | .receive f st => isRxDescValid (clearOwn st) = true →
      (getRxDescFrameLength (clearOwn st)).toNat = f.length ∧ f.length ≤ maxEthernetPayload
  | _ => True

/-- The loop of `init_eth` that gives the first buffers to the controller. -/
def fillRx (addrs : List (BitVec 32)) (q : Queue) : Queue :=
  addrs.foldl (fun q a => (setRxQptr (vaToPa a) rxBufSize a 0 0 0 q).2) q

/-- The driver after `init_eth`. -/
structure Rx.Fresh (s : Rx) : Prop where
  q : ∃ base ≠ 0, s.q = fillRx s.given (setupDescQueue base descSize)
  cur : s.cur = 0
  arrived : s.arrived = []
  log : s.log = []
  freed : s.freed = []
  overrun : s.overrun = false
  lockLost : s.lockLost = false
  length : s.given.length ≤ descSize
  data : ∀ a ∈ s.given, a ≠ 0
  nodup : (s.given.map vaToPa).Nodup

/-! ## The invariant -/

def rxBuf (a : BitVec 32) : Buf := ⟨vaToPa a, rxBufSize, a⟩

/-- The frame and its status are dealt with as they should be. -/
def Matches (f : List (BitVec 8) × BitVec 32) : Outcome → Prop
  | .delivered p =>
    isRxDescValid (clearOwn f.2) = true ∧ p.totLen = maxEthernetPayload ∧ p.written = f.1
  | .bad => isRxDescValid (clearOwn f.2) = false
  | .dropped => isRxDescValid (clearOwn f.2) = true

structure Rx.Good (k : ℕ) (s : Rx) : Prop where
  ring : Shares 0 descSize s.q s.cur (s.given.map rxBuf) (s.arrived.map Prod.snd) s.log.length
  log : ∀ (i : ℕ) o, s.log[i]? = some o → ∃ f, s.arrived[i]? = some f ∧ Matches f o
  mem : ∀ (i : ℕ) a f, s.log.length ≤ i → s.given[i]? = some a → s.arrived[i]? = some f →
    s.mem (vaToPa a) = f.1
  length : ∀ f ∈ s.arrived, isRxDescValid (clearOwn f.2) = true →
    (getRxDescFrameLength (clearOwn f.2)).toNat = f.1.length ∧ f.1.length ≤ maxEthernetPayload
  nodup : ((s.given.drop s.log.length).map vaToPa).Nodup
  data : ∀ a ∈ s.given, a ≠ 0
  count : s.given.length + s.log.count .dropped = s.log.length + k
  freed : s.freed = []
  overrun : s.overrun = false

variable {s s' : Rx} {k taken : ℕ} {q : Queue} {cur : ℕ} {addrs : List (BitVec 32)}
  {S : List (BitVec 32)}

theorem rxBuf_size (a : BitVec 32) : (rxBuf a).length1 &&& descSize1Mask ≠ 0 := by
  change rxBufSize &&& descSize1Mask ≠ 0
  decide

/-- There is room: the buffer is given to the controller. -/
theorem shares_setRx (h : Shares 0 descSize q cur (addrs.map rxBuf) S taken)
    (hroom : addrs.length < taken + descSize) (a : BitVec 32) :
    (setRxQptr (vaToPa a) rxBufSize a 0 0 0 q).1 = q.next ∧
      Shares 0 descSize (setRxQptr (vaToPa a) rxBufSize a 0 0 0 q).2 cur
        ((addrs ++ [a]).map rxBuf) S taken := by
  have hflags : (if q.next % moduloInterrupt ≠ 0 then rxDisIntCompl else 0) = 0 :=
    if_neg (not_not.mpr (Nat.mod_one _))
  unfold setRxQptr
  rw [hflags, List.map_append]
  exact h.set flags_rx (by rwa [List.length_map]) (rxBuf a) (rxBuf_size a)

theorem shares_fillRx (h : Shares 0 descSize q cur (addrs.map rxBuf) S taken)
    (more : List (BitVec 32)) (hroom : addrs.length + more.length ≤ taken + descSize) :
    Shares 0 descSize (fillRx more q) cur ((addrs ++ more).map rxBuf) S taken := by
  induction more generalizing addrs q with
  | nil => rwa [List.append_nil]
  | cons a more ih =>
      rw [List.length_cons] at hroom
      obtain ⟨-, hset⟩ := shares_setRx h (by omega) a
      have hrest := ih hset (by rw [List.length_append, List.length_singleton]; omega)
      rwa [List.append_assoc] at hrest

theorem Rx.Fresh.good (h : s.Fresh) : s.Good s.given.length := by
  obtain ⟨base, hbase, hq⟩ := h.q
  have hsetup : Shares 0 descSize (setupDescQueue base descSize) 0
      (([] : List (BitVec 32)).map rxBuf) [] 0 := shares_setup hbase (by decide)
  have hlength := h.length
  have hfill := shares_fillRx hsetup s.given (by rw [List.length_nil]; omega)
  refine ⟨?_, fun i o ho => ?_, fun i a f _ _ hf => ?_, fun f hf => ?_, ?_, h.data, ?_, h.freed,
    h.overrun⟩
  · rw [hq, h.cur, h.arrived, h.log]
    exact hfill
  · rw [h.log] at ho
    cases ho
  · rw [h.arrived] at hf
    cases hf
  · rw [h.arrived] at hf
    cases hf
  · rw [h.log]
    exact h.nodup
  · rw [h.log]
    exact Nat.add_comm _ _

/-- The buffers of different positions are different. -/
theorem Rx.Good.ne (h : s.Good k) {i j : ℕ} {a b : BitVec 32} (hi : s.log.length ≤ i)
    (hj : s.log.length ≤ j) (ha : s.given[i]? = some a) (hb : s.given[j]? = some b) (hij : i ≠ j) :
    vaToPa a ≠ vaToPa b := by
  intro heq
  have hat {n : ℕ} {x : BitVec 32} (hn : s.log.length ≤ n) (hx : s.given[n]? = some x) :
      ((s.given.drop s.log.length).map vaToPa)[n - s.log.length]? = some (vaToPa x) := by
    rw [List.getElem?_map, List.getElem?_drop, Nat.add_sub_cancel' hn, hx]
    rfl
  have hinj := (List.getElem?_inj (List.getElem?_eq_some_iff.mp (hat hi ha)).1 h.nodup).mp
    ((hat hi ha).trans (heq ▸ (hat hj hb).symm))
  omega

theorem Rx.Good.receive (h : s.Good k) {f : List (BitVec 8)} {st : BitVec 32}
    (hf : s.Allowed (.receive f st)) : (dmaReceive f st s).Good k := by
  have howned := h.ring.cur_owned
  have htaken := h.ring.holds.taken_le
  unfold dmaReceive
  dsimp only
  by_cases hsome : (s.arrived.map Prod.snd).length < (s.given.map rxBuf).length
  · obtain ⟨b, hb, hd, hring⟩ := h.ring.dma flags_rx hsome st
    rw [List.length_map] at hb htaken hd
    obtain ⟨a, ha, rfl⟩ := Option.map_eq_some_iff.mp (List.getElem?_map ▸ hb)
    have hbuffer : ((rxBuf a).desc 0 descSize s.arrived.length).buffer1 = vaToPa a := rfl
    rw [if_pos (howned.mpr hsome)]
    refine ⟨?_, fun i o ho => ?_, fun i x g hi hx hg => ?_, fun g hg => ?_, h.nodup, h.data,
      h.count, h.freed, h.overrun⟩
    · dsimp only
      rw [List.map_append]
      exact hring
    · obtain ⟨g, hg, hmatch⟩ := h.log i o ho
      exact ⟨g, List.getElem?_append_left (List.getElem?_eq_some_iff.mp hg).1 ▸ hg, hmatch⟩
    · dsimp only at hx hg hi ⊢
      rw [hd, hbuffer]
      rcases Nat.lt_or_ge i s.arrived.length with hlt | hge
      · rw [List.getElem?_append_left hlt] at hg
        rw [Function.update_of_ne (h.ne hi htaken hx ha hlt.ne)]
        exact h.mem i x g hi hx hg
      · obtain rfl : i = s.arrived.length := by
          have hlt := (List.getElem?_eq_some_iff.mp hg).1
          rw [List.length_append, List.length_singleton] at hlt
          omega
        obtain rfl := Option.some.inj (ha.symm.trans hx)
        rw [List.getElem?_append_right le_rfl, Nat.sub_self] at hg
        obtain rfl := Option.some.inj hg
        exact Function.update_self _ _ _
    · rcases List.mem_append.mp hg with hg | hg
      · exact h.length g hg
      · obtain rfl := List.mem_singleton.mp hg
        exact hf
  · rw [if_neg (mt howned.mp hsome)]
    exact h

/-- The first frame is taken, and what becomes of it is written down. -/
theorem Rx.Good.logged {k' : ℕ} (h : s.Good k) {a : BitVec 32} {f : List (BitVec 8) × BitVec 32}
    {o : Outcome} (hring : Shares 0 descSize q s.cur (s.given.map rxBuf) (s.arrived.map Prod.snd)
      (s.log.length + 1)) (ha : s.given[s.log.length]? = some a)
    (hf : s.arrived[s.log.length]? = some f) (hmatch : Matches f o)
    (hcount : s.given.length + (s.log ++ [o]).count .dropped = s.log.length + 1 + k') :
    Rx.Good k' { s with q := q, log := s.log ++ [o] } ∧
      vaToPa a ∉ (s.given.drop (s.log.length + 1)).map vaToPa := by
  have hlength : (s.log ++ [o]).length = s.log.length + 1 := List.length_append
  have hdrop : s.given.drop s.log.length = a :: s.given.drop (s.log.length + 1) := by
    obtain ⟨hi, rfl⟩ := List.getElem?_eq_some_iff.mp ha
    exact List.drop_eq_getElem_cons hi
  have hnodup := h.nodup
  rw [hdrop, List.map_cons] at hnodup
  obtain ⟨hnot, hrest⟩ := List.nodup_cons.mp hnodup
  refine ⟨⟨?_, fun i x hx => ?_, fun i x g hi hx hg => ?_, h.length, ?_, h.data, ?_, h.freed,
    h.overrun⟩, hnot⟩
  · dsimp only
    rwa [hlength]
  · dsimp only at hx
    rcases Nat.lt_or_ge i s.log.length with hlt | hge
    · rw [List.getElem?_append_left hlt] at hx
      exact h.log i x hx
    · obtain rfl : i = s.log.length := by
        have hlt := (List.getElem?_eq_some_iff.mp hx).1
        omega
      rw [List.getElem?_append_right le_rfl, Nat.sub_self] at hx
      obtain rfl := Option.some.inj hx
      exact ⟨f, hf, hmatch⟩
  · dsimp only at hi
    exact h.mem i x g (by omega) hx hg
  · dsimp only
    rwa [hlength]
  · dsimp only
    rw [hlength]
    exact hcount

/-- A buffer is given to the controller again. -/
theorem Rx.Good.give (h : s.Good k) {a : BitVec 32} (ha : a ≠ 0)
    (hroom : s.given.length < s.log.length + descSize)
    (hnot : vaToPa a ∉ (s.given.drop s.log.length).map vaToPa) :
    (setRxQptr (vaToPa a) rxBufSize a 0 0 0 s.q).1 = s.q.next ∧
      Rx.Good (k + 1) { s with
        q := (setRxQptr (vaToPa a) rxBufSize a 0 0 0 s.q).2
        given := s.given ++ [a] } := by
  obtain ⟨hnext, hring⟩ := shares_setRx h.ring hroom a
  have htaken := h.ring.holds.taken_le
  have hclosed := h.ring.holds.closed_le
  have hcount := h.count
  rw [List.length_map] at htaken hclosed
  rw [List.length_map] at hclosed
  refine ⟨hnext, hring, h.log, fun i x g hi hx hg => ?_, h.length, ?_, fun x hx => ?_, ?_, h.freed,
    h.overrun⟩
  · have hlt := (List.getElem?_eq_some_iff.mp hg).1
    dsimp only at hx hg hlt
    rw [List.getElem?_append_left (by omega)] at hx
    exact h.mem i x g hi hx hg
  · dsimp only
    rw [List.drop_append_of_le_length (by omega), List.map_append]
    refine List.nodup_append.mpr ⟨h.nodup, List.nodup_singleton _, fun x hx y hy hxy => hnot ?_⟩
    rwa [← List.mem_singleton.mp hy, ← hxy]
  · rcases List.mem_append.mp hx with hx | hx
    · exact h.data x hx
    · obtain rfl := List.mem_singleton.mp hx
      exact ha
  · dsimp only
    rw [List.length_append, List.length_singleton]
    omega

theorem Rx.Good.again {o : Outcome} {a : BitVec 32} {f : List (BitVec 8) × BitVec 32} (h : s.Good k)
    (hring : Shares 0 descSize q s.cur (s.given.map rxBuf) (s.arrived.map Prod.snd)
      (s.log.length + 1)) (ha : s.given[s.log.length]? = some a)
    (hf : s.arrived[s.log.length]? = some f) (hmatch : Matches f o) (ho : o ≠ .dropped)
    {d : DmaDesc} (hbuffer : d.buffer1 = vaToPa a) (hdata : d.data1 = a) :
    (giveAgain d { s with q := q, log := s.log ++ [o] }).Good k := by
  have hlt := (List.getElem?_eq_some_iff.mp ha).1
  have hcount := h.count
  have hroom := h.ring.holds.filled_le
  have hsame : (s.log ++ [o]).count .dropped = s.log.count .dropped := by
    rw [List.count_append, List.count_singleton, if_neg (by simpa using ho), Nat.add_zero]
  rw [List.length_map] at hroom
  obtain ⟨k', rfl⟩ : ∃ k', k = k' + 1 := by
    refine Nat.exists_eq_succ_of_ne_zero fun hzero => ?_
    omega
  have hnew : s.given.length + (s.log ++ [o]).count .dropped = s.log.length + 1 + k' := by omega
  obtain ⟨hlogged, hnot⟩ := h.logged hring ha hf hmatch hnew
  have hlength : (s.log ++ [o]).length = s.log.length + 1 := List.length_append
  obtain ⟨hnext, hgive⟩ := hlogged.give (h.data a (List.mem_of_getElem? ha))
    (by dsimp only; omega) (by dsimp only; rwa [hlength])
  dsimp only at hnext
  unfold giveAgain
  dsimp only
  rw [hbuffer, hdata, hnext, if_neg (by omega)]
  exact hgive

theorem Rx.Good.rx (h : s.Good k) (mem : Bool) : (ethRx mem s).Good k := by
  have htaken := h.ring.holds.taken_le
  have hclosed := h.ring.holds.closed_le
  unfold ethRx
  split
  · exact h
  rcases Nat.lt_or_ge s.log.length (s.arrived.map Prod.snd).length with hlt | hge
  · obtain ⟨b, st, hb, hst, hget, hring⟩ := h.ring.get flags_rx hlt
    obtain ⟨a, ha, rfl⟩ := Option.map_eq_some_iff.mp (List.getElem?_map ▸ hb)
    obtain ⟨f, hf, rfl⟩ := Option.map_eq_some_iff.mp (List.getElem?_map ▸ hst)
    dsimp only
    rw [hget]
    dsimp only
    generalize hd : giveBack f.2 ((rxBuf a).desc 0 descSize s.log.length) = d
    have hbuffer : d.buffer1 = vaToPa a := by rw [← hd]; rfl
    have hdata : d.data1 = a := by rw [← hd]; rfl
    have hstatus : d.status = clearOwn f.2 := by rw [← hd]; rfl
    rw [hdata, hstatus, if_neg (h.data a (List.mem_of_getElem? ha))]
    split
    · next hvalid =>
      obtain ⟨hlength, hroom⟩ := h.length f (List.mem_of_getElem? hf) hvalid
      have hcopy : (s.mem (vaToPa a)).take (getRxDescFrameLength (clearOwn f.2)).toNat = f.1 := by
        rw [h.mem _ a f le_rfl ha hf, hlength, List.take_length]
      have hover : (s.overrun || decide
          (maxEthernetPayload < (getRxDescFrameLength (clearOwn f.2)).toNat)) = s.overrun := by
        rw [hlength, decide_eq_false (Nat.not_lt.mpr hroom), Bool.or_false]
      cases mem with
      | true =>
          rw [if_pos rfl, hcopy, hover]
          have hmatch : Matches f (.delivered ⟨maxEthernetPayload, f.1⟩) := ⟨hvalid, rfl, rfl⟩
          exact h.again hring ha hf hmatch nofun hbuffer hdata
      | false =>
          have hmatch : Matches f .dropped := hvalid
          have hcount : s.given.length + (s.log ++ [Outcome.dropped]).count .dropped =
              s.log.length + 1 + k := by
            have hcount := h.count
            rw [List.count_append, List.count_singleton_self]
            omega
          exact (h.logged hring ha hf hmatch hcount).1
    · next hbad =>
      have hmatch : Matches f .bad := (Bool.not_eq_true _).mp hbad
      exact h.again hring ha hf hmatch nofun hbuffer hdata
  · rw [h.ring.get_none (le_antisymm htaken hge)]
    exact h

theorem giveAgain_log (d : DmaDesc) (s : Rx) : (giveAgain d s).log = s.log := by
  unfold giveAgain
  dsimp only
  split <;> rfl

/-- A call deals with a frame that has arrived. -/
theorem Rx.Good.progress (h : s.Good k) (hlock : s.lockLost = false)
    (hsome : s.log.length < s.arrived.length) (mem : Bool) :
    (ethRx mem s).log.length = s.log.length + 1 := by
  obtain ⟨b, st, hb, -, hget, -⟩ := h.ring.get flags_rx (by rwa [List.length_map])
  obtain ⟨a, ha, rfl⟩ := Option.map_eq_some_iff.mp (List.getElem?_map ▸ hb)
  have hdata : (giveBack st ((rxBuf a).desc 0 descSize s.log.length)).data1 = a := rfl
  unfold ethRx
  rw [hlock, if_neg Bool.false_ne_true]
  dsimp only
  rw [hget]
  dsimp only
  rw [hdata, if_neg (h.data a (List.mem_of_getElem? ha))]
  split
  · cases mem with
    | true => rw [if_pos rfl, giveAgain_log, List.length_append, List.length_singleton]
    | false => exact List.length_append
  · rw [giveAgain_log, List.length_append, List.length_singleton]

/-! ## Runs -/

theorem Rx.Good.step {e : RxEvent} (h : s.Good k) (hg : s.Allowed e) (he : s.step e = some s') :
    s'.Good k := by
  cases e with
  | receive f st =>
      obtain rfl := Option.some.inj he
      exact h.receive hg
  | rx mem =>
      obtain rfl := Option.some.inj he
      exact h.rx mem
  | loseLock =>
      obtain rfl := Option.some.inj he
      exact ⟨h.ring, h.log, h.mem, h.length, h.nodup, h.data, h.count, h.freed, h.overrun⟩

variable {s₀ : Rx}

theorem rx_good_of_reach (h₀ : s₀.Fresh)
    (h : Runs.Reach Rx.step Rx.Allowed (fun t => t = s₀) s) : s.Good s₀.given.length :=
  h.invariant (fun _ hs => hs ▸ h₀.good) fun _ _ _ hs => hs.step

/-- The frames are dealt with in the order of their arrival: one without an error is delivered as it
came, or dropped.  Each one that is dropped costs a buffer.  No copy is too long for its pbuf. -/
theorem received_in_order (h₀ : s₀.Fresh)
    (h : Runs.Reach Rx.step Rx.Allowed (fun t => t = s₀) s) :
    s.log.length ≤ s.arrived.length ∧
      (∀ (i : ℕ) o, s.log[i]? = some o → ∃ f, s.arrived[i]? = some f ∧ Matches f o) ∧
      s.given.length + s.log.count .dropped = s.log.length + s₀.given.length ∧ s.freed = [] ∧
      s.overrun = false := by
  have hgood := rx_good_of_reach h₀ h
  have htaken := hgood.ring.holds.taken_le
  rw [List.length_map] at htaken
  exact ⟨htaken, hgood.log, hgood.count, hgood.freed, hgood.overrun⟩

/-- A ring with two buffers. -/
def twoBuffers : Rx :=
  ⟨fillRx [0x80001000, 0x80002000] (setupDescQueue 0x80000100 descSize), 0, fun _ => [],
    [0x80001000, 0x80002000], [], [], [], false, false⟩

theorem fresh_twoBuffers : twoBuffers.Fresh := by
  refine ⟨⟨0x80000100, by decide, rfl⟩, rfl, rfl, rfl, rfl, rfl, rfl,
    Nat.le_of_ble_eq_true rfl, fun a ha => ?_, by decide⟩
  rcases List.mem_pair.mp ha with rfl | rfl
  · decide
  · decide

/-- A frame of two bytes is delivered.  For the next two there is no memory. -/
def deafened : Rx :=
  [RxEvent.receive [1, 2] 0x00020300, .rx true, .receive [3] 0x00010300, .receive [4] 0x00010300,
    .rx false, .rx false].foldl (fun s e => (s.step e).getD s) twoBuffers

theorem reach_deafened : Runs.Reach Rx.step Rx.Allowed (fun t => t = twoBuffers) deafened := by
  have hstart : Runs.Reach Rx.step Rx.Allowed (fun t => t = twoBuffers) twoBuffers := .start rfl
  have harrived := hstart.step (e := RxEvent.receive [1, 2] 0x00020300)
    (fun _ => by decide) rfl
  have hdelivered := harrived.step (e := RxEvent.rx true) trivial rfl
  have hnext := (hdelivered.step (e := RxEvent.receive [3] 0x00010300)
    (fun _ => by decide) rfl).step (e := RxEvent.receive [4] 0x00010300) (fun _ => by decide) rfl
  exact (hnext.step (e := RxEvent.rx false) trivial rfl).step (e := RxEvent.rx false) trivial rfl

theorem received_in_order_deafened :
    deafened.log = [.delivered ⟨maxEthernetPayload, [1, 2]⟩, .dropped, .dropped] ∧
      deafened.log.length ≤ deafened.arrived.length ∧
      (∀ (i : ℕ) o, deafened.log[i]? = some o →
        ∃ f, deafened.arrived[i]? = some f ∧ Matches f o) ∧
      deafened.given.length + deafened.log.count .dropped =
        deafened.log.length + twoBuffers.given.length ∧
      deafened.freed = [] ∧ deafened.overrun = false :=
  ⟨by decide, received_in_order fresh_twoBuffers reach_deafened⟩

/-- Nothing that arrives is noticed, and no call comes to anything. -/
def Rx.Deaf (s : Rx) : Prop := (∀ f st, dmaReceive f st s = s) ∧ ∀ mem, ethRx mem s = s

/-- Nothing can happen any more if as many frames have been dropped as there were buffers, or when
the lock is lost and the ring is full. -/
theorem deaf_iff (h₀ : s₀.Fresh)
    (h : Runs.Reach Rx.step Rx.Allowed (fun t => t = s₀) s) :
    s.Deaf ↔ s.log.count .dropped = s₀.given.length ∨
      s.lockLost = true ∧ s.arrived.length = s.given.length := by
  have hgood := rx_good_of_reach h₀ h
  have hcount := hgood.count
  have htaken := hgood.ring.holds.taken_le
  have hclosed := hgood.ring.holds.closed_le
  have howned := hgood.ring.cur_owned
  rw [List.length_map] at htaken hclosed
  rw [List.length_map] at hclosed howned
  rw [List.length_map] at howned
  have hfull (hge : s.given.length ≤ s.arrived.length) (f : List (BitVec 8)) (st : BitVec 32) :
      dmaReceive f st s = s := by
    unfold dmaReceive
    dsimp only
    exact if_neg (mt howned.mp (Nat.not_lt.mpr hge))
  constructor
  · rintro ⟨hreceive, hrx⟩
    have hge : s.given.length ≤ s.arrived.length := by
      by_contra hlt
      have hstep := hreceive [] 0
      unfold dmaReceive at hstep
      dsimp only at hstep
      rw [if_pos (howned.mpr (Nat.lt_of_not_le hlt))] at hstep
      have hlength := congrArg (fun t => t.arrived.length) hstep
      dsimp only at hlength
      rw [List.length_append, List.length_singleton] at hlength
      omega
    cases hlock : s.lockLost with
    | true => exact Or.inr ⟨rfl, le_antisymm hclosed hge⟩
    | false =>
        left
        by_contra hne
        have hprogress := hgood.progress hlock (by omega) true
        rw [hrx true] at hprogress
        omega
  · rintro (hall | ⟨hlock, hring⟩)
    · refine ⟨hfull (by omega), fun mem => ?_⟩
      unfold ethRx
      rw [hgood.ring.get_none (by rw [List.length_map]; omega)]
      exact ite_self s
    · refine ⟨hfull hring.ge, fun mem => ?_⟩
      unfold ethRx
      exact if_pos hlock

theorem deaf_iff_deafened :
    deafened.Deaf ↔ deafened.log.count .dropped = twoBuffers.given.length ∨
      deafened.lockLost = true ∧ deafened.arrived.length = deafened.given.length :=
  deaf_iff fresh_twoBuffers reach_deafened

end Gmac

end LuojiOs
