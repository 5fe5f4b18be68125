import LuojiOs.Support.DropOldest
import LuojiOs.Support.RingBuffer
import LuojiOs.Support.Runs
import Mathlib.Algebra.Group.Nat.Defs
import Mathlib.Data.Int.Notation

/-!
# The serial input queue of `os/getchar.c`

The interrupt handler stores what the UART has received in a ring of `UART_BUF_SIZE`
bytes, and `_serial_int_rx` reads it off byte by byte, each byte with interrupts disabled.
Equal indices mean an empty ring unless `is_full` is set.  The handler sets the flag when
it has moved `get_index` out of its way, and any read clears it; since the ring then holds
15 bytes, the flag is never set on an empty ring, and the ring is a queue of capacity 15
that drops its oldest byte.
-/

namespace LuojiOs

def UART_BUF_SIZE : ℕ := 16

/-- `struct rt_serial_rx_fifo`.  The indices are `unsigned short`. -/
structure RxFifo where
  buffer : ℕ → BitVec 8
  putIndex : ℕ
  getIndex : ℕ
  isFull : ℤ

/-- The queue `uart2GetCharInit` sets up. -/
def rxFifoInit : RxFifo :=
  ⟨fun _ => 0, 0, 0, 0⟩

/-- `index += 1; if (index >= UART_BUF_SIZE) index = 0;` -/
def stepIndex (i : ℕ) : ℕ :=
  if UART_BUF_SIZE ≤ (i + 1) % 2 ^ 16 then 0 else (i + 1) % 2 ^ 16

/-- The loop of `rt_hw_serial_isr` for one character. -/
def storeChar (ch : BitVec 8) (f : RxFifo) : RxFifo :=
  let f := { f with
    buffer := Function.update f.buffer f.putIndex ch
    putIndex := stepIndex f.putIndex }
  if f.putIndex = f.getIndex then { f with getIndex := stepIndex f.getIndex, isFull := 1 } else f

/-- `rt_hw_serial_isr` with these characters pending, until `ls1c_uart_getc` gives `-1`. -/
def rtHwSerialIsr : List (BitVec 8) → RxFifo → RxFifo
  | [], f => f
  | ch :: pending, f => rtHwSerialIsr pending (storeChar ch f)

/-- One round of the loop of `_serial_int_rx`: no result when there is no data. -/
def serialIntRxRound (f : RxFifo) : Option (BitVec 8 × RxFifo) :=
  if f.getIndex = f.putIndex ∧ f.isFull = 0 then none
  else
    let ch := f.buffer f.getIndex
    let f := { f with getIndex := stepIndex f.getIndex }
    some (ch, if f.isFull = 1 then { f with isFull := 0 } else f)

/-! ## Readers and the handler -/

/-- A call of `_serial_int_rx` that has not returned, with what it has written to `data`. -/
structure RxCall where
  size : BitVec 32
  length : BitVec 32
  data : List (BitVec 8)
  deriving DecidableEq

/-- The queue `φ` with the calls of the threads that read it. -/
structure SerialPort (φ : Type) where
  fifo : φ
  calls : ℕ → Option RxCall
  /-- the bytes that were read, in the order they were -/
  delivered : List (BitVec 8)
  /-- the results of the calls that have returned, oldest first -/
  results : List (ℕ × BitVec 32 × List (BitVec 8))

inductive SerialEvent
  /-- the handler runs with these characters pending -/
  | isr (pending : List (BitVec 8))
  /-- the thread calls `_serial_int_rx` -/
  | call (t : ℕ) (length : BitVec 32)
  /-- the thread makes the next round of its call -/
  | round (t : ℕ)

namespace SerialPort

variable {φ ψ : Type}

def start (f : φ) : SerialPort φ :=
  ⟨f, fun _ => none, [], []⟩

/-- A call returns `size - length`. -/
def ret (t : ℕ) (c : RxCall) (s : SerialPort φ) : SerialPort φ :=
  { s with
    calls := Function.update s.calls t none
    results := s.results ++ [(t, c.size - c.length, c.data)] }

/-- One event, with the queue worked on by `isr` and `round`. -/
def step (isr : List (BitVec 8) → φ → φ) (round : φ → Option (BitVec 8 × φ))
    (s : SerialPort φ) : SerialEvent → Option (SerialPort φ)
  | .isr pending => some { s with fifo := isr pending s.fifo }
  | .call t length =>
    match s.calls t with
    | some _ => none
    | none => some { s with calls := Function.update s.calls t (some ⟨length, length, []⟩) }
  | .round t =>
    match s.calls t with
    | none => none
    | some c =>
      if c.length = 0 then some (s.ret t c)
      else
        match round s.fifo with
        | none => some (s.ret t c)
        | some (ch, f) =>
          some { s with
            fifo := f
            calls := Function.update s.calls t
              (some { c with length := c.length - 1, data := c.data ++ [ch] })
            delivered := s.delivered ++ [ch] }

/-- Two ports whose queues are related and that have seen the same calls. -/
structure Sim (R : φ → ψ → Prop) (s : SerialPort φ) (a : SerialPort ψ) : Prop where
  fifo : R s.fifo a.fifo
  calls : s.calls = a.calls
  delivered : s.delivered = a.delivered
  results : s.results = a.results

section Simulation

variable {R : φ → ψ → Prop} {isr : List (BitVec 8) → φ → φ}
  {round : φ → Option (BitVec 8 × φ)} {isr' : List (BitVec 8) → ψ → ψ}
  {round' : ψ → Option (BitVec 8 × ψ)} {s s' : SerialPort φ} {a : SerialPort ψ}

theorem Sim.ret (h : Sim R s a) (t : ℕ) (c : RxCall) : Sim R (s.ret t c) (a.ret t c) := by
  constructor
  · exact h.fifo
  · simp [SerialPort.ret, h.calls]
  · exact h.delivered
  · simp [SerialPort.ret, h.results]

/-- Queues that are related step by step give the same events the same effect. -/
theorem Sim.step (hisr : ∀ pending f g, R f g → R (isr pending f) (isr' pending g))
    (hempty : ∀ f g, R f g → round f = none → round' g = none)
    (hround : ∀ f g ch f₁, R f g → round f = some (ch, f₁) →
      ∃ g₁, round' g = some (ch, g₁) ∧ R f₁ g₁)
    (h : Sim R s a) {e : SerialEvent} (hs : SerialPort.step isr round s e = some s') :
    ∃ a', SerialPort.step isr' round' a e = some a' ∧ Sim R s' a' := by
  cases e with
  | isr pending =>
      obtain rfl := Option.some.inj hs
      exact ⟨_, rfl, hisr pending _ _ h.fifo, h.calls, h.delivered, h.results⟩
  | call t length =>
      simp only [SerialPort.step] at hs ⊢
      rw [← h.calls]
      split at hs
      · cases hs
      · next hfree =>
        obtain rfl := Option.some.inj hs
        exact ⟨_, rfl, h.fifo, by simp [h.calls], h.delivered, h.results⟩
  | round t =>
      simp only [SerialPort.step] at hs ⊢
      rw [← h.calls]
      split at hs
      · cases hs
      · next c hc =>
        split at hs
        · next hzero =>
          obtain rfl := Option.some.inj hs
          rw [if_pos hzero]
          exact ⟨_, rfl, h.ret t c⟩
        · next hlength =>
          rw [if_neg hlength]
          split at hs
          · next hnone =>
            obtain rfl := Option.some.inj hs
            rw [hempty _ _ h.fifo hnone]
            exact ⟨_, rfl, h.ret t c⟩
          · next ch f hsome =>
            obtain rfl := Option.some.inj hs
            obtain ⟨g, hg, hR⟩ := hround _ _ _ _ h.fifo hsome
            rw [hg]
            exact ⟨_, rfl, hR, by simp [h.calls], by simp [h.delivered], h.results⟩

theorem Sim.run (hisr : ∀ pending f g, R f g → R (isr pending f) (isr' pending g))
    (hempty : ∀ f g, R f g → round f = none → round' g = none)
    (hround : ∀ f g ch f₁, R f g → round f = some (ch, f₁) →
      ∃ g₁, round' g = some (ch, g₁) ∧ R f₁ g₁)
    (h : Sim R s a) {es : List SerialEvent}
    (hs : Runs.run (SerialPort.step isr round) s es = some s') :
    ∃ a', Runs.run (SerialPort.step isr' round') a es = some a' ∧ Sim R s' a' := by
  induction es generalizing s a with
  | nil =>
      obtain rfl : s = s' := by simpa [Runs.run] using hs
      exact ⟨a, rfl, h⟩
  | cons e es ih =>
      obtain ⟨s₁, hstep, hrest⟩ := Option.bind_eq_some_iff.mp hs
      obtain ⟨a₁, ha, hsim⟩ := h.step hisr hempty hround hstep
      obtain ⟨a', hrun, hsim'⟩ := ih hsim hrest
      exact ⟨a', Option.bind_eq_some_iff.mpr ⟨a₁, ha, hrun⟩, hsim'⟩

end Simulation

end SerialPort

/-- The serial port of the code. -/
def serialRun (es : List SerialEvent) : Option (SerialPort RxFifo) :=
  Runs.run (SerialPort.step rtHwSerialIsr serialIntRxRound) (.start rxFifoInit) es

/-- The same events on a queue of capacity `UART_BUF_SIZE - 1` that drops its oldest byte. -/
def queueRun (es : List SerialEvent) : Option (SerialPort (DropOldest (BitVec 8))) :=
  Runs.run (SerialPort.step (DropOldest.putAll (UART_BUF_SIZE - 1)) DropOldest.get)
    (.start .empty) es

/-! ## The ring -/

/-- The ring holds `count` bytes, and the flag is set only when it is full. -/
structure RxFifo.Valid (f : RxFifo) (count : ℕ) : Prop where
  ring : RingBuffer.Valid UART_BUF_SIZE f.getIndex f.putIndex count
  count_lt : count < UART_BUF_SIZE
  flag : f.isFull = 0 ∨ (f.isFull = 1 ∧ count = UART_BUF_SIZE - 1)

/-- The queue in the ring and the queue that is expected. -/
structure RxFifo.Holds (f : RxFifo) (l : DropOldest (BitVec 8)) : Prop where
  fair : l.Fair (UART_BUF_SIZE - 1)
  valid : f.Valid l.queue.length
  contents : RingBuffer.contents UART_BUF_SIZE f.buffer f.getIndex l.queue.length = l.queue

namespace RxFifo

variable {f f' : RxFifo} {l : DropOldest (BitVec 8)} {ch : BitVec 8} {count : ℕ}

theorem stepIndex_eq {i : ℕ} (h : i < UART_BUF_SIZE) :
    stepIndex i = RingBuffer.next UART_BUF_SIZE i := by
  unfold UART_BUF_SIZE at h
  have hmod : (i + 1) % 2 ^ 16 = i + 1 := by omega
  unfold stepIndex RingBuffer.next
  rw [hmod]

theorem Valid.put_lt (h : f.Valid count) : f.putIndex < UART_BUF_SIZE :=
  h.ring.back_lt

/-- The index of the next character meets `get_index` exactly when 15 bytes are stored. -/
theorem Valid.next_eq_iff (h : f.Valid count) :
    RingBuffer.next UART_BUF_SIZE f.putIndex = f.getIndex ↔ count = UART_BUF_SIZE - 1 := by
  have hget := h.ring.front_lt
  have hlt := h.count_lt
  rw [RingBuffer.next_eq_mod h.put_lt, h.ring.back_eq]
  unfold UART_BUF_SIZE at *
  omega

/-- A character on a ring that is not full. -/
theorem Valid.store (h : f.Valid count) (hroom : count ≠ UART_BUF_SIZE - 1) (ch : BitVec 8) :
    (storeChar ch f).Valid (count + 1) ∧ (storeChar ch f).getIndex = f.getIndex ∧
      (storeChar ch f).buffer = Function.update f.buffer f.putIndex ch := by
  have hne := mt h.next_eq_iff.mp hroom
  have hlt := h.count_lt
  have hstore : storeChar ch f = { f with
      buffer := Function.update f.buffer f.putIndex ch
      putIndex := RingBuffer.next UART_BUF_SIZE f.putIndex } := by
    unfold storeChar
    dsimp only
    rw [stepIndex_eq h.put_lt, if_neg hne]
  rw [hstore]
  refine ⟨⟨h.ring.push (Nat.ne_of_lt hlt), by omega, ?_⟩, rfl, rfl⟩
  rcases h.flag with hflag | ⟨-, hfull⟩
  · exact .inl hflag
  · exact absurd hfull hroom

/-- A character on a full ring takes the place of the oldest one. -/
theorem Valid.overwrite (h : f.Valid (UART_BUF_SIZE - 1)) (ch : BitVec 8) :
    (storeChar ch f).Valid (UART_BUF_SIZE - 1) ∧
      (storeChar ch f).getIndex = RingBuffer.next UART_BUF_SIZE f.getIndex ∧
      (storeChar ch f).buffer = Function.update f.buffer f.putIndex ch := by
  have heq := h.next_eq_iff.mpr rfl
  have hstore : storeChar ch f =
      ⟨Function.update f.buffer f.putIndex ch, RingBuffer.next UART_BUF_SIZE f.putIndex,
        RingBuffer.next UART_BUF_SIZE f.getIndex, 1⟩ := by
    unfold storeChar
    dsimp only
    rw [stepIndex_eq h.put_lt, if_pos heq, stepIndex_eq h.ring.front_lt]
  rw [hstore]
  have hfull : RingBuffer.Valid UART_BUF_SIZE f.getIndex
      (RingBuffer.next UART_BUF_SIZE f.putIndex) (UART_BUF_SIZE - 1 + 1) :=
    h.ring.push (by decide)
  exact ⟨⟨hfull.pop, by decide, .inr ⟨rfl, rfl⟩⟩, rfl, rfl⟩

namespace Holds

theorem init : rxFifoInit.Holds .empty :=
  ⟨.empty _, ⟨RingBuffer.valid_empty (by decide), by decide, .inl rfl⟩, rfl⟩

theorem store (h : f.Holds l) (ch : BitVec 8) :
    (storeChar ch f).Holds (l.put (UART_BUF_SIZE - 1) ch) := by
  have hfair := h.fair.put ch
  have hfront := h.valid.ring.front_lt
  have hpush := RingBuffer.contents_push f.buffer ch hfront h.valid.count_lt
  rw [← h.valid.ring.back_eq, h.contents] at hpush
  by_cases hfull : l.queue.length = UART_BUF_SIZE - 1
  · have hqueue := DropOldest.queue_put_of_full (x := ch) h.fair.first_le hfull (by decide)
    have hlength : (l.put (UART_BUF_SIZE - 1) ch).queue.length = UART_BUF_SIZE - 1 := by
      rw [hqueue, List.length_append, List.length_tail, hfull, List.length_singleton]
      decide
    have hvalid := h.valid
    rw [hfull] at hvalid
    obtain ⟨hvalid', hget, hbuffer⟩ := hvalid.overwrite ch
    refine ⟨hfair, by rwa [hlength], ?_⟩
    have htail := congrArg List.tail hpush
    rw [RingBuffer.contents_pop, List.tail_cons] at htail
    rw [hlength, hget, hbuffer, hqueue, ← hfull, htail, List.tail_append_of_ne_nil]
    intro hnil
    rw [hnil] at hfull
    cases hfull
  · have hqueue := DropOldest.queue_put_of_ne (x := ch) h.fair.first_le hfull
    obtain ⟨hvalid', hget, hbuffer⟩ := h.valid.store hfull ch
    have hlength : (l.put (UART_BUF_SIZE - 1) ch).queue.length = l.queue.length + 1 := by
      rw [hqueue, List.length_append, List.length_singleton]
    refine ⟨hfair, by rwa [hlength], ?_⟩
    rw [hlength, hget, hbuffer, hpush, hqueue]

theorem isr (h : f.Holds l) (pending : List (BitVec 8)) :
    (rtHwSerialIsr pending f).Holds (DropOldest.putAll (UART_BUF_SIZE - 1) pending l) := by
  induction pending generalizing f l with
  | nil => exact h
  | cons ch pending ih => exact ih (h.store ch)

/-- The test of `_serial_int_rx` tells an empty ring from a full one. -/
theorem round_eq_none_iff (h : f.Holds l) : serialIntRxRound f = none ↔ l.queue = [] := by
  have hget := h.valid.ring.front_lt
  have hput := h.valid.ring.back_eq
  have hlt := h.valid.count_lt
  have hzero : l.queue = [] ↔ f.getIndex = f.putIndex ∧ f.isFull = 0 := by
    rw [← List.length_eq_zero_iff]
    unfold UART_BUF_SIZE at hget hput hlt
    constructor
    · intro hempty
      refine ⟨by omega, ?_⟩
      rcases h.valid.flag with hflag | ⟨-, hfull⟩
      · exact hflag
      · rw [hempty] at hfull
        cases hfull
    · rintro ⟨hsame, -⟩
      omega
  rw [hzero]
  unfold serialIntRxRound
  split
  · next hnone => simp [hnone]
  · next hsome => simp [hsome]

theorem round (h : f.Holds l) (hs : serialIntRxRound f = some (ch, f')) :
    ∃ l', l.get = some (ch, l') ∧ f'.Holds l' := by
  have hne : l.queue ≠ [] := by
    intro hnil
    rw [h.round_eq_none_iff.mpr hnil] at hs
    cases hs
  cases hget : l.get with
  | none => exact absurd (DropOldest.queue_eq_nil_iff.mpr hget) hne
  | some p =>
      obtain ⟨x, l'⟩ := p
      obtain ⟨hqueue, -, -, -⟩ := DropOldest.get_eq_some hget
      have hlength : l.queue.length = l'.queue.length + 1 := by simp [hqueue]
      have hcontents := h.contents
      have hvalid := h.valid
      rw [hlength] at hcontents hvalid
      rw [RingBuffer.contents_pop, hqueue] at hcontents
      obtain ⟨hx, hrest⟩ := List.cons.inj hcontents
      unfold serialIntRxRound at hs
      split at hs
      · cases hs
      · obtain ⟨rfl, rfl⟩ := Prod.mk.inj (Option.some.inj hs)
        rw [← hx]
        refine ⟨l', rfl, h.fair.get hget, ?_, ?_⟩
        · have hpop := hvalid.ring.pop
          rw [← stepIndex_eq hvalid.ring.front_lt] at hpop
          have hlt := hvalid.count_lt
          split
          · exact ⟨hpop, by omega, .inl rfl⟩
          · next hflag =>
            exact ⟨hpop, by omega, .inl (hvalid.flag.resolve_right fun hfull => hflag hfull.1)⟩
        · rw [← stepIndex_eq hvalid.ring.front_lt] at hrest
          split <;> exact hrest

end Holds

end RxFifo

/-! ## The runs -/

/-- All characters that arrive in a run. -/
def arrivals : List SerialEvent → List (BitVec 8)
  | [] => []
  | .isr pending :: es => pending ++ arrivals es
  | _ :: es => arrivals es

section Runs

variable {es : List SerialEvent} {a a' : SerialPort (DropOldest (BitVec 8))}

/-- The log of a run holds what has arrived, and what was read is looked up in it. -/
theorem queue_log (hfair : a.fifo.Fair (UART_BUF_SIZE - 1))
    (hread : a.fifo.delivered = a.delivered.map some)
    (hs : Runs.run (SerialPort.step (DropOldest.putAll (UART_BUF_SIZE - 1)) DropOldest.get) a es =
      some a') :
    a'.fifo.arrived = a.fifo.arrived ++ arrivals es ∧
      a'.fifo.delivered = a'.delivered.map some := by
  induction es generalizing a with
  | nil =>
      obtain rfl : a = a' := by simpa [Runs.run] using hs
      exact ⟨by simp [arrivals], hread⟩
  | cons e es ih =>
      obtain ⟨a₁, hstep, hrest⟩ := Option.bind_eq_some_iff.mp hs
      have hquiet : a₁.fifo = a.fifo → a₁.delivered = a.delivered →
          a'.fifo.arrived = a.fifo.arrived ++ arrivals es ∧
            a'.fifo.delivered = a'.delivered.map some := by
        intro hfifo hsame
        rw [← hfifo]
        apply ih (a := a₁)
        · rwa [hfifo]
        · rw [hfifo, hsame, hread]
        · exact hrest
      cases e with
      | isr pending =>
          obtain rfl := Option.some.inj hstep
          have hnext := ih (hfair.putAll pending)
            ((DropOldest.delivered_putAll hfair pending).trans hread) hrest
          refine ⟨?_, hnext.2⟩
          rw [hnext.1]
          simp [arrivals, DropOldest.arrived_putAll]
      | call t length =>
          simp only [SerialPort.step] at hstep
          split at hstep
          · cases hstep
          · have heq := Option.some.inj hstep
            exact hquiet (by rw [← heq]) (by rw [← heq])
      | round t =>
          simp only [SerialPort.step] at hstep
          split at hstep
          · cases hstep
          · split at hstep
            · have heq := Option.some.inj hstep
              exact hquiet (by rw [← heq]; rfl) (by rw [← heq]; rfl)
            · split at hstep
              · have heq := Option.some.inj hstep
                exact hquiet (by rw [← heq]; rfl) (by rw [← heq]; rfl)
              · next ch l hget =>
                obtain rfl := Option.some.inj hstep
                have harrived := (DropOldest.get_eq_some hget).2.1
                have hnext := ih (hfair.get hget) ?_ hrest
                · refine ⟨?_, hnext.2⟩
                  rw [hnext.1]
                  exact congrArg (· ++ arrivals es) harrived
                · rw [DropOldest.delivered_get hget, hread]
                  simp

end Runs

/-- Whatever the handler and the readers do, the bytes read are those of a queue of
capacity 15 that drops its oldest byte. -/
theorem serialRun_refines {es : List SerialEvent} {s : SerialPort RxFifo}
    (h : serialRun es = some s) :
    s.fifo.putIndex < UART_BUF_SIZE ∧ s.fifo.getIndex < UART_BUF_SIZE ∧
      ∃ a, queueRun es = some a ∧ s.calls = a.calls ∧ s.delivered = a.delivered ∧
        s.results = a.results ∧ (serialIntRxRound s.fifo = none ↔ a.fifo.queue = []) ∧
        a.fifo.Fair (UART_BUF_SIZE - 1) ∧ a.fifo.arrived = arrivals es ∧
        a.fifo.delivered = s.delivered.map some := by
  have hstart : SerialPort.Sim RxFifo.Holds (.start rxFifoInit) (.start .empty) :=
    ⟨.init, rfl, rfl, rfl⟩
  obtain ⟨a, hrun, hsim⟩ := hstart.run (fun pending _ _ hf => hf.isr pending)
    (fun _ _ hf hnone => DropOldest.queue_eq_nil_iff.mp (hf.round_eq_none_iff.mp hnone))
    (fun _ _ _ _ hf hsome => hf.round hsome) h
  have hlog := queue_log (a := .start .empty) (.empty _) rfl hrun
  refine ⟨hsim.fifo.valid.ring.back_lt, hsim.fifo.valid.ring.front_lt, a, hrun, hsim.calls,
    hsim.delivered, hsim.results, hsim.fifo.round_eq_none_iff, hsim.fifo.fair, ?_, ?_⟩
  · simpa [SerialPort.start, DropOldest.empty] using hlog.1
  · rw [hlog.2, hsim.delivered]

/-- Seventeen characters arrive and three are read: the first two are lost. -/
theorem serialRun_overflow :
    ∃ s, serialRun [.isr [1, 2, 3, 4, 5, 6, 7, 8, 9, 10, 11, 12, 13, 14, 15, 16, 17], .call 0 3,
        .round 0, .round 0, .round 0, .round 0] = some s ∧
      s.delivered = [3, 4, 5] ∧ s.fifo.putIndex < UART_BUF_SIZE := by
  obtain ⟨s, hs, hread⟩ := Runs.exists_of_any
    (show (serialRun [.isr [1, 2, 3, 4, 5, 6, 7, 8, 9, 10, 11, 12, 13, 14, 15, 16, 17],
        .call 0 3, .round 0, .round 0, .round 0, .round 0]).any
      (fun s => s.delivered = [3, 4, 5]) = true by decide +kernel)
  exact ⟨s, hs, of_decide_eq_true hread, (serialRun_refines hs).1⟩

end LuojiOs
