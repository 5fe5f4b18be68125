import LuojiOs.Scheduler.Still
import LuojiOs.Support.RingBuffer

/-!
# The ring of a mailbox

In every run whatsoever the values that receives have taken from a mailbox, followed
by those in its ring, are the values that sends have stored, in that order.  Only the
pieces of code that end the loops of `rt_mb_send_wait` and `rt_mb_recv` touch the
ring, and each does so with interrupts disabled right after its own test, so that the
interleaving of the calls does not matter.
-/

namespace LuojiOs

open CircularList RingBuffer

/-! ## Reading the trace -/

/-- The values whose sends passed the test of `mb->entry`, the oldest one first. -/
def sentValues (m : ℕ) : List Obs → List (BitVec 32)
  | [] => []
  | .sent m' v :: tr => if m' = m then sentValues m tr ++ [v] else sentValues m tr
  | _ :: tr => sentValues m tr

/-- The values that receives have taken, the oldest one first. -/
def receivedValues (m : ℕ) : List Obs → List (BitVec 32)
  | [] => []
  | .received m' v :: tr => if m' = m then receivedValues m tr ++ [v] else receivedValues m tr
  | _ :: tr => receivedValues m tr

/-- The record of a value that enters or leaves a ring. -/
def Obs.isRing : Obs → Bool
  | .sent .. | .received .. => true
  | _ => false

theorem values_of_not_isRing {o : Obs} (ho : o.isRing = false) (m : ℕ) (tr : List Obs) :
    sentValues m (o :: tr) = sentValues m tr ∧
      receivedValues m (o :: tr) = receivedValues m tr := by
  cases o <;> simp_all [Obs.isRing, sentValues, receivedValues]

/-! ## One ring -/

/-- The values in the ring, in the order in which they will be received. -/
def Mailbox.values (x : Mailbox) : List (BitVec 32) :=
  contents x.size.toNat x.msgPool x.outOffset.toNat x.entry.toNat

/-- The offsets and the number of entries of a mailbox fit together. -/
def Mailbox.Valid (x : Mailbox) : Prop :=
  RingBuffer.Valid x.size.toNat x.outOffset.toNat x.inOffset.toNat x.entry.toNat

theorem advance_toNat {offset size : BitVec 16} (h : offset.toNat < size.toNat) :
    (advance offset size).toNat = next size.toNat offset.toNat := by
  have hlt := size.isLt
  have hadd : (offset + 1).toNat = offset.toNat + 1 := by
    simp only [BitVec.toNat_add, BitVec.ofNat_eq_ofNat, BitVec.toNat_ofNat]
    omega
  unfold advance next
  simp only [BitVec.le_def, hadd]
  split
  · rfl
  · exact hadd

theorem Mailbox.entry_put {x : Mailbox} (hle : x.entry.toNat ≤ x.size.toNat)
    (hne : x.entry ≠ x.size) (value : BitVec 32) :
    x.entry.toNat < x.size.toNat ∧ (x.put value).entry.toNat = x.entry.toNat + 1 := by
  have hlt : x.entry.toNat < x.size.toNat :=
    Nat.lt_of_le_of_ne hle fun he => hne (BitVec.eq_of_toNat_eq he)
  have hsize := x.size.isLt
  refine ⟨hlt, ?_⟩
  simp only [Mailbox.put, BitVec.toNat_add, BitVec.ofNat_eq_ofNat, BitVec.toNat_ofNat]
  omega

theorem Mailbox.entry_take {x : Mailbox} (hne : x.entry ≠ 0) :
    x.entry.toNat = x.take.entry.toNat + 1 := by
  have hpos : x.entry.toNat ≠ 0 := fun he => hne (BitVec.eq_of_toNat_eq (by simpa using he))
  have hlt := x.entry.isLt
  simp only [Mailbox.take, BitVec.toNat_sub, BitVec.ofNat_eq_ofNat, BitVec.toNat_ofNat]
  omega

theorem Mailbox.Valid.put {x : Mailbox} (h : x.Valid) (hne : x.entry ≠ x.size)
    (value : BitVec 32) :
    (x.put value).Valid ∧ (x.put value).values = x.values ++ [value] := by
  obtain ⟨hroom, hentry⟩ := Mailbox.entry_put h.count_le hne value
  have hin : (x.put value).inOffset.toNat = next x.size.toNat x.inOffset.toNat :=
    advance_toNat h.back_lt
  constructor
  · unfold Mailbox.Valid
    rw [hentry, hin]
    exact RingBuffer.Valid.push h (Nat.ne_of_lt hroom)
  · unfold Mailbox.values
    rw [hentry]
    have hback : x.inOffset.toNat = (x.outOffset.toNat + x.entry.toNat) % x.size.toNat :=
      h.back_eq
    have hpush := contents_push x.msgPool value h.front_lt hroom
    rw [← hback] at hpush
    exact hpush

theorem Mailbox.Valid.take {x : Mailbox} (h : x.Valid) (hne : x.entry ≠ 0) :
    x.take.Valid ∧ x.values = x.msgPool x.outOffset.toNat :: x.take.values := by
  have hout : x.take.outOffset.toNat = next x.size.toNat x.outOffset.toNat :=
    advance_toNat h.front_lt
  have hentry := Mailbox.entry_take hne
  constructor
  · have hpop : RingBuffer.Valid x.size.toNat x.outOffset.toNat x.inOffset.toNat
        (x.take.entry.toNat + 1) := by
      rw [← hentry]
      exact h
    unfold Mailbox.Valid
    rw [hout]
    exact hpop.pop
  · unfold Mailbox.values
    rw [hentry, hout]
    exact contents_pop x.msgPool x.outOffset.toNat x.take.entry.toNat

/-! ## The invariant -/

/-- The mailbox `m` has its offsets in order and delivers what was sent. -/
structure RingInv (m : ℕ) (σ : Kernel) : Prop where
  unborn : σ.mb m = none → sentValues m σ.trace = [] ∧ receivedValues m σ.trace = []
  ring : ∀ x, σ.mb m = some x → 0 < x.size.toNat →
    x.Valid ∧ sentValues m σ.trace = receivedValues m σ.trace ++ x.values
  stored : ∀ t o, (σ.frame t).stored = some o → o.isRing = false

namespace RingInv

variable {m : ℕ} {σ₀ σ σ' : Kernel} {e : Event} {t : Tid}

theorem congr (h : RingInv m σ) (hf : σ'.frame = σ.frame) (hmb : σ'.mb = σ.mb)
    (htr : σ'.trace = σ.trace) : RingInv m σ' := by
  refine ⟨?_, ?_, ?_⟩
  · rw [hmb, htr]
    exact h.unborn
  · rw [hmb, htr]
    exact h.ring
  · rw [hf]
    exact h.stored

theorem still (h : RingInv m σ) (hs : Still σ σ') : RingInv m σ' :=
  h.congr hs.frame hs.mb hs.trace

theorem emit (h : RingInv m σ) {o : Obs} (ho : o.isRing = false) : RingInv m (σ.emit o) := by
  obtain ⟨hsent, hrecv⟩ := values_of_not_isRing ho m σ.trace
  refine ⟨?_, ?_, h.stored⟩
  · rw [show (σ.emit o).trace = o :: σ.trace from rfl, hsent, hrecv]
    exact h.unborn
  · rw [show (σ.emit o).trace = o :: σ.trace from rfl, hsent, hrecv]
    exact h.ring

theorem setSem (h : RingInv m σ) (s : ℕ) (x : Sem) : RingInv m (σ.setSem s x) :=
  h.congr rfl rfl rfl

theorem setError (h : RingInv m σ) (t : Tid) (r : ℤ) : RingInv m (σ.setError t r) :=
  h.congr rfl rfl rfl

theorem setFrame (h : RingInv m σ) {f : Frame} (hf : ∀ o, f.stored = some o → o.isRing = false) :
    RingInv m (σ.setFrame t f) := by
  refine ⟨h.unborn, h.ring, fun u o ho => ?_⟩
  by_cases hut : u = t
  · subst hut
    exact hf o (by simpa [Kernel.setFrame] using ho)
  · exact h.stored u o (by simpa [Kernel.setFrame, hut] using ho)

theorem enter (h : RingInv m σ) : RingInv m (σ.setFrame t (.schedule (.ret none))) :=
  h.setFrame (by simp [Frame.stored])

/-- Another mailbox changes. -/
theorem setMb_of_ne (h : RingInv m σ) {m' : ℕ} (hne : m' ≠ m) (x : Mailbox) :
    RingInv m (σ.setMb m' x) := by
  have hmb : (σ.setMb m' x).mb m = σ.mb m := by simp [Kernel.setMb, Ne.symm hne]
  refine ⟨?_, ?_, h.stored⟩
  · rw [hmb]
    exact h.unborn
  · rw [hmb]
    exact h.ring

theorem init (h : RingInv m σ) {m' : ℕ} (hm : σ.mb m' = none) (size : BitVec 32) :
    RingInv m (rtMbInit m' size σ) := by
  have h₁ : RingInv m { σ with tlinks := (σ.tlinks.init (.mbRecv m')).init (.mbSend m') } :=
    h.congr rfl rfl rfl
  by_cases hmm : m' = m
  · subst hmm
    refine ⟨fun hnone => ?_, fun x hx hpos => ?_, h.stored⟩
    · simp [rtMbInit, Kernel.setMb] at hnone
    · obtain ⟨hs, hr⟩ := h.unborn hm
      obtain rfl : _ = x := by simpa [rtMbInit, Kernel.setMb] using hx
      refine ⟨valid_empty hpos, ?_⟩
      change sentValues m' σ.trace = receivedValues m' σ.trace ++ _
      rw [hs, hr]
      rfl
  · exact h₁.setMb_of_ne hmm _

theorem put (h : RingInv m σ) {m' : ℕ} {x : Mailbox} (hx : σ.mb m' = some x)
    (hne : x.entry ≠ x.size) (value : BitVec 32) :
    RingInv m ((σ.setMb m' (x.put value)).emit (.sent m' value)) := by
  by_cases hmm : m' = m
  · subst hmm
    refine ⟨fun hnone => ?_, fun y hy hpos => ?_, h.stored⟩
    · simp [Kernel.emit, Kernel.setMb] at hnone
    · obtain rfl : x.put value = y := by simpa [Kernel.emit, Kernel.setMb] using hy
      obtain ⟨hv, hvals⟩ := h.ring x hx hpos
      obtain ⟨hv', hput⟩ := hv.put hne value
      refine ⟨hv', ?_⟩
      rw [hput]
      simp [Kernel.emit, Kernel.setMb, sentValues, receivedValues, hvals]
  · refine ⟨?_, ?_, h.stored⟩
    · simpa [Kernel.emit, Kernel.setMb, sentValues, receivedValues, hmm, Ne.symm hmm] using h.unborn
    · simpa [Kernel.emit, Kernel.setMb, sentValues, receivedValues, hmm, Ne.symm hmm] using h.ring

theorem take (h : RingInv m σ) {m' : ℕ} {x : Mailbox} (hx : σ.mb m' = some x)
    (hne : x.entry ≠ 0) :
    RingInv m ((σ.setMb m' x.take).emit (.received m' (x.msgPool x.outOffset.toNat))) := by
  by_cases hmm : m' = m
  · subst hmm
    refine ⟨fun hnone => ?_, fun y hy hpos => ?_, h.stored⟩
    · simp [Kernel.emit, Kernel.setMb] at hnone
    · obtain rfl : x.take = y := by simpa [Kernel.emit, Kernel.setMb] using hy
      obtain ⟨hv, hvals⟩ := h.ring x hx hpos
      obtain ⟨hv', htake⟩ := hv.take hne
      refine ⟨hv', ?_⟩
      rw [htake] at hvals
      simp [Kernel.emit, Kernel.setMb, sentValues, receivedValues, hvals]
  · refine ⟨?_, ?_, h.stored⟩
    · simpa [Kernel.emit, Kernel.setMb, sentValues, receivedValues, hmm, Ne.symm hmm] using h.unborn
    · simpa [Kernel.emit, Kernel.setMb, sentValues, receivedValues, hmm, Ne.symm hmm] using h.ring

/-! ## Every act keeps the ring -/

theorem put_finish (h : RingInv m σ) {m' : ℕ} {x : Mailbox} {value : BitVec 32}
    {r : Kernel × Bool} (hx : σ.mb m' = some x) (hne : x.entry ≠ x.size)
    (hr : mbPut m' x value σ = some r) : RingInv m r.1 := by
  have hput := h.put hx hne value
  rcases mbPut_cases hr with ⟨-, rfl⟩ | ⟨u, -, -, rfl⟩
  · exact hput
  · exact (hput.emit rfl).still (still_rtThreadResume u _)

theorem take_finish (h : RingInv m σ) {m' : ℕ} {x : Mailbox} {r : Kernel × Bool}
    (hx : σ.mb m' = some x) (hne : x.entry ≠ 0) (hr : mbTake m' x σ = some r) :
    RingInv m r.1 := by
  have htake := h.take hx hne
  rcases mbTake_cases hr with ⟨-, rfl⟩ | ⟨u, -, -, rfl⟩
  · exact htake
  · exact (htake.emit rfl).still (still_wakeThread u _)

theorem finish {r : Kernel × Bool} (h : RingInv m r.1) {o : Obs} (ho : o.isRing = false) :
    RingInv m (finish t o r) := by
  obtain ⟨σ, b⟩ := r
  cases b with
  | false => exact h.emit ho
  | true =>
      refine h.setFrame fun o' ho' => ?_
      obtain rfl : o = o' := by simpa [Frame.stored] using ho'
      exact ho

theorem park (h : RingInv m σ) {w : TNode} {k : After} (hk : k.head = some w) :
    RingInv m (park t w k σ) := by
  have hsus : RingInv m (suspendOn w t (σ.setError t RT_EOK)) :=
    RingInv.emit (((h.setError t RT_EOK).still (still_rtThreadSuspend t .suspend _)).still
      (still_tlinks _ _)) rfl
  have hst : ∀ o, (Frame.schedule k).stored = some o → o.isRing = false := by
    simp [(stored_of_head hk).1]
  cases harm : k.arm with
  | none =>
      rw [park_of_not_arm harm]
      exact hsus.setFrame hst
  | some time =>
      rw [park_of_arm harm]
      have harmed : RingInv m (armTimer t time (suspendOn w t (σ.setError t RT_EOK))) :=
        hsus.congr rfl rfl rfl
      exact harmed.setFrame hst

theorem turn (h : RingInv m σ) {k : After} (hT : Turn t k σ σ') : RingInv m σ' := by
  cases hT with
  | sendFull hx hfull => exact (h.setError t _).emit rfl
  | sendPark d hx hfull htime => exact h.park rfl
  | send hx hne hput => exact (h.put_finish hx hne hput).finish rfl
  | recvEmpty hx hempty => exact ((h.setError t _).setError t _).emit rfl
  | recvPark d hx hempty htime => exact h.park rfl
  | recv hx hne htake => exact (h.take_finish hx hne htake).finish rfl

theorem isRing_of_prompt {o : Obs} (ho : o.prompt = true) : o.isRing = false := by
  cases o <;> simp_all [Obs.prompt, Obs.isRing]

theorem isRing_of_retObs {k : After} {r : ℤ} {o : Obs} (ho : k.retObs t r = some o) :
    o.isRing = false := by
  cases k <;> simp_all [After.retObs] <;> subst ho <;> rfl

theorem rerun (h : RingInv m σ) (t : Tid) (w : TNode) : RingInv m (rerun t w σ) :=
  RingInv.setFrame (h.emit rfl) (by simp [Frame.stored])

theorem object (h : RingInv m σ) (ha : ObjectAct σ₀ e σ σ') : RingInv m σ' := by
  cases ha with
  | semInit he hs => exact RingInv.emit ((h.still (still_tlinks _ _)).setSem _ _) rfl
  | mbInit he hm => exact h.init hm _
  | semTaken he hx hpos => exact ((h.setSem _ _).emit rfl).emit rfl
  | semRefused he hx hzero => exact h.emit rfl
  | report ho => exact h.emit (isRing_of_prompt ho)

/-- `rt_schedule()` called by a thread, whose frame was `schedule k` or its own code. -/
theorem schedule (h : RingInv m σ) {c : Tid} {k : After}
    (hk : e = .goOn ∧ σ.frame c = .schedule k ∨
      e = .call .rtSchedule ∧ canCall σ = true ∧ k = .ret none)
    (hs : rtSchedule (σ.setFrame c (.after k)) = some σ') : RingInv m σ' := by
  refine RingInv.still (h.setFrame fun o ho => ?_) (schedOnly_rtSchedule hs).still
  rcases hk with ⟨-, hf⟩ | ⟨-, -, rfl⟩
  · refine h.stored c o ?_
    rw [hf]
    cases k <;> exact ho
  · cases ho

theorem join (h : RingInv m σ) (name : String) (stackSize priority runtick : BitVec 32)
    (mallocOk stackOk : Bool) :
    RingInv m (threadJoinInit name stackSize priority runtick mallocOk stackOk σ).1 := by
  rcases threadJoinInit_joined name stackSize priority runtick mallocOk stackOk σ with
    heq | hj
  · rw [heq]
    exact h
  · have h₁ : RingInv m (σ.setFrame σ.nextTid .run) := h.setFrame (by simp [Frame.stored])
    exact h₁.congr hj.frame hj.mb hj.trace

theorem act (h : RingInv m σ) (ha : Act σ₀ e σ σ') : RingInv m σ' := by
  cases ha with
  | clock ha => exact h.still ha.still
  | object ha => exact h.object ha
  | join he => exact h.join _ _ _ _ _ _
  | start he hc hs => exact h.still (still_threadStart hs)
  | schedule hc hk hs => exact h.schedule hk hs
  | preempt he hs => exact h.still (schedOnly_rtSchedule hs).still
  | @suspend t s he hcall ht hs =>
      have hsus := h.still (still_rtThreadSuspend t s σ₀)
      unfold suspendDirect
      split
      · exact hsus.setFrame (by simp [Frame.stored])
      · exact hsus
  | resume he hs => exact h.still (still_wakeThread _ _)
  | @sleep t tick _ he hc hcall hs =>
      simp only [rtThreadSleep, hc, Option.some.injEq] at hs
      subst hs
      have h₁ : RingInv m (σ₀.setInitTick t tick) := h.congr rfl rfl rfl
      have h₂ := h₁.still (still_rtThreadSuspend t .sleep _)
      exact (h₂.congr rfl rfl rfl : RingInv m (rtTimerStart (.ofThread t) _)).enter
  | exit he hc hcall => exact (h.still (still_closeThread _ σ₀)).enter
  | enter hc hcall => exact h.enter
  | kill he ht hc => exact h.still (still_closeThread _ σ₀)
  | killSelf he hcall hfind hc hs =>
      exact RingInv.still ((h.still (still_closeThread _ σ₀)).setFrame (by simp [Frame.stored]))
        (schedOnly_rtSchedule hs).still
  | clean he hs => exact h.still (still_cleanDeadFrom hs)
  | @expire fuel k t _ he hdue hfunc =>
      have h₁ : RingInv m ((unlinkThread t (Kernel.setError t (-RT_ETIMEOUT)
          { σ with timerLinks := σ.timerLinks.remove (.timer k) }))) := h.congr rfl rfl rfl
      have h₂ := h₁.still (schedOnly_rtScheduleInsertThread t _).still
      exact RingInv.still (h₂.emit (o := .expired t) rfl) (still_flagOff k _)
  | semPark he hc hcall hw => exact h.park rfl
  | release he hr =>
      obtain ⟨x, -, ⟨-, rfl⟩ | ⟨u, -, -, rfl⟩⟩ := rtSemRelease_cases hr
      · exact (h.setSem _ _).emit rfl
      · exact ((h.emit rfl).emit rfl).still (still_rtThreadResume u _)
  | post he hx hne hr => exact h.put_finish hx hne hr
  | turn hc hcall hb hk hT => exact h.turn hT
  | rerunTurn he hc hf hk hw herr hb hT => exact (h.rerun _ _).turn hT
  | rerunRet he hc hf hw ho herr => exact (h.rerun _ _).emit (isRing_of_retObs ho)
  | @returned t r he hc hf =>
      have hrun : RingInv m (σ₀.setFrame t .run) := h.setFrame (by simp [Frame.stored])
      cases r with
      | none => exact hrun
      | some o => exact hrun.emit (h.stored t o (by rw [hf]; rfl))

end RingInv

theorem ringInv_threadInit (m : ℕ) (tick : BitVec 32) : RingInv m (threadInit tick) where
  unborn _ := ⟨rfl, rfl⟩
  ring x hx := by simp [threadInit] at hx
  stored t o ho := by simp [threadInit, Frame.stored] at ho

theorem ringInv_of_reachable {guard : Kernel → Event → Prop} {σ : Kernel}
    (h : Reachable guard σ) (m : ℕ) : RingInv m σ := by
  refine Runs.Reach.invariant (P := RingInv m) ?_ ?_ h
  · rintro σ ⟨tick, rfl⟩
    exact ringInv_threadInit m tick
  · intro σ e σ' hinv _ hs
    exact step_preserves (fun _ _ h ha => h.act ha) hinv hs

/-- The mailbox `m` with `size` entries: its offsets are in order, and what was sent is
what was received, followed by what is still in the ring. -/
theorem mailbox_fifo {σ : Kernel} {m : ℕ} {x : Mailbox}
    (h : Reachable (fun _ _ => True) σ) (hx : σ.mb m = some x) (hsize : 0 < x.size.toNat) :
    x.entry.toNat ≤ x.size.toNat ∧ x.inOffset.toNat < x.size.toNat ∧
      x.outOffset.toNat < x.size.toNat ∧
      x.inOffset.toNat = (x.outOffset.toNat + x.entry.toNat) % x.size.toNat ∧
      receivedValues m σ.trace <+: sentValues m σ.trace ∧
      sentValues m σ.trace = receivedValues m σ.trace ++ x.values := by
  obtain ⟨hv, hvals⟩ := (ringInv_of_reachable h m).ring x hx hsize
  exact ⟨hv.count_le, hv.back_lt, hv.front_lt, hv.back_eq, ⟨x.values, hvals.symm⟩, hvals⟩

/-- A thread sends twice to a mailbox with one entry, so that it waits for a second
thread to receive. -/
def sendTwiceRun : List Event :=
  [.call (.rtMbInit 0 1), .call (.threadJoinInit "a" 1024 3 10 true true),
    .call (.threadJoinInit "b" 1024 5 10 true true), .threadStart,
    .call (.rtMbSendWait 0 7 0), .call (.rtMbSendWait 0 8 RT_WAITING_FOREVER), .goOn,
    .call (.rtMbRecv 0 5), .goOn, .goOn]

theorem mailbox_fifo_sendTwiceRun :
    ∃ σ x, runFrom 0 sendTwiceRun = some σ ∧ σ.mb 0 = some x ∧
      sentValues 0 σ.trace = [7, 8] ∧ receivedValues 0 σ.trace = [7] ∧
      receivedValues 0 σ.trace <+: sentValues 0 σ.trace ∧
      sentValues 0 σ.trace = receivedValues 0 σ.trace ++ x.values := by
  obtain ⟨σ, hσ, hok⟩ := Runs.exists_of_any
    (show (runFrom 0 sendTwiceRun).any (fun σ =>
      (σ.mb 0).any (fun x => 0 < x.size.toNat) ∧ sentValues 0 σ.trace = [7, 8] ∧
        receivedValues 0 σ.trace = [7]) = true by decide)
  obtain ⟨hmb, hsent, hrecv⟩ := of_decide_eq_true hok
  obtain ⟨x, hx, hsize⟩ := Runs.exists_of_any hmb
  obtain ⟨-, -, -, -, hpre, hvals⟩ :=
    mailbox_fifo (reachable_of_runFrom hσ) hx (of_decide_eq_true hsize)
  exact ⟨σ, x, hσ, hx, hsent, hrecv, hpre, hvals⟩

end LuojiOs
