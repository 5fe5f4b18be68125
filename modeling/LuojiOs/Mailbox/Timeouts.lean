import LuojiOs.Timer.Expiry
import Mathlib.Algebra.Order.Ring.Nat

/-!
# How long a mailbox call waits

`rt_mb_send_wait` and `rt_mb_recv` compute the time that is left after a wake-up in the
same words, `timeout -= tick_delta; if (timeout < 0) timeout = 0;`, but `timeout` is an
`int` in the one and an `unsigned int` in the other, where the test never holds.  A call
that is woken after its time is over and finds the mailbox unchanged shows the difference.
-/

namespace LuojiOs

open CircularList

/-! ## The two calls -/

/-- A mailbox call that waits for the mailbox to change. -/
inductive MbCall
  | send (m : ℕ) (value : BitVec 32)
  | recv (m : ℕ)

namespace MbCall

def call (c : MbCall) (timeout : BitVec 32) : Call :=
  match c with
  | send m value => .rtMbSendWait m value timeout
  | recv m => .rtMbRecv m timeout

def rest (c : MbCall) (orig timeout tickDelta : BitVec 32) : After :=
  match c with
  | send m value => .mbSend m value orig timeout tickDelta
  | recv m => .mbRecv m orig timeout tickDelta

/-- The condition of the `while` loop: the mailbox is full, or it is empty. -/
def blocked (c : MbCall) (σ : Kernel) : Bool :=
  match c with
  | send m _ => (σ.mb m).any fun x => x.entry = x.size
  | recv m => (σ.mb m).any fun x => x.entry = 0

/-- `timeout > 0` -/
def armed (c : MbCall) (timeout : BitVec 32) : Bool :=
  match c with
  | send .. => 0 < timeout.toInt
  | recv .. => 0 < timeout

def timeLeft (c : MbCall) (timeout tickDelta now : BitVec 32) : BitVec 32 :=
  match c with
  | send .. => sendTimeLeft timeout tickDelta now
  | recv .. => recvTimeLeft timeout tickDelta now

def loop (c : MbCall) (t : Tid) (orig timeout tickDelta : BitVec 32) (σ : Kernel) :
    Option Kernel :=
  match c with
  | send m value => mbSendLoop t m value orig timeout tickDelta σ
  | recv m => mbRecvLoop t m orig timeout tickDelta σ

end MbCall

/-- The thread is inside the loop of a mailbox call. -/
def Frame.inLoop : Frame → Bool
  | .schedule k | .after k => k.isLoop
  | _ => false

def Event.ticks : Event → ℕ
  | .tick _ => 1
  | _ => 0

/-- `σ` is reached `n` ticks after the thread `t` made the call `c` in `σ₀`, and the call
has not returned before. -/
inductive SinceCall (c : MbCall) (t : Tid) (timeout : BitVec 32) (σ₀ : Kernel) : ℕ → Kernel → Prop
  | call {σ : Kernel} (hs : step σ₀ (.call (c.call timeout)) = some σ) :
      SinceCall c t timeout σ₀ 0 σ
  | step {n : ℕ} {σ σ' : Kernel} {e : Event} (h : SinceCall c t timeout σ₀ n σ)
      (hin : (σ.frame t).inLoop = true) (hs : step σ e = some σ') :
      SinceCall c t timeout σ₀ (n + e.ticks) σ'

/-- The call goes on after a wake-up, and the mailbox is as it was. -/
structure WokenInVain (c : MbCall) (t : Tid) (σ : Kernel) : Prop where
  current : σ.currentThread = some t
  woken : ∃ k, σ.frame t = .after k ∧ k.isLoop = true
  error : σ.error t = RT_EOK
  blocked : c.blocked σ = true

/-- The time the call has armed the timer of its thread with, and zero when it has
returned. -/
def nextWait (t : Tid) (σ : Kernel) : ℕ :=
  match σ.frame t with
  | .schedule k => if k.isLoop then (σ.timer (.ofThread t)).initTick.toNat else 0
  | _ => 0

/-- What is expected of the wait that follows a wake-up `n` ticks after the call: it takes
the time that is left, the call has then waited no longer than its timeout, and sender and
receiver compute the same time. -/
structure WaitBounded (timeout : BitVec 32) (n left : ℕ) : Prop where
  rest : left = timeout.toNat - n
  total : left ≠ 0 → n + left ≤ timeout.toNat
  agree : ∀ start : BitVec 32, recvTimeLeft timeout start (start + BitVec.ofNat 32 n) =
    sendTimeLeft timeout start (start + BitVec.ofNat 32 n)

/-! ## What the other events leave alone -/

/-- The thread is inside a call. -/
def Frame.busy : Frame → Bool
  | .run | .suspended => false
  | _ => true

theorem Frame.busy_of_inLoop {f : Frame} (h : f.inLoop = true) : f.busy = true := by
  cases f <;> first | rfl | cases h

/-- What the act of an event `e` in the state `σ₀` leaves of the frame of `t`, of the
clock and of the counter of threads. -/
structure Steady (t : Tid) (σ₀ : Kernel) (e : Event) (σ σ' : Kernel) : Prop where
  nextTid : σ.nextTid ≤ σ'.nextTid
  systemTick : e.ticks = 0 → σ'.systemTick = σ.systemTick
  frame : t < σ.nextTid → (σ.frame t).busy = true →
    (e = .goOn → σ₀.currentThread ≠ some t) → σ'.frame t = σ.frame t

namespace Steady

variable {c t : Tid} {σ₀ σ σ₁ σ' : Kernel} {e : Event}

theorem trans (h : Steady t σ₀ e σ σ₁) (h' : Steady t σ₀ e σ₁ σ') : Steady t σ₀ e σ σ' where
  nextTid := Nat.le_trans h.nextTid h'.nextTid
  systemTick he := (h'.systemTick he).trans (h.systemTick he)
  frame ht hbusy hmine := by
    have hsame := h.frame ht hbusy hmine
    rw [← hsame] at hbusy ⊢
    exact h'.frame (Nat.lt_of_lt_of_le ht h.nextTid) hbusy hmine

/-- The frames stay. -/
theorem of_frame (hnext : σ'.nextTid = σ.nextTid) (htick : σ'.systemTick = σ.systemTick)
    (hframe : σ'.frame = σ.frame) : Steady t σ₀ e σ σ' where
  nextTid := Nat.le_of_eq hnext.symm
  systemTick _ := htick
  frame _ _ _ := by rw [hframe]

theorem of_only (ho : OnlyThread c σ σ') (hs : Still σ σ') : Steady t σ₀ e σ σ' :=
  of_frame ho.nextTid ho.systemTick hs.frame

theorem of_sched (h : SchedOnly σ σ') : Steady t σ₀ e σ σ' :=
  of_frame h.nextTid h.systemTick h.frame

/-- The current thread, which makes the event or is inside no call, is changed. -/
theorem of_current (hnext : σ'.nextTid = σ.nextTid) (htick : σ'.systemTick = σ.systemTick)
    (hframe : ∀ u, u ≠ c → σ'.frame u = σ.frame u)
    (hc : (σ.frame c).busy = false ∨ (e = .goOn ∧ σ₀.currentThread = some c)) :
    Steady t σ₀ e σ σ' where
  nextTid := Nat.le_of_eq hnext.symm
  systemTick _ := htick
  frame _ hbusy hmine := by
    apply hframe
    rintro rfl
    rcases hc with hfree | ⟨he, hcur⟩
    · rw [hbusy] at hfree
      cases hfree
    · exact hmine he hcur

end Steady

theorem not_busy_of_canCall {c : Tid} {σ : Kernel} (hcall : canCall σ = true)
    (hc : σ.currentThread = some c) : (σ.frame c).busy = false := by
  simp only [canCall, hc, decide_eq_true_eq] at hcall
  rcases hcall with hf | hf <;> rw [hf] <;> rfl

section Acts

variable {c t : Tid} {σ₀ σ σ' : Kernel} {e : Event}

theorem onlyThread_park (c : Tid) (w : TNode) (k : After) (σ : Kernel) :
    OnlyThread c σ (park c w k σ) := by
  have hsuspend := (onlyThread_setError c RT_EOK σ).trans
    (onlyThread_suspendOn w c (σ.setError c RT_EOK))
  cases harm : k.arm with
  | none =>
      rw [park_of_not_arm harm]
      exact hsuspend.trans (onlyThread_setFrame c _ _)
  | some time =>
      rw [park_of_arm harm]
      exact (hsuspend.trans (onlyThread_armTimer c time _)).trans (onlyThread_setFrame c _ _)

theorem put_keeps {m : ℕ} {x : Mailbox} {value : BitVec 32} {r : Kernel × Bool}
    (hr : mbPut m x value σ = some r) :
    r.1.nextTid = σ.nextTid ∧ r.1.systemTick = σ.systemTick ∧ r.1.frame = σ.frame := by
  rcases mbPut_cases hr with ⟨-, rfl⟩ | ⟨u, -, -, rfl⟩
  · exact ⟨rfl, rfl, rfl⟩
  · have ho := onlyThread_rtThreadResume u
      (((σ.setMb m (x.put value)).emit (.sent m value)).emit (.woke (.mbRecv m) u))
    exact ⟨ho.nextTid, ho.systemTick, frame_rtThreadResume u _⟩

theorem take_keeps {m : ℕ} {x : Mailbox} {r : Kernel × Bool} (hr : mbTake m x σ = some r) :
    r.1.nextTid = σ.nextTid ∧ r.1.systemTick = σ.systemTick ∧ r.1.frame = σ.frame := by
  rcases mbTake_cases hr with ⟨-, rfl⟩ | ⟨u, -, -, rfl⟩
  · exact ⟨rfl, rfl, rfl⟩
  · have ho := onlyThread_wakeThread u
      (((σ.setMb m x.take).emit (.received m (x.msgPool x.outOffset.toNat))).emit
        (.woke (.mbSend m) u))
    exact ⟨ho.nextTid, ho.systemTick, frame_wakeThread u _⟩

theorem finish_keeps {r : Kernel × Bool} (o : Obs)
    (h : r.1.nextTid = σ.nextTid ∧ r.1.systemTick = σ.systemTick ∧ r.1.frame = σ.frame) :
    (finish c o r).nextTid = σ.nextTid ∧ (finish c o r).systemTick = σ.systemTick ∧
      ∀ u, u ≠ c → (finish c o r).frame u = σ.frame u := by
  obtain ⟨σ₁, b⟩ := r
  obtain ⟨hnext, htick, hframe⟩ := h
  cases b with
  | false => exact ⟨hnext, htick, fun u _ => congrFun hframe u⟩
  | true =>
      refine ⟨hnext, htick, fun u hu => ?_⟩
      rw [← hframe]
      simp [finish, Kernel.setFrame, hu]

theorem turn_keeps {k : After} (hT : Turn c k σ σ') :
    σ'.nextTid = σ.nextTid ∧ σ'.systemTick = σ.systemTick ∧
      ∀ u, u ≠ c → σ'.frame u = σ.frame u := by
  cases hT with
  | sendFull hx hfull => exact ⟨rfl, rfl, fun _ _ => rfl⟩
  | @sendPark m x value orig timeout _ d _ hx hfull htime =>
      have ho := onlyThread_park c (.mbSend m) (.mbSend m value orig timeout d) σ
      exact ⟨ho.nextTid, ho.systemTick, ho.frame⟩
  | send hx hne hput => exact finish_keeps _ (put_keeps hput)
  | recvEmpty hx hempty => exact ⟨rfl, rfl, fun _ _ => rfl⟩
  | @recvPark m x orig timeout _ d _ hx hempty htime =>
      have ho := onlyThread_park c (.mbRecv m) (.mbRecv m orig timeout d) σ
      exact ⟨ho.nextTid, ho.systemTick, ho.frame⟩
  | recv hx hne htake => exact finish_keeps _ (take_keeps htake)

theorem Steady.clock (ha : ClockAct σ₀ e σ σ') : Steady t σ₀ e σ σ' := by
  have hframe := ha.still.frame
  cases ha with
  | timerInit he => exact .of_frame rfl rfl hframe
  | timerStart he => exact .of_frame rfl rfl hframe
  | @timerStop u he =>
      have hnext := (sameSched_rtTimerStop (.other u) σ₀).nextTid
      refine .of_frame hnext ?_ hframe
      unfold rtTimerStop
      split <;> rfl
  | tickIncrease he =>
      subst he
      exact ⟨Nat.le_refl _, fun hticks => absurd hticks Nat.one_ne_zero,
        fun _ _ _ => congrFun hframe t⟩
  | countDown he hc =>
      subst he
      refine ⟨?_, fun hticks => absurd hticks Nat.one_ne_zero, fun _ _ _ => congrFun hframe t⟩
      unfold countDown
      dsimp only
      split <;> exact Nat.le_refl _
  | @callback fuel k ops _ he hdue hfunc =>
      subst he
      have hunlink : SameSched σ { σ with timerLinks := σ.timerLinks.remove (.timer k) } :=
        ⟨rfl, rfl, rfl, rfl, rfl, rfl, rfl⟩
      have hsame : SameSched σ (fireCallback k ops σ) :=
        (hunlink.trans (sameSched_runTimerOps ops _)).trans (sameSched_setTimer k _ _)
      exact ⟨Nat.le_of_eq hsame.nextTid.symm, fun hticks => absurd hticks Nat.one_ne_zero,
        fun _ _ _ => congrFun hframe t⟩

theorem systemTick_threadJoinInit (name : String) (stackSize priority runtick : BitVec 32)
    (mallocOk stackOk : Bool) (σ : Kernel) :
    (threadJoinInit name stackSize priority runtick mallocOk stackOk σ).1.systemTick =
      σ.systemTick := by
  unfold threadJoinInit
  split
  · rfl
  · split
    · rfl
    · split
      · rfl
      · split
        · rfl
        · dsimp only
          split <;> rfl

theorem Steady.join (name : String) (stackSize priority runtick : BitVec 32)
    (mallocOk stackOk : Bool) (σ : Kernel) :
    Steady t σ₀ e σ (threadJoinInit name stackSize priority runtick mallocOk stackOk σ).1 := by
  have htick := systemTick_threadJoinInit name stackSize priority runtick mallocOk stackOk σ
  rcases threadJoinInit_joined name stackSize priority runtick mallocOk stackOk σ with
    heq | hjoined
  · rw [heq]
    exact .of_frame rfl rfl rfl
  · refine ⟨?_, fun _ => htick, fun ht _ _ => ?_⟩
    · rw [hjoined.nextTid]
      exact Nat.le_succ _
    · rw [hjoined.frame, Function.update_of_ne (Nat.ne_of_lt ht)]

theorem Steady.cleanDeadFrom {fuel : ℕ} {pos n : TNode}
    (hs : LuojiOs.cleanDeadFrom fuel pos n σ = some σ') : Steady t σ₀ e σ σ' := by
  induction fuel generalizing pos n σ with
  | zero => cases hs
  | succ fuel ih =>
      cases pos with
      | dead =>
          obtain rfl := Option.some.inj hs
          exact .of_frame rfl rfl rfl
      | thread t =>
          exact (Steady.of_frame rfl rfl rfl : Steady _ σ₀ e σ (cleanThread t σ)).trans (ih hs)
      | ready p | semWait s | mbRecv m | mbSend m => cases hs

/-- A thread that is inside a call goes on in it by its own steps only. -/
theorem Steady.act (ha : Act σ₀ e σ σ') : Steady t σ₀ e σ σ' := by
  cases ha with
  | clock ha => exact .clock ha
  | object ha => cases ha <;> exact .of_frame rfl rfl rfl
  | join he => exact .join _ _ _ _ _ _ _
  | start he hc hs =>
      obtain ⟨u, p, -, rfl⟩ := threadStart_cases hs
      have hsched := schedOnly_rtScheduleRemoveThread u σ₀
      exact .of_frame hsched.nextTid hsched.systemTick hsched.frame
  | @schedule c k _ hc hk hs =>
      have hsched := schedOnly_rtSchedule hs
      refine .of_current (c := c) hsched.nextTid hsched.systemTick (fun u hu => ?_) ?_
      · rw [hsched.frame]
        simp [Kernel.setFrame, hu]
      · rcases hk with ⟨he, -⟩ | ⟨-, hcall, -⟩
        · exact .inr ⟨he, hc⟩
        · exact .inl (not_busy_of_canCall hcall hc)
  | preempt he hs => exact .of_sched (schedOnly_rtSchedule hs)
  | @suspend u s he hcall ht hs =>
      have ho := onlyThread_rtThreadSuspend u s σ₀
      have hstill := still_rtThreadSuspend u s σ₀
      unfold suspendDirect
      split
      · next hc =>
        refine .of_current (c := u) ho.nextTid ho.systemTick (fun v hv => ?_)
          (.inl (not_busy_of_canCall hcall hc))
        simp [Kernel.setFrame, hv, hstill.frame]
      · exact .of_only ho hstill
  | resume he hs => exact .of_only (onlyThread_wakeThread _ _) (still_wakeThread _ _)
  | @sleep u tick _ he hc hcall hs =>
      simp only [rtThreadSleep, hc, Option.some.injEq] at hs
      subst hs
      have ho := ((onlyThread_setInitTick u tick σ₀).trans
        ((onlyThread_rtThreadSuspend u .sleep _).trans (onlyThread_rtTimerStart u _))).trans
          (onlyThread_setFrame u (.schedule (.ret none)) _)
      exact .of_current ho.nextTid ho.systemTick ho.frame (.inl (not_busy_of_canCall hcall hc))
  | @exit u he hc hcall =>
      have ho := (onlyThread_closeThread u σ₀).trans
        (onlyThread_setFrame u (.schedule (.ret none)) _)
      exact .of_current ho.nextTid ho.systemTick ho.frame (.inl (not_busy_of_canCall hcall hc))
  | @enter u _ hc hcall =>
      have ho := onlyThread_setFrame u (.schedule (.ret none)) σ
      exact .of_current ho.nextTid ho.systemTick ho.frame (.inl (not_busy_of_canCall hcall hc))
  | kill he ht hc => exact .of_only (onlyThread_closeThread _ _) (still_closeThread _ _)
  | @killSelf id u _ he hcall hfind hc hs =>
      have ho := (onlyThread_closeThread u σ₀).trans
        (onlyThread_setFrame u (.after (.ret none)) _)
      have hsched := schedOnly_rtSchedule hs
      refine .of_current (c := u) (hsched.nextTid.trans ho.nextTid)
        (hsched.systemTick.trans ho.systemTick) (fun v hv => ?_)
        (.inl (not_busy_of_canCall hcall hc))
      rw [hsched.frame]
      exact ho.frame v hv
  | clean he hs => exact .cleanDeadFrom hs
  | @expire fuel k u _ he hdue hfunc =>
      have ho := onlyThread_expireThread u
        { σ with timerLinks := σ.timerLinks.remove (.timer k) }
      refine .of_frame ho.nextTid ho.systemTick ?_
      exact (schedOnly_rtScheduleInsertThread u _).frame
  | @semPark s time u he hc hcall hw =>
      have ho := onlyThread_park u (.semWait s) (.semTake s time) σ₀
      exact .of_current ho.nextTid ho.systemTick ho.frame (.inl (not_busy_of_canCall hcall hc))
  | @release s r he hr =>
      obtain ⟨x, -, ⟨-, rfl⟩ | ⟨u, -, -, rfl⟩⟩ := rtSemRelease_cases hr
      · exact .of_frame rfl rfl rfl
      · have ho := onlyThread_rtThreadResume u
          ((σ₀.emit (.semReleased s)).emit (.woke (.semWait s) u))
        exact .of_frame ho.nextTid ho.systemTick (frame_rtThreadResume u _)
  | post he hx hne hr =>
      obtain ⟨hnext, htick, hframe⟩ := put_keeps hr
      exact .of_frame hnext htick hframe
  | turn hc hcall hb hk hT =>
      obtain ⟨hnext, htick, hframe⟩ := turn_keeps hT
      exact .of_current hnext htick hframe (.inl (not_busy_of_canCall hcall hc))
  | @rerunTurn u k w _ he hc hf hk hw herr hb hT =>
      obtain ⟨hnext, htick, hframe⟩ := turn_keeps hT
      refine .of_current (c := u) hnext htick (fun v hv => ?_) (.inr ⟨he, hc⟩)
      rw [hframe v hv]
      simp [rerun, Kernel.setFrame, Kernel.emit, hv]
  | @rerunRet u k w o he hc hf hw ho herr =>
      refine .of_current (c := u) rfl rfl (fun v hv => ?_) (.inr ⟨he, hc⟩)
      simp [rerun, Kernel.setFrame, Kernel.emit, hv]
  | @returned u r he hc hf =>
      cases r with
      | none =>
          have ho := onlyThread_setFrame u .run σ₀
          exact .of_current ho.nextTid ho.systemTick ho.frame (.inr ⟨he, hc⟩)
      | some o =>
          have ho := (onlyThread_setFrame u .run σ₀).trans (onlyThread_emit u o _)
          exact .of_current ho.nextTid ho.systemTick ho.frame (.inr ⟨he, hc⟩)

theorem steady_step (hs : step σ e = some σ') : Steady t σ e σ σ' :=
  step_preserves (P := fun σ₁ => Steady t σ e σ σ₁) (fun _ _ h ha => h.trans (.act ha))
    (.of_frame rfl rfl rfl) hs

/-! ## The clock -/

theorem systemTick_rtTimerCheckFrom {fuel : ℕ} {pos n : TimerNode}
    (h : rtTimerCheckFrom fuel pos n σ = some σ') : σ'.systemTick = σ.systemTick := by
  induction fuel generalizing pos n σ with
  | zero => cases h
  | succ fuel ih =>
      cases pos with
      | head =>
          obtain rfl := Option.some.inj h
          rfl
      | timer j =>
          simp only [rtTimerCheckFrom] at h
          split at h
          · cases h
          · next σ₁ hcheck => exact (ih h).trans (systemTick_checkTimer hcheck)

theorem systemTick_sysTickHandler {fuel : ℕ} (h : sysTickHandler fuel σ = some σ') :
    σ'.systemTick = σ.systemTick + 1 := by
  have hdown : ∀ c, (countDown c (sysTickIncrease σ)).2.systemTick = σ.systemTick + 1 := by
    intro c
    unfold countDown
    dsimp only
    split <;> rfl
  unfold sysTickHandler at h
  dsimp only at h
  split at h
  · obtain rfl := Option.some.inj h
    rfl
  · next c hc =>
    have hc' := hdown c
    split at h
    · next σ₁ heq =>
      rw [heq] at hc'
      obtain ⟨σ₂, hsched, hcheck⟩ := Option.bind_eq_some_iff.mp h
      rw [systemTick_rtTimerCheckFrom hcheck, (schedOnly_rtSchedule hsched).systemTick]
      exact hc'
    · next σ₁ heq =>
      rw [heq] at hc'
      exact (systemTick_rtTimerCheckFrom h).trans hc'

/-- Only the ticks move the clock. -/
theorem systemTick_step (hs : step σ e = some σ') :
    σ'.systemTick = σ.systemTick + BitVec.ofNat 32 e.ticks := by
  cases hticks : e.ticks with
  | zero => simpa using (steady_step (t := 0) hs).systemTick hticks
  | succ n =>
      cases e with
      | tick fuel =>
          obtain rfl : n = 0 := by simpa [Event.ticks] using hticks.symm
          simp only [step] at hs
          split at hs
          · cases hs
          · exact systemTick_sysTickHandler hs
      | _ => cases hticks

end Acts

/-! ## One test of the loop -/

section Loop

variable {c : MbCall} {t : Tid} {σ σ' : Kernel} {orig timeout tickDelta : BitVec 32}

theorem MbCall.isLoop_rest (c : MbCall) (orig timeout tickDelta : BitVec 32) :
    (c.rest orig timeout tickDelta).isLoop = true := by
  cases c <;> rfl

theorem MbCall.armed_ne_zero (h : c.armed timeout = true) : timeout ≠ 0 := by
  rintro rfl
  cases c <;> simp [MbCall.armed] at h

theorem systemTick_suspendOn (w : TNode) (t : Tid) (σ : Kernel) (r : ℤ) :
    (suspendOn w t (σ.setError t r)).systemTick = σ.systemTick :=
  (onlyThread_suspendOn w t (σ.setError t r)).systemTick

/-- The state a call waits in once it has armed the timer. -/
structure Armed (c : MbCall) (t : Tid) (orig timeout : BitVec 32) (σ σ' : Kernel) : Prop where
  frame : σ'.frame t = .schedule (c.rest orig timeout σ.systemTick)
  initTick : (σ'.timer (.ofThread t)).initTick = timeout

theorem armed_park (w : TNode) (k : After) (σ : Kernel) (hk : k = c.rest orig timeout σ.systemTick) :
    Armed c t orig timeout σ
      ((armTimer t timeout (suspendOn w t (σ.setError t RT_EOK))).setFrame t (.schedule k)) := by
  subst hk
  constructor
  · simp [Kernel.setFrame]
  · simp [armTimer, rtTimerStart, Kernel.setInitTick, Kernel.setFrame, Kernel.setTimer]

/-- A test that finds the mailbox unchanged. -/
theorem loop_blocked (hblocked : c.blocked σ = true)
    (htime : c.armed timeout = true ∨ timeout = 0)
    (h : c.loop t orig timeout tickDelta σ = some σ') :
    (timeout = 0 ∧ σ'.frame t = σ.frame t) ∨
      (c.armed timeout = true ∧ Armed c t orig timeout σ σ') := by
  cases c with
  | send m value =>
      obtain ⟨x, hx, hfull⟩ := Runs.exists_of_any hblocked
      have hfull : x.entry = x.size := of_decide_eq_true hfull
      simp only [MbCall.loop, mbSendLoop, hx, hfull, if_true] at h
      rcases htime with harmed | rfl
      · have hpos : 0 < timeout.toInt := of_decide_eq_true harmed
        rw [if_neg (MbCall.armed_ne_zero harmed), if_pos hpos] at h
        obtain rfl := Option.some.inj h
        have hclock := systemTick_suspendOn (.mbSend m) t σ RT_EOK
        have hpark := armed_park (t := t) (c := .send m value) (.mbSend m) _ σ
          (congrArg (After.mbSend m value orig timeout) hclock)
        exact .inr ⟨harmed, hpark⟩
      · rw [if_pos rfl] at h
        obtain rfl := Option.some.inj h
        exact .inl ⟨rfl, rfl⟩
  | recv m =>
      obtain ⟨x, hx, hempty⟩ := Runs.exists_of_any hblocked
      have hempty : x.entry = 0 := of_decide_eq_true hempty
      simp only [MbCall.loop, mbRecvLoop, hx, hempty, if_true] at h
      rcases htime with harmed | rfl
      · have hpos : 0 < timeout := of_decide_eq_true harmed
        rw [if_neg (MbCall.armed_ne_zero harmed), if_pos hpos] at h
        obtain rfl := Option.some.inj h
        have hclock := systemTick_suspendOn (.mbRecv m) t σ RT_EOK
        have hpark := armed_park (t := t) (c := .recv m) (.mbRecv m) _ σ
          (congrArg (After.mbRecv m orig timeout) hclock)
        exact .inr ⟨harmed, hpark⟩
      · rw [if_pos rfl] at h
        obtain rfl := Option.some.inj h
        exact .inl ⟨rfl, rfl⟩

theorem finish_not_inLoop {r : Kernel × Bool} {o : Obs} (hframe : r.1.frame = σ.frame)
    (hout : (σ.frame t).inLoop = false) : ((finish t o r).frame t).inLoop = false := by
  obtain ⟨σ₁, b⟩ := r
  cases b with
  | false =>
      have : σ₁.frame t = σ.frame t := congrFun hframe t
      change (σ₁.frame t).inLoop = false
      rw [this, hout]
  | true => simp [finish, Kernel.setFrame, Frame.inLoop, After.isLoop]

/-- A test that finds the mailbox changed ends the loop. -/
theorem loop_passed (hblocked : c.blocked σ = false) (hout : (σ.frame t).inLoop = false)
    (h : c.loop t orig timeout tickDelta σ = some σ') : (σ'.frame t).inLoop = false := by
  cases c with
  | send m value =>
      simp only [MbCall.loop, mbSendLoop] at h
      split at h
      · cases h
      · next x hx =>
        have hne : x.entry ≠ x.size := by simpa [MbCall.blocked, hx] using hblocked
        rw [if_neg hne] at h
        obtain ⟨r, hr, rfl⟩ := Option.map_eq_some_iff.mp h
        exact finish_not_inLoop (put_keeps hr).2.2 hout
  | recv m =>
      simp only [MbCall.loop, mbRecvLoop] at h
      split at h
      · cases h
      · next x hx =>
        have hne : x.entry ≠ 0 := by simpa [MbCall.blocked, hx] using hblocked
        rw [if_neg hne] at h
        obtain ⟨r, hr, rfl⟩ := Option.map_eq_some_iff.mp h
        exact finish_not_inLoop (take_keeps hr).2.2 hout

/-- A call that is in its loop after a test has armed the timer. -/
theorem loop_armed (hout : (σ.frame t).inLoop = false)
    (htime : c.armed timeout = true ∨ timeout = 0)
    (h : c.loop t orig timeout tickDelta σ = some σ') (hin : (σ'.frame t).inLoop = true) :
    c.armed timeout = true ∧ Armed c t orig timeout σ σ' := by
  cases hblocked : c.blocked σ with
  | false =>
      rw [loop_passed hblocked hout h] at hin
      cases hin
  | true =>
      rcases loop_blocked hblocked htime h with ⟨-, hsame⟩ | harmed
      · rw [hsame, hout] at hin
        cases hin
      · exact harmed

end Loop

/-! ## The calls and their wake-ups -/

section Call

variable {c : MbCall} {t : Tid} {σ σ' : Kernel} {timeout : BitVec 32}

/-- The call itself, which tests for the first time. -/
theorem step_call (htime : timeout ≠ 0) (hc : σ.currentThread = some t)
    (h : step σ (.call (c.call timeout)) = some σ') :
    (σ.frame t).inLoop = false ∧ c.loop t timeout timeout 0 σ = some σ' := by
  simp only [step] at h
  split at h
  · cases h
  · split at h
    · next hcall =>
      constructor
      · have hfree := not_busy_of_canCall hcall hc
        cases hin : (σ.frame t).inLoop with
        | false => rfl
        | true =>
            rw [Frame.busy_of_inLoop hin] at hfree
            cases hfree
      · cases c with
        | send m value =>
            simp only [MbCall.call, Call.exec, rtMbSendWait, hc] at h
            split at h
            · cases h
            · rwa [if_neg fun hboth => htime hboth.2] at h
        | recv m =>
            simp only [MbCall.call, Call.exec, rtMbRecv, hc] at h
            split at h
            · cases h
            · rwa [if_neg fun hboth => htime hboth.2] at h
    · cases h

/-- `rt_schedule()` in the loop. -/
theorem step_schedule {k : After} (hc : σ.currentThread = some t)
    (hf : σ.frame t = .schedule k) (h : step σ .goOn = some σ') :
    σ'.frame t = .after k := by
  simp only [step, hc, hf] at h
  split at h
  · cases h
  · rw [(schedOnly_rtSchedule h).frame]
    simp [Kernel.setFrame]

/-- A wake-up tests again with the time that is left, unless the wait has failed. -/
theorem step_woken {orig left tickDelta : BitVec 32} (hc : σ.currentThread = some t)
    (hf : σ.frame t = .after (c.rest orig left tickDelta)) (h : step σ .goOn = some σ') :
    (σ.error t ≠ RT_EOK ∧ (σ'.frame t).inLoop = false) ∨
      ∃ w d, σ.error t = RT_EOK ∧
        c.loop t orig (c.timeLeft left tickDelta σ.systemTick) d (rerun t w σ) = some σ' := by
  simp only [step, hc, hf] at h
  split at h
  · cases h
  · cases c with
    | send m value =>
        simp only [MbCall.rest, After.exec, rtMbSendAfter] at h
        split at h
        · next herr =>
          obtain rfl := Option.some.inj h
          exact .inl ⟨herr, by simp [Kernel.emit, Kernel.setFrame, Frame.inLoop]⟩
        · next herr => exact .inr ⟨.mbSend m, _, not_not.mp herr, h⟩
    | recv m =>
        simp only [MbCall.rest, After.exec, rtMbRecvAfter] at h
        split at h
        · next herr =>
          obtain rfl := Option.some.inj h
          exact .inl ⟨herr, by simp [Kernel.emit, Kernel.setFrame, Frame.inLoop]⟩
        · next herr => exact .inr ⟨.mbRecv m, _, not_not.mp herr, h⟩

theorem blocked_rerun (w : TNode) : c.blocked (rerun t w σ) = c.blocked σ := by
  cases c <;> rfl

theorem not_inLoop_rerun (w : TNode) : ((rerun t w σ).frame t).inLoop = false := by
  simp [rerun, Kernel.setFrame, Frame.inLoop]

end Call

/-! ## The time that is left -/

/-- The time left `n` ticks after the call, as the call computes it. -/
def MbCall.leftAfter (c : MbCall) (timeout : BitVec 32) (n : ℕ) : BitVec 32 :=
  match c with
  | .send .. =>
    if (timeout - BitVec.ofNat 32 n).toInt < 0 then 0 else timeout - BitVec.ofNat 32 n
  | .recv .. => timeout - BitVec.ofNat 32 n

section TimeLeft

variable {c : MbCall} {timeout start : BitVec 32} {e n : ℕ}

/-- The call forgets nothing but the ticks between its wake-ups, of which there are none. -/
theorem timeLeft_eq (harmed : c.armed (timeout - BitVec.ofNat 32 e) = true) :
    c.timeLeft (timeout - BitVec.ofNat 32 e) (start + BitVec.ofNat 32 e)
      (start + BitVec.ofNat 32 n) = c.leftAfter timeout n := by
  have hleft : timeout - BitVec.ofNat 32 e -
      (start + BitVec.ofNat 32 n - (start + BitVec.ofNat 32 e)) =
        timeout - BitVec.ofNat 32 n := by
    bv_omega
  cases c with
  | send m value =>
      have hpos : 0 < (timeout - BitVec.ofNat 32 e).toInt := of_decide_eq_true harmed
      simp only [MbCall.timeLeft, sendTimeLeft, MbCall.leftAfter]
      rw [if_pos hpos, hleft]
  | recv m =>
      have hpos : 0 < timeout - BitVec.ofNat 32 e := of_decide_eq_true harmed
      simp only [MbCall.timeLeft, recvTimeLeft, MbCall.leftAfter]
      rw [if_pos hpos, hleft]

theorem armed_leftAfter : c.armed (c.leftAfter timeout n) = true ∨ c.leftAfter timeout n = 0 := by
  cases c with
  | send m value =>
      unfold MbCall.leftAfter
      dsimp only
      split
      · exact .inr rfl
      · next hneg =>
        by_cases hzero : timeout - BitVec.ofNat 32 n = 0
        · exact .inr hzero
        · left
          have hne : (timeout - BitVec.ofNat 32 n).toInt ≠ 0 := by
            intro h
            exact hzero (BitVec.eq_of_toInt_eq h)
          simp only [MbCall.armed, decide_eq_true_eq]
          omega
  | recv m =>
      by_cases hzero : timeout - BitVec.ofNat 32 n = 0
      · exact .inr hzero
      · left
        have hpos : 0 < timeout - BitVec.ofNat 32 n := by
          generalize timeout - BitVec.ofNat 32 n = left at hzero ⊢
          bv_omega
        exact decide_eq_true hpos

theorem eq_of_armed (harmed : c.armed (c.leftAfter timeout n) = true) :
    c.leftAfter timeout n = timeout - BitVec.ofNat 32 n := by
  cases c with
  | send m value =>
      unfold MbCall.leftAfter at harmed ⊢
      dsimp only at harmed ⊢
      split
      · next hneg =>
        rw [if_pos hneg] at harmed
        exact absurd rfl (MbCall.armed_ne_zero harmed)
      · rfl
  | recv m => rfl

end TimeLeft

/-! ## The runs -/

/-- What holds `n` ticks after the call was made in `σ₀`. -/
structure InCall (c : MbCall) (t : Tid) (timeout : BitVec 32) (σ₀ : Kernel) (n : ℕ)
    (σ : Kernel) : Prop where
  created : t < σ.nextTid
  clock : σ.systemTick = σ₀.systemTick + BitVec.ofNat 32 n
  /-- the call has last armed the timer `e` ticks after it was made -/
  wait : ∀ k, σ.frame t = .schedule k ∨ σ.frame t = .after k → k.isLoop = true →
    ∃ e, c.armed (timeout - BitVec.ofNat 32 e) = true ∧
      k = c.rest timeout (timeout - BitVec.ofNat 32 e) (σ₀.systemTick + BitVec.ofNat 32 e)

namespace InCall

variable {c : MbCall} {t : Tid} {σ₀ σ σ' : Kernel} {timeout : BitVec 32} {e : Event} {n : ℕ}

/-- After a test of the loop. -/
theorem of_loop {d : BitVec 32} {σ₁ : Kernel} (hout : (σ₁.frame t).inLoop = false)
    (hclock : σ₁.systemTick = σ₀.systemTick + BitVec.ofNat 32 n)
    (hcreated : t < σ'.nextTid) (hclock' : σ'.systemTick = σ₁.systemTick)
    (h : c.loop t timeout (c.leftAfter timeout n) d σ₁ = some σ') :
    InCall c t timeout σ₀ n σ' := by
  refine ⟨hcreated, hclock'.trans hclock, fun k hk hloop => ?_⟩
  have hin : (σ'.frame t).inLoop = true := by
    rcases hk with hk | hk <;> rw [hk] <;> exact hloop
  obtain ⟨harmed, hpark⟩ := loop_armed hout armed_leftAfter h hin
  have hleft := eq_of_armed harmed
  rw [hleft] at harmed hpark
  refine ⟨n, harmed, ?_⟩
  rw [← hclock]
  rcases hk with hk | hk
  · rw [hpark.frame] at hk
    exact (Frame.schedule.inj hk).symm
  · rw [hpark.frame] at hk
    cases hk

theorem call (hcreated : t < σ₀.nextTid) (hc : σ₀.currentThread = some t)
    (hpos : 0 < timeout.toInt) (hs : LuojiOs.step σ₀ (.call (c.call timeout)) = some σ) :
    InCall c t timeout σ₀ 0 σ := by
  have htime : timeout ≠ 0 := by
    rintro rfl
    exact absurd hpos (by decide)
  have hsteady := steady_step (t := t) hs
  obtain ⟨hout, hloop⟩ := step_call htime hc hs
  have hleft : c.leftAfter timeout 0 = timeout := by
    cases c with
    | send m value =>
        simp only [MbCall.leftAfter, BitVec.ofNat_eq_ofNat, BitVec.sub_zero]
        rw [if_neg (by omega)]
    | recv m => simp [MbCall.leftAfter]
  refine of_loop hout ?_ (Nat.lt_of_lt_of_le hcreated hsteady.nextTid)
    (hsteady.systemTick rfl) (d := 0) ?_
  · simp
  · rw [hleft]
    exact hloop

/-- The thread goes on in the call. -/
theorem goOn (h : InCall c t timeout σ₀ n σ) (hin : (σ.frame t).inLoop = true)
    (hc : σ.currentThread = some t) (hs : LuojiOs.step σ .goOn = some σ') :
    InCall c t timeout σ₀ n σ' := by
  have hsteady := steady_step (t := t) hs
  have hcreated := Nat.lt_of_lt_of_le h.created hsteady.nextTid
  have hclock := hsteady.systemTick rfl
  cases hf : σ.frame t with
  | schedule k =>
      rw [hf] at hin
      have hf' := step_schedule hc hf hs
      refine ⟨hcreated, hclock.trans h.clock, fun k' hk' hloop => h.wait k' ?_ hloop⟩
      left
      rw [hf'] at hk'
      rw [hf]
      rcases hk' with hk' | hk'
      · cases hk'
      · rw [Frame.after.inj hk']
  | after k =>
      rw [hf] at hin
      obtain ⟨e, harmed, rfl⟩ := h.wait k (.inr hf) hin
      rcases step_woken hc hf hs with ⟨-, hout⟩ | ⟨w, d, -, hloop⟩
      · refine ⟨hcreated, hclock.trans h.clock, fun k' hk' hloop => ?_⟩
        have hnot : k'.isLoop = false := by
          rcases hk' with hk' | hk' <;> rwa [hk'] at hout
        rw [hloop] at hnot
        cases hnot
      · rw [h.clock, timeLeft_eq harmed] at hloop
        exact of_loop (not_inLoop_rerun w) h.clock hcreated hclock hloop
  | run | suspended =>
      rw [hf] at hin
      cases hin

theorem step (h : InCall c t timeout σ₀ n σ) (hin : (σ.frame t).inLoop = true)
    (hs : LuojiOs.step σ e = some σ') : InCall c t timeout σ₀ (n + e.ticks) σ' := by
  by_cases hmine : e = .goOn ∧ σ.currentThread = some t
  · obtain ⟨rfl, hc⟩ := hmine
    exact h.goOn hin hc hs
  · have hsteady := steady_step (t := t) hs
    have hframe := hsteady.frame h.created (Frame.busy_of_inLoop hin)
      fun he hc => hmine ⟨he, hc⟩
    refine ⟨Nat.lt_of_lt_of_le h.created hsteady.nextTid, ?_, ?_⟩
    · rw [systemTick_step hs, h.clock, BitVec.add_assoc, BitVec.ofNat_add]
    · rw [hframe]
      exact h.wait

theorem of_sinceCall (hcreated : t < σ₀.nextTid) (hc : σ₀.currentThread = some t)
    (hpos : 0 < timeout.toInt) (h : SinceCall c t timeout σ₀ n σ) :
    InCall c t timeout σ₀ n σ := by
  induction h with
  | call hs => exact call hcreated hc hpos hs
  | step h hin hs ih => exact ih.step hin hs

/-- The wait that follows a wake-up in vain. -/
theorem nextWait_eq (h : InCall c t timeout σ₀ n σ) (hw : WokenInVain c t σ)
    (hs : LuojiOs.step σ .goOn = some σ') : nextWait t σ' = (c.leftAfter timeout n).toNat := by
  obtain ⟨k, hf, hloop⟩ := hw.woken
  obtain ⟨e, harmed, rfl⟩ := h.wait k (.inr hf) hloop
  rcases step_woken hw.current hf hs with ⟨herr, -⟩ | ⟨w, d, -, htest⟩
  · exact absurd hw.error herr
  · rw [h.clock, timeLeft_eq harmed] at htest
    have hblocked : c.blocked (rerun t w σ) = true := by
      rw [blocked_rerun, hw.blocked]
    rcases loop_blocked hblocked armed_leftAfter htest with ⟨hzero, hsame⟩ | ⟨-, hpark⟩
    · rw [hzero]
      simp [nextWait, hsame, rerun, Kernel.setFrame]
    · simp [nextWait, hpark.frame, hpark.initTick, c.isLoop_rest]

end InCall

/-! ## The bound -/

section Bound

variable {timeout : BitVec 32} {n : ℕ}

theorem toNat_left (timeout : BitVec 32) (n : ℕ) :
    (timeout - BitVec.ofNat 32 n).toNat = (timeout.toNat + (2 ^ 32 - n % 2 ^ 32)) % 2 ^ 32 := by
  rw [BitVec.toNat_sub, BitVec.toNat_ofNat]
  congr 1
  omega

/-- Sender and receiver agree as long as the time left, as a signed number, is not negative. -/
theorem agree_iff (hpos : 0 < timeout.toNat) (hlt : timeout.toNat < 2 ^ 31) :
    (∀ start : BitVec 32, recvTimeLeft timeout start (start + BitVec.ofNat 32 n) =
      sendTimeLeft timeout start (start + BitVec.ofNat 32 n)) ↔
    (timeout - BitVec.ofNat 32 n).toNat < 2 ^ 31 := by
  have hint : 0 < timeout.toInt := by
    rw [BitVec.toInt_eq_toNat_of_lt (by omega)]
    omega
  have hnat : 0 < timeout := by
    rw [BitVec.lt_def]
    exact hpos
  have hspan : ∀ start : BitVec 32, start + BitVec.ofNat 32 n - start = BitVec.ofNat 32 n := by
    intro start
    bv_omega
  simp only [recvTimeLeft, sendTimeLeft, hint, hnat, if_true, hspan, forall_const]
  generalize timeout - BitVec.ofNat 32 n = left
  constructor
  · intro hagree
    by_contra hge
    have hneg : left.toInt < 0 := by
      rw [BitVec.toInt_eq_toNat_cond]
      split <;> omega
    rw [if_pos hneg] at hagree
    subst hagree
    exact absurd hneg (by decide)
  · intro hsmall
    have hnonneg : ¬left.toInt < 0 := by
      rw [BitVec.toInt_eq_toNat_of_lt (by omega)]
      omega
    rw [if_neg hnonneg]

theorem leftAfter_of_small {c : MbCall} (h : (timeout - BitVec.ofNat 32 n).toNat < 2 ^ 31) :
    c.leftAfter timeout n = timeout - BitVec.ofNat 32 n := by
  cases c with
  | send m value =>
      have hnonneg : ¬(timeout - BitVec.ofNat 32 n).toInt < 0 := by
        rw [BitVec.toInt_eq_toNat_of_lt (by omega)]
        omega
      unfold MbCall.leftAfter
      dsimp only
      rw [if_neg hnonneg]
  | recv m => rfl

end Bound

/-- The wait after a wake-up in vain is what it should be exactly when the time of the call
is not over yet, or the clock has come round to its end. -/
theorem waitBounded_iff {c : MbCall} {t : Tid} {timeout : BitVec 32} {σ₀ σ σ' : Kernel} {n : ℕ}
    (hreach : Reachable (fun _ _ => True) σ₀) (hcur : σ₀.currentThread = some t)
    (hpos : 0 < timeout.toNat) (hlt : timeout.toNat < 2 ^ 31)
    (hcall : SinceCall c t timeout σ₀ n σ) (hwoken : WokenInVain c t σ)
    (hs : step σ .goOn = some σ') :
    WaitBounded timeout n (nextWait t σ') ↔
      n ≤ timeout.toNat ∨ (n - timeout.toNat) % 2 ^ 32 = 0 := by
  have hknown : Known σ₀ := by
    refine Runs.Reach.invariant ?_ (fun _ _ _ h _ hs => ?_) hreach
    · rintro σ ⟨tick, rfl⟩
      exact known_threadInit tick
    · exact step_preserves (fun _ _ h ha => h.act ha) h hs
  have hint : 0 < timeout.toInt := by
    rw [BitVec.toInt_eq_toNat_of_lt (by omega)]
    omega
  have hin := InCall.of_sinceCall (hknown.current t hcur) hcur hint hcall
  rw [hin.nextWait_eq hwoken hs]
  have hnat := toNat_left timeout n
  constructor
  · intro h
    have hsmall := (agree_iff hpos hlt).mp h.agree
    have hrest := h.rest
    rw [leftAfter_of_small hsmall] at hrest
    omega
  · intro h
    have hval : (timeout - BitVec.ofNat 32 n).toNat = timeout.toNat - n := by
      omega
    have hsmall : (timeout - BitVec.ofNat 32 n).toNat < 2 ^ 31 := by
      omega
    rw [leftAfter_of_small hsmall, hval]
    exact ⟨rfl, fun hne => by omega, (agree_iff hpos hlt).mpr hsmall⟩

/-! ## A receiver that is woken too late -/

/-- The same wake-up, with the events of the call tested on the way. -/
theorem SinceCall.of_runChecked {c : MbCall} {t : Tid} {timeout : BitVec 32} {σ₀ σ σ' : Kernel}
    {n : ℕ} {es : List Event} (h : SinceCall c t timeout σ₀ n σ)
    (hrun : Runs.runChecked LuojiOs.step (fun σ _ => (σ.frame t).inLoop) σ es = some σ') :
    SinceCall c t timeout σ₀ (n + (es.map Event.ticks).sum) σ' := by
  induction es generalizing n σ with
  | nil =>
      obtain rfl : σ = σ' := by simpa [Runs.runChecked] using hrun
      exact h
  | cons e es ih =>
      unfold Runs.runChecked at hrun
      split at hrun
      · next hin =>
        obtain ⟨σ₁, hs, hrest⟩ := Option.bind_eq_some_iff.mp hrun
        have hnext := ih (h.step hin hs) hrest
        rwa [Nat.add_assoc] at hnext
      · cases hrun

/-- A thread whose time slices are of one tick. -/
def joinQuick (p : BitVec 32) : Event :=
  .call (.threadJoinInit "t" 1024 p 1 true true)

/-- Two threads, of which the first is about to receive from an empty mailbox. -/
def beforeRecv : List Event :=
  [.call (.rtMbInit 0 1), joinQuick 3, joinQuick 5, .threadStart]

/-- An interrupt handler posts to the mailbox, the second thread takes the value, and the
first one is run again four ticks after its call. -/
def untilWoken : List Event :=
  [.goOn, .isrMbSend 0 7, .tick 3, .call (.rtMbRecv 0 0), .tick 3, .tick 3, .tick 3]

/-- The states before the call with this timeout, after the wake-up and after the test. -/
def wokenLate (timeout : BitVec 32) : Option (Kernel × Kernel × Kernel) :=
  (runFrom 0 beforeRecv).bind fun σ₀ =>
    (step σ₀ (.call (.rtMbRecv 0 timeout))).bind fun σ₁ =>
      (Runs.runChecked step (fun σ _ => (σ.frame 0).inLoop) σ₁ untilWoken).bind fun σ =>
        (step σ .goOn).map fun σ' => (σ₀, σ, σ')

def Frame.woken : Frame → Bool
  | .after k => k.isLoop
  | _ => false

def inVain (σ : Kernel) : Bool :=
  σ.currentThread = some 0 ∧ σ.error 0 = RT_EOK ∧ (MbCall.recv 0).blocked σ = true ∧
    (σ.frame 0).woken = true

theorem wokenInVain_of_inVain {σ : Kernel} (h : inVain σ = true) :
    WokenInVain (.recv 0) 0 σ := by
  obtain ⟨hc, herr, hblocked, hf⟩ := of_decide_eq_true h
  refine ⟨hc, ?_, herr, hblocked⟩
  cases hk : σ.frame 0 with
  | after k =>
      rw [hk] at hf
      exact ⟨k, rfl, hf⟩
  | run | schedule k | suspended =>
      rw [hk] at hf
      cases hf

theorem sinceCall_wokenLate {timeout : BitVec 32} {σ₀ σ σ' : Kernel}
    (h : wokenLate timeout = some (σ₀, σ, σ')) :
    Reachable (fun _ _ => True) σ₀ ∧ SinceCall (.recv 0) 0 timeout σ₀ 4 σ ∧
      step σ .goOn = some σ' := by
  obtain ⟨τ₀, hbefore, h⟩ := Option.bind_eq_some_iff.mp h
  obtain ⟨τ₁, hcall, h⟩ := Option.bind_eq_some_iff.mp h
  obtain ⟨τ, huntil, h⟩ := Option.bind_eq_some_iff.mp h
  obtain ⟨τ', hlast, heq⟩ := Option.map_eq_some_iff.mp h
  obtain ⟨rfl, rfl, rfl⟩ : τ₀ = σ₀ ∧ τ = σ ∧ τ' = σ' := by simpa using heq
  have hfirst : SinceCall (.recv 0) 0 timeout τ₀ 0 τ₁ := .call hcall
  exact ⟨reachable_of_runFrom hbefore, hfirst.of_runChecked huntil, hlast⟩

/-- With a timeout of ten ticks, six of them are left. -/
theorem waitBounded_ten :
    ∃ σ₀ σ σ', wokenLate 10 = some (σ₀, σ, σ') ∧ WaitBounded 10 4 (nextWait 0 σ') := by
  obtain ⟨⟨σ₀, σ, σ'⟩, hσ, hcheck⟩ := Runs.exists_of_any
    (show (wokenLate 10).any (fun p => p.1.currentThread = some 0 ∧ inVain p.2.1) = true by
      decide +kernel)
  obtain ⟨hcur, hvain⟩ := of_decide_eq_true hcheck
  obtain ⟨hreach, hcall, hs⟩ := sinceCall_wokenLate hσ
  exact ⟨σ₀, σ, σ', hσ, (waitBounded_iff hreach hcur (by decide) (by decide) hcall
    (wokenInVain_of_inVain hvain) hs).mpr (.inl (by decide))⟩

/-- With a timeout of three ticks, the receiver waits for another `2 ^ 32 - 1`. -/
theorem not_waitBounded :
    ∃ σ₀ σ σ', wokenLate 3 = some (σ₀, σ, σ') ∧ SinceCall (.recv 0) 0 3 σ₀ 4 σ ∧
      WokenInVain (.recv 0) 0 σ ∧ nextWait 0 σ' = 2 ^ 32 - 1 ∧
      ¬WaitBounded 3 4 (nextWait 0 σ') := by
  obtain ⟨⟨σ₀, σ, σ'⟩, hσ, hcheck⟩ := Runs.exists_of_any
    (show (wokenLate 3).any (fun p => inVain p.2.1 ∧ nextWait 0 p.2.2 = 2 ^ 32 - 1) = true by
      decide +kernel)
  obtain ⟨hvain, hwait⟩ := of_decide_eq_true hcheck
  obtain ⟨hreach, hcall, hs⟩ := sinceCall_wokenLate hσ
  refine ⟨σ₀, σ, σ', hσ, hcall, wokenInVain_of_inVain hvain, hwait, fun h => ?_⟩
  have hrest := h.rest
  rw [hwait] at hrest
  exact absurd hrest (by decide)

end LuojiOs
