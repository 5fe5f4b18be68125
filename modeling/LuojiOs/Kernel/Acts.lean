import LuojiOs.Kernel.System
import Mathlib.Logic.Relation

/-!
# The acts an event is made of

`Act σ₀ e σ σ'` lists everything the event `e`, arriving in the state `σ₀`, can
make the kernel do: one act takes it from `σ` to `σ'`.  Most events are a single
act; the tick and the interrupt handlers chain several.  `step_acts` is the only
place where the event functions are unfolded, and every invariant is then shown
act by act.
-/

namespace LuojiOs

open CircularList

/-! ## Where a call stands -/

/-- The two states `rt_thread_resume` accepts. -/
def Statu.isBlocked : Statu → Bool
  | .sleep | .suspend => true
  | _ => false

/-- The wait list a call has its thread linked on. -/
def After.head : After → Option TNode
  | .ret _ => none
  | .semTake s _ => some (.semWait s)
  | .mbSend m .. => some (.mbSend m)
  | .mbRecv m .. => some (.mbRecv m)

def Frame.head : Frame → Option TNode
  | .schedule k | .after k => k.head
  | _ => none

/-- The report a frame holds back until its `rt_schedule()` has returned. -/
def Frame.stored : Frame → Option Obs
  | .schedule (.ret r) | .after (.ret r) => r
  | _ => none

theorem stored_of_head {k : After} {w : TNode} (hk : k.head = some w) :
    Frame.stored (.schedule k) = none ∧ Frame.stored (.after k) = none := by
  cases k <;> simp_all [After.head, Frame.stored]

/-- The time a blocked call arms its timer with: `time > 0` on an `int` in
`rt_sem_take` and `rt_mb_send_wait`, on an `unsigned int` in `rt_mb_recv`. -/
def After.arm : After → Option (BitVec 32)
  | .ret _ => none
  | .semTake _ time => if 0 < time.toInt then some time else none
  | .mbSend _ _ _ timeout _ => if 0 < timeout.toInt then some timeout else none
  | .mbRecv _ _ timeout _ => if 0 < timeout then some timeout else none

/-- Suspend `t` on the wait list `w` with the rest `k` of its call, up to the
`rt_schedule()`. -/
def park (t : Tid) (w : TNode) (k : After) (σ : Kernel) : Kernel :=
  let σ := suspendOn w t (σ.setError t RT_EOK)
  let σ := match k.arm with
    | some time => armTimer t time σ
    | none => σ
  σ.setFrame t (.schedule k)

theorem park_of_arm {t : Tid} {w : TNode} {k : After} {time : BitVec 32} {σ : Kernel}
    (h : k.arm = some time) :
    park t w k σ =
      (armTimer t time (suspendOn w t (σ.setError t RT_EOK))).setFrame t (.schedule k) := by
  simp only [park, h]

theorem park_of_not_arm {t : Tid} {w : TNode} {k : After} {σ : Kernel} (h : k.arm = none) :
    park t w k σ = (suspendOn w t (σ.setError t RT_EOK)).setFrame t (.schedule k) := by
  simp only [park, h]

/-- The part of a call before `rt_schedule()` has run again after the wait on `w`. -/
def rerun (t : Tid) (w : TNode) (σ : Kernel) : Kernel :=
  (σ.emit (.ranAgain w t)).setFrame t .run

/-- The loop variables of a mailbox call at its next test. -/
def After.again (now : BitVec 32) : After → After
  | .mbSend m value orig timeout tickDelta =>
    .mbSend m value orig (sendTimeLeft timeout tickDelta now)
      (if 0 < timeout.toInt then now - tickDelta else tickDelta)
  | .mbRecv m orig timeout tickDelta =>
    .mbRecv m orig (recvTimeLeft timeout tickDelta now)
      (if 0 < timeout then now - tickDelta else tickDelta)
  | k => k

/-- What the call reports when it returns `r`. -/
def After.retObs (t : Tid) (r : ℤ) : After → Option Obs
  | .ret _ => none
  | .semTake s time => some (.semTakeRet s (some t) time r)
  | .mbSend m _ orig _ _ => some (.mbSendRet m (some t) orig r)
  | .mbRecv m orig _ _ => some (.mbRecvRet m (some t) orig r)

/-- A report of a mailbox call that has not waited. -/
def Obs.prompt : Obs → Bool
  | .mbSendRet _ _ _ r => r ≠ -RT_ETIMEOUT
  | .mbRecvRet _ _ timeout r => r ≠ -RT_ETIMEOUT ∨ timeout = 0
  | _ => false

/-- Whether a call with this rest finds nothing to take and may wait. -/
def After.waits (σ : Kernel) : After → Bool
  | .ret _ => false
  | .semTake s time =>
    match σ.sem s with
    | none => false
    | some x => ¬0 < x.value ∧ time ≠ 0
  | .mbSend m _ _ timeout _ =>
    match σ.mb m with
    | none => false
    | some x => x.entry = x.size ∧ timeout ≠ 0
  | .mbRecv m _ timeout _ =>
    match σ.mb m with
    | none => false
    | some x => x.entry = 0 ∧ timeout ≠ 0

/-- The calls that test their object again after each wait. -/
def After.isLoop : After → Bool
  | .mbSend .. | .mbRecv .. => true
  | _ => false

/-- The event suspends its thread.  The body of the idle thread is counted in,
since it frees the closed threads. -/
def blocks (σ : Kernel) : Event → Bool
  | .call (.rtThreadSleep _) | .call (.idleThreadBody _) => true
  | .call (.rtSemTake s time) => (After.semTake s time).waits σ
  | .call (.rtMbSendWait m value timeout) =>
    (After.mbSend m value timeout timeout 0).waits σ
  | .call (.rtMbRecv m timeout) => (After.mbRecv m timeout timeout 0).waits σ
  | .goOn =>
    match σ.currentThread with
    | none => false
    | some t =>
      match σ.frame t with
      | .after k => k.isLoop ∧ σ.error t = RT_EOK ∧ (k.again σ.systemTick).waits σ
      | _ => false
  | _ => false

/-- The event puts its thread to sleep. -/
def sleeps (σ : Kernel) : Event → Bool
  | .call (.rtThreadSleep _) => true
  | .call (.idleThreadBody _) => σ.tlinks.isEmpty .dead
  | _ => false

theorem blocks_of_sleeps {σ : Kernel} {e : Event} (h : sleeps σ e = true) :
    blocks σ e = true := by
  unfold sleeps at h
  split at h
  · rfl
  · rfl
  · cases h

/-! ## One test of a mailbox loop -/

/-- What one test of the loop condition leads to, with the loop variables `k`. -/
inductive Turn (t : Tid) : After → Kernel → Kernel → Prop
  | sendFull {m : ℕ} {x : Mailbox} {value orig tickDelta : BitVec 32} {σ : Kernel}
      (hx : σ.mb m = some x) (hfull : x.entry = x.size) :
      Turn t (.mbSend m value orig 0 tickDelta) σ
        ((σ.setError t RT_EOK).emit (.mbSendRet m (some t) orig (-RT_EFULL)))
  | sendPark {m : ℕ} {x : Mailbox} {value orig timeout tickDelta : BitVec 32}
      (d : BitVec 32) {σ : Kernel} (hx : σ.mb m = some x) (hfull : x.entry = x.size)
      (htime : timeout ≠ 0) :
      Turn t (.mbSend m value orig timeout tickDelta) σ
        (park t (.mbSend m) (.mbSend m value orig timeout d) σ)
  | send {m : ℕ} {x : Mailbox} {value orig timeout tickDelta : BitVec 32}
      {σ : Kernel} {r : Kernel × Bool} (hx : σ.mb m = some x) (hne : x.entry ≠ x.size)
      (hput : mbPut m x value σ = some r) :
      Turn t (.mbSend m value orig timeout tickDelta) σ
        (finish t (.mbSendRet m (some t) orig RT_EOK) r)
  | recvEmpty {m : ℕ} {x : Mailbox} {orig tickDelta : BitVec 32} {σ : Kernel}
      (hx : σ.mb m = some x) (hempty : x.entry = 0) :
      Turn t (.mbRecv m orig 0 tickDelta) σ
        (((σ.setError t RT_EOK).setError t (-RT_ETIMEOUT)).emit
          (.mbRecvRet m (some t) orig (-RT_ETIMEOUT)))
  | recvPark {m : ℕ} {x : Mailbox} {orig timeout tickDelta : BitVec 32}
      (d : BitVec 32) {σ : Kernel} (hx : σ.mb m = some x) (hempty : x.entry = 0)
      (htime : timeout ≠ 0) :
      Turn t (.mbRecv m orig timeout tickDelta) σ
        (park t (.mbRecv m) (.mbRecv m orig timeout d) σ)
  | recv {m : ℕ} {x : Mailbox} {orig timeout tickDelta : BitVec 32}
      {σ : Kernel} {r : Kernel × Bool} (hx : σ.mb m = some x) (hne : x.entry ≠ 0)
      (htake : mbTake m x σ = some r) :
      Turn t (.mbRecv m orig timeout tickDelta) σ
        (finish t (.mbRecvRet m (some t) orig RT_EOK) r)

theorem turn_of_mbSendLoop {t : Tid} {m : ℕ} {value orig timeout tickDelta : BitVec 32}
    {σ σ' : Kernel} (h : mbSendLoop t m value orig timeout tickDelta σ = some σ') :
    Turn t (.mbSend m value orig timeout tickDelta) σ σ' := by
  unfold mbSendLoop at h
  split at h
  · cases h
  · next x hx =>
    split at h
    · next hfull =>
      split at h
      · next htime =>
        subst htime
        obtain rfl := Option.some.inj h
        exact .sendFull hx hfull
      · next htime =>
        split at h
        · next hpos =>
          obtain rfl := Option.some.inj h
          have harm : ∀ d, (After.mbSend m value orig timeout d).arm = some timeout :=
            fun _ => if_pos hpos
          rw [← park_of_arm (harm _)]
          exact .sendPark _ hx hfull htime
        · next hpos =>
          obtain rfl := Option.some.inj h
          have harm : (After.mbSend m value orig timeout tickDelta).arm = none := if_neg hpos
          rw [← park_of_not_arm harm]
          exact .sendPark _ hx hfull htime
    · next hne =>
      obtain ⟨r, hr, rfl⟩ := Option.map_eq_some_iff.mp h
      exact .send hx hne hr

theorem turn_of_mbRecvLoop {t : Tid} {m : ℕ} {orig timeout tickDelta : BitVec 32}
    {σ σ' : Kernel} (h : mbRecvLoop t m orig timeout tickDelta σ = some σ') :
    Turn t (.mbRecv m orig timeout tickDelta) σ σ' := by
  unfold mbRecvLoop at h
  split at h
  · cases h
  · next x hx =>
    split at h
    · next hempty =>
      split at h
      · next htime =>
        subst htime
        obtain rfl := Option.some.inj h
        exact .recvEmpty hx hempty
      · next htime =>
        split at h
        · next hpos =>
          obtain rfl := Option.some.inj h
          have harm : ∀ d, (After.mbRecv m orig timeout d).arm = some timeout :=
            fun _ => if_pos hpos
          rw [← park_of_arm (harm _)]
          exact .recvPark _ hx hempty htime
        · next hpos =>
          obtain rfl := Option.some.inj h
          have harm : (After.mbRecv m orig timeout tickDelta).arm = none := if_neg hpos
          rw [← park_of_not_arm harm]
          exact .recvPark _ hx hempty htime
    · next hne =>
      obtain ⟨r, hr, rfl⟩ := Option.map_eq_some_iff.mp h
      exact .recv hx hne hr

/-! ## The acts -/

/-- `rt_timer_check` on a timer that is due, with a callback. -/
def fireCallback (k : TimerId) (ops : List TimerOp) (σ : Kernel) : Kernel :=
  let σ := { σ with timerLinks := σ.timerLinks.remove (.timer k) }
  let σ := ops.foldl runTimerOp σ
  σ.setTimer k { σ.timer k with flag := .noActivated }

/-- `rt_timer_check` on a timer that is due, with `rt_thread_timeout` up to its
`rt_schedule()`. -/
def fireThread (k : TimerId) (t : Tid) (σ : Kernel) : Kernel :=
  let σ := { σ with timerLinks := σ.timerLinks.remove (.timer k) }
  let σ := expireThread t σ
  σ.setTimer k { σ.timer k with flag := .noActivated }

/-- A direct `rt_thread_suspend` that succeeds. -/
def suspendDirect (t : Tid) (s : Statu) (σ : Kernel) : Kernel :=
  if σ.currentThread = some t then
    (rtThreadSuspend t s σ).1.setFrame t .suspended
  else (rtThreadSuspend t s σ).1

def Event.isInterrupt : Event → Bool
  | .tick _ | .isrSemRelease _ | .isrMbSend .. => true
  | _ => false

/-- The acts on the clock and on the timers that belong to no thread. -/
inductive ClockAct (σ₀ : Kernel) (e : Event) : Kernel → Kernel → Prop
  | timerInit {u : ℕ} {ops : List TimerOp} {time : BitVec 32} {flag : BitVec 8}
      (he : e = .call (.rtTimerInit u ops time flag)) :
      ClockAct σ₀ e σ₀ (rtTimerInit (.other u) (.callback ops) time flag σ₀)
  | timerStart {u : ℕ} (he : e = .call (.rtTimerStart u)) :
      ClockAct σ₀ e σ₀ (rtTimerStart (.other u) σ₀)
  | timerStop {u : ℕ} (he : e = .call (.rtTimerStop u)) :
      ClockAct σ₀ e σ₀ (rtTimerStop (.other u) σ₀).1
  | tickIncrease {fuel : ℕ} (he : e = .tick fuel) :
      ClockAct σ₀ e σ₀ (sysTickIncrease σ₀)
  | countDown {fuel : ℕ} {c : Tid} {σ : Kernel} (he : e = .tick fuel)
      (hc : σ.currentThread = some c) : ClockAct σ₀ e σ (countDown c σ).2
  | callback {fuel : ℕ} {k : TimerId} {ops : List TimerOp} {σ : Kernel}
      (he : e = .tick fuel) (hdue : timerDue k σ = true)
      (hfunc : (σ.timer k).timeoutFunc = .callback ops) :
      ClockAct σ₀ e σ (fireCallback k ops σ)

/-- The acts on a semaphore or a mailbox that touch no thread. -/
inductive ObjectAct (σ₀ : Kernel) (e : Event) : Kernel → Kernel → Prop
  | semInit {s : ℕ} {value : BitVec 32} (he : e = .call (.rtSemInit s value))
      (hs : σ₀.sem s = none) : ObjectAct σ₀ e σ₀ (rtSemInit s value σ₀)
  | mbInit {m : ℕ} {size : BitVec 32} (he : e = .call (.rtMbInit m size))
      (hm : σ₀.mb m = none) : ObjectAct σ₀ e σ₀ (rtMbInit m size σ₀)
  | semTaken {s : ℕ} {x : Sem} {time : BitVec 32} (he : e = .call (.rtSemTake s time))
      (hx : σ₀.sem s = some x) (hpos : 0 < x.value) :
      ObjectAct σ₀ e σ₀
        (((σ₀.setSem s ⟨x.value - 1⟩).emit (.semTaken s)).emit
          (.semTakeRet s σ₀.currentThread time RT_EOK))
  | semRefused {s : ℕ} {x : Sem} (he : e = .call (.rtSemTake s 0))
      (hx : σ₀.sem s = some x) (hzero : ¬0 < x.value) :
      ObjectAct σ₀ e σ₀ (σ₀.emit (.semTakeRet s σ₀.currentThread 0 (-RT_ETIMEOUT)))
  | report {o : Obs} {σ : Kernel} (ho : o.prompt = true) : ObjectAct σ₀ e σ (σ.emit o)

/-- The acts of the event `e` that arrives in `σ₀`. -/
inductive Act (σ₀ : Kernel) (e : Event) : Kernel → Kernel → Prop
  | clock {σ σ' : Kernel} (h : ClockAct σ₀ e σ σ') : Act σ₀ e σ σ'
  | object {σ σ' : Kernel} (h : ObjectAct σ₀ e σ σ') : Act σ₀ e σ σ'
  | join {name : String} {stackSize priority runtick : BitVec 32}
      {mallocOk stackOk : Bool}
      (he : e = .call (.threadJoinInit name stackSize priority runtick mallocOk stackOk)) :
      Act σ₀ e σ₀ (threadJoinInit name stackSize priority runtick mallocOk stackOk σ₀).1
  | start {σ' : Kernel} (he : e = .threadStart) (hc : σ₀.currentThread = none)
      (h : threadStart σ₀ = some σ') : Act σ₀ e σ₀ σ'
  /-- a thread calls `rt_schedule()` -/
  | schedule {c : Tid} {k : After} {σ' : Kernel} (hc : σ₀.currentThread = some c)
      (hk : e = .goOn ∧ σ₀.frame c = .schedule k ∨
        e = .call .rtSchedule ∧ canCall σ₀ = true ∧ k = .ret none)
      (h : rtSchedule (σ₀.setFrame c (.after k)) = some σ') : Act σ₀ e σ₀ σ'
  /-- an interrupt handler calls `rt_schedule()` -/
  | preempt {σ σ' : Kernel} (he : e.isInterrupt = true) (h : rtSchedule σ = some σ') :
      Act σ₀ e σ σ'
  | suspend {t : Tid} {s : Statu} (he : e = .call (.rtThreadSuspend t s))
      (hcall : canCall σ₀ = true) (ht : t ∈ σ₀.allThread)
      (hs : σ₀.statu t = .ready ∨ σ₀.statu t = .running) :
      Act σ₀ e σ₀ (suspendDirect t s σ₀)
  | resume {t : Tid} {σ : Kernel}
      (he : e = .call (.rtThreadResume t) ∧ σ = σ₀ ∨
        ∃ s fuel, e = .call (.rtSemDetach s fuel) ∧ σ₀.tlinks.isEmpty (.semWait s) = false)
      (hs : (σ.statu t).isBlocked = true) : Act σ₀ e σ (wakeThread t σ)
  | sleep {t : Tid} {tick : BitVec 32} {σ' : Kernel} (he : sleeps σ₀ e = true)
      (hc : σ₀.currentThread = some t) (hcall : canCall σ₀ = true)
      (h : rtThreadSleep tick σ₀ = some σ') : Act σ₀ e σ₀ σ'
  /-- the running thread closes itself -/
  | exit {t : Tid} (he : e = .call .rtThreadExit ∨ e = .call .rtThreadDeadExit)
      (hc : σ₀.currentThread = some t) (hcall : canCall σ₀ = true) :
      Act σ₀ e σ₀ ((closeThread t σ₀).setFrame t (.schedule (.ret none)))
  /-- nothing is left of the call but its `rt_schedule()` -/
  | enter {t : Tid} {σ : Kernel} (hc : σ.currentThread = some t)
      (hcall : canCall σ = true) : Act σ₀ e σ (σ.setFrame t (.schedule (.ret none)))
  | kill {id : BitVec 32} {t : Tid} (he : e = .call (.killThreadFun id))
      (ht : t ∈ σ₀.allThread) (hc : σ₀.currentThread ≠ some t) :
      Act σ₀ e σ₀ (closeThread t σ₀)
  | killSelf {id : BitVec 32} {t : Tid} {σ' : Kernel} (he : e = .call (.killThreadFun id))
      (hcall : canCall σ₀ = true) (hfind : findThreadById id σ₀ = some t)
      (hc : σ₀.currentThread = some t)
      (h : rtSchedule ((closeThread t σ₀).setFrame t (.after (.ret none))) = some σ') :
      Act σ₀ e σ₀ σ'
  | clean {fuel : ℕ} {σ' : Kernel} (he : e = .call (.idleThreadBody fuel))
      (h : cleanDeadFrom fuel (σ₀.tlinks.next .dead)
        (σ₀.tlinks.next (σ₀.tlinks.next .dead)) σ₀ = some σ') : Act σ₀ e σ₀ σ'
  | expire {fuel : ℕ} {k : TimerId} {t : Tid} {σ : Kernel} (he : e = .tick fuel)
      (hdue : timerDue k σ = true)
      (hfunc : (σ.timer k).timeoutFunc = .rtThreadTimeout t) :
      Act σ₀ e σ (fireThread k t σ)
  | semPark {s : ℕ} {time : BitVec 32} {t : Tid} (he : e = .call (.rtSemTake s time))
      (hc : σ₀.currentThread = some t) (hcall : canCall σ₀ = true)
      (hw : (After.semTake s time).waits σ₀ = true) :
      Act σ₀ e σ₀ (park t (.semWait s) (.semTake s time) σ₀)
  | release {s : ℕ} {r : Kernel × Bool}
      (he : e = .call (.rtSemRelease s) ∨ e = .isrSemRelease s)
      (h : rtSemRelease s σ₀ = some r) : Act σ₀ e σ₀ r.1
  | post {m : ℕ} {x : Mailbox} {value : BitVec 32} {r : Kernel × Bool}
      (he : e = .isrMbSend m value) (hx : σ₀.mb m = some x) (hne : x.entry ≠ x.size)
      (h : mbPut m x value σ₀ = some r) : Act σ₀ e σ₀ r.1
  /-- the first test of a mailbox call -/
  | turn {t : Tid} {k : After} {σ' : Kernel} (hc : σ₀.currentThread = some t)
      (hcall : canCall σ₀ = true) (hb : k.waits σ₀ = true → blocks σ₀ e = true)
      (hk : (∃ m value timeout, e = .call (.rtMbSendWait m value timeout) ∧
          k = .mbSend m value timeout timeout 0) ∨
        ∃ m timeout, e = .call (.rtMbRecv m timeout) ∧ k = .mbRecv m timeout timeout 0)
      (h : Turn t k σ₀ σ') : Act σ₀ e σ₀ σ'
  /-- a mailbox call was woken and tests again -/
  | rerunTurn {t : Tid} {k : After} {w : TNode} {σ' : Kernel} (he : e = .goOn)
      (hc : σ₀.currentThread = some t) (hf : σ₀.frame t = .after k) (hk : k.isLoop = true)
      (hw : k.head = some w) (herr : σ₀.error t = RT_EOK)
      (hb : (k.again σ₀.systemTick).waits σ₀ = true → blocks σ₀ e = true)
      (h : Turn t (k.again σ₀.systemTick) (rerun t w σ₀) σ') : Act σ₀ e σ₀ σ'
  /-- a call that has waited returns its `thread->error` -/
  | rerunRet {t : Tid} {k : After} {w : TNode} {o : Obs} (he : e = .goOn)
      (hc : σ₀.currentThread = some t) (hf : σ₀.frame t = .after k)
      (hw : k.head = some w) (ho : k.retObs t (σ₀.error t) = some o)
      (herr : k.isLoop = true → σ₀.error t ≠ RT_EOK) :
      Act σ₀ e σ₀ ((rerun t w σ₀).emit o)
  /-- a call that has not waited returns -/
  | returned {t : Tid} {r : Option Obs} (he : e = .goOn) (hc : σ₀.currentThread = some t)
      (hf : σ₀.frame t = .after (.ret r)) :
      Act σ₀ e σ₀ (r.elim (σ₀.setFrame t .run) fun o => (σ₀.setFrame t .run).emit o)

/-! ## Conditions on the events of a run -/

/-- A priority that `thread_join_init` lets through is one of the table. -/
def joinInRange : Event → Bool
  | .call (.threadJoinInit _ _ priority _ _ _) =>
    (RT_THREAD_PRIORITY_MAX : ℤ) - 1 < priority.toInt ∨ priorityByte priority < 32
  | _ => true

/-- The current thread, if there is one, has the status `RT_THREAD_RUNNING`. -/
def callerRuns (σ : Kernel) : Bool :=
  match σ.currentThread with
  | none => true
  | some t => σ.statu t = .running

/-- Priorities are those of the table, and a call that suspends its thread is made
by a thread whose status is `RT_THREAD_RUNNING`. -/
def linkGuard (σ : Kernel) (e : Event) : Bool :=
  joinInRange e && (!blocks σ e || callerRuns σ)

/-- A thread that has blocked or closed itself finds another thread ready when it
calls `rt_schedule`, and `rt_thread_suspend` is called directly for sleeping only. -/
def switchGuard (σ : Kernel) : Event → Bool
  | .goOn =>
    match σ.currentThread with
    | none => true
    | some c =>
      match σ.frame c with
      | .schedule _ => σ.statu c = .running ∨ σ.readyPriorityGroup ≠ 0
      | _ => true
  | .call .rtSchedule => callerRuns σ ∨ σ.readyPriorityGroup ≠ 0
  | .call (.killThreadFun id) =>
    match findThreadById id σ with
    | none => true
    | some t => σ.currentThread ≠ some t ∨ σ.readyPriorityGroup ≠ 0
  | .call (.rtThreadSuspend _ s) => s = .sleep
  | _ => true

def runGuard (σ : Kernel) (e : Event) : Bool :=
  linkGuard σ e && switchGuard σ e

/-- No thread is taken off a wait list but by a hand-over, a timeout or a kill. -/
def quietGuard (σ : Kernel) : Event → Bool
  | .call (.rtThreadResume t) => σ.statu t ≠ .suspend
  | .call (.rtSemDetach s _) => σ.tlinks.isEmpty (.semWait s)
  | _ => true

/-- `sem->value ++` does not wrap around on the semaphore `s`. -/
def roomGuard (s : ℕ) (σ : Kernel) : Event → Bool
  | .call (.rtSemRelease s') | .isrSemRelease s' =>
    match σ.sem s with
    | none => true
    | some x => s' ≠ s ∨ x.value ≠ 65535
  | _ => true

/-- The caller's timer does not run, or `rt_thread_suspend` will stop it. -/
def timerStops (σ : Kernel) : Bool :=
  match σ.currentThread with
  | none => true
  | some t => (σ.timer (.ofThread t)).flag = .noActivated ∨ σ.statu t = .ready ∨
      σ.statu t = .running

theorem running_of_linkGuard {σ : Kernel} {e : Event} {t : Tid}
    (hg : linkGuard σ e = true) (hb : blocks σ e = true) (hc : σ.currentThread = some t) :
    σ.statu t = .running := by
  simp only [linkGuard, hb, callerRuns, hc, Bool.and_eq_true, Bool.or_eq_true] at hg
  simpa using hg.2

abbrev Acts (σ₀ : Kernel) (e : Event) : Kernel → Kernel → Prop :=
  Relation.ReflTransGen (Act σ₀ e)

end LuojiOs
