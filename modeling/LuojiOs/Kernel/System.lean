import LuojiOs.Kernel.Ipc
import LuojiOs.Support.Runs

/-!
# Events and runs

The kernel moves by events.  The running thread makes a call or goes on inside
one, the tick interrupt arrives, or another interrupt handler signals a semaphore
or posts to a mailbox.  Interrupts are disabled inside the pieces of code that
make up one event, and may arrive between any two events; in particular between
the linking of a waiter and the `rt_schedule()` that follows it.

Before `thread_start` the calls are those of `osMain`, with no current thread.
-/

namespace LuojiOs

open CircularList

/-- The calls a thread can make. -/
inductive Call
  | threadJoinInit (name : String) (stackSize priority runtick : BitVec 32)
      (mallocOk stackOk : Bool)
  | rtSchedule
  | rtThreadSuspend (t : Tid) (statu : Statu)
  | rtThreadResume (t : Tid)
  | rtThreadSleep (tick : BitVec 32)
  | rtThreadExit
  | rtThreadDeadExit
  | killThreadFun (id : BitVec 32)
  | idleThreadBody (fuel : ℕ)
  | rtSemInit (s : ℕ) (value : BitVec 32)
  | rtSemTake (s : ℕ) (time : BitVec 32)
  | rtSemRelease (s : ℕ)
  | rtSemDetach (s fuel : ℕ)
  | rtMbInit (m : ℕ) (size : BitVec 32)
  | rtMbSendWait (m : ℕ) (value timeout : BitVec 32)
  | rtMbRecv (m : ℕ) (timeout : BitVec 32)
  | rtTimerInit (u : ℕ) (timeout : List TimerOp) (time : BitVec 32) (flag : BitVec 8)
  | rtTimerStart (u : ℕ)
  | rtTimerStop (u : ℕ)

inductive Event
  | threadStart
  | call (c : Call)
  /-- the current thread goes on inside the call it is in -/
  | goOn
  | tick (fuel : ℕ)
  | isrSemRelease (s : ℕ)
  | isrMbSend (m : ℕ) (value : BitVec 32)

/-- A call that may end in `rt_schedule()`, made by a thread. -/
def thenSchedule : Kernel × Bool → Option Kernel
  | (σ, false) => some σ
  | (σ, true) =>
    match σ.currentThread with
    | none => none
    | some t => some (σ.setFrame t (.schedule (.ret none)))

/-- The first piece of a call. -/
def Call.exec (σ : Kernel) : Call → Option Kernel
  | .threadJoinInit name stackSize priority runtick mallocOk stackOk =>
    some (LuojiOs.threadJoinInit name stackSize priority runtick mallocOk stackOk σ).1
  | .rtSchedule =>
    match σ.currentThread with
    | none => none
    | some t => LuojiOs.rtSchedule (σ.setFrame t (.after (.ret none)))
  | .rtThreadSuspend t statu =>
    if t ∈ σ.allThread then
      match LuojiOs.rtThreadSuspend t statu σ with
      | (σ', r) =>
        if r = RT_EOK ∧ σ.currentThread = some t then
          some (σ'.setFrame t .suspended)
        else some σ'
    else none
  | .rtThreadResume t =>
    if t ∈ σ.allThread then some (LuojiOs.rtThreadResume t σ).1 else none
  | .rtThreadSleep tick => LuojiOs.rtThreadSleep tick σ
  | .rtThreadExit => LuojiOs.rtThreadExit σ
  | .rtThreadDeadExit => LuojiOs.rtThreadDeadExit σ
  | .killThreadFun id => LuojiOs.killThreadFun id σ
  | .idleThreadBody fuel => LuojiOs.idleThreadBody fuel σ
  | .rtSemInit s value =>
    if σ.sem s = none then some (LuojiOs.rtSemInit s value σ) else none
  | .rtSemTake s time => LuojiOs.rtSemTake s time σ
  | .rtSemRelease s => (LuojiOs.rtSemRelease s σ).bind thenSchedule
  | .rtSemDetach s fuel => LuojiOs.rtSemDetach s fuel σ
  | .rtMbInit m size =>
    if (σ.mb m).isNone then some (LuojiOs.rtMbInit m size σ) else none
  | .rtMbSendWait m value timeout => LuojiOs.rtMbSendWait m value timeout σ
  | .rtMbRecv m timeout => LuojiOs.rtMbRecv m timeout σ
  | .rtTimerInit u ops time flag =>
    some (LuojiOs.rtTimerInit (.other u) (.callback ops) time flag σ)
  | .rtTimerStart u => some (LuojiOs.rtTimerStart (.other u) σ)
  | .rtTimerStop u => some (LuojiOs.rtTimerStop (.other u) σ).1

/-- The piece of a call that follows its `rt_schedule()`. -/
def After.exec (t : Tid) (σ : Kernel) : After → Option Kernel
  | .ret none => some (σ.setFrame t .run)
  | .ret (some r) => some ((σ.setFrame t .run).emit r)
  | .semTake s time => some (rtSemTakeAfter t s time σ)
  | .mbSend m value orig timeout tickDelta =>
    rtMbSendAfter t m value orig timeout tickDelta σ
  | .mbRecv m orig timeout tickDelta => rtMbRecvAfter t m orig timeout tickDelta σ

/-- Whether the running context is in code of its own and can make a call. -/
def canCall (σ : Kernel) : Bool :=
  match σ.currentThread with
  | none => true
  | some t => σ.frame t = .run ∨ σ.frame t = .suspended

/-- The last action of a call made by an interrupt handler: `rt_schedule()` only
records the switch there, so the handler goes on. -/
def isrSchedule : Kernel × Bool → Option Kernel
  | (σ, false) => some σ
  | (σ, true) => rtSchedule σ

/-- `rt_mb_send(mb, value)` made by an interrupt handler. -/
def isrMbSend (m : ℕ) (value : BitVec 32) (σ : Kernel) : Option Kernel :=
  match σ.currentThread with
  | none => some (σ.emit (.mbSendRet m none 0 (-RT_ERROR)))
  | some t =>
    match σ.mb m with
    | none => none
    | some x =>
      if x.entry = x.size then some (σ.emit (.mbSendRet m (some t) 0 (-RT_EFULL)))
      else
        (mbPut m x value σ).bind fun r =>
          (isrSchedule r).map (·.emit (.mbSendRet m (some t) 0 RT_EOK))

/-- One event.  A stopped processor takes no further step. -/
def step (σ : Kernel) (e : Event) : Option Kernel :=
  if σ.fault then none
  else
    match e with
    | .threadStart => if σ.currentThread = none then threadStart σ else none
    | .call c => if canCall σ then c.exec σ else none
    | .goOn =>
      match σ.currentThread with
      | none => none
      | some t =>
        match σ.frame t with
        | .schedule k => rtSchedule (σ.setFrame t (.after k))
        | .after k => k.exec t σ
        | _ => none
    | .tick fuel => sysTickHandler fuel σ
    | .isrSemRelease s => (rtSemRelease s σ).bind isrSchedule
    | .isrMbSend m value => isrMbSend m value σ

/-- The states of the runs whose events all meet `guard`, from `thread_init` at
any value of the tick counter. -/
def Reachable (guard : Kernel → Event → Prop) : Kernel → Prop :=
  Runs.Reach step guard fun σ => ∃ tick, σ = threadInit tick

/-- A run from `thread_init` over a list of events. -/
def runFrom (tick : BitVec 32) (es : List Event) : Option Kernel :=
  Runs.run step (threadInit tick) es

/-- A run from `thread_init` whose events all meet `check`. -/
def checkedRun (check : Kernel → Event → Bool) (tick : BitVec 32) (es : List Event) :
    Option Kernel :=
  Runs.runChecked step check (threadInit tick) es

theorem reachable_of_checkedRun {check : Kernel → Event → Bool} {tick : BitVec 32}
    {es : List Event} {σ : Kernel} (h : checkedRun check tick es = some σ) :
    Reachable (fun σ e => check σ e = true) σ :=
  Runs.Reach.of_runChecked (.start ⟨tick, rfl⟩) h

theorem reachable_of_runFrom {tick : BitVec 32} {es : List Event} {σ : Kernel}
    (h : runFrom tick es = some σ) : Reachable (fun _ _ => True) σ :=
  Runs.Reach.of_run (.start ⟨tick, rfl⟩) h

end LuojiOs
