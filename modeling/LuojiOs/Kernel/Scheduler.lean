import LuojiOs.Kernel.State

/-!
# Timers, scheduling and thread life cycle

The functions of `os/thread.c` up to the semaphores, and `sys_tick_handler` of
`lib/ls1c_sys_tick.c`.  A function that never comes back (an endless `while`, an
access through a null pointer or through a list head taken for a thread) has no
result, which is `none` here.

The prints, the stack of a thread with its overflow check and the saved register
frames are left out: nothing below depends on them.  After a switch the thread
that runs is the one `rt_current_thread` designates.
-/

namespace LuojiOs

open CircularList

/-! ## Highest ready priority -/

def lowestBitBitmap : List ℕ :=
  [0, 0, 1, 0, 2, 0, 1, 0, 3, 0, 1, 0, 2, 0, 1, 0,
   4, 0, 1, 0, 2, 0, 1, 0, 3, 0, 1, 0, 2, 0, 1, 0,
   5, 0, 1, 0, 2, 0, 1, 0, 3, 0, 1, 0, 2, 0, 1, 0,
   4, 0, 1, 0, 2, 0, 1, 0, 3, 0, 1, 0, 2, 0, 1, 0,
   6, 0, 1, 0, 2, 0, 1, 0, 3, 0, 1, 0, 2, 0, 1, 0,
   4, 0, 1, 0, 2, 0, 1, 0, 3, 0, 1, 0, 2, 0, 1, 0,
   5, 0, 1, 0, 2, 0, 1, 0, 3, 0, 1, 0, 2, 0, 1, 0,
   4, 0, 1, 0, 2, 0, 1, 0, 3, 0, 1, 0, 2, 0, 1, 0,
   7, 0, 1, 0, 2, 0, 1, 0, 3, 0, 1, 0, 2, 0, 1, 0,
   4, 0, 1, 0, 2, 0, 1, 0, 3, 0, 1, 0, 2, 0, 1, 0,
   5, 0, 1, 0, 2, 0, 1, 0, 3, 0, 1, 0, 2, 0, 1, 0,
   4, 0, 1, 0, 2, 0, 1, 0, 3, 0, 1, 0, 2, 0, 1, 0,
   6, 0, 1, 0, 2, 0, 1, 0, 3, 0, 1, 0, 2, 0, 1, 0,
   4, 0, 1, 0, 2, 0, 1, 0, 3, 0, 1, 0, 2, 0, 1, 0,
   5, 0, 1, 0, 2, 0, 1, 0, 3, 0, 1, 0, 2, 0, 1, 0,
   4, 0, 1, 0, 2, 0, 1, 0, 3, 0, 1, 0, 2, 0, 1, 0]

/-- `__rt_ffs`: one more than the index of the lowest set bit, through a table of
the 256 byte values. -/
def rtFfs (value : BitVec 32) : ℕ :=
  if value = 0 then 0
  else if value &&& 0xff#32 ≠ 0 then
    lowestBitBitmap.getD (value &&& 0xff#32).toNat 0 + 1
  else if value &&& 0xff00#32 ≠ 0 then
    lowestBitBitmap.getD ((value &&& 0xff00#32) >>> 8).toNat 0 + 9
  else if value &&& 0xff0000#32 ≠ 0 then
    lowestBitBitmap.getD ((value &&& 0xff0000#32) >>> 16).toNat 0 + 17
  else
    lowestBitBitmap.getD ((value &&& 0xff000000#32) >>> 24).toNat 0 + 25

/-- `_get_highest_priority_thread`: the first thread of the list the bitmap
designates, with its priority. -/
def getHighestPriorityThread (σ : Kernel) : Option (Tid × ℕ) :=
  match rtFfs σ.readyPriorityGroup with
  | 0 => none -- index `-1` of the table
  | p + 1 =>
    match σ.tlinks.next (.ready p) with
    | .thread t => some (t, p)
    | _ => none -- a head is taken for a thread

/-! ## Timers -/

/-- `rt_timer_init`.  The `flag` argument is not looked at. -/
def rtTimerInit (k : TimerId) (timeout : TimeoutFunc) (time : BitVec 32)
    (_flag : BitVec 8) (σ : Kernel) : Kernel :=
  let σ := σ.setTimer k ⟨.noActivated, timeout, time, 0⟩
  { σ with timerLinks := σ.timerLinks.init (.timer k) }

def rtTimerStart (k : TimerId) (σ : Kernel) : Kernel :=
  let x := σ.timer k
  let σ := σ.setTimer k
    { x with timeoutTick := σ.systemTick + x.initTick, flag := .activated }
  { σ with timerLinks := σ.timerLinks.insertAfter .head (.timer k) }

def rtTimerStop (k : TimerId) (σ : Kernel) : Kernel × ℤ :=
  if (σ.timer k).flag ≠ .activated then
    (σ, -RT_ERROR)
  else
    let σ := { σ with timerLinks := σ.timerLinks.remove (.timer k) }
    (σ.setTimer k { σ.timer k with flag := .noActivated }, RT_EOK)

/-! ## The ready table -/

def rtScheduleInsertThread (t : Tid) (σ : Kernel) : Kernel :=
  if σ.currentThread = some t then
    σ.setStatu t .running
  else
    let σ := σ.setStatu t .ready
    { σ with
      tlinks := σ.tlinks.insertBefore (.ready (σ.thread t).currentPriority) (.thread t)
      readyPriorityGroup := σ.readyPriorityGroup ||| (σ.thread t).numberMask }

/-- `rt_list_remove(&(thread->tlist))` -/
def unlinkThread (t : Tid) (σ : Kernel) : Kernel :=
  { σ with tlinks := σ.tlinks.remove (.thread t) }

def rtScheduleRemoveThread (t : Tid) (σ : Kernel) : Kernel :=
  let σ := unlinkThread t σ
  if σ.tlinks.isEmpty (.ready (σ.thread t).currentPriority) then
    { σ with readyPriorityGroup := σ.readyPriorityGroup &&& ~~~(σ.thread t).numberMask }
  else σ

/-- The caller of `rt_schedule` is put back on the ready table unless it is
closed, asleep or suspended. -/
def Statu.runnable : Statu → Bool
  | .close | .sleep | .suspend => false
  | _ => true

/-- What `rt_schedule` does once it has found another thread. -/
def switchThread (fromThread toThread : Tid) (σ : Kernel) : Kernel :=
  let σ := { σ with currentThread := some toThread }
  let σ := σ.setStatu toThread .running
  let σ := if (σ.statu fromThread).runnable then
    rtScheduleInsertThread fromThread σ else σ
  rtScheduleRemoveThread toThread σ

def rtSchedule (σ : Kernel) : Option Kernel :=
  match σ.currentThread with
  | none => none -- `from_thread->name` of a null thread
  | some fromThread =>
    if σ.readyPriorityGroup ≠ 0 then
      match getHighestPriorityThread σ with
      | none => none
      | some (toThread, _) =>
        if toThread ≠ fromThread then some (switchThread fromThread toThread σ)
        else none -- `while(1) printf("#")`
    else some σ

/-! ## Suspending and resuming -/

def rtThreadSuspend (t : Tid) (statu : Statu) (σ : Kernel) : Kernel × ℤ :=
  if σ.statu t ≠ .ready ∧ σ.statu t ≠ .running then
    (σ, -RT_ERROR)
  else
    let σ := rtScheduleRemoveThread t σ
    let σ := σ.setStatu t statu
    ((rtTimerStop (.ofThread t) σ).1, RT_EOK)

/-- Take `t` off its list, stop its timer and make it ready: the body of
`rt_thread_resume`, of which `rt_mb_recv` has a copy. -/
def wakeThread (t : Tid) (σ : Kernel) : Kernel :=
  let σ := unlinkThread t σ
  let σ := (rtTimerStop (.ofThread t) σ).1
  rtScheduleInsertThread t σ

def rtThreadResume (t : Tid) (σ : Kernel) : Kernel × ℤ :=
  if σ.statu t ≠ .suspend ∧ σ.statu t ≠ .sleep then
    (σ, -RT_ERROR)
  else
    (wakeThread t σ, RT_EOK)

/-- `rt_thread_timeout` up to its `rt_schedule()`. -/
def expireThread (t : Tid) (σ : Kernel) : Kernel :=
  let σ := σ.setError t (-RT_ETIMEOUT)
  let σ := unlinkThread t σ
  (rtScheduleInsertThread t σ).emit (.expired t)

def rtThreadTimeout (t : Tid) (σ : Kernel) : Option Kernel :=
  rtSchedule (expireThread t σ)

/-! ## The tick interrupt -/

def runTimerOp (σ : Kernel) : TimerOp → Kernel
  | .start u => rtTimerStart (.other u) σ
  | .stop u => (rtTimerStop (.other u) σ).1

/-- `timerP->timeout_func(timerP->parameter)` -/
def runTimeoutFunc : TimeoutFunc → Kernel → Option Kernel
  | .rtThreadTimeout t, σ => rtThreadTimeout t σ
  | .callback ops, σ => some (ops.foldl runTimerOp σ)

def timerDue (k : TimerId) (σ : Kernel) : Bool :=
  (σ.timer k).flag = .activated ∧ (σ.timer k).timeoutTick < σ.systemTick

/-- The body of the loop of `rt_timer_check` for one timer. -/
def checkTimer (k : TimerId) (σ : Kernel) : Option Kernel :=
  if timerDue k σ then
    let σ := { σ with timerLinks := σ.timerLinks.remove (.timer k) }
    match runTimeoutFunc (σ.timer k).timeoutFunc σ with
    | none => none
    | some σ => some (σ.setTimer k { σ.timer k with flag := .noActivated })
  else some σ

/-- `rt_list_for_each_entry_safe` of `rt_timer_check`, from the entry `pos` with
`n` the entry saved as the next one.  The walk takes at most `fuel` rounds. -/
def rtTimerCheckFrom : ℕ → TimerNode → TimerNode → Kernel → Option Kernel
  | 0, _, _, _ => none
  | _ + 1, .head, _, σ => some σ
  | fuel + 1, .timer k, n, σ =>
    match checkTimer k σ with
    | none => none
    | some σ => rtTimerCheckFrom fuel n (σ.timerLinks.next n) σ

def rtTimerCheck (fuel : ℕ) (σ : Kernel) : Option Kernel :=
  let pos := σ.timerLinks.next .head
  rtTimerCheckFrom fuel pos (σ.timerLinks.next pos) σ

/-- The time slice part of `sys_tick_handler`: whether the slice of the current
thread `c` ends, and the state with its `remaining_tick` counted down. -/
def countDown (c : Tid) (σ : Kernel) : Bool × Kernel :=
  let left := σ.remainingTick c - 1
  if left = 0 then
    (true, { σ with
      remainingTick := Function.update σ.remainingTick c (σ.thread c).initTick })
  else
    (false, { σ with remainingTick := Function.update σ.remainingTick c left })

def sysTickIncrease (σ : Kernel) : Kernel :=
  { σ with systemTick := σ.systemTick + 1 }

def sysTickHandler (fuel : ℕ) (σ : Kernel) : Option Kernel :=
  let σ := sysTickIncrease σ
  match σ.currentThread with
  | none => some σ
  | some c =>
    match countDown c σ with
    | (true, σ) => (rtSchedule σ).bind (rtTimerCheck fuel)
    | (false, σ) => rtTimerCheck fuel σ

/-! ## Thread life cycle -/

/-- `rt_thread_sleep` up to its `rt_schedule()`. -/
def rtThreadSleep (tick : BitVec 32) (σ : Kernel) : Option Kernel :=
  match σ.currentThread with
  | none => none
  | some t =>
    let σ := σ.setInitTick t tick
    let σ := (rtThreadSuspend t .sleep σ).1
    let σ := rtTimerStart (.ofThread t) σ
    some (σ.setFrame t (.schedule (.ret none)))

/-- Close a thread and put it on `rt_thread_dead`, as `rt_thread_exit`,
`rt_thread_dead_exit` and `killThreadFun` do. -/
def closeThread (t : Tid) (σ : Kernel) : Kernel :=
  let σ := σ.setStatu t .close
  let σ := (rtTimerStop (.ofThread t) σ).1
  let σ := rtScheduleRemoveThread t σ
  { σ with tlinks := σ.tlinks.insertAfter .dead (.thread t) }

/-- `rt_thread_exit` up to its `rt_schedule()`. -/
def rtThreadExit (σ : Kernel) : Option Kernel :=
  match σ.currentThread with
  | none => none
  | some t => some ((closeThread t σ).setFrame t (.schedule (.ret none)))

/-- `rt_thread_dead_exit` up to its `rt_schedule()`. -/
def rtThreadDeadExit (σ : Kernel) : Option Kernel :=
  match σ.currentThread with
  | none => none
  | some t =>
    let σ := if σ.statu t ≠ .close then closeThread t σ else σ
    some (σ.setFrame t (.schedule (.ret none)))

/-- `current_priority` is an `unsigned char`. -/
def priorityByte (priority : BitVec 32) : ℕ :=
  priority.toNat % 256

/-- `1L << current_priority`; the shift instruction takes the low five bits. -/
def priorityMask (p : ℕ) : BitVec 32 :=
  1#32 <<< (p % 32)

/-- `thread_join_init`.  `mallocOk` and `stackOk` are the outcomes of the two
allocations.  A priority whose low byte is not below 32 passes the check when it
is negative; its bit is set, and the list write then goes outside the table. -/
def threadJoinInit (name : String) (stackSize priority runtick : BitVec 32)
    (mallocOk stackOk : Bool) (σ : Kernel) : Kernel × Option Tid :=
  if priority.toInt > (RT_THREAD_PRIORITY_MAX : ℤ) - 1 then (σ, none)
  else if !mallocOk then (σ, none)
  else if stackSize = 0 then (σ, none)
  else if !stackOk then (σ, none)
  else
    let t := σ.nextTid
    let p := priorityByte priority
    let σ := { σ with
      nextTid := t + 1
      thread := Function.update σ.thread t
        { name := String.ofList (name.toList.take (RT_NAME_MAX - 1))
          id := σ.threadIdIndex
          currentPriority := p
          numberMask := priorityMask p
          initTick := runtick }
      remainingTick := Function.update σ.remainingTick t runtick
      threadIdIndex := σ.threadIdIndex + 1 }
    let σ := (σ.setError t RT_EOK).setFrame t .run
    let σ := rtTimerInit (.ofThread t) (.rtThreadTimeout t) 0 0 σ
    let σ := { σ with
      tlinks := σ.tlinks.init (.thread t)
      allThread := t :: σ.allThread }
    let σ := σ.setStatu t .ready
    let σ := { σ with
      readyPriorityGroup := σ.readyPriorityGroup ||| (σ.thread t).numberMask }
    if p < RT_THREAD_PRIORITY_MAX then
      ({ σ with tlinks := σ.tlinks.insertBefore (.ready p) (.thread t) }, some t)
    else
      ({ σ with fault := true }, none)

def threadStart (σ : Kernel) : Option Kernel :=
  match getHighestPriorityThread σ with
  | none => none
  | some (toThread, _) =>
    let σ := { σ with currentThread := some toThread }
    let σ := rtScheduleRemoveThread toThread σ
    some (σ.setStatu toThread .running)

def findThreadById (id : BitVec 32) (σ : Kernel) : Option Tid :=
  σ.allThread.find? fun t => (σ.thread t).id = id

def killThreadFun (id : BitVec 32) (σ : Kernel) : Option Kernel :=
  match findThreadById id σ with
  | none => some σ
  | some t =>
    if (σ.thread t).name ≠ "idle" ∧ (σ.thread t).name ≠ "shell" then
      let σ := closeThread t σ
      if σ.currentThread = some t then
        rtSchedule (σ.setFrame t (.after (.ret none)))
      else some σ
    else some σ

/-- One round of the clean-up loop of `idle_thread_entry`. -/
def cleanThread (t : Tid) (σ : Kernel) : Kernel :=
  let σ := unlinkThread t σ
  { σ with allThread := σ.allThread.filter (· ≠ t) }

/-- `rt_list_for_each_entry_safe` over `rt_thread_dead`. -/
def cleanDeadFrom : ℕ → TNode → TNode → Kernel → Option Kernel
  | 0, _, _, _ => none
  | _ + 1, .dead, _, σ => some σ
  | fuel + 1, .thread t, n, σ =>
    let σ := cleanThread t σ
    cleanDeadFrom fuel n (σ.tlinks.next n) σ
  | _ + 1, _, _, _ => none

/-- The body of the loop of `idle_thread_entry`. -/
def idleThreadBody (fuel : ℕ) (σ : Kernel) : Option Kernel :=
  if !σ.tlinks.isEmpty .dead then
    let pos := σ.tlinks.next .dead
    cleanDeadFrom fuel pos (σ.tlinks.next pos) σ
  else
    rtThreadSleep 1000 σ

end LuojiOs
