import LuojiOs.Kernel.Ipc

/-!
# The interrupt level

The functions of `os/thread.c` that disable interrupts, with the status register: each of
them saves the level, clears bit 0 and, at its ends, writes the level back.  A call goes
through its `rt_schedule()` here, and what interrupts and other threads do meanwhile is given.
They come in where the bit is set: when it is written back, and before it is cleared.

A context switch stores the status register in the frame of the thread, and loads it again
when the thread goes on.
-/

namespace LuojiOs

open CircularList

/-- What runs while a thread does not, by the number of times so far.  The scheduler is never
stopped, and it is not started by a call that returns. -/
structure Others where
  run : ℕ → Kernel → Kernel
  isSome_run : ∀ n σ, (run n σ).currentThread.isSome = σ.currentThread.isSome

/-- The processor, as the thread sees it that has made a call. -/
structure Cpu where
  kernel : Kernel
  /-- `CP0_STATUS` -/
  status : BitVec 32
  interruptNest : BitVec 32
  turns : ℕ

namespace Cpu

/-- The bit `IE` of the status register. -/
def interruptEnable (c : Cpu) : Bool := c.status.getLsbD 0

def onKernel (f : Kernel → Kernel) (c : Cpu) : Cpu := { c with kernel := f c.kernel }

variable (others : Others)

def leave (c : Cpu) : Cpu :=
  { c with kernel := others.run c.turns c.kernel, turns := c.turns + 1 }

/-- Interrupts are taken if they are enabled. -/
def preempt (c : Cpu) : Cpu := if c.interruptEnable then c.leave others else c

/-! ## `context_gcc.S` -/

def rtHwInterruptDisable (c : Cpu) : BitVec 32 × Cpu :=
  (c.status, { c with status := c.status &&& 0xfffffffe })

def rtHwInterruptEnable (level : BitVec 32) (c : Cpu) : Cpu :=
  preempt others { c with status := level ||| 0x00008000 }

/-- `eret` clears the bit `EXL`. -/
def eret (status : BitVec 32) : BitVec 32 := status &&& 0xfffffffd

/-- `rt_hw_context_switch`, with its return to the thread that has called it. -/
def rtHwContextSwitch (c : Cpu) : Cpu := { c.leave others with status := eret c.status }

/-! ## The parts of `thread.c` that do not schedule -/

/-- `f` with interrupts disabled, at a single level. -/
def critical (f : Kernel → Kernel) (c : Cpu) : Cpu :=
  let (level, c) := c.rtHwInterruptDisable
  (c.onKernel f).rtHwInterruptEnable others level

def rtTimerStart (k : TimerId) (c : Cpu) : Cpu := c.critical others (LuojiOs.rtTimerStart k)

def rtTimerStop (k : TimerId) (c : Cpu) : Cpu × ℤ :=
  let (level, c) := c.rtHwInterruptDisable
  if (c.kernel.timer k).flag ≠ .activated then
    (c.rtHwInterruptEnable others level, -RT_ERROR)
  else
    let c := c.onKernel fun σ => (LuojiOs.rtTimerStop k σ).1
    (c.rtHwInterruptEnable others level, RT_EOK)

def rtScheduleInsertThread (t : Tid) (c : Cpu) : Cpu :=
  c.critical others (LuojiOs.rtScheduleInsertThread t)

def rtScheduleRemoveThread (t : Tid) (c : Cpu) : Cpu :=
  c.critical others (LuojiOs.rtScheduleRemoveThread t)

/-- The level is not written back when the thread is in no state to be suspended. -/
def rtThreadSuspend (t : Tid) (statu : Statu) (c : Cpu) : Cpu × ℤ :=
  let (temp, c) := c.rtHwInterruptDisable
  if c.kernel.statu t ≠ .ready ∧ c.kernel.statu t ≠ .running then
    (c, -RT_ERROR)
  else
    let c := (c.rtScheduleRemoveThread others t).onKernel (·.setStatu t statu)
    let c := (c.rtTimerStop others (.ofThread t)).1
    (c.rtHwInterruptEnable others temp, RT_EOK)

/-- `rt_list_remove(&(thread->tlist))`, `rt_timer_stop` and `rt_schedule_insert_thread`. -/
def wakeThread (t : Tid) (c : Cpu) : Cpu :=
  let c := c.onKernel (unlinkThread t)
  let c := (c.rtTimerStop others (.ofThread t)).1
  c.rtScheduleInsertThread others t

def rtThreadResume (t : Tid) (c : Cpu) : Cpu × ℤ :=
  if c.kernel.statu t ≠ .suspend ∧ c.kernel.statu t ≠ .sleep then
    (c, -RT_ERROR)
  else
    let (temp, c) := (c.preempt others).rtHwInterruptDisable
    ((c.wakeThread others t).rtHwInterruptEnable others temp, RT_EOK)

/-- `RT_DEBUG_NOT_IN_INTERRUPT`.  A failed assertion is never left. -/
def rtDebugNotInInterrupt (c : Cpu) : Option Cpu :=
  let (level, c) := c.rtHwInterruptDisable
  if c.interruptNest ≠ 0 then none else some (c.rtHwInterruptEnable others level)

/-- `RT_DEBUG_IN_THREAD_CONTEXT` -/
def rtDebugInThreadContext (c : Cpu) : Option Cpu :=
  let (level, c) := c.rtHwInterruptDisable
  match c.kernel.currentThread with
  | none => none
  | some _ => (c.rtDebugNotInInterrupt others).map (·.rtHwInterruptEnable others level)

/-! ## Scheduling -/

/-- What `rt_schedule` does once it has found another thread, up to the switch. -/
def switchThread (fromThread toThread : Tid) (c : Cpu) : Cpu :=
  let c := c.onKernel fun σ => { σ with currentThread := some toThread }
  let c := c.onKernel (·.setStatu toThread .running)
  let c := if (c.kernel.statu fromThread).runnable then
      c.rtScheduleInsertThread others fromThread
    else c
  c.rtScheduleRemoveThread others toThread

def rtSchedule (c : Cpu) : Option Cpu :=
  let (level, c) := c.rtHwInterruptDisable
  match c.kernel.currentThread with
  | none => none
  | some fromThread =>
    if c.kernel.readyPriorityGroup ≠ 0 then
      match getHighestPriorityThread c.kernel with
      | none => none
      | some (toThread, _) =>
        if toThread ≠ fromThread then
          let c := c.switchThread others fromThread toThread
          if c.interruptNest = 0 then
            some ((c.rtHwContextSwitch others).rtHwInterruptEnable others level)
          else some (c.rtHwInterruptEnable others level)
        else none
    else some (c.rtHwInterruptEnable others level)

def rtThreadSleep (tick : BitVec 32) (c : Cpu) : Option (Cpu × ℤ) :=
  let (temp, c) := c.rtHwInterruptDisable
  match c.kernel.currentThread with
  | none => none
  | some t =>
    let c := c.onKernel (·.setInitTick t tick)
    let c := (c.rtThreadSuspend others t .sleep).1
    let c := c.rtTimerStart others (.ofThread t)
    ((c.rtHwInterruptEnable others temp).rtSchedule others).map (·, 0)

/-! ## Semaphores -/

/-- `rt_thread_suspend(thread, RT_THREAD_SUSPEND)` and the insertion in a wait list. -/
def suspendOn (w : TNode) (t : Tid) (c : Cpu) : Cpu :=
  (c.rtThreadSuspend others t .suspend).1.onKernel fun σ =>
    { σ with tlinks := σ.tlinks.insertBefore w (.thread t) }

/-- `thread->thread_timer.init_tick = time; rt_timer_start(&thread->thread_timer)` -/
def armTimer (t : Tid) (time : BitVec 32) (c : Cpu) : Cpu :=
  (c.onKernel (·.setInitTick t time)).rtTimerStart others (.ofThread t)

def rtSemTake (s : ℕ) (time : BitVec 32) (c : Cpu) : Option (Cpu × ℤ) :=
  let (temp, c) := c.rtHwInterruptDisable
  match c.kernel.sem s with
  | none => none
  | some x =>
    if 0 < x.value then
      let c := c.onKernel (·.setSem s ⟨x.value - 1⟩)
      some (c.rtHwInterruptEnable others temp, RT_EOK)
    else if time = 0 then
      some (c.rtHwInterruptEnable others temp, -RT_ETIMEOUT)
    else do
      let c ← c.rtDebugInThreadContext others
      match c.kernel.currentThread with
      | none => return (c.rtHwInterruptEnable others temp, -RT_ERROR)
      | some t =>
        let c := c.onKernel (·.setError t RT_EOK)
        let c := c.suspendOn others (.semWait s) t
        let c := if 0 < time.toInt then c.armTimer others t time else c
        let c ← (c.rtHwInterruptEnable others temp).rtSchedule others
        return (c, if c.kernel.error t ≠ RT_EOK then c.kernel.error t else RT_EOK)

/-- Wake the first thread of a wait list, if there is one, with `wake`, and write the level
back. -/
def endCall (w : TNode) (wake : Tid → Cpu → Cpu) (temp : BitVec 32) (c : Cpu) :
    Option (Cpu × ℤ) :=
  match firstWaiter w c.kernel with
  | none => none
  | some none => some (c.rtHwInterruptEnable others temp, RT_EOK)
  | some (some t) =>
    (((wake t c).rtHwInterruptEnable others temp).rtSchedule others).map (·, RT_EOK)

def rtSemRelease (s : ℕ) (c : Cpu) : Option (Cpu × ℤ) :=
  let (temp, c) := c.rtHwInterruptDisable
  match c.kernel.sem s with
  | none => none
  | some x =>
    let c := if c.kernel.tlinks.isEmpty (.semWait s) then
        c.onKernel (·.setSem s ⟨x.value + 1⟩)
      else c
    c.endCall others (.semWait s) (fun t c => (c.rtThreadResume others t).1) temp

/-- `rt_list_for_each_entry_safe` over a wait list, resuming each thread. -/
def resumeAllFrom (w : TNode) : ℕ → TNode → TNode → Cpu → Option Cpu
  | 0, _, _, _ => none
  | fuel + 1, pos, n, c =>
    if pos = w then some c
    else
      match pos with
      | .thread t =>
        let c := (c.rtThreadResume others t).1
        resumeAllFrom w fuel n (c.kernel.tlinks.next n) c
      | _ => none

def rtSemDetach (s fuel : ℕ) (c : Cpu) : Option (Cpu × ℤ) :=
  let (temp, c) := c.rtHwInterruptDisable
  match c.kernel.sem s with
  | none => none
  | some _ =>
    let pos := c.kernel.tlinks.next (.semWait s)
    (c.resumeAllFrom others (.semWait s) fuel pos (c.kernel.tlinks.next pos)).map fun c =>
      (c.rtHwInterruptEnable others temp, RT_EOK)

/-! ## Mailboxes -/

/-- `rt_mb_send_wait` from its loop on, with interrupts disabled and `temp` saved. -/
def mbSendLoop (t : Tid) (m : ℕ) (value : BitVec 32) :
    ℕ → BitVec 32 → BitVec 32 → BitVec 32 → Cpu → Option (Cpu × ℤ)
  | 0, _, _, _, _ => none
  | fuel + 1, temp, timeout, tickDelta, c =>
    match c.kernel.mb m with
    | none => none
    | some x =>
      if x.entry = x.size then
        let c := c.onKernel (·.setError t RT_EOK)
        if timeout = 0 then some (c.rtHwInterruptEnable others temp, -RT_EFULL)
        else do
          let c ← c.rtDebugInThreadContext others
          let c := c.suspendOn others (.mbSend m) t
          let tickDelta := if 0 < timeout.toInt then c.kernel.systemTick else tickDelta
          let c := if 0 < timeout.toInt then c.armTimer others t timeout else c
          let c ← (c.rtHwInterruptEnable others temp).rtSchedule others
          if c.kernel.error t ≠ RT_EOK then return (c, c.kernel.error t)
          else
            let (temp, c) := c.rtHwInterruptDisable
            mbSendLoop t m value fuel temp
              (sendTimeLeft timeout tickDelta c.kernel.systemTick)
              (if 0 < timeout.toInt then c.kernel.systemTick - tickDelta else tickDelta) c
      else
        let c := c.onKernel (·.setMb m
          { x with
            msgPool := Function.update x.msgPool x.inOffset.toNat value
            inOffset := advance x.inOffset x.size
            entry := x.entry + 1 })
        c.endCall others (.mbRecv m) (fun t c => (c.rtThreadResume others t).1) temp

def rtMbSendWait (fuel m : ℕ) (value timeout : BitVec 32) (c : Cpu) : Option (Cpu × ℤ) :=
  match c.kernel.currentThread with
  | none => some (c, -RT_ERROR)
  | some t =>
    let (temp, c) := (c.preempt others).rtHwInterruptDisable
    match c.kernel.mb m with
    | none => none
    | some x =>
      if x.entry = x.size ∧ timeout = 0 then
        some (c.rtHwInterruptEnable others temp, -RT_EFULL)
      else c.mbSendLoop others t m value fuel temp timeout 0

/-- `rt_mb_recv` from its loop on.  The error is set after the level is written back. -/
def mbRecvLoop (t : Tid) (m : ℕ) :
    ℕ → BitVec 32 → BitVec 32 → BitVec 32 → Cpu → Option (Cpu × ℤ × Option (BitVec 32))
  | 0, _, _, _, _ => none
  | fuel + 1, temp, timeout, tickDelta, c =>
    match c.kernel.mb m with
    | none => none
    | some x =>
      if x.entry = 0 then
        let c := c.onKernel (·.setError t RT_EOK)
        if timeout = 0 then
          let c := c.rtHwInterruptEnable others temp
          some (c.onKernel (·.setError t (-RT_ETIMEOUT)), -RT_ETIMEOUT, none)
        else do
          let c ← c.rtDebugInThreadContext others
          let c := c.suspendOn others (.mbRecv m) t
          let tickDelta := if 0 < timeout then c.kernel.systemTick else tickDelta
          let c := if 0 < timeout then c.armTimer others t timeout else c
          let c ← (c.rtHwInterruptEnable others temp).rtSchedule others
          if c.kernel.error t ≠ RT_EOK then return (c, c.kernel.error t, none)
          else
            let (temp, c) := c.rtHwInterruptDisable
            mbRecvLoop t m fuel temp (recvTimeLeft timeout tickDelta c.kernel.systemTick)
              (if 0 < timeout then c.kernel.systemTick - tickDelta else tickDelta) c
      else
        let value := x.msgPool x.outOffset.toNat
        let c := c.onKernel (·.setMb m
          { x with
            outOffset := advance x.outOffset x.size
            entry := x.entry - 1 })
        (c.endCall others (.mbSend m) (fun t c => c.wakeThread others t) temp).map
          fun (c, r) => (c, r, some value)

def rtMbRecv (fuel m : ℕ) (timeout : BitVec 32) (c : Cpu) :
    Option (Cpu × ℤ × Option (BitVec 32)) :=
  match c.kernel.currentThread with
  | none => some (c, -RT_ERROR, none)
  | some t =>
    let (temp, c) := (c.preempt others).rtHwInterruptDisable
    match c.kernel.mb m with
    | none => none
    | some x =>
      if x.entry = 0 ∧ timeout = 0 then
        some (c.rtHwInterruptEnable others temp, -RT_ETIMEOUT, none)
      else c.mbRecvLoop others t m fuel temp timeout 0

/-! ## Creating and killing threads -/

/-- How `malloc` ends.  A size that is zero or too large is refused with the lock taken. -/
inductive Allocation
  | refused
  | noBlock
  | block
  deriving DecidableEq, Repr

/-- `malloc`, of which only the lock `heap_sem` matters here. -/
def malloc (heapSem : ℕ) (a : Allocation) (c : Cpu) : Option (Cpu × Bool) := do
  let c ← c.rtDebugNotInInterrupt others
  let (c, _) ← c.rtSemTake others heapSem RT_WAITING_FOREVER
  match a with
  | .refused => return (c, false)
  | .noBlock => (c.rtSemRelease others heapSem).map fun (c, _) => (c, false)
  | .block => (c.rtSemRelease others heapSem).map fun (c, _) => (c, true)

/-- `free` of a block of the heap. -/
def free (heapSem : ℕ) (c : Cpu) : Option Cpu := do
  let c ← c.rtDebugNotInInterrupt others
  let (c, _) ← c.rtSemTake others heapSem RT_WAITING_FOREVER
  let (c, _) ← c.rtSemRelease others heapSem
  return c

/-- `if (rt_current_thread != NULL) level = rt_hw_interrupt_disable();` -/
def disableIfRunning (c : Cpu) : Option (BitVec 32) × Cpu :=
  match c.kernel.currentThread with
  | none => (none, c)
  | some _ =>
    let (level, c) := (c.preempt others).rtHwInterruptDisable
    (some level, c)

/-- `if (rt_current_thread != NULL) rt_hw_interrupt_enable(level);` -/
def enableIfRunning (level : Option (BitVec 32)) (c : Cpu) : Option Cpu :=
  match c.kernel.currentThread, level with
  | none, _ => some c
  | some _, some level => some (c.rtHwInterruptEnable others level)
  | some _, none => none

/-- `thread_join_init`.  Each of its early ends leaves the level as it is.  A list is written
outside the table for a negative priority. -/
def threadJoinInit (heapSem : ℕ) (name : String) (stackSize priority runtick : BitVec 32)
    (thread stack : Allocation) (c : Cpu) : Option (Cpu × Option Tid) :=
  let (level, c) := c.disableIfRunning others
  if priority.toInt > (RT_THREAD_PRIORITY_MAX : ℤ) - 1 then some (c, none)
  else do
    let (c, newThread) ← c.malloc others heapSem thread
    if newThread = false then return (c, none)
    else if stackSize = 0 then (c.free others heapSem).map (·, none)
    else
      let (c, stackAddr) ← c.malloc others heapSem stack
      if stackAddr = false then (c.free others heapSem).map (·, none)
      else if priorityByte priority < RT_THREAD_PRIORITY_MAX then
        let join := LuojiOs.threadJoinInit name stackSize priority runtick true true
        let t := (join c.kernel).2
        ((c.onKernel fun σ => (join σ).1).enableIfRunning others level).map (·, t)
      else none

/-- The status, the timer and the lists of a thread that is killed. -/
def closeThread (t : Tid) (c : Cpu) : Cpu :=
  let c := c.onKernel (·.setStatu t .close)
  let c := (c.rtTimerStop others (.ofThread t)).1
  let c := c.rtScheduleRemoveThread others t
  c.onKernel fun σ => { σ with tlinks := σ.tlinks.insertAfter .dead (.thread t) }

def killThreadFun (id : BitVec 32) (c : Cpu) : Option Cpu :=
  let (temp, c) := c.rtHwInterruptDisable
  match findThreadById id c.kernel with
  | none => some (c.rtHwInterruptEnable others temp)
  | some t =>
    if (c.kernel.thread t).name ≠ "idle" ∧ (c.kernel.thread t).name ≠ "shell" then
      let c := c.closeThread others t
      if c.kernel.currentThread = some t then
        (c.rtSchedule others).map (·.rtHwInterruptEnable others temp)
      else some (c.rtHwInterruptEnable others temp)
    else some (c.rtHwInterruptEnable others temp)

/-! ## The calls -/

/-- A call of one of the functions above, with its arguments. -/
inductive LevelCall
  | threadSuspend (t : Tid) (statu : Statu)
  | threadResume (t : Tid)
  | threadSleep (tick : BitVec 32)
  | threadJoinInit (name : String) (stackSize priority runtick : BitVec 32)
      (thread stack : Allocation)
  | timerStart (k : TimerId)
  | timerStop (k : TimerId)
  | semTake (s : ℕ) (time : BitVec 32)
  | semRelease (s : ℕ)
  | semDetach (s : ℕ)
  | mbSendWait (m : ℕ) (value timeout : BitVec 32)
  | mbRecv (m : ℕ) (timeout : BitVec 32)
  | killThreadFun (id : BitVec 32)

/-- The processor when a call returns.  A loop takes at most `fuel` rounds. -/
def exec (heapSem fuel : ℕ) (c : Cpu) : LevelCall → Option Cpu
  | .threadSuspend t statu => some (c.rtThreadSuspend others t statu).1
  | .threadResume t => some (c.rtThreadResume others t).1
  | .threadSleep tick => (c.rtThreadSleep others tick).map Prod.fst
  | .threadJoinInit name stackSize priority runtick thread stack =>
    (c.threadJoinInit others heapSem name stackSize priority runtick thread stack).map Prod.fst
  | .timerStart k => some (c.rtTimerStart others k)
  | .timerStop k => some (c.rtTimerStop others k).1
  | .semTake s time => (c.rtSemTake others s time).map Prod.fst
  | .semRelease s => (c.rtSemRelease others s).map Prod.fst
  | .semDetach s => (c.rtSemDetach others s fuel).map Prod.fst
  | .mbSendWait m value timeout => (c.rtMbSendWait others fuel m value timeout).map Prod.fst
  | .mbRecv m timeout => (c.rtMbRecv others fuel m timeout).map Prod.fst
  | .killThreadFun id => c.killThreadFun others id

end Cpu

end LuojiOs
