import LuojiOs.Kernel.Scheduler

/-!
# Semaphores and mailboxes

The semaphore and mailbox functions of `os/thread.c`.  A blocking call is cut at
its `rt_schedule()`: the part before it ends by storing the rest of the call in
the frame of the caller, and the functions named `...After` are the parts that
follow.  The `while` loops of the mailbox calls are entered again at each return
from `rt_schedule()`, so one evaluation of the loop condition is one function
here.

Functions that may have to call `rt_schedule()` as their last action return this
as a flag, as `need_schedule` does in `rt_sem_release`.
-/

namespace LuojiOs

open CircularList

/-- The first thread on a wait list: `none` for an empty list, and no result when
what the head points at is not a thread. -/
def firstWaiter (w : TNode) (σ : Kernel) : Option (Option Tid) :=
  if σ.tlinks.isEmpty w then some none
  else
    match σ.tlinks.next w with
    | .thread t => some (some t)
    | _ => none

/-- `rt_thread_suspend(thread, RT_THREAD_SUSPEND)`, whose result is not looked at,
followed by `rt_list_insert_before(&list, &(thread->tlist))`. -/
def suspendOn (w : TNode) (t : Tid) (σ : Kernel) : Kernel :=
  let σ := (rtThreadSuspend t .suspend σ).1
  let σ := { σ with tlinks := σ.tlinks.insertBefore w (.thread t) }
  σ.emit (.blocked w t)

/-- `thread->thread_timer.init_tick = time; rt_timer_start(&thread->thread_timer)` -/
def armTimer (t : Tid) (time : BitVec 32) (σ : Kernel) : Kernel :=
  rtTimerStart (.ofThread t) (σ.setInitTick t time)

/-! ## Semaphores -/

/-- `rt_sem_init` and `rt_sem_create`, on memory that is not a semaphore yet. -/
def rtSemInit (s : ℕ) (value : BitVec 32) (σ : Kernel) : Kernel :=
  let σ := { σ with tlinks := σ.tlinks.init (.semWait s) }
  (σ.setSem s ⟨value.setWidth 16⟩).emit (.semInit s value)

/-- `rt_sem_take` up to its `rt_schedule()`. -/
def rtSemTake (s : ℕ) (time : BitVec 32) (σ : Kernel) : Option Kernel :=
  match σ.sem s with
  | none => none
  | some x =>
    if 0 < x.value then
      let σ := (σ.setSem s ⟨x.value - 1⟩).emit (.semTaken s)
      some (σ.emit (.semTakeRet s σ.currentThread time RT_EOK))
    else if time = 0 then
      some (σ.emit (.semTakeRet s σ.currentThread time (-RT_ETIMEOUT)))
    else
      match σ.currentThread with
      | none => none -- the assertion of `RT_DEBUG_IN_THREAD_CONTEXT`
      | some t =>
        let σ := σ.setError t RT_EOK
        let σ := suspendOn (.semWait s) t σ
        let σ := if 0 < time.toInt then armTimer t time σ else σ
        some (σ.setFrame t (.schedule (.semTake s time)))

/-- The rest of `rt_sem_take`. -/
def rtSemTakeAfter (t : Tid) (s : ℕ) (time : BitVec 32) (σ : Kernel) : Kernel :=
  let σ := (σ.emit (.ranAgain (.semWait s) t)).setFrame t .run
  if σ.error t ≠ RT_EOK then
    σ.emit (.semTakeRet s (some t) time (σ.error t))
  else
    σ.emit (.semTakeRet s (some t) time RT_EOK)

/-- `rt_sem_release` up to its `rt_schedule()`, with `need_schedule`. -/
def rtSemRelease (s : ℕ) (σ : Kernel) : Option (Kernel × Bool) :=
  match σ.sem s with
  | none => none
  | some x =>
    match firstWaiter (.semWait s) σ with
    | none => none
    | some none => some ((σ.setSem s ⟨x.value + 1⟩).emit (.semReleased s), false)
    | some (some t) =>
      let σ := ((σ.emit (.semReleased s)).emit (.woke (.semWait s) t))
      some ((rtThreadResume t σ).1, true)

/-- `rt_list_for_each_entry_safe` over a wait list, resuming each thread. -/
def resumeAllFrom (w : TNode) : ℕ → TNode → TNode → Kernel → Option Kernel
  | 0, _, _, _ => none
  | fuel + 1, pos, n, σ =>
    if pos = w then some σ
    else
      match pos with
      | .thread t =>
        let σ := (rtThreadResume t σ).1
        resumeAllFrom w fuel n (σ.tlinks.next n) σ
      | _ => none

def rtSemDetach (s fuel : ℕ) (σ : Kernel) : Option Kernel :=
  match σ.sem s with
  | none => none
  | some _ =>
    let pos := σ.tlinks.next (.semWait s)
    resumeAllFrom (.semWait s) fuel pos (σ.tlinks.next pos) σ

/-! ## Mailboxes -/

/-- `rt_mb_init` and `rt_mb_create`, on memory that is not a mailbox yet. -/
def rtMbInit (m : ℕ) (size : BitVec 32) (σ : Kernel) : Kernel :=
  let σ := { σ with tlinks := (σ.tlinks.init (.mbRecv m)).init (.mbSend m) }
  σ.setMb m
    { msgPool := fun _ => 0, size := size.setWidth 16, entry := 0, inOffset := 0,
      outOffset := 0 }

/-- `++offset; if (offset >= size) offset = 0;` -/
def advance (offset size : BitVec 16) : BitVec 16 :=
  if size ≤ offset + 1 then 0 else offset + 1

/-- `rt_mb_send_wait` from the end of its loop: store the value and wake a
receiver. -/
def mbPut (m : ℕ) (x : Mailbox) (value : BitVec 32) (σ : Kernel) :
    Option (Kernel × Bool) :=
  let σ := (σ.setMb m
    { x with
      msgPool := Function.update x.msgPool x.inOffset.toNat value
      inOffset := advance x.inOffset x.size
      entry := x.entry + 1 }).emit (.sent m value)
  match firstWaiter (.mbRecv m) σ with
  | none => none
  | some none => some (σ, false)
  | some (some t) => some ((rtThreadResume t (σ.emit (.woke (.mbRecv m) t))).1, true)

/-- End a call: with `rt_schedule()` still to come, or at once. -/
def finish (t : Tid) (r : Obs) : Kernel × Bool → Kernel
  | (σ, true) => σ.setFrame t (.schedule (.ret (some r)))
  | (σ, false) => σ.emit r

/-- One evaluation of `while (mb->entry == mb->size)` by the thread `t`, the body
up to `rt_schedule()` included, or the rest of the call. -/
def mbSendLoop (t : Tid) (m : ℕ) (value orig timeout tickDelta : BitVec 32)
    (σ : Kernel) : Option Kernel :=
  match σ.mb m with
  | none => none
  | some x =>
    if x.entry = x.size then
      let σ := σ.setError t RT_EOK
      if timeout = 0 then
        some (σ.emit (.mbSendRet m (some t) orig (-RT_EFULL)))
      else
        let σ := suspendOn (.mbSend m) t σ
        if 0 < timeout.toInt then
          let σ := armTimer t timeout σ
          some (σ.setFrame t (.schedule (.mbSend m value orig timeout σ.systemTick)))
        else
          some (σ.setFrame t (.schedule (.mbSend m value orig timeout tickDelta)))
    else
      (mbPut m x value σ).map (finish t (.mbSendRet m (some t) orig RT_EOK))

/-- `rt_mb_send_wait` up to its `rt_schedule()`. -/
def rtMbSendWait (m : ℕ) (value timeout : BitVec 32) (σ : Kernel) : Option Kernel :=
  match σ.currentThread with
  | none => some (σ.emit (.mbSendRet m none timeout (-RT_ERROR)))
  | some t =>
    match σ.mb m with
    | none => none
    | some x =>
      if x.entry = x.size ∧ timeout = 0 then
        some (σ.emit (.mbSendRet m (some t) timeout (-RT_EFULL)))
      else mbSendLoop t m value timeout timeout 0 σ

/-- The remaining timeout of a sender, an `int`, after it was woken. -/
def sendTimeLeft (timeout tickDelta now : BitVec 32) : BitVec 32 :=
  if 0 < timeout.toInt then
    let timeout := timeout - (now - tickDelta)
    if timeout.toInt < 0 then 0 else timeout
  else timeout

/-- The rest of `rt_mb_send_wait` at a return from `rt_schedule()`. -/
def rtMbSendAfter (t : Tid) (m : ℕ) (value orig timeout tickDelta : BitVec 32)
    (σ : Kernel) : Option Kernel :=
  let σ := (σ.emit (.ranAgain (.mbSend m) t)).setFrame t .run
  if σ.error t ≠ RT_EOK then
    some (σ.emit (.mbSendRet m (some t) orig (σ.error t)))
  else
    let delta := if 0 < timeout.toInt then σ.systemTick - tickDelta else tickDelta
    mbSendLoop t m value orig (sendTimeLeft timeout tickDelta σ.systemTick) delta σ

/-- `rt_mb_recv` from the end of its loop: take the value and wake a sender.  The
wake-up is a copy of `rt_thread_resume` without its test of `statu`. -/
def mbTake (m : ℕ) (x : Mailbox) (σ : Kernel) : Option (Kernel × Bool) :=
  let σ := (σ.setMb m
    { x with
      outOffset := advance x.outOffset x.size
      entry := x.entry - 1 }).emit (.received m (x.msgPool x.outOffset.toNat))
  match firstWaiter (.mbSend m) σ with
  | none => none
  | some none => some (σ, false)
  | some (some t) => some (wakeThread t (σ.emit (.woke (.mbSend m) t)), true)

/-- One evaluation of `while (mb->entry == 0)` by the thread `t`. -/
def mbRecvLoop (t : Tid) (m : ℕ) (orig timeout tickDelta : BitVec 32)
    (σ : Kernel) : Option Kernel :=
  match σ.mb m with
  | none => none
  | some x =>
    if x.entry = 0 then
      let σ := σ.setError t RT_EOK
      if timeout = 0 then
        let σ := σ.setError t (-RT_ETIMEOUT)
        some (σ.emit (.mbRecvRet m (some t) orig (-RT_ETIMEOUT)))
      else
        let σ := suspendOn (.mbRecv m) t σ
        -- `timeout` is unsigned here, so `timeout > 0` is `timeout ≠ 0`
        if 0 < timeout then
          let σ := armTimer t timeout σ
          some (σ.setFrame t (.schedule (.mbRecv m orig timeout σ.systemTick)))
        else
          some (σ.setFrame t (.schedule (.mbRecv m orig timeout tickDelta)))
    else
      (mbTake m x σ).map (finish t (.mbRecvRet m (some t) orig RT_EOK))

/-- `rt_mb_recv` up to its `rt_schedule()`. -/
def rtMbRecv (m : ℕ) (timeout : BitVec 32) (σ : Kernel) : Option Kernel :=
  match σ.currentThread with
  | none => some (σ.emit (.mbRecvRet m none timeout (-RT_ERROR)))
  | some t =>
    match σ.mb m with
    | none => none
    | some x =>
      if x.entry = 0 ∧ timeout = 0 then
        some (σ.emit (.mbRecvRet m (some t) timeout (-RT_ETIMEOUT)))
      else mbRecvLoop t m timeout timeout 0 σ

/-- The remaining timeout of a receiver, an `unsigned int`, after it was woken:
the test `timeout < 0` never holds. -/
def recvTimeLeft (timeout tickDelta now : BitVec 32) : BitVec 32 :=
  if 0 < timeout then timeout - (now - tickDelta) else timeout

/-- The rest of `rt_mb_recv` at a return from `rt_schedule()`. -/
def rtMbRecvAfter (t : Tid) (m : ℕ) (orig timeout tickDelta : BitVec 32)
    (σ : Kernel) : Option Kernel :=
  let σ := (σ.emit (.ranAgain (.mbRecv m) t)).setFrame t .run
  if σ.error t ≠ RT_EOK then
    some (σ.emit (.mbRecvRet m (some t) orig (σ.error t)))
  else
    let delta := if 0 < timeout then σ.systemTick - tickDelta else tickDelta
    mbRecvLoop t m orig (recvTimeLeft timeout tickDelta σ.systemTick) delta σ

end LuojiOs
