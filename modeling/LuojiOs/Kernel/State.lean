import LuojiOs.Support.CircularList
import Mathlib.Data.Int.Notation
import Mathlib.Data.Nat.Notation

/-!
# The kernel state of `os/thread.c`

Threads, timers, semaphores and mailboxes as `rtdef.h` and `thread.h` declare
them.  Every `tlist` node and every list head it can be linked on is a `TNode`,
and the two pointers of these nodes are kept as memory (`Links`), so that a node
linked twice corrupts the lists here as it does on the board.

A call that blocks stops at its `rt_schedule()`.  What is left of it is kept in
the `frame` of the calling thread, and the thread goes on from there when it is
the current thread again.

`trace` records the calls, wake-ups and returns in the order they happen, newest
first.  No function reads it.
-/

namespace LuojiOs

open CircularList

/-! ## Constants of `rtdef.h` -/

def RT_THREAD_PRIORITY_MAX : ℕ := 32
def RT_NAME_MAX : ℕ := 24

def RT_EOK : ℤ := 0
def RT_ERROR : ℤ := 1
def RT_ETIMEOUT : ℤ := 2
def RT_EFULL : ℤ := 3

/-- `-1` as the `int` argument of a blocking call. -/
def RT_WAITING_FOREVER : BitVec 32 := 0xffffffff#32

/-- The values of `thread->statu`. -/
inductive Statu
  | init
  | ready
  | suspend
  | sleep
  | running
  | close
  | deadSleep
  deriving DecidableEq, Repr

/-- The values stored in `timer->flag`. -/
inductive TimerFlag
  | noActivated
  | activated
  deriving DecidableEq, Repr

/-! ## Objects -/

abbrev Tid := ℕ

/-- The heads a thread's `tlist` can be linked on, and the `tlist` nodes. -/
inductive TNode
  | ready (p : ℕ)
  | dead
  | semWait (s : ℕ)
  | mbRecv (m : ℕ)
  | mbSend (m : ℕ)
  | thread (t : Tid)
  deriving DecidableEq, Repr

/-- The `suspend_thread_list` and `suspend_sender_thread` heads. -/
def TNode.isWait : TNode → Bool
  | .semWait _ | .mbRecv _ | .mbSend _ => true
  | _ => false

def TNode.isThread : TNode → Bool
  | .thread _ => true
  | _ => false

/-- The timer embedded in a thread, or one declared elsewhere. -/
inductive TimerId
  | ofThread (t : Tid)
  | other (u : ℕ)
  deriving DecidableEq, Repr

/-- `rt_timer_list` and the `timelist` nodes. -/
inductive TimerNode
  | head
  | timer (k : TimerId)
  deriving DecidableEq, Repr

/-- What a timeout callback does to timers. -/
inductive TimerOp
  | start (u : ℕ)
  | stop (u : ℕ)
  deriving DecidableEq, Repr

/-- `timer->timeout_func` with its parameter. -/
inductive TimeoutFunc
  | rtThreadTimeout (t : Tid)
  | callback (ops : List TimerOp)
  deriving DecidableEq, Repr

structure Timer where
  flag : TimerFlag
  timeoutFunc : TimeoutFunc
  initTick : BitVec 32
  timeoutTick : BitVec 32
  deriving DecidableEq, Repr

/-- The fields of `struct rt_thread` that are written once, at creation. -/
structure Thread where
  name : String
  id : BitVec 32
  currentPriority : ℕ
  numberMask : BitVec 32
  initTick : BitVec 32
  deriving DecidableEq, Repr

structure Sem where
  value : BitVec 16
  deriving DecidableEq, Repr

structure Mailbox where
  msgPool : ℕ → BitVec 32
  size : BitVec 16
  entry : BitVec 16
  inOffset : BitVec 16
  outOffset : BitVec 16

/-- What an observer of the calls sees. -/
inductive Obs
  /-- `t` was linked on the wait list `w` -/
  | blocked (w : TNode) (t : Tid)
  /-- the first thread `t` of the wait list `w` was resumed for its turn -/
  | woke (w : TNode) (t : Tid)
  /-- `t`, which waited on `w`, returned from its `rt_schedule()` -/
  | ranAgain (w : TNode) (t : Tid)
  /-- `rt_thread_timeout` ran for `t` -/
  | expired (t : Tid)
  | semInit (s : ℕ) (value : BitVec 32)
  | semTaken (s : ℕ)
  | semReleased (s : ℕ)
  | semTakeRet (s : ℕ) (t : Option Tid) (time : BitVec 32) (r : ℤ)
  | sent (m : ℕ) (v : BitVec 32)
  | received (m : ℕ) (v : BitVec 32)
  | mbSendRet (m : ℕ) (t : Option Tid) (timeout : BitVec 32) (r : ℤ)
  | mbRecvRet (m : ℕ) (t : Option Tid) (timeout : BitVec 32) (r : ℤ)
  deriving DecidableEq, Repr

/-- What a call still has to do when its `rt_schedule()` has returned. -/
inductive After
  /-- nothing but return -/
  | ret (r : Option Obs)
  /-- `rt_sem_take`: look at `thread->error` -/
  | semTake (s : ℕ) (time : BitVec 32)
  /-- `rt_mb_send_wait`: look at `thread->error`, then test the ring again.
  `orig` is the timeout the call was made with. -/
  | mbSend (m : ℕ) (value orig timeout tickDelta : BitVec 32)
  /-- `rt_mb_recv`: likewise -/
  | mbRecv (m : ℕ) (orig timeout tickDelta : BitVec 32)
  deriving DecidableEq, Repr

/-- Where a thread stands. -/
inductive Frame
  /-- in its own code -/
  | run
  /-- in its own code, after an `rt_thread_suspend` of itself and before any
  `rt_schedule` -/
  | suspended
  /-- inside a call, interrupts enabled again, just before `rt_schedule()` -/
  | schedule (k : After)
  /-- inside a call, at the return of `rt_schedule()` -/
  | after (k : After)
  deriving DecidableEq, Repr

/-- The globals of `thread.c` and the objects they reach. -/
structure Kernel where
  /-- pointers of the `tlist` nodes and their heads -/
  tlinks : Links TNode
  /-- pointers of `rt_timer_list` and the `timelist` nodes -/
  timerLinks : Links TimerNode
  /-- `rt_all_thread`: the threads created and not yet cleaned up -/
  allThread : List Tid
  /-- the address the next `malloc` of a thread returns -/
  nextTid : Tid
  threadIdIndex : BitVec 32
  thread : Tid → Thread
  statu : Tid → Statu
  error : Tid → ℤ
  remainingTick : Tid → BitVec 32
  frame : Tid → Frame
  timer : TimerId → Timer
  sem : ℕ → Option Sem
  mb : ℕ → Option Mailbox
  currentThread : Option Tid
  readyPriorityGroup : BitVec 32
  systemTick : BitVec 32
  /-- the processor was stopped by a write outside `rt_thread_priority_table` -/
  fault : Bool
  trace : List Obs

namespace Kernel

def setStatu (t : Tid) (s : Statu) (σ : Kernel) : Kernel :=
  { σ with statu := Function.update σ.statu t s }

def setError (t : Tid) (e : ℤ) (σ : Kernel) : Kernel :=
  { σ with error := Function.update σ.error t e }

def setFrame (t : Tid) (f : Frame) (σ : Kernel) : Kernel :=
  { σ with frame := Function.update σ.frame t f }

def setTimer (k : TimerId) (x : Timer) (σ : Kernel) : Kernel :=
  { σ with timer := Function.update σ.timer k x }

/-- `thread->thread_timer.init_tick = tick` -/
def setInitTick (t : Tid) (tick : BitVec 32) (σ : Kernel) : Kernel :=
  σ.setTimer (.ofThread t) { σ.timer (.ofThread t) with initTick := tick }

def setSem (s : ℕ) (x : Sem) (σ : Kernel) : Kernel :=
  { σ with sem := Function.update σ.sem s (some x) }

def setMb (m : ℕ) (x : Mailbox) (σ : Kernel) : Kernel :=
  { σ with mb := Function.update σ.mb m (some x) }

def emit (o : Obs) (σ : Kernel) : Kernel :=
  { σ with trace := o :: σ.trace }

end Kernel

/-- `thread_init`: every head is empty, no thread exists and none is current.
Nodes that have not been initialised yet are given self-links. -/
def threadInit (systemTick : BitVec 32) : Kernel where
  tlinks := ⟨id, id⟩
  timerLinks := ⟨id, id⟩
  allThread := []
  nextTid := 0
  threadIdIndex := 1
  thread _ := ⟨"", 0, 0, 0, 0⟩
  statu _ := .init
  error _ := RT_EOK
  remainingTick _ := 0
  frame _ := .run
  timer _ := ⟨.noActivated, .callback [], 0, 0⟩
  sem _ := none
  mb _ := none
  currentThread := none
  readyPriorityGroup := 0
  systemTick := systemTick
  fault := false
  trace := []

end LuojiOs
