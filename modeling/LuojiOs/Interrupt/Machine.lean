import LuojiOs.Kernel.Scheduler

/-!
# Stack pointers and interrupts

The assembly of `context_gcc.S` over the kernel: which stack pointer is saved in which
thread, and from which frame the processor goes on.  Of the registers in a frame only the
stack pointer is kept.  An address of a field `thread->sp` is given by the thread.

Interrupts are disabled in `rt_schedule` and in an interrupt, so that each of these is one
piece.  `chosen` records the threads that `rt_schedule` has chosen since the interrupt began,
newest first.  No function reads it.
-/

namespace LuojiOs

structure Machine where
  kernel : Kernel
  /-- `thread->sp` -/
  sp : Tid → BitVec 32
  /-- the register `sp` -/
  stackPointer : BitVec 32
  /-- the word at `PT_R29` of the frame at an address -/
  frameSp : BitVec 32 → BitVec 32
  threadSwitchInterruptFlag : BitVec 32
  interruptFromThread : Option Tid
  interruptToThread : Option Tid
  interruptNest : BitVec 32
  chosen : List Tid

namespace Machine

/-- A function of the kernel that does not call `rt_schedule`. -/
def onKernel (f : Kernel → Kernel) (m : Machine) : Machine := { m with kernel := f m.kernel }

/-! ## `context_gcc.S` -/

def PT_SIZE : BitVec 32 := 152

/-- `SAVE_ALL` -/
def saveAll (m : Machine) : Machine :=
  let frame := m.stackPointer - PT_SIZE
  { m with
    stackPointer := frame
    frameSp := Function.update m.frameSp frame m.stackPointer }

/-- `RESTORE_ALL_AND_RET` -/
def restoreAllAndRet (m : Machine) : Machine :=
  { m with stackPointer := m.frameSp m.stackPointer }

/-- `sw sp, 0(a0)` -/
def storeSp (t : Tid) (m : Machine) : Machine :=
  { m with sp := Function.update m.sp t m.stackPointer }

/-- `lw sp, 0(a1)` -/
def loadSp (t : Tid) (m : Machine) : Machine := { m with stackPointer := m.sp t }

def rtHwContextSwitch (fromThread toThread : Tid) (m : Machine) : Machine :=
  ((m.saveAll.storeSp fromThread).loadSp toThread).restoreAllAndRet

def rtHwContextSwitchTo (toThread : Tid) (m : Machine) : Machine :=
  (m.loadSp toThread).restoreAllAndRet

def rtHwContextSwitchInterrupt (fromThread toThread : Tid) (m : Machine) : Machine :=
  let m := if m.threadSwitchInterruptFlag = 0 then
      { m with threadSwitchInterruptFlag := 1, interruptFromThread := some fromThread }
    else m
  { m with interruptToThread := some toThread }

/-! ## Scheduling -/

def rtSchedule (m : Machine) : Option Machine :=
  match m.kernel.currentThread with
  | none => none
  | some fromThread =>
    if m.kernel.readyPriorityGroup ≠ 0 then
      match getHighestPriorityThread m.kernel with
      | none => none
      | some (toThread, _) =>
        if toThread ≠ fromThread then
          let m : Machine := { m.onKernel (switchThread fromThread toThread) with
            chosen := toThread :: m.chosen }
          if m.interruptNest = 0 then some (m.rtHwContextSwitch fromThread toThread)
          else some (m.rtHwContextSwitchInterrupt fromThread toThread)
        else none
    else some m

def rtThreadTimeout (t : Tid) (m : Machine) : Option Machine :=
  (m.onKernel (expireThread t)).rtSchedule

def runTimeoutFunc : TimeoutFunc → Machine → Option Machine
  | .rtThreadTimeout t, m => m.rtThreadTimeout t
  | .callback ops, m => some (m.onKernel fun σ => ops.foldl runTimerOp σ)

def checkTimer (k : TimerId) (m : Machine) : Option Machine :=
  if timerDue k m.kernel then
    let m := m.onKernel fun σ => { σ with timerLinks := σ.timerLinks.remove (.timer k) }
    match runTimeoutFunc (m.kernel.timer k).timeoutFunc m with
    | none => none
    | some m => some (m.onKernel fun σ => σ.setTimer k { σ.timer k with flag := .noActivated })
  else some m

def rtTimerCheckFrom : ℕ → TimerNode → TimerNode → Machine → Option Machine
  | 0, _, _, _ => none
  | _ + 1, .head, _, m => some m
  | fuel + 1, .timer k, n, m =>
    match m.checkTimer k with
    | none => none
    | some m => rtTimerCheckFrom fuel n (m.kernel.timerLinks.next n) m

def rtTimerCheck (fuel : ℕ) (m : Machine) : Option Machine :=
  let pos := m.kernel.timerLinks.next .head
  rtTimerCheckFrom fuel pos (m.kernel.timerLinks.next pos) m

def sysTickHandler (fuel : ℕ) (m : Machine) : Option Machine :=
  let m := m.onKernel sysTickIncrease
  match m.kernel.currentThread with
  | none => some m
  | some c =>
    let counted := m.onKernel fun σ => (countDown c σ).2
    if (countDown c m.kernel).1 then counted.rtSchedule.bind (rtTimerCheck fuel)
    else counted.rtTimerCheck fuel

/-! ## Interrupts -/

def rtInterruptEnter (m : Machine) : Machine :=
  { m with interruptNest := m.interruptNest + 1, chosen := [] }

def rtInterruptLeave (m : Machine) : Machine := { m with interruptNest := m.interruptNest - 1 }

/-- `handle_int` up to `spurious_interrupt`: `stackPointer` is then the frame from which the
processor goes on.  A store or a load through a null pointer has no result. -/
def handleIntFrame (platIrqDispatch : Machine → Option Machine) (m : Machine) :
    Option Machine :=
  let m := m.saveAll
  let k0 := m.stackPointer
  match platIrqDispatch m.rtInterruptEnter with
  | none => none
  | some m =>
    let m := { m.rtInterruptLeave with stackPointer := k0 }
    if m.threadSwitchInterruptFlag = 0 then some m
    else
      let m := { m with threadSwitchInterruptFlag := 0 }
      match m.interruptFromThread, m.interruptToThread with
      | some fromThread, some toThread => some ((m.storeSp fromThread).loadSp toThread)
      | _, _ => none

def handleInt (platIrqDispatch : Machine → Option Machine) (m : Machine) : Option Machine :=
  (m.handleIntFrame platIrqDispatch).map restoreAllAndRet

/-- What an interrupt handler does: kernel functions that leave `rt_current_thread` alone, and
calls of `rt_schedule`. -/
inductive IrqAct where
  | work (f : Kernel → Kernel)
  | schedule

def IrqAct.exec (m : Machine) : IrqAct → Option Machine
  | work f =>
    if (f m.kernel).currentThread = m.kernel.currentThread then some (m.onKernel f) else none
  | schedule => m.rtSchedule

/-- A handler, as the list of what it does. -/
def irqHandler : List IrqAct → Machine → Option Machine
  | [], m => some m
  | act :: acts, m => (act.exec m).bind (irqHandler acts)

/-! ## Runs -/

inductive MachineEvent where
  /-- code of the running thread that does not call `rt_schedule`; it may create threads and
  use its stack -/
  | work (f : Kernel → Kernel) (sp : Tid → BitVec 32) (stackPointer : BitVec 32)
      (frameSp : BitVec 32 → BitVec 32)
  | threadStart
  | schedule
  | tick (fuel : ℕ)
  | interrupt (acts : List IrqAct)

def step (m : Machine) : MachineEvent → Option Machine
  | .work f sp stackPointer frameSp =>
    if (f m.kernel).currentThread = m.kernel.currentThread then
      some { m.onKernel f with sp := sp, stackPointer := stackPointer, frameSp := frameSp }
    else none
  | .threadStart => do
    let σ ← LuojiOs.threadStart m.kernel
    let toThread ← σ.currentThread
    return (m.onKernel fun _ => σ).rtHwContextSwitchTo toThread
  | .schedule => m.rtSchedule
  | .tick fuel => m.handleInt (sysTickHandler fuel)
  | .interrupt acts => m.handleInt (irqHandler acts)

/-- The globals of `os.c` before any interrupt. -/
structure Boot (m : Machine) : Prop where
  flag : m.threadSwitchInterruptFlag = 0
  nest : m.interruptNest = 0

end Machine

end LuojiOs
