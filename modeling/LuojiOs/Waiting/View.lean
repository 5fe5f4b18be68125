import LuojiOs.Scheduler.Events

/-!
# The waiting protocol

An abstract machine of threads that run, block on a list, are woken from it and
run again.  A `View` forgets the pointers, the bitmap, the clock and the timers of
the kernel and keeps, for each thread, where it is linked, where it stands in its
code, its error code and whether its timer runs, and for each wait list the
threads on it in order.

`View.Step Q N M e` are the moves of the machine on the event `e`; the facts that
hold only under the conditions `Q`, `N` and `M` on the event are guarded by them.
-/

namespace LuojiOs

open CircularList

/-- One thread as the waiting protocol sees it. -/
structure ThreadView where
  statu : Statu
  home : Option TNode
  frame : Frame
  error : ℤ
  armed : Bool

structure View where
  live : List Tid
  next : Tid
  current : Option Tid
  thr : Tid → ThreadView
  queue : TNode → List Tid
  sem : ℕ → Option Sem
  mb : ℕ → Option Mailbox
  trace : List Obs

/-- The thread is in its own code and can make a call. -/
def Frame.free : Frame → Bool
  | .run | .suspended => true
  | _ => false

namespace View

/-! ## Moves of one thread -/

/-- Replace the thread `t`, which stays on its list. -/
def set (t : Tid) (x : ThreadView) (v : View) : View :=
  { v with thr := Function.update v.thr t x }

/-- Replace the thread `t` and take it to the end of the list that `x` names. -/
def move (t : Tid) (x : ThreadView) (v : View) : View :=
  { v with
    thr := Function.update v.thr t x
    queue := fun w =>
      if x.home = some w ∧ w.isWait = true then (v.queue w).erase t ++ [t]
      else (v.queue w).erase t }

def emit (o : Obs) (v : View) : View :=
  { v with trace := o :: v.trace }

def setSem (s : ℕ) (x : Sem) (v : View) : View :=
  { v with sem := Function.update v.sem s (some x) }

def setMb (m : ℕ) (x : Mailbox) (v : View) : View :=
  { v with mb := Function.update v.mb m (some x) }

def setFrame (t : Tid) (f : Frame) (v : View) : View :=
  v.set t { v.thr t with frame := f }

def setError (t : Tid) (r : ℤ) (v : View) : View :=
  v.set t { v.thr t with error := r }

/-- The thread `t`, taken off its list, ready with priority `p` or running. -/
def awake (p : ℕ) (t : Tid) (v : View) : ThreadView :=
  { v.thr t with
    statu := if v.current = some t then .running else .ready
    home := if v.current = some t then none else some (.ready p)
    armed := false }

def wake (p : ℕ) (t : Tid) (v : View) : View :=
  v.move t (v.awake p t)

def park (t : Tid) (w : TNode) (k : After) (v : View) : View :=
  (v.move t ⟨.suspend, some w, .schedule k, RT_EOK, k.arm.isSome⟩).emit (.blocked w t)

def rerun (t : Tid) (w : TNode) (v : View) : View :=
  (v.setFrame t .run).emit (.ranAgain w t)

def create (t : Tid) (p : ℕ) (v : View) : View :=
  { v.set t ⟨.ready, some (.ready p), .run, RT_EOK, false⟩ with
    live := t :: v.live
    next := t + 1 }

def dispatch (t : Tid) (v : View) : View :=
  { v.set t { v.thr t with statu := .running, home := none } with current := some t }

/-- The caller `c` of `rt_schedule`, with its frame set to `f`. -/
def left (c : Tid) (q : ℕ) (f : Frame) (v : View) : ThreadView :=
  if (v.thr c).statu.runnable then
    { v.thr c with statu := .ready, home := some (.ready q), frame := f }
  else { v.thr c with frame := f }

/-- Switch from `c`, which has priority `q`, to `d`. -/
def switch (c d : Tid) (q : ℕ) (f : Frame) (v : View) : View :=
  (v.set c (v.left c q f)).dispatch d

def close (t : Tid) (v : View) : View :=
  v.move t { v.thr t with statu := .close, home := some .dead, armed := false }

def clean (t : Tid) (v : View) : View :=
  { v.move t { v.thr t with home := none } with live := v.live.filter (· ≠ t) }

theorem setFrame_move (t : Tid) (x : ThreadView) (f : Frame) (v : View) :
    (v.move t x).setFrame t f = v.move t { x with frame := f } := by
  simp [setFrame, set, move]

theorem switch_setFrame {c d : Tid} (q : ℕ) (f : Frame) (v : View) :
    (v.setFrame c f).switch c d q f = v.switch c d q f := by
  simp [switch, setFrame, set, left, dispatch]

/-! ## One test of a mailbox loop -/

/-- The ring cannot serve the call. -/
def Stuck (m : ℕ) (x : Mailbox) : After → Prop
  | .mbSend n .. => n = m ∧ x.entry = x.size
  | .mbRecv n .. => n = m ∧ x.entry = 0
  | _ => False

/-- The ring serves the call: it becomes `x'`, `o` is reported and the list `w`
is looked at for a thread to wake. -/
inductive Serves (m : ℕ) (x : Mailbox) : After → Mailbox → Obs → TNode → Prop
  | put {value orig timeout tickDelta : BitVec 32} (hne : x.entry ≠ x.size) :
      Serves m x (.mbSend m value orig timeout tickDelta) (x.put value) (.sent m value)
        (.mbRecv m)
  | take {orig timeout tickDelta : BitVec 32} (hne : x.entry ≠ 0) :
      Serves m x (.mbRecv m orig timeout tickDelta) x.take
        (.received m (x.msgPool x.outOffset.toNat)) (.mbSend m)

inductive Turn (t : Tid) : After → View → View → Prop
  | giveUp {m : ℕ} {x : Mailbox} {k : After} {r err : ℤ} {o : Obs} {v : View}
      (hx : v.mb m = some x) (hk : Stuck m x k) (ho : k.retObs t r = some o) :
      Turn t k v ((v.setError t err).emit o)
  | park {m : ℕ} {x : Mailbox} {k k' : After} {w : TNode} {v : View}
      (hx : v.mb m = some x) (hk : Stuck m x k) (hk' : k'.head = some w)
      (hw : k.head = some w) (hrun : (v.thr t).statu = .running) :
      Turn t k v (v.park t w k')
  | pass {m : ℕ} {x x' : Mailbox} {k : After} {w : TNode} {o r : Obs} {v : View}
      (hx : v.mb m = some x) (hk : Serves m x k x' o w) (hq : v.queue w = [])
      (hr : k.retObs t RT_EOK = some r) :
      Turn t k v (((v.setMb m x').emit o).emit r)
  | passWake {m : ℕ} {x x' : Mailbox} {k : After} {w : TNode} {o r : Obs} {u : Tid}
      {us : List Tid} {p : ℕ} {v : View} (hx : v.mb m = some x)
      (hk : Serves m x k x' o w) (hq : v.queue w = u :: us) (hu : u ∈ v.live)
      (hs : (v.thr u).statu = .suspend) (hr : k.retObs t RT_EOK = some r) :
      Turn t k v (((((v.setMb m x').emit o).emit (.woke w u)).wake p u).setFrame t
        (.schedule (.ret (some r))))

/-! ## The moves -/

/-- The moves of the machine on the event `e`. -/
inductive Step (Q N : Prop) (M : ℕ → Prop) (e : Event) : View → View → Prop
  | create {t : Tid} {p : ℕ} {v : View} (ht : t = v.next) (hcur : v.current ≠ some t)
      (hlive : t ∉ v.live) (hq : ∀ w, t ∉ v.queue w) : Step Q N M e v (v.create t p)
  | dispatch {t : Tid} {p : ℕ} {v : View} (hc : v.current = none) (ht : t ∈ v.live)
      (hs : (v.thr t).statu = .ready) (hh : (v.thr t).home = some (.ready p)) :
      Step Q N M e v (v.dispatch t)
  /-- `rt_schedule()` switches; `f` is where the caller stands from now on -/
  | leave {c d : Tid} {p q : ℕ} {f : Frame} {v : View} (hc : v.current = some c)
      (hne : d ≠ c) (hd : d ∈ v.live) (hs : (v.thr d).statu = .ready)
      (hh : (v.thr d).home = some (.ready p))
      (hf : f = (v.thr c).frame ∨
        ∃ k, f = .after k ∧ ((v.thr c).frame = .schedule k ∨
          (v.thr c).frame.free = true ∧ k = .ret none)) :
      Step Q N M e v (v.switch c d q f)
  /-- `rt_schedule()` returns at once -/
  | stay {c : Tid} {k : After} {v : View} (hc : v.current = some c)
      (hQ : Q → (v.thr c).statu = .running)
      (hf : (v.thr c).frame = .schedule k ∨ (v.thr c).frame.free = true ∧ k = .ret none) :
      Step Q N M e v (v.setFrame c (.after k))
  | suspend {t : Tid} {s : Statu} {f : Frame} {v : View}
      (he : e = .call (.rtThreadSuspend t s)) (ht : t ∈ v.live)
      (hs : (v.thr t).statu = .ready ∨ (v.thr t).statu = .running) (hQ : Q → s = .sleep)
      (hf : v.current = some t ∧ (v.thr t).frame.free = true ∧ f = .suspended ∨
        v.current ≠ some t ∧ f = (v.thr t).frame) :
      Step Q N M e v
        (v.move t { v.thr t with statu := s, home := none, armed := false, frame := f })
  | sleep {t : Tid} {v : View} (hc : v.current = some t)
      (hs : (v.thr t).statu = .running) (hf : (v.thr t).frame.free = true) :
      Step Q N M e v (v.move t
        ⟨.sleep, none, .schedule (.ret none), (v.thr t).error, true⟩)
  | enter {t : Tid} {v : View} (hc : v.current = some t)
      (hf : (v.thr t).frame.free = true) :
      Step Q N M e v (v.setFrame t (.schedule (.ret none)))
  | close {t : Tid} {v : View} (ht : t ∈ v.live)
      (hself : v.current = some t → (v.thr t).frame = .schedule (.ret none))
      (hkill : (v.current ≠ some t) → ∃ id, e = .call (.killThreadFun id)) :
      Step Q N M e v (v.close t)
  | clean {t : Tid} {v : View} (hh : (v.thr t).home = some .dead)
      (hc : v.current ≠ some t) : Step Q N M e v (v.clean t)
  | resume {t : Tid} {p : ℕ} {v : View} (ht : t ∈ v.live)
      (hs : (v.thr t).statu.isBlocked = true) (hN : N → (v.thr t).statu = .sleep) :
      Step Q N M e v (v.wake p t)
  | expire {t : Tid} {p : ℕ} {v : View} (ht : t ∈ v.live) (harm : (v.thr t).armed = true)
      (hs : (v.thr t).statu.isBlocked = true) :
      Step Q N M e v ((v.move t { v.awake p t with error := -RT_ETIMEOUT }).emit (.expired t))
  | semInit {s : ℕ} {value : BitVec 32} {v : View} (hs : v.sem s = none)
      (hq : v.queue (.semWait s) = []) :
      Step Q N M e v ((v.setSem s ⟨value.setWidth 16⟩).emit (.semInit s value))
  | mbInit {m : ℕ} {size : BitVec 32} {v : View} (hm : v.mb m = none)
      (hq : v.queue (.mbRecv m) = []) (hq' : v.queue (.mbSend m) = []) :
      Step Q N M e v (v.setMb m ⟨fun _ => 0, size.setWidth 16, 0, 0, 0⟩)
  | semTaken {s : ℕ} {x : Sem} {c : Option Tid} {time : BitVec 32} {v : View}
      (hx : v.sem s = some x) (hpos : 0 < x.value) :
      Step Q N M e v (((v.setSem s ⟨x.value - 1⟩).emit (.semTaken s)).emit
        (.semTakeRet s c time RT_EOK))
  | semRefused {s : ℕ} {c : Option Tid} {time : BitVec 32} {v : View} :
      Step Q N M e v (v.emit (.semTakeRet s c time (-RT_ETIMEOUT)))
  | report {o : Obs} {v : View} (ho : o.prompt = true) : Step Q N M e v (v.emit o)
  | semPark {s : ℕ} {x : Sem} {time : BitVec 32} {t : Tid} {v : View}
      (hx : v.sem s = some x) (hzero : ¬0 < x.value) (hc : v.current = some t)
      (hrun : (v.thr t).statu = .running) (hf : (v.thr t).frame.free = true) :
      Step Q N M e v (v.park t (.semWait s) (.semTake s time))
  | semUp {s : ℕ} {x : Sem} {v : View}
      (hx : v.sem s = some x) (hM : M s → x.value ≠ 65535)
      (hq : v.queue (.semWait s) = []) :
      Step Q N M e v ((v.setSem s ⟨x.value + 1⟩).emit (.semReleased s))
  | semHand {s : ℕ} {x : Sem} {u : Tid} {us : List Tid} {p : ℕ} {v : View}
      (hx : v.sem s = some x) (hq : v.queue (.semWait s) = u :: us) (hu : u ∈ v.live)
      (hs : (v.thr u).statu = .suspend) :
      Step Q N M e v (((v.emit (.semReleased s)).emit (.woke (.semWait s) u)).wake p u)
  /-- `rt_mb_send` of an interrupt handler, up to its `rt_schedule()` -/
  | post {m : ℕ} {x x' : Mailbox} {k : After} {w : TNode} {o : Obs} {v : View}
      (hx : v.mb m = some x) (hk : Serves m x k x' o w) (hq : v.queue w = []) :
      Step Q N M e v ((v.setMb m x').emit o)
  | postWake {m : ℕ} {x x' : Mailbox} {k : After} {w : TNode} {o : Obs} {u : Tid}
      {us : List Tid} {p : ℕ} {v : View} (hx : v.mb m = some x)
      (hk : Serves m x k x' o w) (hq : v.queue w = u :: us) (hu : u ∈ v.live)
      (hs : (v.thr u).statu = .suspend) :
      Step Q N M e v ((((v.setMb m x').emit o).emit (.woke w u)).wake p u)
  | turn {t : Tid} {k : After} {v v' : View} (hc : v.current = some t)
      (hf : (v.thr t).frame.free = true) (h : Turn t k v v') : Step Q N M e v v'
  | rerunTurn {t : Tid} {k k' : After} {w : TNode} {v v' : View} (hc : v.current = some t)
      (hf : (v.thr t).frame = .after k) (hw : k.head = some w) (hw' : k'.head = some w)
      (hk : k.isLoop = true) (herr : (v.thr t).error = RT_EOK)
      (h : Turn t k' (v.rerun t w) v') : Step Q N M e v v'
  | rerunRet {t : Tid} {k : After} {w : TNode} {o : Obs} {v : View}
      (hc : v.current = some t) (hf : (v.thr t).frame = .after k) (hw : k.head = some w)
      (ho : k.retObs t (v.thr t).error = some o)
      (herr : k.isLoop = true → (v.thr t).error ≠ RT_EOK) :
      Step Q N M e v ((v.rerun t w).emit o)
  | returned {t : Tid} {r : Option Obs} {v : View} (hc : v.current = some t)
      (hf : (v.thr t).frame = .after (.ret r)) :
      Step Q N M e v (r.elim (v.setFrame t .run) fun o => (v.setFrame t .run).emit o)

end View

end LuojiOs
