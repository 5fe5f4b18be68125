import LuojiOs.Scheduler.Moves

/-!
# What a function on one thread leaves alone

Most functions of `thread.c` work on one thread: they change its status word, its
timer, its error code or its frame, and the lists.  `OnlyThread` states that the
rest of the kernel is as it was.  `TimerInv` is what a run keeps true of the
timers of threads: only a thread that sleeps or waits has a running timer.
-/

namespace LuojiOs

open CircularList

/-- Apart from the lists, the bitmap and the trace, nothing but the thread `t`
differs. -/
structure OnlyThread (t : Tid) (σ σ' : Kernel) : Prop where
  statu : ∀ u, u ≠ t → σ'.statu u = σ.statu u
  timer : ∀ k, k ≠ .ofThread t → σ'.timer k = σ.timer k
  error : ∀ u, u ≠ t → σ'.error u = σ.error u
  frame : ∀ u, u ≠ t → σ'.frame u = σ.frame u
  allThread : σ'.allThread = σ.allThread
  nextTid : σ'.nextTid = σ.nextTid
  thread : σ'.thread = σ.thread
  current : σ'.currentThread = σ.currentThread
  sem : σ'.sem = σ.sem
  mb : σ'.mb = σ.mb
  systemTick : σ'.systemTick = σ.systemTick
  fault : σ'.fault = σ.fault

section

variable {t : Tid} {σ σ₁ σ₂ : Kernel}

theorem OnlyThread.refl (t : Tid) (σ : Kernel) : OnlyThread t σ σ := by
  constructor <;> intros <;> rfl

theorem OnlyThread.trans (h : OnlyThread t σ σ₁) (h' : OnlyThread t σ₁ σ₂) :
    OnlyThread t σ σ₂ where
  statu u hu := (h'.statu u hu).trans (h.statu u hu)
  timer k hk := (h'.timer k hk).trans (h.timer k hk)
  error u hu := (h'.error u hu).trans (h.error u hu)
  frame u hu := (h'.frame u hu).trans (h.frame u hu)
  allThread := h'.allThread.trans h.allThread
  nextTid := h'.nextTid.trans h.nextTid
  thread := h'.thread.trans h.thread
  current := h'.current.trans h.current
  sem := h'.sem.trans h.sem
  mb := h'.mb.trans h.mb
  systemTick := h'.systemTick.trans h.systemTick
  fault := h'.fault.trans h.fault

theorem onlyThread_setStatu (t : Tid) (s : Statu) (σ : Kernel) :
    OnlyThread t σ (σ.setStatu t s) := by
  constructor <;> intros <;> simp_all [Kernel.setStatu]

theorem onlyThread_setError (t : Tid) (e : ℤ) (σ : Kernel) :
    OnlyThread t σ (σ.setError t e) := by
  constructor <;> intros <;> simp_all [Kernel.setError]

theorem onlyThread_setFrame (t : Tid) (f : Frame) (σ : Kernel) :
    OnlyThread t σ (σ.setFrame t f) := by
  constructor <;> intros <;> simp_all [Kernel.setFrame]

theorem onlyThread_setTimer (t : Tid) (x : Timer) (σ : Kernel) :
    OnlyThread t σ (σ.setTimer (.ofThread t) x) := by
  constructor <;> intros <;> simp_all [Kernel.setTimer]

theorem onlyThread_setInitTick (t : Tid) (tick : BitVec 32) (σ : Kernel) :
    OnlyThread t σ (σ.setInitTick t tick) :=
  onlyThread_setTimer t _ σ

theorem onlyThread_emit (t : Tid) (o : Obs) (σ : Kernel) : OnlyThread t σ (σ.emit o) := by
  constructor <;> intros <;> rfl

theorem onlyThread_links (t : Tid) (l : Links TNode) (σ : Kernel) :
    OnlyThread t σ { σ with tlinks := l } := by
  constructor <;> intros <;> rfl

theorem onlyThread_timerLinks (t : Tid) (l : Links TimerNode) (σ : Kernel) :
    OnlyThread t σ { σ with timerLinks := l } := by
  constructor <;> intros <;> rfl

theorem onlyThread_rtTimerStart (t : Tid) (σ : Kernel) :
    OnlyThread t σ (rtTimerStart (.ofThread t) σ) :=
  (onlyThread_setTimer t _ σ).trans (onlyThread_timerLinks t _ _)

theorem onlyThread_rtTimerStop (t : Tid) (σ : Kernel) :
    OnlyThread t σ (rtTimerStop (.ofThread t) σ).1 := by
  unfold rtTimerStop
  split
  · exact OnlyThread.refl t σ
  · exact (onlyThread_timerLinks t _ σ).trans (onlyThread_setTimer t _ _)

theorem onlyThread_rtScheduleRemoveThread (t : Tid) (σ : Kernel) :
    OnlyThread t σ (rtScheduleRemoveThread t σ) := by
  rw [rtScheduleRemoveThread_eq]
  constructor <;> intros <;> rfl

theorem onlyThread_rtScheduleInsertThread (t : Tid) (σ : Kernel) :
    OnlyThread t σ (rtScheduleInsertThread t σ) := by
  by_cases h : σ.currentThread = some t
  · rw [rtScheduleInsertThread_current h]
    exact onlyThread_setStatu t _ σ
  · rw [rtScheduleInsertThread_other h]
    constructor <;> intros <;> simp_all [Kernel.setStatu]

theorem onlyThread_rtThreadSuspend (t : Tid) (s : Statu) (σ : Kernel) :
    OnlyThread t σ (rtThreadSuspend t s σ).1 := by
  unfold rtThreadSuspend
  split
  · exact OnlyThread.refl t σ
  · exact ((onlyThread_rtScheduleRemoveThread t σ).trans (onlyThread_setStatu t s _)).trans
      (onlyThread_rtTimerStop t _)

theorem onlyThread_wakeThread (t : Tid) (σ : Kernel) :
    OnlyThread t σ (wakeThread t σ) :=
  ((onlyThread_links t _ σ).trans (onlyThread_rtTimerStop t _)).trans
    (onlyThread_rtScheduleInsertThread t _)

theorem onlyThread_rtThreadResume (t : Tid) (σ : Kernel) :
    OnlyThread t σ (rtThreadResume t σ).1 := by
  unfold rtThreadResume
  split
  · exact OnlyThread.refl t σ
  · exact onlyThread_wakeThread t σ

theorem onlyThread_expireThread (t : Tid) (σ : Kernel) :
    OnlyThread t σ (expireThread t σ) :=
  (((onlyThread_setError t _ σ).trans (onlyThread_links t _ _)).trans
    (onlyThread_rtScheduleInsertThread t _)).trans (onlyThread_emit t _ _)

theorem onlyThread_closeThread (t : Tid) (σ : Kernel) :
    OnlyThread t σ (closeThread t σ) :=
  (((onlyThread_setStatu t _ σ).trans (onlyThread_rtTimerStop t _)).trans
    (onlyThread_rtScheduleRemoveThread t _)).trans (onlyThread_links t _ _)

theorem onlyThread_suspendOn (w : TNode) (t : Tid) (σ : Kernel) :
    OnlyThread t σ (suspendOn w t σ) :=
  ((onlyThread_rtThreadSuspend t _ σ).trans (onlyThread_links t _ _)).trans
    (onlyThread_emit t _ _)

theorem onlyThread_armTimer (t : Tid) (time : BitVec 32) (σ : Kernel) :
    OnlyThread t σ (armTimer t time σ) :=
  (onlyThread_setInitTick t time σ).trans (onlyThread_rtTimerStart t _)

/-! ## The thread itself -/

theorem flag_rtTimerStop (k : TimerId) (σ : Kernel) :
    ((rtTimerStop k σ).1.timer k).flag = .noActivated := by
  unfold rtTimerStop
  split
  · next h =>
    cases hf : (σ.timer k).flag with
    | noActivated => rfl
    | activated => exact absurd hf h
  · simp [Kernel.setTimer]

theorem timeoutFunc_rtTimerStop (k j : TimerId) (σ : Kernel) :
    ((rtTimerStop k σ).1.timer j).timeoutFunc = (σ.timer j).timeoutFunc := by
  unfold rtTimerStop
  split
  · rfl
  · by_cases hj : j = k
    · subst hj
      simp [Kernel.setTimer]
    · simp [Kernel.setTimer, hj]

theorem timeoutFunc_rtTimerStart (k j : TimerId) (σ : Kernel) :
    ((rtTimerStart k σ).timer j).timeoutFunc = (σ.timer j).timeoutFunc := by
  by_cases hj : j = k
  · subst hj
    simp [rtTimerStart, Kernel.setTimer]
  · simp [rtTimerStart, Kernel.setTimer, hj]

theorem timer_rtScheduleInsertThread (t : Tid) (σ : Kernel) :
    (rtScheduleInsertThread t σ).timer = σ.timer :=
  (schedOnly_rtScheduleInsertThread t σ).timer

theorem timer_rtScheduleRemoveThread (t : Tid) (σ : Kernel) :
    (rtScheduleRemoveThread t σ).timer = σ.timer :=
  (schedOnly_rtScheduleRemoveThread t σ).timer

theorem statu_wakeThread (t : Tid) (σ : Kernel) :
    (wakeThread t σ).statu t = insertStatu t σ := by
  have hsame := sameSched_rtTimerStop (.ofThread t) (unlinkThread t σ)
  unfold wakeThread
  rw [statu_rtScheduleInsertThread, Function.update_self, insertStatu, hsame.current]
  rfl

theorem flag_wakeThread (t : Tid) (σ : Kernel) :
    ((wakeThread t σ).timer (.ofThread t)).flag = .noActivated := by
  unfold wakeThread
  rw [timer_rtScheduleInsertThread, flag_rtTimerStop]

theorem statu_expireThread (t : Tid) (σ : Kernel) :
    (expireThread t σ).statu t = insertStatu t σ := by
  unfold expireThread
  change (rtScheduleInsertThread t _).statu t = _
  rw [statu_rtScheduleInsertThread, Function.update_self]
  rfl

theorem statu_closeThread (t : Tid) (σ : Kernel) : (closeThread t σ).statu t = .close := by
  rw [closeThread_eq]
  simp [Kernel.setStatu]

theorem flag_closeThread (t : Tid) (σ : Kernel) :
    ((closeThread t σ).timer (.ofThread t)).flag = .noActivated := by
  rw [closeThread_eq, rtScheduleRemoveThread_eq]
  exact flag_rtTimerStop _ σ

theorem statu_rtThreadSuspend {s : Statu}
    (hs : σ.statu t = .ready ∨ σ.statu t = .running) :
    (rtThreadSuspend t s σ).1.statu t = s := by
  rw [rtThreadSuspend_of_runs hs, (sameSched_rtTimerStop _ _).statu]
  simp [Kernel.setStatu]

theorem flag_rtThreadSuspend {s : Statu}
    (hs : σ.statu t = .ready ∨ σ.statu t = .running) :
    ((rtThreadSuspend t s σ).1.timer (.ofThread t)).flag = .noActivated := by
  rw [rtThreadSuspend_of_runs hs]
  exact flag_rtTimerStop _ _

end

/-! ## Switching leaves blocked threads alone -/

theorem statu_rtSchedule_of_isBlocked {σ σ' : Kernel} {R : Rings TNode} (h : LinkInv σ R)
    (hs : rtSchedule σ = some σ') {u : Tid} (hu : (σ.statu u).isBlocked = true) :
    σ'.statu u = σ.statu u := by
  obtain ⟨c, hc, ⟨-, rfl⟩ | ⟨p, dst, rest, -, hseq, hne, rfl⟩⟩ := h.rtSchedule_cases hs
  · rfl
  · have hdst : u ≠ dst := by
      rintro rfl
      rw [(h.ready u p (R.home_of_seq_eq_cons hseq)).2] at hu
      simp [Statu.isBlocked] at hu
    have hcu : ¬(u = c ∧ (σ.statu c).runnable = true) := by
      rintro ⟨rfl, hrun⟩
      simp [Statu.not_runnable_of_isBlocked hu] at hrun
    rw [statu_switchThread hne, if_neg hdst, if_neg hcu]

/-! ## The timers of the threads -/

structure TimerInv (σ : Kernel) : Prop where
  armed : ∀ t, (σ.timer (.ofThread t)).flag = .activated →
    t ∈ σ.allThread ∧ (σ.statu t).isBlocked = true
  func : ∀ t ∈ σ.allThread, (σ.timer (.ofThread t)).timeoutFunc = .rtThreadTimeout t
  other : ∀ u, ∃ ops, (σ.timer (.other u)).timeoutFunc = .callback ops

namespace TimerInv

variable {σ σ' : Kernel} {t : Tid}

theorem congr (h : TimerInv σ) (htimer : σ'.timer = σ.timer)
    (hall : σ'.allThread = σ.allThread)
    (hstatu : ∀ u, (σ.statu u).isBlocked = true → σ'.statu u = σ.statu u) : TimerInv σ' where
  armed u hu := by
    rw [htimer] at hu
    obtain ⟨hmem, hb⟩ := h.armed u hu
    rw [hall, hstatu u hb]
    exact ⟨hmem, hb⟩
  func := by
    rw [htimer, hall]
    exact h.func
  other := by
    rw [htimer]
    exact h.other

/-- A function on one thread keeps the invariant when it leaves the timer of the
thread stopped, or the thread blocked. -/
theorem of_onlyThread (h : TimerInv σ) (hsame : OnlyThread t σ σ')
    (hfunc : (σ'.timer (.ofThread t)).timeoutFunc = (σ.timer (.ofThread t)).timeoutFunc)
    (ht : (σ'.timer (.ofThread t)).flag = .activated →
      t ∈ σ.allThread ∧ (σ'.statu t).isBlocked = true) : TimerInv σ' where
  armed u hu := by
    rw [hsame.allThread]
    by_cases hut : u = t
    · subst hut
      exact ht hu
    · rw [hsame.timer _ (by simpa using hut)] at hu
      rw [hsame.statu u hut]
      exact h.armed u hu
  func u hu := by
    rw [hsame.allThread] at hu
    by_cases hut : u = t
    · subst hut
      rw [hfunc]
      exact h.func u hu
    · rw [hsame.timer _ (by simpa using hut)]
      exact h.func u hu
  other u := by
    rw [hsame.timer _ (by simp)]
    exact h.other u

theorem rtSchedule {R : Rings TNode} (h : TimerInv σ) (hl : LinkInv σ R)
    (hs : rtSchedule σ = some σ') : TimerInv σ' :=
  h.congr (schedOnly_rtSchedule hs).timer (schedOnly_rtSchedule hs).allThread
    fun _ hu => statu_rtSchedule_of_isBlocked hl hs hu

theorem rtThreadSuspend (h : TimerInv σ) (s : Statu) :
    TimerInv (rtThreadSuspend t s σ).1 := by
  by_cases hs : σ.statu t = .ready ∨ σ.statu t = .running
  · refine h.of_onlyThread (onlyThread_rtThreadSuspend t s σ) ?_ ?_
    · rw [rtThreadSuspend_of_runs hs, timeoutFunc_rtTimerStop]
      simp [Kernel.setStatu, timer_rtScheduleRemoveThread]
    · intro hf
      simp [flag_rtThreadSuspend hs] at hf
  · rw [rtThreadSuspend_of_not_runs hs]
    exact h

theorem wakeThread (h : TimerInv σ) (t : Tid) : TimerInv (wakeThread t σ) := by
  refine h.of_onlyThread (onlyThread_wakeThread t σ) ?_ ?_
  · unfold LuojiOs.wakeThread
    rw [timer_rtScheduleInsertThread, timeoutFunc_rtTimerStop]
    rfl
  · intro hf
    simp [flag_wakeThread] at hf

theorem rtThreadResume (h : TimerInv σ) (t : Tid) : TimerInv (rtThreadResume t σ).1 := by
  unfold LuojiOs.rtThreadResume
  split
  · exact h
  · exact h.wakeThread t

theorem closeThread (h : TimerInv σ) (t : Tid) : TimerInv (closeThread t σ) := by
  refine h.of_onlyThread (onlyThread_closeThread t σ) ?_ ?_
  · rw [closeThread_eq, rtScheduleRemoveThread_eq]
    exact timeoutFunc_rtTimerStop _ _ σ
  · intro hf
    simp [flag_closeThread] at hf

theorem setFrame (h : TimerInv σ) (t : Tid) (f : Frame) : TimerInv (σ.setFrame t f) :=
  h.congr rfl rfl fun _ _ => rfl

theorem setError (h : TimerInv σ) (t : Tid) (e : ℤ) : TimerInv (σ.setError t e) :=
  h.congr rfl rfl fun _ _ => rfl

theorem emit (h : TimerInv σ) (o : Obs) : TimerInv (σ.emit o) :=
  h.congr rfl rfl fun _ _ => rfl

theorem suspendOn (h : TimerInv σ) (w : TNode) (t : Tid) : TimerInv (suspendOn w t σ) :=
  (h.rtThreadSuspend (t := t) .suspend).congr rfl rfl fun _ _ => rfl

theorem setInitTick (h : TimerInv σ) (t : Tid) (tick : BitVec 32) :
    TimerInv (σ.setInitTick t tick) := by
  refine h.of_onlyThread (onlyThread_setInitTick t tick σ) ?_ ?_
  · simp [Kernel.setInitTick, Kernel.setTimer]
  · intro hf
    exact h.armed t (by simpa [Kernel.setInitTick, Kernel.setTimer] using hf)

theorem rtTimerStart (h : TimerInv σ) (ht : t ∈ σ.allThread)
    (hb : (σ.statu t).isBlocked = true) : TimerInv (rtTimerStart (.ofThread t) σ) :=
  h.of_onlyThread (onlyThread_rtTimerStart t σ) (timeoutFunc_rtTimerStart _ _ σ)
    fun _ => ⟨ht, hb⟩

theorem armTimer (h : TimerInv σ) (ht : t ∈ σ.allThread)
    (hb : (σ.statu t).isBlocked = true) (time : BitVec 32) : TimerInv (armTimer t time σ) :=
  (h.setInitTick t time).rtTimerStart ht hb

/-- Only the timers that are not embedded in a thread differ. -/
theorem of_other (h : TimerInv σ) (hthread : ∀ t, σ'.timer (.ofThread t) = σ.timer (.ofThread t))
    (hother : ∀ u, ∃ ops, (σ'.timer (.other u)).timeoutFunc = .callback ops)
    (hall : σ'.allThread = σ.allThread) (hstatu : σ'.statu = σ.statu) : TimerInv σ' where
  armed t := by
    rw [hthread, hall, hstatu]
    exact h.armed t
  func t := by
    rw [hthread, hall]
    exact h.func t
  other := hother

theorem rtTimerStart_other (h : TimerInv σ) (u : ℕ) :
    TimerInv (LuojiOs.rtTimerStart (.other u) σ) := by
  refine h.of_other (fun t => ?_) (fun v => ?_) rfl rfl
  · simp [LuojiOs.rtTimerStart, Kernel.setTimer]
  · rw [timeoutFunc_rtTimerStart]
    exact h.other v

theorem timer_ofThread_rtTimerStop_other (u : ℕ) (σ : Kernel) (t : Tid) :
    (rtTimerStop (.other u) σ).1.timer (.ofThread t) = σ.timer (.ofThread t) := by
  unfold rtTimerStop
  split
  · rfl
  · simp [Kernel.setTimer]

theorem rtTimerStop_other (h : TimerInv σ) (u : ℕ) :
    TimerInv (rtTimerStop (.other u) σ).1 := by
  have hsame := sameSched_rtTimerStop (.other u) σ
  refine h.of_other (timer_ofThread_rtTimerStop_other u σ) (fun v => ?_) hsame.allThread
    hsame.statu
  rw [timeoutFunc_rtTimerStop]
  exact h.other v

theorem rtTimerInit_other (h : TimerInv σ) (u : ℕ) (ops : List TimerOp) (time : BitVec 32)
    (flag : BitVec 8) : TimerInv (rtTimerInit (.other u) (.callback ops) time flag σ) := by
  refine h.of_other (fun t => ?_) (fun v => ?_) rfl rfl
  · simp [rtTimerInit, Kernel.setTimer]
  · by_cases hv : v = u
    · subst hv
      exact ⟨ops, by simp [rtTimerInit, Kernel.setTimer]⟩
    · simpa [rtTimerInit, Kernel.setTimer, hv] using h.other v

theorem runTimerOps (h : TimerInv σ) (ops : List TimerOp) :
    TimerInv (ops.foldl runTimerOp σ) := by
  induction ops generalizing σ with
  | nil => exact h
  | cons op ops ih =>
      refine ih ?_
      cases op with
      | start u => exact h.rtTimerStart_other u
      | stop u => exact h.rtTimerStop_other u

end TimerInv

end LuojiOs
