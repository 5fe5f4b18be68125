import LuojiOs.Scheduler.Events

/-!
# What most acts leave alone

Waking, closing and switching threads, and all that happens to the clock, leave the
error codes, the frames, the mailboxes and the trace as they are, and start no timer
of a thread.  This holds in every state, whatever the lists look like.
-/

namespace LuojiOs

open CircularList

structure Still (σ σ' : Kernel) : Prop where
  error : σ'.error = σ.error
  frame : σ'.frame = σ.frame
  mb : σ'.mb = σ.mb
  trace : σ'.trace = σ.trace
  /-- no timer is set to resume another thread than before -/
  func : ∀ k t, (σ'.timer k).timeoutFunc = .rtThreadTimeout t →
    (σ.timer k).timeoutFunc = .rtThreadTimeout t
  /-- no timer of a thread is started -/
  flag : ∀ t, (σ'.timer (.ofThread t)).flag = .activated →
    (σ.timer (.ofThread t)).flag = .activated

section

variable {σ₀ σ σ' : Kernel} {e : Event}

theorem Still.refl (σ : Kernel) : Still σ σ :=
  ⟨rfl, rfl, rfl, rfl, fun _ _ h => h, fun _ h => h⟩

theorem Still.trans {σ₁ σ₂ σ₃ : Kernel} (h : Still σ₁ σ₂) (h' : Still σ₂ σ₃) : Still σ₁ σ₃ where
  error := h'.error.trans h.error
  frame := h'.frame.trans h.frame
  mb := h'.mb.trans h.mb
  trace := h'.trace.trans h.trace
  func k t hf := h.func k t (h'.func k t hf)
  flag t hf := h.flag t (h'.flag t hf)

/-- The timers are not touched. -/
theorem Still.of_timer (herr : σ'.error = σ.error) (hf : σ'.frame = σ.frame)
    (hmb : σ'.mb = σ.mb) (htr : σ'.trace = σ.trace) (htm : σ'.timer = σ.timer) :
    Still σ σ' :=
  ⟨herr, hf, hmb, htr, fun _ _ h => by rwa [htm] at h, fun _ h => by rwa [htm] at h⟩

theorem SchedOnly.still (h : SchedOnly σ σ') : Still σ σ' :=
  .of_timer h.error h.frame h.mb h.trace h.timer

theorem still_setStatu (t : Tid) (s : Statu) (σ : Kernel) : Still σ (σ.setStatu t s) :=
  .of_timer rfl rfl rfl rfl rfl

theorem still_tlinks (l : Links TNode) (σ : Kernel) : Still σ { σ with tlinks := l } :=
  .of_timer rfl rfl rfl rfl rfl

theorem still_timerLinks (l : Links TimerNode) (σ : Kernel) :
    Still σ { σ with timerLinks := l } :=
  .of_timer rfl rfl rfl rfl rfl

/-- A timer is replaced by one that is off if it is the timer of a thread, and has the
same function or a callback. -/
theorem still_setTimer {k : TimerId} {x : Timer}
    (hfunc : ∀ t, x.timeoutFunc = .rtThreadTimeout t →
      (σ.timer k).timeoutFunc = .rtThreadTimeout t)
    (hflag : ∀ t, k = .ofThread t → x.flag = .activated → (σ.timer k).flag = .activated) :
    Still σ (σ.setTimer k x) := by
  refine ⟨rfl, rfl, rfl, rfl, fun j t hj => ?_, fun t ht => ?_⟩
  · by_cases hjk : j = k
    · subst hjk
      exact hfunc t (by simpa [Kernel.setTimer] using hj)
    · simpa [Kernel.setTimer, hjk] using hj
  · by_cases htk : TimerId.ofThread t = k
    · subst htk
      exact hflag t rfl (by simpa [Kernel.setTimer] using ht)
    · simpa [Kernel.setTimer, htk] using ht

theorem still_flagOff (k : TimerId) (σ : Kernel) :
    Still σ (σ.setTimer k { σ.timer k with flag := .noActivated }) :=
  still_setTimer (fun _ h => h) fun _ _ h => by cases h

theorem still_rtTimerStop (k : TimerId) (σ : Kernel) : Still σ (rtTimerStop k σ).1 := by
  unfold rtTimerStop
  split
  · exact .refl σ
  · exact (still_timerLinks _ σ).trans (still_flagOff k _)

theorem still_rtTimerStart_other (u : ℕ) (σ : Kernel) :
    Still σ (rtTimerStart (.other u) σ) := by
  refine Still.trans (still_setTimer (fun _ h => ?_) fun _ h => ?_) (still_timerLinks _ _)
  · exact h
  · cases h

theorem still_rtTimerInit_other (u : ℕ) (ops : List TimerOp) (time : BitVec 32)
    (flag : BitVec 8) (σ : Kernel) :
    Still σ (rtTimerInit (.other u) (.callback ops) time flag σ) := by
  refine Still.trans (still_setTimer (fun _ h => ?_) fun _ h => ?_) (still_timerLinks _ _)
  · cases h
  · cases h

theorem still_runTimerOps (ops : List TimerOp) (σ : Kernel) :
    Still σ (ops.foldl runTimerOp σ) := by
  induction ops generalizing σ with
  | nil => exact .refl σ
  | cons op ops ih =>
      refine Still.trans ?_ (ih _)
      cases op with
      | start u => exact still_rtTimerStart_other u σ
      | stop u => exact still_rtTimerStop _ σ

theorem still_unlinkThread (t : Tid) (σ : Kernel) : Still σ (unlinkThread t σ) :=
  still_tlinks _ σ

theorem still_wakeThread (t : Tid) (σ : Kernel) : Still σ (wakeThread t σ) :=
  ((still_unlinkThread t σ).trans (still_rtTimerStop _ _)).trans
    (schedOnly_rtScheduleInsertThread t _).still

theorem still_rtThreadResume (t : Tid) (σ : Kernel) : Still σ (rtThreadResume t σ).1 := by
  unfold rtThreadResume
  split
  · exact .refl σ
  · exact still_wakeThread t σ

theorem still_closeThread (t : Tid) (σ : Kernel) : Still σ (closeThread t σ) :=
  (((still_setStatu t .close σ).trans (still_rtTimerStop _ _)).trans
    (schedOnly_rtScheduleRemoveThread t _).still).trans (still_tlinks _ _)

theorem still_rtThreadSuspend (t : Tid) (s : Statu) (σ : Kernel) :
    Still σ (rtThreadSuspend t s σ).1 := by
  unfold rtThreadSuspend
  split
  · exact .refl σ
  · exact ((schedOnly_rtScheduleRemoveThread t σ).still.trans (still_setStatu t s _)).trans
      (still_rtTimerStop _ _)

theorem noActivated_of_imp {f g : TimerFlag} (h : g = .activated → f = .activated)
    (hf : f = .noActivated) : g = .noActivated := by
  cases g with
  | noActivated => rfl
  | activated => simp [hf] at h

/-- `rt_thread_suspend` leaves the timer of the thread stopped, unless it refuses its
work and the timer runs. -/
theorem flag_suspended {t : Tid}
    (hstop : (σ.timer (.ofThread t)).flag = .noActivated ∨ σ.statu t = .ready ∨
      σ.statu t = .running) (s : Statu) :
    ((rtThreadSuspend t s σ).1.timer (.ofThread t)).flag = .noActivated := by
  rcases hstop with hflag | hruns
  · exact noActivated_of_imp ((still_rtThreadSuspend t s σ).flag t) hflag
  · exact flag_rtThreadSuspend hruns

theorem still_threadStart (h : threadStart σ = some σ') : Still σ σ' := by
  unfold threadStart at h
  split at h
  · cases h
  · next t _ _ =>
    obtain rfl := Option.some.inj h
    exact (Still.of_timer rfl rfl rfl rfl rfl : Still σ { σ with currentThread := some t }).trans
      ((schedOnly_rtScheduleRemoveThread t _).still.trans (still_setStatu t .running _))

theorem still_cleanDeadFrom {fuel : ℕ} {pos n : TNode} (h : cleanDeadFrom fuel pos n σ = some σ') :
    Still σ σ' := by
  induction fuel generalizing pos n σ with
  | zero => cases h
  | succ fuel ih =>
      cases pos with
      | dead =>
          obtain rfl := Option.some.inj h
          exact .refl _
      | thread t =>
          have hclean : Still σ (cleanThread t σ) := .of_timer rfl rfl rfl rfl rfl
          exact hclean.trans (ih h)
      | ready p | semWait s | mbRecv m | mbSend m => cases h

theorem still_countDown (c : Tid) (σ : Kernel) : Still σ (countDown c σ).2 := by
  unfold countDown
  dsimp only
  split <;> exact .of_timer rfl rfl rfl rfl rfl

theorem still_fireCallback (k : TimerId) (ops : List TimerOp) (σ : Kernel) :
    Still σ (fireCallback k ops σ) :=
  ((still_timerLinks _ σ).trans (still_runTimerOps ops _)).trans (still_flagOff k _)

theorem ClockAct.still (h : ClockAct σ₀ e σ σ') : Still σ σ' := by
  cases h with
  | timerInit he => exact still_rtTimerInit_other _ _ _ _ _
  | timerStart he => exact still_rtTimerStart_other _ _
  | timerStop he => exact still_rtTimerStop _ _
  | tickIncrease he => exact .of_timer rfl rfl rfl rfl rfl
  | countDown he hc => exact still_countDown _ _
  | callback he hdue hfunc => exact still_fireCallback _ _ _

/-- A thread was created in the memory `σ.nextTid`, on a ready list or, with a write
outside the table, on none. -/
structure Joined (σ σ' : Kernel) : Prop where
  error : σ'.error = Function.update σ.error σ.nextTid RT_EOK
  frame : σ'.frame = Function.update σ.frame σ.nextTid .run
  timer : σ'.timer = Function.update σ.timer (.ofThread σ.nextTid)
    ⟨.noActivated, .rtThreadTimeout σ.nextTid, 0, 0⟩
  mb : σ'.mb = σ.mb
  trace : σ'.trace = σ.trace
  nextTid : σ'.nextTid = σ.nextTid + 1
  allThread : σ'.allThread = σ.nextTid :: σ.allThread
  statu : σ'.statu = Function.update σ.statu σ.nextTid .ready
  current : σ'.currentThread = σ.currentThread
  tlinks : σ'.tlinks = σ.tlinks.init (.thread σ.nextTid) ∨
    ∃ p, σ'.tlinks = (σ.tlinks.init (.thread σ.nextTid)).insertBefore (.ready p)
      (.thread σ.nextTid)
  timerLinks : σ'.timerLinks = σ.timerLinks.init (.timer (.ofThread σ.nextTid))

theorem threadJoinInit_joined (name : String) (stackSize priority runtick : BitVec 32)
    (mallocOk stackOk : Bool) (σ : Kernel) :
    let r := threadJoinInit name stackSize priority runtick mallocOk stackOk σ
    r.1 = σ ∨ Joined σ r.1 := by
  intro r
  have hr : r = threadJoinInit name stackSize priority runtick mallocOk stackOk σ := rfl
  unfold threadJoinInit at hr
  by_cases h₁ : priority.toInt > (RT_THREAD_PRIORITY_MAX : ℤ) - 1
  · rw [if_pos h₁] at hr
    exact Or.inl (by rw [hr])
  by_cases h₂ : (!mallocOk) = true
  · rw [if_neg h₁, if_pos h₂] at hr
    exact Or.inl (by rw [hr])
  by_cases h₃ : stackSize = 0
  · rw [if_neg h₁, if_neg h₂, if_pos h₃] at hr
    exact Or.inl (by rw [hr])
  by_cases h₄ : (!stackOk) = true
  · rw [if_neg h₁, if_neg h₂, if_neg h₃, if_pos h₄] at hr
    exact Or.inl (by rw [hr])
  rw [if_neg h₁, if_neg h₂, if_neg h₃, if_neg h₄] at hr
  dsimp only at hr
  split at hr
  · rw [hr]
    exact Or.inr ⟨rfl, rfl, rfl, rfl, rfl, rfl, rfl, rfl, rfl, Or.inr ⟨_, rfl⟩, rfl⟩
  · rw [hr]
    exact Or.inr ⟨rfl, rfl, rfl, rfl, rfl, rfl, rfl, rfl, rfl, Or.inl rfl, rfl⟩

end

end LuojiOs
