import LuojiOs.Interrupt.Level
import LuojiOs.Support.Runs

/-!
# The interrupt level at the end of a call

What is written back last decides the level, so that a call restores it as soon as each of
its ends writes back a level that was saved from the caller's.  `rt_thread_suspend` and
`thread_join_init` have ends that write nothing back.
-/

namespace LuojiOs

namespace Cpu

/-! ## The level and the scheduler -/

def started (c : Cpu) : Bool := c.kernel.currentThread.isSome

/-- The level is that of `c` again, and the scheduler runs if it did. -/
structure Restores (c c' : Cpu) : Prop where
  level : c'.interruptEnable = c.interruptEnable
  started : c'.started = c.started

section Level

variable {others : Others} {c d e : Cpu} {level : BitVec 32} {f : Kernel → Kernel}

theorem Restores.refl (c : Cpu) : Restores c c := ⟨rfl, rfl⟩

theorem Restores.trans (h : Restores c d) (h' : Restores d e) : Restores c e :=
  ⟨h'.level.trans h.level, h'.started.trans h.started⟩

theorem interruptEnable_preempt (c : Cpu) :
    (c.preempt others).interruptEnable = c.interruptEnable := by
  unfold preempt
  split
  · rfl
  · rfl

theorem started_leave (c : Cpu) : (c.leave others).started = c.started :=
  others.isSome_run c.turns c.kernel

theorem started_preempt (c : Cpu) : (c.preempt others).started = c.started := by
  unfold preempt
  split
  · exact started_leave c
  · rfl

theorem interruptEnable_disable (c : Cpu) : c.rtHwInterruptDisable.2.interruptEnable = false := by
  unfold rtHwInterruptDisable interruptEnable
  rw [BitVec.getLsbD_and]
  exact Bool.and_false _

theorem interruptEnable_enable (level : BitVec 32) (c : Cpu) :
    (c.rtHwInterruptEnable others level).interruptEnable = level.getLsbD 0 := by
  unfold rtHwInterruptEnable
  rw [interruptEnable_preempt]
  unfold interruptEnable
  rw [BitVec.getLsbD_or]
  exact Bool.or_false _

theorem started_enable (level : BitVec 32) (c : Cpu) :
    (c.rtHwInterruptEnable others level).started = c.started :=
  started_preempt _

/-- The level of `c` is written back. -/
theorem Restores.enable (hlevel : level.getLsbD 0 = c.interruptEnable)
    (h : d.started = c.started) : Restores c (d.rtHwInterruptEnable others level) :=
  ⟨(interruptEnable_enable level d).trans hlevel, (started_enable level d).trans h⟩

theorem restores_onKernel (c : Cpu) (hf : (f c.kernel).currentThread = c.kernel.currentThread) :
    Restores c (c.onKernel f) :=
  ⟨rfl, congrArg Option.isSome hf⟩

theorem restores_critical (c : Cpu) (hf : ∀ σ, (f σ).currentThread = σ.currentThread) :
    Restores c (c.critical others f) := by
  apply Restores.enable rfl
  exact congrArg Option.isSome (hf c.kernel)

end Level

/-! ## The parts that do not schedule -/

section Parts

variable {others : Others} {c c' : Cpu} {k : TimerId} {t u : Tid} {w : TNode}

theorem restores_rtTimerStart (k : TimerId) (c : Cpu) : Restores c (c.rtTimerStart others k) :=
  restores_critical c fun _ => rfl

theorem currentThread_rtTimerStop (k : TimerId) (σ : Kernel) :
    (LuojiOs.rtTimerStop k σ).1.currentThread = σ.currentThread := by
  unfold LuojiOs.rtTimerStop
  split
  · rfl
  · rfl

theorem restores_rtTimerStop (k : TimerId) (c : Cpu) :
    Restores c (c.rtTimerStop others k).1 := by
  unfold Cpu.rtTimerStop
  dsimp only
  split
  · exact .enable rfl rfl
  · apply Restores.enable rfl
    exact congrArg Option.isSome (currentThread_rtTimerStop k c.kernel)

theorem currentThread_rtScheduleInsertThread (t : Tid) (σ : Kernel) :
    (LuojiOs.rtScheduleInsertThread t σ).currentThread = σ.currentThread := by
  unfold LuojiOs.rtScheduleInsertThread
  split
  · rfl
  · rfl

theorem currentThread_rtScheduleRemoveThread (t : Tid) (σ : Kernel) :
    (LuojiOs.rtScheduleRemoveThread t σ).currentThread = σ.currentThread := by
  unfold LuojiOs.rtScheduleRemoveThread
  dsimp only
  split
  · rfl
  · rfl

theorem restores_rtScheduleInsertThread (t : Tid) (c : Cpu) :
    Restores c (c.rtScheduleInsertThread others t) :=
  restores_critical c (currentThread_rtScheduleInsertThread t)

theorem restores_rtScheduleRemoveThread (t : Tid) (c : Cpu) :
    Restores c (c.rtScheduleRemoveThread others t) :=
  restores_critical c (currentThread_rtScheduleRemoveThread t)

/-- `rt_thread_suspend` leaves interrupts disabled if it refuses. -/
theorem interruptEnable_rtThreadSuspend (t : Tid) (statu : Statu) (c : Cpu) :
    (c.rtThreadSuspend others t statu).1.interruptEnable =
      if c.kernel.statu t ≠ .ready ∧ c.kernel.statu t ≠ .running then false
      else c.interruptEnable := by
  unfold Cpu.rtThreadSuspend
  dsimp only
  have hkernel : c.rtHwInterruptDisable.2.kernel = c.kernel := rfl
  rw [hkernel]
  split
  · exact interruptEnable_disable c
  · exact interruptEnable_enable _ _

theorem started_rtThreadSuspend (t : Tid) (statu : Statu) (c : Cpu) :
    (c.rtThreadSuspend others t statu).1.started = c.started := by
  unfold Cpu.rtThreadSuspend
  dsimp only
  split
  · rfl
  · rw [started_enable, (restores_rtTimerStop _ _).started]
    exact (restores_rtScheduleRemoveThread t _).started

theorem restores_wakeThread (t : Tid) (c : Cpu) : Restores c (c.wakeThread others t) := by
  have hunlink : Restores c (c.onKernel (unlinkThread t)) := restores_onKernel c rfl
  exact (hunlink.trans (restores_rtTimerStop _ _)).trans (restores_rtScheduleInsertThread t _)

theorem restores_rtThreadResume (t : Tid) (c : Cpu) :
    Restores c (c.rtThreadResume others t).1 := by
  unfold Cpu.rtThreadResume
  split
  · exact .refl c
  · apply Restores.enable (interruptEnable_preempt c)
    rw [(restores_wakeThread t _).started]
    exact started_preempt c

theorem restores_rtDebugNotInInterrupt (h : c.rtDebugNotInInterrupt others = some c') :
    Restores c c' := by
  unfold rtDebugNotInInterrupt at h
  dsimp only at h
  split at h
  · cases h
  · cases h
    exact .enable rfl rfl

theorem restores_rtDebugInThreadContext (h : c.rtDebugInThreadContext others = some c') :
    Restores c c' := by
  unfold rtDebugInThreadContext at h
  dsimp only at h
  split at h
  · cases h
  · obtain ⟨d, hd, rfl⟩ := Option.map_eq_some_iff.mp h
    exact .enable rfl (restores_rtDebugNotInInterrupt hd).started

theorem started_suspendOn (w : TNode) (t : Tid) (c : Cpu) :
    (c.suspendOn others w t).started = c.started :=
  started_rtThreadSuspend t .suspend c

theorem restores_armTimer (t : Tid) (time : BitVec 32) (c : Cpu) :
    Restores c (c.armTimer others t time) :=
  (restores_onKernel c rfl).trans (restores_rtTimerStart _ _)

end Parts

/-! ## The functions of the kernel

Nested sections are one section: inside, nothing else runs. -/

section Kernel

variable {others : Others} {c d : Cpu} {σ : Kernel} {f : Kernel → Kernel} {t : Tid}

/-- Interrupts are disabled, and `d` is `c` but for the level and for the kernel, which is
`σ`. -/
structure Within (c : Cpu) (σ : Kernel) (d : Cpu) : Prop where
  level : d.interruptEnable = false
  kernel : d.kernel = σ
  nest : d.interruptNest = c.interruptNest
  turns : d.turns = c.turns

theorem within_disable (c : Cpu) : Within c c.kernel c.rtHwInterruptDisable.2 :=
  ⟨interruptEnable_disable c, rfl, rfl, rfl⟩

theorem Within.onKernel (h : Within c σ d) (f : Kernel → Kernel) :
    Within c (f σ) (d.onKernel f) :=
  ⟨h.level, congrArg f h.kernel, h.nest, h.turns⟩

theorem Within.enable {level : BitVec 32} (h : Within c σ d) (hlevel : level.getLsbD 0 = false) :
    Within c σ (d.rtHwInterruptEnable others level) := by
  have hlevel' : (level ||| 0x00008000).getLsbD 0 = false := by
    rw [BitVec.getLsbD_or, hlevel]
    rfl
  unfold rtHwInterruptEnable preempt
  rw [if_neg (by unfold interruptEnable; rw [hlevel']; exact Bool.false_ne_true)]
  exact ⟨hlevel', h.kernel, h.nest, h.turns⟩

theorem Within.disable (h : Within c σ d) : Within c σ d.rtHwInterruptDisable.2 :=
  ⟨interruptEnable_disable d, h.kernel, h.nest, h.turns⟩

theorem Within.critical (h : Within c σ d) (f : Kernel → Kernel) :
    Within c (f σ) (d.critical others f) :=
  (h.disable.onKernel f).enable h.level

theorem Within.rtTimerStop (h : Within c σ d) (k : TimerId) :
    Within c (LuojiOs.rtTimerStop k σ).1 (d.rtTimerStop others k).1 := by
  have hstop := h.disable.onKernel fun σ => (LuojiOs.rtTimerStop k σ).1
  unfold Cpu.rtTimerStop
  dsimp only
  split
  · next hflag =>
    have hflag' : (σ.timer k).flag ≠ .activated := h.kernel ▸ hflag
    have hsame : (LuojiOs.rtTimerStop k σ).1 = σ := by
      unfold LuojiOs.rtTimerStop
      rw [if_pos hflag']
    rw [hsame]
    exact h.disable.enable h.level
  · exact hstop.enable h.level

/-- The outer section ends with the kernel that the inner ones have made. -/
theorem Within.end (h : Within c σ d) (level : BitVec 32) :
    d.rtHwInterruptEnable others level = { c with kernel := σ }.rtHwInterruptEnable others level := by
  unfold rtHwInterruptEnable
  rw [h.kernel, h.nest, h.turns]

theorem Within.wakeThread (h : Within c σ d) (t : Tid) :
    Within c (LuojiOs.wakeThread t σ) (d.wakeThread others t) :=
  ((h.onKernel (unlinkThread t)).rtTimerStop (.ofThread t)).critical
    (LuojiOs.rtScheduleInsertThread t)

/-- Where it does not refuse, `rt_thread_suspend` is the function of the kernel, done with
interrupts disabled. -/
theorem rtThreadSuspend_eq_critical {statu : Statu}
    (h : ¬(c.kernel.statu t ≠ .ready ∧ c.kernel.statu t ≠ .running)) :
    (c.rtThreadSuspend others t statu).1 =
      c.critical others fun σ => (LuojiOs.rtThreadSuspend t statu σ).1 := by
  have hdisabled := within_disable c
  have hremoved : Within c (LuojiOs.rtScheduleRemoveThread t c.kernel)
      (c.rtHwInterruptDisable.2.rtScheduleRemoveThread others t) := hdisabled.critical _
  have hstopped := @Within.rtTimerStop others _ _ _ (hremoved.onKernel (·.setStatu t statu))
    (.ofThread t)
  have hkernel : (LuojiOs.rtThreadSuspend t statu c.kernel).1 = (LuojiOs.rtTimerStop (.ofThread t)
      ((LuojiOs.rtScheduleRemoveThread t c.kernel).setStatu t statu)).1 := by
    unfold LuojiOs.rtThreadSuspend
    rw [if_neg h]
  have hwhole := hdisabled.onKernel fun σ => (LuojiOs.rtThreadSuspend t statu σ).1
  have hsame : c.rtHwInterruptDisable.2.kernel = c.kernel := rfl
  unfold Cpu.rtThreadSuspend Cpu.critical
  dsimp only
  rw [hsame, if_neg h]
  refine (hstopped.end c.status).trans (Eq.trans ?_ (hwhole.end c.status).symm)
  rw [hkernel]

theorem rtThreadResume_eq_critical
    (h : ¬(c.kernel.statu t ≠ .suspend ∧ c.kernel.statu t ≠ .sleep)) :
    (c.rtThreadResume others t).1 =
      (c.preempt others).critical others (LuojiOs.wakeThread t) := by
  have hdisabled := within_disable (c.preempt others)
  have hwhole := hdisabled.onKernel (LuojiOs.wakeThread t)
  unfold Cpu.rtThreadResume Cpu.critical
  rw [if_neg h]
  exact ((hdisabled.wakeThread t).end _).trans (hwhole.end _).symm

end Kernel

/-! ## Scheduling -/

section Scheduling

variable {others : Others} {c c' d : Cpu} {r : ℤ} {s : ℕ} {w : TNode} {temp time : BitVec 32}

theorem started_switchThread (t u : Tid) (c : Cpu) :
    (c.switchThread others t u).started = true := by
  unfold Cpu.switchThread
  dsimp only
  rw [(restores_rtScheduleRemoveThread u _).started]
  split
  · rw [(restores_rtScheduleInsertThread t _).started]
    rfl
  · rfl

/-- The thread that has called `rt_schedule` goes on at its own level. -/
theorem restores_rtSchedule (h : c.rtSchedule others = some c') : Restores c c' := by
  unfold Cpu.rtSchedule at h
  dsimp only at h
  split at h
  · cases h
  · next t hcurrent =>
    have hstarted : c.started = true := congrArg Option.isSome hcurrent
    split at h
    · split at h
      · cases h
      · split at h
        · split at h
          · cases h
            apply Restores.enable rfl
            rw [hstarted]
            exact (started_leave _).trans (started_switchThread _ _ _)
          · cases h
            apply Restores.enable rfl
            rw [hstarted]
            exact started_switchThread _ _ _
        · cases h
    · cases h
      exact .enable rfl rfl

/-- The level is written back, and another thread may run. -/
theorem Restores.enable_rtSchedule (hlevel : temp.getLsbD 0 = c.interruptEnable)
    (hstarted : d.started = c.started)
    (h : (d.rtHwInterruptEnable others temp).rtSchedule others = some c') : Restores c c' :=
  (Restores.enable hlevel hstarted).trans (restores_rtSchedule h)

/-- `rt_thread_sleep` writes the level back even where `rt_thread_suspend` has not. -/
theorem restores_rtThreadSleep {tick : BitVec 32}
    (h : c.rtThreadSleep others tick = some (c', r)) : Restores c c' := by
  unfold Cpu.rtThreadSleep at h
  dsimp only at h
  split at h
  · cases h
  · obtain ⟨d, hd, heq⟩ := Option.map_eq_some_iff.mp h
    cases heq
    apply Restores.enable_rtSchedule rfl _ hd
    rw [(restores_rtTimerStart _ _).started]
    exact started_rtThreadSuspend _ _ _

/-! ## Semaphores -/

theorem restores_rtSemTake (h : c.rtSemTake others s time = some (c', r)) : Restores c c' := by
  unfold Cpu.rtSemTake at h
  dsimp only at h
  split at h
  · cases h
  · split at h
    · cases h
      exact .enable rfl rfl
    · split at h
      · cases h
        exact .enable rfl rfl
      · obtain ⟨d, hd, h⟩ := Option.bind_eq_some_iff.mp h
        have hstarted := (restores_rtDebugInThreadContext hd).started
        split at h
        · cases h
          exact .enable rfl hstarted
        · obtain ⟨e, he, h⟩ := Option.bind_eq_some_iff.mp h
          cases h
          apply Restores.enable_rtSchedule rfl _ he
          split
          · rw [(restores_armTimer _ _ _).started, started_suspendOn]
            exact hstarted
          · rw [started_suspendOn]
            exact hstarted

theorem restores_endCall {wake : Tid → Cpu → Cpu}
    (h : d.endCall others w wake temp = some (c', r)) (hlevel : temp.getLsbD 0 = c.interruptEnable)
    (hstarted : d.started = c.started) (hwake : ∀ t, (wake t d).started = d.started) :
    Restores c c' := by
  unfold endCall at h
  split at h
  · cases h
  · cases h
    exact .enable hlevel hstarted
  · obtain ⟨e, he, heq⟩ := Option.map_eq_some_iff.mp h
    cases heq
    exact .enable_rtSchedule hlevel ((hwake _).trans hstarted) he

theorem restores_rtSemRelease (h : c.rtSemRelease others s = some (c', r)) : Restores c c' := by
  unfold Cpu.rtSemRelease at h
  dsimp only at h
  split at h
  · cases h
  · refine restores_endCall h rfl ?_ fun t => (restores_rtThreadResume t _).started
    split
    · rfl
    · rfl

theorem started_resumeAllFrom {fuel : ℕ} {pos n : TNode}
    (h : c.resumeAllFrom others w fuel pos n = some c') : c'.started = c.started := by
  induction fuel generalizing pos n c with
  | zero => cases h
  | succ fuel ih =>
      unfold Cpu.resumeAllFrom at h
      split at h
      · cases h
        rfl
      · split at h
        · exact (ih h).trans (restores_rtThreadResume _ c).started
        · cases h

theorem restores_rtSemDetach {fuel : ℕ} (h : c.rtSemDetach others s fuel = some (c', r)) :
    Restores c c' := by
  unfold Cpu.rtSemDetach at h
  dsimp only at h
  split at h
  · cases h
  · obtain ⟨d, hd, heq⟩ := Option.map_eq_some_iff.mp h
    cases heq
    have hstarted : d.started = c.rtHwInterruptDisable.2.started := started_resumeAllFrom hd
    exact .enable rfl hstarted

end Scheduling

/-! ## Mailboxes -/

section Mailboxes

variable {others : Others} {c c' d : Cpu} {r : ℤ} {t : Tid} {fuel m : ℕ}
  {value temp timeout tickDelta : BitVec 32} {v : Option (BitVec 32)}

/-- In each round of the loop `temp` is the level of the caller: what `rt_schedule` leaves is
saved again. -/
theorem restores_mbSendLoop (hlevel : temp.getLsbD 0 = c.interruptEnable)
    (hstarted : d.started = c.started)
    (h : d.mbSendLoop others t m value fuel temp timeout tickDelta = some (c', r)) :
    Restores c c' := by
  induction fuel generalizing d temp timeout tickDelta with
  | zero => cases h
  | succ fuel ih =>
      unfold Cpu.mbSendLoop at h
      split at h
      · cases h
      · split at h
        · dsimp only at h
          split at h
          · cases h
            exact .enable hlevel hstarted
          · obtain ⟨d₁, hd₁, h⟩ := Option.bind_eq_some_iff.mp h
            have hstarted₁ := (restores_rtDebugInThreadContext hd₁).started.trans hstarted
            obtain ⟨d₂, hd₂, h⟩ := Option.bind_eq_some_iff.mp h
            have hround : Restores c d₂ := by
              apply Restores.enable_rtSchedule hlevel _ hd₂
              split
              · rw [(restores_armTimer _ _ _).started, started_suspendOn]
                exact hstarted₁
              · rw [started_suspendOn]
                exact hstarted₁
            split at h
            · cases h
              exact hround
            · refine ih ?_ ?_ h
              · exact hround.level
              · exact hround.started
        · exact restores_endCall h hlevel hstarted fun t => (restores_rtThreadResume t _).started

theorem restores_rtMbSendWait (h : c.rtMbSendWait others fuel m value timeout = some (c', r)) :
    Restores c c' := by
  unfold Cpu.rtMbSendWait at h
  split at h
  · cases h
    exact .refl c
  · dsimp only at h
    split at h
    · cases h
    · split at h
      · cases h
        exact .enable (interruptEnable_preempt c) (started_preempt c)
      · refine restores_mbSendLoop ?_ ?_ h
        · exact interruptEnable_preempt c
        · exact started_preempt c

theorem restores_mbRecvLoop (hlevel : temp.getLsbD 0 = c.interruptEnable)
    (hstarted : d.started = c.started)
    (h : d.mbRecvLoop others t m fuel temp timeout tickDelta = some (c', r, v)) :
    Restores c c' := by
  induction fuel generalizing d temp timeout tickDelta with
  | zero => cases h
  | succ fuel ih =>
      unfold Cpu.mbRecvLoop at h
      split at h
      · cases h
      · split at h
        · dsimp only at h
          split at h
          · cases h
            have hend : Restores c
                ((d.onKernel (·.setError t RT_EOK)).rtHwInterruptEnable others temp) :=
              .enable hlevel hstarted
            exact hend.trans (restores_onKernel _ rfl)
          · obtain ⟨d₁, hd₁, h⟩ := Option.bind_eq_some_iff.mp h
            have hstarted₁ := (restores_rtDebugInThreadContext hd₁).started.trans hstarted
            obtain ⟨d₂, hd₂, h⟩ := Option.bind_eq_some_iff.mp h
            have hround : Restores c d₂ := by
              apply Restores.enable_rtSchedule hlevel _ hd₂
              split
              · rw [(restores_armTimer _ _ _).started, started_suspendOn]
                exact hstarted₁
              · rw [started_suspendOn]
                exact hstarted₁
            split at h
            · cases h
              exact hround
            · refine ih ?_ ?_ h
              · exact hround.level
              · exact hround.started
        · obtain ⟨⟨e, r'⟩, he, heq⟩ := Option.map_eq_some_iff.mp h
          cases heq
          exact restores_endCall he hlevel hstarted fun t => (restores_wakeThread t _).started

theorem restores_rtMbRecv (h : c.rtMbRecv others fuel m timeout = some (c', r, v)) :
    Restores c c' := by
  unfold Cpu.rtMbRecv at h
  split at h
  · cases h
    exact .refl c
  · dsimp only at h
    split at h
    · cases h
    · split at h
      · cases h
        exact .enable (interruptEnable_preempt c) (started_preempt c)
      · refine restores_mbRecvLoop ?_ ?_ h
        · exact interruptEnable_preempt c
        · exact started_preempt c

end Mailboxes

/-! ## Creating and killing threads -/

section Threads

variable {others : Others} {c c' d : Cpu} {heapSem : ℕ} {a : Allocation} {b : Bool}
  {level : Option (BitVec 32)}

theorem malloc_spec (h : c.malloc others heapSem a = some (c', b)) :
    Restores c c' ∧ (b = true ↔ a = .block) := by
  unfold Cpu.malloc at h
  obtain ⟨c₁, h₁, h⟩ := Option.bind_eq_some_iff.mp h
  obtain ⟨⟨c₂, r⟩, h₂, h⟩ := Option.bind_eq_some_iff.mp h
  have htaken : Restores c c₂ := (restores_rtDebugNotInInterrupt h₁).trans (restores_rtSemTake h₂)
  cases a with
  | refused =>
      cases h
      exact ⟨htaken, by decide⟩
  | noBlock =>
      obtain ⟨⟨c₃, r'⟩, h₃, heq⟩ := Option.map_eq_some_iff.mp h
      cases heq
      exact ⟨htaken.trans (restores_rtSemRelease h₃), by decide⟩
  | block =>
      obtain ⟨⟨c₃, r'⟩, h₃, heq⟩ := Option.map_eq_some_iff.mp h
      cases heq
      exact ⟨htaken.trans (restores_rtSemRelease h₃), by decide⟩

theorem restores_free (h : c.free others heapSem = some c') : Restores c c' := by
  unfold Cpu.free at h
  obtain ⟨c₁, h₁, h⟩ := Option.bind_eq_some_iff.mp h
  obtain ⟨⟨c₂, r⟩, h₂, h⟩ := Option.bind_eq_some_iff.mp h
  obtain ⟨⟨c₃, r'⟩, h₃, h⟩ := Option.bind_eq_some_iff.mp h
  cases h
  have htaken : Restores c c₂ := (restores_rtDebugNotInInterrupt h₁).trans (restores_rtSemTake h₂)
  exact htaken.trans (restores_rtSemRelease h₃)

theorem currentThread_threadJoinInit {name : String} {stackSize priority runtick : BitVec 32}
    {mallocOk stackOk : Bool} (σ : Kernel) :
    (LuojiOs.threadJoinInit name stackSize priority runtick mallocOk stackOk σ).1.currentThread =
      σ.currentThread := by
  unfold LuojiOs.threadJoinInit
  dsimp only
  repeat' split
  all_goals rfl

theorem disableIfRunning_of_started (h : c.started = true) :
    c.disableIfRunning others =
      (some (c.preempt others).status, (c.preempt others).rtHwInterruptDisable.2) := by
  obtain ⟨t, ht⟩ := Option.isSome_iff_exists.mp h
  unfold disableIfRunning
  rw [ht]
  rfl

theorem disableIfRunning_of_not_started (h : c.started = false) :
    c.disableIfRunning others = (none, c) := by
  have hnone : c.kernel.currentThread = none :=
    Option.isNone_iff_eq_none.mp (Option.isSome_eq_false_iff.mp h)
  unfold disableIfRunning
  rw [hnone]

theorem enableIfRunning_of_started {l : BitVec 32} (h : c.started = true) :
    c.enableIfRunning others (some l) = some (c.rtHwInterruptEnable others l) := by
  obtain ⟨t, ht⟩ := Option.isSome_iff_exists.mp h
  unfold enableIfRunning
  rw [ht]

theorem enableIfRunning_of_not_started (h : c.started = false) :
    c.enableIfRunning others level = some c := by
  have hnone : c.kernel.currentThread = none :=
    Option.isNone_iff_eq_none.mp (Option.isSome_eq_false_iff.mp h)
  unfold enableIfRunning
  rw [hnone]

variable {name : String} {stackSize priority runtick : BitVec 32} {thread stack : Allocation}
  {t : Option Tid}

/-- `thread_join_init` comes to its end, where the level is written back. -/
def Joins (stackSize priority : BitVec 32) (thread stack : Allocation) : Prop :=
  ¬priority.toInt > (RT_THREAD_PRIORITY_MAX : ℤ) - 1 ∧ thread = .block ∧ stackSize ≠ 0 ∧
    stack = .block

/-- From the test of the priority on, `thread_join_init` keeps the level, or it goes on to
`enableIfRunning`. -/
theorem threadJoinInit_cases
    (h : c.threadJoinInit others heapSem name stackSize priority runtick thread stack =
      some (c', t)) :
    (¬Joins stackSize priority thread stack ∧ Restores (c.disableIfRunning others).2 c') ∨
      (Joins stackSize priority thread stack ∧ ∃ d : Cpu,
        Restores (c.disableIfRunning others).2 d ∧
        d.enableIfRunning others (c.disableIfRunning others).1 = some c') := by
  unfold Cpu.threadJoinInit at h
  dsimp only at h
  split at h
  · next hpriority =>
    cases h
    exact Or.inl ⟨fun hjoins => hjoins.1 hpriority, .refl _⟩
  · next hpriority =>
    obtain ⟨⟨c₁, newThread⟩, h₁, h⟩ := Option.bind_eq_some_iff.mp h
    obtain ⟨hkeeps₁, hthread⟩ := malloc_spec h₁
    dsimp only at h
    split at h
    · next hnull =>
      cases h
      refine Or.inl ⟨fun hjoins => ?_, hkeeps₁⟩
      rw [hthread.mpr hjoins.2.1] at hnull
      cases hnull
    · next hnull =>
      split at h
      · next hsize =>
        obtain ⟨c₂, h₂, heq⟩ := Option.map_eq_some_iff.mp h
        cases heq
        exact Or.inl ⟨fun hjoins => hjoins.2.2.1 hsize, hkeeps₁.trans (restores_free h₂)⟩
      · next hsize =>
        obtain ⟨⟨c₂, stackAddr⟩, h₂, h⟩ := Option.bind_eq_some_iff.mp h
        obtain ⟨hkeeps₂, hstack⟩ := malloc_spec h₂
        have hkeeps := hkeeps₁.trans hkeeps₂
        dsimp only at h
        split at h
        · next hnull =>
          obtain ⟨c₃, h₃, heq⟩ := Option.map_eq_some_iff.mp h
          cases heq
          refine Or.inl ⟨fun hjoins => ?_, hkeeps.trans (restores_free h₃)⟩
          rw [hstack.mpr hjoins.2.2.2] at hnull
          cases hnull
        · next hstackAddr =>
          split at h
          · obtain ⟨c₃, h₃, heq⟩ := Option.map_eq_some_iff.mp h
            cases heq
            have hjoins : Joins stackSize priority thread stack :=
              ⟨hpriority, hthread.mp (Bool.of_not_eq_false hnull), hsize,
                hstack.mp (Bool.of_not_eq_false hstackAddr)⟩
            refine Or.inr ⟨hjoins, _, ?_, h₃⟩
            exact hkeeps.trans (restores_onKernel c₂ (currentThread_threadJoinInit c₂.kernel))
          · cases h

theorem interruptEnable_threadJoinInit_of_not_joins (hstarted : c.started = true)
    (hjoins : ¬Joins stackSize priority thread stack)
    (h : c.threadJoinInit others heapSem name stackSize priority runtick thread stack =
      some (c', t)) : c'.interruptEnable = false := by
  rcases threadJoinInit_cases h with ⟨-, hkeeps⟩ | ⟨hend, -⟩
  · rw [hkeeps.level, disableIfRunning_of_started hstarted]
    exact interruptEnable_disable _
  · exact absurd hend hjoins

theorem restores_threadJoinInit
    (hjoins : c.started = true → Joins stackSize priority thread stack)
    (h : c.threadJoinInit others heapSem name stackSize priority runtick thread stack =
      some (c', t)) : Restores c c' := by
  cases hstarted : c.started with
  | true =>
      rcases threadJoinInit_cases h with ⟨hnot, -⟩ | ⟨-, d, hd, henable⟩
      · exact absurd (hjoins hstarted) hnot
      · rw [disableIfRunning_of_started hstarted] at hd henable
        have hd' : d.started = c.started := hd.started.trans (started_preempt c)
        rw [enableIfRunning_of_started (hd'.trans hstarted)] at henable
        cases henable
        exact .enable (interruptEnable_preempt c) hd'
  | false =>
      have hdisable := @disableIfRunning_of_not_started others c hstarted
      rcases threadJoinInit_cases h with ⟨-, hkeeps⟩ | ⟨-, d, hd, henable⟩
      · rw [hdisable] at hkeeps
        exact hkeeps
      · rw [hdisable] at hd henable
        rw [enableIfRunning_of_not_started (hd.started.trans hstarted)] at henable
        cases henable
        exact hd

theorem restores_closeThread (t : Tid) (c : Cpu) : Restores c (c.closeThread others t) := by
  have hclose : Restores c (c.onKernel (·.setStatu t .close)) := restores_onKernel c rfl
  unfold Cpu.closeThread
  apply Restores.trans _ (restores_onKernel _ rfl)
  apply Restores.trans _ (restores_rtScheduleRemoveThread t _)
  exact hclose.trans (restores_rtTimerStop _ _)

theorem restores_killThreadFun {id : BitVec 32} (h : c.killThreadFun others id = some c') :
    Restores c c' := by
  unfold Cpu.killThreadFun at h
  dsimp only at h
  split at h
  · cases h
    exact .enable rfl rfl
  · next t hfind =>
    have hclosed := (@restores_closeThread others t c.rtHwInterruptDisable.2).started
    split at h
    · split at h
      · obtain ⟨d, hd, rfl⟩ := Option.map_eq_some_iff.mp h
        exact .enable rfl ((restores_rtSchedule hd).started.trans hclosed)
      · cases h
        exact .enable rfl hclosed
    · cases h
      exact .enable rfl rfl

end Threads

/-! ## Every call -/

/-- The calls that return with interrupts disabled although they were enabled: a thread is to
be suspended that neither runs nor is ready, and `thread_join_init` gives up while a thread
runs. -/
def LevelCall.LeavesDisabled (c : Cpu) (call : LevelCall) : Prop :=
  c.interruptEnable = true ∧
    match call with
    | .threadSuspend t _ => c.kernel.statu t ≠ .ready ∧ c.kernel.statu t ≠ .running
    | .threadJoinInit _ stackSize priority _ thread stack =>
      c.started = true ∧ ¬Joins stackSize priority thread stack
    | _ => False

section Calls

variable {others : Others} {heapSem fuel : ℕ} {c c' : Cpu} {call : LevelCall}

theorem restores_iff_of_disabled (h : c'.interruptEnable = false) :
    c'.interruptEnable = c.interruptEnable ↔ ¬c.interruptEnable = true := by
  rw [h]
  cases c.interruptEnable with
  | false => simp
  | true => simp

/-- A call that returns leaves the interrupt-enable bit as it was on entry, unless it is one of
the two that give up without writing the level back. -/
theorem interruptEnable_restored_iff (h : c.exec others heapSem fuel call = some c') :
    c'.interruptEnable = c.interruptEnable ↔ ¬call.LeavesDisabled c := by
  have hrestores : Restores c c' → (¬call.LeavesDisabled c) →
      (c'.interruptEnable = c.interruptEnable ↔ ¬call.LeavesDisabled c) := by
    intro hrestores hnot
    exact ⟨fun _ => hnot, fun _ => hrestores.level⟩
  unfold Cpu.exec at h
  cases call with
  | threadSuspend t statu =>
      cases h
      have hlevel := @interruptEnable_rtThreadSuspend others t statu c
      by_cases hstat : c.kernel.statu t ≠ .ready ∧ c.kernel.statu t ≠ .running
      · rw [if_pos hstat] at hlevel
        rw [restores_iff_of_disabled hlevel]
        exact not_congr ⟨fun h => ⟨h, hstat⟩, And.left⟩
      · rw [if_neg hstat] at hlevel
        exact ⟨fun _ hleaves => hstat hleaves.2, fun _ => hlevel⟩
  | threadJoinInit name stackSize priority runtick thread stack =>
      obtain ⟨⟨c₁, t⟩, hjoin, heq⟩ := Option.map_eq_some_iff.mp h
      cases heq
      by_cases hleaves : c.started = true ∧ ¬Joins stackSize priority thread stack
      · rw [restores_iff_of_disabled
          (interruptEnable_threadJoinInit_of_not_joins hleaves.1 hleaves.2 hjoin)]
        exact not_congr ⟨fun h => ⟨h, hleaves⟩, And.left⟩
      · refine hrestores (restores_threadJoinInit ?_ hjoin) fun h => hleaves h.2
        intro hstarted
        by_contra hjoins
        exact hleaves ⟨hstarted, hjoins⟩
  | threadResume t =>
      cases h
      exact hrestores (restores_rtThreadResume t c) And.right
  | timerStart k =>
      cases h
      exact hrestores (restores_rtTimerStart k c) And.right
  | timerStop k =>
      cases h
      exact hrestores (restores_rtTimerStop k c) And.right
  | threadSleep tick =>
      obtain ⟨⟨c₁, r⟩, hcall, heq⟩ := Option.map_eq_some_iff.mp h
      cases heq
      exact hrestores (restores_rtThreadSleep hcall) And.right
  | semTake s time =>
      obtain ⟨⟨c₁, r⟩, hcall, heq⟩ := Option.map_eq_some_iff.mp h
      cases heq
      exact hrestores (restores_rtSemTake hcall) And.right
  | semRelease s =>
      obtain ⟨⟨c₁, r⟩, hcall, heq⟩ := Option.map_eq_some_iff.mp h
      cases heq
      exact hrestores (restores_rtSemRelease hcall) And.right
  | semDetach s =>
      obtain ⟨⟨c₁, r⟩, hcall, heq⟩ := Option.map_eq_some_iff.mp h
      cases heq
      exact hrestores (restores_rtSemDetach hcall) And.right
  | mbSendWait m value timeout =>
      obtain ⟨⟨c₁, r⟩, hcall, heq⟩ := Option.map_eq_some_iff.mp h
      cases heq
      exact hrestores (restores_rtMbSendWait hcall) And.right
  | mbRecv m timeout =>
      obtain ⟨⟨c₁, r⟩, hcall, heq⟩ := Option.map_eq_some_iff.mp h
      cases heq
      exact hrestores (restores_rtMbRecv hcall) And.right
  | killThreadFun id => exact hrestores (restores_killThreadFun h) And.right

/-- A system of one thread that runs, with a semaphore for the heap. -/
def oneThread : Option Cpu :=
  let σ := rtSemInit 0 1 (threadInit 0)
  (threadStart (LuojiOs.threadJoinInit "shell" 4096 10 10 true true σ).1).map
    fun σ => ⟨σ, 0x8001, 0, 0⟩

def idleOthers : Others := ⟨fun _ σ => σ, fun _ _ => rfl⟩

/-- A second thread is created, and the level is what it was. -/
theorem interruptEnable_restored_joined : ∃ c c', oneThread = some c ∧
    c.exec idleOthers 0 10 (.threadJoinInit "ping" 2048 14 10 .block .block) = some c' ∧
      c.interruptEnable = true ∧ c'.interruptEnable = c.interruptEnable := by
  obtain ⟨c, hc, hany⟩ := Runs.exists_of_any (show oneThread.any (fun c =>
    (c.exec idleOthers 0 10 (.threadJoinInit "ping" 2048 14 10 .block .block)).isSome &&
      c.interruptEnable) = true by decide)
  obtain ⟨hsome, hlevel⟩ := Bool.and_eq_true_iff.mp hany
  obtain ⟨c', hc'⟩ := Option.isSome_iff_exists.mp hsome
  refine ⟨c, c', hc, hc', hlevel, (interruptEnable_restored_iff hc').mpr ?_⟩
  rintro ⟨-, -, hjoins⟩
  exact hjoins ⟨by decide, rfl, by decide, rfl⟩

/-- The running thread asks for a thread of priority 32, for one that there is no memory for,
and to suspend itself twice: interrupts are disabled afterwards. -/
theorem interruptEnable_not_restored :
    (∃ c c', oneThread = some c ∧
      c.exec idleOthers 0 10 (.threadJoinInit "ping" 2048 32 10 .block .block) = some c' ∧
        c.interruptEnable = true ∧ c'.interruptEnable = false) ∧
    (∃ c c', oneThread = some c ∧
      c.exec idleOthers 0 10 (.threadJoinInit "ping" 2048 14 10 .block .noBlock) = some c' ∧
        c.interruptEnable = true ∧ c'.interruptEnable = false) ∧
    ∃ c c', oneThread.bind (fun c => c.exec idleOthers 0 10 (.threadSuspend 0 .suspend)) =
        some c ∧
      c.exec idleOthers 0 10 (.threadSuspend 0 .suspend) = some c' ∧
        c.interruptEnable = true ∧ c'.interruptEnable = false := by
  have hends : ∀ (o : Option Cpu) (call : LevelCall), (o.any fun c =>
      c.interruptEnable && (c.exec idleOthers 0 10 call).any (! ·.interruptEnable)) = true →
      ∃ c c', o = some c ∧ c.exec idleOthers 0 10 call = some c' ∧ c.interruptEnable = true ∧
        c'.interruptEnable = false := by
    intro o call hany
    obtain ⟨c, hc, hcheck⟩ := Runs.exists_of_any hany
    obtain ⟨hlevel, hcall⟩ := Bool.and_eq_true_iff.mp hcheck
    obtain ⟨c', hc', hlevel'⟩ := Runs.exists_of_any hcall
    exact ⟨c, c', hc, hc', hlevel, by simpa using hlevel'⟩
  refine ⟨hends _ _ ?_, hends _ _ ?_, hends _ _ ?_⟩
  · decide
  · decide
  · decide

end Calls

end Cpu

end LuojiOs
