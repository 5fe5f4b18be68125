import LuojiOs.Interrupt.Machine
import LuojiOs.Scheduler.Effects
import LuojiOs.Support.Runs

/-!
# Context switches in an interrupt

`rt_schedule` moves `rt_current_thread` at once, and leaves the switch of the stacks to the
end of the interrupt.  Only its first choice writes the thread to switch from, and each
choice writes the one to switch to.
-/

namespace LuojiOs

open Machine

/-! ## The kernel of the machine -/

section Kernel

variable {m m' : Machine} {t u : Tid} {k : TimerId}

theorem rtHwContextSwitchInterrupt_first (t u : Tid) (h : m.threadSwitchInterruptFlag = 0) :
    m.rtHwContextSwitchInterrupt t u = { m with
      threadSwitchInterruptFlag := 1
      interruptFromThread := some t
      interruptToThread := some u } := by
  unfold rtHwContextSwitchInterrupt
  rw [if_pos h]

theorem rtHwContextSwitchInterrupt_later (t u : Tid) (h : m.threadSwitchInterruptFlag ≠ 0) :
    m.rtHwContextSwitchInterrupt t u = { m with interruptToThread := some u } := by
  unfold rtHwContextSwitchInterrupt
  rw [if_neg h]

theorem kernel_rtHwContextSwitchInterrupt :
    (m.rtHwContextSwitchInterrupt t u).kernel = m.kernel := by
  by_cases hflag : m.threadSwitchInterruptFlag = 0
  · rw [rtHwContextSwitchInterrupt_first t u hflag]
  · rw [rtHwContextSwitchInterrupt_later t u hflag]

/-- On the kernel, `rt_schedule` is the function of the kernel. -/
theorem kernel_rtSchedule (m : Machine) :
    m.rtSchedule.map kernel = LuojiOs.rtSchedule m.kernel := by
  unfold Machine.rtSchedule LuojiOs.rtSchedule
  cases m.kernel.currentThread with
  | none => rfl
  | some fromThread =>
      dsimp only
      by_cases hgroup : m.kernel.readyPriorityGroup ≠ 0
      · rw [if_pos hgroup, if_pos hgroup]
        cases getHighestPriorityThread m.kernel with
        | none => rfl
        | some found =>
            dsimp only
            by_cases hto : found.1 ≠ fromThread
            · rw [if_pos hto, if_pos hto]
              split
              · rfl
              · exact congrArg some kernel_rtHwContextSwitchInterrupt
            · rw [if_neg hto, if_neg hto]
              rfl
      · rw [if_neg hgroup, if_neg hgroup]
        rfl

theorem kernel_runTimeoutFunc (f : TimeoutFunc) (m : Machine) :
    (Machine.runTimeoutFunc f m).map kernel = LuojiOs.runTimeoutFunc f m.kernel := by
  cases f with
  | rtThreadTimeout t => exact kernel_rtSchedule _
  | callback ops => rfl

theorem kernel_checkTimer (k : TimerId) (m : Machine) :
    (m.checkTimer k).map kernel = LuojiOs.checkTimer k m.kernel := by
  unfold Machine.checkTimer LuojiOs.checkTimer
  by_cases hdue : timerDue k m.kernel = true
  · rw [if_pos hdue, if_pos hdue]
    dsimp only
    have hrun := kernel_runTimeoutFunc (m.kernel.timer k).timeoutFunc
      (m.onKernel fun σ => { σ with timerLinks := σ.timerLinks.remove (.timer k) })
    dsimp only [onKernel] at hrun ⊢
    rw [← hrun]
    cases Machine.runTimeoutFunc _ _ with
    | none => rfl
    | some m₁ => rfl
  · rw [if_neg hdue, if_neg hdue]
    rfl

theorem kernel_rtTimerCheckFrom (fuel : ℕ) (pos n : TimerNode) (m : Machine) :
    (m.rtTimerCheckFrom fuel pos n).map kernel =
      LuojiOs.rtTimerCheckFrom fuel pos n m.kernel := by
  induction fuel generalizing pos n m with
  | zero => rfl
  | succ fuel ih =>
      cases pos with
      | head => rfl
      | timer k =>
          simp only [Machine.rtTimerCheckFrom, LuojiOs.rtTimerCheckFrom]
          rw [← kernel_checkTimer]
          cases m.checkTimer k with
          | none => rfl
          | some m₁ => exact ih _ _ m₁

/-- The machine goes through a tick as the kernel does. -/
theorem kernel_sysTickHandler (fuel : ℕ) (m : Machine) :
    (m.sysTickHandler fuel).map kernel = LuojiOs.sysTickHandler fuel m.kernel := by
  unfold Machine.sysTickHandler LuojiOs.sysTickHandler
  dsimp only [onKernel]
  cases (sysTickIncrease m.kernel).currentThread with
  | none => rfl
  | some c =>
      dsimp only
      cases hcount : countDown c (sysTickIncrease m.kernel) with
      | mk ends σ =>
          cases ends with
          | true =>
              have hrun := kernel_rtSchedule { m with kernel := σ }
              dsimp only at hrun ⊢
              rw [if_pos rfl, ← hrun]
              cases Machine.rtSchedule _ with
              | none => rfl
              | some m₁ => exact kernel_rtTimerCheckFrom _ _ _ m₁
          | false => exact kernel_rtTimerCheckFrom _ _ _ _

end Kernel

/-! ## Inside an interrupt -/

theorem current_runTimerOps (ops : List TimerOp) (σ : Kernel) :
    (ops.foldl runTimerOp σ).currentThread = σ.currentThread := by
  induction ops generalizing σ with
  | nil => rfl
  | cons op ops ih =>
      rw [List.foldl_cons, ih]
      cases op with
      | start u => rfl
      | stop u =>
          simp only [runTimerOp, rtTimerStop]
          split
          · rfl
          · rfl

theorem current_countDown (c : Tid) (σ : Kernel) :
    (countDown c σ).2.currentThread = σ.currentThread := by
  unfold countDown
  dsimp only
  split
  · rfl
  · rfl

/-- The state inside an interrupt of the thread `A` that began as `m₀`: nothing is saved yet,
and the two pointers name `A` and the thread chosen last.  Before `thread_start` no thread is
interrupted. -/
structure Inside (A : Option Tid) (m₀ m : Machine) : Prop where
  sp : m.sp = m₀.sp
  frameSp : m.frameSp = m₀.frameSp
  nest : m.interruptNest = 1
  unmoved : m.chosen = [] → m.threadSwitchInterruptFlag = 0 ∧ m.kernel.currentThread = A
  moved : ∀ B ts, m.chosen = B :: ts → m.threadSwitchInterruptFlag = 1 ∧
    (∃ c, A = some c ∧ m.interruptFromThread = some c) ∧ m.interruptToThread = some B ∧
    m.kernel.currentThread = some B

namespace Inside

variable {A : Option Tid} {m₀ m m' : Machine} {f : Kernel → Kernel} {t c : Tid} {k : TimerId}
  {fuel : ℕ}

theorem onKernel (h : Inside A m₀ m)
    (hf : (f m.kernel).currentThread = m.kernel.currentThread) :
    Inside A m₀ (m.onKernel f) where
  sp := h.sp
  frameSp := h.frameSp
  nest := h.nest
  unmoved hchosen := ⟨(h.unmoved hchosen).1, hf.trans (h.unmoved hchosen).2⟩
  moved B ts hchosen := by
    obtain ⟨hflag, hfrom, hto, hcurrent⟩ := h.moved B ts hchosen
    exact ⟨hflag, hfrom, hto, hf.trans hcurrent⟩

/-- The first choice names the thread to switch from, and every choice the one to switch
to. -/
theorem choose (h : Inside A m₀ m) (hc : m.kernel.currentThread = some c) (B : Tid) :
    Inside A m₀ (Machine.rtHwContextSwitchInterrupt c B
      { m.onKernel (switchThread c B) with chosen := B :: m.chosen }) := by
  have hnone : ∀ {p : Prop}, B :: m.chosen = [] → p := by
    intro p hempty
    cases hempty
  by_cases hchosen : m.chosen = []
  · obtain ⟨hzero, hA⟩ := h.unmoved hchosen
    have hflag : Machine.threadSwitchInterruptFlag { m.onKernel (switchThread c B) with
        chosen := B :: m.chosen } = 0 := hzero
    rw [rtHwContextSwitchInterrupt_first _ _ hflag]
    refine ⟨h.sp, h.frameSp, h.nest, hnone, ?_⟩
    rintro C ts hcons
    cases hcons
    exact ⟨rfl, ⟨c, hA.symm.trans hc, rfl⟩, rfl, current_switchThread _ _ _⟩
  · obtain ⟨C, ts, hcons⟩ := List.exists_cons_of_ne_nil hchosen
    obtain ⟨hone, hfrom, -, -⟩ := h.moved C ts hcons
    have hflag : Machine.threadSwitchInterruptFlag { m.onKernel (switchThread c B) with
        chosen := B :: m.chosen } ≠ 0 := by
      intro hzero
      have hzero : m.threadSwitchInterruptFlag = 0 := hzero
      rw [hone] at hzero
      exact absurd hzero (by decide)
    rw [rtHwContextSwitchInterrupt_later _ _ hflag]
    refine ⟨h.sp, h.frameSp, h.nest, hnone, ?_⟩
    rintro D us hmore
    cases hmore
    exact ⟨hone, hfrom, rfl, current_switchThread _ _ _⟩

theorem rtSchedule (h : Inside A m₀ m) (hr : m.rtSchedule = some m') : Inside A m₀ m' := by
  unfold Machine.rtSchedule at hr
  split at hr
  · cases hr
  · next c hc =>
    split at hr
    · split at hr
      · cases hr
      · next B p hfound =>
        split at hr
        · dsimp only at hr
          split at hr
          · next hnest =>
            have hzero : m.interruptNest = 0 := hnest
            rw [h.nest] at hzero
            exact absurd hzero (by decide)
          · cases hr
            exact h.choose hc B
        · cases hr
    · cases hr
      exact h

theorem rtThreadTimeout (h : Inside A m₀ m) (hr : m.rtThreadTimeout t = some m') :
    Inside A m₀ m' :=
  (h.onKernel (onlyThread_expireThread t m.kernel).current).rtSchedule hr

theorem runTimeoutFunc {f : TimeoutFunc} (h : Inside A m₀ m)
    (hr : Machine.runTimeoutFunc f m = some m') : Inside A m₀ m' := by
  cases f with
  | rtThreadTimeout t => exact h.rtThreadTimeout hr
  | callback ops =>
      cases hr
      exact h.onKernel (current_runTimerOps ops m.kernel)

theorem checkTimer (h : Inside A m₀ m) (hr : m.checkTimer k = some m') : Inside A m₀ m' := by
  unfold Machine.checkTimer at hr
  split at hr
  · dsimp only at hr
    split at hr
    · cases hr
    · next m₁ hrun =>
      cases hr
      have hremoved := h.onKernel
        (f := fun σ => { σ with timerLinks := σ.timerLinks.remove (.timer k) }) rfl
      exact (hremoved.runTimeoutFunc hrun).onKernel rfl
  · cases hr
    exact h

theorem rtTimerCheckFrom {pos n : TimerNode} (h : Inside A m₀ m)
    (hr : m.rtTimerCheckFrom fuel pos n = some m') : Inside A m₀ m' := by
  induction fuel generalizing pos n m with
  | zero => cases hr
  | succ fuel ih =>
      cases pos with
      | head =>
          cases hr
          exact h
      | timer k =>
          simp only [Machine.rtTimerCheckFrom] at hr
          split at hr
          · cases hr
          · next m₁ hcheck => exact ih (h.checkTimer hcheck) hr

theorem sysTickHandler (h : Inside A m₀ m) (hr : m.sysTickHandler fuel = some m') :
    Inside A m₀ m' := by
  have hticked := h.onKernel (f := sysTickIncrease) rfl
  unfold Machine.sysTickHandler at hr
  dsimp only at hr
  split at hr
  · cases hr
    exact hticked
  · next c hc =>
    have hcounted := hticked.onKernel (f := fun σ => (countDown c σ).2) (current_countDown c _)
    split at hr
    · obtain ⟨m₁, hsched, hcheck⟩ := Option.bind_eq_some_iff.mp hr
      exact (hcounted.rtSchedule hsched).rtTimerCheckFrom hcheck
    · exact hcounted.rtTimerCheckFrom hr

theorem irqHandler {acts : List IrqAct} (h : Inside A m₀ m)
    (hr : Machine.irqHandler acts m = some m') : Inside A m₀ m' := by
  induction acts generalizing m with
  | nil =>
      cases hr
      exact h
  | cons act acts ih =>
      obtain ⟨m₁, hact, hrest⟩ := Option.bind_eq_some_iff.mp hr
      cases act with
      | work f =>
          simp only [IrqAct.exec] at hact
          split at hact
          · next hf =>
            cases hact
            exact ih (h.onKernel hf) hrest
          · cases hact
      | schedule => exact ih (h.rtSchedule hact) hrest

end Inside

/-! ## A whole interrupt -/

/-- What `plat_irq_dispatch` may run: the tick, or a handler of another interrupt. -/
inductive IsHandler : (Machine → Option Machine) → Prop
  | tick (fuel : ℕ) : IsHandler (Machine.sysTickHandler fuel)
  | other (acts : List IrqAct) : IsHandler (irqHandler acts)

section Whole

variable {A : Option Tid} {c : Tid} {platIrqDispatch : Machine → Option Machine}
  {m₀ m m' : Machine}

theorem IsHandler.inside (h : IsHandler platIrqDispatch) (hm : Inside A m₀ m)
    (hr : platIrqDispatch m = some m') : Inside A m₀ m' := by
  cases h with
  | tick fuel => exact hm.sysTickHandler hr
  | other acts => exact hm.irqHandler hr

theorem Inside.enter (h : Boot m) :
    Inside m.kernel.currentThread m.saveAll m.saveAll.rtInterruptEnter where
  sp := rfl
  frameSp := rfl
  nest := by
    have hnest : m.interruptNest = 0 := h.nest
    unfold rtInterruptEnter saveAll
    dsimp only
    rw [hnest]
    rfl
  unmoved _ := ⟨h.flag, rfl⟩
  moved _ _ hchosen := by cases hchosen

/-- Where the processor goes on, by what was chosen. -/
structure Composed (A : Option Tid) (m m' : Machine) : Prop where
  boot : Boot m'
  stays : m'.chosen = [] → m'.stackPointer = m.stackPointer - PT_SIZE ∧ m'.sp = m.sp
  moves : ∀ B ts, m'.chosen = B :: ts → m'.kernel.currentThread = some B ∧
    m'.stackPointer = m'.sp B ∧
    ∃ c, A = some c ∧ m'.sp = Function.update m.sp c (m.stackPointer - PT_SIZE)
  frameSp : m'.frameSp = m.saveAll.frameSp

theorem composed_of_handler (hplat : IsHandler platIrqDispatch) (h : Boot m)
    (hr : m.handleIntFrame platIrqDispatch = some m') :
    Composed m.kernel.currentThread m m' := by
  unfold handleIntFrame at hr
  dsimp only at hr
  split at hr
  · cases hr
  · next m₁ hdispatch =>
    have hinside := hplat.inside (Inside.enter h) hdispatch
    have hleft : m₁.interruptNest - 1 = 0 := by
      rw [hinside.nest]
      rfl
    split at hr
    · next hflag =>
      cases hr
      refine ⟨⟨hflag, hleft⟩, fun _ => ⟨rfl, hinside.sp⟩, ?_, hinside.frameSp⟩
      intro B ts hchosen
      have hone : m₁.threadSwitchInterruptFlag = 1 := (hinside.moved B ts hchosen).1
      have hzero : m₁.threadSwitchInterruptFlag = 0 := hflag
      rw [hone] at hzero
      exact absurd hzero (by decide)
    · next hflag =>
      have hmoved : ∃ B ts, m₁.chosen = B :: ts := by
        apply List.exists_cons_of_ne_nil
        intro hchosen
        exact hflag (hinside.unmoved hchosen).1
      obtain ⟨B, ts, hchosen⟩ := hmoved
      obtain ⟨-, ⟨c, hA, hfrom⟩, hto, hcurrent⟩ := hinside.moved B ts hchosen
      have hfrom : m₁.rtInterruptLeave.interruptFromThread = some c := hfrom
      have hto : m₁.rtInterruptLeave.interruptToThread = some B := hto
      rw [hfrom, hto] at hr
      cases hr
      refine ⟨⟨rfl, hleft⟩, ?_, ?_, hinside.frameSp⟩
      · intro hempty
        have hempty : m₁.chosen = [] := hempty
        rw [hchosen] at hempty
        cases hempty
      · intro C us hcons
        have hcons : m₁.chosen = C :: us := hcons
        rw [hchosen] at hcons
        cases hcons
        refine ⟨hcurrent, rfl, c, hA, ?_⟩
        exact congrArg (Function.update · c (m.stackPointer - PT_SIZE)) hinside.sp

theorem boot_rtSchedule (h : Boot m) (hr : m.rtSchedule = some m') : Boot m' := by
  unfold Machine.rtSchedule at hr
  split at hr
  · cases hr
  · split at hr
    · split at hr
      · cases hr
      · split at hr
        · dsimp only at hr
          split at hr
          · cases hr
            exact ⟨h.flag, h.nest⟩
          · next hnest => exact absurd h.nest hnest
        · cases hr
    · cases hr
      exact h

theorem boot_handleInt (hplat : IsHandler platIrqDispatch) (h : Boot m)
    (hr : m.handleInt platIrqDispatch = some m') : Boot m' := by
  obtain ⟨m₁, hframe, rfl⟩ := Option.map_eq_some_iff.mp hr
  have hboot := (composed_of_handler hplat h hframe).boot
  exact ⟨hboot.flag, hboot.nest⟩

theorem boot_of_reach (h : Runs.Reach Machine.step (fun _ _ => True) Boot m) : Boot m := by
  refine h.invariant (fun m hm => hm) ?_
  intro m e m' hm _ hstep
  cases e with
  | work f sp stackPointer frameSp =>
      simp only [Machine.step] at hstep
      split at hstep
      · cases hstep
        exact ⟨hm.flag, hm.nest⟩
      · cases hstep
  | threadStart =>
      obtain ⟨σ, -, hrest⟩ := Option.bind_eq_some_iff.mp hstep
      obtain ⟨t, -, hlast⟩ := Option.bind_eq_some_iff.mp hrest
      cases hlast
      exact ⟨hm.flag, hm.nest⟩
  | schedule => exact boot_rtSchedule hm hstep
  | tick fuel => exact boot_handleInt (.tick fuel) hm hstep
  | interrupt acts => exact boot_handleInt (.other acts) hm hstep

/-- When the interrupt of a thread `c` ends, the flag is 0.  If no other thread was chosen,
`c` goes on from its own frame, where it was interrupted, and nothing was saved.  Otherwise
only the frame of `c` was saved, in `c`, and the processor goes on from what is saved in the
thread that is current then. -/
theorem handleInt_composes (hplat : IsHandler platIrqDispatch)
    (hreach : Runs.Reach Machine.step (fun _ _ => True) Boot m)
    (hc : m.kernel.currentThread = some c)
    (hr : m.handleIntFrame platIrqDispatch = some m') :
    m'.threadSwitchInterruptFlag = 0 ∧
      (m'.chosen = [] → m'.stackPointer = m.stackPointer - PT_SIZE ∧ m'.sp = m.sp ∧
        m'.restoreAllAndRet.stackPointer = m.stackPointer) ∧
      (m'.chosen ≠ [] → m'.sp = Function.update m.sp c (m.stackPointer - PT_SIZE) ∧
        ∃ B, m'.kernel.currentThread = some B ∧ m'.stackPointer = m'.sp B) := by
  have hend := composed_of_handler hplat (boot_of_reach hreach) hr
  refine ⟨hend.boot.flag, ?_, ?_⟩
  · intro hchosen
    obtain ⟨hframe, hsp⟩ := hend.stays hchosen
    refine ⟨hframe, hsp, ?_⟩
    unfold restoreAllAndRet
    dsimp only
    rw [hframe, hend.frameSp]
    unfold saveAll
    exact Function.update_self _ _ _
  · intro hchosen
    obtain ⟨B, ts, hcons⟩ := List.exists_cons_of_ne_nil hchosen
    obtain ⟨hcurrent, hframe, d, hd, hsp⟩ := hend.moves B ts hcons
    rw [hc] at hd
    cases hd
    exact ⟨hsp, B, hcurrent, hframe⟩

end Whole

/-- A machine before `thread_start`, with two threads of one priority. -/
def twoThreads : Machine where
  kernel := (threadJoinInit "b" 4096 5 10 true true
    (threadJoinInit "a" 4096 5 10 true true (threadInit 0)).1).1
  sp _ := 0x80001000
  stackPointer := 0x80200000
  frameSp _ := 0x80002000
  threadSwitchInterruptFlag := 0
  interruptFromThread := none
  interruptToThread := none
  interruptNest := 0
  chosen := []

/-- The thread 0 is interrupted, the thread 1 is chosen, and then the thread 0 again. -/
theorem handleInt_composes_back :
    ∃ m m', Runs.Reach Machine.step (fun _ _ => True) Boot m ∧
      m.handleIntFrame (irqHandler [.schedule, .schedule]) = some m' ∧ m'.chosen = [0, 1] ∧
      m'.threadSwitchInterruptFlag = 0 ∧
      m'.sp = Function.update m.sp 0 (m.stackPointer - PT_SIZE) := by
  obtain ⟨m, hm, hcheck⟩ := Runs.exists_of_any
    (show (Machine.step twoThreads .threadStart).any (fun m =>
      m.kernel.currentThread = some 0 ∧
        (m.handleIntFrame (irqHandler [.schedule, .schedule])).any fun m' =>
          m'.chosen = [0, 1]) = true by decide)
  obtain ⟨hc, hframe⟩ := of_decide_eq_true hcheck
  obtain ⟨m', hm', hend⟩ := Runs.exists_of_any hframe
  have hchosen := of_decide_eq_true hend
  have hreach : Runs.Reach Machine.step (fun _ _ => True) Boot m :=
    (Runs.Reach.start (show Boot twoThreads from ⟨rfl, rfl⟩)).step trivial hm
  obtain ⟨hflag, -, hmoves⟩ := handleInt_composes (.other _) hreach hc hm'
  refine ⟨m, m', hreach, hm', hchosen, hflag, (hmoves ?_).1⟩
  rw [hchosen]
  exact List.cons_ne_nil 0 [1]

end LuojiOs
