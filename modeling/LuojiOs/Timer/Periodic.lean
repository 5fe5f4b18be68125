import LuojiOs.Timer.Expiry
import Mathlib.Logic.Function.Iterate

/-!
# Periodic timers

`RT_TIMER_FLAG_PERIODIC` in the flag argument of `rt_timer_init` asks for a timer that
stays armed, and `init_eth` asks for one.  `rt_timer_init` does not store the argument and
`rt_timer_check` switches every timer off that it has fired, so a timer expires once
whatever it was initialised with.
-/

namespace LuojiOs

open CircularList

def RT_TIMER_FLAG_PERIODIC : BitVec 8 := 0x2

/-! ## What is expected of an expiry -/

def OnTimerList (σ : Kernel) (k : TimerId) : Prop :=
  ∃ n : ℕ, σ.timerLinks.next^[n + 1] .head = .timer k

/-- After an expiry between `σ` and `σ'` the timer `k` runs on.  Its deadline is
`init_tick` after the last one, or after the tick of the expiry. -/
def Rearmed (k : TimerId) (σ σ' : Kernel) : Prop :=
  OnTimerList σ' k ∧ (σ'.timer k).flag = .activated ∧
    ((σ'.timer k).timeoutTick = (σ.timer k).timeoutTick + (σ.timer k).initTick ∨
      (σ'.timer k).timeoutTick = σ'.systemTick + (σ.timer k).initTick)

/-- An expiry of a timer that was initialised with the argument `flag`. -/
def ExpirySpec (flag : BitVec 8) (k : TimerId) (σ σ' : Kernel) : Prop :=
  if flag &&& RT_TIMER_FLAG_PERIODIC = 0 then (σ'.timer k).flag = .noActivated
  else Rearmed k σ σ'

/-- The walk of `rt_timer_check` comes to the timer `k` while it is due. -/
def expiresFrom (k : TimerId) : ℕ → TimerNode → TimerNode → Kernel → Bool
  | 0, _, _, _ => false
  | _ + 1, .head, _, _ => false
  | fuel + 1, .timer j, n, σ =>
    (j = k ∧ timerDue k σ = true) ||
      match checkTimer j σ with
      | none => false
      | some σ => expiresFrom k fuel n (σ.timerLinks.next n) σ

def expiresInCheck (k : TimerId) (fuel : ℕ) (σ : Kernel) : Bool :=
  let pos := σ.timerLinks.next .head
  expiresFrom k fuel pos (σ.timerLinks.next pos) σ

/-- The timer `k` expires in the event, which is then a tick. -/
def expires (k : TimerId) (σ : Kernel) : Event → Bool
  | .tick fuel =>
    match σ.currentThread with
    | none => false
    | some c =>
      match countDown c (sysTickIncrease σ) with
      | (true, σ) => (rtSchedule σ).any (expiresInCheck k fuel)
      | (false, σ) => expiresInCheck k fuel σ
  | _ => false

/-! ## The runs -/

/-- No timer but `u` gets a callback that starts or stops `u`. -/
def callbackLeaves (u : ℕ) : Event → Bool
  | .call (.rtTimerInit v ops _ _) => v = u ∨ (TimerOp.start u ∉ ops ∧ TimerOp.stop u ∉ ops)
  | _ => true

/-- The event neither initialises nor starts nor stops the timer `u`. -/
def leavesTimer (u : ℕ) (e : Event) : Bool :=
  callbackLeaves u e &&
    match e with
    | .call (.rtTimerInit v ..) | .call (.rtTimerStart v) | .call (.rtTimerStop v) => v ≠ u
    | _ => true

/-- The timer `u` has just been initialised with the argument `flag`. -/
def JustInitialised (u : ℕ) (flag : BitVec 8) (σ : Kernel) : Prop :=
  ∃ σ₀ ops time, Reachable (fun _ e => callbackLeaves u e = true) σ₀ ∧
    step σ₀ (.call (.rtTimerInit u ops time flag)) = some σ

/-- It has been left alone since, and has just been started. -/
def JustStarted (u : ℕ) (flag : BitVec 8) (σ : Kernel) : Prop :=
  ∃ σ₀, Runs.Reach step (fun _ e => leavesTimer u e = true) (JustInitialised u flag) σ₀ ∧
    step σ₀ (.call (.rtTimerStart u)) = some σ

/-- The states of the runs in which the timer `u` is initialised with the argument `flag`,
started once and not stopped. -/
def StartedOnce (u : ℕ) (flag : BitVec 8) : Kernel → Prop :=
  Runs.Reach step (fun _ e => leavesTimer u e = true) (JustStarted u flag)

/-! ## Which callbacks there are -/

/-- Every callback of `σ'` is the callback of the same timer in `σ`. -/
def KeepsCallbacks (σ σ' : Kernel) : Prop :=
  ∀ j ops, (σ'.timer j).timeoutFunc = .callback ops → (σ.timer j).timeoutFunc = .callback ops

namespace KeepsCallbacks

variable {σ₀ σ σ₁ σ' : Kernel} {e : Event} {t : Tid} {u : ℕ}

theorem trans (h : KeepsCallbacks σ σ₁) (h' : KeepsCallbacks σ₁ σ') : KeepsCallbacks σ σ' := by
  intro j ops hj
  exact h j ops (h' j ops hj)

theorem of_func (h : ∀ j, (σ'.timer j).timeoutFunc = (σ.timer j).timeoutFunc) :
    KeepsCallbacks σ σ' := by
  intro j ops hj
  rwa [h j] at hj

theorem of_timer (h : σ'.timer = σ.timer) : KeepsCallbacks σ σ' := by
  apply of_func
  intro j
  rw [h]

theorem setTimer {k : TimerId} {x : Timer} (hx : x.timeoutFunc = (σ.timer k).timeoutFunc) :
    KeepsCallbacks σ (σ.setTimer k x) := by
  apply of_func
  intro j
  by_cases hj : j = k
  · subst hj
    simpa [Kernel.setTimer] using hx
  · simp [Kernel.setTimer, hj]

theorem rtTimerStart (k : TimerId) (σ : Kernel) :
    KeepsCallbacks σ (LuojiOs.rtTimerStart k σ) :=
  of_func fun j => timeoutFunc_rtTimerStart k j σ

theorem rtTimerStop (k : TimerId) (σ : Kernel) :
    KeepsCallbacks σ (LuojiOs.rtTimerStop k σ).1 :=
  of_func fun j => timeoutFunc_rtTimerStop k j σ

theorem sched (h : SchedOnly σ σ') : KeepsCallbacks σ σ' :=
  of_timer h.timer

theorem wakeThread (t : Tid) (σ : Kernel) : KeepsCallbacks σ (LuojiOs.wakeThread t σ) := by
  have hstop := rtTimerStop (.ofThread t) (unlinkThread t σ)
  have hunlink : KeepsCallbacks σ (unlinkThread t σ) := of_timer rfl
  exact (hunlink.trans hstop).trans (sched (schedOnly_rtScheduleInsertThread t _))

theorem rtThreadResume (t : Tid) (σ : Kernel) :
    KeepsCallbacks σ (LuojiOs.rtThreadResume t σ).1 := by
  unfold LuojiOs.rtThreadResume
  split
  · exact of_timer rfl
  · exact wakeThread t σ

theorem closeThread (t : Tid) (σ : Kernel) : KeepsCallbacks σ (LuojiOs.closeThread t σ) := by
  have hstop := rtTimerStop (.ofThread t) (σ.setStatu t .close)
  have hclose : KeepsCallbacks σ (σ.setStatu t .close) := of_timer rfl
  have hremove := sched (schedOnly_rtScheduleRemoveThread t
    (LuojiOs.rtTimerStop (.ofThread t) (σ.setStatu t .close)).1)
  exact ((hclose.trans hstop).trans hremove).trans (of_timer rfl)

theorem rtThreadSuspend (t : Tid) (s : Statu) (σ : Kernel) :
    KeepsCallbacks σ (LuojiOs.rtThreadSuspend t s σ).1 := by
  unfold LuojiOs.rtThreadSuspend
  split
  · exact of_timer rfl
  · have hremove : KeepsCallbacks σ ((rtScheduleRemoveThread t σ).setStatu t s) :=
      of_timer (schedOnly_rtScheduleRemoveThread t σ).timer
    exact hremove.trans (rtTimerStop _ _)

theorem park (t : Tid) (w : TNode) (k : After) (σ : Kernel) :
    KeepsCallbacks σ (LuojiOs.park t w k σ) := by
  have hsuspend : KeepsCallbacks σ (suspendOn w t (σ.setError t RT_EOK)) :=
    (of_timer rfl : KeepsCallbacks σ (σ.setError t RT_EOK)).trans
      ((rtThreadSuspend t .suspend _).trans (of_timer rfl))
  cases harm : k.arm with
  | none =>
      rw [park_of_not_arm harm]
      exact hsuspend.trans (of_timer rfl)
  | some time =>
      rw [park_of_arm harm]
      have hinit : KeepsCallbacks (suspendOn w t (σ.setError t RT_EOK))
          ((suspendOn w t (σ.setError t RT_EOK)).setInitTick t time) := setTimer rfl
      exact ((hsuspend.trans hinit).trans (rtTimerStart _ _)).trans (of_timer rfl)

theorem put {m : ℕ} {x : Mailbox} {value : BitVec 32} {r : Kernel × Bool}
    (hr : mbPut m x value σ = some r) : KeepsCallbacks σ r.1 := by
  rcases mbPut_cases hr with ⟨-, rfl⟩ | ⟨t, -, -, rfl⟩
  · exact of_timer rfl
  · exact (rtThreadResume t _ : KeepsCallbacks _ _)

theorem take {m : ℕ} {x : Mailbox} {r : Kernel × Bool} (hr : mbTake m x σ = some r) :
    KeepsCallbacks σ r.1 := by
  rcases mbTake_cases hr with ⟨-, rfl⟩ | ⟨t, -, -, rfl⟩
  · exact of_timer rfl
  · exact (wakeThread t _ : KeepsCallbacks _ _)

theorem finish (t : Tid) (o : Obs) (r : Kernel × Bool) :
    KeepsCallbacks r.1 (LuojiOs.finish t o r) := by
  obtain ⟨σ, b⟩ := r
  cases b <;> exact of_timer rfl

theorem turn {k : After} (hT : Turn t k σ σ') : KeepsCallbacks σ σ' := by
  cases hT with
  | sendFull hx hfull => exact of_timer rfl
  | sendPark d hx hfull htime => exact park _ _ _ _
  | send hx hne hput => exact (put hput).trans (finish _ _ _)
  | recvEmpty hx hempty => exact of_timer rfl
  | recvPark d hx hempty htime => exact park _ _ _ _
  | recv hx hne htake => exact (take htake).trans (finish _ _ _)

theorem object (ha : ObjectAct σ₀ e σ σ') : KeepsCallbacks σ σ' := by
  cases ha <;> exact of_timer rfl

theorem join (name : String) (stackSize priority runtick : BitVec 32) (mallocOk stackOk : Bool)
    (σ : Kernel) :
    KeepsCallbacks σ (threadJoinInit name stackSize priority runtick mallocOk stackOk σ).1 := by
  rcases threadJoinInit_joined name stackSize priority runtick mallocOk stackOk σ with
    heq | hjoined
  · rw [heq]
    exact of_timer rfl
  · intro j ops hj
    rw [hjoined.timer] at hj
    by_cases hjt : j = .ofThread σ.nextTid
    · subst hjt
      simp at hj
    · simpa [hjt] using hj

theorem cleanDeadFrom {fuel : ℕ} {pos n : TNode}
    (hs : LuojiOs.cleanDeadFrom fuel pos n σ = some σ') : KeepsCallbacks σ σ' := by
  induction fuel generalizing pos n σ with
  | zero => cases hs
  | succ fuel ih =>
      cases pos with
      | dead =>
          obtain rfl := Option.some.inj hs
          exact of_timer rfl
      | thread t =>
          have hclean : KeepsCallbacks σ (cleanThread t σ) := of_timer rfl
          exact hclean.trans (ih hs)
      | ready p | semWait s | mbRecv m | mbSend m => cases hs

theorem fireCallback (k : TimerId) (ops : List TimerOp) (σ : Kernel) :
    KeepsCallbacks σ (LuojiOs.fireCallback k ops σ) := by
  have hops : KeepsCallbacks σ (ops.foldl runTimerOp
      { σ with timerLinks := σ.timerLinks.remove (.timer k) }) :=
    of_func fun j => timeoutFunc_runTimerOps _ ops j
  have hoff : KeepsCallbacks _ (LuojiOs.fireCallback k ops σ) := setTimer rfl
  exact hops.trans hoff

theorem fireThread (k : TimerId) (t : Tid) (σ : Kernel) :
    KeepsCallbacks σ (LuojiOs.fireThread k t σ) := by
  have hexpire : KeepsCallbacks σ (expireThread t
      { σ with timerLinks := σ.timerLinks.remove (.timer k) }) :=
    of_timer (schedOnly_rtScheduleInsertThread t _).timer
  have hoff : KeepsCallbacks _ (LuojiOs.fireThread k t σ) := setTimer rfl
  exact hexpire.trans hoff

end KeepsCallbacks

/-! ## The timer is left alone -/

namespace Untouched

variable {σ₀ σ σ' : Kernel} {e : Event} {u : ℕ} {k : TimerId}

theorem keeps (h : Untouched k σ) (hkeep : KeepsCallbacks σ σ') : Untouched k σ' := by
  intro j ops hj hfunc
  exact h j ops hj (hkeep j ops hfunc)

theorem rtTimerInit {v : ℕ} {ops : List TimerOp} (h : Untouched (.other u) σ)
    (hv : v = u ∨ (TimerOp.start u ∉ ops ∧ TimerOp.stop u ∉ ops)) (time : BitVec 32)
    (flag : BitVec 8) :
    Untouched (.other u) (LuojiOs.rtTimerInit (.other v) (.callback ops) time flag σ) := by
  intro j ops' hj hfunc w hw
  by_cases hjv : j = .other v
  · subst hjv
    obtain rfl : ops = ops' := by simpa [LuojiOs.rtTimerInit, Kernel.setTimer] using hfunc
    obtain rfl : u = w := by simpa using hw
    rcases hv with rfl | hops
    · exact absurd rfl hj
    · exact hops
  · exact h j ops' hj (by simpa [LuojiOs.rtTimerInit, Kernel.setTimer, hjv] using hfunc) w hw

theorem clock (h : Untouched (.other u) σ) (hg : callbackLeaves u e = true)
    (ha : ClockAct σ₀ e σ σ') : Untouched (.other u) σ' := by
  cases ha with
  | timerInit he =>
      subst he
      exact h.rtTimerInit (of_decide_eq_true hg) _ _
  | timerStart he => exact h.keeps (.rtTimerStart _ _)
  | timerStop he => exact h.keeps (.rtTimerStop _ _)
  | tickIncrease he => exact h.keeps (.of_timer rfl)
  | countDown he hc =>
      unfold countDown
      dsimp only
      split <;> exact h.keeps (.of_timer rfl)
  | callback he hdue hfunc => exact h.keeps (.fireCallback _ _ _)

theorem act (h : Untouched (.other u) σ) (hg : callbackLeaves u e = true) (ha : Act σ₀ e σ σ') :
    Untouched (.other u) σ' := by
  cases ha with
  | clock ha => exact h.clock hg ha
  | object ha => exact h.keeps (.object ha)
  | join he => exact h.keeps (.join _ _ _ _ _ _ _)
  | start he hc hs =>
      obtain ⟨t, p, -, rfl⟩ := threadStart_cases hs
      exact h.keeps (.of_timer (schedOnly_rtScheduleRemoveThread t σ₀).timer)
  | schedule hc hk hs => exact h.keeps (.of_timer (schedOnly_rtSchedule hs).timer)
  | preempt he hs => exact h.keeps (.sched (schedOnly_rtSchedule hs))
  | @suspend t s he hcall ht hs =>
      unfold suspendDirect
      split
      · exact (h.keeps (.rtThreadSuspend t s σ₀)).keeps (.of_timer rfl)
      · exact h.keeps (.rtThreadSuspend t s σ₀)
  | resume he hs => exact h.keeps (.wakeThread _ _)
  | @sleep t tick _ he hc hcall hs =>
      simp only [rtThreadSleep, hc, Option.some.injEq] at hs
      subst hs
      have hinit : KeepsCallbacks σ₀ (σ₀.setInitTick t tick) := .setTimer rfl
      exact ((h.keeps (hinit.trans (.rtThreadSuspend t .sleep _))).keeps
        (.rtTimerStart (.ofThread t) _)).keeps (.of_timer rfl)
  | exit he hc hcall => exact (h.keeps (.closeThread _ _)).keeps (.of_timer rfl)
  | enter hc hcall => exact h.keeps (.of_timer rfl)
  | kill he ht hc => exact h.keeps (.closeThread _ _)
  | @killSelf id t _ he hcall hfind hc hs =>
      have hclose := h.keeps (.closeThread t σ₀)
      exact hclose.keeps (.of_timer (schedOnly_rtSchedule hs).timer)
  | clean he hs => exact h.keeps (.cleanDeadFrom hs)
  | expire he hdue hfunc => exact h.keeps (.fireThread _ _ _)
  | semPark he hc hcall hw => exact h.keeps (.park _ _ _ _)
  | @release s r he hr =>
      obtain ⟨x, -, ⟨-, rfl⟩ | ⟨t, -, -, rfl⟩⟩ := rtSemRelease_cases hr
      · exact h.keeps (.of_timer rfl)
      · exact h.keeps ((.rtThreadResume t _ : KeepsCallbacks _ _))
  | post he hx hne hr => exact h.keeps (.put hr)
  | turn hc hcall hb hk hT => exact h.keeps (.turn hT)
  | @rerunTurn t k w _ he hc hf hk hw herr hb hT =>
      have hrerun : KeepsCallbacks σ₀ (rerun t w σ₀) := .of_timer rfl
      exact h.keeps (hrerun.trans (.turn hT))
  | rerunRet he hc hf hw ho herr => exact h.keeps (.of_timer rfl)
  | @returned t r he hc hf =>
      cases r <;> exact h.keeps (.of_timer rfl)

theorem step (h : Untouched (.other u) σ) (hg : callbackLeaves u e = true)
    (hs : LuojiOs.step σ e = some σ') : Untouched (.other u) σ' :=
  step_preserves (fun _ _ h ha => h.act hg ha) h hs

theorem of_reachable (h : Reachable (fun _ e => callbackLeaves u e = true) σ) :
    Untouched (.other u) σ := by
  refine Runs.Reach.invariant ?_ (fun _ _ _ h hg hs => h.step hg hs) h
  rintro σ ⟨tick, rfl⟩ j ops hj hfunc v hv
  obtain rfl : ops = [] := by
    have : TimeoutFunc.callback [] = .callback ops := hfunc
    simpa using this.symm
  simp

theorem of_startedOnce {flag : BitVec 8} (h : StartedOnce u flag σ) : Untouched (.other u) σ := by
  have hleave : ∀ {e : Event}, leavesTimer u e = true → callbackLeaves u e = true :=
    fun hg => (Bool.and_eq_true_iff.mp hg).1
  have hinit : ∀ σ, JustInitialised u flag σ → Untouched (.other u) σ := by
    rintro σ ⟨σ₀, ops, time, hreach, hs⟩
    exact (of_reachable hreach).step (by simp [callbackLeaves]) hs
  have hstart : ∀ σ, JustStarted u flag σ → Untouched (.other u) σ := by
    rintro σ ⟨σ₀, hreach, hs⟩
    have hrun := Runs.Reach.invariant hinit (fun _ _ _ h hg hs => h.step (hleave hg) hs) hreach
    exact hrun.step rfl hs
  exact Runs.Reach.invariant hstart (fun _ _ _ h hg hs => h.step (hleave hg) hs) h

end Untouched

/-! ## One expiry -/

section Expiry

variable {σ σ' : Kernel} {k : TimerId}

/-- A timer that expires in a walk is off when the walk ends. -/
theorem flag_of_expiresFrom {fuel : ℕ} {pos n : TimerNode} (hu : Untouched k σ)
    (hexp : expiresFrom k fuel pos n σ = true)
    (h : rtTimerCheckFrom fuel pos n σ = some σ') : (σ'.timer k).flag = .noActivated := by
  induction fuel generalizing pos n σ with
  | zero => cases h
  | succ fuel ih =>
      cases pos with
      | head => cases hexp
      | timer j =>
          simp only [rtTimerCheckFrom] at h
          simp only [expiresFrom, Bool.or_eq_true, decide_eq_true_eq] at hexp
          split at h
          · cases h
          · next σ₁ hcheck =>
            have hu' := hu.checkTimer hcheck
            rw [hcheck] at hexp
            rcases hexp with ⟨rfl, hdue⟩ | hrest
            · have hflag := flag_checkTimer_of_due hdue hcheck
              rw [(rtTimerCheckFrom_of_not_due hu' (timerDue_of_off hflag) h).1, hflag]
            · exact ih hu' hrest h

theorem flag_of_expires {u : ℕ} {e : Event} (hu : Untouched (.other u) σ)
    (hexp : expires (.other u) σ e = true) (hs : step σ e = some σ') :
    (σ'.timer (.other u)).flag = .noActivated := by
  cases e with
  | tick fuel =>
      simp only [step] at hs
      split at hs
      · cases hs
      · unfold sysTickHandler at hs
        unfold expires at hexp
        dsimp only at hs hexp
        split at hs
        · next hc =>
          rw [show σ.currentThread = none from hc] at hexp
          cases hexp
        · next c hc =>
          rw [show σ.currentThread = some c from hc] at hexp
          dsimp only at hexp
          have hdown : KeepsCallbacks σ (countDown c (sysTickIncrease σ)).2 := by
            unfold countDown
            dsimp only
            split <;> exact .of_timer rfl
          split at hs
          · next σ₁ heq =>
            rw [heq] at hexp hdown
            obtain ⟨σ₂, hsched, hcheck⟩ := Option.bind_eq_some_iff.mp hs
            have hexp' : expiresInCheck (.other u) fuel σ₂ = true := by
              simpa [hsched] using hexp
            have hu₂ := (hu.keeps hdown).keeps (.sched (schedOnly_rtSchedule hsched))
            exact flag_of_expiresFrom hu₂ hexp' hcheck
          · next σ₁ heq =>
            rw [heq] at hexp hdown
            exact flag_of_expiresFrom (hu.keeps hdown) hexp hs
  | _ => cases hexp

end Expiry

/-- An expiry leaves the timer as its initialisation asked for exactly when that has not
asked for a periodic timer. -/
theorem expirySpec_iff {u : ℕ} {flag : BitVec 8} {σ σ' : Kernel} {e : Event}
    (hrun : StartedOnce u flag σ) (hs : step σ e = some σ')
    (hexp : expires (.other u) σ e = true) :
    ExpirySpec flag (.other u) σ σ' ↔ flag &&& RT_TIMER_FLAG_PERIODIC = 0 := by
  have hoff := flag_of_expires (.of_startedOnce hrun) hexp hs
  unfold ExpirySpec
  constructor
  · intro hspec
    by_contra hperiodic
    rw [if_neg hperiodic] at hspec
    have hon := hspec.2.1
    rw [hoff] at hon
    cases hon
  · intro honce
    rw [if_pos honce]
    exact hoff

/-- `osMain` initialises a timer of one tick, a thread starts it, and two ticks pass: the
states before and after the second one. -/
def firstExpiry (flag : BitVec 8) : Option (Kernel × Kernel) :=
  (step (threadInit 0) (.call (.rtTimerInit 0 [] 1 flag))).bind fun σ =>
    (Runs.runChecked step (fun _ => leavesTimer 0) σ [joinCall 3, .threadStart]).bind fun σ =>
      (step σ (.call (.rtTimerStart 0))).bind fun σ =>
        (Runs.runChecked step (fun _ => leavesTimer 0) σ [.tick 2]).bind fun σ =>
          (step σ (.tick 2)).map fun σ' => (σ, σ')

theorem startedOnce_firstExpiry {flag : BitVec 8} {σ σ' : Kernel}
    (h : firstExpiry flag = some (σ, σ')) :
    StartedOnce 0 flag σ ∧ step σ (.tick 2) = some σ' := by
  obtain ⟨σ₁, hinit, h⟩ := Option.bind_eq_some_iff.mp h
  obtain ⟨σ₂, hjoin, h⟩ := Option.bind_eq_some_iff.mp h
  obtain ⟨σ₃, hstart, h⟩ := Option.bind_eq_some_iff.mp h
  obtain ⟨σ₄, htick, h⟩ := Option.bind_eq_some_iff.mp h
  obtain ⟨σ₅, hlast, heq⟩ := Option.map_eq_some_iff.mp h
  obtain ⟨rfl, rfl⟩ := Prod.mk.inj heq
  have hreach : Reachable (fun _ e => callbackLeaves 0 e = true) (threadInit 0) :=
    .start ⟨0, rfl⟩
  have hinitialised : JustInitialised 0 flag σ₁ := ⟨_, [], 1, hreach, hinit⟩
  have hstarted : JustStarted 0 flag σ₃ :=
    ⟨σ₂, Runs.Reach.of_runChecked (.start hinitialised) hjoin, hstart⟩
  exact ⟨Runs.Reach.of_runChecked (.start hstarted) htick, hlast⟩

/-- A timer initialised without the flag is off after its first expiry. -/
theorem expirySpec_once :
    ∃ σ σ', firstExpiry 0 = some (σ, σ') ∧ ExpirySpec 0 (.other 0) σ σ' := by
  obtain ⟨⟨σ, σ'⟩, hσ, hexp⟩ := Runs.exists_of_any
    (show (firstExpiry 0).any (fun p => expires (.other 0) p.1 (.tick 2)) = true by
      decide)
  obtain ⟨hrun, hs⟩ := startedOnce_firstExpiry hσ
  exact ⟨σ, σ', hσ, (expirySpec_iff hrun hs hexp).mpr (by decide)⟩

/-- A timer initialised as `init_eth` does it is off after its first expiry, too. -/
theorem expirySpec_broken :
    ∃ σ σ', StartedOnce 0 2 σ ∧ step σ (.tick 2) = some σ' ∧
      expires (.other 0) σ (.tick 2) = true ∧ ¬ExpirySpec 2 (.other 0) σ σ' := by
  obtain ⟨⟨σ, σ'⟩, hσ, hexp⟩ := Runs.exists_of_any
    (show (firstExpiry 2).any (fun p => expires (.other 0) p.1 (.tick 2) ∧
      (p.2.timer (.other 0)).flag = .noActivated) = true by decide)
  obtain ⟨hexp, hoff⟩ := of_decide_eq_true hexp
  obtain ⟨hrun, hs⟩ := startedOnce_firstExpiry hσ
  refine ⟨σ, σ', hrun, hs, hexp, fun hspec => ?_⟩
  have hon : (σ'.timer (.other 0)).flag = .activated := by
    unfold ExpirySpec at hspec
    rw [if_neg (by decide)] at hspec
    exact hspec.2.1
  rw [hoff] at hon
  cases hon

end LuojiOs
