import LuojiOs.Scheduler.Known
import LuojiOs.Scheduler.ReadySet
import LuojiOs.Timer.List

/-!
# Runs that keep the timer list

Three ways lead to a second insertion of a timer or to a flag that lies: a call of
`rt_timer_start` or `rt_timer_init` for an activated timer, a blocking call whose
`rt_thread_suspend` has failed with the timer of the thread still running, and a
timeout callback that starts its own timer, whose flag `rt_timer_check` clears
afterwards.  `timerGuard` excludes the three, and nothing else.
-/

namespace LuojiOs

open CircularList

/-! ## The condition on the events -/

/-- A call with this rest waits and starts the timer of its thread. -/
def After.arms (σ : Kernel) (k : After) : Bool :=
  k.waits σ && k.arm.isSome

/-- The event starts the timer of the current thread. -/
def arms (σ : Kernel) : Event → Bool
  | .call (.rtSemTake s time) => (After.semTake s time).arms σ
  | .call (.rtMbSendWait m value timeout) =>
    (After.mbSend m value timeout timeout 0).arms σ
  | .call (.rtMbRecv m timeout) => (After.mbRecv m timeout timeout 0).arms σ
  | .goOn =>
    match σ.currentThread with
    | none => false
    | some t =>
      match σ.frame t with
      | .after k => k.isLoop ∧ σ.error t = RT_EOK ∧ (k.again σ.systemTick).arms σ
      | _ => false
  | e => sleeps σ e

/-- The callback of the timer `k` starts only timers that are off, and not `k`. -/
def opsOk (k : TimerId) : List TimerOp → Kernel → Bool
  | [], _ => true
  | .start u :: ops, σ =>
    (.other u ≠ k ∧ (σ.timer (.other u)).flag = .noActivated) &&
      opsOk k ops (runTimerOp σ (.start u))
  | .stop u :: ops, σ => opsOk k ops (runTimerOp σ (.stop u))

/-- The callback that `rt_timer_check` runs for the timer `k`, if it runs one. -/
def timerOk (k : TimerId) (σ : Kernel) : Bool :=
  match timerDue k σ, (σ.timer k).timeoutFunc with
  | true, .callback ops =>
    opsOk k ops { σ with timerLinks := σ.timerLinks.remove (.timer k) }
  | _, _ => true

/-- The callbacks of one `rt_timer_check`, along its walk. -/
def checkOk : ℕ → TimerNode → TimerNode → Kernel → Bool
  | 0, _, _, _ => true
  | _ + 1, .head, _, _ => true
  | fuel + 1, .timer k, n, σ =>
    timerOk k σ &&
      match checkTimer k σ with
      | none => true
      | some σ => checkOk fuel n (σ.timerLinks.next n) σ

def timerCheckOk (fuel : ℕ) (σ : Kernel) : Bool :=
  checkOk fuel (σ.timerLinks.next .head) (σ.timerLinks.next (σ.timerLinks.next .head)) σ

/-- The callbacks of one tick. -/
def tickOk (fuel : ℕ) (σ : Kernel) : Bool :=
  match σ.currentThread with
  | none => true
  | some c =>
    match countDown c (sysTickIncrease σ) with
    | (true, σ) => (rtSchedule σ).all (timerCheckOk fuel)
    | (false, σ) => timerCheckOk fuel σ

/-- Timers are started and initialised only when they are off, and a thread starts its
own timer only after it has been stopped. -/
def timerGuard (σ : Kernel) (e : Event) : Bool :=
  (!arms σ e || timerStops σ) &&
    match e with
    | .call (.rtTimerStart u) | .call (.rtTimerInit u ..) =>
      (σ.timer (.other u)).flag = .noActivated
    | .tick fuel => tickOk fuel σ
    | _ => true

theorem stopped_of_timerGuard {σ : Kernel} {e : Event} {t : Tid} (hg : timerGuard σ e = true)
    (ha : arms σ e = true) (hc : σ.currentThread = some t) :
    (σ.timer (.ofThread t)).flag = .noActivated ∨ σ.statu t = .ready ∨
      σ.statu t = .running := by
  have hstops : timerStops σ = true := by
    have := (Bool.and_eq_true_iff.mp hg).1
    simpa [ha] using this
  simpa [timerStops, hc] using hstops

/-! ## The acts of an event that is no tick -/

namespace Listed

variable {σ₀ σ σ' : Kernel} {e : Event} {t : Tid} {k : TimerId}

theorem put (h : Listed σ) {m : ℕ} {x : Mailbox} {value : BitVec 32} {r : Kernel × Bool}
    (hr : mbPut m x value σ = some r) : Listed r.1 := by
  rcases mbPut_cases hr with ⟨-, rfl⟩ | ⟨u, -, -, rfl⟩
  · exact (h.setMb m _).emit _
  · exact (((h.setMb m _).emit _).emit _).rtThreadResume u

theorem take (h : Listed σ) {m : ℕ} {x : Mailbox} {r : Kernel × Bool}
    (hr : mbTake m x σ = some r) : Listed r.1 := by
  rcases mbTake_cases hr with ⟨-, rfl⟩ | ⟨u, -, -, rfl⟩
  · exact (h.setMb m _).emit _
  · exact (((h.setMb m _).emit _).emit _).wakeThread u

theorem finish {r : Kernel × Bool} (h : Listed r.1) (t : Tid) (o : Obs) :
    Listed (finish t o r) := by
  obtain ⟨σ, b⟩ := r
  cases b with
  | false => exact h.emit o
  | true => exact h.setFrame t _

theorem turn (h : Listed σ) {a : After}
    (hstop : a.arms σ = true → (σ.timer (.ofThread t)).flag = .noActivated ∨
      σ.statu t = .ready ∨ σ.statu t = .running)
    (hT : Turn t a σ σ') : Listed σ' := by
  cases hT with
  | sendFull hx hfull => exact (h.setError t _).emit _
  | @sendPark m x value orig timeout tickDelta d _ hx hfull htime =>
      have hwaits : (After.mbSend m value orig timeout tickDelta).waits σ = true := by
        simpa [After.waits, hx, hfull] using htime
      exact h.park fun harm => hstop (Bool.and_eq_true_iff.mpr ⟨hwaits, harm⟩)
  | send hx hne hput => exact (h.put hput).finish t _
  | recvEmpty hx hempty => exact ((h.setError t _).setError t _).emit _
  | @recvPark m x orig timeout tickDelta d _ hx hempty htime =>
      have hwaits : (After.mbRecv m orig timeout tickDelta).waits σ = true := by
        simpa [After.waits, hx, hempty] using htime
      exact h.park fun harm => hstop (Bool.and_eq_true_iff.mpr ⟨hwaits, harm⟩)
  | recv hx hne htake => exact (h.take htake).finish t _

theorem object (h : Listed σ) (ha : ObjectAct σ₀ e σ σ') : Listed σ' := by
  cases ha with
  | semInit he hs => exact Listed.emit ((h.tlinks _).setSem _ _) _
  | mbInit he hm => exact (h.tlinks _).setMb _ _
  | semTaken he hx hpos => exact ((h.setSem _ _).emit _).emit _
  | semRefused he hx hzero => exact h.emit _
  | report ho => exact h.emit _

theorem clock (h : Listed σ) (hg : timerGuard σ₀ e = true) (hne : ∀ fuel, e ≠ .tick fuel)
    (ha : ClockAct σ₀ e σ σ') : Listed σ' := by
  cases ha with
  | timerInit he =>
      subst he
      exact h.rtTimerInit (of_decide_eq_true (Bool.and_eq_true_iff.mp hg).2) _ _ _
  | timerStart he =>
      subst he
      exact h.rtTimerStart (of_decide_eq_true (Bool.and_eq_true_iff.mp hg).2)
  | timerStop he => exact h.rtTimerStop _
  | tickIncrease he => exact absurd he (hne _)
  | countDown he hc => exact absurd he (hne _)
  | callback he hdue hfunc => exact absurd he (hne _)

/-- The node of the timer of a thread that is created is on no list. -/
theorem join (h : Listed σ) (hn : Known σ) (name : String)
    (stackSize priority runtick : BitVec 32) (mallocOk stackOk : Bool) :
    Listed (threadJoinInit name stackSize priority runtick mallocOk stackOk σ).1 := by
  rcases threadJoinInit_joined name stackSize priority runtick mallocOk stackOk σ with
    heq | hj
  · rw [heq]
    exact h
  · have hoff : (σ.timer (.ofThread σ.nextTid)).flag = .noActivated := by
      cases hf : (σ.timer (.ofThread σ.nextTid)).flag with
      | noActivated => rfl
      | activated => exact absurd (hn.timer _ hf) (Nat.lt_irrefl _)
    have hinit := h.rtTimerInit hoff (.rtThreadTimeout σ.nextTid) 0 0
    refine hinit.congr hj.timerLinks fun k => ?_
    rw [hj.timer]
    rfl

theorem cleanDeadFrom (h : Listed σ) {fuel : ℕ} {pos n : TNode}
    (hs : LuojiOs.cleanDeadFrom fuel pos n σ = some σ') : Listed σ' := by
  induction fuel generalizing pos n σ with
  | zero => cases hs
  | succ fuel ih =>
      cases pos with
      | dead =>
          obtain rfl := Option.some.inj hs
          exact h
      | thread t => exact ih (σ := cleanThread t σ) h hs
      | ready p | semWait s | mbRecv m | mbSend m => cases hs

theorem act (h : Listed σ) (hn : Known σ) (hg : timerGuard σ₀ e = true)
    (hne : ∀ fuel, e ≠ .tick fuel) (ha : Act σ₀ e σ σ') : Listed σ' := by
  cases ha with
  | clock ha => exact h.clock hg hne ha
  | object ha => exact h.object ha
  | join he => exact h.join hn _ _ _ _ _ _
  | start he hc hs =>
      obtain ⟨t, p, -, rfl⟩ := threadStart_cases hs
      have hrem := (h.sched (schedOnly_rtScheduleRemoveThread t σ₀)).setStatu t .running
      exact hrem
  | schedule hc hk hs => exact (h.setFrame _ _).sched (schedOnly_rtSchedule hs)
  | preempt he hs => exact h.sched (schedOnly_rtSchedule hs)
  | @suspend t s he hcall ht hs =>
      unfold suspendDirect
      split
      · exact (h.rtThreadSuspend t s).setFrame _ _
      · exact h.rtThreadSuspend t s
  | resume he hs => exact h.wakeThread _
  | @sleep t tick _ he hc hcall hs =>
      simp only [rtThreadSleep, hc, Option.some.injEq] at hs
      subst hs
      have harms : arms σ₀ e = true := by
        unfold sleeps at he
        split at he
        · rfl
        · exact he
        · cases he
      have hstop := stopped_of_timerGuard hg harms hc
      refine Listed.setFrame (((h.setInitTick t tick).rtThreadSuspend t .sleep).rtTimerStart ?_) t _
      refine flag_suspended ?_ .sleep
      simpa [Kernel.setInitTick, Kernel.setTimer] using hstop
  | exit he hc hcall => exact (h.closeThread _).setFrame _ _
  | enter hc hcall => exact h.setFrame _ _
  | kill he ht hc => exact h.closeThread _
  | killSelf he hcall hfind hc hs =>
      exact ((h.closeThread _).setFrame _ _).sched (schedOnly_rtSchedule hs)
  | clean he hs => exact h.cleanDeadFrom hs
  | expire he hdue hfunc => exact absurd he (hne _)
  | @semPark s time t he hc hcall hw =>
      refine h.park fun harm => stopped_of_timerGuard hg ?_ hc
      subst he
      simp [arms, After.arms, hw, harm]
  | release he hr =>
      obtain ⟨x, -, ⟨-, rfl⟩ | ⟨u, -, -, rfl⟩⟩ := rtSemRelease_cases hr
      · exact (h.setSem _ _).emit _
      · exact ((h.emit _).emit _).rtThreadResume u
  | post he hx hne hr => exact h.put hr
  | @turn t k _ hc hcall hb hk hT =>
      refine h.turn (fun harms => stopped_of_timerGuard hg ?_ hc) hT
      rcases hk with ⟨m, value, timeout, rfl, rfl⟩ | ⟨m, timeout, rfl, rfl⟩ <;> exact harms
  | @rerunTurn t k w _ he hc hf hk hw herr hb hT =>
      have hrerun : Listed (rerun t w σ₀) := (h.emit _).setFrame t .run
      refine hrerun.turn (fun harms => ?_) hT
      have harms' : (k.again σ₀.systemTick).arms σ₀ = true := by
        cases k <;> exact harms
      have harms₀ : arms σ₀ e = true := by
        subst he
        simp [arms, hc, hf, hk, herr, harms']
      have hstop := stopped_of_timerGuard hg harms₀ hc
      exact hstop
  | rerunRet he hc hf hw ho herr => exact ((h.emit _).setFrame _ _).emit _
  | @returned t r he hc hf =>
      cases r with
      | none => exact h.setFrame t .run
      | some o => exact (h.setFrame t .run).emit o

/-! ## The tick -/

/-- While the callback of `k` runs, `k` is off the list with its flag still set. -/
theorem runTimerOps {ops : List TimerOp} (hok : opsOk k ops σ = true)
    (h : OnList σ.timerLinks fun j => j ≠ k ∧ (σ.timer j).flag = .activated) :
    OnList (ops.foldl runTimerOp σ).timerLinks fun j =>
      j ≠ k ∧ ((ops.foldl runTimerOp σ).timer j).flag = .activated := by
  induction ops generalizing σ with
  | nil => exact h
  | cons op ops ih =>
      cases op with
      | start u =>
          obtain ⟨hstart, hrest⟩ := Bool.and_eq_true_iff.mp hok
          obtain ⟨huk, hoff⟩ := of_decide_eq_true hstart
          refine ih hrest (OnList.congr (OnList.insert h (k := .other u) (by simp [hoff])) fun j => ?_)
          by_cases hj : j = .other u
          · subst hj
            simp [runTimerOp, LuojiOs.rtTimerStart, Kernel.setTimer, huk]
          · simp [runTimerOp, LuojiOs.rtTimerStart, Kernel.setTimer, hj]
      | stop u =>
          refine ih hok ?_
          change OnList (LuojiOs.rtTimerStop (.other u) σ).1.timerLinks fun j =>
            j ≠ k ∧ ((LuojiOs.rtTimerStop (.other u) σ).1.timer j).flag = .activated
          unfold LuojiOs.rtTimerStop
          split
          · exact h
          · refine OnList.congr (OnList.remove h (.other u)) fun j => ?_
            by_cases hj : j = .other u
            · subst hj
              simp [Kernel.setTimer]
            · simp [Kernel.setTimer, hj]

theorem checkTimer (h : Listed σ) (hok : timerOk k σ = true)
    (hs : LuojiOs.checkTimer k σ = some σ') : Listed σ' := by
  unfold LuojiOs.checkTimer at hs
  split at hs
  · next hdue =>
    have hrem := OnList.remove h k
    dsimp only at hs
    split at hs
    · cases hs
    · next σ₁ hrun =>
      obtain rfl := Option.some.inj hs
      cases hfunc : (σ.timer k).timeoutFunc with
      | callback ops =>
          rw [hfunc] at hrun
          obtain rfl := Option.some.inj hrun
          refine off_of_remove (runTimerOps ?_ hrem)
          simpa [timerOk, hdue, hfunc] using hok
      | rtThreadTimeout t =>
          rw [hfunc] at hrun
          have hins := schedOnly_rtScheduleInsertThread t (unlinkThread t (Kernel.setError t
            (-RT_ETIMEOUT) { σ with timerLinks := σ.timerLinks.remove (.timer k) }))
          have hsched := schedOnly_rtSchedule hrun
          refine off_of_remove ?_
          rw [hsched.timerLinks, hsched.timer]
          change OnList (rtScheduleInsertThread t _).timerLinks fun j =>
            j ≠ k ∧ ((rtScheduleInsertThread t _).timer j).flag = .activated
          rw [hins.timerLinks, hins.timer]
          exact hrem
  · obtain rfl := Option.some.inj hs
    exact h

/-- The walk of `rt_timer_check`, whatever entry it has reached. -/
theorem rtTimerCheckFrom {fuel : ℕ} {pos n : TimerNode} (h : Listed σ)
    (hok : checkOk fuel pos n σ = true)
    (hs : LuojiOs.rtTimerCheckFrom fuel pos n σ = some σ') : Listed σ' := by
  induction fuel generalizing pos n σ with
  | zero => cases hs
  | succ fuel ih =>
      cases pos with
      | head =>
          obtain rfl := Option.some.inj hs
          exact h
      | timer k =>
          simp only [LuojiOs.rtTimerCheckFrom] at hs
          obtain ⟨htimer, hrest⟩ := Bool.and_eq_true_iff.mp hok
          split at hs
          · cases hs
          · next σ₁ hcheck =>
            rw [hcheck] at hrest
            exact ih (h.checkTimer htimer hcheck) hrest hs

theorem sysTickHandler {fuel : ℕ} (h : Listed σ) (hok : tickOk fuel σ = true)
    (hs : LuojiOs.sysTickHandler fuel σ = some σ') : Listed σ' := by
  have hinc : Listed (sysTickIncrease σ) := h
  have hdown : ∀ c, Listed (countDown c (sysTickIncrease σ)).2 := by
    intro c
    unfold countDown
    dsimp only
    split <;> exact hinc
  unfold LuojiOs.sysTickHandler at hs
  unfold tickOk at hok
  dsimp only at hs
  split at hs
  · obtain rfl := Option.some.inj hs
    exact hinc
  · next c hc =>
    rw [show σ.currentThread = some c from hc] at hok
    have hc' := hdown c
    dsimp only at hok
    split at hs
    · next σ₁ heq =>
      rw [heq] at hok hc'
      obtain ⟨σ₂, hsched, hcheck⟩ := Option.bind_eq_some_iff.mp hs
      rw [show (true, σ₁).2 = σ₁ from rfl] at hc'
      have hok' : timerCheckOk fuel σ₂ = true := by simpa [hsched] using hok
      exact (hc'.sched (schedOnly_rtSchedule hsched)).rtTimerCheckFrom hok' hcheck
    · next σ₁ heq =>
      rw [heq] at hok hc'
      exact Listed.rtTimerCheckFrom hc' hok hs

theorem step (h : Listed σ) (hn : Known σ) (hg : timerGuard σ e = true)
    (hs : LuojiOs.step σ e = some σ') : Listed σ' := by
  by_cases he : ∃ fuel, e = .tick fuel
  · obtain ⟨fuel, rfl⟩ := he
    simp only [LuojiOs.step] at hs
    split at hs
    · cases hs
    · exact h.sysTickHandler (Bool.and_eq_true_iff.mp hg).2 hs
  · have hne : ∀ fuel, e ≠ .tick fuel := fun fuel hf => he ⟨fuel, hf⟩
    have hboth : Known σ' ∧ Listed σ' :=
      step_preserves (P := fun σ => Known σ ∧ Listed σ)
        (fun _ _ h ha => ⟨h.1.act ha, h.2.act h.1 hg hne ha⟩) ⟨hn, h⟩ hs
    exact hboth.2

end Listed

/-! ## The runs -/

theorem listed_threadInit (tick : BitVec 32) : Listed (threadInit tick) :=
  ⟨Rings.empty, Rings.represents_empty, fun n h hn => by simp [Rings.empty] at hn,
    fun k => by simp [Rings.empty, threadInit]⟩

theorem timerList_of_reachable {σ : Kernel}
    (h : Reachable (fun σ e => timerGuard σ e = true) σ) : TimerList σ := by
  have hboth : Known σ ∧ Listed σ := by
    refine Runs.Reach.invariant (P := fun σ => Known σ ∧ Listed σ) ?_ ?_ h
    · rintro σ ⟨tick, rfl⟩
      exact ⟨known_threadInit tick, listed_threadInit tick⟩
    · rintro σ e σ' ⟨hn, hl⟩ hg hs
      exact ⟨step_preserves (fun _ _ h ha => h.act ha) hn hs, hl.step hn hg hs⟩
  exact hboth.2.timerList

/-- The callback of one timer starts another one, and a thread sleeps meanwhile. -/
def callbackRun : List Event :=
  [.call (.rtTimerInit 0 [.start 1] 1 0), .call (.rtTimerInit 1 [] 7 0), joinCall 3, joinCall 5,
    .threadStart, .call (.rtTimerStart 0), .call (.rtThreadSleep 1), .goOn, .tick 5, .tick 5]

theorem timerList_callbackRun :
    ∃ σ, checkedRun timerGuard 0 callbackRun = some σ ∧
      (σ.timer (.other 1)).flag = .activated ∧ TimerList σ := by
  obtain ⟨σ, hσ, hflag⟩ := Runs.exists_of_any
    (show (checkedRun timerGuard 0 callbackRun).any (fun σ =>
      (σ.timer (.other 1)).flag = .activated) = true by decide)
  exact ⟨σ, hσ, of_decide_eq_true hflag, timerList_of_reachable (reachable_of_checkedRun hσ)⟩

/-- The first timer on the list is not activated, or is followed by itself. -/
def brokenFirst (σ : Kernel) : Bool :=
  match σ.timerLinks.next .head with
  | .head => false
  | .timer k => (σ.timer k).flag = .noActivated ∨ σ.timerLinks.next (.timer k) = .timer k

theorem TimerList.not_brokenFirst {σ : Kernel} (h : TimerList σ) : brokenFirst σ = false := by
  obtain ⟨ks, hpath, hnd, hmem⟩ := h
  cases ks with
  | nil =>
      have hnext : σ.timerLinks.next .head = .head := hpath.1
      simp [brokenFirst, hnext]
  | cons k ks =>
      have hnext : σ.timerLinks.next .head = .timer k := hpath.1.1
      have hflag := (hmem k).mp (by simp)
      have hne : σ.timerLinks.next (.timer k) ≠ .timer k := by
        cases ks with
        | nil =>
            have : σ.timerLinks.next (.timer k) = .head := hpath.2.1
            simp [this]
        | cons j ks =>
            have : σ.timerLinks.next (.timer k) = .timer j := hpath.2.1.1
            rw [this]
            rintro ⟨rfl⟩
            simp at hnd
      simp [brokenFirst, hnext, hflag, hne]

/-- A timer whose callback starts it again. -/
def restartRun : List Event :=
  [.call (.rtTimerInit 0 [.start 0] 1 0), joinCall 3, .threadStart, .call (.rtTimerStart 0),
    .tick 2, .tick 2]

/-- The only thread sleeps twice: it is not put off by the first call. -/
def sleepTwiceRun : List Event :=
  [joinCall 3, .threadStart, .call (.rtThreadSleep 5), .goOn, .goOn, .call (.rtThreadSleep 5)]

def startTwiceRun : List Event :=
  [.call (.rtTimerInit 0 [] 1 0), .call (.rtTimerStart 0), .call (.rtTimerStart 0)]

theorem not_timerList_of_brokenFirst {es : List Event}
    (h : (runFrom 0 es).any brokenFirst = true) :
    ∃ σ, runFrom 0 es = some σ ∧ ¬TimerList σ := by
  obtain ⟨σ, hσ, hbad⟩ := Runs.exists_of_any h
  refine ⟨σ, hσ, fun hlist => ?_⟩
  simp [hlist.not_brokenFirst] at hbad

theorem timerList_broken :
    (∃ σ, runFrom 0 restartRun = some σ ∧ ¬TimerList σ) ∧
    (∃ σ, runFrom 0 sleepTwiceRun = some σ ∧ ¬TimerList σ) ∧
    (∃ σ, runFrom 0 startTwiceRun = some σ ∧ ¬TimerList σ) :=
  ⟨not_timerList_of_brokenFirst (by decide),
    not_timerList_of_brokenFirst (by decide),
    not_timerList_of_brokenFirst (by decide)⟩

end LuojiOs
