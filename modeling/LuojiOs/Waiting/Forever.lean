import LuojiOs.Scheduler.Still
import LuojiOs.Scheduler.ReadySet

/-!
# Waiting forever

`rt_sem_take` and `rt_mb_send_wait` take their timeout as an `int` and arm no timer
for `RT_WAITING_FOREVER`; `rt_mb_recv` takes it as an `unsigned int` and arms one that
is due at the next tick, unless the counter was 0.  So a wait forever times out in a run only if a
receiver has to wait forever, or if a thread waits forever while its timer still runs
from an earlier wait, which `rt_thread_suspend` stops unless it refuses its work.
-/

namespace LuojiOs

open CircularList

/-- The return of `-RT_ETIMEOUT` by a call made with `RT_WAITING_FOREVER`. -/
def Obs.lateForever : Obs → Bool
  | .semTakeRet _ _ time r | .mbSendRet _ _ time r | .mbRecvRet _ _ time r =>
    time = RT_WAITING_FOREVER ∧ r = -RT_ETIMEOUT
  | _ => false

/-- The call was made with `RT_WAITING_FOREVER`. -/
def After.forever : After → Bool
  | .ret _ => false
  | .semTake _ time => time = RT_WAITING_FOREVER
  | .mbSend _ _ orig _ _ => orig = RT_WAITING_FOREVER
  | .mbRecv _ orig _ _ => orig = RT_WAITING_FOREVER

def Frame.forever : Frame → Bool
  | .schedule k | .after k => k.forever
  | _ => false

/-- A sender keeps its timeout, no receiver waits forever, and no late report is held
back. -/
def After.Sound : After → Prop
  | .ret r => ∀ o, r = some o → o.lateForever = false
  | .semTake .. => True
  | .mbSend _ _ orig timeout _ => orig = RT_WAITING_FOREVER → timeout = RT_WAITING_FOREVER
  | .mbRecv _ orig _ _ => orig ≠ RT_WAITING_FOREVER

def Frame.Sound : Frame → Prop
  | .schedule k | .after k => k.Sound
  | _ => True

/-- No receiver has to wait forever, and a sender or a taker waits forever only with
its timer stopped. -/
def foreverGuard (σ : Kernel) : Event → Bool
  | .call (.rtMbRecv m timeout) =>
    timeout ≠ RT_WAITING_FOREVER || !(After.mbRecv m timeout timeout 0).waits σ
  | .call (.rtSemTake s time) =>
    time ≠ RT_WAITING_FOREVER || !(After.semTake s time).waits σ || timerStops σ
  | .call (.rtMbSendWait m value timeout) =>
    timeout ≠ RT_WAITING_FOREVER || !(After.mbSend m value timeout timeout 0).waits σ ||
      timerStops σ
  | _ => true

structure ForeverInv (σ : Kernel) : Prop where
  /-- a thread that waits forever has a clean error code and no running timer -/
  clean : ∀ t, (σ.frame t).forever = true →
    σ.error t = RT_EOK ∧ (σ.timer (.ofThread t)).flag = .noActivated
  sound : ∀ t, (σ.frame t).Sound
  func : ∀ k t, (σ.timer k).timeoutFunc = .rtThreadTimeout t → k = .ofThread t
  trace : ∀ o ∈ σ.trace, o.lateForever = false

theorem After.arm_of_forever {k : After} (hs : k.Sound) (hk : k.forever = true) :
    k.arm = none := by
  cases k with
  | ret r => rfl
  | semTake s time =>
      obtain rfl : time = RT_WAITING_FOREVER := by simpa [After.forever] using hk
      rfl
  | mbSend m value orig timeout tickDelta =>
      have horig : orig = RT_WAITING_FOREVER := by simpa [After.forever] using hk
      obtain rfl := hs horig
      rfl
  | mbRecv m orig timeout tickDelta =>
      exact absurd (by simpa [After.forever] using hk) hs

theorem After.sound_again {k : After} (h : k.Sound) (now : BitVec 32) : (k.again now).Sound := by
  cases k with
  | mbSend m value orig timeout tickDelta =>
      intro horig
      obtain rfl := h horig
      rfl
  | ret r | semTake s time | mbRecv m orig timeout tickDelta => exact h

theorem forever_of_canCall {σ : Kernel} {t : Tid} (hcall : canCall σ = true)
    (hc : σ.currentThread = some t) : (σ.frame t).forever = false := by
  simp only [canCall, hc, decide_eq_true_eq] at hcall
  rcases hcall with hf | hf <;> rw [hf] <;> rfl

namespace ForeverInv

variable {σ₀ σ σ' : Kernel} {e : Event} {t : Tid}

theorem still (h : ForeverInv σ) (hs : Still σ σ') : ForeverInv σ' where
  clean t ht := by
    rw [hs.frame] at ht
    rw [hs.error]
    obtain ⟨herr, hflag⟩ := h.clean t ht
    exact ⟨herr, noActivated_of_imp (hs.flag t) hflag⟩
  sound := by
    rw [hs.frame]
    exact h.sound
  func k t hk := h.func k t (hs.func k t hk)
  trace := by
    rw [hs.trace]
    exact h.trace

theorem emit (h : ForeverInv σ) {o : Obs} (ho : o.lateForever = false) :
    ForeverInv (σ.emit o) where
  clean := h.clean
  sound := h.sound
  func := h.func
  trace o' ho' := by
    rcases List.mem_cons.mp ho' with rfl | ho'
    · exact ho
    · exact h.trace o' ho'

theorem setSem (h : ForeverInv σ) (s : ℕ) (x : Sem) : ForeverInv (σ.setSem s x) :=
  ⟨h.clean, h.sound, h.func, h.trace⟩

theorem setMb (h : ForeverInv σ) (m : ℕ) (x : Mailbox) : ForeverInv (σ.setMb m x) :=
  ⟨h.clean, h.sound, h.func, h.trace⟩

theorem setFrame (h : ForeverInv σ) {f : Frame} (hs : f.Sound)
    (hf : f.forever = true → σ.error t = RT_EOK ∧ (σ.timer (.ofThread t)).flag = .noActivated) :
    ForeverInv (σ.setFrame t f) where
  clean u hu := by
    by_cases hut : u = t
    · subst hut
      exact hf (by simpa [Kernel.setFrame] using hu)
    · exact h.clean u (by simpa [Kernel.setFrame, hut] using hu)
  sound u := by
    by_cases hut : u = t
    · subst hut
      simpa [Kernel.setFrame] using hs
    · simpa [Kernel.setFrame, hut] using h.sound u
  func := h.func
  trace := h.trace

theorem run (h : ForeverInv σ) (t : Tid) : ForeverInv (σ.setFrame t .run) :=
  h.setFrame trivial fun hf => by cases hf

theorem enter (h : ForeverInv σ) {r : Option Obs} (hr : ∀ o, r = some o → o.lateForever = false) :
    ForeverInv (σ.setFrame t (.schedule (.ret r))) :=
  h.setFrame hr fun hf => by cases hf

/-- The error code of a thread that does not wait forever. -/
theorem setError (h : ForeverInv σ) (hf : (σ.frame t).forever = false) (r : ℤ) :
    ForeverInv (σ.setError t r) where
  clean u hu := by
    have hut : u ≠ t := by
      rintro rfl
      have : (σ.frame u).forever = true := hu
      simp [hf] at this
    obtain ⟨herr, hflag⟩ := h.clean u hu
    exact ⟨by simpa [Kernel.setError, hut] using herr, hflag⟩
  sound := h.sound
  func := h.func
  trace := h.trace

/-- A thread that does not wait forever sets and starts its timer. -/
theorem arm (h : ForeverInv σ) (hf : (σ.frame t).forever = false) {x : Timer}
    (hx : x.timeoutFunc = (σ.timer (.ofThread t)).timeoutFunc) :
    ForeverInv (σ.setTimer (.ofThread t) x) where
  clean u hu := by
    have hut : u ≠ t := by
      rintro rfl
      have : (σ.frame u).forever = true := hu
      simp [hf] at this
    simpa [Kernel.setTimer, hut] using h.clean u hu
  sound := h.sound
  func k u hk := by
    by_cases hkt : k = .ofThread t
    · subst hkt
      refine h.func _ u ?_
      rw [← hx]
      simpa [Kernel.setTimer] using hk
    · exact h.func k u (by simpa [Kernel.setTimer, hkt] using hk)
  trace := h.trace

theorem rtTimerStart (h : ForeverInv σ) (hf : (σ.frame t).forever = false) :
    ForeverInv (LuojiOs.rtTimerStart (.ofThread t) σ) := by
  refine ForeverInv.still (h.arm hf ?_) (still_timerLinks _ _)
  rfl

theorem park (h : ForeverInv σ) {w : TNode} {k : After} (hf : (σ.frame t).forever = false)
    (hk : k.Sound)
    (hstop : k.forever = true → (σ.timer (.ofThread t)).flag = .noActivated ∨
      σ.statu t = .ready ∨ σ.statu t = .running) : ForeverInv (park t w k σ) := by
  have herr : ForeverInv (σ.setError t RT_EOK) := h.setError hf RT_EOK
  have hstill : Still (σ.setError t RT_EOK)
      { (rtThreadSuspend t .suspend (σ.setError t RT_EOK)).1 with
        tlinks := (rtThreadSuspend t .suspend (σ.setError t RT_EOK)).1.tlinks.insertBefore w
          (.thread t) } :=
    (still_rtThreadSuspend t .suspend _).trans (still_tlinks _ _)
  have hsus : ForeverInv (suspendOn w t (σ.setError t RT_EOK)) :=
    ForeverInv.emit (herr.still hstill) rfl
  have hframe : ((suspendOn w t (σ.setError t RT_EOK)).frame t).forever = false := by
    have : (suspendOn w t (σ.setError t RT_EOK)).frame = σ.frame := hstill.frame
    rw [this]
    exact hf
  cases harm : k.arm with
  | some time =>
      rw [park_of_arm harm]
      have hset : ForeverInv ((suspendOn w t (σ.setError t RT_EOK)).setInitTick t time) :=
        hsus.arm hframe rfl
      refine (hset.rtTimerStart hframe).setFrame hk fun hfor => ?_
      simp [After.arm_of_forever hk hfor] at harm
  | none =>
      rw [park_of_not_arm harm]
      refine hsus.setFrame hk fun hfor =>
        ⟨?_, flag_suspended (σ := σ.setError t RT_EOK) (hstop hfor) .suspend⟩
      have : (suspendOn w t (σ.setError t RT_EOK)).error = (σ.setError t RT_EOK).error :=
        hstill.error
      rw [this]
      simp [Kernel.setError]

/-! ## Every act keeps the law -/

theorem put (h : ForeverInv σ) {m : ℕ} {x : Mailbox} {value : BitVec 32} {r : Kernel × Bool}
    (hr : mbPut m x value σ = some r) : ForeverInv r.1 := by
  rcases mbPut_cases hr with ⟨-, rfl⟩ | ⟨u, -, -, rfl⟩
  · exact (h.setMb m _).emit rfl
  · exact (((h.setMb m _).emit rfl).emit rfl).still (still_rtThreadResume u _)

theorem take (h : ForeverInv σ) {m : ℕ} {x : Mailbox} {r : Kernel × Bool}
    (hr : mbTake m x σ = some r) : ForeverInv r.1 := by
  rcases mbTake_cases hr with ⟨-, rfl⟩ | ⟨u, -, -, rfl⟩
  · exact (h.setMb m _).emit rfl
  · exact (((h.setMb m _).emit rfl).emit rfl).still (still_wakeThread u _)

theorem finish {r : Kernel × Bool} (h : ForeverInv r.1) {o : Obs} (ho : o.lateForever = false) :
    ForeverInv (finish t o r) := by
  obtain ⟨σ, b⟩ := r
  cases b with
  | false => exact h.emit ho
  | true =>
      refine h.enter fun o' ho' => ?_
      cases ho'
      exact ho

/-- One test of a mailbox loop.  A receiver may be called with `RT_WAITING_FOREVER` if
it does not have to wait. -/
theorem turn (h : ForeverInv σ) {k : After} (hf : (σ.frame t).forever = false)
    (hk : k.Sound ∨ k.waits σ = false ∧ ∃ m d, k = .mbRecv m RT_WAITING_FOREVER
      RT_WAITING_FOREVER d)
    (hstop : k.waits σ = true → k.forever = true →
      (σ.timer (.ofThread t)).flag = .noActivated ∨ σ.statu t = .ready ∨
        σ.statu t = .running)
    (hT : Turn t k σ σ') : ForeverInv σ' := by
  cases hT with
  | sendFull hx hfull =>
      exact (h.setError hf RT_EOK).emit (by simp [Obs.lateForever, RT_EFULL, RT_ETIMEOUT])
  | @sendPark m x value orig timeout tickDelta d _ hx hfull htime =>
      have hwaits : (After.mbSend m value orig timeout tickDelta).waits σ = true := by
        simpa [After.waits, hx, hfull] using htime
      have hsound := hk.resolve_right fun hne => by simp [hwaits] at hne
      exact h.park hf hsound (hstop hwaits)
  | send hx hne hput =>
      exact (h.put hput).finish (by simp [Obs.lateForever, RT_EOK, RT_ETIMEOUT])
  | @recvEmpty m x orig tickDelta _ hx hempty =>
      have hsound : orig ≠ RT_WAITING_FOREVER := by
        rcases hk with hs | ⟨-, m', d, heq⟩
        · exact hs
        · simp [RT_WAITING_FOREVER] at heq
      refine ForeverInv.emit ?_ (by simp [Obs.lateForever, hsound])
      exact (h.setError hf RT_EOK).setError hf _
  | @recvPark m x orig timeout tickDelta d _ hx hempty htime =>
      have hwaits : (After.mbRecv m orig timeout tickDelta).waits σ = true := by
        simpa [After.waits, hx, hempty] using htime
      have hsound := hk.resolve_right fun hne => by simp [hwaits] at hne
      exact h.park hf hsound (hstop hwaits)
  | recv hx hne htake =>
      exact (h.take htake).finish (by simp [Obs.lateForever, RT_EOK, RT_ETIMEOUT])

theorem lateForever_of_prompt {o : Obs} (ho : o.prompt = true) : o.lateForever = false := by
  cases o with
  | mbSendRet m t timeout r =>
      have : r ≠ -RT_ETIMEOUT := by simpa [Obs.prompt] using ho
      simp [Obs.lateForever, this]
  | mbRecvRet m t timeout r =>
      rcases (by simpa [Obs.prompt] using ho : r ≠ -RT_ETIMEOUT ∨ timeout = 0) with hr | ht
      · simp [Obs.lateForever, hr]
      · simp [Obs.lateForever, ht, RT_WAITING_FOREVER]
  | _ => cases ho

theorem object (h : ForeverInv σ) (ha : ObjectAct σ₀ e σ σ') : ForeverInv σ' := by
  cases ha with
  | semInit he hs => exact ForeverInv.emit ((h.still (still_tlinks _ _)).setSem _ _) rfl
  | mbInit he hm => exact (h.still (still_tlinks _ _)).setMb _ _
  | semTaken he hx hpos =>
      exact ((h.setSem _ _).emit rfl).emit (by simp [Obs.lateForever, RT_EOK, RT_ETIMEOUT])
  | semRefused he hx hzero => exact h.emit (by simp [Obs.lateForever, RT_WAITING_FOREVER])
  | report ho => exact h.emit (lateForever_of_prompt ho)

theorem schedule (h : ForeverInv σ) {c : Tid} {k : After}
    (hk : e = .goOn ∧ σ.frame c = .schedule k ∨
      e = .call .rtSchedule ∧ canCall σ = true ∧ k = .ret none)
    (hs : rtSchedule (σ.setFrame c (.after k)) = some σ') : ForeverInv σ' := by
  refine ForeverInv.still ?_ (schedOnly_rtSchedule hs).still
  rcases hk with ⟨-, hf⟩ | ⟨-, -, rfl⟩
  · have hsound := h.sound c
    have hclean := h.clean c
    rw [hf] at hsound hclean
    exact h.setFrame hsound hclean
  · exact h.setFrame (by simp [Frame.Sound, After.Sound]) fun hf => by cases hf

theorem join (h : ForeverInv σ) (name : String) (stackSize priority runtick : BitVec 32)
    (mallocOk stackOk : Bool) :
    ForeverInv (threadJoinInit name stackSize priority runtick mallocOk stackOk σ).1 := by
  rcases threadJoinInit_joined name stackSize priority runtick mallocOk stackOk σ with
    heq | hj
  · rw [heq]
    exact h
  · refine ⟨fun u hu => ?_, fun u => ?_, fun k u hk => ?_, ?_⟩
    · rw [hj.frame] at hu
      by_cases hut : u = σ.nextTid
      · subst hut
        simp [Frame.forever] at hu
      · rw [hj.error, hj.timer]
        simpa [hut] using h.clean u (by simpa [hut] using hu)
    · rw [hj.frame]
      by_cases hut : u = σ.nextTid
      · subst hut
        simp [Frame.Sound]
      · simpa [hut] using h.sound u
    · rw [hj.timer] at hk
      by_cases hkt : k = .ofThread σ.nextTid
      · subst hkt
        simpa using hk
      · exact h.func k u (by simpa [hkt] using hk)
    · rw [hj.trace]
      exact h.trace

/-- `rt_thread_timeout` runs for a thread whose timer was running. -/
theorem expire (h : ForeverInv σ) {k : TimerId} (hdue : timerDue k σ = true)
    (hfunc : (σ.timer k).timeoutFunc = .rtThreadTimeout t) : ForeverInv (fireThread k t σ) := by
  obtain rfl := h.func k t hfunc
  have hflag : (σ.timer (.ofThread t)).flag = .activated := (of_decide_eq_true hdue).1
  have hf : (σ.frame t).forever = false := by
    cases hfor : (σ.frame t).forever with
    | false => rfl
    | true => simp [(h.clean t hfor).2] at hflag
  have h₁ : ForeverInv (Kernel.setError t (-RT_ETIMEOUT)
      { σ with timerLinks := σ.timerLinks.remove (.timer (.ofThread t)) }) :=
    (h.still (still_timerLinks (σ.timerLinks.remove (.timer (.ofThread t))) σ)).setError hf _
  have h₂ := (h₁.still (still_unlinkThread t _)).still
    (schedOnly_rtScheduleInsertThread t _).still
  exact ForeverInv.still (h₂.emit (o := .expired t) rfl) (still_flagOff _ _)

theorem lateForever_of_retObs {k : After} {o : Obs} {r : ℤ} (ho : k.retObs t r = some o)
    (hr : k.forever = true → r = RT_EOK) : o.lateForever = false := by
  by_cases hfor : k.forever = true
  · rw [hr hfor] at ho
    cases k <;> simp_all [After.retObs] <;> subst ho <;>
      simp [Obs.lateForever, RT_EOK, RT_ETIMEOUT]
  · cases k <;> simp_all [After.retObs, After.forever] <;> subst ho <;>
      simp_all [Obs.lateForever]

theorem rerun (h : ForeverInv σ) (t : Tid) (w : TNode) : ForeverInv (rerun t w σ) :=
  (h.emit rfl).run t

/-- What `foreverGuard` asks of the first test of a call that waits. -/
theorem timerStops_of_guard {k : After} (hg : foreverGuard σ e = true)
    (hc : σ.currentThread = some t)
    (he : (∃ s, e = .call (.rtSemTake s RT_WAITING_FOREVER) ∧
        k = .semTake s RT_WAITING_FOREVER) ∨
      ∃ m value, e = .call (.rtMbSendWait m value RT_WAITING_FOREVER) ∧
        k = .mbSend m value RT_WAITING_FOREVER RT_WAITING_FOREVER 0)
    (hw : k.waits σ = true) :
    (σ.timer (.ofThread t)).flag = .noActivated ∨ σ.statu t = .ready ∨
      σ.statu t = .running := by
  have hstops : timerStops σ = true := by
    rcases he with ⟨s, rfl, rfl⟩ | ⟨m, value, rfl, rfl⟩ <;> rw [foreverGuard, hw] at hg <;>
      simpa using hg
  simpa [timerStops, hc] using hstops

/-- The first test of a mailbox call. -/
theorem firstTurn (h : ForeverInv σ) (hg : foreverGuard σ e = true) {k : After}
    (hc : σ.currentThread = some t) (hcall : canCall σ = true)
    (hk : (∃ m value timeout, e = .call (.rtMbSendWait m value timeout) ∧
        k = .mbSend m value timeout timeout 0) ∨
      ∃ m timeout, e = .call (.rtMbRecv m timeout) ∧ k = .mbRecv m timeout timeout 0)
    (hT : Turn t k σ σ') : ForeverInv σ' := by
  refine h.turn (forever_of_canCall hcall hc) ?_ (fun hw hfor => ?_) hT
  · rcases hk with ⟨m, value, timeout, rfl, rfl⟩ | ⟨m, timeout, rfl, rfl⟩
    · exact Or.inl fun horig => horig
    · by_cases hfor : timeout = RT_WAITING_FOREVER
      · subst hfor
        exact Or.inr ⟨by simpa [foreverGuard] using hg, m, 0, rfl⟩
      · exact Or.inl hfor
  · rcases hk with ⟨m, value, timeout, rfl, rfl⟩ | ⟨m, timeout, rfl, rfl⟩
    · obtain rfl : timeout = RT_WAITING_FOREVER := by simpa [After.forever] using hfor
      exact timerStops_of_guard hg hc (Or.inr ⟨m, value, rfl, rfl⟩) hw
    · obtain rfl : timeout = RT_WAITING_FOREVER := by simpa [After.forever] using hfor
      rw [foreverGuard, hw] at hg
      simp at hg

theorem act (h : ForeverInv σ) (hg : foreverGuard σ₀ e = true) (ha : Act σ₀ e σ σ') :
    ForeverInv σ' := by
  cases ha with
  | clock ha => exact h.still ha.still
  | object ha => exact h.object ha
  | join he => exact h.join _ _ _ _ _ _
  | start he hc hs => exact h.still (still_threadStart hs)
  | schedule hc hk hs => exact h.schedule hk hs
  | preempt he hs => exact h.still (schedOnly_rtSchedule hs).still
  | @suspend t s he hcall ht hs =>
      have hsus := h.still (still_rtThreadSuspend t s σ₀)
      unfold suspendDirect
      split
      · exact hsus.setFrame trivial fun hf => by cases hf
      · exact hsus
  | resume he hs => exact h.still (still_wakeThread _ _)
  | @sleep t tick _ he hc hcall hs =>
      simp only [rtThreadSleep, hc, Option.some.injEq] at hs
      subst hs
      have hf := forever_of_canCall hcall hc
      have hset : ForeverInv (σ₀.setInitTick t tick) := h.arm hf rfl
      have hstill := still_rtThreadSuspend t .sleep (σ₀.setInitTick t tick)
      refine ((hset.still hstill).rtTimerStart ?_).enter (by simp)
      rw [hstill.frame]
      exact hf
  | exit he hc hcall => exact (h.still (still_closeThread _ σ₀)).enter (by simp)
  | enter hc hcall => exact h.enter (by simp)
  | kill he ht hc => exact h.still (still_closeThread _ σ₀)
  | killSelf he hcall hfind hc hs =>
      refine ForeverInv.still (ForeverInv.setFrame (h.still (still_closeThread _ σ₀)) ?_
        fun hf => ?_) (schedOnly_rtSchedule hs).still
      · simp [Frame.Sound, After.Sound]
      · cases hf
  | clean he hs => exact h.still (still_cleanDeadFrom hs)
  | expire he hdue hfunc => exact h.expire hdue hfunc
  | @semPark s time t he hc hcall hw =>
      refine h.park (forever_of_canCall hcall hc) trivial fun hfor => ?_
      obtain rfl : time = RT_WAITING_FOREVER := by simpa [After.forever] using hfor
      exact timerStops_of_guard hg hc (Or.inl ⟨s, he, rfl⟩) hw
  | release he hr =>
      obtain ⟨x, -, ⟨-, rfl⟩ | ⟨u, -, -, rfl⟩⟩ := rtSemRelease_cases hr
      · exact (h.setSem _ _).emit rfl
      · exact ((h.emit rfl).emit rfl).still (still_rtThreadResume u _)
  | post he hx hne hr => exact h.put hr
  | turn hc hcall hb hk hT => exact h.firstTurn hg hc hcall hk hT
  | @rerunTurn t k w _ he hc hf hk hw herr hb hT =>
      have hsound := h.sound t
      have hclean := h.clean t
      rw [hf] at hsound hclean
      refine (h.rerun t w).turn ?_ (Or.inl (After.sound_again hsound _)) (fun _ hfor => ?_) hT
      · simp [LuojiOs.rerun, Kernel.setFrame, Frame.forever]
      · refine Or.inl (hclean ?_).2
        cases k <;> simp_all [After.again, After.forever, Frame.forever]
  | @rerunRet t k w o he hc hf hw ho herr =>
      refine (h.rerun t w).emit (lateForever_of_retObs ho fun hfor => ?_)
      exact (h.clean t (by rw [hf]; exact hfor)).1
  | @returned t r he hc hf =>
      have hsound := h.sound t
      rw [hf] at hsound
      cases r with
      | none => exact h.run t
      | some o => exact (h.run t).emit (hsound o rfl)

end ForeverInv

theorem foreverInv_threadInit (tick : BitVec 32) : ForeverInv (threadInit tick) where
  clean t ht := by simp [threadInit, Frame.forever] at ht
  sound t := by simp [threadInit, Frame.Sound]
  func k t hk := by simp [threadInit] at hk
  trace o ho := by simp [threadInit] at ho

/-- In runs that meet `foreverGuard` no call made with `RT_WAITING_FOREVER` returns
`-RT_ETIMEOUT`. -/
theorem forever_of_reachable {σ : Kernel}
    (h : Reachable (fun σ e => foreverGuard σ e = true) σ) :
    ∀ o ∈ σ.trace, o.lateForever = false := by
  have hinv : ForeverInv σ := by
    refine Runs.Reach.invariant ?_ ?_ h
    · rintro σ ⟨tick, rfl⟩
      exact foreverInv_threadInit tick
    · intro σ e σ' hinv hg hs
      exact step_preserves (fun _ _ h ha => h.act hg ha) hinv hs
  exact hinv.trace

/-- The hand-over of a semaphore to a thread that waits for it forever. -/
theorem forever_handOverRun :
    ∃ σ, checkedRun foreverGuard 0 (handOverRun ++ [.goOn]) = some σ ∧
      .semTakeRet 0 (some 0) RT_WAITING_FOREVER RT_EOK ∈ σ.trace ∧
      ∀ o ∈ σ.trace, o.lateForever = false := by
  obtain ⟨σ, hσ, hret⟩ := Runs.exists_of_any
    (show (checkedRun foreverGuard 0 (handOverRun ++ [.goOn])).any (fun σ =>
      .semTakeRet 0 (some 0) RT_WAITING_FOREVER RT_EOK ∈ σ.trace) = true by decide)
  exact ⟨σ, hσ, of_decide_eq_true hret, forever_of_reachable (reachable_of_checkedRun hσ)⟩

/-- A thread waits forever for a message, and one tick passes. -/
def receiveForeverRun : List Event :=
  [.call (.rtMbInit 0 1), joinCall 3, joinCall 5, .threadStart, .tick 2,
    .call (.rtMbRecv 0 RT_WAITING_FOREVER), .goOn, .tick 2, .goOn]

/-- The only thread waits with a limit and then forever, its timer still running. -/
def takeForeverRun : List Event :=
  [.call (.rtSemInit 0 0), joinCall 3, .threadStart, .call (.rtSemTake 0 1), .goOn, .goOn,
    .call (.rtSemTake 0 RT_WAITING_FOREVER), .tick 3, .tick 3, .goOn, .goOn]

theorem forever_broken :
    (∃ σ, runFrom 0 receiveForeverRun = some σ ∧
        .mbRecvRet 0 (some 0) RT_WAITING_FOREVER (-RT_ETIMEOUT) ∈ σ.trace) ∧
      ∃ σ, runFrom 0 takeForeverRun = some σ ∧
        .semTakeRet 0 (some 0) RT_WAITING_FOREVER (-RT_ETIMEOUT) ∈ σ.trace := by
  constructor
  · obtain ⟨σ, hσ, hret⟩ := Runs.exists_of_any
      (show (runFrom 0 receiveForeverRun).any (fun σ =>
        .mbRecvRet 0 (some 0) RT_WAITING_FOREVER (-RT_ETIMEOUT) ∈ σ.trace) = true by
        decide)
    exact ⟨σ, hσ, of_decide_eq_true hret⟩
  · obtain ⟨σ, hσ, hret⟩ := Runs.exists_of_any
      (show (runFrom 0 takeForeverRun).any (fun σ =>
        .semTakeRet 0 (some 0) RT_WAITING_FOREVER (-RT_ETIMEOUT) ∈ σ.trace) = true by
        decide)
    exact ⟨σ, hσ, of_decide_eq_true hret⟩

end LuojiOs
