import LuojiOs.Scheduler.Effects

/-!
# Every event is a sequence of acts

`step_acts` unfolds the event functions once and for all.  It assumes nothing of
the state, so that it also serves the properties that hold in runs where the
lists are broken.
-/

namespace LuojiOs

open CircularList

section

variable {σ₀ σ σ' : Kernel} {e : Event}

theorem Act.acts (h : Act σ₀ e σ σ') : Acts σ₀ e σ σ' :=
  .single h

/-! ## The tick -/

theorem switchThread_setTimer (c dst : Tid) (k : TimerId) (x : Timer) (σ : Kernel) :
    switchThread c dst (σ.setTimer k x) = (switchThread c dst σ).setTimer k x := by
  have hremove : ∀ t (σ : Kernel), rtScheduleRemoveThread t (σ.setTimer k x) =
      (rtScheduleRemoveThread t σ).setTimer k x := by
    intro t σ
    rw [rtScheduleRemoveThread_eq, rtScheduleRemoveThread_eq]
    rfl
  have hinsert : ∀ t (σ : Kernel), rtScheduleInsertThread t (σ.setTimer k x) =
      (rtScheduleInsertThread t σ).setTimer k x := by
    intro t σ
    unfold rtScheduleInsertThread
    change (if σ.currentThread = some t then _ else _) = _
    split <;> rfl
  have hmark : markRunning dst (σ.setTimer k x) = (markRunning dst σ).setTimer k x := rfl
  have hstatu : ((markRunning dst σ).setTimer k x).statu = (markRunning dst σ).statu := rfl
  rw [switchThread_eq, switchThread_eq, hmark, hstatu, ← hremove]
  split
  · rw [hinsert]
  · rfl

/-- `rt_schedule` does not look at timers. -/
theorem rtSchedule_setTimer (k : TimerId) (x : Timer) (σ : Kernel) :
    rtSchedule (σ.setTimer k x) = (rtSchedule σ).map (·.setTimer k x) := by
  have hcur : (σ.setTimer k x).currentThread = σ.currentThread := rfl
  have hgroup : (σ.setTimer k x).readyPriorityGroup = σ.readyPriorityGroup := rfl
  have hget : getHighestPriorityThread (σ.setTimer k x) = getHighestPriorityThread σ := rfl
  unfold rtSchedule
  rw [hcur, hgroup, hget]
  cases σ.currentThread with
  | none => rfl
  | some c =>
      by_cases hg : σ.readyPriorityGroup = 0#32
      · simp [hg]
      · cases getHighestPriorityThread σ with
        | none => simp [hg]
        | some r =>
            by_cases hne : r.1 = c
            · simp [hg, hne]
            · simp [hg, hne, switchThread_setTimer]

theorem acts_of_checkTimer {fuel : ℕ} (he : e = .tick fuel) {k : TimerId}
    (h : checkTimer k σ = some σ') : Acts σ₀ e σ σ' := by
  unfold checkTimer at h
  split at h
  · next hdue =>
    dsimp only at h
    cases hfunc : (σ.timer k).timeoutFunc with
    | callback ops =>
        rw [hfunc] at h
        obtain rfl := Option.some.inj h
        exact (Act.clock (.callback he hdue hfunc)).acts
    | rtThreadTimeout t =>
        rw [hfunc] at h
        simp only [runTimeoutFunc, rtThreadTimeout] at h
        split at h
        · cases h
        · next σ₁ hs =>
          refine (Act.expire he hdue hfunc).acts.tail (.preempt (by rw [he]; rfl) ?_)
          have hkeep := (schedOnly_rtSchedule hs).timer
          rw [fireThread, rtSchedule_setTimer, hs, ← h, hkeep]
          rfl
  · obtain rfl := Option.some.inj h
    exact .refl

theorem acts_of_rtTimerCheckFrom {fuel : ℕ} (he : e = .tick fuel) {n : ℕ}
    {pos nxt : TimerNode} (h : rtTimerCheckFrom n pos nxt σ = some σ') :
    Acts σ₀ e σ σ' := by
  induction n generalizing pos nxt σ with
  | zero => cases h
  | succ n ih =>
      cases pos with
      | head =>
          obtain rfl := Option.some.inj h
          exact .refl
      | timer k =>
          unfold rtTimerCheckFrom at h
          split at h
          · cases h
          · next σ₁ hk => exact (acts_of_checkTimer he hk).trans (ih h)

theorem acts_of_sysTickHandler {fuel : ℕ} (h : sysTickHandler fuel σ = some σ') :
    Acts σ (.tick fuel) σ σ' := by
  have hinc : Acts σ (.tick fuel) σ (sysTickIncrease σ) :=
    (Act.clock (.tickIncrease rfl)).acts
  unfold sysTickHandler at h
  dsimp only at h
  split at h
  · obtain rfl := Option.some.inj h
    exact hinc
  · next c hc =>
    have hcount : Acts σ (.tick fuel) σ (countDown c (sysTickIncrease σ)).2 :=
      hinc.tail (.clock (.countDown rfl hc))
    split at h
    · next σ₁ hd =>
      obtain ⟨σ₂, hs, hchk⟩ := Option.bind_eq_some_iff.mp h
      rw [hd] at hcount
      exact (hcount.tail (.preempt rfl hs)).trans (acts_of_rtTimerCheckFrom rfl hchk)
    · next σ₁ hd =>
      rw [hd] at hcount
      exact hcount.trans (acts_of_rtTimerCheckFrom rfl h)

/-! ## Calls on other threads -/

theorem isBlocked_of_resumed {s : Statu} (hs : ¬(s ≠ .suspend ∧ s ≠ .sleep)) :
    s.isBlocked = true := by
  revert hs
  cases s <;> simp [Statu.isBlocked]

theorem acts_of_resumeAllFrom {s fuel : ℕ} (he : e = .call (.rtSemDetach s fuel))
    (hne : σ₀.tlinks.isEmpty (.semWait s) = false) {w : TNode} {n : ℕ} {pos nxt : TNode}
    (h : resumeAllFrom w n pos nxt σ = some σ') : Acts σ₀ e σ σ' := by
  induction n generalizing pos nxt σ with
  | zero => cases h
  | succ n ih =>
      unfold resumeAllFrom at h
      split at h
      · obtain rfl := Option.some.inj h
        exact .refl
      · cases pos with
        | thread t =>
            refine Relation.ReflTransGen.trans ?_ (ih h)
            unfold rtThreadResume
            split
            · exact .refl
            · next hs =>
              exact (Act.resume (Or.inr ⟨s, fuel, he, hne⟩) (isBlocked_of_resumed hs)).acts
        | ready | dead | semWait | mbRecv | mbSend => cases h

theorem acts_of_rtSemDetach {s fuel : ℕ} (h : rtSemDetach s fuel σ = some σ') :
    Acts σ (.call (.rtSemDetach s fuel)) σ σ' := by
  unfold rtSemDetach at h
  split at h
  · cases h
  · cases hem : σ.tlinks.isEmpty (.semWait s) with
    | false => exact acts_of_resumeAllFrom rfl hem h
    | true =>
        have hself : σ.tlinks.next (.semWait s) = .semWait s := by
          simpa [Links.isEmpty] using hem
        cases fuel with
        | zero => cases h
        | succ n =>
            simp only [resumeAllFrom, hself, if_true] at h
            obtain rfl := Option.some.inj h
            exact .refl

/-! ## Handing over -/

theorem firstWaiter_cases {w : TNode} {r : Option Tid} (h : firstWaiter w σ = some r) :
    (σ.tlinks.isEmpty w = true ∧ r = none) ∨
      ∃ t, σ.tlinks.isEmpty w = false ∧ σ.tlinks.next w = .thread t ∧ r = some t := by
  unfold firstWaiter at h
  split at h
  · next hem => exact Or.inl ⟨hem, by simpa using h.symm⟩
  · next hem =>
    split at h
    · next t ht => exact Or.inr ⟨t, by simpa using hem, ht, by simpa using h.symm⟩
    · cases h

/-- `rt_sem_release` adds one, or resumes the first waiter. -/
theorem rtSemRelease_cases {s : ℕ} {r : Kernel × Bool} (h : rtSemRelease s σ = some r) :
    ∃ x, σ.sem s = some x ∧
      ((σ.tlinks.isEmpty (.semWait s) = true ∧
          r = ((σ.setSem s ⟨x.value + 1⟩).emit (.semReleased s), false)) ∨
        ∃ t, σ.tlinks.isEmpty (.semWait s) = false ∧
          σ.tlinks.next (.semWait s) = .thread t ∧
          r = ((rtThreadResume t
            ((σ.emit (.semReleased s)).emit (.woke (.semWait s) t))).1, true)) := by
  unfold rtSemRelease at h
  split at h
  · cases h
  · next x hx =>
    refine ⟨x, hx, ?_⟩
    split at h
    · cases h
    · next hw =>
      rcases firstWaiter_cases hw with ⟨hem, -⟩ | ⟨t, -, -, ht⟩
      · exact Or.inl ⟨hem, by simpa using h.symm⟩
      · cases ht
    · next t hw =>
      rcases firstWaiter_cases hw with ⟨-, ht⟩ | ⟨u, hem, hnext, hu⟩
      · cases ht
      · cases hu
        exact Or.inr ⟨t, hem, hnext, by simpa using h.symm⟩

/-- The ring after `rt_mb_send_wait` has stored a value. -/
def Mailbox.put (x : Mailbox) (value : BitVec 32) : Mailbox :=
  { x with
    msgPool := Function.update x.msgPool x.inOffset.toNat value
    inOffset := advance x.inOffset x.size
    entry := x.entry + 1 }

/-- The ring after `rt_mb_recv` has taken a value. -/
def Mailbox.take (x : Mailbox) : Mailbox :=
  { x with
    outOffset := advance x.outOffset x.size
    entry := x.entry - 1 }

theorem mbPut_cases {m : ℕ} {x : Mailbox} {value : BitVec 32} {r : Kernel × Bool}
    (h : mbPut m x value σ = some r) :
    (σ.tlinks.isEmpty (.mbRecv m) = true ∧
        r = ((σ.setMb m (x.put value)).emit (.sent m value), false)) ∨
      ∃ t, σ.tlinks.isEmpty (.mbRecv m) = false ∧ σ.tlinks.next (.mbRecv m) = .thread t ∧
        r = ((rtThreadResume t (((σ.setMb m (x.put value)).emit (.sent m value)).emit
          (.woke (.mbRecv m) t))).1, true) := by
  unfold mbPut at h
  dsimp only at h
  split at h
  · cases h
  · next hw =>
    rcases firstWaiter_cases hw with ⟨hem, -⟩ | ⟨t, -, -, ht⟩
    · exact Or.inl ⟨hem, (Option.some.inj h).symm⟩
    · cases ht
  · next t hw =>
    rcases firstWaiter_cases hw with ⟨-, ht⟩ | ⟨u, hem, hnext, hu⟩
    · cases ht
    · cases hu
      exact Or.inr ⟨t, hem, hnext, (Option.some.inj h).symm⟩

theorem mbTake_cases {m : ℕ} {x : Mailbox} {r : Kernel × Bool}
    (h : mbTake m x σ = some r) :
    (σ.tlinks.isEmpty (.mbSend m) = true ∧
        r = ((σ.setMb m x.take).emit (.received m (x.msgPool x.outOffset.toNat)), false)) ∨
      ∃ t, σ.tlinks.isEmpty (.mbSend m) = false ∧ σ.tlinks.next (.mbSend m) = .thread t ∧
        r = (wakeThread t
          (((σ.setMb m x.take).emit (.received m (x.msgPool x.outOffset.toNat))).emit
            (.woke (.mbSend m) t)), true) := by
  unfold mbTake at h
  dsimp only at h
  split at h
  · cases h
  · next hw =>
    rcases firstWaiter_cases hw with ⟨hem, -⟩ | ⟨t, -, -, ht⟩
    · exact Or.inl ⟨hem, (Option.some.inj h).symm⟩
    · cases ht
  · next t hw =>
    rcases firstWaiter_cases hw with ⟨-, ht⟩ | ⟨u, hem, hnext, hu⟩
    · cases ht
    · cases hu
      exact Or.inr ⟨t, hem, hnext, (Option.some.inj h).symm⟩

theorem frame_wakeThread (t : Tid) (σ : Kernel) : (wakeThread t σ).frame = σ.frame := by
  unfold wakeThread
  rw [(schedOnly_rtScheduleInsertThread t _).frame]
  unfold rtTimerStop
  split <;> rfl

theorem frame_rtThreadResume (t : Tid) (σ : Kernel) :
    (rtThreadResume t σ).1.frame = σ.frame := by
  unfold rtThreadResume
  split
  · rfl
  · exact frame_wakeThread t σ

theorem canCall_congr (hcur : σ'.currentThread = σ.currentThread)
    (hframe : σ'.frame = σ.frame) : canCall σ' = canCall σ := by
  unfold canCall
  rw [hcur, hframe]

theorem canCall_rtSemRelease {s : ℕ} {r : Kernel × Bool} (h : rtSemRelease s σ = some r) :
    canCall r.1 = canCall σ := by
  obtain ⟨x, -, ⟨-, rfl⟩ | ⟨t, -, -, rfl⟩⟩ := rtSemRelease_cases h
  · rfl
  · exact canCall_congr (onlyThread_rtThreadResume t _).current (frame_rtThreadResume t _)

/-! ## The calls -/

theorem acts_of_rtThreadSleep {tick : BitVec 32} (he : sleeps σ e = true)
    (hcall : canCall σ = true) (h : rtThreadSleep tick σ = some σ') : Acts σ e σ σ' := by
  cases hc : σ.currentThread with
  | none => simp [rtThreadSleep, hc] at h
  | some t => exact (Act.sleep he hc hcall h).acts

theorem acts_of_killThreadFun {id : BitVec 32} (hcall : canCall σ = true)
    (h : killThreadFun id σ = some σ') : Acts σ (.call (.killThreadFun id)) σ σ' := by
  unfold killThreadFun at h
  split at h
  · obtain rfl := Option.some.inj h
    exact .refl
  · next t ht =>
    have hmem : t ∈ σ.allThread := List.mem_of_find?_eq_some ht
    split at h
    · dsimp only at h
      rw [(onlyThread_closeThread t σ).current] at h
      split at h
      · next hc => exact (Act.killSelf rfl hcall ht hc h).acts
      · next hc =>
        obtain rfl := Option.some.inj h
        exact (Act.kill rfl hmem hc).acts
    · obtain rfl := Option.some.inj h
      exact .refl

theorem acts_of_rtSemTake {s : ℕ} {time : BitVec 32} (hcall : canCall σ = true)
    (h : rtSemTake s time σ = some σ') : Acts σ (.call (.rtSemTake s time)) σ σ' := by
  unfold rtSemTake at h
  split at h
  · cases h
  · next x hx =>
    split at h
    · next hpos =>
      obtain rfl := Option.some.inj h
      exact (Act.object (.semTaken rfl hx hpos)).acts
    · next hzero =>
      split at h
      · next htime =>
        subst htime
        obtain rfl := Option.some.inj h
        exact (Act.object (.semRefused rfl hx hzero)).acts
      · next htime =>
        split at h
        · cases h
        · next t hc =>
          have hw : (After.semTake s time).waits σ = true := by
            simp only [After.waits, hx]
            exact decide_eq_true ⟨hzero, htime⟩
          have hpark : park t (.semWait s) (.semTake s time) σ = σ' := by
            rw [← Option.some.inj h]
            by_cases hpos : 0 < time.toInt
            · have harm : (After.semTake s time).arm = some time := if_pos hpos
              rw [park_of_arm harm, if_pos hpos]
            · rw [park_of_not_arm (by simp [After.arm, hpos]), if_neg hpos]
          rw [← hpark]
          exact (Act.semPark rfl hc hcall hw).acts

theorem acts_of_rtMbSendWait {m : ℕ} {value timeout : BitVec 32} (hcall : canCall σ = true)
    (h : rtMbSendWait m value timeout σ = some σ') :
    Acts σ (.call (.rtMbSendWait m value timeout)) σ σ' := by
  unfold rtMbSendWait at h
  split at h
  · obtain rfl := Option.some.inj h
    exact (Act.object (.report (by simp [Obs.prompt, RT_ERROR, RT_ETIMEOUT]))).acts
  · next t hc =>
    split at h
    · cases h
    · split at h
      · obtain rfl := Option.some.inj h
        exact (Act.object (.report (by simp [Obs.prompt, RT_EFULL, RT_ETIMEOUT]))).acts
      · refine (Act.turn hc hcall ?_ (Or.inl ⟨m, value, timeout, rfl, rfl⟩)
          (turn_of_mbSendLoop h)).acts
        exact fun hw => hw

theorem acts_of_rtMbRecv {m : ℕ} {timeout : BitVec 32} (hcall : canCall σ = true)
    (h : rtMbRecv m timeout σ = some σ') : Acts σ (.call (.rtMbRecv m timeout)) σ σ' := by
  unfold rtMbRecv at h
  split at h
  · obtain rfl := Option.some.inj h
    exact (Act.object (.report (by simp [Obs.prompt, RT_ERROR, RT_ETIMEOUT]))).acts
  · next t hc =>
    split at h
    · cases h
    · split at h
      · next hempty =>
        obtain rfl := Option.some.inj h
        exact (Act.object (.report (by simp [Obs.prompt, hempty.2]))).acts
      · refine (Act.turn hc hcall ?_ (Or.inr ⟨m, timeout, rfl, rfl⟩)
          (turn_of_mbRecvLoop h)).acts
        exact fun hw => hw

theorem acts_of_exec {c : Call} (hcall : canCall σ = true) (h : c.exec σ = some σ') :
    Acts σ (.call c) σ σ' := by
  cases c with
  | threadJoinInit name stackSize priority runtick mallocOk stackOk =>
      obtain rfl := Option.some.inj h
      exact (Act.join rfl).acts
  | rtSchedule =>
      simp only [Call.exec] at h
      split at h
      · cases h
      · next t hc => exact (Act.schedule hc (Or.inr ⟨rfl, hcall, rfl⟩) h).acts
  | rtThreadSuspend t s =>
      simp only [Call.exec] at h
      split at h
      · next ht =>
        by_cases hs : σ.statu t = .ready ∨ σ.statu t = .running
        · have hdirect : suspendDirect t s σ = σ' := by
            rw [← Option.some_inj, ← h, suspendDirect, rtThreadSuspend_of_runs hs]
            by_cases hc : σ.currentThread = some t <;> simp [hc]
          rw [← hdirect]
          exact (Act.suspend rfl hcall ht hs).acts
        · rw [rtThreadSuspend_of_not_runs hs] at h
          obtain rfl : σ = σ' := by simpa [RT_ERROR, RT_EOK] using h
          exact .refl
      · cases h
  | rtThreadResume t =>
      simp only [Call.exec] at h
      split at h
      · obtain rfl := Option.some.inj h
        unfold rtThreadResume
        split
        · exact .refl
        · next hs => exact (Act.resume (Or.inl ⟨rfl, rfl⟩) (isBlocked_of_resumed hs)).acts
      · cases h
  | rtThreadSleep tick => exact acts_of_rtThreadSleep rfl hcall h
  | rtThreadExit =>
      simp only [Call.exec, rtThreadExit] at h
      split at h
      · cases h
      · next t hc =>
        obtain rfl := Option.some.inj h
        exact (Act.exit (Or.inl rfl) hc hcall).acts
  | rtThreadDeadExit =>
      simp only [Call.exec, rtThreadDeadExit] at h
      split at h
      · cases h
      · next t hc =>
        obtain rfl := Option.some.inj h
        split
        · exact (Act.exit (Or.inr rfl) hc hcall).acts
        · exact (Act.enter hc hcall).acts
  | killThreadFun id => exact acts_of_killThreadFun hcall h
  | idleThreadBody fuel =>
      simp only [Call.exec, idleThreadBody] at h
      split at h
      · exact (Act.clean rfl h).acts
      · next hem => exact acts_of_rtThreadSleep (by simpa [sleeps] using hem) hcall h
  | rtSemInit s value =>
      simp only [Call.exec] at h
      split at h
      · next hs =>
        obtain rfl := Option.some.inj h
        exact (Act.object (.semInit rfl hs)).acts
      · cases h
  | rtSemTake s time => exact acts_of_rtSemTake hcall h
  | rtSemRelease s =>
      obtain ⟨r, hr, hthen⟩ := Option.bind_eq_some_iff.mp h
      have hrel := (Act.release (Or.inl rfl) hr).acts
      rcases r with ⟨σ₁, b⟩
      cases b with
      | false =>
          obtain rfl := Option.some.inj hthen
          exact hrel
      | true =>
          simp only [thenSchedule] at hthen
          split at hthen
          · cases hthen
          · next t hc =>
            obtain rfl := Option.some.inj hthen
            exact hrel.tail (.enter hc ((canCall_rtSemRelease hr).trans hcall))
  | rtSemDetach s fuel => exact acts_of_rtSemDetach h
  | rtMbInit m size =>
      simp only [Call.exec] at h
      split at h
      · next hm =>
        obtain rfl := Option.some.inj h
        exact (Act.object (.mbInit rfl (by simpa using hm))).acts
      · cases h
  | rtMbSendWait m value timeout => exact acts_of_rtMbSendWait hcall h
  | rtMbRecv m timeout => exact acts_of_rtMbRecv hcall h
  | rtTimerInit u ops time flag =>
      obtain rfl := Option.some.inj h
      exact (Act.clock (.timerInit rfl)).acts
  | rtTimerStart u =>
      obtain rfl := Option.some.inj h
      exact (Act.clock (.timerStart rfl)).acts
  | rtTimerStop u =>
      obtain rfl := Option.some.inj h
      exact (Act.clock (.timerStop rfl)).acts

/-! ## Going on in a call, and the interrupts -/

theorem acts_of_loop {t : Tid} {k : After} {w : TNode} (hc : σ.currentThread = some t)
    (hf : σ.frame t = .after k) (hk : k.isLoop = true) (hw : k.head = some w)
    (herr : σ.error t = RT_EOK)
    (h : Turn t (k.again σ.systemTick) (rerun t w σ) σ') : Acts σ .goOn σ σ' := by
  refine (Act.rerunTurn rfl hc hf hk hw herr (fun hwait => ?_) h).acts
  simp [blocks, hc, hf, hk, herr, hwait]

theorem acts_of_after {t : Tid} {k : After} (hc : σ.currentThread = some t)
    (hf : σ.frame t = .after k) (h : k.exec t σ = some σ') : Acts σ .goOn σ σ' := by
  cases k with
  | ret r =>
      have hret : r.elim (σ.setFrame t .run) (fun o => (σ.setFrame t .run).emit o) = σ' := by
        cases r <;> exact Option.some.inj h
      rw [← hret]
      exact (Act.returned rfl hc hf).acts
  | semTake s time =>
      have hret : (rerun t (.semWait s) σ).emit (.semTakeRet s (some t) time (σ.error t)) =
          σ' := by
        rw [← Option.some.inj h]
        unfold rtSemTakeAfter
        dsimp only
        split
        · rfl
        · next he =>
          have herr : σ.error t = RT_EOK := not_not.mp he
          rw [herr]
          rfl
      rw [← hret]
      exact (Act.rerunRet rfl hc hf rfl rfl (by simp [After.isLoop])).acts
  | mbSend m value orig timeout tickDelta =>
      simp only [After.exec, rtMbSendAfter] at h
      split at h
      · next he =>
        obtain rfl := Option.some.inj h
        exact (Act.rerunRet (w := .mbSend m) rfl hc hf rfl rfl fun _ => he).acts
      · next he =>
        exact acts_of_loop hc hf rfl rfl (not_not.mp he) (turn_of_mbSendLoop h)
  | mbRecv m orig timeout tickDelta =>
      simp only [After.exec, rtMbRecvAfter] at h
      split at h
      · next he =>
        obtain rfl := Option.some.inj h
        exact (Act.rerunRet (w := .mbRecv m) rfl hc hf rfl rfl fun _ => he).acts
      · next he =>
        exact acts_of_loop hc hf rfl rfl (not_not.mp he) (turn_of_mbRecvLoop h)

theorem acts_of_isrSchedule {σ₁ : Kernel} {r : Kernel × Bool} (he : e.isInterrupt = true)
    (hr : Acts σ₀ e σ r.1) (h : isrSchedule r = some σ₁) : Acts σ₀ e σ σ₁ := by
  rcases r with ⟨σ', b⟩
  cases b with
  | false =>
      obtain rfl := Option.some.inj h
      exact hr
  | true => exact hr.tail (.preempt he h)

theorem acts_of_isrMbSend {m : ℕ} {value : BitVec 32} (h : isrMbSend m value σ = some σ') :
    Acts σ (.isrMbSend m value) σ σ' := by
  unfold isrMbSend at h
  split at h
  · obtain rfl := Option.some.inj h
    exact (Act.object (.report (by simp [Obs.prompt, RT_ERROR, RT_ETIMEOUT]))).acts
  · next t hc =>
    split at h
    · cases h
    · next x hx =>
      split at h
      · obtain rfl := Option.some.inj h
        exact (Act.object (.report (by simp [Obs.prompt, RT_EFULL, RT_ETIMEOUT]))).acts
      · next hne =>
        obtain ⟨r, hr, hrest⟩ := Option.bind_eq_some_iff.mp h
        obtain ⟨σ₁, hs, rfl⟩ := Option.map_eq_some_iff.mp hrest
        have hput := acts_of_isrSchedule rfl (Act.post rfl hx hne hr).acts hs
        exact hput.tail (.object (.report (by simp [Obs.prompt, RT_EOK, RT_ETIMEOUT])))

/-- Every event is a sequence of its acts. -/
theorem step_acts (h : step σ e = some σ') : Acts σ e σ σ' := by
  unfold step at h
  split at h
  · cases h
  · cases e with
    | threadStart =>
        simp only at h
        split at h
        · next hc => exact (Act.start rfl hc h).acts
        · cases h
    | call c =>
        simp only at h
        split at h
        · next hcall => exact acts_of_exec hcall h
        · cases h
    | goOn =>
        simp only at h
        split at h
        · cases h
        · next t hc =>
          split at h
          · next k hf => exact (Act.schedule hc (Or.inl ⟨rfl, hf⟩) h).acts
          · next k hf => exact acts_of_after hc hf h
          · cases h
    | tick fuel => exact acts_of_sysTickHandler h
    | isrSemRelease s =>
        obtain ⟨r, hr, hs⟩ := Option.bind_eq_some_iff.mp h
        exact acts_of_isrSchedule rfl (Act.release (Or.inr rfl) hr).acts hs
    | isrMbSend m value => exact acts_of_isrMbSend h

/-- What every act of an event preserves, the event preserves. -/
theorem step_preserves {P : Kernel → Prop} (hact : ∀ σ₁ σ₂, P σ₁ → Act σ e σ₁ σ₂ → P σ₂)
    (hP : P σ) (h : step σ e = some σ') : P σ' := by
  have hacts := step_acts h
  clear h
  induction hacts with
  | refl => exact hP
  | tail _ ha ih => exact hact _ _ ih ha

end

end LuojiOs
