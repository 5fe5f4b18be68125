import LuojiOs.Scheduler.Still

/-!
# Only created threads are used

Whatever happens to the lists, a pointer leads only to heads and to threads that have
been created, so that the current thread and every thread that is suspended or has a
running timer is one of them.  The memory of a thread that is about to be created is
therefore on no list.
-/

namespace LuojiOs

open CircularList

/-- A head, or a thread that has been created. -/
def TNode.known (next : Tid) : TNode → Prop
  | .thread t => t < next
  | _ => True

structure Known (σ : Kernel) : Prop where
  closed : σ.tlinks.Closed (TNode.known σ.nextTid)
  current : ∀ c, σ.currentThread = some c → c < σ.nextTid
  live : ∀ t ∈ σ.allThread, t < σ.nextTid
  blocked : ∀ t, (σ.statu t).isBlocked = true → t < σ.nextTid
  timer : ∀ t, (σ.timer (.ofThread t)).flag = .activated → t < σ.nextTid
  func : ∀ k t, (σ.timer k).timeoutFunc = .rtThreadTimeout t → t < σ.nextTid

section

variable {P : TNode → Prop} {σ : Kernel} {t : Tid}

theorem closed_rtScheduleInsertThread (h : σ.tlinks.Closed P) (hp : ∀ p, P (.ready p))
    (ht : P (.thread t)) : (rtScheduleInsertThread t σ).tlinks.Closed P := by
  unfold rtScheduleInsertThread
  split
  · exact h
  · exact h.insertBefore (hp _) ht

theorem closed_rtScheduleRemoveThread (h : σ.tlinks.Closed P) (t : Tid) :
    (rtScheduleRemoveThread t σ).tlinks.Closed P := by
  unfold rtScheduleRemoveThread
  dsimp only
  split <;> exact h.remove _

theorem tlinks_rtTimerStop (k : TimerId) (σ : Kernel) :
    (rtTimerStop k σ).1.tlinks = σ.tlinks :=
  (sameSched_rtTimerStop k σ).tlinks

theorem closed_wakeThread (h : σ.tlinks.Closed P) (hp : ∀ p, P (.ready p))
    (ht : P (.thread t)) : (wakeThread t σ).tlinks.Closed P := by
  refine closed_rtScheduleInsertThread ?_ hp ht
  rw [tlinks_rtTimerStop]
  exact h.remove _

theorem closed_rtThreadSuspend (h : σ.tlinks.Closed P) (t : Tid) (s : Statu) :
    (rtThreadSuspend t s σ).1.tlinks.Closed P := by
  unfold rtThreadSuspend
  split
  · exact h
  · rw [tlinks_rtTimerStop]
    exact closed_rtScheduleRemoveThread h t

theorem closed_closeThread (h : σ.tlinks.Closed P) (hd : P .dead) (ht : P (.thread t)) :
    (closeThread t σ).tlinks.Closed P := by
  refine (closed_rtScheduleRemoveThread ?_ t).insertAfter hd ht
  rw [tlinks_rtTimerStop]
  exact h

theorem closed_switchThread (h : σ.tlinks.Closed P) (hp : ∀ p, P (.ready p)) {c : Tid}
    (hc : P (.thread c)) (d : Tid) : (switchThread c d σ).tlinks.Closed P := by
  unfold switchThread
  dsimp only
  refine closed_rtScheduleRemoveThread ?_ d
  split
  · exact closed_rtScheduleInsertThread h hp hc
  · exact h

end

namespace Known

variable {σ₀ σ σ' : Kernel} {e : Event} {t : Tid}

theorem thread_of_next (h : Known σ) {w : TNode} (hw : w.isThread = false)
    (hnext : σ.tlinks.next w = .thread t) : t < σ.nextTid := by
  have hin : w.known σ.nextTid := by
    cases w <;> simp_all [TNode.known, TNode.isThread]
  have := (h.closed.inside w hin).1
  rw [hnext] at this
  exact this

theorem of_still (h : Known σ) (hs : Still σ σ') (hnext : σ'.nextTid = σ.nextTid)
    (hall : ∀ t ∈ σ'.allThread, t ∈ σ.allThread)
    (hclosed : σ'.tlinks.Closed (TNode.known σ.nextTid))
    (hcur : ∀ c, σ'.currentThread = some c → c < σ.nextTid)
    (hblocked : ∀ t, (σ'.statu t).isBlocked = true →
      (σ.statu t).isBlocked = true ∨ t < σ.nextTid) : Known σ' where
  closed := by
    rw [hnext]
    exact hclosed
  current := by
    rw [hnext]
    exact hcur
  live t ht := by
    rw [hnext]
    exact h.live t (hall t ht)
  blocked t ht := by
    rw [hnext]
    exact (hblocked t ht).elim (h.blocked t) id
  timer t ht := by
    rw [hnext]
    exact h.timer t (hs.flag t ht)
  func k t hk := by
    rw [hnext]
    exact h.func k t (hs.func k t hk)

theorem same (h : Known σ) (hs : Still σ σ') (hsame : SameSched σ σ') : Known σ' := by
  refine h.of_still hs hsame.nextTid (fun t ht => ?_) ?_ ?_ fun t ht => Or.inl ?_
  · rwa [hsame.allThread] at ht
  · rw [hsame.tlinks]
    exact h.closed
  · rw [hsame.current]
    exact h.current
  · rwa [hsame.statu] at ht

/-- A created thread is changed. -/
theorem only (h : Known σ) (ht : t < σ.nextTid) (hs : Still σ σ') (ho : OnlyThread t σ σ')
    (hclosed : σ'.tlinks.Closed (TNode.known σ.nextTid)) : Known σ' := by
  refine h.of_still hs ho.nextTid (fun u hu => ?_) hclosed ?_ fun u hu => ?_
  · rwa [ho.allThread] at hu
  · rw [ho.current]
    exact h.current
  · by_cases hut : u = t
    · subst hut
      exact Or.inr ht
    · rw [ho.statu u hut] at hu
      exact Or.inl hu

theorem setFrame (h : Known σ) (t : Tid) (f : Frame) : Known (σ.setFrame t f) :=
  ⟨h.closed, h.current, h.live, h.blocked, h.timer, h.func⟩

theorem setError (h : Known σ) (t : Tid) (r : ℤ) : Known (σ.setError t r) :=
  ⟨h.closed, h.current, h.live, h.blocked, h.timer, h.func⟩

theorem setSem (h : Known σ) (s : ℕ) (x : Sem) : Known (σ.setSem s x) :=
  ⟨h.closed, h.current, h.live, h.blocked, h.timer, h.func⟩

theorem setMb (h : Known σ) (m : ℕ) (x : Mailbox) : Known (σ.setMb m x) :=
  ⟨h.closed, h.current, h.live, h.blocked, h.timer, h.func⟩

theorem emit (h : Known σ) (o : Obs) : Known (σ.emit o) :=
  ⟨h.closed, h.current, h.live, h.blocked, h.timer, h.func⟩

theorem tlinks (h : Known σ) {l : Links TNode} (hl : l.Closed (TNode.known σ.nextTid)) :
    Known { σ with tlinks := l } :=
  ⟨hl, h.current, h.live, h.blocked, h.timer, h.func⟩

theorem timerLinks (h : Known σ) (l : Links TimerNode) : Known { σ with timerLinks := l } :=
  ⟨h.closed, h.current, h.live, h.blocked, h.timer, h.func⟩

/-- The timer of a created thread is set. -/
theorem setTimer (h : Known σ) (ht : t < σ.nextTid) {x : Timer}
    (hx : x.timeoutFunc = (σ.timer (.ofThread t)).timeoutFunc) :
    Known (σ.setTimer (.ofThread t) x) where
  closed := h.closed
  current := h.current
  live := h.live
  blocked := h.blocked
  timer u hu := by
    by_cases hut : u = t
    · subst hut
      exact ht
    · exact h.timer u (by simpa [Kernel.setTimer, hut] using hu)
  func k u hk := by
    by_cases hkt : k = .ofThread t
    · subst hkt
      refine h.func (.ofThread t) u ?_
      rw [← hx]
      simpa [Kernel.setTimer] using hk
    · exact h.func k u (by simpa [Kernel.setTimer, hkt] using hk)

theorem setInitTick (h : Known σ) (ht : t < σ.nextTid) (tick : BitVec 32) :
    Known (σ.setInitTick t tick) :=
  h.setTimer ht rfl

theorem rtTimerStart (h : Known σ) (ht : t < σ.nextTid) :
    Known (LuojiOs.rtTimerStart (.ofThread t) σ) := by
  refine Known.timerLinks (h.setTimer ht ?_) _
  rfl

/-! ## Every act keeps the created threads -/

theorem wakeThread (h : Known σ) (ht : t < σ.nextTid) : Known (LuojiOs.wakeThread t σ) :=
  h.only ht (still_wakeThread t σ) (onlyThread_wakeThread t σ)
    (closed_wakeThread h.closed (fun _ => trivial) ht)

theorem rtThreadResume (h : Known σ) (ht : t < σ.nextTid) :
    Known (LuojiOs.rtThreadResume t σ).1 := by
  unfold LuojiOs.rtThreadResume
  split
  · exact h
  · exact h.wakeThread ht

theorem rtThreadSuspend (h : Known σ) (ht : t < σ.nextTid) (s : Statu) :
    Known (LuojiOs.rtThreadSuspend t s σ).1 :=
  h.only ht (still_rtThreadSuspend t s σ) (onlyThread_rtThreadSuspend t s σ)
    (closed_rtThreadSuspend h.closed t s)

theorem closeThread (h : Known σ) (ht : t < σ.nextTid) : Known (LuojiOs.closeThread t σ) :=
  h.only ht (still_closeThread t σ) (onlyThread_closeThread t σ)
    (closed_closeThread h.closed trivial ht)

theorem getHighest (h : Known σ) {p : ℕ} (hs : getHighestPriorityThread σ = some (t, p)) :
    t < σ.nextTid := by
  unfold getHighestPriorityThread at hs
  split at hs
  · cases hs
  · next q _ =>
    split at hs
    · next u hnext =>
      obtain ⟨rfl, -⟩ : u = t ∧ q = p := by simpa using hs
      exact h.thread_of_next (w := .ready q) rfl hnext
    · cases hs

theorem rtSchedule (h : Known σ) (hs : LuojiOs.rtSchedule σ = some σ') : Known σ' := by
  have hsched := schedOnly_rtSchedule hs
  unfold LuojiOs.rtSchedule at hs
  split at hs
  · cases hs
  · next c hc =>
    split at hs
    · split at hs
      · cases hs
      · next d p hd =>
        split at hs
        · next hne =>
          obtain rfl := Option.some.inj hs
          have hdk := h.getHighest hd
          refine h.of_still hsched.still hsched.nextTid (fun t ht => ?_)
            (closed_switchThread h.closed (fun _ => trivial) (h.current c hc) d) (fun u hu => ?_)
            fun u hu => ?_
          · rwa [hsched.allThread] at ht
          · rw [current_switchThread] at hu
            obtain rfl : d = u := by simpa using hu
            exact hdk
          · rw [statu_switchThread hne] at hu
            split at hu
            · cases hu
            · split at hu
              · cases hu
              · exact Or.inl hu
        · cases hs
    · obtain rfl := Option.some.inj hs
      exact h

theorem threadStart (h : Known σ) (hs : LuojiOs.threadStart σ = some σ') : Known σ' := by
  obtain ⟨t, p, hget, rfl⟩ := threadStart_cases hs
  have ht := h.getHighest hget
  have hsched := schedOnly_rtScheduleRemoveThread t σ
  refine h.of_still (still_threadStart hs) hsched.nextTid (fun u hu => ?_)
    (closed_rtScheduleRemoveThread h.closed t) (fun c hc => ?_) fun u hu => ?_
  · have : u ∈ (rtScheduleRemoveThread t σ).allThread := hu
    rwa [hsched.allThread] at this
  · obtain rfl : t = c := by simpa using hc
    exact ht
  · by_cases hut : u = t
    · subst hut
      exact Or.inr ht
    · refine Or.inl ?_
      rw [← statu_rtScheduleRemoveThread t σ]
      simpa [Kernel.setStatu, hut] using hu

theorem cleanDeadFrom {fuel : ℕ} {pos n : TNode} (h : Known σ)
    (hs : LuojiOs.cleanDeadFrom fuel pos n σ = some σ') : Known σ' := by
  induction fuel generalizing pos n σ with
  | zero => cases hs
  | succ fuel ih =>
      cases pos with
      | dead =>
          obtain rfl := Option.some.inj hs
          exact h
      | thread t =>
          refine ih (σ := cleanThread t σ) ?_ hs
          exact ⟨h.closed.remove _, h.current, fun u hu => h.live u (List.mem_filter.mp hu).1,
            h.blocked, h.timer, h.func⟩
      | ready p | semWait s | mbRecv m | mbSend m => cases hs

theorem park (h : Known σ) {w : TNode} (hw : w.isWait = true) (ht : t < σ.nextTid) (k : After) :
    Known (park t w k σ) := by
  have hwk : w.known σ.nextTid := by
    cases w <;> simp_all [TNode.isWait, TNode.known]
  have htk : (TNode.thread t).known σ.nextTid := ht
  have hnext : (LuojiOs.rtThreadSuspend t .suspend (σ.setError t RT_EOK)).1.nextTid =
      σ.nextTid := (onlyThread_rtThreadSuspend t .suspend (σ.setError t RT_EOK)).nextTid
  have hsus : Known (suspendOn w t (σ.setError t RT_EOK)) := by
    refine Known.emit (((h.setError t RT_EOK).rtThreadSuspend ht .suspend).tlinks ?_) _
    rw [hnext]
    have hclosed : (σ.setError t RT_EOK).tlinks.Closed (TNode.known σ.nextTid) := h.closed
    exact (closed_rtThreadSuspend hclosed t .suspend).insertBefore hwk htk
  have ht' : t < (suspendOn w t (σ.setError t RT_EOK)).nextTid := by
    rw [(onlyThread_suspendOn w t _).nextTid]
    exact ht
  cases harm : k.arm with
  | none =>
      rw [park_of_not_arm harm]
      exact hsus.setFrame t _
  | some time =>
      rw [park_of_arm harm]
      exact Known.setFrame ((hsus.setInitTick ht' time).rtTimerStart ht') t _

/-- A mailbox call on the ring has ended, and a waiting thread has been woken. -/
theorem put (h : Known σ) {m : ℕ} {x : Mailbox} {value : BitVec 32} {r : Kernel × Bool}
    (hr : mbPut m x value σ = some r) : Known r.1 := by
  rcases mbPut_cases hr with ⟨-, rfl⟩ | ⟨u, -, hnext, rfl⟩
  · exact (h.setMb m _).emit _
  · exact Known.rtThreadResume (((h.setMb m _).emit _).emit _)
      (h.thread_of_next (w := .mbRecv m) rfl hnext)

theorem take (h : Known σ) {m : ℕ} {x : Mailbox} {r : Kernel × Bool}
    (hr : mbTake m x σ = some r) : Known r.1 := by
  rcases mbTake_cases hr with ⟨-, rfl⟩ | ⟨u, -, hnext, rfl⟩
  · exact (h.setMb m _).emit _
  · exact Known.wakeThread (((h.setMb m _).emit _).emit _)
      (h.thread_of_next (w := .mbSend m) rfl hnext)

theorem finish {r : Kernel × Bool} (h : Known r.1) (t : Tid) (o : Obs) :
    Known (finish t o r) := by
  obtain ⟨σ, b⟩ := r
  cases b with
  | false => exact h.emit o
  | true => exact h.setFrame t _

theorem turn (h : Known σ) (ht : t < σ.nextTid) {k : After} (hT : Turn t k σ σ') : Known σ' := by
  cases hT with
  | sendFull hx hfull => exact (h.setError t _).emit _
  | sendPark d hx hfull htime => exact h.park rfl ht _
  | send hx hne hput => exact (h.put hput).finish t _
  | recvEmpty hx hempty => exact ((h.setError t _).setError t _).emit _
  | recvPark d hx hempty htime => exact h.park rfl ht _
  | recv hx hne htake => exact (h.take htake).finish t _

theorem clock (h : Known σ) (ha : ClockAct σ₀ e σ σ') : Known σ' := by
  refine h.same ha.still ?_
  cases ha with
  | timerInit he => exact sameSched_rtTimerInit _ _ _ _ _
  | timerStart he => exact sameSched_rtTimerStart _ _
  | timerStop he => exact sameSched_rtTimerStop _ _
  | tickIncrease he => exact ⟨rfl, rfl, rfl, rfl, rfl, rfl, rfl⟩
  | countDown he hc =>
      unfold countDown
      dsimp only
      split <;> exact ⟨rfl, rfl, rfl, rfl, rfl, rfl, rfl⟩
  | @callback fuel k ops _ he hdue hfunc =>
      have hunlink : SameSched σ { σ with timerLinks := σ.timerLinks.remove (.timer k) } :=
        ⟨rfl, rfl, rfl, rfl, rfl, rfl, rfl⟩
      exact (hunlink.trans (sameSched_runTimerOps ops _)).trans (sameSched_setTimer k _ _)

theorem object (h : Known σ) (ha : ObjectAct σ₀ e σ σ') : Known σ' := by
  cases ha with
  | @semInit s value he hs =>
      have hhead : (TNode.semWait s).known σ₀.nextTid := trivial
      exact ((h.tlinks (h.closed.init hhead)).setSem _ _).emit _
  | @mbInit m size he hm =>
      have hrecv : (TNode.mbRecv m).known σ₀.nextTid := trivial
      have hsend : (TNode.mbSend m).known σ₀.nextTid := trivial
      exact (h.tlinks ((h.closed.init hrecv).init hsend)).setMb _ _
  | semTaken he hx hpos => exact ((h.setSem _ _).emit _).emit _
  | semRefused he hx hzero => exact h.emit _
  | report ho => exact h.emit _

theorem join (h : Known σ) (name : String) (stackSize priority runtick : BitVec 32)
    (mallocOk stackOk : Bool) :
    Known (threadJoinInit name stackSize priority runtick mallocOk stackOk σ).1 := by
  rcases threadJoinInit_joined name stackSize priority runtick mallocOk stackOk σ with
    heq | hj
  · rw [heq]
    exact h
  · have hlt : ∀ {u}, u < σ.nextTid → u < σ.nextTid + 1 := Nat.lt_succ_of_lt
    have hself : (TNode.thread σ.nextTid).known (σ.nextTid + 1) := Nat.lt_succ_self _
    have hinit : (σ.tlinks.init (.thread σ.nextTid)).Closed (TNode.known (σ.nextTid + 1)) := by
      refine Links.Closed.init (h.closed.mono fun n hn => ?_) hself
      cases n with
      | thread u => exact hlt hn
      | _ => trivial
    refine ⟨?_, fun c hc => ?_, fun u hu => ?_, fun u hu => ?_, fun u hu => ?_,
      fun k u hk => ?_⟩
    · rw [hj.nextTid]
      rcases hj.tlinks with hl | ⟨p, hl⟩
      · rw [hl]
        exact hinit
      · have hready : (TNode.ready p).known (σ.nextTid + 1) := trivial
        rw [hl]
        exact hinit.insertBefore hready hself
    · rw [hj.current] at hc
      rw [hj.nextTid]
      exact hlt (h.current c hc)
    · rw [hj.allThread] at hu
      rw [hj.nextTid]
      rcases List.mem_cons.mp hu with rfl | hu
      · exact Nat.lt_succ_self _
      · exact hlt (h.live u hu)
    · rw [hj.statu] at hu
      rw [hj.nextTid]
      by_cases hut : u = σ.nextTid
      · rw [hut]
        exact Nat.lt_succ_self _
      · exact hlt (h.blocked u (by simpa [hut] using hu))
    · rw [hj.timer] at hu
      rw [hj.nextTid]
      by_cases hut : u = σ.nextTid
      · rw [hut]
        exact Nat.lt_succ_self _
      · exact hlt (h.timer u (by simpa [hut] using hu))
    · rw [hj.timer] at hk
      rw [hj.nextTid]
      by_cases hkt : k = .ofThread σ.nextTid
      · subst hkt
        obtain rfl : σ.nextTid = u := by simpa using hk
        exact Nat.lt_succ_self _
      · exact hlt (h.func k u (by simpa [hkt] using hk))

/-- `rt_thread_timeout` runs for a thread that a timer names. -/
theorem expire (h : Known σ) (k : TimerId) (ht : t < σ.nextTid) : Known (fireThread k t σ) := by
  have h₁ : Known (Kernel.setError t (-RT_ETIMEOUT)
      { σ with timerLinks := σ.timerLinks.remove (.timer k) }) :=
    (h.timerLinks (σ.timerLinks.remove (.timer k))).setError t _
  have h₂ : Known (unlinkThread t (Kernel.setError t (-RT_ETIMEOUT)
      { σ with timerLinks := σ.timerLinks.remove (.timer k) })) :=
    h₁.tlinks (h.closed.remove _)
  have h₃ := h₂.only (t := t) ht (schedOnly_rtScheduleInsertThread t _).still
    (onlyThread_rtScheduleInsertThread t _)
    (closed_rtScheduleInsertThread h₂.closed (fun _ => trivial) ht)
  exact Known.same (h₃.emit (.expired t)) (still_flagOff k _) (sameSched_setTimer k _ _)

theorem act (h : Known σ) (ha : Act σ₀ e σ σ') : Known σ' := by
  cases ha with
  | clock ha => exact h.clock ha
  | object ha => exact h.object ha
  | join he => exact h.join _ _ _ _ _ _
  | start he hc hs => exact h.threadStart hs
  | schedule hc hk hs => exact (h.setFrame _ _).rtSchedule hs
  | preempt he hs => exact h.rtSchedule hs
  | suspend he hcall ht hs =>
      unfold suspendDirect
      split
      · exact (h.rtThreadSuspend (h.live _ ht) _).setFrame _ _
      · exact h.rtThreadSuspend (h.live _ ht) _
  | resume he hs => exact h.wakeThread (h.blocked _ hs)
  | @sleep t tick _ he hc hcall hs =>
      simp only [rtThreadSleep, hc, Option.some.injEq] at hs
      subst hs
      have ht := h.current t hc
      have hsus := (h.setInitTick ht tick).rtThreadSuspend ht .sleep
      refine Known.setFrame (hsus.rtTimerStart ?_) t _
      rw [(onlyThread_rtThreadSuspend t .sleep _).nextTid]
      exact ht
  | exit he hc hcall => exact (h.closeThread (h.current _ hc)).setFrame _ _
  | enter hc hcall => exact h.setFrame _ _
  | kill he ht hc => exact h.closeThread (h.live _ ht)
  | killSelf he hcall hfind hc hs =>
      exact ((h.closeThread (h.current _ hc)).setFrame _ _).rtSchedule hs
  | clean he hs => exact h.cleanDeadFrom hs
  | expire he hdue hfunc => exact h.expire _ (h.func _ _ hfunc)
  | semPark he hc hcall hw => exact h.park rfl (h.current _ hc) _
  | @release s r he hr =>
      obtain ⟨x, -, ⟨-, rfl⟩ | ⟨u, -, hnext, rfl⟩⟩ := rtSemRelease_cases hr
      · exact (h.setSem _ _).emit _
      · exact Known.rtThreadResume ((h.emit _).emit _)
          (h.thread_of_next (w := .semWait s) rfl hnext)
  | post he hx hne hr => exact h.put hr
  | turn hc hcall hb hk hT => exact h.turn (h.current _ hc) hT
  | rerunTurn he hc hf hk hw herr hb hT =>
      exact Known.turn ((h.emit _).setFrame _ _) (h.current _ hc) hT
  | rerunRet he hc hf hw ho herr => exact ((h.emit _).setFrame _ _).emit _
  | @returned t r he hc hf =>
      cases r with
      | none => exact h.setFrame t .run
      | some o => exact (h.setFrame t .run).emit o

end Known

theorem known_threadInit (tick : BitVec 32) : Known (threadInit tick) where
  closed := ⟨fun n hn => ⟨hn, hn⟩, fun n _ => ⟨rfl, rfl⟩⟩
  current c hc := by simp [threadInit] at hc
  live t ht := by simp [threadInit] at ht
  blocked t ht := by simp [threadInit, Statu.isBlocked] at ht
  timer t ht := by simp [threadInit] at ht
  func k t hk := by simp [threadInit] at hk

end LuojiOs
