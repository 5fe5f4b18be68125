import LuojiOs.Scheduler.Links

/-!
# What the scheduler functions do to the lists

For each function of the scheduler, one lemma that it keeps `LinkInv`, with the
move it makes, and one that says which parts of the state it leaves alone.
-/

namespace LuojiOs

open CircularList

/-! ## What a function leaves alone -/

/-- Nothing but the lists, the status words, the current thread and the bitmap
differs. -/
structure SchedOnly (σ σ' : Kernel) : Prop where
  timerLinks : σ'.timerLinks = σ.timerLinks
  allThread : σ'.allThread = σ.allThread
  nextTid : σ'.nextTid = σ.nextTid
  threadIdIndex : σ'.threadIdIndex = σ.threadIdIndex
  thread : σ'.thread = σ.thread
  error : σ'.error = σ.error
  remainingTick : σ'.remainingTick = σ.remainingTick
  frame : σ'.frame = σ.frame
  timer : σ'.timer = σ.timer
  sem : σ'.sem = σ.sem
  mb : σ'.mb = σ.mb
  systemTick : σ'.systemTick = σ.systemTick
  fault : σ'.fault = σ.fault
  trace : σ'.trace = σ.trace

theorem SchedOnly.refl (σ : Kernel) : SchedOnly σ σ := by
  constructor <;> rfl

theorem SchedOnly.trans {σ₁ σ₂ σ₃ : Kernel} (h : SchedOnly σ₁ σ₂) (h' : SchedOnly σ₂ σ₃) :
    SchedOnly σ₁ σ₃ where
  timerLinks := h'.timerLinks.trans h.timerLinks
  allThread := h'.allThread.trans h.allThread
  nextTid := h'.nextTid.trans h.nextTid
  threadIdIndex := h'.threadIdIndex.trans h.threadIdIndex
  thread := h'.thread.trans h.thread
  error := h'.error.trans h.error
  remainingTick := h'.remainingTick.trans h.remainingTick
  frame := h'.frame.trans h.frame
  timer := h'.timer.trans h.timer
  sem := h'.sem.trans h.sem
  mb := h'.mb.trans h.mb
  systemTick := h'.systemTick.trans h.systemTick
  fault := h'.fault.trans h.fault
  trace := h'.trace.trans h.trace

theorem schedOnly_rtScheduleRemoveThread (t : Tid) (σ : Kernel) :
    SchedOnly σ (rtScheduleRemoveThread t σ) := by
  rw [rtScheduleRemoveThread_eq]
  constructor <;> rfl

theorem schedOnly_rtScheduleInsertThread (t : Tid) (σ : Kernel) :
    SchedOnly σ (rtScheduleInsertThread t σ) := by
  by_cases h : σ.currentThread = some t
  · rw [rtScheduleInsertThread_current h]
    constructor <;> rfl
  · rw [rtScheduleInsertThread_other h]
    constructor <;> rfl

theorem schedOnly_switchThread (c dst : Tid) (σ : Kernel) :
    SchedOnly σ (switchThread c dst σ) := by
  unfold switchThread
  dsimp only
  refine SchedOnly.trans ?_ (schedOnly_rtScheduleRemoveThread dst _)
  split
  · exact SchedOnly.trans (by constructor <;> rfl) (schedOnly_rtScheduleInsertThread c _)
  · constructor <;> rfl

theorem schedOnly_rtSchedule {σ σ' : Kernel} (h : rtSchedule σ = some σ') :
    SchedOnly σ σ' := by
  unfold rtSchedule at h
  split at h
  · cases h
  · split at h
    · split at h
      · cases h
      · split at h
        · cases h
          exact schedOnly_switchThread _ _ σ
        · cases h
    · cases h
      exact SchedOnly.refl σ

theorem statu_rtScheduleRemoveThread (t : Tid) (σ : Kernel) :
    (rtScheduleRemoveThread t σ).statu = σ.statu := by
  rw [rtScheduleRemoveThread_eq]

theorem current_rtScheduleRemoveThread (t : Tid) (σ : Kernel) :
    (rtScheduleRemoveThread t σ).currentThread = σ.currentThread := by
  rw [rtScheduleRemoveThread_eq]

theorem current_rtScheduleInsertThread (t : Tid) (σ : Kernel) :
    (rtScheduleInsertThread t σ).currentThread = σ.currentThread := by
  by_cases h : σ.currentThread = some t
  · rw [rtScheduleInsertThread_current h]
    rfl
  · rw [rtScheduleInsertThread_other h]
    rfl

/-- The status `rt_schedule_insert_thread` gives a thread. -/
def insertStatu (t : Tid) (σ : Kernel) : Statu :=
  if σ.currentThread = some t then .running else .ready

theorem statu_rtScheduleInsertThread (t : Tid) (σ : Kernel) :
    (rtScheduleInsertThread t σ).statu =
      Function.update σ.statu t (insertStatu t σ) := by
  unfold insertStatu
  by_cases h : σ.currentThread = some t
  · rw [rtScheduleInsertThread_current h, if_pos h]
    rfl
  · rw [rtScheduleInsertThread_other h, if_neg h]
    rfl

/-! ## The switch -/

/-- `rt_current_thread = to_thread; to_thread->statu = RT_THREAD_RUNNING` -/
def markRunning (dst : Tid) (σ : Kernel) : Kernel :=
  ({ σ with currentThread := some dst }).setStatu dst .running

theorem switchThread_eq (c dst : Tid) (σ : Kernel) :
    switchThread c dst σ =
      rtScheduleRemoveThread dst
        (if ((markRunning dst σ).statu c).runnable = true then
          rtScheduleInsertThread c (markRunning dst σ)
        else markRunning dst σ) :=
  rfl

theorem switchThread_of_runnable {c dst : Tid} {σ : Kernel} (hne : dst ≠ c)
    (hrun : (σ.statu c).runnable = true) :
    switchThread c dst σ =
      rtScheduleRemoveThread dst (rtScheduleInsertThread c (markRunning dst σ)) := by
  unfold switchThread
  exact congrArg (rtScheduleRemoveThread dst)
    (if_pos (by simpa [Kernel.setStatu, hne.symm] using hrun))

theorem switchThread_of_not_runnable {c dst : Tid} {σ : Kernel} (hne : dst ≠ c)
    (hrun : ¬(σ.statu c).runnable = true) :
    switchThread c dst σ = rtScheduleRemoveThread dst (markRunning dst σ) := by
  unfold switchThread
  exact congrArg (rtScheduleRemoveThread dst)
    (if_neg (by simpa [Kernel.setStatu, hne.symm] using hrun))

theorem current_switchThread (c dst : Tid) (σ : Kernel) :
    (switchThread c dst σ).currentThread = some dst := by
  unfold switchThread
  dsimp only
  rw [current_rtScheduleRemoveThread]
  split
  · rw [current_rtScheduleInsertThread]
    rfl
  · rfl

theorem statu_switchThread {c dst : Tid} {σ : Kernel} (hne : dst ≠ c) (u : Tid) :
    (switchThread c dst σ).statu u =
      if u = dst then .running
      else if u = c ∧ (σ.statu c).runnable = true then .ready
      else σ.statu u := by
  by_cases hrun : (σ.statu c).runnable = true
  · have hins : insertStatu c (markRunning dst σ) = .ready :=
      if_neg (by simpa [markRunning, Kernel.setStatu] using hne)
    rw [switchThread_of_runnable hne hrun, statu_rtScheduleRemoveThread,
      statu_rtScheduleInsertThread, hins]
    by_cases huc : u = c
    · subst huc
      simp [hrun, hne.symm]
    · simp [huc, markRunning, Kernel.setStatu, Function.update_apply]
  · rw [switchThread_of_not_runnable hne hrun, statu_rtScheduleRemoveThread]
    simp [hrun, markRunning, Kernel.setStatu, Function.update_apply]

/-- The rings after a switch from `c` to `dst`. -/
structure Switched (σ : Kernel) (c dst : Tid) (R R' : Rings TNode) : Prop where
  home : ∀ u, R'.home (.thread u) =
    if u = dst then none
    else if u = c ∧ (σ.statu c).runnable = true then
      some (.ready (σ.thread c).currentPriority)
    else R.home (.thread u)
  seq : ∀ w, (∀ p, w ≠ .ready p) → R'.seq w = R.seq w

/-- The last step of a switch.  In `σ₁` the caller is linked again if it is
runnable and `dst` is already marked as running, but still on its ready list. -/
theorem LinkInv.of_requeued {σ σ₁ : Kernel} {R R₁ : Rings TNode} {c dst : Tid} {p : ℕ}
    (h : LinkInv σ R) (hc : σ.currentThread = some c)
    (hdst : R.home (.thread dst) = some (.ready p)) (hne : dst ≠ c)
    (hrep : R₁.Represents σ₁.tlinks) (hbit : Bitmap σ₁.readyPriorityGroup R₁)
    (hsame : SchedOnly σ σ₁) (hcur : σ₁.currentThread = some dst)
    (hstatu : ∀ u, u ≠ dst → u ≠ c → σ₁.statu u = σ.statu u)
    (hready : (σ.statu c).runnable = true → σ₁.statu c = .ready)
    (hkeep : (σ.statu c).runnable = false → σ₁.statu c = σ.statu c)
    (hdststatu : σ₁.statu dst = .running)
    (hhome : ∀ n, R₁.home n = if n = .thread c ∧ (σ.statu c).runnable = true then
      some (.ready (σ.thread c).currentPriority) else R.home n)
    (hseq : ∀ w, (∀ p, w ≠ .ready p) → R₁.seq w = R.seq w) :
    LinkInv (rtScheduleRemoveThread dst σ₁) (R₁.remove (.thread dst)) ∧
      Switched σ c dst R (R₁.remove (.thread dst)) := by
  have hdstall : dst ∈ σ.allThread := h.mem_allThread hdst
  have hcall : c ∈ σ.allThread := (h.current c hc).1
  have hdst₁ : R₁.home (.thread dst) = some (.ready p) := by simp [hhome, hne, hdst]
  have hroot : ∀ w : TNode, w.isThread = false → R₁.home w = none := by
    intro w hw
    have hwc : w ≠ .thread c := by
      rintro rfl
      simp [TNode.isThread] at hw
    simp [hhome, hwc, h.home_head hw]
  have hthread : R₁.seq (.thread dst) = [] := by
    rw [hseq _ (by simp), h.seq_thread]
  have hprio : PriorityOk (σ₁.thread dst) := by
    rw [hsame.thread]
    exact h.priority dst hdstall
  have hgroup := hbit.remove hrep hthread (fun p => hroot (.ready p) rfl) hprio (by
    intro q hq
    rw [hdst₁] at hq
    cases hq
    rw [hsame.thread]
    exact (h.ready dst p hdst).1.symm)
  have hhome' : ∀ u, (R₁.remove (.thread dst)).home (.thread u) =
      if u = dst then none
      else if u = c ∧ (σ.statu c).runnable = true then
        some (.ready (σ.thread c).currentPriority)
      else R.home (.thread u) := by
    intro u
    rw [Rings.home_remove, hhome]
    simp
  -- a thread on a list is the caller, or one that is where it was
  have hcases : ∀ u w, (R₁.remove (.thread dst)).home (.thread u) = some w →
      (u = c ∧ (σ.statu c).runnable = true ∧ w = .ready (σ.thread c).currentPriority) ∨
        (R.home (.thread u) = some w ∧ σ₁.statu u = σ.statu u) := by
    intro u w hu
    rw [hhome'] at hu
    split at hu
    · cases hu
    next hud =>
    split at hu
    · next huc =>
      cases hu
      exact Or.inl ⟨huc.1, huc.2, rfl⟩
    · next huc =>
      refine Or.inr ⟨hu, ?_⟩
      by_cases heq : u = c
      · subst heq
        exact hkeep (eq_false_of_ne_true fun hrun => huc ⟨rfl, hrun⟩)
      · exact hstatu u hud heq
  refine ⟨?_, hhome', fun w hw => ?_⟩
  · rw [rtScheduleRemoveThread_eq]
    refine ⟨hrep.remove hthread, fun n w hn => ?_, fun u q hu => ?_, fun u hu => ?_,
      fun u w hu hw => ?_, fun u hu => ?_, ?_, hgroup, fun d hd => ?_, ?_⟩
    · have hnd : n ≠ .thread dst := by
        rintro rfl
        simp at hn
      rw [Rings.home_remove, if_neg hnd, hhome] at hn
      change _ ∧ ∃ t ∈ σ₁.allThread, _
      rw [hsame.allThread]
      split at hn
      · next hnc =>
        cases hn
        exact ⟨rfl, c, hcall, hnc.1⟩
      · exact h.member n w hn
    · change (σ₁.thread u).currentPriority = q ∧ σ₁.statu u = .ready
      rw [hsame.thread]
      rcases hcases u _ hu with ⟨rfl, hrun, hq⟩ | ⟨hu, hs⟩
      · cases hq
        exact ⟨rfl, hready hrun⟩
      · rw [hs]
        exact h.ready u q hu
    · change σ₁.statu u = .close
      rcases hcases u _ hu with ⟨-, -, hdead⟩ | ⟨hu, hs⟩
      · cases hdead
      · rw [hs]
        exact h.dead u hu
    · change σ₁.statu u = .suspend
      rcases hcases u w hu with ⟨-, -, rfl⟩ | ⟨hu, hs⟩
      · simp [TNode.isWait] at hw
      · rw [hs]
        exact h.wait u w hu hw
    · change u ∈ σ₁.allThread
      rw [hsame.allThread]
      change (σ₁.statu u).isBlocked = true at hu
      by_cases hud : u = dst
      · subst hud
        exact hdstall
      · by_cases huc : u = c
        · subst huc
          exact hcall
        · exact h.blocked u (by rwa [hstatu u hud huc] at hu)
    · change ∀ t ∈ σ₁.allThread, PriorityOk (σ₁.thread t)
      rw [hsame.allThread, hsame.thread]
      exact h.priority
    · change σ₁.currentThread = some d at hd
      rw [hcur] at hd
      cases hd
      change dst ∈ σ₁.allThread ∧ _
      rw [hsame.allThread]
      exact ⟨hdstall, fun _ => by simp⟩
    · change ∀ t ∈ σ₁.allThread, t < σ₁.nextTid
      rw [hsame.allThread, hsame.nextTid]
      exact h.fresh
  · rw [Rings.seq_remove_of_home_ne R₁ (by rw [hdst₁]; simpa using (hw p).symm)]
    exact hseq w hw

theorem LinkInv.switchThread {σ : Kernel} {R : Rings TNode} {c dst : Tid} {p : ℕ}
    (h : LinkInv σ R) (hc : σ.currentThread = some c)
    (hdst : R.home (.thread dst) = some (.ready p)) (hne : dst ≠ c) :
    ∃ R', LinkInv (switchThread c dst σ) R' ∧ Switched σ c dst R R' := by
  by_cases hrun : (σ.statu c).runnable = true
  · have ok : R.CanLink (.ready (σ.thread c).currentPriority) (.thread c) :=
      h.canLink rfl ((h.current c hc).2 hrun)
    rw [switchThread_of_runnable hne hrun,
      rtScheduleInsertThread_other (by simpa [markRunning, Kernel.setStatu] using hne)]
    refine ⟨_, h.of_requeued hc hdst hne (h.represents.insertBefore ok)
      (h.group.append (h.priority c (h.current c hc).1) ok) (by constructor <;> rfl) rfl
      (fun u hu huc => ?_) (fun _ => ?_) (fun he => ?_) ?_ (fun n => ?_) (fun w hw => ?_)⟩
    · simp [markRunning, Kernel.setStatu, hu, huc]
    · simp [Kernel.setStatu]
    · simp [he] at hrun
    · simp [markRunning, Kernel.setStatu, hne]
    · simp [hrun]
    · rw [Rings.seq_append, if_neg (hw _)]
  · rw [switchThread_of_not_runnable hne hrun]
    refine ⟨_, h.of_requeued hc hdst hne h.represents h.group
      (by constructor <;> rfl) rfl (fun u hu _ => ?_) (fun hr => absurd hr hrun)
      (fun _ => ?_) ?_ (fun n => ?_) (fun _ _ => rfl)⟩
    · simp [markRunning, Kernel.setStatu, hu]
    · simp [markRunning, Kernel.setStatu, hne.symm]
    · simp [markRunning, Kernel.setStatu]
    · simp [hrun]

/-- Everything a call of `rt_schedule` can do. -/
theorem LinkInv.rtSchedule_cases {σ σ' : Kernel} {R : Rings TNode} (h : LinkInv σ R)
    (hs : rtSchedule σ = some σ') :
    ∃ c, σ.currentThread = some c ∧
      ((σ.readyPriorityGroup = 0 ∧ σ' = σ) ∨
      ∃ p dst rest, IsLowestBit σ.readyPriorityGroup p ∧
        R.seq (.ready p) = .thread dst :: rest ∧ dst ≠ c ∧
        σ' = LuojiOs.switchThread c dst σ) := by
  unfold rtSchedule at hs
  cases hc : σ.currentThread with
  | none => simp [hc] at hs
  | some c =>
      simp only [hc] at hs
      refine ⟨c, rfl, ?_⟩
      by_cases hg : σ.readyPriorityGroup = 0
      · left
        simp [hg] at hs
        exact ⟨hg, hs.symm⟩
      · right
        rw [if_pos hg] at hs
        obtain ⟨p, hffs, hp⟩ := rtFfs_spec hg
        cases hseq : R.seq (.ready p) with
        | nil => exact absurd hseq ((h.group p hp.lt).mp hp.set)
        | cons x rest =>
            obtain ⟨-, dst, -, rfl⟩ := h.member x _ (R.home_of_seq_eq_cons hseq)
            have hget : getHighestPriorityThread σ = some (dst, p) := by
              simp [getHighestPriorityThread, hffs, h.represents.next_eq_of_seq hseq]
            simp only [hget] at hs
            split at hs
            · next hne => exact ⟨p, dst, rest, hp, hseq, hne, by simpa using hs.symm⟩
            · cases hs

/-- `rt_schedule` keeps the invariant. -/
theorem LinkInv.rtSchedule {σ σ' : Kernel} {R : Rings TNode} (h : LinkInv σ R)
    (hs : rtSchedule σ = some σ') : ∃ R', LinkInv σ' R' ∧
      ∀ w, (∀ p, w ≠ .ready p) → R'.seq w = R.seq w := by
  obtain ⟨c, hc, ⟨-, rfl⟩ | ⟨p, dst, rest, -, hseq, hne, rfl⟩⟩ := h.rtSchedule_cases hs
  · exact ⟨R, h, fun _ _ => rfl⟩
  · obtain ⟨R', h', hsw⟩ := h.switchThread hc (R.home_of_seq_eq_cons hseq) hne
    exact ⟨R', h', hsw.seq⟩

/-! ## Suspending, waking and closing one thread -/

section

variable {σ σ' : Kernel} {R : Rings TNode} {t : Tid}

theorem rtThreadSuspend_of_runs {s : Statu} (hs : σ.statu t = .ready ∨ σ.statu t = .running) :
    rtThreadSuspend t s σ =
      ((rtTimerStop (.ofThread t) ((rtScheduleRemoveThread t σ).setStatu t s)).1, RT_EOK) :=
  if_neg (by rcases hs with hs | hs <;> simp [hs])

theorem rtThreadSuspend_of_not_runs {s : Statu}
    (hs : ¬(σ.statu t = .ready ∨ σ.statu t = .running)) :
    rtThreadSuspend t s σ = (σ, -RT_ERROR) :=
  if_pos (by simpa using hs)

theorem LinkInv.suspend (h : LinkInv σ R) (ht : t ∈ σ.allThread) (s : Statu) :
    LinkInv ((rtScheduleRemoveThread t σ).setStatu t s) (R.remove (.thread t)) := by
  refine (h.removeThread ht).setStatu (by simp) (by simp) (by simp) (fun _ => ?_)
    (fun _ _ => by simp)
  rw [rtScheduleRemoveThread_eq]
  exact ht

theorem LinkInv.rtThreadSuspend (h : LinkInv σ R) (ht : t ∈ σ.allThread) (s : Statu) :
    ∃ R', LinkInv (rtThreadSuspend t s σ).1 R' := by
  by_cases hs : σ.statu t = .ready ∨ σ.statu t = .running
  · rw [rtThreadSuspend_of_runs hs]
    exact ⟨_, (h.suspend ht s).congr (sameSched_rtTimerStop _ _)⟩
  · rw [rtThreadSuspend_of_not_runs hs]
    exact ⟨R, h⟩

theorem LinkInv.wakeThread (h : LinkInv σ R) (ht : t ∈ σ.allThread)
    (hs : ∀ p, R.home (.thread t) ≠ some (.ready p)) :
    ∃ R', LinkInv (wakeThread t σ) R' ∧ Moved R R' t (insertDest t σ) := by
  have hsame := sameSched_rtTimerStop (.ofThread t) (unlinkThread t σ)
  have h₁ := (h.unlink hs).congr hsame
  obtain ⟨R', h', hm⟩ := h₁.insertThread (by rw [hsame.allThread]; exact ht) (by simp)
  refine ⟨R', h', (Moved.remove R t).trans ?_⟩
  have hdest : insertDest t (rtTimerStop (.ofThread t) (unlinkThread t σ)).1 =
      insertDest t σ := by
    unfold insertDest
    rw [hsame.current, hsame.thread]
    rfl
  rwa [hdest] at hm

theorem LinkInv.rtThreadResume (h : LinkInv σ R) (ht : t ∈ σ.allThread) :
    ∃ R', LinkInv (rtThreadResume t σ).1 R' := by
  unfold LuojiOs.rtThreadResume
  split
  · exact ⟨R, h⟩
  · next hs =>
    have hready : σ.statu t ≠ .ready := by
      intro he
      simp [he] at hs
    obtain ⟨R', h', -⟩ := h.wakeThread ht (h.not_ready_of_statu hready)
    exact ⟨R', h'⟩

theorem LinkInv.expireThread (h : LinkInv σ R) (ht : t ∈ σ.allThread)
    (hs : ∀ p, R.home (.thread t) ≠ some (.ready p)) :
    ∃ R', LinkInv (expireThread t σ) R' ∧ Moved R R' t (insertDest t σ) := by
  have h₁ := (h.congr (sameSched_setError t (-RT_ETIMEOUT) σ)).unlink hs
  obtain ⟨R', h', hm⟩ := h₁.insertThread (t := t) ht (by simp)
  exact ⟨R', h'.congr (sameSched_emit _ _), (Moved.remove R t).trans hm⟩

/-- `rt_schedule_remove_thread` and `rt_timer_stop` do not look at status words,
so `closeThread` may as well set its own last. -/
theorem closeThread_eq (t : Tid) (σ : Kernel) :
    closeThread t σ =
      { (rtScheduleRemoveThread t (rtTimerStop (.ofThread t) σ).1).setStatu t .close with
        tlinks := (σ.tlinks.remove (.thread t)).insertAfter .dead (.thread t) } := by
  unfold closeThread rtTimerStop
  dsimp only
  split
  · next hf =>
    have hf' : (σ.timer (.ofThread t)).flag ≠ .activated := hf
    rw [if_pos hf', rtScheduleRemoveThread_eq, rtScheduleRemoveThread_eq]
    rfl
  · next hf =>
    have hf' : ¬(σ.timer (.ofThread t)).flag ≠ .activated := hf
    rw [if_neg hf', rtScheduleRemoveThread_eq, rtScheduleRemoveThread_eq]
    rfl

theorem LinkInv.closeThread (h : LinkInv σ R) (ht : t ∈ σ.allThread) :
    ∃ R', LinkInv (closeThread t σ) R' ∧ Moved R R' t (some .dead) := by
  have hsame := sameSched_rtTimerStop (.ofThread t) σ
  have h₁ := (h.congr hsame).suspend (t := t) (by rw [hsame.allThread]; exact ht) .close
  have hlinks : ((rtScheduleRemoveThread t (rtTimerStop (.ofThread t) σ).1).setStatu t
      .close).tlinks = σ.tlinks.remove (.thread t) := by
    rw [rtScheduleRemoveThread_eq]
    change (rtTimerStop (.ofThread t) σ).1.tlinks.remove _ = _
    rw [hsame.tlinks]
  have hfree : (R.remove (.thread t)).home (.thread t) = none := by simp
  have hmem : t ∈ ((rtScheduleRemoveThread t (rtTimerStop (.ofThread t) σ).1).setStatu t
      .close).allThread := by
    rw [rtScheduleRemoveThread_eq]
    change t ∈ (rtTimerStop (.ofThread t) σ).1.allThread
    rw [hsame.allThread]
    exact ht
  have h₂ := h₁.prependDead hmem hfree (by simp [Kernel.setStatu])
  rw [hlinks, ← closeThread_eq] at h₂
  exact ⟨_, h₂, (Moved.remove R t).trans (Moved.prepend _ _)⟩

/-- Suspending the current thread on a wait list. -/
theorem LinkInv.suspendOn (h : LinkInv σ R) {w : TNode} (hw : w.isWait = true)
    (ht : t ∈ σ.allThread) (hs : σ.statu t = .ready ∨ σ.statu t = .running) :
    ∃ R', LinkInv (suspendOn w t σ) R' ∧ Moved R R' t (some w) ∧
      R'.seq w = (R.seq w).erase (.thread t) ++ [.thread t] := by
  have hsame := sameSched_rtTimerStop (.ofThread t)
    ((rtScheduleRemoveThread t σ).setStatu t .suspend)
  have h₁ := (h.suspend ht .suspend).congr hsame
  have hmem : t ∈ (rtTimerStop (.ofThread t)
      ((rtScheduleRemoveThread t σ).setStatu t .suspend)).1.allThread := by
    rw [hsame.allThread, rtScheduleRemoveThread_eq]
    exact ht
  have hfree : (R.remove (.thread t)).home (.thread t) = none := by simp
  have h₂ := h₁.appendOn hw hmem hfree (by
    rw [hsame.statu]
    simp [Kernel.setStatu])
  unfold LuojiOs.suspendOn
  rw [rtThreadSuspend_of_runs hs]
  exact ⟨_, h₂.congr (sameSched_emit _ _), (Moved.remove R t).trans (Moved.append _ _),
    by simp⟩

theorem LinkInv.cleanThread (h : LinkInv σ R)
    (hdead : R.home (.thread t) = some .dead) (hcur : σ.currentThread ≠ some t) :
    LinkInv (cleanThread t σ) (R.remove (.thread t)) := by
  have h₁ := h.unlink (t := t) (by simp [hdead])
  refine ⟨h₁.represents, fun n w hn => ?_, h₁.ready, h₁.dead, h₁.wait, fun u hu => ?_,
    fun u hu => ?_, h₁.group, fun c hc => ?_, fun u hu => ?_⟩
  · obtain ⟨hw, u, hu, rfl⟩ := h₁.member n w hn
    have hut : u ≠ t := by
      rintro rfl
      simp at hn
    exact ⟨hw, u, List.mem_filter.mpr ⟨hu, by simpa using hut⟩, rfl⟩
  · have hut : u ≠ t := by
      rintro rfl
      have hs : (cleanThread u σ).statu u = .close := h.dead u hdead
      simp [hs, Statu.isBlocked] at hu
    exact List.mem_filter.mpr ⟨h₁.blocked u hu, by simpa using hut⟩
  · exact h₁.priority u (List.mem_filter.mp hu).1
  · have hct : c ≠ t := by
      rintro rfl
      exact hcur hc
    exact ⟨List.mem_filter.mpr ⟨(h₁.current c hc).1, by simpa using hct⟩,
      (h₁.current c hc).2⟩
  · exact h₁.fresh u (List.mem_filter.mp hu).1

/-! ## Creating the threads and starting the first one -/

theorem LinkInv.setCurrent (h : LinkInv σ R) (ht : t ∈ σ.allThread)
    (hfree : R.home (.thread t) = none) :
    LinkInv { σ with currentThread := some t } R :=
  { h with
    current := by
      rintro c ⟨rfl⟩
      exact ⟨ht, fun _ => hfree⟩ }

/-- The first thread of the ready list that the bitmap designates. -/
theorem LinkInv.getHighest_cases (h : LinkInv σ R) {p : ℕ}
    (hs : getHighestPriorityThread σ = some (t, p)) :
    IsLowestBit σ.readyPriorityGroup p ∧ ∃ rest, R.seq (.ready p) = .thread t :: rest := by
  unfold getHighestPriorityThread at hs
  by_cases hg : σ.readyPriorityGroup = 0
  · rw [hg] at hs
    simp [rtFfs] at hs
  · obtain ⟨q, hffs, hq⟩ := rtFfs_spec hg
    rw [hffs] at hs
    cases hseq : R.seq (.ready q) with
    | nil => exact absurd hseq ((h.group q hq.lt).mp hq.set)
    | cons x rest =>
        obtain ⟨-, u, -, rfl⟩ := h.member x _ (R.home_of_seq_eq_cons hseq)
        simp only [h.represents.next_eq_of_seq hseq, Option.some.injEq, Prod.mk.injEq] at hs
        obtain ⟨rfl, rfl⟩ := hs
        exact ⟨hq, rest, hseq⟩

theorem threadStart_cases (hs : threadStart σ = some σ') :
    ∃ t p, getHighestPriorityThread σ = some (t, p) ∧
      σ' = { (rtScheduleRemoveThread t σ).setStatu t .running with
        currentThread := some t } := by
  unfold threadStart at hs
  split at hs
  · cases hs
  · next t p hget =>
    refine ⟨t, p, hget, ?_⟩
    have := Option.some.inj hs
    rw [← this, rtScheduleRemoveThread_eq, rtScheduleRemoveThread_eq]
    rfl

theorem LinkInv.threadStart (h : LinkInv σ R) (hs : threadStart σ = some σ') :
    ∃ R', LinkInv σ' R' := by
  obtain ⟨t, p, hget, rfl⟩ := threadStart_cases hs
  obtain ⟨-, rest, hseq⟩ := h.getHighest_cases hget
  have ht := h.mem_allThread (R.home_of_seq_eq_cons hseq)
  refine ⟨_, (h.suspend ht .running).setCurrent ?_ (by simp)⟩
  rw [rtScheduleRemoveThread_eq]
  exact ht

theorem LinkInv.not_mem_of_fresh (h : LinkInv σ R) : σ.nextTid ∉ σ.allThread :=
  fun hm => Nat.lt_irrefl _ (h.fresh _ hm)

theorem LinkInv.home_fresh (h : LinkInv σ R) (ht : t ∉ σ.allThread) :
    R.home (.thread t) = none := by
  cases hh : R.home (.thread t) with
  | none => rfl
  | some w => exact absurd (h.mem_allThread hh) ht

/-- What `thread_join_init` does: it refuses, it creates a thread at the end of a
ready list, or it writes outside the table. -/
theorem threadJoinInit_cases (name : String) (stackSize priority runtick : BitVec 32)
    (mallocOk stackOk : Bool) (σ : Kernel) :
    let r := threadJoinInit name stackSize priority runtick mallocOk stackOk σ
    let p := priorityByte priority
    r.1 = σ ∨ (priority.toInt ≤ (RT_THREAD_PRIORITY_MAX : ℤ) - 1 ∧ 32 ≤ p) ∨
      p < 32 ∧
      r.1.allThread = σ.nextTid :: σ.allThread ∧ r.1.nextTid = σ.nextTid + 1 ∧
      (∃ x, x.currentPriority = p ∧ x.numberMask = priorityMask p ∧
        r.1.thread = Function.update σ.thread σ.nextTid x) ∧
      r.1.statu = Function.update σ.statu σ.nextTid .ready ∧
      r.1.error = Function.update σ.error σ.nextTid RT_EOK ∧
      r.1.frame = Function.update σ.frame σ.nextTid .run ∧
      r.1.timer = Function.update σ.timer (.ofThread σ.nextTid)
        ⟨.noActivated, .rtThreadTimeout σ.nextTid, 0, 0⟩ ∧
      r.1.currentThread = σ.currentThread ∧
      r.1.readyPriorityGroup = σ.readyPriorityGroup ||| priorityMask p ∧
      r.1.tlinks = (σ.tlinks.init (.thread σ.nextTid)).insertBefore (.ready p)
        (.thread σ.nextTid) ∧
      r.1.timerLinks = σ.timerLinks.init (.timer (.ofThread σ.nextTid)) ∧
      r.1.sem = σ.sem ∧ r.1.mb = σ.mb ∧ r.1.trace = σ.trace ∧
      r.1.systemTick = σ.systemTick ∧ r.1.fault = σ.fault := by
  intro r p
  by_cases hp : priority.toInt ≤ (RT_THREAD_PRIORITY_MAX : ℤ) - 1 ∧ 32 ≤ p
  · exact Or.inr (Or.inl hp)
  by_cases hok : ¬priority.toInt > (RT_THREAD_PRIORITY_MAX : ℤ) - 1 ∧ mallocOk = true ∧
      stackSize ≠ 0 ∧ stackOk = true
  · obtain ⟨h1, h2, h3, h4⟩ := hok
    have hp32 : p < 32 := by
      by_contra hge
      exact hp ⟨Int.not_lt.mp h1, by omega⟩
    have hlt : priorityByte priority < RT_THREAD_PRIORITY_MAX := hp32
    refine Or.inr (Or.inr ⟨hp32, ?_⟩)
    have hr : r = threadJoinInit name stackSize priority runtick mallocOk stackOk σ := rfl
    rw [threadJoinInit, if_neg h1, if_neg (by simp [h2]), if_neg h3,
      if_neg (by simp [h4])] at hr
    dsimp only at hr
    rw [if_pos hlt] at hr
    rw [hr]
    refine ⟨rfl, rfl, ⟨_, rfl, rfl, rfl⟩, rfl, rfl, rfl, rfl, rfl, ?_, rfl, rfl, rfl, rfl, rfl,
      rfl, rfl⟩
    simp [Kernel.setStatu, rtTimerInit, Kernel.setTimer, Kernel.setFrame, Kernel.setError]
    rfl
  · left
    change (threadJoinInit name stackSize priority runtick mallocOk stackOk σ).1 = σ
    unfold threadJoinInit
    split
    · rfl
    · split
      · rfl
      · split
        · rfl
        · split
          · rfl
          · simp_all

theorem LinkInv.threadJoinInit (h : LinkInv σ R) {name : String}
    {stackSize priority runtick : BitVec 32} {mallocOk stackOk : Bool}
    (hp : (RT_THREAD_PRIORITY_MAX : ℤ) - 1 < priority.toInt ∨ priorityByte priority < 32) :
    (threadJoinInit name stackSize priority runtick mallocOk stackOk σ).1 = σ ∨
      ∃ R', LinkInv (threadJoinInit name stackSize priority runtick mallocOk stackOk σ).1 R' ∧
        Moved R R' σ.nextTid (some (.ready (priorityByte priority))) := by
  rcases threadJoinInit_cases name stackSize priority runtick mallocOk stackOk σ with
    heq | hge | ⟨hlt, hall, hnext, ⟨x, hx, hxm, hthread⟩, hstatu, -, -, -, hcur, hgroup, hlinks,
      -, -⟩
  · exact Or.inl heq
  · omega
  · right
    have hnew := h.not_mem_of_fresh
    have hfree := h.home_fresh hnew
    have hne : ∀ u ∈ σ.allThread, u ≠ σ.nextTid := fun u hu he => hnew (he ▸ hu)
    have hxok : PriorityOk x := ⟨by rw [hx]; exact hlt, by rw [hxm, hx]⟩
    have ok : R.CanLink (.ready (priorityByte priority)) (.thread σ.nextTid) :=
      h.canLink rfl hfree
    refine ⟨R.append _ _ ok, ⟨?_, fun n w hn => ?_, fun u q hu => ?_, fun u hu => ?_,
      fun u w hu hw => ?_, fun u hu => ?_, fun u hu => ?_, ?_, fun c hc => ?_, fun u hu => ?_⟩,
      Moved.append R ok⟩
    · rw [hlinks]
      exact (h.represents.init hfree (h.seq_thread _)).insertBefore ok
    · rw [hall]
      by_cases hnt : n = .thread σ.nextTid
      · subst hnt
        have hw : TNode.ready (priorityByte priority) = w := by simpa using hn
        exact ⟨hw ▸ rfl, σ.nextTid, by simp, rfl⟩
      · obtain ⟨hw, u, hu, rfl⟩ := h.member n w (by simpa [hnt] using hn)
        exact ⟨hw, u, by simp [hu], rfl⟩
    · rw [hthread, hstatu]
      by_cases hut : u = σ.nextTid
      · subst hut
        have hq : priorityByte priority = q := by simpa using hu
        simp [hx, hq]
      · simpa [hut] using h.ready u q (by simpa [hut] using hu)
    · have hut : u ≠ σ.nextTid := by
        rintro rfl
        simp at hu
      rw [hstatu, Function.update_of_ne hut]
      exact h.dead u (by simpa [hut] using hu)
    · have hut : u ≠ σ.nextTid := by
        rintro rfl
        have hwv : TNode.ready (priorityByte priority) = w := by simpa using hu
        simp [← hwv, TNode.isWait] at hw
      rw [hstatu, Function.update_of_ne hut]
      exact h.wait u w (by simpa [hut] using hu) hw
    · rw [hall]
      by_cases hut : u = σ.nextTid
      · subst hut
        exact List.mem_cons_self
      · rw [hstatu, Function.update_of_ne hut] at hu
        exact List.mem_cons_of_mem _ (h.blocked u hu)
    · rw [hthread]
      rw [hall] at hu
      rcases List.mem_cons.mp hu with rfl | hu
      · simpa using hxok
      · rw [Function.update_of_ne (hne u hu)]
        exact h.priority u hu
    · rw [hgroup]
      have hb := h.group.append hxok (t := σ.nextTid) (by rwa [hx])
      rw [hxm] at hb
      simpa only [hx] using hb
    · rw [hcur] at hc
      obtain ⟨hcall, hrun⟩ := h.current c hc
      rw [hall, hstatu, Function.update_of_ne (hne c hcall), Rings.home_append,
        if_neg (by simpa using hne c hcall)]
      exact ⟨by simp [hcall], hrun⟩
    · rw [hall] at hu
      rw [hnext]
      rcases List.mem_cons.mp hu with rfl | hu
      · exact Nat.lt_succ_self _
      · exact Nat.lt_succ_of_lt (h.fresh u hu)

end

end LuojiOs
