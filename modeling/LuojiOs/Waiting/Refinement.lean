import LuojiOs.Waiting.View

/-!
# The kernel refines the waiting protocol

`view σ R` is the abstract state of a kernel whose pointers link the rings `R`.
`act_refines` shows act by act that the kernel keeps its lists and moves as the
abstract machine does.
-/

namespace LuojiOs

open CircularList

/-! ## The abstraction -/

def TNode.tid : TNode → Option Tid
  | .thread t => some t
  | _ => none

def tids (l : List TNode) : List Tid :=
  l.filterMap TNode.tid

def TimerFlag.isActivated : TimerFlag → Bool
  | .activated => true
  | .noActivated => false

theorem TimerFlag.isActivated_iff {f : TimerFlag} : f.isActivated = true ↔ f = .activated := by
  cases f <;> simp [isActivated]

/-- The timer of `t` runs. -/
def Kernel.armed (σ : Kernel) (t : Tid) : Bool :=
  (σ.timer (.ofThread t)).flag.isActivated

def view (σ : Kernel) (R : Rings TNode) : View where
  live := σ.allThread
  next := σ.nextTid
  current := σ.currentThread
  thr t := ⟨σ.statu t, R.home (.thread t), σ.frame t, σ.error t, σ.armed t⟩
  queue w := if w.isWait = true then tids (R.seq w) else []
  sem := σ.sem
  mb := σ.mb
  trace := σ.trace

/-- The object a wait list belongs to has been initialised. -/
def TNode.born (σ : Kernel) : TNode → Bool
  | .semWait s => (σ.sem s).isSome
  | .mbRecv m | .mbSend m => (σ.mb m).isSome
  | _ => true

/-- What every run keeps true of the lists and of the timers of threads. -/
structure BaseInv (σ : Kernel) (R : Rings TNode) : Prop where
  links : LinkInv σ R
  timers : TimerInv σ
  born : ∀ w : TNode, w.isWait = true → w.born σ = false → R.seq w = []

theorem tids_erase (t : Tid) (l : List TNode) :
    tids (l.erase (.thread t)) = (tids l).erase t := by
  induction l with
  | nil => rfl
  | cons x l ih =>
      by_cases hx : x = .thread t
      · subst hx
        simp [tids, TNode.tid]
      · rw [List.erase_cons_tail (by simpa using hx)]
        cases x with
        | thread u =>
            have hut : u ≠ t := by
              rintro rfl
              exact hx rfl
            have hcons : tids (.thread u :: l.erase (.thread t)) =
                u :: tids (l.erase (.thread t)) := rfl
            have hcons' : tids (.thread u :: l) = u :: tids l := rfl
            rw [hcons, hcons', ih, List.erase_cons_tail (by simpa using hut)]
        | ready | dead | semWait | mbRecv | mbSend => exact ih

theorem tids_concat (l : List TNode) (t : Tid) : tids (l ++ [.thread t]) = tids l ++ [t] := by
  simp [tids, TNode.tid]

theorem mem_tids {l : List TNode} {t : Tid} : t ∈ tids l ↔ .thread t ∈ l := by
  unfold tids
  rw [List.mem_filterMap]
  constructor
  · rintro ⟨x, hx, ht⟩
    cases x <;> simp_all [TNode.tid]
  · exact fun h => ⟨_, h, rfl⟩

section

variable {σ σ' : Kernel} {R R' : Rings TNode} {t : Tid}

theorem queue_of_isWait {w : TNode} (hw : w.isWait = true) :
    (view σ R).queue w = tids (R.seq w) :=
  if_pos hw

/-- An empty ring is an empty queue: the members are all threads. -/
theorem LinkInv.queue_eq_nil (h : LinkInv σ R) {w : TNode} (hw : w.isWait = true)
    (hq : σ.tlinks.isEmpty w = true) : (view σ R).queue w = [] := by
  rw [queue_of_isWait hw, (h.isEmpty_iff (TNode.isThread_of_isWait hw)).mp hq]
  rfl

theorem LinkInv.seq_of_next (h : LinkInv σ R) {w : TNode} (hw : w.isWait = true)
    (hq : σ.tlinks.isEmpty w = false) (hnext : σ.tlinks.next w = .thread t) :
    ∃ rest, R.seq w = .thread t :: rest := by
  cases hseq : R.seq w with
  | nil =>
      have := (h.isEmpty_iff (TNode.isThread_of_isWait hw)).mpr hseq
      simp [this] at hq
  | cons x rest =>
      obtain rfl : x = .thread t := (h.represents.next_eq_of_seq hseq).symm.trans hnext
      exact ⟨rest, rfl⟩

theorem queue_eq_cons {w : TNode} (hw : w.isWait = true) {rest : List TNode}
    (hseq : R.seq w = .thread t :: rest) : (view σ R).queue w = t :: tids rest := by
  rw [queue_of_isWait hw, hseq]
  rfl

/-! ## Views of updated states -/

theorem view_emit (o : Obs) (σ : Kernel) (R : Rings TNode) :
    view (σ.emit o) R = (view σ R).emit o := rfl

theorem view_setFrame (t : Tid) (f : Frame) (σ : Kernel) (R : Rings TNode) :
    view (σ.setFrame t f) R = (view σ R).setFrame t f := by
  unfold view View.setFrame View.set
  congr 1
  funext u
  by_cases hu : u = t
  · subst hu
    simp [Kernel.setFrame, Kernel.armed]
  · simp [Kernel.setFrame, Kernel.armed, hu]

theorem view_setError (t : Tid) (r : ℤ) (σ : Kernel) (R : Rings TNode) :
    view (σ.setError t r) R = (view σ R).setError t r := by
  unfold view View.setError View.set
  congr 1
  funext u
  by_cases hu : u = t
  · subst hu
    simp [Kernel.setError, Kernel.armed]
  · simp [Kernel.setError, Kernel.armed, hu]

/-- A function on one thread that moves it to `d`. -/
theorem view_move {d : Option TNode} (ho : OnlyThread t σ σ') (hm : Moved R R' t d)
    (hseq : ∀ w : TNode, d = some w → w.isWait = true →
      R'.seq w = (R.seq w).erase (.thread t) ++ [.thread t]) :
    view σ' R' =
      { (view σ R).move t ⟨σ'.statu t, d, σ'.frame t, σ'.error t, σ'.armed t⟩ with
        trace := σ'.trace } := by
  have hthr : (view σ' R').thr = Function.update (view σ R).thr t ⟨σ'.statu t, d,
      σ'.frame t, σ'.error t, σ'.armed t⟩ := by
    funext u
    by_cases hu : u = t
    · subst hu
      simp [view, hm.home_self]
    · rw [Function.update_of_ne hu]
      simp [view, Kernel.armed, ho.statu u hu, ho.frame u hu, ho.error u hu,
        ho.timer (.ofThread u) (by simpa using hu), hm.home_other hu]
  have hqueue : (view σ' R').queue = fun w =>
      if d = some w ∧ w.isWait = true then ((view σ R).queue w).erase t ++ [t]
      else ((view σ R).queue w).erase t := by
    funext w
    by_cases hw : w.isWait = true
    · rw [queue_of_isWait hw, queue_of_isWait hw]
      by_cases hd : d = some w
      · rw [if_pos ⟨hd, hw⟩, hseq w hd hw, tids_concat, tids_erase]
      · rw [if_neg (fun h => hd h.1), hm.seq w hd, tids_erase]
    · simp [view, hw]
  have hrest : view σ' R' = { view σ R with
      thr := (view σ' R').thr, queue := (view σ' R').queue, trace := σ'.trace } := by
    unfold view
    rw [ho.allThread, ho.nextTid, ho.current, ho.sem, ho.mb]
  rw [hrest, hthr, hqueue]
  rfl

/-! ## What is said and returned -/

/-- The error codes, the frames and the trace are as they were. -/
structure Mute (σ σ' : Kernel) : Prop where
  error : σ'.error = σ.error
  frame : σ'.frame = σ.frame
  trace : σ'.trace = σ.trace

theorem Mute.trans {σ₁ σ₂ σ₃ : Kernel} (h : Mute σ₁ σ₂) (h' : Mute σ₂ σ₃) : Mute σ₁ σ₃ :=
  ⟨h'.error.trans h.error, h'.frame.trans h.frame, h'.trace.trans h.trace⟩

theorem SchedOnly.mute (h : SchedOnly σ σ') : Mute σ σ' :=
  ⟨h.error, h.frame, h.trace⟩

theorem mute_rtTimerStop (k : TimerId) (σ : Kernel) : Mute σ (rtTimerStop k σ).1 := by
  unfold rtTimerStop
  split <;> exact ⟨rfl, rfl, rfl⟩

theorem mute_setStatu (t : Tid) (s : Statu) (σ : Kernel) : Mute σ (σ.setStatu t s) :=
  ⟨rfl, rfl, rfl⟩

theorem mute_links (l : Links TNode) (σ : Kernel) : Mute σ { σ with tlinks := l } :=
  ⟨rfl, rfl, rfl⟩

theorem mute_wakeThread (t : Tid) (σ : Kernel) : Mute σ (wakeThread t σ) :=
  ((mute_links _ σ).trans (mute_rtTimerStop _ (unlinkThread t σ))).trans
    (schedOnly_rtScheduleInsertThread t _).mute

theorem mute_closeThread (t : Tid) (σ : Kernel) : Mute σ (closeThread t σ) :=
  (((mute_setStatu t .close σ).trans (mute_rtTimerStop _ _)).trans
    (schedOnly_rtScheduleRemoveThread t _).mute).trans (mute_links _ _)

theorem mute_rtThreadSuspend (t : Tid) (s : Statu) (σ : Kernel) :
    Mute σ (rtThreadSuspend t s σ).1 := by
  unfold rtThreadSuspend
  split
  · exact ⟨rfl, rfl, rfl⟩
  · exact ((schedOnly_rtScheduleRemoveThread t σ).mute.trans (mute_setStatu t s _)).trans
      (mute_rtTimerStop _ _)

theorem armed_of_flag (h : (σ.timer (.ofThread t)).flag = .noActivated) :
    σ.armed t = false := by
  simp [Kernel.armed, h, TimerFlag.isActivated]

/-! ## One thread is moved -/

namespace BaseInv

/-- The objects of `σ'` are at least those of `σ`. -/
def Grows (σ σ' : Kernel) : Prop :=
  ∀ w : TNode, w.born σ' = false → w.born σ = false

theorem grows_of_eq (hsem : σ'.sem = σ.sem) (hmb : σ'.mb = σ.mb) : Grows σ σ' := by
  intro w hw
  cases w <;> simp_all [TNode.born]

theorem of_moved {d : Option TNode} (h : BaseInv σ R) (hl : LinkInv σ' R')
    (htm : TimerInv σ') (hg : Grows σ σ') (hm : Moved R R' t d)
    (hd : ∀ w : TNode, d = some w → w.isWait = true → w.born σ' = true) : BaseInv σ' R' where
  links := hl
  timers := htm
  born w hw hb := by
    have hne : d ≠ some w := fun he => by simp [hd w he hw] at hb
    rw [hm.seq w hne, h.born w hw (hg w hb)]
    rfl

theorem congr (h : BaseInv σ R) (hs : SameSched σ σ') (htm : TimerInv σ')
    (hg : Grows σ σ') : BaseInv σ' R where
  links := h.links.congr hs
  timers := htm
  born w hw hb := h.born w hw (hg w hb)

theorem setFrame (h : BaseInv σ R) (t : Tid) (f : Frame) : BaseInv (σ.setFrame t f) R :=
  h.congr (sameSched_setFrame t f σ) (h.timers.setFrame t f) (grows_of_eq rfl rfl)

theorem setError (h : BaseInv σ R) (t : Tid) (r : ℤ) : BaseInv (σ.setError t r) R :=
  h.congr (sameSched_setError t r σ) (h.timers.setError t r) (grows_of_eq rfl rfl)

theorem emit (h : BaseInv σ R) (o : Obs) : BaseInv (σ.emit o) R :=
  h.congr (sameSched_emit o σ) (h.timers.emit o) (grows_of_eq rfl rfl)

theorem setSem (h : BaseInv σ R) (s : ℕ) (x : Sem) : BaseInv (σ.setSem s x) R := by
  refine h.congr (sameSched_setSem s x σ) (h.timers.congr rfl rfl fun _ _ => rfl) ?_
  intro w hw
  cases w with
  | semWait r =>
      by_cases hr : r = s
      · subst hr
        simp [TNode.born, Kernel.setSem] at hw
      · simpa [TNode.born, Kernel.setSem, hr] using hw
  | _ => exact hw

theorem setMb (h : BaseInv σ R) (m : ℕ) (x : Mailbox) : BaseInv (σ.setMb m x) R := by
  refine h.congr (sameSched_setMb m x σ) (h.timers.congr rfl rfl fun _ _ => rfl) ?_
  intro w hw
  cases w with
  | mbRecv n | mbSend n =>
      by_cases hn : n = m
      · subst hn
        simp [TNode.born, Kernel.setMb] at hw
      · simpa [TNode.born, Kernel.setMb, hn] using hw
  | _ => exact hw

theorem not_ready_of_isBlocked (h : BaseInv σ R) (hs : (σ.statu t).isBlocked = true) (p : ℕ) :
    R.home (.thread t) ≠ some (.ready p) := by
  refine h.links.not_ready_of_statu (fun he => ?_) p
  rw [he] at hs
  simp [Statu.isBlocked] at hs

theorem wake (h : BaseInv σ R) (hs : (σ.statu t).isBlocked = true) :
    ∃ R', BaseInv (wakeThread t σ) R' ∧
      view (wakeThread t σ) R' = (view σ R).wake (σ.thread t).currentPriority t := by
  obtain ⟨R', hl, hm⟩ := h.links.wakeThread (h.links.blocked t hs)
    (h.not_ready_of_isBlocked hs)
  have ho := onlyThread_wakeThread t σ
  have hmute := mute_wakeThread t σ
  have hdest : ∀ w : TNode, insertDest t σ = some w → w.isWait = false := by
    intro w hw
    unfold insertDest at hw
    split at hw
    · cases hw
    · cases hw
      rfl
  refine ⟨R', h.of_moved hl (h.timers.wakeThread t) (grows_of_eq ho.sem ho.mb) hm ?_, ?_⟩
  · intro w hw hwait
    simp [hdest w hw] at hwait
  · rw [view_move ho hm (fun w hw hwait => by simp [hdest w hw] at hwait),
      statu_wakeThread, hmute.frame, hmute.error, hmute.trace,
      armed_of_flag (flag_wakeThread t σ)]
    rfl

theorem close (h : BaseInv σ R) (ht : t ∈ σ.allThread) :
    ∃ R', BaseInv (closeThread t σ) R' ∧ Moved R R' t (some .dead) ∧
      view (closeThread t σ) R' = (view σ R).close t := by
  obtain ⟨R', hl, hm⟩ := h.links.closeThread ht
  have ho := onlyThread_closeThread t σ
  have hmute := mute_closeThread t σ
  refine ⟨R', h.of_moved hl (h.timers.closeThread t) (grows_of_eq ho.sem ho.mb) hm ?_, hm, ?_⟩
  · rintro w ⟨rfl⟩ hwait
    simp [TNode.isWait] at hwait
  · rw [view_move ho hm (by rintro w ⟨rfl⟩ hwait; simp [TNode.isWait] at hwait),
      statu_closeThread, hmute.frame, hmute.error, hmute.trace,
      armed_of_flag (flag_closeThread t σ)]
    rfl

theorem suspend (h : BaseInv σ R) (ht : t ∈ σ.allThread)
    (hs : σ.statu t = .ready ∨ σ.statu t = .running) (s : Statu) :
    BaseInv (rtThreadSuspend t s σ).1 (R.remove (.thread t)) ∧
      view (rtThreadSuspend t s σ).1 (R.remove (.thread t)) =
        (view σ R).move t { (view σ R).thr t with statu := s, home := none, armed := false } := by
  have hl : LinkInv (rtThreadSuspend t s σ).1 (R.remove (.thread t)) := by
    rw [rtThreadSuspend_of_runs hs]
    exact (h.links.suspend ht s).congr (sameSched_rtTimerStop _ _)
  have ho := onlyThread_rtThreadSuspend t s σ
  have hmute := mute_rtThreadSuspend t s σ
  refine ⟨h.of_moved hl (h.timers.rtThreadSuspend s) (grows_of_eq ho.sem ho.mb)
    (Moved.remove R t) (by simp), ?_⟩
  rw [view_move ho (Moved.remove R t) (by simp), statu_rtThreadSuspend hs, hmute.frame,
    hmute.error, hmute.trace, armed_of_flag (flag_rtThreadSuspend hs)]
  rfl

theorem sleep (h : BaseInv σ R) (hc : σ.currentThread = some t) (hs : σ.statu t = .running)
    {tick : BitVec 32} (hσ : rtThreadSleep tick σ = some σ') :
    ∃ R', BaseInv σ' R' ∧ view σ' R' = (view σ R).move t
      ⟨.sleep, none, .schedule (.ret none), σ.error t, true⟩ := by
  have ht := (h.links.current t hc).1
  have h₁ : BaseInv (σ.setInitTick t tick) R :=
    h.congr (sameSched_setInitTick t tick σ) (h.timers.setInitTick t tick) (grows_of_eq rfl rfl)
  obtain ⟨h₂, -⟩ := h₁.suspend ht (Or.inr hs) .sleep
  have hrun : (σ.setInitTick t tick).statu t = .ready ∨
      (σ.setInitTick t tick).statu t = .running := Or.inr hs
  have ho : OnlyThread t σ σ' := by
    simp only [rtThreadSleep, hc] at hσ
    obtain rfl := Option.some.inj hσ
    exact (((onlyThread_setInitTick t tick σ).trans (onlyThread_rtThreadSuspend t _ _)).trans
      (onlyThread_rtTimerStart t _)).trans (onlyThread_setFrame t _ _)
  have hmute := mute_rtThreadSuspend t .sleep (σ.setInitTick t tick)
  have hstatu := statu_rtThreadSuspend (s := .sleep) hrun
  simp only [rtThreadSleep, hc] at hσ
  obtain rfl := Option.some.inj hσ
  have htm : TimerInv (rtTimerStart (.ofThread t)
      (rtThreadSuspend t .sleep (σ.setInitTick t tick)).1) := by
    refine h₂.timers.rtTimerStart ?_ (by rw [hstatu]; rfl)
    rw [(onlyThread_rtThreadSuspend t _ _).allThread]
    exact ht
  have hl := h₂.links.congr (sameSched_rtTimerStart (.ofThread t) _)
  refine ⟨_, h.of_moved (hl.congr (sameSched_setFrame t _ _)) (htm.setFrame t _)
    (grows_of_eq ho.sem ho.mb) (Moved.remove R t) (by simp), ?_⟩
  rw [view_move ho (Moved.remove R t) (by simp)]
  change { (view σ R).move t ⟨(rtThreadSuspend t .sleep (σ.setInitTick t tick)).1.statu t, none,
    _, (rtThreadSuspend t .sleep (σ.setInitTick t tick)).1.error t, _⟩ with
      trace := (rtThreadSuspend t .sleep (σ.setInitTick t tick)).1.trace } = _
  rw [hstatu, hmute.error, hmute.trace]
  have harm : ((rtTimerStart (.ofThread t) (rtThreadSuspend t .sleep
      (σ.setInitTick t tick)).1).setFrame t (.schedule (.ret none))).armed t = true := by
    simp [Kernel.armed, Kernel.setFrame, rtTimerStart, Kernel.setTimer, TimerFlag.isActivated]
  have hframe : ((rtTimerStart (.ofThread t) (rtThreadSuspend t .sleep
      (σ.setInitTick t tick)).1).setFrame t (.schedule (.ret none))).frame t =
      .schedule (.ret none) := by
    simp [Kernel.setFrame]
  rw [harm, hframe]
  rfl

/-- The timer of a thread that has just been suspended is started or left off. -/
theorem armed_park (hs : σ.statu t = .ready ∨ σ.statu t = .running) (w : TNode) (k : After) :
    (LuojiOs.park t w k σ).armed t = k.arm.isSome := by
  cases hk : k.arm with
  | some time =>
      rw [park_of_arm hk]
      simp [Kernel.armed, Kernel.setFrame, armTimer, rtTimerStart, Kernel.setTimer,
        TimerFlag.isActivated]
  | none =>
      rw [park_of_not_arm hk]
      exact armed_of_flag (flag_rtThreadSuspend (σ := σ.setError t RT_EOK) hs)

theorem onlyThread_park (t : Tid) (w : TNode) (k : After) (σ : Kernel) :
    OnlyThread t σ (LuojiOs.park t w k σ) := by
  have ho : OnlyThread t σ (suspendOn w t (σ.setError t RT_EOK)) :=
    (onlyThread_setError t _ σ).trans (onlyThread_suspendOn w t _)
  cases hk : k.arm with
  | some time =>
      rw [park_of_arm hk]
      exact (ho.trans (onlyThread_armTimer t time _)).trans (onlyThread_setFrame t _ _)
  | none =>
      rw [park_of_not_arm hk]
      exact ho.trans (onlyThread_setFrame t _ _)

theorem park (h : BaseInv σ R) (ht : t ∈ σ.allThread) (hs : σ.statu t = .running)
    {w : TNode} (hw : w.isWait = true) (hborn : w.born σ = true) (k : After) :
    ∃ R', BaseInv (LuojiOs.park t w k σ) R' ∧
      view (LuojiOs.park t w k σ) R' = (view σ R).park t w k := by
  have hrun : (σ.setError t RT_EOK).statu t = .ready ∨
      (σ.setError t RT_EOK).statu t = .running := Or.inr hs
  obtain ⟨R', hl, hm, hseq⟩ := (h.setError t RT_EOK).links.suspendOn hw ht hrun
  have ho := onlyThread_park t w k σ
  have hmute := mute_rtThreadSuspend t .suspend (σ.setError t RT_EOK)
  have hstatu := statu_rtThreadSuspend (s := .suspend) hrun
  have htm := (h.timers.setError t RT_EOK).suspendOn w t
  have hfields : (LuojiOs.park t w k σ).statu t = .suspend ∧
      (LuojiOs.park t w k σ).error t = RT_EOK ∧
      (LuojiOs.park t w k σ).frame t = .schedule k ∧
      (LuojiOs.park t w k σ).trace = .blocked w t :: σ.trace := by
    have hsusp : (suspendOn w t (σ.setError t RT_EOK)).statu t = .suspend := hstatu
    have herr : (suspendOn w t (σ.setError t RT_EOK)).error t = RT_EOK := by
      change (LuojiOs.rtThreadSuspend t .suspend (σ.setError t RT_EOK)).1.error t = RT_EOK
      rw [hmute.error]
      simp [Kernel.setError]
    have htrace : (suspendOn w t (σ.setError t RT_EOK)).trace = .blocked w t :: σ.trace :=
      congrArg (Obs.blocked w t :: ·) hmute.trace
    cases hk : k.arm with
    | some time =>
        rw [park_of_arm hk]
        exact ⟨hsusp, herr, by simp [Kernel.setFrame], htrace⟩
    | none =>
        rw [park_of_not_arm hk]
        exact ⟨hsusp, herr, by simp [Kernel.setFrame], htrace⟩
  have hbase : LinkInv (LuojiOs.park t w k σ) R' ∧ TimerInv (LuojiOs.park t w k σ) := by
    cases hk : k.arm with
    | some time =>
        rw [park_of_arm hk]
        have hmem : t ∈ (suspendOn w t (σ.setError t RT_EOK)).allThread := by
          rw [(onlyThread_suspendOn w t _).allThread]
          exact ht
        exact ⟨(hl.congr (sameSched_armTimer t time _)).congr (sameSched_setFrame t _ _),
          (htm.armTimer hmem (by rw [show (suspendOn w t (σ.setError t RT_EOK)).statu t =
            .suspend from hstatu]; rfl) time).setFrame t _⟩
    | none =>
        rw [park_of_not_arm hk]
        exact ⟨hl.congr (sameSched_setFrame t _ _), htm.setFrame t _⟩
  refine ⟨R', h.of_moved hbase.1 hbase.2 (grows_of_eq ho.sem ho.mb) hm ?_, ?_⟩
  · rintro v ⟨rfl⟩ -
    rw [← hborn]
    cases w <;> simp [TNode.born, ho.sem, ho.mb]
  · rw [view_move ho hm (by rintro v ⟨rfl⟩ -; exact hseq), hfields.1, hfields.2.1,
      hfields.2.2.1, hfields.2.2.2, armed_park (Or.inr hs)]
    rfl

end BaseInv

/-! ## A timer fires -/

/-- A timer with a callback is one of those that belong to no thread. -/
theorem TimerInv.callback_cases (h : TimerInv σ) {k : TimerId} {ops : List TimerOp}
    (hdue : timerDue k σ = true) (hfunc : (σ.timer k).timeoutFunc = .callback ops) :
    ∃ u, k = .other u := by
  cases k with
  | other u => exact ⟨u, rfl⟩
  | ofThread t =>
      have hflag : (σ.timer (.ofThread t)).flag = .activated := by
        simp only [timerDue, decide_eq_true_eq] at hdue
        exact hdue.1
      rw [h.func t (h.armed t hflag).1] at hfunc
      cases hfunc

/-- A timer with `rt_thread_timeout` is the one of the thread it resumes. -/
theorem TimerInv.thread_cases (h : TimerInv σ) {k : TimerId} (hdue : timerDue k σ = true)
    (hfunc : (σ.timer k).timeoutFunc = .rtThreadTimeout t) :
    k = .ofThread t ∧ (σ.timer (.ofThread t)).flag = .activated := by
  have hflag : (σ.timer k).flag = .activated := by
    simp only [timerDue, decide_eq_true_eq] at hdue
    exact hdue.1
  cases k with
  | other u =>
      obtain ⟨ops, hops⟩ := h.other u
      rw [hops] at hfunc
      cases hfunc
  | ofThread u =>
      rw [h.func u (h.armed u hflag).1] at hfunc
      cases hfunc
      exact ⟨rfl, hflag⟩

theorem BaseInv.expire (h : BaseInv σ R)
    (hflag : (σ.timer (.ofThread t)).flag = .activated) :
    ∃ R', BaseInv (fireThread (.ofThread t) t σ) R' ∧
      view (fireThread (.ofThread t) t σ) R' =
        ((view σ R).move t
          { (view σ R).awake (σ.thread t).currentPriority t with error := -RT_ETIMEOUT }).emit
            (.expired t) ∧ t ∈ σ.allThread ∧ (σ.statu t).isBlocked = true := by
  obtain ⟨ht, hs⟩ := h.timers.armed t hflag
  have h₁ : BaseInv { σ with timerLinks := σ.timerLinks.remove (.timer (.ofThread t)) } R :=
    h.congr ⟨rfl, rfl, rfl, rfl, rfl, rfl, rfl⟩ (h.timers.congr rfl rfl fun _ _ => rfl)
      (BaseInv.grows_of_eq rfl rfl)
  obtain ⟨R', hl, hm⟩ := h₁.links.expireThread ht (h₁.not_ready_of_isBlocked hs)
  have hdest : ∀ w : TNode, insertDest t σ = some w → w.isWait = false := by
    intro w hw
    unfold insertDest at hw
    split at hw
    · cases hw
    · cases hw
      rfl
  have ho : OnlyThread t σ (fireThread (.ofThread t) t σ) :=
    ((onlyThread_timerLinks t _ σ).trans (onlyThread_expireThread t _)).trans
      (onlyThread_setTimer t _ _)
  have htimer := timer_rtScheduleInsertThread t (unlinkThread t
    (Kernel.setError t (-RT_ETIMEOUT)
      { σ with timerLinks := σ.timerLinks.remove (.timer (.ofThread t)) }))
  have htm : TimerInv (fireThread (.ofThread t) t σ) := by
    refine h.timers.of_onlyThread ho ?_ (fun hf => ?_)
    · simp only [fireThread, Kernel.setTimer, Function.update_self]
      exact congrArg (fun f => (f (TimerId.ofThread t)).timeoutFunc) htimer
    · simp [fireThread, Kernel.setTimer] at hf
  refine ⟨R', h.of_moved (hl.congr (sameSched_setTimer _ _ _)) htm
    (BaseInv.grows_of_eq ho.sem ho.mb) hm (fun w hw hwait => ?_), ?_, ht, hs⟩
  · simp [hdest w hw] at hwait
  · have hmute := (schedOnly_rtScheduleInsertThread t (unlinkThread t
      (Kernel.setError t (-RT_ETIMEOUT)
        { σ with timerLinks := σ.timerLinks.remove (.timer (.ofThread t)) }))).mute
    have hstatu : (fireThread (.ofThread t) t σ).statu t = insertStatu t σ :=
      statu_expireThread t _
    have herror : (fireThread (.ofThread t) t σ).error t = -RT_ETIMEOUT := by
      refine (congrFun hmute.error t).trans ?_
      simp [unlinkThread, Kernel.setError]
    have hframe : (fireThread (.ofThread t) t σ).frame t = σ.frame t :=
      congrFun hmute.frame t
    have htrace : (fireThread (.ofThread t) t σ).trace = .expired t :: σ.trace :=
      congrArg (Obs.expired t :: ·) hmute.trace
    have harm : (fireThread (.ofThread t) t σ).armed t = false := by
      simp [Kernel.armed, fireThread, Kernel.setTimer, TimerFlag.isActivated]
    rw [view_move ho hm (fun w hw hwait => by simp [hdest w hw] at hwait), hstatu, herror,
      hframe, htrace, harm]
    rfl

/-! ## Switching, starting and creating -/

theorem BaseInv.schedule_cases (h : BaseInv σ R) (hs : rtSchedule σ = some σ') :
    ∃ c, σ.currentThread = some c ∧
      ((σ.readyPriorityGroup = 0 ∧ σ' = σ) ∨
      ∃ R' d p, BaseInv σ' R' ∧ d ≠ c ∧ d ∈ σ.allThread ∧ σ.statu d = .ready ∧
        R.home (.thread d) = some (.ready p) ∧
        view σ' R' = (view σ R).switch c d (σ.thread c).currentPriority (σ.frame c)) := by
  obtain ⟨c, hc, hcase⟩ := h.links.rtSchedule_cases hs
  refine ⟨c, hc, ?_⟩
  rcases hcase with hstay | ⟨p, d, rest, -, hseq, hne, rfl⟩
  · exact Or.inl hstay
  · right
    have hhome := R.home_of_seq_eq_cons hseq
    obtain ⟨R', hl, hsw⟩ := h.links.switchThread hc hhome hne
    have hso := schedOnly_switchThread c d σ
    refine ⟨R', d, p, ⟨hl, h.timers.rtSchedule h.links hs, fun w hw hb => ?_⟩, hne,
      h.links.mem_allThread hhome, (h.links.ready d p hhome).2, hhome, ?_⟩
    · rw [hsw.seq w (by rintro q rfl; simp [TNode.isWait] at hw)]
      exact h.born w hw (BaseInv.grows_of_eq hso.sem hso.mb w hb)
    · have hthr : (view (switchThread c d σ) R').thr =
          ((view σ R).switch c d (σ.thread c).currentPriority (σ.frame c)).thr := by
        funext u
        have hview : (view (switchThread c d σ) R').thr u =
            ⟨(switchThread c d σ).statu u, R'.home (.thread u), σ.frame u, σ.error u,
              σ.armed u⟩ := by
          simp [view, Kernel.armed, hso.frame, hso.error, hso.timer]
        rw [hview, statu_switchThread hne, hsw.home]
        by_cases hud : u = d
        · subst hud
          simp [View.switch, View.dispatch, View.set, view, hne]
        · by_cases huc : u = c
          · subst huc
            by_cases hrun : (σ.statu u).runnable = true <;>
              simp [View.switch, View.dispatch, View.set, View.left, view, hud, hrun]
          · simp [View.switch, View.dispatch, View.set, view, hud, huc]
      have hqueue : (view (switchThread c d σ) R').queue = (view σ R).queue := by
        funext w
        by_cases hw : w.isWait = true
        · rw [queue_of_isWait hw, queue_of_isWait hw,
            hsw.seq w (by rintro q rfl; simp [TNode.isWait] at hw)]
        · simp [view, hw]
      have hrest : view (switchThread c d σ) R' = { view σ R with
          current := some d
          thr := (view (switchThread c d σ) R').thr
          queue := (view (switchThread c d σ) R').queue } := by
        unfold view
        rw [hso.allThread, hso.nextTid, hso.sem, hso.mb, hso.trace, current_switchThread]
      rw [hrest, hthr, hqueue]
      rfl

theorem BaseInv.start (h : BaseInv σ R) (hs : threadStart σ = some σ') :
    ∃ R' d p, BaseInv σ' R' ∧ d ∈ σ.allThread ∧ σ.statu d = .ready ∧
      R.home (.thread d) = some (.ready p) ∧ view σ' R' = (view σ R).dispatch d := by
  obtain ⟨d, p, hget, rfl⟩ := threadStart_cases hs
  obtain ⟨-, rest, hseq⟩ := h.links.getHighest_cases hget
  have hhome := R.home_of_seq_eq_cons hseq
  have hd := h.links.mem_allThread hhome
  have hso := schedOnly_rtScheduleRemoveThread d σ
  have hready := (h.links.ready d p hhome).2
  have hl : LinkInv { (rtScheduleRemoveThread d σ).setStatu d .running with
      currentThread := some d } (R.remove (.thread d)) := by
    refine (h.links.suspend hd .running).setCurrent ?_ (by simp)
    rw [rtScheduleRemoveThread_eq]
    exact hd
  have hm := Moved.remove R d
  refine ⟨R.remove (.thread d), d, p, ⟨hl, ?_, fun w hw hb => ?_⟩, hd, hready, hhome, ?_⟩
  · refine h.timers.congr hso.timer hso.allThread (fun u hu => ?_)
    have hud : u ≠ d := by
      rintro rfl
      simp [hready, Statu.isBlocked] at hu
    change Function.update (rtScheduleRemoveThread d σ).statu d .running u = σ.statu u
    rw [Function.update_of_ne hud, statu_rtScheduleRemoveThread]
  · rw [hm.seq w (by simp), h.born w hw (BaseInv.grows_of_eq hso.sem hso.mb w hb)]
    rfl
  · have hthr : (view { (rtScheduleRemoveThread d σ).setStatu d .running with
        currentThread := some d } (R.remove (.thread d))).thr =
        ((view σ R).dispatch d).thr := by
      funext u
      by_cases hud : u = d
      · subst hud
        simp [view, View.dispatch, View.set, Kernel.setStatu, Kernel.armed, hso.frame,
          hso.error, hso.timer]
      · simp [view, View.dispatch, View.set, Kernel.setStatu, Kernel.armed, hso.frame,
          hso.error, hso.timer, hud, statu_rtScheduleRemoveThread]
    have hqueue : (view { (rtScheduleRemoveThread d σ).setStatu d .running with
        currentThread := some d } (R.remove (.thread d))).queue = (view σ R).queue := by
      funext w
      by_cases hw : w.isWait = true
      · rw [queue_of_isWait hw, queue_of_isWait hw, hm.seq_eq (by simp)]
        rw [hhome]
        rintro ⟨rfl⟩
        simp [TNode.isWait] at hw
      · simp [view, hw]
    have hrest : view { (rtScheduleRemoveThread d σ).setStatu d .running with
        currentThread := some d } (R.remove (.thread d)) = { view σ R with
          current := some d
          thr := (view { (rtScheduleRemoveThread d σ).setStatu d .running with
            currentThread := some d } (R.remove (.thread d))).thr
          queue := (view { (rtScheduleRemoveThread d σ).setStatu d .running with
            currentThread := some d } (R.remove (.thread d))).queue } := by
      unfold view
      dsimp only [Kernel.setStatu]
      rw [hso.allThread, hso.nextTid, hso.sem, hso.mb, hso.trace]
    rw [hrest, hthr, hqueue]
    rfl

theorem BaseInv.join (h : BaseInv σ R) {name : String}
    {stackSize priority runtick : BitVec 32} {mallocOk stackOk : Bool}
    (hp : joinInRange (.call
      (.threadJoinInit name stackSize priority runtick mallocOk stackOk)) = true) :
    let σ' := (threadJoinInit name stackSize priority runtick mallocOk stackOk σ).1
    σ' = σ ∨ ∃ R', BaseInv σ' R' ∧
      view σ' R' = (view σ R).create σ.nextTid (priorityByte priority) := by
  intro σ'
  have hp' : (RT_THREAD_PRIORITY_MAX : ℤ) - 1 < priority.toInt ∨
      priorityByte priority < 32 := by
    simpa [joinInRange] using hp
  rcases threadJoinInit_cases name stackSize priority runtick mallocOk stackOk σ with
    heq | hge | ⟨-, hall, hnext, -, hstatu, herror, hframe, htimer, hcur, -, -, -, hsem, hmb,
      htrace, -, -⟩
  · exact Or.inl heq
  · omega
  have hjoin : (threadJoinInit name stackSize priority runtick mallocOk stackOk σ).1 = σ ∨
      ∃ R', LinkInv (threadJoinInit name stackSize priority runtick mallocOk stackOk σ).1 R' ∧
        Moved R R' σ.nextTid (some (.ready (priorityByte priority))) :=
    h.links.threadJoinInit hp'
  rcases hjoin with heq | ⟨R', hl, hm⟩
  · exact Or.inl heq
  right
  have hfree := h.links.home_fresh h.links.not_mem_of_fresh
  have hseq : ∀ w : TNode, w.isWait = true → R'.seq w = R.seq w := by
    intro w hw
    refine hm.seq_eq ?_ (by simp [hfree])
    rintro ⟨rfl⟩
    simp [TNode.isWait] at hw
  refine ⟨R', ⟨hl, ⟨fun u hu => ?_, fun u hu => ?_, fun u => ?_⟩, fun w hw hb => ?_⟩, ?_⟩
  · by_cases hut : u = σ.nextTid
    · subst hut
      rw [htimer] at hu
      simp at hu
    · rw [htimer, Function.update_of_ne (by simpa using hut)] at hu
      rw [hall, hstatu, Function.update_of_ne hut]
      obtain ⟨hmem, hb⟩ := h.timers.armed u hu
      exact ⟨List.mem_cons_of_mem _ hmem, hb⟩
  · rw [htimer]
    by_cases hut : u = σ.nextTid
    · subst hut
      simp
    · rw [Function.update_of_ne (by simpa using hut)]
      rw [hall] at hu
      exact h.timers.func u ((List.mem_cons.mp hu).resolve_left hut)
  · rw [htimer, Function.update_of_ne (by simp)]
    exact h.timers.other u
  · rw [hseq w hw]
    exact h.born w hw (BaseInv.grows_of_eq hsem hmb w hb)
  · have hthr : (view σ' R').thr =
        ((view σ R).create σ.nextTid (priorityByte priority)).thr := by
      funext u
      by_cases hut : u = σ.nextTid
      · subst hut
        have hview : (view σ' R').thr σ.nextTid = ⟨.ready, some (.ready (priorityByte priority)),
            .run, RT_EOK, false⟩ := by
          simp only [view, Kernel.armed, σ', hstatu, herror, hframe, htimer, hm.home_self,
            Function.update_self]
          rfl
        rw [hview]
        simp [View.create, View.set]
      · have hview : (view σ' R').thr u = (view σ R).thr u := by
          simp only [view, Kernel.armed, σ', hstatu, herror, hframe, htimer, hm.home_other hut]
          rw [Function.update_of_ne hut, Function.update_of_ne hut, Function.update_of_ne hut,
            Function.update_of_ne (by simpa using hut)]
        rw [hview]
        simp [View.create, View.set, hut]
    have hqueue : (view σ' R').queue = (view σ R).queue := by
      funext w
      by_cases hw : w.isWait = true
      · rw [queue_of_isWait hw, queue_of_isWait hw, hseq w hw]
      · simp [view, hw]
    have hrest : view σ' R' = { view σ R with
        live := σ.nextTid :: σ.allThread
        next := σ.nextTid + 1
        thr := (view σ' R').thr
        queue := (view σ' R').queue } := by
      unfold view
      simp only [σ', hall, hnext, hcur, hsem, hmb, htrace]
    rw [hrest, hthr, hqueue]
    rfl

theorem BaseInv.clean (h : BaseInv σ R) (hdead : R.home (.thread t) = some .dead)
    (hc : σ.currentThread ≠ some t) :
    BaseInv (cleanThread t σ) (R.remove (.thread t)) ∧
      view (cleanThread t σ) (R.remove (.thread t)) = (view σ R).clean t := by
  have hl := h.links.cleanThread hdead hc
  have hm := Moved.remove R t
  have hclose := h.links.dead t hdead
  refine ⟨⟨hl, ⟨fun u hu => ?_, fun u hu => ?_, h.timers.other⟩, fun w hw hb => ?_⟩, ?_⟩
  · obtain ⟨hmem, hb⟩ := h.timers.armed u hu
    have hut : u ≠ t := by
      rintro rfl
      simp [hclose, Statu.isBlocked] at hb
    exact ⟨List.mem_filter.mpr ⟨hmem, by simpa using hut⟩, hb⟩
  · exact h.timers.func u (List.mem_filter.mp hu).1
  · rw [hm.seq w (by simp), h.born w hw hb]
    rfl
  · have hunlink : view (unlinkThread t σ) (R.remove (.thread t)) =
        (view σ R).move t { (view σ R).thr t with home := none } :=
      view_move (onlyThread_links t _ σ) hm (by simp)
    have hlive : view (cleanThread t σ) (R.remove (.thread t)) =
        { view (unlinkThread t σ) (R.remove (.thread t)) with
          live := σ.allThread.filter (· ≠ t) } := rfl
    rw [hlive, hunlink]
    rfl

/-- The clean-up loop of the idle thread: `pos` is the first closed thread that is
left and `nxt` the one after it. -/
theorem BaseInv.cleanDeadFrom {Q N : Prop} {M : ℕ → Prop} {e : Event} {fuel : ℕ} {pos nxt : TNode}
    (h : BaseInv σ R) (hcur : ∀ c, σ.currentThread = some c → σ.statu c ≠ .close)
    (hpos : pos = σ.tlinks.next .dead) (hnxt : nxt = σ.tlinks.next pos)
    (hs : cleanDeadFrom fuel pos nxt σ = some σ') :
    ∃ R', BaseInv σ' R' ∧
      Relation.ReflTransGen (View.Step Q N M e) (view σ R) (view σ' R') := by
  induction fuel generalizing pos nxt σ R with
  | zero => cases hs
  | succ fuel ih =>
      have hroot : R.home .dead = none := h.links.home_head rfl
      have hfirst := h.links.represents.next_root hroot
      cases hseq : R.seq .dead with
      | nil =>
          rw [hseq] at hfirst
          obtain rfl : pos = .dead := hpos.trans hfirst
          obtain rfl := Option.some.inj hs
          exact ⟨R, h, .refl⟩
      | cons x rest =>
          have hhome := R.home_of_seq_eq_cons hseq
          obtain ⟨-, t, -, rfl⟩ := h.links.member x _ hhome
          rw [hseq] at hfirst
          obtain rfl : pos = .thread t := hpos.trans hfirst
          have hct : σ.currentThread ≠ some t :=
            fun hc => hcur t hc (h.links.dead t hhome)
          obtain ⟨h', hview⟩ := h.clean hhome hct
          have hrest : (R.remove (.thread t)).seq .dead = rest := by
            simp [hseq]
          -- the node saved as the next one is the first one of what is left
          have hpos' : nxt = (cleanThread t σ).tlinks.next .dead := by
            rw [hnxt, h.links.represents.next_of_seq hseq,
              h'.links.represents.next_root (h'.links.home_head rfl), hrest]
          obtain ⟨R', hb, hsteps⟩ := ih h' hcur hpos' rfl hs
          refine ⟨R', hb, .head ?_ hsteps⟩
          rw [hview]
          exact .clean hhome hct

/-! ## Handing over -/

/-- A first waiter is suspended, so `rt_thread_resume` takes it off the list. -/
theorem BaseInv.resume_head (h : BaseInv σ R) {w : TNode} (hw : w.isWait = true)
    {rest : List TNode} (hseq : R.seq w = .thread t :: rest) :
    (rtThreadResume t σ).1 = wakeThread t σ ∧ (σ.statu t).isBlocked = true := by
  have hs := h.links.wait t w (R.home_of_seq_eq_cons hseq) hw
  constructor
  · simp [rtThreadResume, hs]
  · rw [hs]
    rfl

theorem BaseInv.release {Q N : Prop} {M : ℕ → Prop} {e : Event} (h : BaseInv σ R) {s : ℕ}
    {r : Kernel × Bool} (hM : M s → ∀ x, σ.sem s = some x → x.value ≠ 65535)
    (hr : rtSemRelease s σ = some r) :
    ∃ R', BaseInv r.1 R' ∧ View.Step Q N M e (view σ R) (view r.1 R') := by
  obtain ⟨x, hx, ⟨hem, rfl⟩ | ⟨t, hem, hnext, rfl⟩⟩ := rtSemRelease_cases hr
  · exact ⟨R, (h.setSem s _).emit _, .semUp hx (fun m => hM m x hx) (h.links.queue_eq_nil rfl hem)⟩
  · obtain ⟨rest, hseq⟩ := h.links.seq_of_next (w := .semWait s) rfl hem hnext
    have h₁ := (h.emit (.semReleased s)).emit (.woke (.semWait s) t)
    obtain ⟨hres, hblk⟩ := h₁.resume_head (w := .semWait s) rfl hseq
    obtain ⟨R', h', hview⟩ := h₁.wake hblk
    refine ⟨R', by rwa [hres], ?_⟩
    rw [hres, hview]
    have hhome := R.home_of_seq_eq_cons hseq
    exact .semHand hx (queue_eq_cons rfl hseq) (h.links.mem_allThread hhome)
      (h.links.wait t _ hhome rfl)

/-- The effect of a mailbox call that is served, up to what it does last. -/
theorem BaseInv.serve (h : BaseInv σ R) {m : ℕ} {x' : Mailbox} {o : Obs} {w : TNode}
    (hw : w.isWait = true) {r : Kernel × Bool}
    (hcase : (σ.tlinks.isEmpty w = true ∧ r = ((σ.setMb m x').emit o, false)) ∨
      ∃ u, σ.tlinks.isEmpty w = false ∧ σ.tlinks.next w = .thread u ∧
        (r = ((rtThreadResume u (((σ.setMb m x').emit o).emit (.woke w u))).1, true) ∨
          r = (wakeThread u (((σ.setMb m x').emit o).emit (.woke w u)), true))) :
    ∃ R', BaseInv r.1 R' ∧
      ((r.2 = false ∧ (view σ R).queue w = [] ∧
          view r.1 R' = ((view σ R).setMb m x').emit o) ∨
        ∃ u us p, r.2 = true ∧ (view σ R).queue w = u :: us ∧ u ∈ σ.allThread ∧
          σ.statu u = .suspend ∧
          view r.1 R' = ((((view σ R).setMb m x').emit o).emit (.woke w u)).wake p u) := by
  rcases hcase with ⟨hem, rfl⟩ | ⟨u, hem, hnext, hr⟩
  · exact ⟨R, (h.setMb m x').emit o, Or.inl ⟨rfl, h.links.queue_eq_nil hw hem, rfl⟩⟩
  · obtain ⟨rest, hseq⟩ := h.links.seq_of_next hw hem hnext
    have h₁ := ((h.setMb m x').emit o).emit (.woke w u)
    obtain ⟨hres, hblk⟩ := h₁.resume_head hw hseq
    obtain ⟨R', h', hview⟩ := h₁.wake hblk
    obtain rfl : r = (wakeThread u (((σ.setMb m x').emit o).emit (.woke w u)), true) := by
      rcases hr with rfl | rfl
      · rw [hres]
      · rfl
    have hhome := R.home_of_seq_eq_cons hseq
    exact ⟨R', h', Or.inr ⟨u, tids rest, _, rfl, queue_eq_cons hw hseq,
      h.links.mem_allThread hhome, h.links.wait u w hhome hw, hview⟩⟩

theorem BaseInv.finish {m : ℕ} {x x' : Mailbox} {k : After} {o r : Obs} {w : TNode}
    {q : Kernel × Bool} (hx : σ.mb m = some x) (hk : View.Serves m x k x' o w)
    (hr : k.retObs t RT_EOK = some r)
    (hserve : ∃ R', BaseInv q.1 R' ∧
      ((q.2 = false ∧ (view σ R).queue w = [] ∧
          view q.1 R' = ((view σ R).setMb m x').emit o) ∨
        ∃ u us p, q.2 = true ∧ (view σ R).queue w = u :: us ∧ u ∈ σ.allThread ∧
          σ.statu u = .suspend ∧
          view q.1 R' = ((((view σ R).setMb m x').emit o).emit (.woke w u)).wake p u)) :
    ∃ R', BaseInv (LuojiOs.finish t r q) R' ∧
      View.Turn t k (view σ R) (view (LuojiOs.finish t r q) R') := by
  obtain ⟨R', hb, ⟨hq, hnil, hview⟩ | ⟨u, us, p, hq, hcons, hu, hs, hview⟩⟩ := hserve
  · rcases q with ⟨σ₁, b⟩
    obtain rfl : b = false := hq
    refine ⟨R', hb.emit r, ?_⟩
    change View.Turn t k _ ((view σ₁ R').emit r)
    rw [show view σ₁ R' = _ from hview]
    exact .pass hx hk hnil hr
  · rcases q with ⟨σ₁, b⟩
    obtain rfl : b = true := hq
    refine ⟨R', hb.setFrame t _, ?_⟩
    change View.Turn t k _ (view (σ₁.setFrame t _) R')
    rw [view_setFrame, show view σ₁ R' = _ from hview]
    exact .passWake hx hk hcons hu hs hr

theorem BaseInv.turn (h : BaseInv σ R) {k : After} (hc : σ.currentThread = some t)
    (hrun : k.waits σ = true → σ.statu t = .running) (hT : Turn t k σ σ') :
    ∃ R', BaseInv σ' R' ∧ View.Turn t k (view σ R) (view σ' R') := by
  have ht := (h.links.current t hc).1
  cases hT with
  | sendFull hx hfull =>
      refine ⟨R, (h.setError t RT_EOK).emit _, ?_⟩
      rw [view_emit, view_setError]
      exact .giveUp hx ⟨rfl, hfull⟩ rfl
  | @sendPark m x value orig timeout tickDelta d _ hx hfull htime =>
      have hs := hrun (by
        simp only [After.waits, hx]
        exact decide_eq_true ⟨hfull, htime⟩)
      obtain ⟨R', h', hview⟩ := h.park (w := .mbSend m) ht hs rfl (by simp [TNode.born, hx])
        (.mbSend m value orig timeout d)
      refine ⟨R', h', ?_⟩
      rw [hview]
      exact .park hx ⟨rfl, hfull⟩ rfl rfl hs
  | send hx hne hput =>
      refine BaseInv.finish hx (.put hne) rfl (h.serve rfl ?_)
      rcases mbPut_cases hput with hem | ⟨u, hem, hnext, hr⟩
      · exact Or.inl hem
      · exact Or.inr ⟨u, hem, hnext, Or.inl hr⟩
  | recvEmpty hx hempty =>
      refine ⟨R, ((h.setError t RT_EOK).setError t (-RT_ETIMEOUT)).emit _, ?_⟩
      have htwice : (σ.setError t RT_EOK).setError t (-RT_ETIMEOUT) =
          σ.setError t (-RT_ETIMEOUT) := by
        simp [Kernel.setError]
      rw [htwice, view_emit, view_setError]
      exact .giveUp hx ⟨rfl, hempty⟩ rfl
  | @recvPark m x orig timeout tickDelta d _ hx hempty htime =>
      have hs := hrun (by
        simp only [After.waits, hx]
        exact decide_eq_true ⟨hempty, htime⟩)
      obtain ⟨R', h', hview⟩ := h.park (w := .mbRecv m) ht hs rfl (by simp [TNode.born, hx])
        (.mbRecv m orig timeout d)
      refine ⟨R', h', ?_⟩
      rw [hview]
      exact .park hx ⟨rfl, hempty⟩ rfl rfl hs
  | recv hx hne htake =>
      refine BaseInv.finish hx (.take hne) rfl (h.serve rfl ?_)
      rcases mbTake_cases htake with hem | ⟨u, hem, hnext, hr⟩
      · exact Or.inl hem
      · exact Or.inr ⟨u, hem, hnext, Or.inr hr⟩

/-! ## The clock and the objects -/

/-- Nothing that the abstract machine or the lists depend on differs. -/
structure Quiet (σ σ' : Kernel) : Prop where
  sched : SameSched σ σ'
  mute : Mute σ σ'
  timer : ∀ t, σ'.timer (.ofThread t) = σ.timer (.ofThread t)
  sem : σ'.sem = σ.sem
  mb : σ'.mb = σ.mb

theorem Quiet.view_eq (h : Quiet σ σ') (R : Rings TNode) : view σ' R = view σ R := by
  unfold view
  rw [h.sched.allThread, h.sched.nextTid, h.sched.current, h.sched.statu, h.mute.frame,
    h.mute.error, h.mute.trace, h.sem, h.mb]
  congr 1
  funext t
  rw [Kernel.armed, h.timer t]
  rfl

theorem Quiet.trans {σ₁ σ₂ σ₃ : Kernel} (h : Quiet σ₁ σ₂) (h' : Quiet σ₂ σ₃) : Quiet σ₁ σ₃ :=
  ⟨h.sched.trans h'.sched, h.mute.trans h'.mute, fun t => (h'.timer t).trans (h.timer t),
    h'.sem.trans h.sem, h'.mb.trans h.mb⟩

theorem quiet_refl (σ : Kernel) : Quiet σ σ :=
  ⟨SameSched.refl σ, ⟨rfl, rfl, rfl⟩, fun _ => rfl, rfl, rfl⟩

theorem quiet_setTimer_other (u : ℕ) (x : Timer) (σ : Kernel) :
    Quiet σ (σ.setTimer (.other u) x) :=
  ⟨sameSched_setTimer _ _ σ, ⟨rfl, rfl, rfl⟩, fun t => by simp [Kernel.setTimer], rfl, rfl⟩

theorem quiet_timerLinks (l : Links TimerNode) (σ : Kernel) :
    Quiet σ { σ with timerLinks := l } :=
  ⟨⟨rfl, rfl, rfl, rfl, rfl, rfl, rfl⟩, ⟨rfl, rfl, rfl⟩, fun _ => rfl, rfl, rfl⟩

theorem quiet_rtTimerStart (u : ℕ) (σ : Kernel) : Quiet σ (rtTimerStart (.other u) σ) :=
  (quiet_setTimer_other u _ σ).trans (quiet_timerLinks _ _)

theorem quiet_rtTimerStop (u : ℕ) (σ : Kernel) : Quiet σ (rtTimerStop (.other u) σ).1 := by
  unfold rtTimerStop
  split
  · exact quiet_refl σ
  · exact (quiet_timerLinks _ σ).trans (quiet_setTimer_other u _ _)

theorem quiet_runTimerOps (ops : List TimerOp) (σ : Kernel) :
    Quiet σ (ops.foldl runTimerOp σ) := by
  induction ops generalizing σ with
  | nil => exact quiet_refl σ
  | cons op ops ih =>
      refine Quiet.trans ?_ (ih _)
      cases op with
      | start u => exact quiet_rtTimerStart u σ
      | stop u => exact quiet_rtTimerStop u σ

theorem BaseInv.quiet (h : BaseInv σ R) (hq : Quiet σ σ') (htm : TimerInv σ') :
    BaseInv σ' R ∧ view σ' R = view σ R :=
  ⟨h.congr hq.sched htm (BaseInv.grows_of_eq hq.sem hq.mb), hq.view_eq R⟩

theorem BaseInv.clock {σ₀ : Kernel} {e : Event} (h : BaseInv σ R)
    (ha : ClockAct σ₀ e σ σ') : BaseInv σ' R ∧ view σ' R = view σ R := by
  cases ha with
  | timerInit he =>
      exact h.quiet ((quiet_setTimer_other _ _ _).trans (quiet_timerLinks _ _))
        (h.timers.rtTimerInit_other _ _ _ _)
  | timerStart he => exact h.quiet (quiet_rtTimerStart _ _) (h.timers.rtTimerStart_other _)
  | timerStop he => exact h.quiet (quiet_rtTimerStop _ _) (h.timers.rtTimerStop_other _)
  | tickIncrease he =>
      exact h.quiet ⟨⟨rfl, rfl, rfl, rfl, rfl, rfl, rfl⟩, ⟨rfl, rfl, rfl⟩, fun _ => rfl, rfl, rfl⟩
        (h.timers.congr rfl rfl fun _ _ => rfl)
  | @countDown fuel c σ he hc =>
      have hq : Quiet σ (LuojiOs.countDown c σ).2 := by
        unfold LuojiOs.countDown
        dsimp only
        split <;>
          exact ⟨⟨rfl, rfl, rfl, rfl, rfl, rfl, rfl⟩, ⟨rfl, rfl, rfl⟩, fun _ => rfl, rfl, rfl⟩
      refine h.quiet hq (h.timers.congr ?_ hq.sched.allThread fun u _ => ?_)
      · unfold LuojiOs.countDown
        dsimp only
        split <;> rfl
      · rw [hq.sched.statu]
  | @callback fuel k ops σ he hdue hfunc =>
      obtain ⟨u, rfl⟩ := h.timers.callback_cases hdue hfunc
      have hrem : TimerInv { σ with timerLinks := σ.timerLinks.remove (.timer (.other u)) } :=
        h.timers.congr rfl rfl fun _ _ => rfl
      have htm := hrem.runTimerOps ops
      refine h.quiet (((quiet_timerLinks _ σ).trans (quiet_runTimerOps ops _)).trans
        (quiet_setTimer_other u _ _)) (htm.of_other (fun t => ?_) (fun v => ?_) rfl rfl)
      · simp [fireCallback, Kernel.setTimer]
      · by_cases hv : v = u
        · subst hv
          simpa [fireCallback, Kernel.setTimer] using htm.other v
        · simpa [fireCallback, Kernel.setTimer, hv] using htm.other v

theorem BaseInv.object {σ₀ : Kernel} {Q N : Prop} {M : ℕ → Prop} {e : Event} (h : BaseInv σ R)
    (ha : ObjectAct σ₀ e σ σ') :
    BaseInv σ' R ∧ View.Step Q N M e (view σ R) (view σ' R) := by
  cases ha with
  | @semInit s value he hs =>
      have hnil := h.born (.semWait s) rfl (by simp [TNode.born, hs])
      have hlinks : σ.tlinks.init (.semWait s) = σ.tlinks :=
        (h.links.represents.init_eq (h.links.home_head rfl) hnil)
      have hstate : rtSemInit s value σ =
          (σ.setSem s ⟨value.setWidth 16⟩).emit (.semInit s value) := by
        unfold rtSemInit
        rw [hlinks]
      rw [hstate]
      refine ⟨(h.setSem s _).emit _, .semInit hs ?_⟩
      rw [queue_of_isWait rfl, hnil]
      rfl
  | @mbInit m size he hm =>
      have hnil := h.born (.mbRecv m) rfl (by simp [TNode.born, hm])
      have hnil' := h.born (.mbSend m) rfl (by simp [TNode.born, hm])
      have hlinks : (σ.tlinks.init (.mbRecv m)).init (.mbSend m) = σ.tlinks := by
        rw [h.links.represents.init_eq (h.links.home_head rfl) hnil,
          h.links.represents.init_eq (h.links.home_head rfl) hnil']
      have hstate : rtMbInit m size σ =
          σ.setMb m ⟨fun _ => 0, size.setWidth 16, 0, 0, 0⟩ := by
        unfold rtMbInit
        rw [hlinks]
      rw [hstate]
      refine ⟨h.setMb m _, .mbInit hm ?_ ?_⟩
      · rw [queue_of_isWait rfl, hnil]
        rfl
      · rw [queue_of_isWait rfl, hnil']
        rfl
  | semTaken he hx hpos =>
      exact ⟨((h.setSem _ _).emit _).emit _, .semTaken hx hpos⟩
  | semRefused he hx hzero => exact ⟨h.emit _, .semRefused⟩
  | report ho => exact ⟨h.emit _, .report ho⟩

end

end LuojiOs
