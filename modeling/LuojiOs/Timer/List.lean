import LuojiOs.Scheduler.Still

/-!
# The timer list

`rt_timer_list` is to hold the activated timers, each once.  The operations on timers
keep it so, except that `rt_timer_start` and `rt_timer_init` have to be called for a
timer that is not on the list: they do not look at its flag.
-/

namespace LuojiOs

open CircularList

/-- The list is a ring on which a timer appears exactly once if it is activated, and not
at all otherwise. -/
def TimerList (σ : Kernel) : Prop :=
  ∃ ks : List TimerId, σ.timerLinks.Path .head (ks.map .timer) .head ∧ ks.Nodup ∧
    ∀ k, k ∈ ks ↔ (σ.timer k).flag = .activated

/-! ## The list as a ring -/

/-- The pointers `l` link the timers in `S` to the head and every other timer to itself. -/
def OnList (l : Links TimerNode) (S : TimerId → Prop) : Prop :=
  ∃ R : Rings TimerNode, R.Represents l ∧ (∀ n h, R.home n = some h → h = .head) ∧
    ∀ k, R.home (.timer k) = some .head ↔ S k

namespace OnList

variable {l : Links TimerNode} {S S' : TimerId → Prop} {k : TimerId}

theorem congr (h : OnList l S) (hS : ∀ k, S k ↔ S' k) : OnList l S' := by
  obtain ⟨R, hrep, hhead, hmem⟩ := h
  exact ⟨R, hrep, hhead, fun k => (hmem k).trans (hS k)⟩

theorem head_root {R : Rings TimerNode} (hhead : ∀ n h, R.home n = some h → h = .head) :
    R.home .head = none := by
  by_contra hne
  obtain ⟨h, hh⟩ := Option.ne_none_iff_exists'.mp hne
  obtain rfl := hhead _ _ hh
  have hmem := (R.mem_seq .head .head).mpr hh
  exact hne (R.root .head (List.ne_nil_of_mem hmem))

theorem seq_timer {R : Rings TimerNode} (hhead : ∀ n h, R.home n = some h → h = .head)
    (k : TimerId) : R.seq (.timer k) = [] := by
  by_contra hne
  obtain ⟨n, hn⟩ := List.exists_mem_of_ne_nil _ hne
  have := hhead _ _ ((R.mem_seq _ _).mp hn)
  cases this

theorem home_timer {R : Rings TimerNode} (hhead : ∀ n h, R.home n = some h → h = .head)
    (hk : R.home (.timer k) ≠ some .head) : R.home (.timer k) = none := by
  by_contra hne
  obtain ⟨h, hh⟩ := Option.ne_none_iff_exists'.mp hne
  obtain rfl := hhead _ _ hh
  exact hk hh

theorem insert (h : OnList l S) (hk : ¬S k) :
    OnList (l.insertAfter .head (.timer k)) fun j => j = k ∨ S j := by
  obtain ⟨R, hrep, hhead, hmem⟩ := h
  have hfree := home_timer hhead fun hh => hk ((hmem k).mp hh)
  have ok : R.CanLink .head (.timer k) :=
    ⟨head_root hhead, hfree, seq_timer hhead k, by simp⟩
  have hhome : ∀ n, (R.prepend .head (.timer k) ok).home n =
      if n = .timer k then some .head else R.home n := fun n => by
    simp [Rings.prepend, Rings.link, Function.update_apply]
  refine ⟨R.prepend .head (.timer k) ok, hrep.insertAfter ok, fun n h hn => ?_, fun j => ?_⟩
  · rw [hhome] at hn
    split at hn
    · exact (Option.some.inj hn).symm
    · exact hhead n h hn
  · rw [hhome]
    by_cases hj : j = k
    · simp [hj]
    · simp [hj, hmem]

theorem remove (h : OnList l S) (k : TimerId) :
    OnList (l.remove (.timer k)) fun j => j ≠ k ∧ S j := by
  obtain ⟨R, hrep, hhead, hmem⟩ := h
  refine ⟨R.remove (.timer k), hrep.remove (seq_timer hhead k), fun n h hn => ?_, fun j => ?_⟩
  · rw [Rings.home_remove] at hn
    split at hn
    · cases hn
    · exact hhead n h hn
  · rw [Rings.home_remove]
    by_cases hj : j = k
    · simp [hj]
    · simp [hj, hmem]

theorem init (h : OnList l S) (hk : ¬S k) : OnList (l.init (.timer k)) S := by
  obtain ⟨R, hrep, hhead, hmem⟩ := h
  have hfree := home_timer hhead fun hh => hk ((hmem k).mp hh)
  exact ⟨R, hrep.init hfree (seq_timer hhead k), hhead, hmem⟩

theorem exists_timers {ns : List TimerNode} (h : ∀ n ∈ ns, n ≠ .head) :
    ∃ ks : List TimerId, ns = ks.map .timer := by
  induction ns with
  | nil => exact ⟨[], rfl⟩
  | cons n ns ih =>
      obtain ⟨ks, rfl⟩ := ih fun m hm => h m (List.mem_cons_of_mem n hm)
      cases n with
      | head => exact absurd rfl (h .head (by simp))
      | timer k => exact ⟨k :: ks, rfl⟩

/-- The pointers form the list of the timers in `S`. -/
theorem exists_list (h : OnList l S) :
    ∃ ks : List TimerId, l.Path .head (ks.map .timer) .head ∧ ks.Nodup ∧ ∀ k, k ∈ ks ↔ S k := by
  obtain ⟨R, hrep, hhead, hmem⟩ := h
  have hroot := head_root hhead
  have hne : ∀ n ∈ R.seq .head, n ≠ .head := by
    rintro n hn rfl
    rw [R.mem_seq, hroot] at hn
    cases hn
  obtain ⟨ks, hks⟩ := exists_timers hne
  refine ⟨ks, ?_, ?_, fun k => ?_⟩
  · rw [← hks]
    exact hrep _ hroot
  · have hnd := R.nodup .head
    rw [hks] at hnd
    exact hnd.of_map _
  · rw [← hmem, ← R.mem_seq, hks]
    simp

end OnList

/-- The pointers of `rt_timer_list` link the activated timers. -/
def Listed (σ : Kernel) : Prop :=
  OnList σ.timerLinks fun k => (σ.timer k).flag = .activated

theorem Listed.timerList {σ : Kernel} (h : Listed σ) : TimerList σ :=
  h.exists_list

namespace Listed

variable {σ₀ σ σ' : Kernel} {e : Event} {t : Tid} {k : TimerId}

theorem congr (h : Listed σ) (hl : σ'.timerLinks = σ.timerLinks)
    (hf : ∀ k, (σ'.timer k).flag = (σ.timer k).flag) : Listed σ' := by
  unfold Listed
  rw [hl]
  exact OnList.congr h fun k => by rw [hf]

theorem sched (h : Listed σ) (hs : SchedOnly σ σ') : Listed σ' :=
  h.congr hs.timerLinks fun k => by rw [hs.timer]

theorem setFrame (h : Listed σ) (t : Tid) (f : Frame) : Listed (σ.setFrame t f) := h

theorem setError (h : Listed σ) (t : Tid) (r : ℤ) : Listed (σ.setError t r) := h

theorem setStatu (h : Listed σ) (t : Tid) (s : Statu) : Listed (σ.setStatu t s) := h

theorem setSem (h : Listed σ) (s : ℕ) (x : Sem) : Listed (σ.setSem s x) := h

theorem setMb (h : Listed σ) (m : ℕ) (x : Mailbox) : Listed (σ.setMb m x) := h

theorem emit (h : Listed σ) (o : Obs) : Listed (σ.emit o) := h

theorem tlinks (h : Listed σ) (l : Links TNode) : Listed { σ with tlinks := l } := h

theorem setInitTick (h : Listed σ) (t : Tid) (tick : BitVec 32) : Listed (σ.setInitTick t tick) := by
  refine h.congr rfl fun k => ?_
  by_cases hk : k = .ofThread t
  · subst hk
    simp [Kernel.setInitTick, Kernel.setTimer]
  · simp [Kernel.setInitTick, Kernel.setTimer, hk]

theorem rtTimerStart (h : Listed σ) (hoff : (σ.timer k).flag = .noActivated) :
    Listed (LuojiOs.rtTimerStart k σ) := by
  refine OnList.congr (OnList.insert h (k := k) (by simp [hoff])) fun j => ?_
  by_cases hj : j = k
  · subst hj
    simp [LuojiOs.rtTimerStart, Kernel.setTimer]
  · simp [LuojiOs.rtTimerStart, Kernel.setTimer, hj]

theorem rtTimerInit (h : Listed σ) (hoff : (σ.timer k).flag = .noActivated) (f : TimeoutFunc)
    (time : BitVec 32) (flag : BitVec 8) : Listed (LuojiOs.rtTimerInit k f time flag σ) := by
  refine OnList.congr (OnList.init h (k := k) (by simp [hoff])) fun j => ?_
  by_cases hj : j = k
  · subst hj
    simp [LuojiOs.rtTimerInit, Kernel.setTimer, hoff]
  · simp [LuojiOs.rtTimerInit, Kernel.setTimer, hj]

/-- A timer is taken off the list and its flag cleared, whatever else its flag was. -/
theorem off_of_remove (h : OnList (σ.timerLinks) fun j => j ≠ k ∧ (σ.timer j).flag = .activated) :
    Listed (σ.setTimer k { σ.timer k with flag := .noActivated }) := by
  refine OnList.congr h fun j => ?_
  by_cases hj : j = k
  · subst hj
    simp [Kernel.setTimer]
  · simp [Kernel.setTimer, hj]

theorem rtTimerStop (h : Listed σ) (k : TimerId) : Listed (LuojiOs.rtTimerStop k σ).1 := by
  unfold LuojiOs.rtTimerStop
  split
  · exact h
  · exact off_of_remove (OnList.remove h k)

theorem rtThreadSuspend (h : Listed σ) (t : Tid) (s : Statu) :
    Listed (LuojiOs.rtThreadSuspend t s σ).1 := by
  unfold LuojiOs.rtThreadSuspend
  split
  · exact h
  · exact ((h.sched (schedOnly_rtScheduleRemoveThread t σ)).setStatu t s).rtTimerStop _

theorem wakeThread (h : Listed σ) (t : Tid) : Listed (LuojiOs.wakeThread t σ) := by
  have hunlink : Listed (unlinkThread t σ) := h
  exact (hunlink.rtTimerStop _).sched (schedOnly_rtScheduleInsertThread t _)

theorem rtThreadResume (h : Listed σ) (t : Tid) : Listed (LuojiOs.rtThreadResume t σ).1 := by
  unfold LuojiOs.rtThreadResume
  split
  · exact h
  · exact h.wakeThread t

theorem closeThread (h : Listed σ) (t : Tid) : Listed (LuojiOs.closeThread t σ) :=
  (((h.setStatu t .close).rtTimerStop _).sched (schedOnly_rtScheduleRemoveThread t _)).tlinks _

/-- A thread is linked on a wait list and starts its timer, which `rt_thread_suspend` has
stopped. -/
theorem park (h : Listed σ) {w : TNode} {a : After}
    (hstop : a.arm.isSome = true → (σ.timer (.ofThread t)).flag = .noActivated ∨
      σ.statu t = .ready ∨ σ.statu t = .running) : Listed (park t w a σ) := by
  have hsus : Listed (suspendOn w t (σ.setError t RT_EOK)) :=
    Listed.emit (((h.setError t RT_EOK).rtThreadSuspend t .suspend).tlinks _) _
  cases harm : a.arm with
  | none =>
      rw [park_of_not_arm harm]
      exact hsus.setFrame t _
  | some time =>
      rw [park_of_arm harm]
      refine Listed.setFrame ((hsus.setInitTick t time).rtTimerStart ?_) t _
      have hoff : ((suspendOn w t (σ.setError t RT_EOK)).timer (.ofThread t)).flag =
          .noActivated :=
        flag_suspended (σ := σ.setError t RT_EOK) (hstop (by simp [harm])) .suspend
      simpa [Kernel.setInitTick, Kernel.setTimer] using hoff

end Listed

end LuojiOs
