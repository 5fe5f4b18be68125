import LuojiOs.Kernel.Acts
import LuojiOs.Scheduler.Bitmap

/-!
# The linked lists of the scheduler

`LinkInv σ R` says that the `tlist` pointers of `σ` link exactly the rings `R`,
that only created threads are members and only heads are roots, and that the
ready table, its bitmap and the status words agree.  Each function of the
scheduler that edits the lists has one lemma here, which gives the rings it leaves
behind; `Moved` says which thread went where.
-/

namespace LuojiOs

open CircularList

/-! ## What the invariant reads -/

/-- Two states with the same lists, threads, status words and ready table. -/
structure SameSched (σ σ' : Kernel) : Prop where
  tlinks : σ'.tlinks = σ.tlinks
  allThread : σ'.allThread = σ.allThread
  nextTid : σ'.nextTid = σ.nextTid
  thread : σ'.thread = σ.thread
  statu : σ'.statu = σ.statu
  current : σ'.currentThread = σ.currentThread
  group : σ'.readyPriorityGroup = σ.readyPriorityGroup

theorem SameSched.refl (σ : Kernel) : SameSched σ σ :=
  ⟨rfl, rfl, rfl, rfl, rfl, rfl, rfl⟩

theorem SameSched.trans {σ₁ σ₂ σ₃ : Kernel} (h : SameSched σ₁ σ₂) (h' : SameSched σ₂ σ₃) :
    SameSched σ₁ σ₃ :=
  ⟨h'.tlinks.trans h.tlinks, h'.allThread.trans h.allThread, h'.nextTid.trans h.nextTid,
    h'.thread.trans h.thread, h'.statu.trans h.statu, h'.current.trans h.current,
    h'.group.trans h.group⟩

theorem sameSched_setError (t : Tid) (e : ℤ) (σ : Kernel) : SameSched σ (σ.setError t e) :=
  ⟨rfl, rfl, rfl, rfl, rfl, rfl, rfl⟩

theorem sameSched_setFrame (t : Tid) (f : Frame) (σ : Kernel) :
    SameSched σ (σ.setFrame t f) :=
  ⟨rfl, rfl, rfl, rfl, rfl, rfl, rfl⟩

theorem sameSched_setTimer (k : TimerId) (x : Timer) (σ : Kernel) :
    SameSched σ (σ.setTimer k x) :=
  ⟨rfl, rfl, rfl, rfl, rfl, rfl, rfl⟩

theorem sameSched_setInitTick (t : Tid) (tick : BitVec 32) (σ : Kernel) :
    SameSched σ (σ.setInitTick t tick) :=
  ⟨rfl, rfl, rfl, rfl, rfl, rfl, rfl⟩

theorem sameSched_setSem (s : ℕ) (x : Sem) (σ : Kernel) : SameSched σ (σ.setSem s x) :=
  ⟨rfl, rfl, rfl, rfl, rfl, rfl, rfl⟩

theorem sameSched_setMb (m : ℕ) (x : Mailbox) (σ : Kernel) : SameSched σ (σ.setMb m x) :=
  ⟨rfl, rfl, rfl, rfl, rfl, rfl, rfl⟩

theorem sameSched_emit (o : Obs) (σ : Kernel) : SameSched σ (σ.emit o) :=
  ⟨rfl, rfl, rfl, rfl, rfl, rfl, rfl⟩

theorem sameSched_rtTimerInit (k : TimerId) (f : TimeoutFunc) (time : BitVec 32)
    (flag : BitVec 8) (σ : Kernel) : SameSched σ (rtTimerInit k f time flag σ) :=
  ⟨rfl, rfl, rfl, rfl, rfl, rfl, rfl⟩

theorem sameSched_rtTimerStart (k : TimerId) (σ : Kernel) :
    SameSched σ (rtTimerStart k σ) :=
  ⟨rfl, rfl, rfl, rfl, rfl, rfl, rfl⟩

theorem sameSched_rtTimerStop (k : TimerId) (σ : Kernel) :
    SameSched σ (rtTimerStop k σ).1 := by
  unfold rtTimerStop
  split
  · exact SameSched.refl σ
  · exact ⟨rfl, rfl, rfl, rfl, rfl, rfl, rfl⟩

theorem sameSched_armTimer (t : Tid) (time : BitVec 32) (σ : Kernel) :
    SameSched σ (armTimer t time σ) :=
  ⟨rfl, rfl, rfl, rfl, rfl, rfl, rfl⟩

theorem sameSched_runTimerOps (ops : List TimerOp) (σ : Kernel) :
    SameSched σ (ops.foldl runTimerOp σ) := by
  induction ops generalizing σ with
  | nil => exact SameSched.refl σ
  | cons op ops ih =>
      refine SameSched.trans ?_ (ih _)
      cases op with
      | start u => exact sameSched_rtTimerStart _ σ
      | stop u => exact sameSched_rtTimerStop _ σ

theorem TNode.isThread_of_isWait {w : TNode} (hw : w.isWait = true) :
    w.isThread = false := by
  cases w <;> simp_all [TNode.isWait, TNode.isThread]

theorem Statu.not_runnable_of_isBlocked {s : Statu} (h : s.isBlocked = true) :
    s.runnable = false := by
  cases s <;> simp_all [isBlocked, runnable]

/-! ## The invariant -/

/-- The bitmap shows which ready lists of `R` are not empty. -/
def Bitmap (g : BitVec 32) (R : Rings TNode) : Prop :=
  ∀ p < 32, g.getLsbD p = true ↔ R.seq (.ready p) ≠ []

/-- The priority of a thread is in range and its mask is the bit of it. -/
def PriorityOk (x : Thread) : Prop :=
  x.currentPriority < 32 ∧ x.numberMask = priorityMask x.currentPriority

structure LinkInv (σ : Kernel) (R : Rings TNode) : Prop where
  /-- the pointers link the rings -/
  represents : R.Represents σ.tlinks
  /-- the members are created threads and the roots are list heads -/
  member : ∀ n h, R.home n = some h → h.isThread = false ∧ ∃ t ∈ σ.allThread, n = .thread t
  /-- a thread on a ready list is on the one of its priority -/
  ready : ∀ t p, R.home (.thread t) = some (.ready p) →
    (σ.thread t).currentPriority = p ∧ σ.statu t = .ready
  dead : ∀ t, R.home (.thread t) = some .dead → σ.statu t = .close
  wait : ∀ t w, R.home (.thread t) = some w → w.isWait = true → σ.statu t = .suspend
  blocked : ∀ t, (σ.statu t).isBlocked = true → t ∈ σ.allThread
  priority : ∀ t ∈ σ.allThread, PriorityOk (σ.thread t)
  /-- the bitmap shows the lists that are not empty -/
  group : Bitmap σ.readyPriorityGroup R
  /-- the current thread is not linked unless it is on its way out -/
  current : ∀ c, σ.currentThread = some c → c ∈ σ.allThread ∧
    ((σ.statu c).runnable = true → R.home (.thread c) = none)
  fresh : ∀ t ∈ σ.allThread, t < σ.nextTid

/-- `R'` is `R` after the thread `t` was taken off its list and, with a
destination, linked there. -/
structure Moved (R R' : Rings TNode) (t : Tid) (dest : Option TNode) : Prop where
  home : ∀ n, R'.home n = if n = .thread t then dest else R.home n
  seq : ∀ w, dest ≠ some w → R'.seq w = (R.seq w).erase (.thread t)

theorem Moved.remove (R : Rings TNode) (t : Tid) : Moved R (R.remove (.thread t)) t none :=
  ⟨by simp, by simp⟩

theorem Moved.append (R : Rings TNode) {w : TNode} {t : Tid}
    (ok : R.CanLink w (.thread t)) :
    Moved R (R.append w (.thread t) ok) t (some w) := by
  refine ⟨by simp, fun v hv => ?_⟩
  rw [Rings.seq_append, if_neg (fun he => hv (by rw [he])),
    List.erase_of_not_mem (R.root_notMem ok.free v)]

theorem Moved.prepend (R : Rings TNode) {w : TNode} {t : Tid}
    (ok : R.CanLink w (.thread t)) :
    Moved R (R.prepend w (.thread t) ok) t (some w) := by
  refine ⟨by simp, fun v hv => ?_⟩
  rw [Rings.seq_prepend, if_neg (fun he => hv (by rw [he])),
    List.erase_of_not_mem (R.root_notMem ok.free v)]

theorem Moved.refl {R : Rings TNode} {t : Tid} (h : R.home (.thread t) = none) :
    Moved R R t none := by
  refine ⟨fun n => ?_, fun v _ => (List.erase_of_not_mem (R.root_notMem h v)).symm⟩
  split
  · next he => rw [he, h]
  · rfl

theorem Moved.trans {R R₁ R₂ : Rings TNode} {t : Tid} {d : Option TNode}
    (h : Moved R R₁ t none) (h' : Moved R₁ R₂ t d) : Moved R R₂ t d := by
  refine ⟨fun n => ?_, fun w hw => ?_⟩
  · rw [h'.home, h.home]
    split <;> rfl
  · have hnd : ((R.seq w).erase (.thread t)).erase (.thread t) =
        (R.seq w).erase (.thread t) :=
      List.erase_of_not_mem (fun hm => absurd rfl ((R.nodup w).mem_erase_iff.mp hm).1)
    rw [h'.seq w hw, h.seq w (by simp), hnd]

/-- A ring the thread is neither taken from nor put on is as it was. -/
theorem Moved.seq_eq {R R' : Rings TNode} {t : Tid} {d : Option TNode}
    (h : Moved R R' t d) {w : TNode} (hw : d ≠ some w) (hhome : R.home (.thread t) ≠ some w) :
    R'.seq w = R.seq w := by
  rw [h.seq w hw]
  exact List.erase_of_not_mem (by rwa [R.mem_seq])

theorem Moved.home_other {R R' : Rings TNode} {t : Tid} {d : Option TNode}
    (h : Moved R R' t d) {u : Tid} (hu : u ≠ t) :
    R'.home (.thread u) = R.home (.thread u) := by
  rw [h.home, if_neg (by simpa using hu)]

theorem Moved.home_self {R R' : Rings TNode} {t : Tid} {d : Option TNode}
    (h : Moved R R' t d) : R'.home (.thread t) = d := by
  rw [h.home, if_pos rfl]

/-- Where `rt_schedule_insert_thread` puts a thread. -/
def insertDest (t : Tid) (σ : Kernel) : Option TNode :=
  if σ.currentThread = some t then none else some (.ready (σ.thread t).currentPriority)

/-! ## The effect of the two edits of the ready table -/

/-- The bitmap `rt_schedule_remove_thread` leaves. -/
def clearedGroup (t : Tid) (σ : Kernel) : BitVec 32 :=
  if (σ.tlinks.remove (.thread t)).isEmpty (.ready (σ.thread t).currentPriority) then
    σ.readyPriorityGroup &&& ~~~(σ.thread t).numberMask
  else σ.readyPriorityGroup

theorem rtScheduleRemoveThread_eq (t : Tid) (σ : Kernel) :
    rtScheduleRemoveThread t σ =
      { σ with
        tlinks := σ.tlinks.remove (.thread t)
        readyPriorityGroup := clearedGroup t σ } := by
  unfold rtScheduleRemoveThread clearedGroup unlinkThread
  dsimp only
  split <;> rfl

theorem rtScheduleInsertThread_current {t : Tid} {σ : Kernel}
    (h : σ.currentThread = some t) :
    rtScheduleInsertThread t σ = σ.setStatu t .running := by
  rw [rtScheduleInsertThread, if_pos h]

theorem rtScheduleInsertThread_other {t : Tid} {σ : Kernel}
    (h : σ.currentThread ≠ some t) :
    rtScheduleInsertThread t σ =
      { σ.setStatu t .ready with
        tlinks := σ.tlinks.insertBefore (.ready (σ.thread t).currentPriority) (.thread t)
        readyPriorityGroup := σ.readyPriorityGroup ||| (σ.thread t).numberMask } := by
  rw [rtScheduleInsertThread, if_neg h]
  rfl

theorem Bitmap.append {g : BitVec 32} {R : Rings TNode} {x : Thread} {t : Tid}
    (h : Bitmap g R) (hx : PriorityOk x)
    (ok : R.CanLink (.ready x.currentPriority) (.thread t)) :
    Bitmap (g ||| x.numberMask) (R.append _ _ ok) := by
  intro q hq
  rw [hx.2, getLsbD_or_priorityMask _ hx.1 hq, Rings.seq_append]
  by_cases hqp : q = x.currentPriority
  · simp [hqp]
  · simp [hqp, h q hq]

theorem Bitmap.remove {σ : Kernel} {R : Rings TNode} {t : Tid}
    (h : Bitmap σ.readyPriorityGroup R) (hrep : R.Represents σ.tlinks)
    (hthread : R.seq (.thread t) = []) (hroot : ∀ p, R.home (.ready p) = none)
    (hx : PriorityOk (σ.thread t))
    (hq : ∀ q, R.home (.thread t) = some (.ready q) → q = (σ.thread t).currentPriority) :
    Bitmap (clearedGroup t σ) (R.remove (.thread t)) := by
  have hempty := (hrep.remove hthread).isEmpty_iff
    (h := .ready (σ.thread t).currentPriority) (by simp [hroot])
  -- the lists of the other priorities do not hold `t`
  have hother : ∀ q, q ≠ (σ.thread t).currentPriority →
      (R.remove (.thread t)).seq (.ready q) = R.seq (.ready q) :=
    fun q hne => Rings.seq_remove_of_home_ne R (fun hh => hne (hq q hh))
  intro q hq32
  unfold clearedGroup
  by_cases hqp : q = (σ.thread t).currentPriority
  · subst hqp
    split
    · next he =>
      rw [hx.2, getLsbD_clear_priorityMask _ hx.1 hx.1, hempty.mp he]
      simp
    · next he =>
      have hne : (R.remove (.thread t)).seq (.ready (σ.thread t).currentPriority) ≠ [] :=
        fun hnil => he (hempty.mpr hnil)
      rw [h _ hx.1]
      refine ⟨fun _ => hne, fun _ hnil => hne ?_⟩
      simp [hnil]
  · rw [hother q hqp, ← h q hq32]
    split
    · rw [hx.2, getLsbD_clear_priorityMask _ hx.1 hq32]
      simp [hqp]
    · rfl

namespace LinkInv

variable {σ σ' : Kernel} {R : Rings TNode} {t : Tid}

theorem congr (h : LinkInv σ R) (hs : SameSched σ σ') : LinkInv σ' R where
  represents := by rw [hs.tlinks]; exact h.represents
  member := by rw [hs.allThread]; exact h.member
  ready := by rw [hs.thread, hs.statu]; exact h.ready
  dead := by rw [hs.statu]; exact h.dead
  wait := by rw [hs.statu]; exact h.wait
  blocked := by rw [hs.statu, hs.allThread]; exact h.blocked
  priority := by rw [hs.allThread, hs.thread]; exact h.priority
  group := by rw [hs.group]; exact h.group
  current := by rw [hs.current, hs.allThread, hs.statu]; exact h.current
  fresh := by rw [hs.allThread, hs.nextTid]; exact h.fresh

theorem home_head (h : LinkInv σ R) {w : TNode} (hw : w.isThread = false) :
    R.home w = none := by
  cases hh : R.home w with
  | none => rfl
  | some r =>
      obtain ⟨-, t, -, rfl⟩ := h.member w r hh
      simp [TNode.isThread] at hw

theorem seq_thread (h : LinkInv σ R) (t : Tid) : R.seq (.thread t) = [] := by
  cases hs : R.seq (.thread t) with
  | nil => rfl
  | cons x xs =>
      have := (h.member x (.thread t) (R.home_of_seq_eq_cons hs)).1
      simp [TNode.isThread] at this

theorem mem_allThread (h : LinkInv σ R) {w : TNode} (hw : R.home (.thread t) = some w) :
    t ∈ σ.allThread := by
  obtain ⟨-, u, hu, he⟩ := h.member _ _ hw
  cases he
  exact hu

theorem canLink (h : LinkInv σ R) {w : TNode} (hw : w.isThread = false)
    (ht : R.home (.thread t) = none) : R.CanLink w (.thread t) where
  root := h.home_head hw
  free := ht
  alone := h.seq_thread t
  ne := by
    rintro rfl
    simp [TNode.isThread] at hw

theorem unique {R' : Rings TNode} (h : LinkInv σ R) (h' : LinkInv σ R') : R = R' := by
  refine h.represents.unique h'.represents (fun n => n.isThread = false) ?_ ?_
  · intro n w hn
    obtain ⟨hw, t, -, rfl⟩ := h.member n w hn
    exact ⟨hw, by simp [TNode.isThread]⟩
  · intro n w hn
    obtain ⟨hw, t, -, rfl⟩ := h'.member n w hn
    exact ⟨hw, by simp [TNode.isThread]⟩

theorem isEmpty_iff (h : LinkInv σ R) {w : TNode} (hw : w.isThread = false) :
    σ.tlinks.isEmpty w = true ↔ R.seq w = [] :=
  h.represents.isEmpty_iff (h.home_head hw)

theorem not_ready_of_statu (h : LinkInv σ R) (hs : σ.statu t ≠ .ready) (p : ℕ) :
    R.home (.thread t) ≠ some (.ready p) :=
  fun hp => hs (h.ready t p hp).2

/-! ## One lemma for each edit -/

theorem setStatu (h : LinkInv σ R) {s : Statu}
    (hready : ∀ p, R.home (.thread t) = some (.ready p) → s = .ready)
    (hdead : R.home (.thread t) = some .dead → s = .close)
    (hwait : ∀ w, R.home (.thread t) = some w → w.isWait = true → s = .suspend)
    (hlive : s.isBlocked = true → t ∈ σ.allThread)
    (hcur : σ.currentThread = some t → s.runnable = true → R.home (.thread t) = none) :
    LinkInv (σ.setStatu t s) R where
  represents := h.represents
  member := h.member
  ready u p hu := by
    refine ⟨(h.ready u p hu).1, ?_⟩
    by_cases hut : u = t
    · subst hut
      simpa [Kernel.setStatu] using hready p hu
    · simpa [Kernel.setStatu, hut] using (h.ready u p hu).2
  dead u hu := by
    by_cases hut : u = t
    · subst hut
      simpa [Kernel.setStatu] using hdead hu
    · simpa [Kernel.setStatu, hut] using h.dead u hu
  wait u w hu hw := by
    by_cases hut : u = t
    · subst hut
      simpa [Kernel.setStatu] using hwait w hu hw
    · simpa [Kernel.setStatu, hut] using h.wait u w hu hw
  blocked u hu := by
    by_cases hut : u = t
    · subst hut
      exact hlive (by simpa [Kernel.setStatu] using hu)
    · exact h.blocked u (by simpa [Kernel.setStatu, hut] using hu)
  priority := h.priority
  group := h.group
  current c hc := by
    refine ⟨(h.current c hc).1, fun hrun => ?_⟩
    by_cases hct : c = t
    · subst hct
      exact hcur hc (by simpa [Kernel.setStatu] using hrun)
    · exact (h.current c hc).2 (by simpa [Kernel.setStatu, hct] using hrun)
  fresh := h.fresh

/-- A thread that is on no ready list may be taken off its list, and linked on a
list that is not a ready list, without a change of the bitmap. -/
theorem relink (h : LinkInv σ R) {l : Links TNode} {R' : Rings TNode}
    {dest : Option TNode} (hrep : R'.Represents l) (hm : Moved R R' t dest)
    (hs : ∀ p, R.home (.thread t) ≠ some (.ready p))
    (hdest : ∀ w, dest = some w → w.isThread = false ∧ (∀ p, w ≠ .ready p) ∧
      t ∈ σ.allThread ∧ (σ.currentThread = some t → (σ.statu t).runnable = false) ∧
      (w = .dead → σ.statu t = .close) ∧ (w.isWait = true → σ.statu t = .suspend)) :
    LinkInv { σ with tlinks := l } R' where
  represents := hrep
  member n w hn := by
    rw [hm.home] at hn
    split at hn
    · next he => exact ⟨(hdest w hn).1, t, (hdest w hn).2.2.1, he⟩
    · exact h.member n w hn
  ready u p hu := by
    rw [hm.home] at hu
    split at hu
    · exact absurd rfl ((hdest _ hu).2.1 p)
    · exact h.ready u p hu
  dead u hu := by
    rw [hm.home] at hu
    split at hu
    · next he =>
      cases he
      exact (hdest _ hu).2.2.2.2.1 rfl
    · exact h.dead u hu
  wait u w hu hw := by
    rw [hm.home] at hu
    split at hu
    · next he =>
      cases he
      exact (hdest _ hu).2.2.2.2.2 hw
    · exact h.wait u w hu hw
  blocked := h.blocked
  priority := h.priority
  group p hp := by
    rw [hm.seq_eq (fun he => (hdest _ he).2.1 p rfl) (hs p)]
    exact h.group p hp
  current c hc := by
    refine ⟨(h.current c hc).1, fun hrun => ?_⟩
    rw [hm.home]
    split
    · next he =>
      cases he
      cases hd : dest with
      | none => rfl
      | some w => exact absurd hrun (by simp [(hdest w hd).2.2.2.1 hc])
    · exact (h.current c hc).2 hrun
  fresh := h.fresh

/-- Taking off a thread that is on no ready list. -/
theorem unlink (h : LinkInv σ R) (hs : ∀ p, R.home (.thread t) ≠ some (.ready p)) :
    LinkInv (unlinkThread t σ) (R.remove (.thread t)) :=
  h.relink (h.represents.remove (h.seq_thread t)) (Moved.remove R t) hs (by simp)

/-- Linking an unlinked thread at the end of a wait list. -/
theorem appendOn (h : LinkInv σ R) {w : TNode} (hw : w.isWait = true)
    (ht : t ∈ σ.allThread) (hfree : R.home (.thread t) = none)
    (hs : σ.statu t = .suspend) :
    LinkInv { σ with tlinks := σ.tlinks.insertBefore w (.thread t) }
      (R.append w (.thread t) (h.canLink (TNode.isThread_of_isWait hw) hfree)) := by
  refine h.relink (h.represents.insertBefore _) (Moved.append R _) (by simp [hfree]) ?_
  rintro v ⟨rfl⟩
  refine ⟨TNode.isThread_of_isWait hw, ?_, ht, fun _ => by rw [hs]; rfl, ?_, fun _ => hs⟩
  · rintro p rfl
    simp [TNode.isWait] at hw
  · rintro rfl
    simp [TNode.isWait] at hw

/-- Linking an unlinked, closed thread at the front of `rt_thread_dead`. -/
theorem prependDead (h : LinkInv σ R) (ht : t ∈ σ.allThread)
    (hfree : R.home (.thread t) = none) (hs : σ.statu t = .close) :
    LinkInv { σ with tlinks := σ.tlinks.insertAfter .dead (.thread t) }
      (R.prepend .dead (.thread t) (h.canLink rfl hfree)) := by
  refine h.relink (h.represents.insertAfter _) (Moved.prepend R _) (by simp [hfree]) ?_
  rintro v ⟨rfl⟩
  exact ⟨rfl, by simp, ht, fun _ => by rw [hs]; rfl, fun _ => hs, by simp [TNode.isWait]⟩

theorem removeThread (h : LinkInv σ R) (ht : t ∈ σ.allThread) :
    LinkInv (rtScheduleRemoveThread t σ) (R.remove (.thread t)) := by
  have hready : ∀ u p, (R.remove (.thread t)).home (.thread u) = some (.ready p) →
      (σ.thread u).currentPriority = p ∧ σ.statu u = .ready := by
    intro u p hu
    have hut : u ≠ t := by
      rintro rfl
      simp at hu
    exact h.ready u p (by simpa [hut] using hu)
  have hgroup := h.group.remove h.represents (h.seq_thread t)
    (fun p => h.home_head (w := .ready p) rfl) (h.priority t ht)
    fun q hq => (h.ready t q hq).1.symm
  rw [rtScheduleRemoveThread_eq]
  refine ⟨h.represents.remove (h.seq_thread t), fun n w hn => ?_, hready, fun u hu => ?_,
    fun u w hu hw => ?_, h.blocked, h.priority, hgroup,
    fun c hc => ⟨(h.current c hc).1, fun hrun => ?_⟩, h.fresh⟩
  · have hne : n ≠ .thread t := by
      rintro rfl
      simp at hn
    exact h.member n w (by simpa [hne] using hn)
  · have hut : u ≠ t := by
      rintro rfl
      simp at hu
    exact h.dead u (by simpa [hut] using hu)
  · have hut : u ≠ t := by
      rintro rfl
      simp at hu
    exact h.wait u w (by simpa [hut] using hu) hw
  · rw [Rings.home_remove]
    split
    · rfl
    · exact (h.current c hc).2 hrun

theorem insertThread (h : LinkInv σ R) (ht : t ∈ σ.allThread)
    (hfree : R.home (.thread t) = none) :
    ∃ R', LinkInv (rtScheduleInsertThread t σ) R' ∧ Moved R R' t (insertDest t σ) := by
  unfold insertDest
  by_cases hcur : σ.currentThread = some t
  · rw [rtScheduleInsertThread_current hcur, if_pos hcur]
    exact ⟨R, h.setStatu (by simp [hfree]) (by simp [hfree]) (by simp [hfree])
      (by simp [Statu.isBlocked]) (fun _ _ => hfree), Moved.refl hfree⟩
  · rw [rtScheduleInsertThread_other hcur, if_neg hcur]
    have ok : R.CanLink (.ready (σ.thread t).currentPriority) (.thread t) :=
      h.canLink rfl hfree
    refine ⟨R.append _ _ ok, ⟨h.represents.insertBefore ok, fun n w hn => ?_,
      fun u p hu => ?_, fun u hu => ?_, fun u w hu hw => ?_, fun u hu => ?_, h.priority,
      h.group.append (h.priority t ht) ok,
      fun c hc => ?_, h.fresh⟩, Moved.append R ok⟩
    · by_cases hne : n = .thread t
      · subst hne
        have hwv : TNode.ready (σ.thread t).currentPriority = w := by simpa using hn
        exact ⟨hwv ▸ rfl, t, ht, rfl⟩
      · exact h.member n w (by simpa [hne] using hn)
    · by_cases hut : u = t
      · subst hut
        have hp : (σ.thread u).currentPriority = p := by simpa using hu
        exact ⟨hp, by simp [Kernel.setStatu]⟩
      · have hold := h.ready u p (by simpa [hut] using hu)
        exact ⟨hold.1, by simpa [Kernel.setStatu, hut] using hold.2⟩
    · have hut : u ≠ t := by
        rintro rfl
        simp at hu
      simpa [Kernel.setStatu, hut] using h.dead u (by simpa [hut] using hu)
    · have hut : u ≠ t := by
        rintro rfl
        have hwv : TNode.ready (σ.thread u).currentPriority = w := by simpa using hu
        simp [← hwv, TNode.isWait] at hw
      simpa [Kernel.setStatu, hut] using h.wait u w (by simpa [hut] using hu) hw
    · by_cases hut : u = t
      · subst hut
        exact ht
      · exact h.blocked u (by simpa [Kernel.setStatu, hut] using hu)
    · have hct : c ≠ t := by
        rintro rfl
        exact hcur hc
      refine ⟨(h.current c hc).1, fun hrun => ?_⟩
      rw [Rings.home_append, if_neg (by simpa using hct)]
      exact (h.current c hc).2 (by simpa [Kernel.setStatu, hct] using hrun)

end LinkInv

end LuojiOs
