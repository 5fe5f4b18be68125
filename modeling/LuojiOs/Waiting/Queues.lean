import LuojiOs.Waiting.Grants

/-!
# Runs without kill, detach and direct resume

When threads only block, are handed something, time out, sleep and exit, the wait
lists are those the trace tells: first come, first on the list.  Two further things
follow.  A thread that makes a call has the status `RT_THREAD_RUNNING`, so that
`linkGuard` needs no assumption but the priorities, and a thread that was woken for
its turn stays woken until it runs again.
-/

namespace LuojiOs

open CircularList

/-- No thread is killed, suspended or resumed by a direct call, and no semaphore is
detached. -/
def Event.plain : Event → Bool
  | .call (.killThreadFun _) | .call (.rtSemDetach ..) | .call (.rtThreadSuspend ..)
  | .call (.rtThreadResume _) => false
  | _ => true

/-- Plain events and priorities of the table, and another thread is ready when the
current one has blocked or exited. -/
def plainGuard (σ : Kernel) (e : Event) : Bool :=
  e.plain && joinInRange e && switchGuard σ e

theorem guards_of_plainGuard {σ : Kernel} {e : Event} (h : plainGuard σ e = true) :
    e.plain = true ∧ joinInRange e = true ∧ switchGuard σ e = true := by
  simpa [plainGuard, and_assoc] using h

theorem quietGuard_of_plain {σ : Kernel} {e : Event} (h : e.plain = true) :
    quietGuard σ e = true := by
  unfold quietGuard
  split <;> simp_all [Event.plain]

/-- The wait lists are in the order of arrival, and no thread has suspended itself by
a direct call. -/
structure Queued (v : View) : Prop where
  order : ∀ w, w.isWait = true → waiting w v.trace = v.queue w
  frame : ∀ t, (v.thr t).frame ≠ .suspended

theorem ThreadOk.not_waiting {cur : Prop} {x : ThreadView} (h : ThreadOk cur x)
    (hs : x.statu ≠ .suspend) {w : TNode} (hw : w.isWait = true) : x.home ≠ some w := by
  intro hhome
  cases hst : x.statu with
  | init => exact h.used.1 hst
  | ready =>
      obtain ⟨⟨p, hp⟩, -⟩ := h.ready hst
      obtain rfl : TNode.ready p = w := by simpa [hp] using hhome
      simp [TNode.isWait] at hw
  | suspend => exact hs hst
  | sleep => simp [h.sleep hst] at hhome
  | running => simp [(h.running hst).1] at hhome
  | close =>
      obtain rfl : TNode.dead = w := by simpa [h.close hst] using hhome
      simp [TNode.isWait] at hw
  | deadSleep => exact h.used.2 hst

namespace Queued

variable {v v' : View} {t : Tid}

theorem congr (h : Queued v) (hq : v'.queue = v.queue)
    (htr : ∀ w, waiting w v'.trace = waiting w v.trace)
    (hf : ∀ u, (v'.thr u).frame ≠ .suspended) : Queued v' where
  order w hw := by
    rw [htr, hq]
    exact h.order w hw
  frame := hf

theorem emit (h : Queued v) {o : Obs} (ho : o.isReport = true) : Queued (v.emit o) :=
  h.congr rfl (fun w => waiting_report ho w v.trace) h.frame

theorem setSem (h : Queued v) (s : ℕ) (x : Sem) : Queued (v.setSem s x) :=
  h.congr rfl (fun _ => rfl) h.frame

theorem setMb (h : Queued v) (m : ℕ) (x : Mailbox) : Queued (v.setMb m x) :=
  h.congr rfl (fun _ => rfl) h.frame

theorem frame_update (h : Queued v) {x : ThreadView} (hx : x.frame ≠ .suspended) (u : Tid) :
    (Function.update v.thr t x u).frame ≠ .suspended := by
  by_cases hut : u = t
  · subst hut
    simpa using hx
  · simpa [hut] using h.frame u

theorem set (h : Queued v) {x : ThreadView} (hx : x.frame ≠ .suspended) :
    Queued (v.set t x) :=
  h.congr rfl (fun _ => rfl) (h.frame_update hx)

/-- A thread that is on no wait list goes to a place that is none either. -/
theorem move (h : Queued v) {x : ThreadView} (hx : x.frame ≠ .suspended)
    (hhome : ∀ w, w.isWait = true → x.home ≠ some w) (hnot : ∀ w, t ∉ v.queue w) :
    Queued (v.move t x) := by
  refine h.congr (funext fun w => ?_) (fun _ => rfl) (h.frame_update hx)
  have hcond : ¬(x.home = some w ∧ w.isWait = true) := fun hc => hhome w hc.2 hc.1
  simp [View.move, hcond, List.erase_of_not_mem (hnot w)]

theorem awake_home (p : ℕ) (t : Tid) (w : TNode) (hw : w.isWait = true) :
    (v.awake p t).home ≠ some w := by
  simp only [View.awake]
  split
  · simp
  · rintro ⟨rfl⟩
    simp [TNode.isWait] at hw

theorem not_mem_of_home (hp : Placed v)
    (hhome : ∀ w, w.isWait = true → (v.thr t).home ≠ some w) (w : TNode) :
    t ∉ v.queue w := by
  intro hm
  obtain ⟨hw, hh⟩ := (hp.mem_queue w t).mp hm
  exact hhome w hw hh

theorem not_mem (hp : Placed v) (ht : t ∈ v.live) (hs : (v.thr t).statu ≠ .suspend)
    (w : TNode) : t ∉ v.queue w :=
  not_mem_of_home hp (fun _ hw => (hp.thread t ht).not_waiting hs hw) w

theorem park (h : Queued v) (hp : Placed v) {w : TNode} {k : After} (hw : w.isWait = true)
    (hc : v.current = some t) (hrun : (v.thr t).statu = .running) :
    Queued (v.park t w k) where
  order w' hw' := by
    have hnot := not_mem hp (hp.current_mem t hc) (by simp [hrun]) w'
    have hold := h.order w' hw'
    by_cases hww : w = w'
    · subst hww
      simp [View.park, View.emit, View.move, waiting, hw, hold, List.erase_of_not_mem hnot]
    · simp [View.park, View.emit, View.move, waiting, hww, hold, List.erase_of_not_mem hnot]
  frame := h.frame_update (by simp)

/-- The first thread `u` of a wait list is woken for its turn. -/
theorem hand (h : Queued v) (hp : Placed v) {w : TNode} {u : Tid} {us : List Tid}
    (hq : v.queue w = u :: us) (p : ℕ) : Queued ((v.emit (.woke w u)).wake p u) where
  order w' hw' := by
    have hold := h.order w' hw'
    have hhome := awake_home (v := v.emit (.woke w u)) p u w' hw'
    have hqueue : ((v.emit (.woke w u)).wake p u).queue w' = (v.queue w').erase u := by
      exact if_neg fun hcond => hhome hcond.1
    rw [hqueue]
    by_cases hww : w = w'
    · subst hww
      simp [View.wake, View.move, View.emit, waiting, hold]
    · have hnot : u ∉ v.queue w' := by
        intro hm
        have hin : u ∈ v.queue w := by simp [hq]
        have h1 := ((hp.mem_queue w u).mp hin).2
        have h2 := ((hp.mem_queue w' u).mp hm).2
        rw [h1] at h2
        exact hww (by simpa using h2)
      simp [View.wake, View.move, View.emit, waiting, hww, hold, List.erase_of_not_mem hnot]
  frame := h.frame_update (h.frame u)

theorem expire (h : Queued v) (p : ℕ) (t : Tid) (r : ℤ) :
    Queued ((v.move t { v.awake p t with error := r }).emit (.expired t)) where
  order w hw := by
    have hhome := awake_home (v := v) p t w hw
    simp [View.move, View.emit, waiting, hhome, h.order w hw]
  frame := h.frame_update (h.frame t)

theorem rerun (h : Queued v) (t : Tid) (w : TNode) : Queued (v.rerun t w) :=
  (h.set (t := t) (x := { v.thr t with frame := .run }) (by simp)).congr rfl (fun _ => rfl)
    (h.frame_update (by simp))

/-! ## Every plain move keeps the order -/

theorem turn (h : Queued v) (hp : Placed v) {k : After} (hc : v.current = some t)
    (hT : View.Turn t k v v') : Queued v' := by
  cases hT with
  | giveUp hx hk ho =>
      refine Queued.emit (h.set ?_) (isReport_of_retObs ho)
      exact h.frame t
  | park hx hk hk' hw hrun => exact h.park hp (After.isWait_of_head hw) hc hrun
  | pass hx hk hq hr =>
      exact ((h.setMb _ _).emit (isReport_of_serves hk)).emit (isReport_of_retObs hr)
  | passWake hx hk hq hu hs hr =>
      refine Queued.set (Queued.hand ?_ ((hp.setMb _ _).emit _) hq _) (by simp)
      exact (h.setMb _ _).emit (isReport_of_serves hk)

theorem step {Q N : Prop} {M : ℕ → Prop} {e : Event} (hN : N) (he : e.plain = true)
    (hp : Placed v) (hg : Granted v) (h : Queued v) (hs : View.Step Q N M e v v') :
    Queued v' := by
  cases hs with
  | create ht hcur hlive hq => exact h.congr rfl (fun _ => rfl) (h.frame_update (by simp))
  | dispatch hc ht hs hh => exact h.congr rfl (fun _ => rfl) (h.frame_update (h.frame _))
  | @leave c d p q f _ hc hne hd hs hh hf =>
      have hx : (v.left c q f).frame ≠ .suspended := by
        have hfr : f ≠ .suspended := by
          rcases hf with rfl | ⟨k, rfl, -⟩
          · exact h.frame c
          · simp
        unfold View.left
        split <;> exact hfr
      have h₁ : Queued (v.set c (v.left c q f)) := h.set hx
      exact h₁.congr rfl (fun _ => rfl) (h₁.frame_update (h₁.frame d))
  | stay hc hrun hf => exact h.set (by simp)
  | suspend hev ht hs hsleep hf =>
      subst hev
      simp [Event.plain] at he
  | @sleep t _ hc hs hf =>
      exact h.move (by simp) (by simp) (not_mem hp (hp.current_mem t hc) (by simp [hs]))
  | enter hc hf => exact h.set (by simp)
  | @close t _ ht hself hkill =>
      by_cases hc : v.current = some t
      · have hfr := hself hc
        have hs := (hp.thread t ht).not_suspend (by rw [hfr]; rfl)
        refine h.move (h.frame t) (fun w hw hh => ?_) (not_mem hp ht hs)
        obtain rfl : TNode.dead = w := by simpa using hh
        simp [TNode.isWait] at hw
      · obtain ⟨id, rfl⟩ := hkill hc
        simp [Event.plain] at he
  | @clean t _ hh hc =>
      have hnot := not_mem_of_home hp (t := t) fun w hw hhome => by
        obtain rfl : TNode.dead = w := by simpa [hh] using hhome
        simp [TNode.isWait] at hw
      have h₁ : Queued (v.move t { v.thr t with home := none }) :=
        h.move (h.frame t) (by simp) hnot
      exact h₁.congr rfl (fun _ => rfl) h₁.frame
  | @resume t p _ ht hs hsleep =>
      exact h.move (h.frame t) (awake_home p t) (not_mem hp ht (by simp [hsleep hN]))
  | expire ht harm hs => exact h.expire _ _ _
  | semInit hs hq => exact (h.setSem _ _).emit rfl
  | mbInit hm hq hq' => exact h.setMb _ _
  | semTaken hx hpos => exact ((h.setSem _ _).emit rfl).emit rfl
  | semRefused => exact h.emit rfl
  | report ho => exact h.emit (isReport_of_prompt ho)
  | semPark hx hzero hc hrun hf => exact h.park hp rfl hc hrun
  | semUp hx hroom hq => exact (h.setSem _ _).emit rfl
  | semHand hx hq hu hs => exact (h.emit (o := .semReleased _) rfl).hand (hp.emit _) hq _
  | post hx hk hq => exact (h.setMb _ _).emit (isReport_of_serves hk)
  | postWake hx hk hq hu hs =>
      exact ((h.setMb _ _).emit (isReport_of_serves hk)).hand ((hp.setMb _ _).emit _) hq _
  | turn hc hf hT => exact h.turn hp hc hT
  | rerunTurn hc hf hw hw' hk herr hT =>
      exact (h.rerun _ _).turn (hp.rerun hc hf) hc hT
  | rerunRet hc hf hw ho herr => exact (h.rerun _ _).emit (isReport_of_retObs ho)
  | @returned t r _ hc hf =>
      have hrun : Queued (v.setFrame t .run) := h.set (by simp)
      cases r with
      | none => exact hrun
      | some o =>
          refine hrun.emit (isReport_of_prompt ((hg.thread t).stored o ?_))
          rw [hf]
          rfl

end Queued

/-! ## The runs -/

/-- The pointers of a wait list link the threads of the queue. -/
theorem LinkInv.path_queue {σ : Kernel} {R : Rings TNode} (h : LinkInv σ R) {w : TNode}
    (hw : w.isWait = true) :
    σ.tlinks.Path w (((view σ R).queue w).map .thread) w := by
  rw [queue_of_isWait hw, map_thread_tids fun n hn => ?_]
  · exact h.represents _ (h.home_head (TNode.isThread_of_isWait hw))
  · obtain ⟨-, t, -, rfl⟩ := h.member n _ ((R.mem_seq _ _).mp hn)
    exact ⟨t, rfl⟩

theorem queued_threadInit (tick : BitVec 32) : Queued (view (threadInit tick) Rings.empty) where
  order w hw := by
    rw [queue_of_isWait hw]
    rfl
  frame t := by simp [view, threadInit]

/-- What holds of the waiting protocol in runs of plain events. -/
structure Orderly (v : View) : Prop where
  placed : Placed v
  granted : Granted v
  queued : Queued v

theorem Orderly.step {Q N : Prop} {M : ℕ → Prop} {e : Event} {v v' : View} (hQ : Q) (hN : N)
    (he : e.plain = true) (h : Orderly v) (hs : View.Step Q N M e v v') : Orderly v' where
  placed := h.placed.step hQ hs
  granted := h.granted.step hQ hN h.placed hs
  queued := h.queued.step hN he h.placed h.granted hs

theorem orderly_threadInit (tick : BitVec 32) : Orderly (view (threadInit tick) Rings.empty) :=
  ⟨placed_threadInit tick, granted_threadInit tick, queued_threadInit tick⟩

/-- A thread that can go on and stands before no `rt_schedule()` runs. -/
theorem blocks_eq_false {σ σ' : Kernel} {e : Event} {t : Tid} {k : After}
    (hc : σ.currentThread = some t) (hf : σ.frame t = .schedule k)
    (hs : step σ e = some σ') : blocks σ e = false := by
  cases e with
  | call c =>
      have hcall : canCall σ = false := by simp [canCall, hc, hf]
      simp [step, hcall] at hs
  | goOn => simp [blocks, hc, hf]
  | threadStart | tick fuel | isrSemRelease s | isrMbSend m value => rfl

theorem linkGuard_of_orderly {σ σ' : Kernel} {R : Rings TNode} {e : Event}
    (h : Orderly (view σ R)) (hjoin : joinInRange e = true) (hs : step σ e = some σ') :
    linkGuard σ e = true := by
  have hruns : blocks σ e = true → callerRuns σ = true := by
    intro hb
    unfold callerRuns
    split
    · rfl
    · next t hc =>
      have ht := h.placed.current_mem t hc
      rcases (h.placed.thread t ht).current hc with hrun | ⟨k, hk⟩ | hsus
      · exact decide_eq_true hrun
      · simp [blocks_eq_false hc hk hs] at hb
      · exact absurd hsus (h.queued.frame t)
  unfold linkGuard
  rw [hjoin]
  cases hb : blocks σ e with
  | false => rfl
  | true => simpa using hruns hb

/-- In runs of plain events with priorities of the table, an invariant of the abstract
machine that may lean on `Orderly` holds. -/
theorem Reachable.orderly {guard : Kernel → Event → Prop} {I : View → Prop}
    (hplain : ∀ σ e, guard σ e → plainGuard σ e = true)
    (hfirst : ∀ tick, I (view (threadInit tick) Rings.empty))
    (hstep : ∀ σ e v v', guard σ e →
      View.Step (switchGuard σ e = true) (quietGuard σ e = true)
        (fun s => roomGuard s σ e = true) e v v' → Orderly v → I v → I v')
    {σ : Kernel} (h : Reachable guard σ) :
    ∃ R, BaseInv σ R ∧ Orderly (view σ R) ∧ I (view σ R) := by
  have hrule : ∀ {σ}, Reachable (fun σ e => guard σ e ∧ linkGuard σ e = true) σ →
      ∃ R, BaseInv σ R ∧ Orderly (view σ R) ∧ I (view σ R) := by
    intro σ hr
    refine Reachable.protocol (I := fun v => Orderly v ∧ I v) (fun _ _ hg => hg.2)
      (fun tick => ⟨orderly_threadInit tick, hfirst tick⟩) ?_ hr
    rintro σ e v v' ⟨hg, -⟩ hs ⟨ho, hI⟩
    obtain ⟨he, -, hQ⟩ := guards_of_plainGuard (hplain σ e hg)
    exact ⟨ho.step hQ (quietGuard_of_plain he) he hs, hstep σ e v v' hg hs ho hI⟩
  refine hrule (Runs.Reach.strengthen hrule ?_ h)
  rintro σ e σ' ⟨R, -, ho, -⟩ hg hs
  exact ⟨hg, linkGuard_of_orderly ho (guards_of_plainGuard (hplain σ e hg)).2.1 hs⟩

end LuojiOs
