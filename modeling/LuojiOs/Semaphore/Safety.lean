import LuojiOs.Semaphore.Ledger

/-!
# No more takes than units

The takes that have returned `RT_EOK` are at most the initial value plus the
releases, as long as a thread leaves the wait list only by a hand-over, a timeout
or a kill and a blocked thread really switches away.  `rt_sem_detach` resumes the
waiting threads without an error code, and `rt_schedule` returns at once to a
blocked thread when nothing else is ready; in both cases a take succeeds with no
unit behind it.
-/

namespace LuojiOs

open CircularList

/-- A thread leaves a wait list only by a hand-over, a timeout or a kill, and a
thread that has blocked switches away. -/
def waitGuard (σ : Kernel) (e : Event) : Bool :=
  runGuard σ e && quietGuard σ e

theorem guards_of_waitGuard {σ : Kernel} {e : Event} (h : waitGuard σ e = true) :
    linkGuard σ e = true ∧ switchGuard σ e = true ∧ quietGuard σ e = true := by
  obtain ⟨hrun, hquiet⟩ := Bool.and_eq_true_iff.mp h
  exact ⟨(linkGuard_of_runGuard hrun).1, (linkGuard_of_runGuard hrun).2, hquiet⟩

/-- Places, grants and the ledger of `s`, in the runs that meet a guard. -/
theorem semOk_of_reachable {guard : Kernel → Event → Prop} {P : Prop} {s : ℕ}
    (hwait : ∀ σ e, guard σ e → waitGuard σ e = true)
    (hroom : ∀ σ e, guard σ e → P → roomGuard s σ e = true) {σ : Kernel}
    (h : Reachable guard σ) :
    ∃ R, BaseInv σ R ∧ Placed (view σ R) ∧ Granted (view σ R) ∧ SemOk P s (view σ R) := by
  refine Reachable.protocol (I := fun v => Placed v ∧ Granted v ∧ SemOk P s v)
    (fun σ e hg => (guards_of_waitGuard (hwait σ e hg)).1)
    (fun tick => ⟨placed_threadInit tick, granted_threadInit tick, semOk_threadInit P s tick⟩)
    ?_ h
  rintro σ e v v' hg hs ⟨hp, hgr, hsem⟩
  obtain ⟨-, hQ, hN⟩ := guards_of_waitGuard (hwait σ e hg)
  exact ⟨hp.step hQ hs, hgr.step hQ hN hp hs, hsem.step (hroom σ e hg) hp hgr hs⟩

theorem succeeded_le_of_reachable {σ : Kernel} {s : ℕ} {value : BitVec 32}
    (h : Reachable (fun σ e => waitGuard σ e = true) σ) (hinit : .semInit s value ∈ σ.trace)
    (hvalue : value.toNat < 65536) :
    succeeded s σ.trace ≤ value.toNat + released s σ.trace := by
  obtain ⟨R, -, -, -, hsem⟩ := semOk_of_reachable (P := False) (s := s) (fun _ _ hg => hg)
    (fun _ _ _ hf => hf.elim) h
  have hstart : initial s σ.trace = (value.setWidth 16).toNat := (hsem.started value hinit).1
  have hwidth : (value.setWidth 16).toNat = value.toNat := by
    rw [BitVec.toNat_setWidth]
    exact Nat.mod_eq_of_lt hvalue
  have hbound : _ + drawn s σ.trace ≤ initial s σ.trace + released s σ.trace := hsem.bound
  have hreturns : succeeded s σ.trace + _ = drawn s σ.trace := hsem.returns
  omega

/-- The run in which a waiting thread is handed the semaphore and returns. -/
theorem succeeded_le_handOverRun :
    ∃ σ, checkedRun waitGuard 0 (handOverRun ++ [.goOn]) = some σ ∧
      succeeded 0 σ.trace = 1 ∧ succeeded 0 σ.trace ≤ 0 + released 0 σ.trace := by
  obtain ⟨σ, hσ, hok⟩ := Runs.exists_of_any
    (show (checkedRun waitGuard 0 (handOverRun ++ [.goOn])).any (fun σ =>
      .semInit 0 0 ∈ σ.trace ∧ succeeded 0 σ.trace = 1) = true by decide +kernel)
  obtain ⟨hinit, hone⟩ := of_decide_eq_true hok
  exact ⟨σ, hσ, hone, succeeded_le_of_reachable (reachable_of_checkedRun hσ) hinit (by decide)⟩

/-- A thread waits for a semaphore of value 0, and another one detaches it. -/
def detachRun : List Event :=
  [.call (.rtSemInit 0 0), joinCall 3, joinCall 5, .threadStart,
    .call (.rtSemTake 0 RT_WAITING_FOREVER), .goOn, .call (.rtSemDetach 0 2),
    .call .rtSchedule, .goOn]

/-- A take has returned `RT_EOK` from a semaphore of value 0 that nobody released. -/
def unearned (σ : Kernel) : Bool :=
  .semInit 0 0 ∈ σ.trace ∧ succeeded 0 σ.trace = 1 ∧ released 0 σ.trace = 0

theorem exceeds_of_unearned {es : List Event} (h : (runFrom 0 es).any unearned = true) :
    ∃ σ, runFrom 0 es = some σ ∧ .semInit 0 0 ∈ σ.trace ∧
      ¬succeeded 0 σ.trace ≤ 0 + released 0 σ.trace := by
  obtain ⟨σ, hσ, hbad⟩ := Runs.exists_of_any h
  obtain ⟨hinit, hone, hnone⟩ := of_decide_eq_true hbad
  refine ⟨σ, hσ, hinit, ?_⟩
  rw [hone, hnone]
  decide

/-- After `rt_sem_detach`, and after a wait with no other thread ready, a take has
succeeded on nothing. -/
theorem succeeded_unbounded :
    (∃ σ, runFrom 0 detachRun = some σ ∧ .semInit 0 0 ∈ σ.trace ∧
      ¬succeeded 0 σ.trace ≤ 0 + released 0 σ.trace) ∧
    (∃ σ, runFrom 0 (aloneRun ++ [.goOn]) = some σ ∧ .semInit 0 0 ∈ σ.trace ∧
      ¬succeeded 0 σ.trace ≤ 0 + released 0 σ.trace) :=
  ⟨exceeds_of_unearned (by decide +kernel), exceeds_of_unearned (by decide +kernel)⟩

end LuojiOs
