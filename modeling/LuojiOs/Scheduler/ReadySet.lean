import LuojiOs.Waiting.Simulation

/-!
# The ready set

The bitmap `rt_thread_ready_priority_group` and the lists of
`rt_thread_priority_table` describe the same threads in every run whose created
threads have a priority of the table and whose blocking calls are made by threads
with the status `RT_THREAD_RUNNING`.  Both conditions are needed: the check of
`thread_join_init` lets negative priorities through, and a blocking call ignores
that `rt_thread_suspend` has failed.
-/

namespace LuojiOs

open CircularList

/-- Each list of the table is a ring of threads of its priority that are ready,
and has its bit set exactly when it is not empty. -/
def ReadySet (σ : Kernel) : Prop :=
  ∀ p < RT_THREAD_PRIORITY_MAX, ∃ ts : List Tid,
    σ.tlinks.Path (.ready p) (ts.map .thread) (.ready p) ∧ ts.Nodup ∧
      (σ.readyPriorityGroup.getLsbD p = true ↔ ts ≠ []) ∧
      ∀ t ∈ ts, (σ.thread t).currentPriority = p ∧ (σ.thread t).numberMask = 1#32 <<< p ∧
        σ.statu t = .ready

theorem map_thread_tids {l : List TNode} (h : ∀ n ∈ l, ∃ t, n = .thread t) :
    (tids l).map .thread = l := by
  induction l with
  | nil => rfl
  | cons n l ih =>
      obtain ⟨t, rfl⟩ := h n (by simp)
      have hcons : tids (.thread t :: l) = t :: tids l := rfl
      rw [hcons, List.map_cons, ih fun m hm => h m (by simp [hm])]

theorem nodup_tids {l : List TNode} (h : l.Nodup) : (tids l).Nodup := by
  refine h.filterMap fun a b t ha hb => ?_
  cases a <;> cases b <;> simp_all [TNode.tid]

theorem LinkInv.readySet {σ : Kernel} {R : Rings TNode} (h : LinkInv σ R) : ReadySet σ := by
  intro p hp
  have hthreads : ∀ n ∈ R.seq (.ready p), ∃ t, n = .thread t := by
    intro n hn
    obtain ⟨-, t, -, rfl⟩ := h.member n _ ((R.mem_seq _ _).mp hn)
    exact ⟨t, rfl⟩
  have hmap := map_thread_tids hthreads
  refine ⟨tids (R.seq (.ready p)), ?_, nodup_tids (R.nodup _), ?_, fun t ht => ?_⟩
  · rw [hmap]
    exact h.represents _ (h.home_head rfl)
  · rw [h.group p hp]
    conv_lhs => rw [← hmap]
    exact not_congr List.map_eq_nil_iff
  · have hhome := (R.mem_seq _ _).mp (mem_tids.mp ht)
    obtain ⟨hprio, hready⟩ := h.ready t p hhome
    obtain ⟨-, hmask⟩ := h.priority t (h.mem_allThread hhome)
    refine ⟨hprio, ?_, hready⟩
    rw [hmask, hprio, priorityMask, Nat.mod_eq_of_lt (show p < 32 from hp)]

/-- A set bit is the bit of a list that `rt_list_isempty` finds not empty. -/
theorem ReadySet.isEmpty {σ : Kernel} (h : ReadySet σ) {p : ℕ}
    (hp : p < RT_THREAD_PRIORITY_MAX) (hbit : σ.readyPriorityGroup.getLsbD p = true) :
    σ.tlinks.isEmpty (.ready p) = false := by
  obtain ⟨ts, hpath, -, hiff, -⟩ := h p hp
  cases ts with
  | nil => exact absurd rfl (hiff.mp hbit)
  | cons t ts =>
      have hnext : σ.tlinks.next (.ready p) = .thread t := hpath.1.1
      simp [Links.isEmpty, hnext]

/-- The first two nodes of a list of the table are ready threads. -/
theorem ReadySet.second {σ : Kernel} (h : ReadySet σ) {p : ℕ} {t u : Tid}
    (hp : p < RT_THREAD_PRIORITY_MAX) (ht : σ.tlinks.next (.ready p) = .thread t)
    (hu : σ.tlinks.next (.thread t) = .thread u) : σ.statu u = .ready := by
  obtain ⟨ts, hpath, -, -, hts⟩ := h p hp
  cases ts with
  | nil =>
      have hnext : σ.tlinks.next (.ready p) = .ready p := hpath.1
      simp [hnext] at ht
  | cons a ts =>
      have hnext : σ.tlinks.next (.ready p) = .thread a := hpath.1.1
      obtain rfl : a = t := by simpa [hnext] using ht
      cases ts with
      | nil =>
          have hnext' : σ.tlinks.next (.thread a) = .ready p := hpath.2.1
          simp [hnext'] at hu
      | cons b ts =>
          have hnext' : σ.tlinks.next (.thread a) = .thread b := hpath.2.1.1
          obtain rfl : b = u := by simpa [hnext'] using hu
          exact (hts b (by simp)).2.2

theorem readySet_of_reachable {σ : Kernel}
    (h : Reachable (fun σ e => linkGuard σ e = true) σ) : ReadySet σ := by
  obtain ⟨R, hb, -⟩ := Reachable.protocol (I := fun _ => True) (fun _ _ hg => hg)
    (fun _ => trivial) (fun _ _ _ _ _ _ _ => trivial) h
  exact hb.links.readySet

/-- A thread with priority `p` is created. -/
def joinCall (p : BitVec 32) : Event :=
  .call (.threadJoinInit "t" 1024 p 10 true true)

/-- Two threads, of which the first waits for a semaphore and is handed it. -/
def handOverRun : List Event :=
  [.call (.rtSemInit 0 0), joinCall 3, joinCall 5, .threadStart,
    .call (.rtSemTake 0 RT_WAITING_FOREVER), .goOn, .call (.rtSemRelease 0), .goOn]

theorem readySet_handOverRun :
    ∃ σ, checkedRun linkGuard 0 handOverRun = some σ ∧ ReadySet σ := by
  have hsome : (checkedRun linkGuard 0 handOverRun).isSome = true := by decide
  obtain ⟨σ, hσ⟩ := Option.isSome_iff_exists.mp hsome
  exact ⟨σ, hσ, readySet_of_reachable (reachable_of_checkedRun hσ)⟩

/-- The only thread waits for two semaphores in turn, so that its node is linked
on both lists, is resumed from the second one, and another thread waits for the
first one. -/
def twoListsRun : List Event :=
  [.call (.rtSemInit 0 0), .call (.rtSemInit 1 0), joinCall 3, .threadStart,
    .call (.rtSemTake 0 RT_WAITING_FOREVER), .goOn, .goOn,
    .call (.rtSemTake 1 RT_WAITING_FOREVER), .goOn, .goOn,
    joinCall 5, .call .rtSchedule, .call (.rtSemRelease 1), .goOn, .goOn,
    .call .rtSchedule, .goOn, .call (.rtSemTake 0 RT_WAITING_FOREVER)]

/-- Bit 31 is set and the list of priority 31 is empty. -/
def strayBit (σ : Kernel) : Bool :=
  σ.readyPriorityGroup.getLsbD 31 ∧ σ.tlinks.isEmpty (.ready 31)

/-- A suspended thread is the second one of the list of priority 3. -/
def strayThread (σ : Kernel) : Bool :=
  σ.tlinks.next (.ready 3) = .thread 0 ∧ σ.tlinks.next (.thread 0) = .thread 1 ∧
    σ.statu 1 = .suspend

/-- With the priority `-1` a bit is set that no list goes with, and after
`twoListsRun` a ready list holds a thread that waits. -/
theorem readySet_broken :
    (∃ σ, runFrom 0 [joinCall (-1)] = some σ ∧ ¬ReadySet σ) ∧
      ∃ σ, runFrom 0 twoListsRun = some σ ∧ ¬ReadySet σ := by
  constructor
  · obtain ⟨σ, hσ, hbad⟩ := Runs.exists_of_any
      (show (runFrom 0 [joinCall (-1)]).any strayBit = true by decide)
    refine ⟨σ, hσ, fun h => ?_⟩
    obtain ⟨hbit, hempty⟩ := of_decide_eq_true hbad
    simp [h.isEmpty (by decide) hbit] at hempty
  · obtain ⟨σ, hσ, hbad⟩ := Runs.exists_of_any
      (show (runFrom 0 twoListsRun).any strayThread = true by decide)
    refine ⟨σ, hσ, fun h => ?_⟩
    obtain ⟨hfirst, hsecond, hsuspend⟩ := of_decide_eq_true hbad
    simp [h.second (by decide) hfirst hsecond] at hsuspend

end LuojiOs
