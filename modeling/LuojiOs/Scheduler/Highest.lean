import LuojiOs.Scheduler.ReadySet

/-!
# The choice of the scheduler

Where the bitmap tells the lists of the table that are not empty, the lowest set bit leads
to the first thread of the smallest priority number.
-/

namespace LuojiOs

open CircularList

/-- The threads of each list of the table, and the bitmap that goes with the lists. -/
structure ReadyTable (σ : Kernel) (threads : ℕ → List Tid) : Prop where
  linked : ∀ p < RT_THREAD_PRIORITY_MAX,
    σ.tlinks.Path (.ready p) ((threads p).map .thread) (.ready p)
  bit : ∀ p < RT_THREAD_PRIORITY_MAX,
    (σ.readyPriorityGroup.getLsbD p = true ↔ threads p ≠ [])

variable {σ : Kernel} {threads : ℕ → List Tid} {p q : ℕ}

theorem ReadySet.readyTable (h : ReadySet σ) : ∃ threads, ReadyTable σ threads := by
  choose! threads hpath _ hbit _ using h
  exact ⟨threads, hpath, hbit⟩

/-- The node behind a head of the table. -/
theorem ReadyTable.next_ready (h : ReadyTable σ threads) (hp : p < RT_THREAD_PRIORITY_MAX)
    {t : Tid} {ts : List Tid} (ht : threads p = t :: ts) :
    σ.tlinks.next (.ready p) = .thread t := by
  have hpath := h.linked p hp
  rw [ht] at hpath
  exact hpath.1.1

/-- The lists below the lowest set bit are empty. -/
theorem ReadyTable.smallest (h : ReadyTable σ threads)
    (hp : IsLowestBit σ.readyPriorityGroup p) :
    threads p ≠ [] ∧ ∀ q < p, threads q = [] := by
  refine ⟨(h.bit p hp.lt).mp hp.set, ?_⟩
  intro q hq
  by_contra hne
  have hset := (h.bit q (Nat.lt_trans hq hp.lt)).mpr hne
  rw [hp.below q hq] at hset
  cases hset

/-- `__rt_ffs` finds the lowest set bit of every value, and the scheduler the first thread of
the list with the smallest priority number. -/
theorem getHighestPriorityThread_first (h : ReadyTable σ threads)
    (hq : q < RT_THREAD_PRIORITY_MAX) (hne : threads q ≠ []) :
    (rtFfs 0 = 0 ∧ ∀ g, g ≠ 0 → ∃ p, rtFfs g = p + 1 ∧ IsLowestBit g p) ∧
      ∃ p t ts, p < RT_THREAD_PRIORITY_MAX ∧ threads p = t :: ts ∧ (∀ r < p, threads r = []) ∧
        getHighestPriorityThread σ = some (t, p) := by
  have hbit := (h.bit q hq).mpr hne
  have hgroup : σ.readyPriorityGroup ≠ 0 := by
    intro hzero
    have hnone : (0#32).getLsbD q = false := BitVec.getLsbD_zero
    rw [hzero] at hbit
    exact Bool.false_ne_true (hnone.symm.trans hbit)
  refine ⟨⟨rfl, fun g hg => rtFfs_spec hg⟩, ?_⟩
  obtain ⟨p, hffs, hp⟩ := rtFfs_spec hgroup
  obtain ⟨hfirst, hempty⟩ := h.smallest hp
  obtain ⟨t, ts, hts⟩ := List.exists_cons_of_ne_nil hfirst
  refine ⟨p, t, ts, hp.lt, hts, hempty, ?_⟩
  unfold getHighestPriorityThread
  simp only [hffs, h.next_ready hp.lt hts]

/-- Two threads are created before the scheduler starts. -/
theorem getHighestPriorityThread_two :
    ∃ σ t p, checkedRun linkGuard 0 [joinCall 5, joinCall 31] = some σ ∧
      getHighestPriorityThread σ = some (t, p) := by
  obtain ⟨σ, hσ, hbit⟩ := Runs.exists_of_any
    (show (checkedRun linkGuard 0 [joinCall 5, joinCall 31]).any
      (fun σ => σ.readyPriorityGroup.getLsbD 31) = true by decide)
  obtain ⟨threads, htable⟩ := (readySet_of_reachable (reachable_of_checkedRun hσ)).readyTable
  obtain ⟨-, p, t, -, -, -, -, hget⟩ :=
    getHighestPriorityThread_first htable (q := 31) (by decide)
      ((htable.bit 31 (by decide)).mp hbit)
  exact ⟨σ, t, p, hσ, hget⟩

end LuojiOs
