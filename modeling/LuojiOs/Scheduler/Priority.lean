import LuojiOs.Waiting.Placement

/-!
# Strict priority

`rt_schedule` takes the first thread of the highest ready list, but the thread
that calls it is on no ready list and is not compared with that choice.  The law
that no thread of a higher priority is left ready therefore holds after a call
exactly when the caller does not lose to a thread of lower priority.
-/

namespace LuojiOs

open CircularList

/-- No ready thread has a higher priority than the current one. -/
def StrictPriority (σ : Kernel) : Prop :=
  ∀ c, σ.currentThread = some c → ∀ t ∈ σ.allThread, σ.statu t = .ready →
    (σ.thread c).currentPriority ≤ (σ.thread t).currentPriority

/-- Nothing is ready, or the caller will not be put back on a ready list, or some
ready thread is at least as urgent as the caller. -/
def MayLeave (σ : Kernel) : Prop :=
  ∀ c, σ.currentThread = some c →
    (∀ t ∈ σ.allThread, σ.statu t ≠ .ready) ∨ (σ.statu c).runnable = false ∨
      ∃ t ∈ σ.allThread, σ.statu t = .ready ∧
        (σ.thread t).currentPriority ≤ (σ.thread c).currentPriority

/-- Every ready thread is on a ready list. -/
def ReadyLinked (σ : Kernel) (R : Rings TNode) : Prop :=
  ∀ t ∈ σ.allThread, σ.statu t = .ready → ∃ p, R.home (.thread t) = some (.ready p)

section

variable {σ σ' : Kernel} {R : Rings TNode} {t : Tid}

/-- The bit of a ready thread is set. -/
theorem LinkInv.bit_of_ready (h : LinkInv σ R) (hready : ReadyLinked σ R)
    (ht : t ∈ σ.allThread) (hs : σ.statu t = .ready) :
    σ.readyPriorityGroup.getLsbD (σ.thread t).currentPriority = true := by
  obtain ⟨p, hp⟩ := hready t ht hs
  obtain ⟨rfl, -⟩ := h.ready t p hp
  refine (h.group _ (h.priority t ht).1).mpr fun hnil => ?_
  have hmem := (R.mem_seq _ _).mpr hp
  simp [hnil] at hmem

theorem LinkInv.rtSchedule_strict_iff (h : LinkInv σ R) (hready : ReadyLinked σ R)
    (hs : LuojiOs.rtSchedule σ = some σ') : StrictPriority σ' ↔ MayLeave σ := by
  obtain ⟨c, hc, ⟨hzero, rfl⟩ | ⟨p, d, rest, hp, hseq, hne, rfl⟩⟩ := h.rtSchedule_cases hs
  · have hnone : ∀ t ∈ σ'.allThread, σ'.statu t ≠ .ready := by
      intro t ht hst
      have hbit := h.bit_of_ready hready ht hst
      simp [hzero] at hbit
    exact ⟨fun _ _ _ => Or.inl hnone, fun _ _ _ t ht hst => absurd hst (hnone t ht)⟩
  · have hhome := R.home_of_seq_eq_cons hseq
    obtain ⟨hprio, hdready⟩ := h.ready d p hhome
    have hd := h.mem_allThread hhome
    have hso := schedOnly_switchThread c d σ
    have hcall := (h.current c hc).1
    have hstrict : StrictPriority (LuojiOs.switchThread c d σ) ↔ ∀ t ∈ σ.allThread,
        (LuojiOs.switchThread c d σ).statu t = .ready → p ≤ (σ.thread t).currentPriority := by
      unfold StrictPriority
      rw [current_switchThread, hso.allThread, hso.thread]
      simp [hprio]
    rw [hstrict]
    constructor
    · intro hall c' hc'
      obtain rfl : c = c' := by simpa [hc] using hc'
      by_cases hrun : (σ.statu c).runnable = true
      · refine Or.inr (Or.inr ⟨d, hd, hdready, ?_⟩)
        rw [hprio]
        refine hall c hcall ?_
        rw [statu_switchThread hne, if_neg hne.symm, if_pos ⟨rfl, hrun⟩]
      · exact Or.inr (Or.inl (by simpa using hrun))
    · intro hmay t ht hst
      have htd : t ≠ d := by
        rintro rfl
        simp [statu_switchThread hne] at hst
      rw [statu_switchThread hne, if_neg htd] at hst
      split at hst
      · next htc =>
        obtain ⟨rfl, hrun⟩ := htc
        rcases hmay t hc with hnone | hnot | ⟨u, hu, hur, hle⟩
        · exact absurd hdready (hnone d hd)
        · simp [hrun] at hnot
        · exact Nat.le_trans (hp.le_of_set (h.bit_of_ready hready hu hur)) hle
      · exact hp.le_of_set (h.bit_of_ready hready ht hst)

end

/-! ## The calls of `rt_schedule` -/

/-- During the event that arrives in `σ₀`, `rt_schedule` is called in the last
state. -/
inductive ScheduleCall (σ₀ : Kernel) : Event → Kernel → Prop
  /-- a thread yields -/
  | yield {c : Tid} (hc : σ₀.currentThread = some c) (hcall : canCall σ₀ = true) :
      ScheduleCall σ₀ (.call .rtSchedule) (σ₀.setFrame c (.after (.ret none)))
  /-- a thread has blocked, has woken another one, or is about to exit -/
  | blocked {c : Tid} {k : After} (hc : σ₀.currentThread = some c)
      (hf : σ₀.frame c = .schedule k) :
      ScheduleCall σ₀ .goOn (σ₀.setFrame c (.after k))
  | killed {id : BitVec 32} {t : Tid} (hfind : findThreadById id σ₀ = some t)
      (hc : σ₀.currentThread = some t) :
      ScheduleCall σ₀ (.call (.killThreadFun id))
        ((closeThread t σ₀).setFrame t (.after (.ret none)))
  /-- the time slice of the current thread ends -/
  | slice {fuel : ℕ} {c : Tid} {σ : Kernel} (hc : σ₀.currentThread = some c)
      (hd : countDown c (sysTickIncrease σ₀) = (true, σ)) : ScheduleCall σ₀ (.tick fuel) σ
  /-- a timeout resumes a thread, after the acts of the tick so far -/
  | timeout {fuel : ℕ} {k : TimerId} {t : Tid} {σ : Kernel}
      (ha : Acts σ₀ (.tick fuel) σ₀ σ) (hdue : timerDue k σ = true)
      (hfunc : (σ.timer k).timeoutFunc = .rtThreadTimeout t) :
      ScheduleCall σ₀ (.tick fuel)
        (expireThread t { σ with timerLinks := σ.timerLinks.remove (.timer k) })
  | released {s : ℕ} {σ : Kernel} (h : rtSemRelease s σ₀ = some (σ, true)) :
      ScheduleCall σ₀ (.isrSemRelease s) σ
  | posted {m : ℕ} {x : Mailbox} {value : BitVec 32} {σ : Kernel}
      (hx : σ₀.mb m = some x) (hne : x.entry ≠ x.size)
      (h : mbPut m x value σ₀ = some (σ, true)) : ScheduleCall σ₀ (.isrMbSend m value) σ

theorem Placed.readyLinked {σ : Kernel} {R : Rings TNode} (h : Placed (view σ R)) :
    ReadyLinked σ R :=
  fun t ht hs => ((h.thread t ht).ready hs).1

theorem ReadyLinked.congr {σ σ' : Kernel} {R : Rings TNode} (h : ReadyLinked σ R)
    (hs : SameSched σ σ') : ReadyLinked σ' R := by
  unfold ReadyLinked
  rw [hs.allThread, hs.statu]
  exact h

/-- The acts of an event keep the places. -/
theorem Placed.acts {σ₀ σ : Kernel} {e : Event} {R : Rings TNode} (hb : BaseInv σ₀ R)
    (hp : Placed (view σ₀ R)) (hg : runGuard σ₀ e = true) (ha : Acts σ₀ e σ₀ σ) :
    ∃ R', BaseInv σ R' ∧ Placed (view σ R') := by
  obtain ⟨hlink, hswitch⟩ := linkGuard_of_runGuard hg
  obtain ⟨R', hb', hmoves⟩ := acts_refine hb hlink ha
  refine ⟨R', hb', ?_⟩
  generalize view σ R' = v at hmoves
  induction hmoves with
  | refl => exact hp
  | tail _ hv ih => exact ih.step hswitch hv

/-- In a run, `rt_schedule` finds the lists in order and every ready thread on one
of them. -/
theorem ScheduleCall.linked {σ₀ σ : Kernel} {e : Event} (h : ScheduleCall σ₀ e σ)
    (hr : Reachable (fun σ e => runGuard σ e = true) σ₀) (hg : runGuard σ₀ e = true) :
    ∃ R, LinkInv σ R ∧ ReadyLinked σ R := by
  obtain ⟨R, hb, hp⟩ := placed_of_reachable hr
  cases h with
  | yield hc hcall | blocked hc hf =>
      exact ⟨R, hb.links.congr (sameSched_setFrame _ _ _),
        hp.readyLinked.congr (sameSched_setFrame _ _ _)⟩
  | @killed id t hfind hc =>
      obtain ⟨R', hb', hm, -⟩ := hb.close (hb.links.current t hc).1
      refine ⟨R', hb'.links.congr (sameSched_setFrame _ _ _),
        ReadyLinked.congr (fun u hu hs => ?_) (sameSched_setFrame _ _ _)⟩
      have ho := onlyThread_closeThread t σ₀
      have hut : u ≠ t := by
        rintro rfl
        simp [statu_closeThread] at hs
      rw [hm.home_other hut]
      exact hp.readyLinked u (by rwa [ho.allThread] at hu) (by rwa [ho.statu u hut] at hs)
  | @slice fuel c _ hc hd =>
      have ha : Acts σ₀ (.tick fuel) σ₀ (countDown c (sysTickIncrease σ₀)).2 :=
        (Act.acts (.clock (.tickIncrease rfl))).tail (.clock (.countDown rfl hc))
      rw [hd] at ha
      obtain ⟨R', hb', hp'⟩ := hp.acts hb hg ha
      exact ⟨R', hb'.links, hp'.readyLinked⟩
  | @timeout fuel k t σ ha hdue hfunc =>
      obtain ⟨R', hb', hp'⟩ := hp.acts hb hg (ha.tail (.expire rfl hdue hfunc))
      have hsame : SameSched (fireThread k t σ)
          (expireThread t { σ with timerLinks := σ.timerLinks.remove (.timer k) }) :=
        ⟨rfl, rfl, rfl, rfl, rfl, rfl, rfl⟩
      exact ⟨R', hb'.links.congr hsame, hp'.readyLinked.congr hsame⟩
  | released hrel =>
      obtain ⟨R', hb', hp'⟩ := hp.acts hb hg (Act.release (Or.inr rfl) hrel).acts
      exact ⟨R', hb'.links, hp'.readyLinked⟩
  | posted hx hne hput =>
      obtain ⟨R', hb', hp'⟩ := hp.acts hb hg (Act.post rfl hx hne hput).acts
      exact ⟨R', hb'.links, hp'.readyLinked⟩

/-- After a call of `rt_schedule` in a run the law holds exactly when the caller
could be left. -/
theorem strictPriority_iff_mayLeave {σ₀ σ σ' : Kernel} {e : Event}
    (hr : Reachable (fun σ e => runGuard σ e = true) σ₀) (hg : runGuard σ₀ e = true)
    (hcall : ScheduleCall σ₀ e σ) (hs : rtSchedule σ = some σ') :
    StrictPriority σ' ↔ MayLeave σ := by
  obtain ⟨R, hl, hready⟩ := hcall.linked hr hg
  exact hl.rtSchedule_strict_iff hready hs

/-- Two threads of priorities 3 and 5; the first one runs. -/
def twoThreadsRun : List Event :=
  [joinCall 3, joinCall 5, .threadStart]

theorem strictPriority_iff_twoThreadsRun :
    ∃ σ₀ σ', checkedRun runGuard 0 twoThreadsRun = some σ₀ ∧
      rtSchedule (σ₀.setFrame 0 (.after (.ret none))) = some σ' ∧
      (StrictPriority σ' ↔ MayLeave (σ₀.setFrame 0 (.after (.ret none)))) := by
  obtain ⟨σ₀, hσ₀, hok⟩ := Runs.exists_of_any
    (show (checkedRun runGuard 0 twoThreadsRun).any (fun σ₀ => σ₀.currentThread = some 0 ∧
      canCall σ₀ ∧ runGuard σ₀ (.call .rtSchedule) ∧
      (rtSchedule (σ₀.setFrame 0 (.after (.ret none)))).isSome) = true by decide)
  obtain ⟨hc, hcall, hg, hsome⟩ := of_decide_eq_true hok
  obtain ⟨σ', hs⟩ := Option.isSome_iff_exists.mp hsome
  exact ⟨σ₀, σ', hσ₀, hs, strictPriority_iff_mayLeave (reachable_of_checkedRun hσ₀) hg
    (.yield hc hcall) hs⟩

/-- The thread of priority 3 yields to the one of priority 5. -/
def urgentLeft (σ : Kernel) : Bool :=
  σ.currentThread = some 1 ∧ 0 ∈ σ.allThread ∧ σ.statu 0 = .ready ∧
    (σ.thread 0).currentPriority < (σ.thread 1).currentPriority

theorem strictPriority_broken :
    ∃ σ, runFrom 0 (twoThreadsRun ++ [.call .rtSchedule]) = some σ ∧ ¬StrictPriority σ := by
  obtain ⟨σ, hσ, hbad⟩ := Runs.exists_of_any
    (show (runFrom 0 (twoThreadsRun ++ [.call .rtSchedule])).any urgentLeft = true by
      decide)
  obtain ⟨hc, hmem, hready, hlt⟩ := of_decide_eq_true hbad
  exact ⟨σ, hσ, fun h => Nat.not_le_of_lt hlt (h 1 hc 0 hmem hready)⟩

end LuojiOs
