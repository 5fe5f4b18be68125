import LuojiOs.Timer.Integrity
import Mathlib.Algebra.Group.Nat.Defs

/-!
# When a timer fires

`rt_timer_start` computes the deadline modulo `2^32`, and `rt_timer_check` compares it
with the tick counter as two unsigned numbers.  The comparison is the intended one as
long as the counter does not wrap between the start and the check; the exact condition
is `OnTime`.
-/

namespace LuojiOs

open CircularList

/-! ## One check and one timer -/

/-- No callback but its own starts or stops the timer `k`. -/
def Untouched (k : TimerId) (σ : Kernel) : Prop :=
  ∀ j ops, j ≠ k → (σ.timer j).timeoutFunc = .callback ops →
    ∀ u, k = .other u → TimerOp.start u ∉ ops ∧ TimerOp.stop u ∉ ops

section Check

variable {σ σ' : Kernel} {j k : TimerId}

theorem timeoutFunc_runTimerOp (σ : Kernel) (op : TimerOp) (j : TimerId) :
    ((runTimerOp σ op).timer j).timeoutFunc = (σ.timer j).timeoutFunc := by
  cases op with
  | start u =>
      by_cases hj : j = .other u
      · subst hj
        simp [runTimerOp, rtTimerStart, Kernel.setTimer]
      · simp [runTimerOp, rtTimerStart, Kernel.setTimer, hj]
  | stop u =>
      unfold runTimerOp rtTimerStop
      by_cases hj : j = .other u
      · subst hj
        dsimp only
        split <;> simp [Kernel.setTimer]
      · dsimp only
        split <;> simp [Kernel.setTimer, hj]

theorem systemTick_runTimerOp (σ : Kernel) (op : TimerOp) :
    (runTimerOp σ op).systemTick = σ.systemTick := by
  cases op with
  | start u => rfl
  | stop u =>
      unfold runTimerOp rtTimerStop
      dsimp only
      split <;> rfl

theorem timer_runTimerOp_of_ne (σ : Kernel) {op : TimerOp}
    (hop : ∀ u, k = .other u → op ≠ .start u ∧ op ≠ .stop u) :
    (runTimerOp σ op).timer k = σ.timer k := by
  cases op with
  | start u =>
      have hk : k ≠ .other u := fun h => (hop u h).1 rfl
      simp [runTimerOp, rtTimerStart, Kernel.setTimer, hk]
  | stop u =>
      have hk : k ≠ .other u := fun h => (hop u h).2 rfl
      unfold runTimerOp rtTimerStop
      dsimp only
      split <;> simp [Kernel.setTimer, hk]

theorem timeoutFunc_runTimerOps (σ : Kernel) (ops : List TimerOp) (j : TimerId) :
    ((ops.foldl runTimerOp σ).timer j).timeoutFunc = (σ.timer j).timeoutFunc := by
  induction ops generalizing σ with
  | nil => rfl
  | cons op ops ih => exact (ih _).trans (timeoutFunc_runTimerOp σ op j)

theorem systemTick_runTimerOps (σ : Kernel) (ops : List TimerOp) :
    (ops.foldl runTimerOp σ).systemTick = σ.systemTick := by
  induction ops generalizing σ with
  | nil => rfl
  | cons op ops ih => exact (ih _).trans (systemTick_runTimerOp σ op)

theorem timer_runTimerOps_of_notMem (σ : Kernel) {ops : List TimerOp}
    (hops : ∀ u, k = .other u → TimerOp.start u ∉ ops ∧ TimerOp.stop u ∉ ops) :
    (ops.foldl runTimerOp σ).timer k = σ.timer k := by
  induction ops generalizing σ with
  | nil => rfl
  | cons op ops ih =>
      refine (ih _ fun u hu => ?_).trans (timer_runTimerOp_of_ne σ fun u hu => ?_)
      · have := hops u hu
        simp_all
      · have := hops u hu
        constructor <;> rintro rfl <;> simp at this

/-- What a timeout function does to the timers and to the clock. -/
theorem runTimeoutFunc_timer {f : TimeoutFunc} (h : runTimeoutFunc f σ = some σ') :
    (∀ j, (σ'.timer j).timeoutFunc = (σ.timer j).timeoutFunc) ∧
      σ'.systemTick = σ.systemTick ∧
      ((∀ ops, f = .callback ops →
        ∀ u, k = .other u → TimerOp.start u ∉ ops ∧ TimerOp.stop u ∉ ops) →
        σ'.timer k = σ.timer k) := by
  cases f with
  | callback ops =>
      obtain rfl := Option.some.inj h
      exact ⟨timeoutFunc_runTimerOps σ ops, systemTick_runTimerOps σ ops,
        fun hops => timer_runTimerOps_of_notMem σ (hops ops rfl)⟩
  | rtThreadTimeout t =>
      have hins := schedOnly_rtScheduleInsertThread t
        (unlinkThread t (σ.setError t (-RT_ETIMEOUT)))
      have hsched := schedOnly_rtSchedule h
      have htimer : σ'.timer = σ.timer := hsched.timer.trans hins.timer
      have htick : σ'.systemTick = σ.systemTick := hsched.systemTick.trans hins.systemTick
      exact ⟨fun j => by rw [htimer], htick, fun _ => by rw [htimer]⟩

/-- A round of the loop either leaves the state alone or runs the timeout function of
its timer. -/
theorem checkTimer_cases (h : checkTimer j σ = some σ') :
    (timerDue j σ = false ∧ σ' = σ) ∨
      ∃ σ₁, timerDue j σ = true ∧
        runTimeoutFunc (σ.timer j).timeoutFunc
          { σ with timerLinks := σ.timerLinks.remove (.timer j) } = some σ₁ ∧
        σ' = σ₁.setTimer j { σ₁.timer j with flag := .noActivated } := by
  unfold checkTimer at h
  split at h
  · next hdue =>
    dsimp only at h
    split at h
    · cases h
    · next σ₁ hrun => exact .inr ⟨σ₁, hdue, hrun, (Option.some.inj h).symm⟩
  · next hdue => exact .inl ⟨by simpa using hdue, (Option.some.inj h).symm⟩

theorem timeoutFunc_checkTimer (h : checkTimer j σ = some σ') (i : TimerId) :
    (σ'.timer i).timeoutFunc = (σ.timer i).timeoutFunc := by
  rcases checkTimer_cases h with ⟨-, rfl⟩ | ⟨σ₁, -, hrun, rfl⟩
  · rfl
  · have hfunc := (runTimeoutFunc_timer (k := i) hrun).1 i
    by_cases hi : i = j
    · subst hi
      simpa [Kernel.setTimer] using hfunc
    · simpa [Kernel.setTimer, hi] using hfunc

theorem systemTick_checkTimer (h : checkTimer j σ = some σ') : σ'.systemTick = σ.systemTick := by
  rcases checkTimer_cases h with ⟨-, rfl⟩ | ⟨σ₁, -, hrun, rfl⟩
  · rfl
  · exact (runTimeoutFunc_timer (k := j) hrun).2.1

theorem Untouched.checkTimer (hu : Untouched k σ) (h : checkTimer j σ = some σ') :
    Untouched k σ' := by
  intro i ops hi hfunc
  rw [timeoutFunc_checkTimer h] at hfunc
  exact hu i ops hi hfunc

theorem Untouched.timer_checkTimer (hu : Untouched k σ) (hj : j ≠ k)
    (h : LuojiOs.checkTimer j σ = some σ') : σ'.timer k = σ.timer k := by
  rcases checkTimer_cases h with ⟨-, rfl⟩ | ⟨σ₁, -, hrun, rfl⟩
  · rfl
  · have hsame := (runTimeoutFunc_timer (k := k) hrun).2.2 fun ops hops => hu j ops hj hops
    simpa [Kernel.setTimer, Ne.symm hj] using hsame

theorem flag_checkTimer_of_due (hdue : timerDue k σ = true) (h : checkTimer k σ = some σ') :
    (σ'.timer k).flag = .noActivated := by
  rcases checkTimer_cases h with ⟨hnot, -⟩ | ⟨σ₁, -, -, rfl⟩
  · simp [hnot] at hdue
  · simp [Kernel.setTimer]

theorem timerDue_congr (ht : σ'.timer k = σ.timer k) (hc : σ'.systemTick = σ.systemTick) :
    timerDue k σ' = timerDue k σ := by
  simp [timerDue, ht, hc]

theorem timerDue_of_off (h : (σ.timer k).flag = .noActivated) : timerDue k σ = false := by
  simp [timerDue, h]

/-- A check leaves a timer that is not due as it is. -/
theorem rtTimerCheckFrom_of_not_due {fuel : ℕ} {pos n : TimerNode} (hu : Untouched k σ)
    (hdue : timerDue k σ = false) (h : rtTimerCheckFrom fuel pos n σ = some σ') :
    σ'.timer k = σ.timer k ∧ σ'.systemTick = σ.systemTick := by
  induction fuel generalizing pos n σ with
  | zero => cases h
  | succ fuel ih =>
      cases pos with
      | head =>
          obtain rfl := Option.some.inj h
          exact ⟨rfl, rfl⟩
      | timer j =>
          simp only [rtTimerCheckFrom] at h
          split at h
          · cases h
          · next σ₁ hcheck =>
            have htick := systemTick_checkTimer hcheck
            have htimer : σ₁.timer k = σ.timer k := by
              by_cases hj : j = k
              · subst hj
                rcases checkTimer_cases hcheck with ⟨-, rfl⟩ | ⟨σ₂, hdue', -, -⟩
                · rfl
                · simp [hdue] at hdue'
              · exact hu.timer_checkTimer hj hcheck
            have hrest := ih (hu.checkTimer hcheck)
              ((timerDue_congr htimer htick).trans hdue) h
            exact ⟨hrest.1.trans htimer, hrest.2.trans htick⟩

end Check

/-! ## The walk reaches every timer on the list -/

/-- The walk of `rt_timer_check` that goes on at `n` still has `k` before it: `k` is `n`
or follows it.  Or `n` has been taken off the list, and the walk does not end. -/
def Ahead (l : Links TimerNode) (n : TimerNode) (k : TimerId) : Prop :=
  ∃ R : Rings TimerNode, R.Represents l ∧ (∀ m h, R.home m = some h → h = .head) ∧
    ((∃ as bs, R.seq .head = as ++ n :: bs ∧ .timer k ∈ n :: bs) ∨
      (n ≠ .head ∧ n ∉ R.seq .head ∧ .timer k ∈ R.seq .head))

namespace Ahead

variable {l : Links TimerNode} {S : TimerId → Prop} {n : TimerNode} {j k : TimerId}

/-- The rings a list is made of are unique. -/
theorem rings_unique {R R' : Rings TimerNode} (h : R.Represents l) (h' : R'.Represents l)
    (hhead : ∀ m h, R.home m = some h → h = .head)
    (hhead' : ∀ m h, R'.home m = some h → h = .head) : R = R' := by
  have hheads : ∀ {Q : Rings TimerNode}, (∀ m h, Q.home m = some h → h = .head) →
      ∀ m h, Q.home m = some h → h = .head ∧ ¬m = .head := by
    intro Q hQ m h hm
    refine ⟨hQ m h hm, ?_⟩
    rintro rfl
    rw [OnList.head_root hQ] at hm
    cases hm
  exact h.unique h' (· = .head) (hheads hhead) (hheads hhead')

theorem insert (h : Ahead l n k) (hl : OnList l S) (hj : ¬S j) :
    Ahead (l.insertAfter .head (.timer j)) n k := by
  obtain ⟨R, hrep, hhead, hpos⟩ := h
  obtain ⟨R', hrep', hhead', hmem⟩ := hl
  obtain rfl := rings_unique hrep hrep' hhead hhead'
  have hfree := OnList.home_timer hhead fun hh => hj ((hmem j).mp hh)
  have ok : R.CanLink .head (.timer j) :=
    ⟨OnList.head_root hhead, hfree, OnList.seq_timer hhead j, by simp⟩
  refine ⟨R.prepend .head (.timer j) ok, hrep.insertAfter ok, fun m h hm => ?_, ?_⟩
  · rw [Rings.home_prepend] at hm
    split at hm
    · exact (Option.some.inj hm).symm
    · exact hhead m h hm
  · simp only [Rings.seq_prepend, ↓reduceIte]
    rcases hpos with ⟨as, bs, hseq, hk⟩ | ⟨hne, hoff, hk⟩
    · exact .inl ⟨.timer j :: as, bs, by simp [hseq], hk⟩
    · by_cases hn : n = .timer j
      · exact .inl ⟨[], R.seq .head, by simp [hn], List.mem_cons_of_mem _ hk⟩
      · exact .inr ⟨hne, by simp [hn, hoff], List.mem_cons_of_mem _ hk⟩

theorem remove (h : Ahead l n k) (hj : j ≠ k) : Ahead (l.remove (.timer j)) n k := by
  obtain ⟨R, hrep, hhead, hpos⟩ := h
  refine ⟨R.remove (.timer j), hrep.remove (OnList.seq_timer hhead j), fun m h hm => ?_, ?_⟩
  · rw [Rings.home_remove] at hm
    split at hm
    · cases hm
    · exact hhead m h hm
  · have hkj : TimerNode.timer k ≠ .timer j := by simpa using Ne.symm hj
    have hnd := R.nodup .head
    simp only [Rings.seq_remove]
    rcases hpos with ⟨as, bs, hseq, hk⟩ | ⟨hne, hoff, hk⟩
    · have hk' : .timer k ∈ R.seq .head := by
        rw [hseq]
        exact List.mem_append_right _ hk
      by_cases hn : n = .timer j
      · subst hn
        exact .inr ⟨by simp, hnd.not_mem_erase, (List.mem_erase_of_ne hkj).mpr hk'⟩
      · left
        by_cases has : .timer j ∈ as
        · exact ⟨as.erase (.timer j), bs, by rw [hseq, List.erase_append_left _ has], hk⟩
        · refine ⟨as, bs.erase (.timer j), ?_, ?_⟩
          · rw [hseq, List.erase_append_right _ has, List.erase_cons_tail (by simpa using hn)]
          · rcases List.mem_cons.mp hk with rfl | hk
            · simp
            · exact List.mem_cons_of_mem _ ((List.mem_erase_of_ne hkj).mpr hk)
    · exact .inr ⟨hne, fun hmem => hoff (List.mem_of_mem_erase hmem),
        (List.mem_erase_of_ne hkj).mpr hk⟩

/-- The callback of another timer, which has just been taken off the list. -/
theorem runTimerOps {σ : Kernel} {p : TimerId} {ops : List TimerOp} (h : Ahead σ.timerLinks n k)
    (hok : opsOk p ops σ = true)
    (hl : OnList σ.timerLinks fun j => j ≠ p ∧ (σ.timer j).flag = .activated)
    (hops : ∀ u, k = .other u → TimerOp.start u ∉ ops ∧ TimerOp.stop u ∉ ops) :
    Ahead (ops.foldl runTimerOp σ).timerLinks n k := by
  induction ops generalizing σ with
  | nil => exact h
  | cons op ops ih =>
      have hrest : ∀ u, k = .other u → TimerOp.start u ∉ ops ∧ TimerOp.stop u ∉ ops := by
        intro u hu
        have := hops u hu
        simp_all
      have hone : opsOk p [op] σ = true := by
        cases op <;> simp_all [opsOk]
      have hl' : OnList (runTimerOp σ op).timerLinks fun j =>
          j ≠ p ∧ ((runTimerOp σ op).timer j).flag = .activated := Listed.runTimerOps hone hl
      cases op with
      | start u =>
          obtain ⟨hstart, hok'⟩ := Bool.and_eq_true_iff.mp hok
          obtain ⟨-, hoff⟩ := of_decide_eq_true hstart
          exact ih (σ := runTimerOp σ (.start u)) (h.insert hl (by simp [hoff])) hok' hl' hrest
      | stop u =>
          refine ih (σ := runTimerOp σ (.stop u)) ?_ hok hl' hrest
          have hk : .other u ≠ k := fun hk => (hops u hk.symm).2 (by simp)
          unfold runTimerOp rtTimerStop
          dsimp only
          split
          · exact h
          · exact h.remove hk

theorem checkTimer {σ σ' : Kernel} (h : Ahead σ.timerLinks n k) (hl : Listed σ)
    (hu : Untouched k σ) (hj : j ≠ k) (hok : timerOk j σ = true)
    (hs : LuojiOs.checkTimer j σ = some σ') : Ahead σ'.timerLinks n k := by
  rcases checkTimer_cases hs with ⟨-, rfl⟩ | ⟨σ₁, hdue, hrun, rfl⟩
  · exact h
  · have hrem : Ahead (σ.timerLinks.remove (.timer j)) n k := h.remove hj
    cases hfunc : (σ.timer j).timeoutFunc with
    | callback ops =>
        rw [hfunc] at hrun
        obtain rfl := Option.some.inj hrun
        refine Ahead.runTimerOps (p := j)
          (σ := { σ with timerLinks := σ.timerLinks.remove (.timer j) }) hrem ?_
          (OnList.remove hl j) (hu j ops hj hfunc)
        simpa [timerOk, hdue, hfunc] using hok
    | rtThreadTimeout t =>
        rw [hfunc] at hrun
        have hins := schedOnly_rtScheduleInsertThread t (unlinkThread t (Kernel.setError t
          (-RT_ETIMEOUT) { σ with timerLinks := σ.timerLinks.remove (.timer j) }))
        have hlinks : σ₁.timerLinks = σ.timerLinks.remove (.timer j) :=
          (schedOnly_rtSchedule hrun).timerLinks.trans hins.timerLinks
        change Ahead σ₁.timerLinks n k
        rw [hlinks]
        exact hrem

/-- Every activated timer is before the walk when it begins. -/
theorem of_listed {σ : Kernel} (hl : Listed σ) (hk : (σ.timer k).flag = .activated) :
    Ahead σ.timerLinks (σ.timerLinks.next .head) k := by
  obtain ⟨R, hrep, hhead, hmem⟩ := hl
  have hk' : .timer k ∈ R.seq .head := (R.mem_seq _ _).mpr ((hmem k).mpr hk)
  obtain ⟨m, ms, hseq⟩ := List.exists_cons_of_ne_nil (List.ne_nil_of_mem hk')
  rw [hrep.next_eq_of_seq hseq]
  exact ⟨R, hrep, hhead, .inl ⟨[], ms, hseq, hseq ▸ hk'⟩⟩

end Ahead

/-- A walk that stands on a timer off the list does not leave it. -/
theorem rtTimerCheckFrom_stuck {σ : Kernel} {j : TimerId}
    (hnext : σ.timerLinks.next (.timer j) = .timer j) (hdue : timerDue j σ = false) (fuel : ℕ) :
    rtTimerCheckFrom fuel (.timer j) (.timer j) σ = none := by
  induction fuel with
  | zero => rfl
  | succ fuel ih => simp [rtTimerCheckFrom, checkTimer, hdue, hnext, ih]

/-- A check that returns has fired every timer that was due and on the list. -/
theorem rtTimerCheckFrom_fires {σ σ' : Kernel} {k : TimerId} {fuel : ℕ} {pos : TimerNode}
    (hl : Listed σ) (hu : Untouched k σ) (hdue : timerDue k σ = true)
    (hok : checkOk fuel pos (σ.timerLinks.next pos) σ = true)
    (hahead : Ahead σ.timerLinks pos k)
    (h : rtTimerCheckFrom fuel pos (σ.timerLinks.next pos) σ = some σ') :
    (σ'.timer k).flag = .noActivated := by
  induction fuel generalizing pos σ with
  | zero => cases h
  | succ fuel ih =>
      obtain ⟨R, hrep, hhead, hpos⟩ := id hahead
      cases pos with
      | head =>
          -- the head is not on its own list
          rcases hpos with ⟨as, bs, hseq, -⟩ | ⟨hne, -⟩
          · have hmem : .head ∈ R.seq .head := by simp [hseq]
            rw [R.mem_seq, OnList.head_root hhead] at hmem
            cases hmem
          · exact absurd rfl hne
      | timer j =>
          rcases hpos with ⟨as, bs, hseq, hk⟩ | ⟨-, hoff, -⟩
          · simp only [rtTimerCheckFrom] at h
            obtain ⟨htimer, hrest⟩ := Bool.and_eq_true_iff.mp hok
            split at h
            · cases h
            · next σ₁ hcheck =>
              rw [hcheck] at hrest
              have hu' := hu.checkTimer hcheck
              by_cases hj : j = k
              · subst hj
                have hflag := flag_checkTimer_of_due hdue hcheck
                rw [(rtTimerCheckFrom_of_not_due hu' (timerDue_of_off hflag) h).1, hflag]
              · have hkb : .timer k ∈ bs := by
                  rcases List.mem_cons.mp hk with hkj | hkb
                  · exact absurd (TimerNode.timer.inj hkj).symm hj
                  · exact hkb
                obtain ⟨m, ms, rfl⟩ := List.exists_cons_of_ne_nil (List.ne_nil_of_mem hkb)
                have hpath := hrep _ (OnList.head_root hhead)
                rw [hseq, Links.path_append] at hpath
                have hm : σ.timerLinks.next (.timer j) = m := hpath.2.1.1
                have hnext : Ahead σ.timerLinks (σ.timerLinks.next (.timer j)) k := by
                  rw [hm]
                  exact ⟨R, hrep, hhead, .inl ⟨as ++ [.timer j], ms, by simp [hseq], hkb⟩⟩
                refine ih (hl.checkTimer htimer hcheck) hu' ?_ hrest
                  (hnext.checkTimer hl hu hj htimer hcheck) h
                rw [timerDue_congr (hu.timer_checkTimer hj hcheck)
                  (systemTick_checkTimer hcheck)]
                exact hdue
          · -- the walk stands on a timer that a callback has stopped
            obtain ⟨R', hrep', hhead', hmem⟩ := hl
            obtain rfl := Ahead.rings_unique hrep hrep' hhead hhead'
            have hhome : R.home (.timer j) = none :=
              OnList.home_timer hhead fun hh => hoff ((R.mem_seq _ _).mpr hh)
            have hnext : σ.timerLinks.next (.timer j) = .timer j := by
              rw [hrep.next_root hhome, OnList.seq_timer hhead]
              rfl
            have hflag : (σ.timer j).flag = .noActivated := by
              cases hf : (σ.timer j).flag with
              | noActivated => rfl
              | activated => exact absurd ((R.mem_seq _ _).mpr ((hmem j).mpr hf)) hoff
            rw [hnext, rtTimerCheckFrom_stuck hnext (timerDue_of_off hflag)] at h
            cases h

/-- What `rt_timer_check` does to a timer that no other callback touches. -/
theorem rtTimerCheck_fires_iff {σ σ' : Kernel} {k : TimerId} {fuel : ℕ} (hl : Listed σ)
    (hu : Untouched k σ) (hok : timerCheckOk fuel σ = true)
    (hk : (σ.timer k).flag = .activated) (h : rtTimerCheck fuel σ = some σ') :
    (σ'.timer k).flag = .noActivated ↔ timerDue k σ = true := by
  constructor
  · intro hflag
    by_contra hdue
    have hsame := (rtTimerCheckFrom_of_not_due hu (by simpa using hdue) h).1
    rw [hsame, hk] at hflag
    cases hflag
  · intro hdue
    exact rtTimerCheckFrom_fires hl hu hdue hok (Ahead.of_listed hl hk) h

/-! ## The deadline -/

/-- `σ` is reached `e` ticks after the timer `k` was started in `σ₀`.  Since then the
clock has ticked, other code has left the timer alone, and `rt_timer_check` has been
performed after the numbers of ticks in `es` without firing it. -/
inductive Pending (k : TimerId) (σ₀ : Kernel) : List ℕ → ℕ → Kernel → Prop
  | start : Pending k σ₀ [] 0 (rtTimerStart k σ₀)
  | tick {es : List ℕ} {e : ℕ} {σ : Kernel} (h : Pending k σ₀ es e σ) :
      Pending k σ₀ es (e + 1) (sysTickIncrease σ)
  | other {es : List ℕ} {e : ℕ} {σ σ' : Kernel} (h : Pending k σ₀ es e σ)
      (htimer : σ'.timer k = σ.timer k) (htick : σ'.systemTick = σ.systemTick) :
      Pending k σ₀ es e σ'
  | check {es : List ℕ} {e fuel : ℕ} {σ σ' : Kernel} (h : Pending k σ₀ es e σ)
      (hl : Listed σ) (hu : Untouched k σ) (hok : timerCheckOk fuel σ = true)
      (hs : rtTimerCheck fuel σ = some σ') (hflag : (σ'.timer k).flag = .activated) :
      Pending k σ₀ (e :: es) e σ'

theorem Pending.timer_clock {k : TimerId} {σ₀ σ : Kernel} {es : List ℕ} {e : ℕ}
    (h : Pending k σ₀ es e σ) :
    (σ.timer k).flag = .activated ∧
      (σ.timer k).timeoutTick = σ₀.systemTick + (σ₀.timer k).initTick ∧
      σ.systemTick = σ₀.systemTick + BitVec.ofNat 32 e := by
  induction h with
  | start => simp [rtTimerStart, Kernel.setTimer]
  | @tick es e σ h ih =>
      refine ⟨ih.1, ih.2.1, ?_⟩
      have hsucc : BitVec.ofNat 32 (e + 1) = BitVec.ofNat 32 e + 1 := by
        rw [BitVec.ofNat_add]
        rfl
      rw [hsucc, ← BitVec.add_assoc, ← ih.2.2]
      rfl
  | other h htimer htick ih => rwa [htimer, htick]
  | @check es e fuel σ σ' h hl hu hok hs hflag ih =>
      have hdue : timerDue k σ = false := by
        by_contra hne
        have hoff := (rtTimerCheck_fires_iff hl hu hok ih.1 hs).mpr (by simpa using hne)
        rw [hflag] at hoff
        cases hoff
      have hsame := rtTimerCheckFrom_of_not_due hu hdue hs
      rwa [hsame.1, hsame.2]

/-- The comparison of `rt_timer_check`, in numbers. -/
theorem Pending.timerDue_iff {k : TimerId} {σ₀ σ : Kernel} {es : List ℕ} {e : ℕ}
    (h : Pending k σ₀ es e σ) :
    timerDue k σ = true ↔
      (σ₀.systemTick.toNat + (σ₀.timer k).initTick.toNat) % 2 ^ 32 <
        (σ₀.systemTick.toNat + e) % 2 ^ 32 := by
  obtain ⟨hflag, hout, hclock⟩ := h.timer_clock
  simp [timerDue, hflag, hout, hclock, BitVec.lt_def]

/-- What is expected of a check performed `e` ticks after the start of a timer that is
to run `d` ticks, when earlier checks were performed after `es` ticks. -/
def FiresOnTime (d : ℕ) (es : List ℕ) (e : ℕ) (fired : Prop) : Prop :=
  (e < d → ¬fired) ∧ (d < e → (∀ e' ∈ es, e' ≤ d) → fired)

/-- Where the counter stands: before the deadline it has not wrapped unless the deadline
has, and after the deadline it has not wrapped since. -/
def NoWrap (t d : ℕ) (es : List ℕ) (e : ℕ) : Prop :=
  (e < d → (t + e) / 2 ^ 32 = (t + d) / 2 ^ 32) ∧
    (d < e → (∀ e' ∈ es, e' ≤ d) →
      (e - d) % 2 ^ 32 ≠ 0 ∧ (t + d) % 2 ^ 32 + (e - d) % 2 ^ 32 < 2 ^ 32)

theorem not_passed_iff {t d e : ℕ} (hd : d < 2 ^ 31) (he : e < d) :
    ¬(t + d) % 2 ^ 32 < (t + e) % 2 ^ 32 ↔ (t + e) / 2 ^ 32 = (t + d) / 2 ^ 32 := by
  omega

theorem passed_iff {t d e : ℕ} (he : d < e) :
    (t + d) % 2 ^ 32 < (t + e) % 2 ^ 32 ↔
      (e - d) % 2 ^ 32 ≠ 0 ∧ (t + d) % 2 ^ 32 + (e - d) % 2 ^ 32 < 2 ^ 32 := by
  obtain ⟨c, rfl⟩ := Nat.exists_eq_add_of_lt he
  have hc : d + c + 1 - d = c + 1 := by omega
  have hsplit : (t + (d + c + 1)) % 2 ^ 32 =
      ((t + d) % 2 ^ 32 + (c + 1) % 2 ^ 32) % 2 ^ 32 := by
    rw [← Nat.add_mod]
    congr 1
    omega
  rw [hc, hsplit]
  generalize (t + d) % 2 ^ 32 = a at *
  omega

/-- A check fires a pending timer on time exactly when the counter has not wrapped on
the wrong side of the deadline. -/
theorem firesOnTime_iff_noWrap {k : TimerId} {σ₀ σ σ' : Kernel} {es : List ℕ} {e fuel : ℕ}
    (hd : (σ₀.timer k).initTick.toNat < 2 ^ 31) (hp : Pending k σ₀ es e σ) (hl : Listed σ)
    (hu : Untouched k σ) (hok : timerCheckOk fuel σ = true)
    (hs : rtTimerCheck fuel σ = some σ') :
    FiresOnTime (σ₀.timer k).initTick.toNat es e ((σ'.timer k).flag = .noActivated) ↔
      NoWrap σ₀.systemTick.toNat (σ₀.timer k).initTick.toNat es e := by
  have hfires := rtTimerCheck_fires_iff hl hu hok hp.timer_clock.1 hs
  rw [hp.timerDue_iff] at hfires
  unfold FiresOnTime NoWrap
  rw [hfires]
  refine and_congr (forall_congr' fun he => ?_) (forall_congr' fun he => ?_)
  · exact not_passed_iff hd he
  · exact forall_congr' fun _ => passed_iff he

/-- A timer of five ticks at tick `t`. -/
def fiveTicks (t : BitVec 32) : Kernel :=
  rtTimerInit (.other 0) (.callback []) 5 0 (threadInit t)

/-- `fiveTicks t` with the timer started, `e` ticks later. -/
def ticksLater (t : BitVec 32) : ℕ → Kernel
  | 0 => rtTimerStart (.other 0) (fiveTicks t)
  | e + 1 => sysTickIncrease (ticksLater t e)

theorem pending_ticksLater (t : BitVec 32) (e : ℕ) :
    Pending (.other 0) (fiveTicks t) [] e (ticksLater t e) := by
  induction e with
  | zero => exact .start
  | succ e ih => exact ih.tick

theorem listed_ticksLater (t : BitVec 32) (e : ℕ) : Listed (ticksLater t e) := by
  induction e with
  | zero =>
      have hinit : Listed (fiveTicks t) := (listed_threadInit t).rtTimerInit rfl _ _ _
      exact hinit.rtTimerStart rfl
  | succ e ih => exact ih

theorem timeoutFunc_ticksLater (t : BitVec 32) (e : ℕ) (j : TimerId) :
    ((ticksLater t e).timer j).timeoutFunc = .callback [] := by
  induction e with
  | zero =>
      by_cases hj : j = .other 0
      · subst hj
        rfl
      · simp [ticksLater, fiveTicks, rtTimerStart, rtTimerInit, Kernel.setTimer, hj, threadInit]
  | succ e ih => exact ih

theorem untouched_ticksLater (t : BitVec 32) (e : ℕ) : Untouched (.other 0) (ticksLater t e) := by
  intro j ops hj hfunc u hu
  rw [timeoutFunc_ticksLater] at hfunc
  obtain rfl := TimeoutFunc.callback.inj hfunc
  simp

/-- Started at tick 7, the timer is fired by a check after six ticks. -/
theorem firesOnTime_after_six :
    ∃ σ, rtTimerCheck 2 (ticksLater 7 6) = some σ ∧
      FiresOnTime 5 [] 6 ((σ.timer (.other 0)).flag = .noActivated) ∧ NoWrap 7 5 [] 6 := by
  obtain ⟨σ, hσ, -⟩ := Runs.exists_of_any
    (show (rtTimerCheck 2 (ticksLater 7 6)).any (fun _ => true) = true by decide)
  have hwrap : NoWrap 7 5 [] 6 := ⟨by omega, fun _ _ => by omega⟩
  exact ⟨σ, hσ, (firesOnTime_iff_noWrap (by decide) (pending_ticksLater 7 6)
    (listed_ticksLater 7 6) (untouched_ticksLater 7 6) (by decide) hσ).mpr hwrap, hwrap⟩

/-- A thread starts a timer of five ticks, and one tick passes. -/
def oneTickRun : List Event :=
  [.call (.rtTimerInit 0 [] 5 0), joinCall 3, .threadStart, .call (.rtTimerStart 0), .tick 2]

/-- Two ticks before the counter wraps, a timer of five ticks is fired by the check at
the next tick, in a run of the kernel and at the check itself.  Six ticks before the
wrap, it is not fired by a check after six ticks. -/
theorem firesOnTime_broken :
    (∃ σ, runFrom 4294967294 oneTickRun = some σ ∧ (σ.timer (.other 0)).flag = .noActivated) ∧
    (∃ σ, rtTimerCheck 2 (ticksLater 4294967294 1) = some σ ∧
      ¬FiresOnTime 5 [] 1 ((σ.timer (.other 0)).flag = .noActivated)) ∧
    (∃ σ, rtTimerCheck 2 (ticksLater 4294967290 6) = some σ ∧
      ¬FiresOnTime 5 [] 6 ((σ.timer (.other 0)).flag = .noActivated)) := by
  refine ⟨?_, ?_, ?_⟩
  · obtain ⟨σ, hσ, hoff⟩ := Runs.exists_of_any
      (show (runFrom 4294967294 oneTickRun).any
        (fun σ => (σ.timer (.other 0)).flag = .noActivated) = true by decide)
    exact ⟨σ, hσ, of_decide_eq_true hoff⟩
  · obtain ⟨σ, hσ, hoff⟩ := Runs.exists_of_any
      (show (rtTimerCheck 2 (ticksLater 4294967294 1)).any
        (fun σ => (σ.timer (.other 0)).flag = .noActivated) = true by decide)
    exact ⟨σ, hσ, fun h => h.1 (by omega) (of_decide_eq_true hoff)⟩
  · obtain ⟨σ, hσ, hon⟩ := Runs.exists_of_any
      (show (rtTimerCheck 2 (ticksLater 4294967290 6)).any
        (fun σ => (σ.timer (.other 0)).flag = .activated) = true by decide)
    refine ⟨σ, hσ, fun h => ?_⟩
    have hoff := h.2 (by omega) (by simp)
    rw [of_decide_eq_true hon] at hoff
    cases hoff

end LuojiOs
