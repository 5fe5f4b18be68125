import LuojiOs.Semaphore.Safety
import LuojiOs.Waiting.Queues

/-!
# Conservation and hand-over in order

With no kill and no detach, another thread ready whenever one blocks, and no
release that wraps around, the ledger of a semaphore balances exactly.  A release
hands over to the thread that has waited longest, or adds one to the value, and a
take that was handed a unit keeps it until it returns `RT_EOK`.
-/

namespace LuojiOs

open CircularList

/-- Plain events, and no release of `s` wraps around. -/
def semGuard (s : ℕ) (σ : Kernel) (e : Event) : Bool :=
  plainGuard σ e && roomGuard s σ e

theorem guards_of_semGuard {s : ℕ} {σ : Kernel} {e : Event} (h : semGuard s σ e = true) :
    plainGuard σ e = true ∧ roomGuard s σ e = true :=
  Bool.and_eq_true_iff.mp h

/-! ## A unit that was handed over -/

/-- Every take that was handed a unit of `s` still has it, or has returned `RT_EOK` in
one of the records that were added. -/
def Keeps (s : ℕ) (tr tr' : List Obs) : Prop :=
  ∃ new, tr' = new ++ tr ∧ ∀ t ∈ woken (.semWait s) tr,
    t ∈ woken (.semWait s) tr' ∨ ∃ time, .semTakeRet s (some t) time RT_EOK ∈ new

section

variable {s : ℕ} {t : Tid} {v v' : View}

theorem mem_woken_append {w : TNode} {new tr : List Obs}
    (hnew : ∀ o ∈ new, ∀ u, o ≠ .ranAgain w u) (h : t ∈ woken w tr) :
    t ∈ woken w (new ++ tr) := by
  induction new with
  | nil => exact h
  | cons o new ih =>
      have hrest := ih fun o' ho' => hnew o' (List.mem_cons_of_mem o ho')
      cases o with
      | woke w' u =>
          simp only [List.cons_append, woken]
          split
          · exact List.mem_append_left _ hrest
          · exact hrest
      | ranAgain w' u =>
          have hne : w' ≠ w := by
            rintro rfl
            exact hnew (.ranAgain w' u) (by simp) u rfl
          simpa [woken, hne] using hrest
      | _ => exact hrest

theorem Keeps.of_new {tr tr' : List Obs} (new : List Obs) (htr : tr' = new ++ tr)
    (hnew : ∀ o ∈ new, ∀ u, o ≠ .ranAgain (.semWait s) u) : Keeps s tr tr' := by
  refine ⟨new, htr, fun t ht => Or.inl ?_⟩
  rw [htr]
  exact mem_woken_append hnew ht

theorem Keeps.refl (s : ℕ) (tr : List Obs) : Keeps s tr tr :=
  .of_new [] rfl (by simp)

theorem Keeps.trans {tr₁ tr₂ tr₃ : List Obs} (h : Keeps s tr₁ tr₂) (h' : Keeps s tr₂ tr₃) :
    Keeps s tr₁ tr₃ := by
  obtain ⟨new, rfl, hkeep⟩ := h
  obtain ⟨new', rfl, hkeep'⟩ := h'
  refine ⟨new' ++ new, by rw [List.append_assoc], fun t ht => ?_⟩
  rcases hkeep t ht with hmem | ⟨time, hret⟩
  · rcases hkeep' t hmem with hmem' | ⟨time, hret⟩
    · exact Or.inl hmem'
    · exact Or.inr ⟨time, List.mem_append_left _ hret⟩
  · exact Or.inr ⟨time, List.mem_append_right _ hret⟩

theorem ne_ranAgain_of_isReport {o : Obs} (ho : o.isReport = true) (w : TNode) (u : Tid) :
    o ≠ .ranAgain w u := by
  rintro rfl
  simp [Obs.isReport] at ho

/-- The records of a test of a mailbox loop. -/
theorem turn_records {k : After} {u : Tid} (hT : View.Turn u k v v') :
    ∃ new, v'.trace = new ++ v.trace ∧ ∀ o ∈ new, ∀ w t, o ≠ .ranAgain w t := by
  cases hT with
  | @giveUp m x k r err o _ hx hk ho =>
      refine ⟨[o], rfl, fun o' ho' w t => ?_⟩
      rw [List.mem_singleton.mp ho']
      exact ne_ranAgain_of_isReport (isReport_of_retObs ho) w t
  | @park m x k k' w _ hx hk hk' hw hrun =>
      exact ⟨[.blocked w u], rfl, by simp⟩
  | @pass m x x' k w o r _ hx hk hq hr =>
      refine ⟨[r, o], rfl, fun o' ho' w t => ?_⟩
      rcases List.mem_cons.mp ho' with rfl | ho'
      · exact ne_ranAgain_of_isReport (isReport_of_retObs hr) w t
      · rw [List.mem_singleton.mp ho']
        exact ne_ranAgain_of_isReport (isReport_of_serves hk) w t
  | @passWake m x x' k w o r u' us p _ hx hk hq hu hs hr =>
      refine ⟨[.woke w u', o], rfl, fun o' ho' w t => ?_⟩
      rcases List.mem_cons.mp ho' with rfl | ho'
      · simp
      · rw [List.mem_singleton.mp ho']
        exact ne_ranAgain_of_isReport (isReport_of_serves hk) w t

/-- A move leaves a unit with its take, or is the return of the take. -/
theorem Keeps.step {Q N : Prop} {M : ℕ → Prop} {e : Event} (hp : Placed v) (hg : Granted v)
    (hs : View.Step Q N M e v v') : Keeps s v.trace v'.trace := by
  cases hs with
  | create ht hcur hlive hq | dispatch hc ht hs hh => exact .of_new [] rfl (by simp)
  | leave hc hne hd hs hh hf => exact .of_new [] rfl (by simp)
  | stay hc hrun hf | suspend he ht hs hsleep hf | sleep hc hs hf | enter hc hf =>
      exact .of_new [] rfl (by simp)
  | close ht hself hkill | clean hh hc | resume ht hs hsleep =>
      exact .of_new [] rfl (by simp)
  | expire ht harm hs => exact .of_new [.expired _] rfl (by simp)
  | semInit hs hq => exact .of_new [.semInit _ _] rfl (by simp)
  | mbInit hm hq hq' => exact .of_new [] rfl (by simp)
  | semTaken hx hpos => exact .of_new [.semTakeRet _ _ _ _, .semTaken _] rfl (by simp)
  | semRefused => exact .of_new [.semTakeRet _ _ _ _] rfl (by simp)
  | @report o _ ho =>
      refine .of_new [o] rfl fun o' ho' u => ?_
      rw [List.mem_singleton.mp ho']
      exact ne_ranAgain_of_isReport (isReport_of_prompt ho) _ u
  | semPark hx hzero hc hrun hf => exact .of_new [.blocked _ _] rfl (by simp)
  | semUp hx hroom hq => exact .of_new [.semReleased _] rfl (by simp)
  | semHand hx hq hu hs => exact .of_new [.woke _ _, .semReleased _] rfl (by simp)
  | @post m x x' k w o _ hx hk hq =>
      refine .of_new [o] rfl fun o' ho' u => ?_
      rw [List.mem_singleton.mp ho']
      exact ne_ranAgain_of_isReport (isReport_of_serves hk) _ u
  | @postWake m x x' k w o u us p _ hx hk hq hu hs =>
      refine .of_new [.woke w u, o] rfl fun o' ho' u => ?_
      rcases List.mem_cons.mp ho' with rfl | ho'
      · simp
      · rw [List.mem_singleton.mp ho']
        exact ne_ranAgain_of_isReport (isReport_of_serves hk) _ u
  | turn hc hf hT =>
      obtain ⟨new, htr, hnew⟩ := turn_records hT
      exact .of_new new htr fun o ho u => hnew o ho _ u
  | @rerunTurn u k k' w _ _ hc hf hw hw' hk herr hT =>
      obtain ⟨new, htr, hnew⟩ := turn_records hT
      refine .of_new (new ++ [.ranAgain w u]) (by simp [htr, View.rerun, View.emit]; rfl) ?_
      intro o ho u'
      rcases List.mem_append.mp ho with ho | ho
      · exact hnew o ho _ u'
      · rw [List.mem_singleton.mp ho]
        simp [(SemOk.head_of_isLoop (s := s) (t := u) hk hw).1]
  | @rerunRet u k w o _ hc hf hw ho herr =>
      have hreport := isReport_of_retObs ho
      have hiff := hg.mem_woken_iff hp hc hf hw
      by_cases hws : w = .semWait s
      · subst hws
        refine ⟨[o, .ranAgain (.semWait s) u], rfl, fun t ht => ?_⟩
        by_cases hut : t = u
        · -- the take that has the unit returns
          subst hut
          rw [hiff.mp ht] at ho
          obtain ⟨time, rfl⟩ : ∃ time, k = .semTake s time := by
            cases k <;> simp_all [After.head]
          exact Or.inr ⟨time, by simp [← Option.some.inj ho]⟩
        · refine Or.inl ?_
          change t ∈ woken (.semWait s) (o :: .ranAgain (.semWait s) u :: v.trace)
          rw [woken_report hreport]
          simpa [woken, List.mem_erase_of_ne hut] using ht
      · refine .of_new [o, .ranAgain w u] rfl fun o' ho' u' => ?_
        rcases List.mem_cons.mp ho' with rfl | ho'
        · exact ne_ranAgain_of_isReport hreport _ u'
        · rw [List.mem_singleton.mp ho']
          simp [hws]
  | @returned u r _ hc hf =>
      cases r with
      | none => exact .of_new [] rfl (by simp)
      | some o =>
          have hreport := isReport_of_prompt ((hg.thread u).stored o (by rw [hf]; rfl))
          refine .of_new [o] rfl fun o' ho' u => ?_
          rw [List.mem_singleton.mp ho']
          exact ne_ranAgain_of_isReport hreport _ u

end

section

variable {σ σ' : Kernel} {R : Rings TNode} {e : Event} {s : ℕ}

theorem keeps_of_step (hb : BaseInv σ R) (ho : Orderly (view σ R)) (hg : plainGuard σ e = true)
    (hs : step σ e = some σ') : Keeps s σ.trace σ'.trace := by
  obtain ⟨he, hjoin, hQ⟩ := guards_of_plainGuard hg
  obtain ⟨R', -, hmoves⟩ := step_refines hb (linkGuard_of_orderly ho hjoin hs) hs
  have hall : Orderly (view σ' R') ∧ Keeps s (view σ R).trace (view σ' R').trace := by
    generalize view σ' R' = v' at hmoves
    induction hmoves with
    | refl => exact ⟨ho, .refl s _⟩
    | tail _ hv ih =>
        obtain ⟨ho', hk⟩ := ih
        exact ⟨ho'.step hQ (quietGuard_of_plain he) he hv,
          hk.trans (Keeps.step ho'.placed ho'.granted hv)⟩
  exact hall.2

/-! ## A release -/

theorem mute_rtThreadResume (t : Tid) (σ : Kernel) : Mute σ (rtThreadResume t σ).1 := by
  unfold rtThreadResume
  split
  · exact ⟨rfl, rfl, rfl⟩
  · exact mute_wakeThread t σ

/-- What a release leaves of the objects and of the trace, whoever makes it. -/
theorem release_records (he : e = .call (.rtSemRelease s) ∨ e = .isrSemRelease s)
    (hs : step σ e = some σ') :
    ∃ r, rtSemRelease s σ = some r ∧ σ'.sem = r.1.sem ∧ σ'.trace = r.1.trace := by
  unfold step at hs
  split at hs
  · cases hs
  · rcases he with rfl | rfl
    · simp only [Call.exec] at hs
      split at hs
      · obtain ⟨⟨σ₁, b⟩, hr, hthen⟩ := Option.bind_eq_some_iff.mp hs
        refine ⟨_, hr, ?_⟩
        cases b with
        | false =>
            obtain rfl := Option.some.inj hthen
            exact ⟨rfl, rfl⟩
        | true =>
            simp only [thenSchedule] at hthen
            split at hthen
            · cases hthen
            · obtain rfl := Option.some.inj hthen
              exact ⟨rfl, rfl⟩
      · cases hs
    · obtain ⟨⟨σ₁, b⟩, hr, hthen⟩ := Option.bind_eq_some_iff.mp hs
      refine ⟨_, hr, ?_⟩
      cases b with
      | false =>
          obtain rfl := Option.some.inj hthen
          exact ⟨rfl, rfl⟩
      | true =>
          have hsched := schedOnly_rtSchedule hthen
          exact ⟨hsched.sem, hsched.trace⟩

theorem release_cases (hb : BaseInv σ R) (ho : Orderly (view σ R))
    (he : e = .call (.rtSemRelease s) ∨ e = .isrSemRelease s) (hs : step σ e = some σ') :
    ∃ x, σ.sem s = some x ∧
      ((waiting (.semWait s) σ.trace = [] ∧ σ'.sem s = some ⟨x.value + 1⟩ ∧
          σ'.trace = .semReleased s :: σ.trace) ∨
        ∃ t ts, waiting (.semWait s) σ.trace = t :: ts ∧ σ'.sem s = some x ∧
          σ'.trace = .woke (.semWait s) t :: .semReleased s :: σ.trace) := by
  obtain ⟨r, hr, hsem, htr⟩ := release_records he hs
  have horder : waiting (.semWait s) σ.trace = (view σ R).queue (.semWait s) :=
    ho.queued.order _ rfl
  obtain ⟨x, hx, ⟨hem, rfl⟩ | ⟨t, hem, hnext, rfl⟩⟩ := rtSemRelease_cases hr
  · refine ⟨x, hx, Or.inl ⟨?_, ?_, htr⟩⟩
    · rw [horder]
      exact hb.links.queue_eq_nil rfl hem
    · rw [hsem]
      simp [Kernel.setSem, Kernel.emit]
  · obtain ⟨rest, hseq⟩ := hb.links.seq_of_next (w := .semWait s) rfl hem hnext
    refine ⟨x, hx, Or.inr ⟨t, tids rest, ?_, ?_, ?_⟩⟩
    · rw [horder]
      exact queue_eq_cons rfl hseq
    · rw [hsem, (onlyThread_rtThreadResume t _).sem]
      exact hx
    · rw [htr, (mute_rtThreadResume t _).trace]
      rfl

/-- The return of a take that has waited. -/
theorem take_returns {t : Tid} {time : BitVec 32} (hfault : σ.fault = false)
    (hc : σ.currentThread = some t) (hf : σ.frame t = .after (.semTake s time))
    (herr : σ.error t = RT_EOK) :
    ∃ σ', step σ .goOn = some σ' ∧
      σ'.trace = .semTakeRet s (some t) time RT_EOK :: .ranAgain (.semWait s) t :: σ.trace := by
  refine ⟨rtSemTakeAfter t s time σ, ?_, ?_⟩
  · simp [step, hfault, hc, hf, After.exec]
  · simp [rtSemTakeAfter, Kernel.emit, Kernel.setFrame, herr]

/-! ## The law -/

/-- The semaphore `s`, which was initialised with `value`, is conserved and handed over
in the order of arrival. -/
structure Conserved (s : ℕ) (value : BitVec 32) (σ : Kernel) : Prop where
  /-- `suspend_thread_list` holds the waiting threads, the longest waiting one first -/
  list : σ.tlinks.Path (.semWait s) ((waiting (.semWait s) σ.trace).map .thread) (.semWait s)
  idle : ∀ x, σ.sem s = some x → 0 < x.value → waiting (.semWait s) σ.trace = []
  balance : ∃ x, σ.sem s = some x ∧
    x.value.toNat + drawn s σ.trace = (value.setWidth 16).toNat + released s σ.trace
  /-- a release adds one to the value, or hands over to the first waiting thread -/
  release : ∀ e σ', e = .call (.rtSemRelease s) ∨ e = .isrSemRelease s →
    semGuard s σ e = true → step σ e = some σ' →
    ∃ x x', σ.sem s = some x ∧ σ'.sem s = some x' ∧
      ((waiting (.semWait s) σ.trace = [] ∧ waiting (.semWait s) σ'.trace = [] ∧
          woken (.semWait s) σ'.trace = woken (.semWait s) σ.trace ∧
          x'.value.toNat = x.value.toNat + 1) ∨
        ∃ t ts, waiting (.semWait s) σ.trace = t :: ts ∧
          waiting (.semWait s) σ'.trace = ts ∧
          woken (.semWait s) σ'.trace = woken (.semWait s) σ.trace ++ [t] ∧ x' = x)
  /-- a take that was handed a unit keeps it until it has returned `RT_EOK` -/
  keeps : ∀ e σ', semGuard s σ e = true → step σ e = some σ' → Keeps s σ.trace σ'.trace
  /-- its timer does not run any more, and when it goes on it returns `RT_EOK` -/
  returns : ∀ t ∈ woken (.semWait s) σ.trace,
    (σ.timer (.ofThread t)).flag = .noActivated ∧ σ.error t = RT_EOK ∧
      ∃ time, σ.frame t = .schedule (.semTake s time) ∨
        σ.frame t = .after (.semTake s time) ∧ (σ.fault = false →
          σ.currentThread = some t → ∃ σ', step σ .goOn = some σ' ∧
            σ'.trace = .semTakeRet s (some t) time RT_EOK :: .ranAgain (.semWait s) t ::
              σ.trace)

theorem frame_of_head {f : Frame} (hf : f.head = some (.semWait s)) :
    ∃ time, f = .schedule (.semTake s time) ∨ f = .after (.semTake s time) := by
  cases f with
  | run => cases hf
  | suspended => cases hf
  | schedule k | after k => cases k <;> simp_all [Frame.head, After.head]

theorem conserved_of_reachable {s : ℕ} {value : BitVec 32} {σ : Kernel}
    (h : Reachable (fun σ e => semGuard s σ e = true) σ) (hinit : .semInit s value ∈ σ.trace) :
    Conserved s value σ := by
  obtain ⟨R, hb, ho, hsem⟩ := Reachable.orderly (I := SemOk True s)
    (fun σ e hg => (guards_of_semGuard hg).1) (semOk_threadInit True s)
    (fun σ e v v' hg hs ho hsem => hsem.step (fun _ => (guards_of_semGuard hg).2) ho.placed
      ho.granted hs) h
  have horder : waiting (.semWait s) σ.trace = (view σ R).queue (.semWait s) :=
    ho.queued.order _ rfl
  obtain ⟨hstart, hsome⟩ := hsem.started value hinit
  obtain ⟨x, hx⟩ := Option.ne_none_iff_exists'.mp hsome
  have hstock : (view σ R).stock s = x.value.toNat := SemOk.stock_eq hx
  refine ⟨?_, fun y hy hpos => ?_, ⟨x, hx, ?_⟩, fun e σ' he hg hs => ?_, fun e σ' hg hs => ?_,
    fun t ht => ?_⟩
  · rw [horder]
    exact hb.links.path_queue rfl
  · rw [horder]
    refine hsem.idle ?_
    rw [SemOk.stock_eq hy]
    simpa [BitVec.lt_def] using hpos
  · have hexact := hsem.exact_of trivial
    rwa [hstock, hstart] at hexact
  · obtain ⟨y, hy, ⟨hnil, hsem', htr⟩ | ⟨t, ts, hcons, hsem', htr⟩⟩ := release_cases hb ho he hs
    · refine ⟨y, _, hy, hsem', Or.inl ⟨hnil, ?_, ?_, ?_⟩⟩
      · rw [htr]
        exact hnil
      · rw [htr]
        rfl
      · have hroom : y.value ≠ 65535 := by
          have := (guards_of_semGuard hg).2
          rcases he with rfl | rfl <;> simpa [roomGuard, hy] using this
        have hne : y.value.toNat ≠ 65535 := fun hv =>
          hroom (BitVec.eq_of_toNat_eq (by simpa using hv))
        have := y.value.isLt
        simp only [BitVec.toNat_add, BitVec.ofNat_eq_ofNat, BitVec.toNat_ofNat]
        omega
    · refine ⟨y, _, hy, hsem', Or.inr ⟨t, ts, hcons, ?_, ?_, rfl⟩⟩
      · rw [htr]
        simp [waiting, hcons]
      · rw [htr]
        simp [woken]
  · exact keeps_of_step hb ho (guards_of_semGuard hg).1 hs
  · obtain ⟨hhead, herr, harm, -⟩ := (ho.granted.thread t).woken _ ht
    have hflag : (σ.timer (.ofThread t)).flag = .noActivated := by
      have : (σ.timer (.ofThread t)).flag.isActivated = false := harm
      cases hfl : (σ.timer (.ofThread t)).flag with
      | noActivated => rfl
      | activated => simp [hfl, TimerFlag.isActivated] at this
    obtain ⟨time, hf | hf⟩ := frame_of_head hhead
    · exact ⟨hflag, herr, time, Or.inl hf⟩
    · exact ⟨hflag, herr, time, Or.inr ⟨hf, fun hfault hc => take_returns hfault hc hf herr⟩⟩

/-- A thread waits, and the release of another one hands the semaphore over. -/
theorem conserved_handOverRun :
    ∃ σ, checkedRun (semGuard 0) 0 (handOverRun ++ [.goOn]) = some σ ∧ Conserved 0 0 σ := by
  obtain ⟨σ, hσ, hok⟩ := Runs.exists_of_any
    (show (checkedRun (semGuard 0) 0 (handOverRun ++ [.goOn])).any (fun σ =>
      .semInit 0 0 ∈ σ.trace) = true by decide)
  exact ⟨σ, hσ, conserved_of_reachable (reachable_of_checkedRun hσ) (of_decide_eq_true hok)⟩

end

end LuojiOs
