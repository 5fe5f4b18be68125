import LuojiOs.Waiting.Refinement

/-!
# Simulation of the kernel by the waiting protocol

Every act of an event that meets `linkGuard` keeps the lists and is matched by
moves of the abstract machine.  `Protocol.reachable` is the rule by which the
invariants of the abstract machine become invariants of the runs of the kernel.
-/

namespace LuojiOs

open CircularList

section

variable {σ₀ σ σ' : Kernel} {R : Rings TNode} {e : Event} {t : Tid}

/-- The moves of the abstract machine on the event `e` that arrives in `σ₀`. -/
abbrev Moves (σ₀ : Kernel) (e : Event) : View → View → Prop :=
  Relation.ReflTransGen (View.Step (switchGuard σ₀ e = true) (quietGuard σ₀ e = true)
    (fun s => roomGuard s σ₀ e = true) e)

theorem free_of_canCall (hcall : canCall σ = true) (hc : σ.currentThread = some t) :
    (σ.frame t).free = true := by
  simp only [canCall, hc, decide_eq_true_eq] at hcall
  rcases hcall with hf | hf <;> rw [hf] <;> rfl

theorem view_rerun (t : Tid) (w : TNode) (σ : Kernel) (R : Rings TNode) :
    view (rerun t w σ) R = (view σ R).rerun t w := by
  unfold rerun
  rw [view_setFrame, view_emit]
  rfl

/-- `rt_schedule()` called by the current thread, which stands at `f` before and at
`after k` from then on. -/
theorem BaseInv.schedule {c : Tid} {k : After} (h : BaseInv σ R)
    (hc : σ.currentThread = some c)
    (hf : σ.frame c = .schedule k ∨ (σ.frame c).free = true ∧ k = .ret none)
    (hs : rtSchedule (σ.setFrame c (.after k)) = some σ') {Q N : Prop} {M : ℕ → Prop}
    (hQ : Q → σ.statu c = .running ∨ σ.readyPriorityGroup ≠ 0) :
    ∃ R', BaseInv σ' R' ∧ View.Step Q N M e (view σ R) (view σ' R') := by
  obtain ⟨c', hc', hcase⟩ := (h.setFrame c (.after k)).schedule_cases hs
  obtain rfl : c = c' := by
    rw [show (σ.setFrame c (.after k)).currentThread = σ.currentThread from rfl, hc] at hc'
    exact Option.some.inj hc'
  rcases hcase with ⟨hzero, rfl⟩ | ⟨R', d, p, hb, hne, hd, hready, hhome, hview⟩
  · refine ⟨R, h.setFrame c _, ?_⟩
    rw [view_setFrame]
    exact .stay hc (fun q => (hQ q).resolve_right fun hg => hg hzero) hf
  · refine ⟨R', hb, ?_⟩
    rw [hview, view_setFrame]
    have hframe : (σ.setFrame c (.after k)).frame c = .after k := by simp [Kernel.setFrame]
    rw [hframe, View.switch_setFrame]
    exact .leave hc hne hd hready hhome (Or.inr ⟨k, rfl, hf⟩)

theorem BaseInv.preempt (h : BaseInv σ R) (hs : rtSchedule σ = some σ') {Q N : Prop} {M : ℕ → Prop} :
    ∃ R', BaseInv σ' R' ∧
      Relation.ReflTransGen (View.Step Q N M e) (view σ R) (view σ' R') := by
  obtain ⟨c, hc, ⟨-, rfl⟩ | ⟨R', d, p, hb, hne, hd, hready, hhome, hview⟩⟩ := h.schedule_cases hs
  · exact ⟨R, h, .refl⟩
  · refine ⟨R', hb, .single ?_⟩
    rw [hview]
    exact .leave hc hne hd hready hhome (Or.inl rfl)

theorem BaseInv.suspendDirect {s : Statu} (h : BaseInv σ R) (ht : t ∈ σ.allThread)
    (hcall : σ.currentThread = some t → (σ.frame t).free = true)
    (hs : σ.statu t = .ready ∨ σ.statu t = .running) {Q N : Prop} {M : ℕ → Prop}
    (he : e = .call (.rtThreadSuspend t s)) (hQ : Q → s = .sleep) :
    ∃ R', BaseInv (suspendDirect t s σ) R' ∧
      View.Step Q N M e (view σ R) (view (suspendDirect t s σ) R') := by
  obtain ⟨hb, hview⟩ := h.suspend ht hs s
  by_cases hc : σ.currentThread = some t
  · rw [LuojiOs.suspendDirect, if_pos hc]
    refine ⟨_, hb.setFrame t .suspended, ?_⟩
    rw [view_setFrame, hview, View.setFrame_move]
    exact .suspend he ht hs hQ (Or.inl ⟨hc, hcall hc, rfl⟩)
  · rw [LuojiOs.suspendDirect, if_neg hc]
    refine ⟨_, hb, ?_⟩
    rw [hview]
    exact .suspend he ht hs hQ (Or.inr ⟨hc, rfl⟩)

/-- Closing the current thread: it first stands before its `rt_schedule()`. -/
theorem BaseInv.exit (h : BaseInv σ R) (hc : σ.currentThread = some t)
    (hf : (σ.frame t).free = true) {Q N : Prop} {M : ℕ → Prop} :
    ∃ R', BaseInv ((closeThread t σ).setFrame t (.schedule (.ret none))) R' ∧
      Relation.ReflTransGen (View.Step Q N M e) (view σ R)
        (view ((closeThread t σ).setFrame t (.schedule (.ret none))) R') := by
  have ht := (h.links.current t hc).1
  obtain ⟨R', hb, -, hview⟩ := h.close ht
  refine ⟨R', hb.setFrame t _, ?_⟩
  have hmid : View.Step Q N M e (view σ R) ((view σ R).setFrame t (.schedule (.ret none))) :=
    .enter hc hf
  have hlast : view ((closeThread t σ).setFrame t (.schedule (.ret none))) R' =
      ((view σ R).setFrame t (.schedule (.ret none))).close t := by
    rw [view_setFrame, hview]
    simp [View.close, View.setFrame, View.set, View.move]
  rw [hlast]
  refine .tail (.single hmid) (.close ht (fun _ => ?_) (fun hne => absurd hc hne))
  simp [View.setFrame, View.set]

/-- The bitmap is left with a bit when a thread is closed that was on no ready list. -/
theorem BaseInv.group_closeThread (h : BaseInv σ R) (ht : t ∈ σ.allThread)
    (hc : σ.currentThread = some t) (hg : σ.readyPriorityGroup ≠ 0) :
    (closeThread t σ).readyPriorityGroup ≠ 0 := by
  obtain ⟨R', hb, hm, -⟩ := h.close ht
  obtain ⟨p, -, hp⟩ := rtFfs_spec hg
  have hhome : R.home (.thread t) ≠ some (.ready p) := by
    intro hh
    have hready := (h.links.ready t p hh).2
    have := (h.links.current t hc).2 (by rw [hready]; rfl)
    simp [this] at hh
  have hne : R'.seq (.ready p) ≠ [] := by
    rw [hm.seq_eq (by simp) hhome]
    exact (h.links.group p hp.lt).mp hp.set
  intro hzero
  have := (hb.links.group p hp.lt).mpr hne
  simp [hzero] at this

theorem BaseInv.killSelf (h : BaseInv σ R) (hc : σ.currentThread = some t)
    (hf : (σ.frame t).free = true) {Q N : Prop} {M : ℕ → Prop} (hQ : Q → σ.readyPriorityGroup ≠ 0)
    (hs : rtSchedule ((closeThread t σ).setFrame t (.after (.ret none))) = some σ') :
    ∃ R', BaseInv σ' R' ∧
      Relation.ReflTransGen (View.Step Q N M e) (view σ R) (view σ' R') := by
  have ht := (h.links.current t hc).1
  obtain ⟨R₁, h₁, hsteps⟩ := h.exit (e := e) (Q := Q) (N := N) (M := M) hc hf
  have hcur : ((closeThread t σ).setFrame t (.schedule (.ret none))).currentThread =
      some t := by
    rw [← hc]
    exact (onlyThread_closeThread t σ).current
  have hframe : ((closeThread t σ).setFrame t (.schedule (.ret none))).frame t =
      .schedule (.ret none) := by
    simp [Kernel.setFrame]
  have htwice : ((closeThread t σ).setFrame t (.schedule (.ret none))).setFrame t
      (.after (.ret none)) = (closeThread t σ).setFrame t (.after (.ret none)) := by
    simp [Kernel.setFrame]
  rw [← htwice] at hs
  obtain ⟨R', h', hstep⟩ := h₁.schedule (e := e) (Q := Q) (N := N) (M := M) hcur (Or.inl hframe) hs
    (fun q => Or.inr (h.group_closeThread ht hc (hQ q)))
  exact ⟨R', h', hsteps.tail hstep⟩

/-! ## The simulation -/

theorem callerRuns_of_switchGuard {c : Tid} (hc : σ.currentThread = some c) {k : After}
    (hk : e = .goOn ∧ σ.frame c = .schedule k ∨
      e = .call .rtSchedule ∧ canCall σ = true ∧ k = .ret none)
    (hg : switchGuard σ e = true) : σ.statu c = .running ∨ σ.readyPriorityGroup ≠ 0 := by
  rcases hk with ⟨rfl, hf⟩ | ⟨rfl, -, -⟩
  · simpa [switchGuard, hc, hf] using hg
  · simpa [switchGuard, callerRuns, hc] using hg

theorem act_refines (h : BaseInv σ R) (hg : linkGuard σ₀ e = true) (ha : Act σ₀ e σ σ') :
    ∃ R', BaseInv σ' R' ∧ Moves σ₀ e (view σ R) (view σ' R') := by
  cases ha with
  | clock ha =>
      obtain ⟨hb, hview⟩ := h.clock ha
      refine ⟨R, hb, ?_⟩
      rw [hview]
  | object ha =>
      obtain ⟨hb, hstep⟩ := h.object ha
      exact ⟨R, hb, .single hstep⟩
  | join he =>
      subst he
      have hp : joinInRange _ = true := (Bool.and_eq_true _ _ ▸ hg).1
      rcases h.join hp with heq | ⟨R', hb, hview⟩
      · rw [heq]
        exact ⟨R, h, .refl⟩
      · refine ⟨R', hb, .single ?_⟩
        rw [hview]
        have hnew := h.links.not_mem_of_fresh
        refine .create rfl (fun hc => hnew (h.links.current _ hc).1) hnew (fun w hw => ?_)
        have hwait : w.isWait = true := by
          by_contra hnw
          simp [view, hnw] at hw
        rw [queue_of_isWait hwait, mem_tids, R.mem_seq] at hw
        exact hnew (h.links.mem_allThread hw)
  | start he hc hs =>
      obtain ⟨R', d, p, hb, hd, hready, hhome, hview⟩ := h.start hs
      refine ⟨R', hb, .single ?_⟩
      rw [hview]
      exact .dispatch hc hd hready hhome
  | @schedule c k _ hc hk hs =>
      have hf : σ₀.frame c = .schedule k ∨ (σ₀.frame c).free = true ∧ k = .ret none := by
        rcases hk with ⟨-, hf⟩ | ⟨-, hcall, hret⟩
        · exact Or.inl hf
        · exact Or.inr ⟨free_of_canCall hcall hc, hret⟩
      obtain ⟨R', hb, hstep⟩ := h.schedule hc hf hs (callerRuns_of_switchGuard hc hk)
      exact ⟨R', hb, .single hstep⟩
  | preempt he hs => exact h.preempt hs
  | @suspend t s he hcall ht hs =>
      have hQ : switchGuard σ₀ e = true → s = .sleep := by
        subst he
        simp [switchGuard]
      obtain ⟨R', hb, hstep⟩ := h.suspendDirect ht (free_of_canCall hcall) hs he hQ
      exact ⟨R', hb, .single hstep⟩
  | @resume t _ he hs =>
      obtain ⟨R', hb, hview⟩ := h.wake hs
      refine ⟨R', hb, .single ?_⟩
      rw [hview]
      refine .resume (h.links.blocked _ hs) hs (fun hN => ?_)
      rcases he with ⟨rfl, rfl⟩ | ⟨s, fuel, rfl, hem⟩
      · have hne : σ.statu t ≠ .suspend := by simpa [quietGuard] using hN
        change σ.statu t = .sleep
        cases hst : σ.statu t <;> simp_all [Statu.isBlocked]
      · simp [quietGuard, hem] at hN
  | sleep he hc hcall hs =>
      have hrun := running_of_linkGuard hg (blocks_of_sleeps he) hc
      obtain ⟨R', hb', hview⟩ := h.sleep hc hrun hs
      refine ⟨R', hb', .single ?_⟩
      rw [hview]
      exact .sleep hc hrun (free_of_canCall hcall hc)
  | exit he hc hcall => exact h.exit hc (free_of_canCall hcall hc)
  | enter hc hcall =>
      refine ⟨R, h.setFrame _ _, .single ?_⟩
      rw [view_setFrame]
      exact .enter hc (free_of_canCall hcall hc)
  | kill he ht hc =>
      obtain ⟨R', hb, -, hview⟩ := h.close ht
      refine ⟨R', hb, .single ?_⟩
      rw [hview]
      exact .close ht (fun hcur => absurd hcur hc) (fun _ => ⟨_, he⟩)
  | @killSelf id t _ he hcall hfind hc hs =>
      refine h.killSelf hc (free_of_canCall hcall hc) (fun hQ => ?_) hs
      subst he
      simpa [switchGuard, hfind, hc] using hQ
  | @clean fuel _ he hs =>
      refine h.cleanDeadFrom (fun c hc hclose => ?_) rfl rfl hs
      have hrun := running_of_linkGuard hg (by rw [he]; rfl) hc
      simp [hrun] at hclose
  | expire he hdue hfunc =>
      obtain ⟨rfl, hflag⟩ := h.timers.thread_cases hdue hfunc
      obtain ⟨R', hb, hview, ht, hblk⟩ := h.expire hflag
      refine ⟨R', hb, .single ?_⟩
      rw [hview]
      exact .expire ht (TimerFlag.isActivated_iff.mpr hflag) hblk
  | @semPark s time t he hc hcall hw =>
      have hs := running_of_linkGuard hg (by rw [he]; exact hw) hc
      obtain ⟨x, hx, hzero⟩ : ∃ x, σ₀.sem s = some x ∧ ¬0 < x.value := by
        simp only [After.waits] at hw
        split at hw
        · cases hw
        · next x hx => exact ⟨x, hx, (of_decide_eq_true hw).1⟩
      obtain ⟨R', hb', hview⟩ := h.park (w := .semWait s) (h.links.current t hc).1 hs rfl
        (by simp [TNode.born, hx]) (.semTake s time)
      refine ⟨R', hb', .single ?_⟩
      rw [hview]
      exact .semPark hx hzero hc hs (free_of_canCall hcall hc)
  | @release s r he hr =>
      have hM : roomGuard s σ₀ e = true → ∀ x, σ₀.sem s = some x → x.value ≠ 65535 := by
        intro hroom x hx
        rcases he with rfl | rfl <;> simpa [roomGuard, hx] using hroom
      obtain ⟨R', hb, hstep⟩ := h.release (M := fun s => roomGuard s σ₀ e = true) hM hr
      exact ⟨R', hb, .single hstep⟩
  | @post m x value r he hx hne hr =>
      have hserve := h.serve (r := r) (w := .mbRecv m) rfl (by
        rcases mbPut_cases hr with hem | ⟨u, hem, hnext, hr⟩
        · exact Or.inl hem
        · exact Or.inr ⟨u, hem, hnext, Or.inl hr⟩)
      have hk : View.Serves m x (.mbSend m value 0 0 0) (x.put value) (.sent m value)
        (.mbRecv m) := .put hne
      obtain ⟨R', hb, ⟨-, hnil, hview⟩ | ⟨u, us, p, -, hcons, hu, hs, hview⟩⟩ := hserve
      · refine ⟨R', hb, .single ?_⟩
        rw [hview]
        exact .post hx hk hnil
      · refine ⟨R', hb, .single ?_⟩
        rw [hview]
        exact .postWake hx hk hcons hu hs
  | turn hc hcall hb hk hT =>
      obtain ⟨R', h', hturn⟩ := h.turn hc (fun hw => running_of_linkGuard hg (hb hw) hc) hT
      exact ⟨R', h', .single (.turn hc (free_of_canCall hcall hc) hturn)⟩
  | @rerunTurn t k w _ he hc hf hk hw herr hb hT =>
      have h₁ : BaseInv (rerun t w σ₀) R := (h.emit _).setFrame t .run
      have hwaits : (k.again σ₀.systemTick).waits (rerun t w σ₀) =
          (k.again σ₀.systemTick).waits σ₀ := by
        cases k <;> rfl
      have hrun : (k.again σ₀.systemTick).waits (rerun t w σ₀) = true →
          σ₀.statu t = .running := by
        intro hwait
        exact running_of_linkGuard hg (hb (hwaits ▸ hwait)) hc
      obtain ⟨R', h', hturn⟩ := h₁.turn (show (rerun t w σ₀).currentThread = some t from hc)
        hrun hT
      have hw' : (k.again σ₀.systemTick).head = some w := by
        rw [← hw]
        cases k <;> rfl
      rw [view_rerun] at hturn
      exact ⟨R', h', .single (.rerunTurn hc hf hw hw' hk herr hturn)⟩
  | @rerunRet t k w o he hc hf hw ho herr =>
      refine ⟨R, ((h.emit _).setFrame t .run).emit o, .single ?_⟩
      rw [view_emit, view_rerun]
      exact .rerunRet hc hf hw ho herr
  | @returned t r he hc hf =>
      have hstep : View.Step (switchGuard σ₀ e = true) (quietGuard σ₀ e = true)
          (fun s => roomGuard s σ₀ e = true) e (view σ₀ R) _ := .returned hc hf
      cases r with
      | none =>
          refine ⟨R, h.setFrame t .run, .single ?_⟩
          rwa [← view_setFrame] at hstep
      | some o =>
          refine ⟨R, (h.setFrame t .run).emit o, .single ?_⟩
          rwa [← view_setFrame] at hstep

theorem acts_refine (h : BaseInv σ R) (hg : linkGuard σ₀ e = true)
    (ha : Acts σ₀ e σ σ') :
    ∃ R', BaseInv σ' R' ∧ Moves σ₀ e (view σ R) (view σ' R') := by
  induction ha with
  | refl => exact ⟨R, h, .refl⟩
  | tail _ ha ih =>
      obtain ⟨R₁, h₁, hmoves⟩ := ih
      obtain ⟨R', h', hmore⟩ := act_refines h₁ hg ha
      exact ⟨R', h', hmoves.trans hmore⟩

/-- An event that meets `linkGuard` keeps the lists and is matched by moves. -/
theorem step_refines (h : BaseInv σ R) (hg : linkGuard σ e = true)
    (hs : step σ e = some σ') : ∃ R', BaseInv σ' R' ∧ Moves σ e (view σ R) (view σ' R') :=
  acts_refine h hg (step_acts hs)

end

theorem baseInv_threadInit (tick : BitVec 32) : BaseInv (threadInit tick) Rings.empty where
  links :=
    { represents := Rings.represents_empty
      member := fun n h hn => by simp [Rings.empty] at hn
      ready := fun t p hn => by simp [Rings.empty] at hn
      dead := fun t hn => by simp [Rings.empty] at hn
      wait := fun t w hn => by simp [Rings.empty] at hn
      blocked := fun t ht => by simp [threadInit, Statu.isBlocked] at ht
      priority := fun t ht => by simp [threadInit] at ht
      group := fun p hp => by simp [threadInit, Rings.empty]
      current := fun c hc => by simp [threadInit] at hc
      fresh := fun t ht => by simp [threadInit] at ht }
  timers :=
    { armed := fun t ht => by simp [threadInit] at ht
      func := fun t ht => by simp [threadInit] at ht
      other := fun u => ⟨[], rfl⟩ }
  born := fun w _ _ => rfl

/-- An invariant of the abstract machine holds in the runs of the kernel. -/
theorem Reachable.protocol {guard : Kernel → Event → Prop} {I : View → Prop}
    (hlink : ∀ σ e, guard σ e → linkGuard σ e = true)
    (hfirst : ∀ tick, I (view (threadInit tick) Rings.empty))
    (hstep : ∀ σ e v v', guard σ e →
      View.Step (switchGuard σ e = true) (quietGuard σ e = true)
        (fun s => roomGuard s σ e = true) e v v' → I v → I v')
    {σ : Kernel} (h : Reachable guard σ) : ∃ R, BaseInv σ R ∧ I (view σ R) := by
  refine Runs.Reach.invariant (P := fun σ => ∃ R, BaseInv σ R ∧ I (view σ R)) ?_ ?_ h
  · rintro σ ⟨tick, rfl⟩
    exact ⟨_, baseInv_threadInit tick, hfirst tick⟩
  · rintro σ e σ' ⟨R, hb, hI⟩ hg hs
    obtain ⟨R', hb', hmoves⟩ := step_refines hb (hlink σ e hg) hs
    refine ⟨R', hb', ?_⟩
    generalize view σ' R' = v' at hmoves
    induction hmoves with
    | refl => exact hI
    | tail _ hv ih => exact hstep σ e _ _ hg hv ih

end LuojiOs
