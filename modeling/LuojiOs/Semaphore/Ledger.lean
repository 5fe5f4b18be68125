import LuojiOs.Waiting.Grants

/-!
# The ledger of a semaphore

The trace is read as a ledger: units put in by `rt_sem_init` and `rt_sem_release`,
units drawn by a take that finds one or is handed one.  `SemOk` says that what is
drawn and what is still in `sem->value` has been put in, that nobody waits while
there are units, and that a take returns `RT_EOK` for a unit it has drawn.
-/

namespace LuojiOs

open CircularList

/-! ## Reading the trace -/

/-- The value `rt_sem_init` stored. -/
def initial (s : ℕ) : List Obs → ℕ
  | [] => 0
  | .semInit s' value :: tr =>
    if s' = s then initial s tr + (value.setWidth 16).toNat else initial s tr
  | _ :: tr => initial s tr

/-- The calls of `rt_sem_release`. -/
def released (s : ℕ) : List Obs → ℕ
  | [] => 0
  | .semReleased s' :: tr => if s' = s then released s tr + 1 else released s tr
  | _ :: tr => released s tr

/-- The takes that have a unit, counted from the hand-over for those that waited. -/
def drawn (s : ℕ) : List Obs → ℕ
  | [] => 0
  | .semTaken s' :: tr => if s' = s then drawn s tr + 1 else drawn s tr
  | .woke w _ :: tr => if w = .semWait s then drawn s tr + 1 else drawn s tr
  | _ :: tr => drawn s tr

/-- The calls of `rt_sem_take` that have returned `RT_EOK`. -/
def succeeded (s : ℕ) : List Obs → ℕ
  | [] => 0
  | .semTakeRet s' _ _ r :: tr =>
    if s' = s ∧ r = RT_EOK then succeeded s tr + 1 else succeeded s tr
  | _ :: tr => succeeded s tr

/-- The record is an entry of the ledger of `s`. -/
def Obs.concerns (s : ℕ) : Obs → Bool
  | .semInit s' _ | .semTaken s' | .semReleased s' => s' = s
  | .woke w _ | .ranAgain w _ => w = .semWait s
  | .semTakeRet s' _ _ r => s' = s ∧ r = RT_EOK
  | _ => false

theorem initial_eq_zero {s : ℕ} {tr : List Obs} (h : ∀ value, .semInit s value ∉ tr) :
    initial s tr = 0 := by
  induction tr with
  | nil => rfl
  | cons o tr ih =>
      have hrest := ih fun value hv => h value (List.mem_cons_of_mem o hv)
      cases o with
      | semInit s' value =>
          have hne : s' ≠ s := by
            rintro rfl
            exact h value (by simp)
          simp [initial, hne, hrest]
      | _ => exact hrest

/-! ## The invariant -/

/-- The units in `sem->value`. -/
def View.stock (s : ℕ) (v : View) : ℕ :=
  (v.sem s).elim 0 fun x => x.value.toNat

/-- The ledger of `s` is in order.  `P` says that no release has wrapped around. -/
structure SemOk (P : Prop) (s : ℕ) (v : View) : Prop where
  started : ∀ value, .semInit s value ∈ v.trace →
    initial s v.trace = (value.setWidth 16).toNat ∧ v.sem s ≠ none
  bound : v.stock s + drawn s v.trace ≤ initial s v.trace + released s v.trace
  exact_of : P → v.stock s + drawn s v.trace = initial s v.trace + released s v.trace
  idle : 0 < v.stock s → v.queue (.semWait s) = []
  returns : succeeded s v.trace + (woken (.semWait s) v.trace).length = drawn s v.trace

namespace SemOk

variable {P : Prop} {s : ℕ} {v v' : View} {t : Tid}

theorem congr (h : SemOk P s v) (hsem : v'.sem = v.sem) (htr : v'.trace = v.trace)
    (hq : v.queue (.semWait s) = [] → v'.queue (.semWait s) = []) : SemOk P s v' := by
  have hstock : v'.stock s = v.stock s := by simp only [View.stock, hsem]
  refine ⟨?_, ?_, ?_, ?_, ?_⟩
  · rw [htr, hsem]
    exact h.started
  · rw [htr, hstock]
    exact h.bound
  · rw [htr, hstock]
    exact h.exact_of
  · rw [hstock]
    exact fun hpos => hq (h.idle hpos)
  · rw [htr]
    exact h.returns

theorem emit (h : SemOk P s v) {o : Obs} (ho : o.concerns s = false) :
    SemOk P s (v.emit o) := by
  have htr : initial s (o :: v.trace) = initial s v.trace ∧
      released s (o :: v.trace) = released s v.trace ∧
      drawn s (o :: v.trace) = drawn s v.trace ∧
      succeeded s (o :: v.trace) = succeeded s v.trace ∧
      woken (.semWait s) (o :: v.trace) = woken (.semWait s) v.trace := by
    cases o <;> simp_all [Obs.concerns, initial, released, drawn, succeeded, woken]
  obtain ⟨hi, hr, hd, hs, hw⟩ := htr
  refine ⟨fun value hv => ?_, ?_, ?_, h.idle, ?_⟩
  · have hne : .semInit s value ≠ o := by
      rintro rfl
      simp [Obs.concerns] at ho
    have hmem : .semInit s value ∈ v.trace := (List.mem_cons.mp hv).resolve_left hne
    rw [show (v.emit o).trace = o :: v.trace from rfl, hi]
    exact h.started value hmem
  · rw [show (v.emit o).trace = o :: v.trace from rfl, hi, hr, hd]
    exact h.bound
  · rw [show (v.emit o).trace = o :: v.trace from rfl, hi, hr, hd]
    exact h.exact_of
  · rw [show (v.emit o).trace = o :: v.trace from rfl, hd, hs, hw]
    exact h.returns

theorem set (h : SemOk P s v) (t : Tid) (x : ThreadView) : SemOk P s (v.set t x) :=
  h.congr rfl rfl fun hq => hq

theorem setMb (h : SemOk P s v) (m : ℕ) (x : Mailbox) : SemOk P s (v.setMb m x) :=
  h.congr rfl rfl fun hq => hq

/-- The thread `t` goes to another list than that of `s`. -/
theorem move (h : SemOk P s v) {x : ThreadView} (hx : x.home ≠ some (.semWait s)) :
    SemOk P s (v.move t x) := by
  refine h.congr rfl rfl fun hq => ?_
  simp [View.move, hx, hq]

theorem wake (h : SemOk P s v) (p : ℕ) (t : Tid) : SemOk P s (v.wake p t) := by
  refine h.move ?_
  simp only [View.awake]
  split <;> simp

theorem park (h : SemOk P s v) {w : TNode} {k : After} (hw : w = .semWait s → v.stock s = 0) :
    SemOk P s (v.park t w k) := by
  refine SemOk.emit (v := v.move t _) ?_ rfl
  by_cases hws : w = .semWait s
  · have hzero := hw hws
    exact ⟨h.started, h.bound, h.exact_of, fun hpos => absurd hzero (Nat.ne_of_gt hpos),
      h.returns⟩
  · exact h.move (by simpa using hws)

/-- Another semaphore changes. -/
theorem setSem_of_ne (h : SemOk P s v) {s' : ℕ} (hne : s' ≠ s) (x : Sem) :
    SemOk P s (v.setSem s' x) := by
  have hsem : (v.setSem s' x).sem s = v.sem s := by simp [View.setSem, Ne.symm hne]
  have hstock : (v.setSem s' x).stock s = v.stock s := by simp only [View.stock, hsem]
  refine ⟨?_, ?_, ?_, ?_, h.returns⟩
  · rw [hsem]
    exact h.started
  · rw [hstock]
    exact h.bound
  · rw [hstock]
    exact h.exact_of
  · rw [hstock]
    exact h.idle

theorem stock_eq {x : Sem} (hx : v.sem s = some x) : v.stock s = x.value.toNat := by
  simp [View.stock, hx]

theorem stock_setSem (x : Sem) : (v.setSem s x).stock s = x.value.toNat :=
  stock_eq (by simp [View.setSem])

/-! ## Entries of the ledger -/

theorem init (h : SemOk P s v) (hs : v.sem s = none) (hq : v.queue (.semWait s) = [])
    (value : BitVec 32) :
    SemOk P s ((v.setSem s ⟨value.setWidth 16⟩).emit (.semInit s value)) := by
  have hnone : ∀ value, .semInit s value ∉ v.trace := fun value hv => (h.started value hv).2 hs
  have hzero : initial s v.trace = 0 := initial_eq_zero hnone
  have hold : v.stock s = 0 := by simp [View.stock, hs]
  have hstock : ((v.setSem s ⟨value.setWidth 16⟩).emit (.semInit s value)).stock s =
      (value.setWidth 16).toNat := stock_setSem _
  have htr : ((v.setSem s ⟨value.setWidth 16⟩).emit (.semInit s value)).trace =
      .semInit s value :: v.trace := rfl
  refine ⟨fun value' hv => ?_, ?_, fun hP => ?_, fun _ => hq, h.returns⟩
  · rw [htr] at hv ⊢
    rcases List.mem_cons.mp hv with hv | hv
    · cases hv
      simp [initial, hzero, View.emit, View.setSem]
    · exact absurd hv (hnone value')
  · have := h.bound
    rw [hstock, htr]
    simp only [initial, released, drawn, if_true]
    omega
  · have := h.exact_of hP
    rw [hstock, htr]
    simp only [initial, released, drawn, if_true]
    omega

theorem take (h : SemOk P s v) {x : Sem} (hx : v.sem s = some x) (hpos : 0 < x.value)
    (c : Option Tid) (time : BitVec 32) :
    SemOk P s (((v.setSem s ⟨x.value - 1⟩).emit (.semTaken s)).emit
      (.semTakeRet s c time RT_EOK)) := by
  have hstock := stock_eq hx
  have hpos' : 0 < x.value.toNat := by simpa [BitVec.lt_def] using hpos
  have hsub : (x.value - 1).toNat = x.value.toNat - 1 := by
    have := x.value.isLt
    simp only [BitVec.toNat_sub, BitVec.ofNat_eq_ofNat, BitVec.toNat_ofNat]
    omega
  have hnew : (((v.setSem s ⟨x.value - 1⟩).emit (.semTaken s)).emit
      (.semTakeRet s c time RT_EOK)).stock s = x.value.toNat - 1 :=
    (stock_setSem _).trans hsub
  refine ⟨fun value hv => ?_, ?_, fun hP => ?_, fun _ => h.idle (by omega), ?_⟩
  · have hmem : .semInit s value ∈ v.trace := by simpa [View.emit, View.setSem] using hv
    exact ⟨(h.started value hmem).1, by simp [View.emit, View.setSem]⟩
  · have := h.bound
    rw [hnew]
    simp only [View.emit, View.setSem, initial, released, drawn, if_true]
    omega
  · have := h.exact_of hP
    rw [hnew]
    simp only [View.emit, View.setSem, initial, released, drawn, if_true]
    omega
  · have := h.returns
    simp only [View.emit, View.setSem, succeeded, woken, drawn, if_true, and_self]
    omega

theorem up (h : SemOk P s v) {x : Sem} (hx : v.sem s = some x)
    (hroom : P → x.value ≠ 65535) (hq : v.queue (.semWait s) = []) :
    SemOk P s ((v.setSem s ⟨x.value + 1⟩).emit (.semReleased s)) := by
  have hstock := stock_eq hx
  have hnew : ((v.setSem s ⟨x.value + 1⟩).emit (.semReleased s)).stock s =
      (x.value + 1).toNat := stock_setSem _
  have hadd : (x.value + 1).toNat = (x.value.toNat + 1) % 65536 := by
    simp [BitVec.toNat_add]
  refine ⟨fun value hv => ?_, ?_, fun hP => ?_, fun _ => hq, h.returns⟩
  · have hmem : .semInit s value ∈ v.trace := by simpa [View.emit, View.setSem] using hv
    exact ⟨(h.started value hmem).1, by simp [View.emit, View.setSem]⟩
  · have := h.bound
    rw [hnew, hadd]
    simp only [View.emit, View.setSem, initial, released, drawn, if_true]
    omega
  · have := h.exact_of hP
    have hlt : x.value.toNat ≠ 65535 := by
      intro he
      exact hroom hP (BitVec.eq_of_toNat_eq (by simpa using he))
    have := x.value.isLt
    rw [hnew, hadd]
    simp only [View.emit, View.setSem, initial, released, drawn, if_true]
    omega

theorem hand (h : SemOk P s v) (u : Tid) (p : ℕ) :
    SemOk P s (((v.emit (.semReleased s)).emit (.woke (.semWait s) u)).wake p u) := by
  refine SemOk.wake ?_ p u
  refine ⟨fun value hv => ?_, ?_, fun hP => ?_, h.idle, ?_⟩
  · exact h.started value (by simpa [View.emit] using hv)
  · have := h.bound
    change v.stock s + _ ≤ _
    simp only [View.emit, initial, released, drawn, if_true]
    omega
  · have := h.exact_of hP
    change v.stock s + _ = _
    simp only [View.emit, initial, released, drawn, if_true]
    omega
  · have := h.returns
    simp only [View.emit, succeeded, woken, drawn, if_true, List.length_append,
      List.length_singleton]
    omega

/-- A take that has waited returns: `RT_EOK` if it was handed a unit. -/
theorem giveBack (h : SemOk P s v) {time : BitVec 32} {r : ℤ}
    (hr : t ∈ woken (.semWait s) v.trace ↔ r = RT_EOK) :
    SemOk P s ((v.rerun t (.semWait s)).emit (.semTakeRet s (some t) time r)) := by
  refine ⟨fun value hv => ?_, ?_, ?_, h.idle, ?_⟩
  · exact h.started value (by simpa [View.rerun, View.emit, View.setFrame, View.set] using hv)
  · exact h.bound
  · exact h.exact_of
  · have hret := h.returns
    simp only [View.emit, View.rerun, View.setFrame, View.set, succeeded, woken, drawn, if_true,
      true_and, List.length_erase]
    by_cases hmem : t ∈ woken (.semWait s) v.trace
    · have := List.length_pos_of_mem hmem
      rw [if_pos (hr.mp hmem), if_pos hmem]
      omega
    · rw [if_neg fun he => hmem (hr.mpr he), if_neg hmem]
      exact hret

/-! ## Every move keeps the ledger -/

theorem concerns_of_prompt {o : Obs} (ho : o.prompt = true) : o.concerns s = false := by
  cases o <;> first | rfl | cases ho

theorem concerns_of_serves {m : ℕ} {x x' : Mailbox} {k : After} {o : Obs} {w : TNode}
    (hk : View.Serves m x k x' o w) :
    o.concerns s = false ∧ ∀ u, (Obs.woke w u).concerns s = false := by
  cases hk <;> exact ⟨rfl, fun _ => rfl⟩

theorem isLoop_of_stuck {m : ℕ} {x : Mailbox} {k : After} (hk : View.Stuck m x k) :
    k.isLoop = true := by
  cases k <;> simp_all [View.Stuck, After.isLoop]

theorem isLoop_of_turn {k : After} (hT : View.Turn t k v v') : k.isLoop = true := by
  cases hT with
  | giveUp hx hk ho => exact isLoop_of_stuck hk
  | park hx hk hk' hw hrun => exact isLoop_of_stuck hk
  | pass hx hk hq hr => exact Granted.isLoop_of_serves hk
  | passWake hx hk hq hu hs hr => exact Granted.isLoop_of_serves hk

theorem head_of_isLoop {k : After} {w : TNode} (hk : k.isLoop = true) (hw : k.head = some w) :
    w ≠ .semWait s ∧ (Obs.ranAgain w t).concerns s = false := by
  cases k <;> simp_all [After.isLoop, After.head] <;> subst hw <;> simp [Obs.concerns]

theorem retObs_of_isLoop {k : After} {r : ℤ} {o : Obs} (hk : k.isLoop = true)
    (ho : k.retObs t r = some o) : o.concerns s = false := by
  cases k <;> simp_all [After.isLoop, After.retObs] <;> subst ho <;> simp [Obs.concerns]

theorem turn (h : SemOk P s v) {k : After} (hT : View.Turn t k v v') : SemOk P s v' := by
  have hloop := isLoop_of_turn hT
  cases hT with
  | giveUp hx hk ho => exact (h.set _ _).emit (retObs_of_isLoop hloop ho)
  | park hx hk hk' hw hrun =>
      exact h.park fun he => absurd he (head_of_isLoop (t := t) hloop hw).1
  | pass hx hk hq hr =>
      exact ((h.setMb _ _).emit (concerns_of_serves hk).1).emit (retObs_of_isLoop hloop hr)
  | passWake hx hk hq hu hs hr =>
      obtain ⟨hsent, hwoke⟩ := concerns_of_serves (s := s) hk
      exact ((((h.setMb _ _).emit hsent).emit (hwoke _)).wake _ _).set _ _

theorem step {Q N : Prop} {M : ℕ → Prop} {e : Event} (hM : P → M s) (hp : Placed v)
    (hg : Granted v) (h : SemOk P s v) (hs : View.Step Q N M e v v') : SemOk P s v' := by
  cases hs with
  | create ht hcur hlive hq | dispatch hc ht hs hh => exact h.congr rfl rfl fun hq => hq
  | leave hc hne hd hs hh hf => exact h.congr rfl rfl fun hq => hq
  | stay hc hrun hf => exact h.set _ _
  | suspend he ht hs hsleep hf => exact h.move (by simp)
  | sleep hc hs hf => exact h.move (by simp)
  | enter hc hf => exact h.set _ _
  | close ht hself hkill => exact h.move (by simp)
  | @clean t _ hh hc =>
      refine h.congr rfl rfl fun hq => ?_
      simp [View.clean, View.move, hq]
  | resume ht hs hsleep => exact h.wake _ _
  | @expire t p _ ht harm hs =>
      refine SemOk.emit (h.move ?_) rfl
      simp only [View.awake]
      split <;> simp
  | @semInit s' value _ hs hq =>
      by_cases hss : s' = s
      · subst hss
        exact h.init hs hq value
      · exact (h.setSem_of_ne hss _).emit (by simp [Obs.concerns, hss])
  | mbInit hm hq hq' => exact h.setMb _ _
  | @semTaken s' x c time _ hx hpos =>
      by_cases hss : s' = s
      · subst hss
        exact h.take hx hpos c time
      · exact ((h.setSem_of_ne hss _).emit (by simp [Obs.concerns, hss])).emit
          (by simp [Obs.concerns, hss])
  | semRefused => exact h.emit (by simp [Obs.concerns, RT_ETIMEOUT, RT_EOK])
  | report ho => exact h.emit (concerns_of_prompt ho)
  | @semPark s' x time t _ hx hzero hc hrun hf =>
      refine h.park fun he => ?_
      obtain rfl : s' = s := by simpa using he
      rw [stock_eq hx]
      simpa [BitVec.lt_def] using hzero
  | @semUp s' x _ hx hroom hq =>
      by_cases hss : s' = s
      · subst hss
        exact h.up hx (fun hP => hroom (hM hP)) hq
      · exact (h.setSem_of_ne hss _).emit (by simp [Obs.concerns, hss])
  | @semHand s' x u us p _ hx hq hu hs =>
      by_cases hss : s' = s
      · subst hss
        exact h.hand u p
      · exact ((h.emit (by simp [Obs.concerns, hss])).emit (by simp [Obs.concerns, hss])).wake p u
  | post hx hk hq => exact (h.setMb _ _).emit (concerns_of_serves hk).1
  | postWake hx hk hq hu hs =>
      obtain ⟨hsent, hwoke⟩ := concerns_of_serves (s := s) hk
      exact (((h.setMb _ _).emit hsent).emit (hwoke _)).wake _ _
  | turn hc hf hT => exact h.turn hT
  | rerunTurn hc hf hw hw' hk herr hT =>
      exact SemOk.turn (SemOk.emit (h.set _ _) (head_of_isLoop hk hw).2) hT
  | @rerunRet t k w o _ hc hf hw ho herr =>
      by_cases hk : k.isLoop = true
      · exact SemOk.emit (SemOk.emit (h.set _ _) (head_of_isLoop hk hw).2)
          (retObs_of_isLoop hk ho)
      · cases k with
        | semTake s' time =>
            obtain rfl := Option.some.inj hw
            obtain rfl := Option.some.inj ho
            by_cases hss : s' = s
            · subst hss
              exact h.giveBack (hg.mem_woken_iff hp hc hf rfl)
            · exact SemOk.emit (SemOk.emit (h.set _ _) (by simp [Obs.concerns, hss]))
                (by simp [Obs.concerns, hss])
        | ret r => cases hw
        | mbSend m value orig timeout tickDelta => simp [After.isLoop] at hk
        | mbRecv m orig timeout tickDelta => simp [After.isLoop] at hk
  | @returned t r _ hc hf =>
      cases r with
      | none => exact h.set _ _
      | some o =>
          refine SemOk.emit (h.set _ _) (concerns_of_prompt ((hg.thread t).stored o ?_))
          rw [hf]
          rfl

end SemOk

theorem semOk_threadInit (P : Prop) (s : ℕ) (tick : BitVec 32) :
    SemOk P s (view (threadInit tick) Rings.empty) where
  started value hv := by simp [view, threadInit] at hv
  bound := by simp [view, threadInit, View.stock, drawn]
  exact_of _ := by simp [view, threadInit, View.stock, drawn, initial, released]
  idle hpos := by simp [view, threadInit, View.stock] at hpos
  returns := rfl

end LuojiOs
