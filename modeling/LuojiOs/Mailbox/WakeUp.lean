import LuojiOs.Mailbox.Ring
import LuojiOs.Waiting.Queues

/-!
# No wake-up of a mailbox is lost

While a receiver waits, every message in the ring is matched by a receiver that a
send has woken and that has not yet run; while a sender waits, every free place is
matched by a woken sender.  A woken thread tests the ring again when it runs: it is no
longer counted from then on, and the test either serves it, which uses up the message
it was counted for, or finds nothing left.
-/

namespace LuojiOs

open CircularList

/-- The counts of the mailbox `m`, with `a` receivers and `b` senders that have run
again and not yet made their test. -/
structure WakeOk (a b m : ℕ) (v : View) : Prop where
  entry_le : ∀ x, v.mb m = some x → x.entry.toNat ≤ x.size.toNat
  recv : ∀ x, v.mb m = some x → v.queue (.mbRecv m) ≠ [] →
    x.entry.toNat ≤ (woken (.mbRecv m) v.trace).length + a
  send : ∀ x, v.mb m = some x → v.queue (.mbSend m) ≠ [] →
    x.size.toNat - x.entry.toNat ≤ (woken (.mbSend m) v.trace).length + b

/-- Only a call on `m` may be counted twice, and once on its own side. -/
structure Slack (a b m : ℕ) (k : After) : Prop where
  recv : a ≤ 1 ∧ (0 < a → k.head = some (.mbRecv m))
  send : b ≤ 1 ∧ (0 < b → k.head = some (.mbSend m))

theorem Slack.zero (m : ℕ) (k : After) : Slack 0 0 m k :=
  ⟨by simp, by simp⟩

theorem Slack.recv_eq_zero {a b m : ℕ} {k : After} (h : Slack a b m k)
    (hk : k.head ≠ some (.mbRecv m)) : a = 0 := by
  by_contra hpos
  exact hk (h.recv.2 (Nat.pos_of_ne_zero hpos))

theorem Slack.send_eq_zero {a b m : ℕ} {k : After} (h : Slack a b m k)
    (hk : k.head ≠ some (.mbSend m)) : b = 0 := by
  by_contra hpos
  exact hk (h.send.2 (Nat.pos_of_ne_zero hpos))

namespace WakeOk

variable {a b m : ℕ} {v v' : View} {t : Tid}

/-- The lists get no longer and nobody runs again. -/
theorem mono (h : WakeOk a b m v) (hmb : v'.mb m = v.mb m)
    (hr : v'.queue (.mbRecv m) ≠ [] → v.queue (.mbRecv m) ≠ [])
    (hs : v'.queue (.mbSend m) ≠ [] → v.queue (.mbSend m) ≠ [])
    (hwoken : ∀ w, w = .mbRecv m ∨ w = .mbSend m →
      (woken w v.trace).length ≤ (woken w v'.trace).length) : WakeOk a b m v' where
  entry_le := by
    rw [hmb]
    exact h.entry_le
  recv x hx hq := by
    have := h.recv x (by rwa [hmb] at hx) (hr hq)
    have := hwoken (.mbRecv m) (Or.inl rfl)
    omega
  send x hx hq := by
    have := h.send x (by rwa [hmb] at hx) (hs hq)
    have := hwoken (.mbSend m) (Or.inr rfl)
    omega

theorem emit (h : WakeOk a b m v) {o : Obs} (ho : ∀ w u, o ≠ .ranAgain w u) :
    WakeOk a b m (v.emit o) := by
  refine h.mono rfl (fun hq => hq) (fun hq => hq) fun w _ => ?_
  cases o with
  | woke w' u =>
      simp only [View.emit, woken]
      split
      · rw [List.length_append]
        exact Nat.le_add_right _ _
      · exact Nat.le_refl _
  | ranAgain w' u => exact absurd rfl (ho w' u)
  | _ => exact Nat.le_refl _

theorem emit_report (h : WakeOk a b m v) {o : Obs} (ho : o.isReport = true) :
    WakeOk a b m (v.emit o) :=
  h.emit fun w u he => by simp [he, Obs.isReport] at ho

theorem set (h : WakeOk a b m v) (t : Tid) (x : ThreadView) : WakeOk a b m (v.set t x) :=
  h.mono rfl (fun hq => hq) (fun hq => hq) fun _ _ => Nat.le_refl _

theorem setSem (h : WakeOk a b m v) (s : ℕ) (x : Sem) : WakeOk a b m (v.setSem s x) :=
  h.mono rfl (fun hq => hq) (fun hq => hq) fun _ _ => Nat.le_refl _

theorem ne_nil_of_erase {l : List Tid} (h : l.erase t ≠ []) : l ≠ [] := by
  rintro rfl
  exact h rfl

/-- The thread `t` goes to a list other than those of `m`. -/
theorem move (h : WakeOk a b m v) {x : ThreadView} (hr : x.home ≠ some (.mbRecv m))
    (hs : x.home ≠ some (.mbSend m)) : WakeOk a b m (v.move t x) := by
  refine h.mono rfl (fun hq => ?_) (fun hq => ?_) fun _ _ => Nat.le_refl _
  · simp only [View.move, hr, false_and, if_false] at hq
    exact ne_nil_of_erase hq
  · simp only [View.move, hs, false_and, if_false] at hq
    exact ne_nil_of_erase hq

theorem wake (h : WakeOk a b m v) (p : ℕ) (t : Tid) : WakeOk a b m (v.wake p t) :=
  h.move (Queued.awake_home p t _ rfl) (Queued.awake_home p t _ rfl)

/-- A thread that finds nothing for itself on `m` is linked. -/
theorem park (h : WakeOk a b m v) {w : TNode} {k : After}
    (hr : ∀ x, v.mb m = some x → w = .mbRecv m → x.entry.toNat = 0)
    (hs : ∀ x, v.mb m = some x → w = .mbSend m → x.entry.toNat = x.size.toNat) :
    WakeOk a b m (v.park t w k) := by
  refine WakeOk.emit (v := v.move t _) ⟨h.entry_le, fun x hx hq => ?_, fun x hx hq => ?_⟩ (by simp)
  · by_cases hw : w = .mbRecv m
    · have := hr x hx hw
      omega
    · refine h.recv x hx ?_
      simp only [View.move, Option.some.injEq, hw, false_and, if_false] at hq
      exact ne_nil_of_erase hq
  · by_cases hw : w = .mbSend m
    · have := hs x hx hw
      omega
    · refine h.send x hx ?_
      simp only [View.move, Option.some.injEq, hw, false_and, if_false] at hq
      exact ne_nil_of_erase hq

/-- A thread that has waited runs again. -/
theorem rerun (h : WakeOk 0 0 m v) {k : After} {w : TNode} (hw : k.head = some w) :
    ∃ a b, WakeOk a b m (v.rerun t w) ∧ Slack a b m k := by
  have hlen : ∀ l : List Tid, l.length ≤ (l.erase t).length + 1 := fun l => by
    rw [List.length_erase]
    split <;> omega
  refine ⟨if w = .mbRecv m then 1 else 0, if w = .mbSend m then 1 else 0,
    ⟨h.entry_le, fun x hx hq => ?_, fun x hx hq => ?_⟩, ⟨?_, ?_⟩⟩
  · have hold := h.recv x hx hq
    change _ ≤ (woken (.mbRecv m) (.ranAgain w t :: v.trace)).length + _
    simp only [woken]
    split
    · have := hlen (woken (.mbRecv m) v.trace)
      omega
    · exact hold
  · have hold := h.send x hx hq
    change _ ≤ (woken (.mbSend m) (.ranAgain w t :: v.trace)).length + _
    simp only [woken]
    split
    · have := hlen (woken (.mbSend m) v.trace)
      omega
    · exact hold
  · split
    · next he => exact ⟨Nat.le_refl 1, fun _ => by rw [hw, he]⟩
    · simp
  · split
    · next he => exact ⟨Nat.le_refl 1, fun _ => by rw [hw, he]⟩
    · simp

/-- The ring of `m` has served a call, and a thread was woken if one was waiting for
what the call left behind. -/
theorem served (h : WakeOk a b m v) {k : After} {x x' : Mailbox} {o : Obs} {w : TNode}
    (hsl : Slack a b m k) (hx : v.mb m = some x) (hk : View.Serves m x k x' o w)
    (hmb : v'.mb m = some x') (hq : v'.queue = v.queue)
    (hmono : ∀ w', (woken w' v.trace).length ≤ (woken w' v'.trace).length)
    (hwoke : v.queue w ≠ [] → (woken w v.trace).length + 1 ≤ (woken w v'.trace).length) :
    WakeOk 0 0 m v' := by
  have hle := h.entry_le x hx
  cases hk with
  | @put value orig timeout tickDelta hne =>
      obtain ⟨hroom, hentry⟩ := Mailbox.entry_put hle hne value
      have hsize : (x.put value).size = x.size := rfl
      have ha : a = 0 := hsl.recv_eq_zero (by simp [After.head])
      refine ⟨fun y hy => ?_, fun y hy hne' => ?_, fun y hy hne' => ?_⟩
      · obtain rfl : x.put value = y := by simpa [hmb] using hy
        rw [hsize]
        omega
      · obtain rfl : x.put value = y := by simpa [hmb] using hy
        rw [hq] at hne'
        have := h.recv x hx hne'
        have := hwoke hne'
        omega
      · obtain rfl : x.put value = y := by simpa [hmb] using hy
        rw [hq] at hne'
        have := h.send x hx hne'
        have := hmono (.mbSend m)
        have := hsl.send.1
        rw [hsize]
        omega
  | @take orig timeout tickDelta hne =>
      have hentry := Mailbox.entry_take hne
      have hsize : x.take.size = x.size := rfl
      have hb : b = 0 := hsl.send_eq_zero (by simp [After.head])
      refine ⟨fun y hy => ?_, fun y hy hne' => ?_, fun y hy hne' => ?_⟩
      · obtain rfl : x.take = y := by simpa [hmb] using hy
        rw [hsize]
        omega
      · obtain rfl : x.take = y := by simpa [hmb] using hy
        rw [hq] at hne'
        have := h.recv x hx hne'
        have := hmono (.mbRecv m)
        have := hsl.recv.1
        omega
      · obtain rfl : x.take = y := by simpa [hmb] using hy
        rw [hq] at hne'
        have := h.send x hx hne'
        have := hwoke hne'
        rw [hsize]
        omega

/-- A call on another mailbox leaves no slack. -/
theorem of_ne (h : WakeOk a b m v) {k : After} {n : ℕ} (hsl : Slack a b m k) (hne : n ≠ m)
    (hk : k.head = some (.mbSend n) ∨ k.head = some (.mbRecv n)) : WakeOk 0 0 m v := by
  obtain rfl := hsl.recv_eq_zero (by rcases hk with hk | hk <;> simp [hk, hne])
  obtain rfl := hsl.send_eq_zero (by rcases hk with hk | hk <;> simp [hk, hne])
  exact h

theorem head_of_serves {n : ℕ} {x x' : Mailbox} {k : After} {o : Obs} {w : TNode}
    (hk : View.Serves n x k x' o w) :
    k.head = some (.mbSend n) ∨ k.head = some (.mbRecv n) := by
  cases hk
  · exact Or.inl rfl
  · exact Or.inr rfl

theorem setMb_of_ne (h : WakeOk a b m v) {n : ℕ} (hne : n ≠ m) (x : Mailbox) :
    WakeOk a b m (v.setMb n x) :=
  h.mono (by simp [View.setMb, Ne.symm hne]) (fun hq => hq) (fun hq => hq)
    fun _ _ => Nat.le_refl _

/-- A call that the ring cannot serve leaves no slack: nothing is left to count. -/
theorem of_stuck (h : WakeOk a b m v) {n : ℕ} {k : After} {x : Mailbox}
    (hsl : Slack a b m k) (hx : v.mb n = some x) (hk : View.Stuck n x k) :
    WakeOk 0 0 m v := by
  by_cases hne : n = m
  · subst hne
    cases k with
    | ret r => exact hk.elim
    | semTake s time => exact hk.elim
    | mbSend n' value orig timeout tickDelta =>
        have ha : a = 0 := hsl.recv_eq_zero (by simp [After.head])
        refine ⟨h.entry_le, ha ▸ h.recv, fun y hy _ => ?_⟩
        obtain rfl : x = y := by simpa [hx] using hy
        have := congrArg BitVec.toNat hk.2
        omega
    | mbRecv n' orig timeout tickDelta =>
        have hb : b = 0 := hsl.send_eq_zero (by simp [After.head])
        refine ⟨h.entry_le, fun y hy _ => ?_, hb ▸ h.send⟩
        obtain rfl : x = y := by simpa [hx] using hy
        rw [hk.2]
        exact Nat.zero_le _
  · refine h.of_ne hsl hne ?_
    cases k <;> simp_all [View.Stuck, After.head]

theorem serve (h : WakeOk a b m v) {n : ℕ} {k : After} {x x' : Mailbox} {o : Obs} {w : TNode}
    (hsl : Slack a b m k) (hx : v.mb n = some x) (hk : View.Serves n x k x' o w)
    (hq : v.queue w = []) : WakeOk 0 0 m ((v.setMb n x').emit o) := by
  have hreport := isReport_of_serves hk
  by_cases hne : n = m
  · subst hne
    refine h.served hsl hx hk (by simp [View.emit, View.setMb]) rfl (fun w' => ?_)
      fun hne' => absurd hq hne'
    exact Nat.le_of_eq (congrArg List.length (woken_report hreport w' v.trace).symm)
  · exact ((h.of_ne hsl hne (head_of_serves hk)).setMb_of_ne hne x').emit_report hreport

theorem serveWake (h : WakeOk a b m v) {n : ℕ} {k : After} {x x' : Mailbox} {o : Obs}
    {w : TNode} (hsl : Slack a b m k) (hx : v.mb n = some x)
    (hk : View.Serves n x k x' o w) (p : ℕ) (u : Tid) :
    WakeOk 0 0 m ((((v.setMb n x').emit o).emit (.woke w u)).wake p u) := by
  have hreport := isReport_of_serves hk
  refine WakeOk.wake ?_ p u
  by_cases hne : n = m
  · subst hne
    have hlen : ∀ w', (woken w' (.woke w u :: o :: v.trace)).length =
        (woken w' v.trace).length + if w = w' then 1 else 0 := by
      intro w'
      simp only [woken]
      split
      · rw [List.length_append, woken_report hreport]
        rfl
      · rw [woken_report hreport]
        rfl
    refine h.served hsl hx hk (by simp [View.emit, View.setMb]) rfl (fun w' => ?_) fun _ => ?_
    · change _ ≤ (woken w' (.woke w u :: o :: v.trace)).length
      rw [hlen]
      exact Nat.le_add_right _ _
    · change _ ≤ (woken w (.woke w u :: o :: v.trace)).length
      exact Nat.le_of_eq (by rw [hlen, if_pos rfl])
  · exact (((h.of_ne hsl hne (head_of_serves hk)).setMb_of_ne hne x').emit_report hreport).emit
      (by simp)

/-! ## Every move keeps the counts -/

theorem turn (h : WakeOk a b m v) {k : After} (hsl : Slack a b m k)
    (hT : View.Turn t k v v') : WakeOk 0 0 m v' := by
  cases hT with
  | @giveUp n x _ r err o _ hx hk ho =>
      refine WakeOk.emit_report (WakeOk.set ?_ _ _) (isReport_of_retObs ho)
      exact h.of_stuck hsl hx hk
  | @park n x _ k' w _ hx hk hk' hw hrun =>
      have hstuck := h.of_stuck hsl hx hk
      refine hstuck.park (fun y hy he => ?_) fun y hy he => ?_
      · subst he
        cases k <;> simp_all [After.head, View.Stuck]
      · subst he
        cases k <;> simp_all [After.head, View.Stuck]
  | pass hx hk hq hr =>
      exact (h.serve hsl hx hk hq).emit_report (isReport_of_retObs hr)
  | passWake hx hk hq hu hs hr => exact (h.serveWake hsl hx hk _ _).set _ _

theorem step {Q N : Prop} {M : ℕ → Prop} {e : Event} (hg : Granted v)
    (h : WakeOk 0 0 m v) (hs : View.Step Q N M e v v') : WakeOk 0 0 m v' := by
  cases hs with
  | create ht hcur hlive hq | dispatch hc ht hs hh =>
      exact h.mono rfl (fun hq => hq) (fun hq => hq) fun _ _ => Nat.le_refl _
  | leave hc hne hd hs hh hf =>
      exact h.mono rfl (fun hq => hq) (fun hq => hq) fun _ _ => Nat.le_refl _
  | stay hc hrun hf | enter hc hf => exact h.set _ _
  | suspend he ht hs hsleep hf => exact h.move (by simp) (by simp)
  | sleep hc hs hf => exact h.move (by simp) (by simp)
  | close ht hself hkill => exact h.move (by simp) (by simp)
  | @clean t _ hh hc =>
      have hmove : WakeOk 0 0 m (v.move t { v.thr t with home := none }) :=
        h.move (by simp) (by simp)
      exact hmove.mono rfl (fun hq => hq) (fun hq => hq) fun _ _ => Nat.le_refl _
  | resume ht hs hsleep => exact h.wake _ _
  | @expire t p _ ht harm hs =>
      refine WakeOk.emit (h.move ?_ ?_) (by simp)
      · exact Queued.awake_home p t _ rfl
      · exact Queued.awake_home p t _ rfl
  | semInit hs hq => exact (h.setSem _ _).emit_report rfl
  | @mbInit n size _ hm hq hq' =>
      by_cases hne : n = m
      · subst hne
        refine ⟨fun x hx => ?_, fun x hx hne' => absurd hq hne', fun x hx hne' => absurd hq' hne'⟩
        obtain rfl : _ = x := by simpa [View.setMb] using hx
        exact Nat.zero_le _
      · exact h.setMb_of_ne hne _
  | semTaken hx hpos => exact ((h.setSem _ _).emit_report rfl).emit_report rfl
  | semRefused => exact h.emit_report rfl
  | report ho => exact h.emit_report (isReport_of_prompt ho)
  | semPark hx hzero hc hrun hf => exact h.park (by simp) (by simp)
  | semUp hx hroom hq => exact (h.setSem _ _).emit_report rfl
  | semHand hx hq hu hs =>
      exact ((h.emit_report (o := .semReleased _) rfl).emit (by simp)).wake _ _
  | post hx hk hq => exact h.serve (.zero m _) hx hk hq
  | postWake hx hk hq hu hs => exact h.serveWake (.zero m _) hx hk _ _
  | turn hc hf hT => exact h.turn (.zero m _) hT
  | @rerunTurn t k k' w _ _ hc hf hw hw' hk herr hT =>
      obtain ⟨a, b, h', hsl⟩ := h.rerun (t := t) hw'
      exact h'.turn hsl hT
  | @rerunRet t k w o _ hc hf hw ho herr =>
      refine WakeOk.emit_report ?_ (isReport_of_retObs ho)
      by_cases hk : k.isLoop = true
      · -- the wait has failed, so that the thread was not woken for its turn
        have hnot : t ∉ woken w v.trace := fun hm => herr hk ((hg.thread t).woken w hm).2.1
        refine h.mono rfl (fun hq => hq) (fun hq => hq) fun w' _ => ?_
        change _ ≤ (woken w' (.ranAgain w t :: v.trace)).length
        simp only [woken]
        split
        · next he =>
          exact Nat.le_of_eq (by rw [← he, List.erase_of_not_mem hnot])
        · exact Nat.le_refl _
      · obtain ⟨s, time, rfl⟩ : ∃ s time, k = .semTake s time := by
          cases k <;> simp_all [After.isLoop, After.head]
        obtain rfl := Option.some.inj hw
        refine h.mono rfl (fun hq => hq) (fun hq => hq) fun w' hw' => ?_
        have hne : TNode.semWait s ≠ w' := by
          rintro rfl
          simp at hw'
        change _ ≤ (woken w' (.ranAgain (.semWait s) t :: v.trace)).length
        exact Nat.le_of_eq (by rw [woken, if_neg hne])
  | @returned t r _ hc hf =>
      cases r with
      | none => exact h.set _ _
      | some o =>
          refine WakeOk.emit_report (h.set _ _) (isReport_of_prompt ((hg.thread t).stored o ?_))
          rw [hf]
          rfl

end WakeOk

/-! ## The woken threads are on their way -/

/-- A thread that was woken for its turn is ready or runs. -/
def OnWay (v : View) : Prop :=
  ∀ w, ∀ t ∈ woken w v.trace, (v.thr t).statu = .ready ∨ (v.thr t).statu = .running

namespace OnWay

variable {v v' : View} {t : Tid}

/-- One thread is replaced and nobody is woken. -/
theorem update (h : OnWay v) (hthr : ∀ u, u ≠ t → v'.thr u = v.thr u)
    (hsub : ∀ w, ∀ u ∈ woken w v'.trace, u ∈ woken w v.trace)
    (ht : ∀ w, t ∈ woken w v.trace →
      (v'.thr t).statu = .ready ∨ (v'.thr t).statu = .running) : OnWay v' := by
  intro w u hu
  have hu' := hsub w u hu
  by_cases hut : u = t
  · subst hut
    exact ht w hu'
  · rw [hthr u hut]
    exact h w u hu'

theorem set (h : OnWay v) {x : ThreadView}
    (hx : ∀ w, t ∈ woken w v.trace → x.statu = .ready ∨ x.statu = .running) :
    OnWay (v.set t x) :=
  h.update (t := t) (fun u hu => by simp [View.set, hu]) (fun _ _ hu => hu)
    (by simpa [View.set] using hx)

theorem move (h : OnWay v) {x : ThreadView}
    (hx : ∀ w, t ∈ woken w v.trace → x.statu = .ready ∨ x.statu = .running) :
    OnWay (v.move t x) :=
  h.update (t := t) (fun u hu => by simp [View.move, hu]) (fun _ _ hu => hu)
    (by simpa [View.move] using hx)

theorem emit (h : OnWay v) {o : Obs} (ho : ∀ w u, o ≠ .woke w u) : OnWay (v.emit o) := by
  intro w u hu
  refine h w u ?_
  cases o with
  | woke w' u' => exact absurd rfl (ho w' u')
  | ranAgain w' u' =>
      simp only [View.emit, woken] at hu
      split at hu
      · exact List.mem_of_mem_erase hu
      · exact hu
  | _ => exact hu

theorem emit_report (h : OnWay v) {o : Obs} (ho : o.isReport = true) : OnWay (v.emit o) :=
  h.emit fun w u he => by simp [he, Obs.isReport] at ho

theorem setSem (h : OnWay v) (s : ℕ) (x : Sem) : OnWay (v.setSem s x) := h

theorem setMb (h : OnWay v) (m : ℕ) (x : Mailbox) : OnWay (v.setMb m x) := h

theorem setFrame (h : OnWay v) (t : Tid) (f : Frame) : OnWay (v.setFrame t f) :=
  h.set fun w hw => h w t hw

theorem rerun (h : OnWay v) (t : Tid) (w : TNode) : OnWay (v.rerun t w) :=
  (h.setFrame t .run).emit (by simp)

/-- A thread in its own code has not been woken from a list. -/
theorem not_woken (hg : Granted v) (hf : (v.thr t).frame.head = none) (w : TNode) :
    t ∉ woken w v.trace :=
  (hg.thread t).not_on hf w

theorem awake_statu (v : View) (p : ℕ) (t : Tid) :
    (v.awake p t).statu = .ready ∨ (v.awake p t).statu = .running := by
  simp only [View.awake]
  split <;> simp

theorem hand (h : OnWay v) (w : TNode) (p : ℕ) (u : Tid) :
    OnWay ((v.emit (.woke w u)).wake p u) := by
  intro w' t ht
  by_cases htu : t = u
  · subst htu
    simpa [View.wake, View.move] using awake_statu (v.emit (.woke w t)) p t
  · have hmem : t ∈ woken w' v.trace := by
      change t ∈ woken w' (.woke w u :: v.trace) at ht
      simp only [woken] at ht
      split at ht
      · exact (List.mem_append.mp ht).resolve_right (by simpa using htu)
      · exact ht
    simpa [View.wake, View.move, View.emit, htu] using h w' t hmem

theorem turn (h : OnWay v) (hg : Granted v) {k : After} (hf : (v.thr t).frame.head = none)
    (hT : View.Turn t k v v') : OnWay v' := by
  have hnot := not_woken hg hf
  cases hT with
  | giveUp hx hk ho =>
      exact OnWay.emit_report (h.set fun w hw => absurd hw (hnot w)) (isReport_of_retObs ho)
  | park hx hk hk' hw hrun =>
      exact OnWay.emit (h.move fun w hw => absurd hw (hnot w)) (by simp)
  | pass hx hk hq hr =>
      exact ((h.setMb _ _).emit_report (isReport_of_serves hk)).emit_report (isReport_of_retObs hr)
  | @passWake m x x' k w o r u us p _ hx hk hq hu hs hr =>
      have hhand := ((h.setMb m x').emit_report (isReport_of_serves hk)).hand w p u
      exact hhand.set fun w' hw' => hhand w' t hw'

theorem step {Q N : Prop} {M : ℕ → Prop} {e : Event} (he : e.plain = true) (hg : Granted v)
    (h : OnWay v) (hs : View.Step Q N M e v v') : OnWay v' := by
  cases hs with
  | @create t p _ ht hcur hlive hq =>
      refine h.update (t := t) (fun u hu => ?_) (fun _ _ hu => hu) fun w hw => ?_
      · simp [View.create, View.set, hu]
      · exact Or.inl (by simp [View.create, View.set])
  | @dispatch t p _ hc ht hs hh =>
      refine h.update (t := t) (fun u hu => ?_) (fun _ _ hu => hu) fun w hw => ?_
      · simp [View.dispatch, View.set, hu]
      · exact Or.inr (by simp [View.dispatch, View.set])
  | @leave c d p q f _ hc hne hd hs hh hf =>
      have hleft : OnWay (v.set c (v.left c q f)) := by
        refine h.set fun w hw => ?_
        unfold View.left
        split
        · exact Or.inl rfl
        · exact h w c hw
      refine hleft.update (t := d) (fun u hu => ?_) (fun _ _ hu => hu) fun w hw => ?_
      · simp [View.switch, View.dispatch, View.set, hu]
      · exact Or.inr (by simp [View.switch, View.dispatch, View.set])
  | stay hc hrun hf => exact h.setFrame _ _
  | suspend hev ht hs hsleep hf =>
      subst hev
      simp [Event.plain] at he
  | sleep hc hs hf => exact h.move fun w hw => absurd hw (not_woken hg (head_of_free hf) w)
  | enter hc hf => exact h.setFrame _ _
  | @close t _ ht hself hkill =>
      by_cases hc : v.current = some t
      · have hhead : (v.thr t).frame.head = none := by rw [hself hc]; rfl
        exact h.move fun w hw => absurd hw (not_woken hg hhead w)
      · obtain ⟨id, rfl⟩ := hkill hc
        simp [Event.plain] at he
  | @clean t _ hh hc =>
      have hmove : OnWay (v.move t { v.thr t with home := none }) := h.move fun w hw => h w t hw
      exact hmove
  | @resume t p _ ht hs hsleep => exact h.move fun _ _ => awake_statu v p t
  | @expire t p _ ht harm hs =>
      refine OnWay.emit (h.move fun _ _ => ?_) (by simp)
      exact awake_statu v p t
  | semInit hs hq => exact (h.setSem _ _).emit_report rfl
  | mbInit hm hq hq' => exact h.setMb _ _
  | semTaken hx hpos => exact ((h.setSem _ _).emit_report rfl).emit_report rfl
  | semRefused => exact h.emit_report rfl
  | report ho => exact h.emit_report (isReport_of_prompt ho)
  | semPark hx hzero hc hrun hf =>
      exact OnWay.emit (h.move fun w hw => absurd hw (not_woken hg (head_of_free hf) w)) (by simp)
  | semUp hx hroom hq => exact (h.setSem _ _).emit_report rfl
  | semHand hx hq hu hs => exact (h.emit_report (o := .semReleased _) rfl).hand _ _ _
  | post hx hk hq => exact (h.setMb _ _).emit_report (isReport_of_serves hk)
  | postWake hx hk hq hu hs =>
      exact ((h.setMb _ _).emit_report (isReport_of_serves hk)).hand _ _ _
  | turn hc hf hT => exact h.turn hg (head_of_free hf) hT
  | @rerunTurn t k k' w _ _ hc hf hw hw' hk herr hT =>
      refine (h.rerun t w).turn (hg.rerun hf hw) ?_ hT
      simp [View.rerun, View.emit, View.setFrame, View.set, Frame.head]
  | rerunRet hc hf hw ho herr => exact (h.rerun _ _).emit_report (isReport_of_retObs ho)
  | @returned t r _ hc hf =>
      cases r with
      | none => exact h.setFrame t .run
      | some o =>
          refine (h.setFrame t .run).emit_report (isReport_of_prompt ((hg.thread t).stored o ?_))
          rw [hf]
          rfl

end OnWay

/-! ## The runs -/

/-- The mailbox `m` cannot serve a thread that sleeps on it, unless a thread is on its
way to take what is there. -/
structure NoLostWakeUp (m : ℕ) (x : Mailbox) (σ : Kernel) : Prop where
  recv : σ.tlinks.isEmpty (.mbRecv m) = false →
    x.entry.toNat ≤ (woken (.mbRecv m) σ.trace).length
  send : σ.tlinks.isEmpty (.mbSend m) = false →
    x.size.toNat - x.entry.toNat ≤ (woken (.mbSend m) σ.trace).length
  /-- the woken threads are different, ready or running, and still inside their call -/
  nodup : ∀ w, (woken w σ.trace).Nodup
  onWay : ∀ w, ∀ t ∈ woken w σ.trace, (σ.statu t = .ready ∨ σ.statu t = .running) ∧
    (σ.frame t).head = some w ∧ σ.error t = RT_EOK

theorem noLostWakeUp_of_reachable {σ : Kernel} {m : ℕ} {x : Mailbox}
    (h : Reachable (fun σ e => plainGuard σ e = true) σ) (hx : σ.mb m = some x) :
    NoLostWakeUp m x σ := by
  obtain ⟨R, hb, ho, hw, hway⟩ := Reachable.orderly (I := fun v => WakeOk 0 0 m v ∧ OnWay v)
    (fun _ _ hg => hg)
    (fun tick => ⟨⟨by simp [view, threadInit], by simp [view, threadInit],
      by simp [view, threadInit]⟩, by simp [OnWay, view, threadInit, woken]⟩)
    (fun σ e v v' hg hs ho hI => ⟨hI.1.step ho.granted hs,
      hI.2.step (guards_of_plainGuard hg).1 ho.granted hs⟩) h
  have hne : ∀ w : TNode, w.isWait = true → σ.tlinks.isEmpty w = false →
      (view σ R).queue w ≠ [] := by
    intro w hwait hem hnil
    have hpath := hb.links.path_queue hwait
    rw [hnil] at hpath
    have hnext : σ.tlinks.next w = w := hpath.1
    simp [Links.isEmpty, hnext] at hem
  refine ⟨fun hem => hw.recv x hx (hne _ rfl hem), fun hem => hw.send x hx (hne _ rfl hem),
    ho.granted.nodup, fun w t ht => ?_⟩
  obtain ⟨hhead, herr, -, -⟩ := (ho.granted.thread t).woken w ht
  exact ⟨hway w t ht, hhead, herr⟩

/-- The run up to the point where the sender waits for a place. -/
theorem noLostWakeUp_sendTwiceRun :
    ∃ σ x, checkedRun plainGuard 0 (sendTwiceRun.take 7) = some σ ∧ σ.mb 0 = some x ∧
      σ.tlinks.isEmpty (.mbSend 0) = false ∧ NoLostWakeUp 0 x σ := by
  obtain ⟨σ, hσ, hok⟩ := Runs.exists_of_any
    (show (checkedRun plainGuard 0 (sendTwiceRun.take 7)).any (fun σ =>
      (σ.mb 0).isSome ∧ σ.tlinks.isEmpty (.mbSend 0) = false) = true by decide)
  obtain ⟨hmb, hem⟩ := of_decide_eq_true hok
  obtain ⟨x, hx⟩ := Option.isSome_iff_exists.mp hmb
  exact ⟨σ, x, hσ, hx, hem, noLostWakeUp_of_reachable (reachable_of_checkedRun hσ) hx⟩

end LuojiOs
