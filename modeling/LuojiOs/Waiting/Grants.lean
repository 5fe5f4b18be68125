import LuojiOs.Waiting.Placement

/-!
# Who has been woken

The trace tells which threads wait on a list, in the order in which they came, and
which have been woken from it and have not yet run again.  A thread that has been
woken for its turn keeps the error code `RT_EOK` and has its timer stopped until
it runs, and a call that finds `RT_EOK` after its `rt_schedule()` has been woken
for its turn.
-/

namespace LuojiOs

open CircularList

/-! ## Reading the trace -/

/-- The threads that wait on `w`, the longest waiting one first. -/
def waiting (w : TNode) : List Obs → List Tid
  | [] => []
  | .blocked w' t :: tr => if w' = w then waiting w tr ++ [t] else waiting w tr
  | .woke w' t :: tr => if w' = w then (waiting w tr).erase t else waiting w tr
  | .expired t :: tr => (waiting w tr).erase t
  | _ :: tr => waiting w tr

/-- The threads that were woken from `w` for their turn and have not yet run. -/
def woken (w : TNode) : List Obs → List Tid
  | [] => []
  | .woke w' t :: tr => if w' = w then woken w tr ++ [t] else woken w tr
  | .ranAgain w' t :: tr => if w' = w then (woken w tr).erase t else woken w tr
  | _ :: tr => woken w tr

/-- Reports of calls and of what happens to an object. -/
def Obs.isReport : Obs → Bool
  | .blocked .. | .woke .. | .ranAgain .. | .expired _ => false
  | _ => true

theorem woken_report {o : Obs} (ho : o.isReport = true) (w : TNode) (tr : List Obs) :
    woken w (o :: tr) = woken w tr := by
  cases o <;> first | rfl | cases ho

theorem waiting_report {o : Obs} (ho : o.isReport = true) (w : TNode) (tr : List Obs) :
    waiting w (o :: tr) = waiting w tr := by
  cases o <;> first | rfl | cases ho

theorem isReport_of_prompt {o : Obs} (ho : o.prompt = true) : o.isReport = true := by
  cases o <;> first | rfl | cases ho

theorem isReport_of_retObs {k : After} {t : Tid} {r : ℤ} {o : Obs}
    (ho : k.retObs t r = some o) : o.isReport = true := by
  cases k <;> simp_all [After.retObs] <;> subst ho <;> rfl

theorem isReport_of_serves {m : ℕ} {x x' : Mailbox} {k : After} {o : Obs} {w : TNode}
    (h : View.Serves m x k x' o w) : o.isReport = true := by
  cases h <;> rfl

/-! ## The invariant -/

/-- What holds of one thread, with the lists from which it has been woken. -/
structure GrantOk (live : Prop) (on : TNode → Prop) (x : ThreadView) : Prop where
  /-- a woken thread has a clean error code and no running timer -/
  woken : ∀ w, on w → x.frame.head = some w ∧ x.error = RT_EOK ∧ x.armed = false ∧
    x.statu ≠ .suspend
  /-- a call with a clean error code that is off the list has been woken -/
  back : live → ∀ w, x.frame.head = some w → x.error = RT_EOK → x.statu ≠ .suspend →
    x.statu ≠ .close → on w
  stored : ∀ o, x.frame.stored = some o → o.prompt = true

structure Granted (v : View) : Prop where
  thread : ∀ t, GrantOk (t ∈ v.live) (fun w => t ∈ woken w v.trace) (v.thr t)
  nodup : ∀ w, (woken w v.trace).Nodup
  old : ∀ w, ∀ t ∈ woken w v.trace, t < v.next
  fresh : ∀ t ∈ v.live, t < v.next

section

variable {live : Prop} {on : TNode → Prop} {x : ThreadView}

/-- A thread that waits on no list. -/
theorem GrantOk.of_head_none (hf : x.frame.head = none) (hon : ∀ w, ¬on w)
    (hst : ∀ o, x.frame.stored = some o → o.prompt = true) : GrantOk live on x where
  woken w hw := absurd hw (hon w)
  back _ w hw := by simp [hf] at hw
  stored := hst

theorem GrantOk.not_on (h : GrantOk live on x) (hf : x.frame.head = none) (w : TNode) :
    ¬on w := by
  intro hw
  have := (h.woken w hw).1
  simp [hf] at this

theorem stored_of_free {f : Frame} (hf : f.free = true) : f.stored = none := by
  cases f <;> simp_all [Frame.free, Frame.stored]

/-- Another status and frame for a thread that keeps its place in its call. -/
theorem GrantOk.update (h : GrantOk live on x) {y : ThreadView}
    (hhead : y.frame.head = x.frame.head) (herr : y.error = x.error)
    (harm : y.armed = true → x.armed = true)
    (hsus : x.statu ≠ .suspend → y.statu ≠ .suspend)
    (hback : y.statu ≠ .suspend → y.statu ≠ .close → x.statu ≠ .suspend ∧ x.statu ≠ .close)
    (hst : y.frame.stored = x.frame.stored) : GrantOk live on y where
  woken w hw := by
    obtain ⟨hf, he, ha, hs⟩ := h.woken w hw
    refine ⟨hhead.trans hf, herr.trans he, ?_, hsus hs⟩
    cases hy : y.armed with
    | false => rfl
    | true => simp [harm hy] at ha
  back hl w hw he hs hc := by
    obtain ⟨hs', hc'⟩ := hback hs hc
    exact h.back hl w (hhead.symm.trans hw) (herr.symm.trans he) hs' hc'
  stored o ho := h.stored o (hst.symm.trans ho)

/-- A thread that waits on no list is replaced by one that waits on none or has just
been linked. -/
theorem GrantOk.of_free (h : GrantOk live on x) {y : ThreadView} (hf : x.frame.head = none)
    (hy : y.frame.head = none ∨ y.statu = .suspend)
    (hst : ∀ o, y.frame.stored = some o → o.prompt = true) : GrantOk live on y where
  woken w hw := absurd hw (h.not_on hf w)
  back _ w hw _ hs _ := by
    rcases hy with hy | hy
    · simp [hy] at hw
    · exact absurd hy hs
  stored := hst

end

namespace Granted

variable {v v' : View} {t : Tid}

/-- One thread is replaced and nobody is woken or runs again. -/
theorem update (h : Granted v) (hthr : ∀ u, u ≠ t → v'.thr u = v.thr u)
    (hlive : ∀ u, u ≠ t → u ∈ v'.live → u ∈ v.live) (hnext : v.next ≤ v'.next)
    (htr : ∀ w, woken w v'.trace = woken w v.trace)
    (ht : GrantOk (t ∈ v'.live) (fun w => t ∈ woken w v.trace) (v'.thr t))
    (hfresh : t ∈ v'.live → t < v'.next) : Granted v' where
  thread u := by
    simp only [htr]
    by_cases hu : u = t
    · subst hu
      exact ht
    · have hok := h.thread u
      rw [hthr u hu]
      exact ⟨hok.woken, fun hl => hok.back (hlive u hu hl), hok.stored⟩
  nodup w := by
    rw [htr]
    exact h.nodup w
  old w u hu := by
    rw [htr] at hu
    exact Nat.lt_of_lt_of_le (h.old w u hu) hnext
  fresh u hu := by
    by_cases hut : u = t
    · subst hut
      exact hfresh hu
    · exact Nat.lt_of_lt_of_le (h.fresh u (hlive u hut hu)) hnext

theorem congr (h : Granted v) (hthr : v'.thr = v.thr) (hlive : v'.live = v.live)
    (hnext : v'.next = v.next) (htr : ∀ w, woken w v'.trace = woken w v.trace) :
    Granted v' where
  thread u := by
    simp only [htr, hthr, hlive]
    exact h.thread u
  nodup w := by
    rw [htr]
    exact h.nodup w
  old w u hu := by
    rw [hnext]
    exact h.old w u (by rwa [htr] at hu)
  fresh := by
    rw [hlive, hnext]
    exact h.fresh

theorem emit (h : Granted v) {o : Obs} (ho : o.isReport = true) : Granted (v.emit o) :=
  h.congr rfl rfl rfl fun w => woken_report ho w v.trace

theorem setSem (h : Granted v) (s : ℕ) (x : Sem) : Granted (v.setSem s x) :=
  h.congr rfl rfl rfl fun _ => rfl

theorem setMb (h : Granted v) (m : ℕ) (x : Mailbox) : Granted (v.setMb m x) :=
  h.congr rfl rfl rfl fun _ => rfl

theorem set (h : Granted v) {x : ThreadView}
    (hx : GrantOk (t ∈ v.live) (fun w => t ∈ woken w v.trace) x) : Granted (v.set t x) := by
  refine h.update (t := t) (fun u hu => ?_) (fun _ _ hl => hl) (Nat.le_refl _)
    (fun _ => rfl) ?_ (h.fresh t)
  · simp [View.set, hu]
  · simpa [View.set] using hx

theorem move (h : Granted v) {x : ThreadView}
    (hx : GrantOk (t ∈ v.live) (fun w => t ∈ woken w v.trace) x) : Granted (v.move t x) := by
  refine h.update (t := t) (fun u hu => ?_) (fun _ _ hl => hl) (Nat.le_refl _)
    (fun _ => rfl) ?_ (h.fresh t)
  · simp [View.move, hu]
  · simpa [View.move] using hx

/-- The first thread `u` of a wait list is woken for its turn. -/
theorem hand (h : Granted v) (hp : Placed v) {w : TNode} {u : Tid} {us : List Tid}
    (hq : v.queue w = u :: us) (hu : u ∈ v.live) (hs : (v.thr u).statu = .suspend) (p : ℕ) :
    Granted ((v.emit (.woke w u)).wake p u) := by
  obtain ⟨⟨w', -, hhome, hhead⟩, herr⟩ := (hp.thread u hu).suspend hs
  obtain rfl : w = w' := by
    have hmem : u ∈ v.queue w := by simp [hq]
    rw [hp.mem_queue, hhome] at hmem
    simpa using hmem.2.symm
  have hnot : ∀ w', u ∉ woken w' v.trace := fun w' hw' => ((h.thread u).woken w' hw').2.2.2 hs
  have htr : ∀ w', woken w' ((v.emit (.woke w u)).wake p u).trace =
      if w = w' then woken w' v.trace ++ [u] else woken w' v.trace := fun _ => rfl
  refine ⟨fun t => ?_, fun w' => ?_, fun w' t ht => ?_, h.fresh⟩
  · by_cases htu : t = u
    · subst htu
      have hx : ((v.emit (.woke w t)).wake p t).thr t = (v.emit (.woke w t)).awake p t := by
        simp [View.wake, View.move]
      rw [hx]
      refine ⟨fun w' hw' => ?_, fun _ w' hw' _ _ _ => ?_, (h.thread t).stored⟩
      · rw [htr] at hw'
        split at hw'
        · next he =>
          subst he
          refine ⟨hhead, herr, rfl, ?_⟩
          simp only [View.awake]
          split <;> simp
        · exact absurd hw' (hnot w')
      · obtain rfl : w = w' := by
          have : (v.thr t).frame.head = some w' := hw'
          simpa [hhead] using this
        rw [htr, if_pos rfl]
        simp
    · have hx : ((v.emit (.woke w u)).wake p u).thr t = v.thr t := by
        simp [View.wake, View.move, View.emit, htu]
      have hon : ∀ w', t ∈ woken w' ((v.emit (.woke w u)).wake p u).trace ↔
          t ∈ woken w' v.trace := by
        intro w'
        rw [htr]
        split <;> simp [htu]
      rw [hx]
      have hok := h.thread t
      exact ⟨fun w' hw' => hok.woken w' ((hon w').mp hw'),
        fun hl w' h1 h2 h3 h4 => (hon w').mpr (hok.back hl w' h1 h2 h3 h4), hok.stored⟩
  · rw [htr]
    split
    · exact List.nodup_append.mpr ⟨h.nodup w', List.nodup_singleton u, fun a ha b hb hab => by
        obtain rfl := List.mem_singleton.mp hb
        exact hnot w' (hab ▸ ha)⟩
    · exact h.nodup w'
  · rw [htr] at ht
    split at ht
    · rcases List.mem_append.mp ht with ht | ht
      · exact h.old w' t ht
      · rw [List.mem_singleton.mp ht]
        exact h.fresh u hu
    · exact h.old w' t ht

/-- A thread that has waited on `w` runs again. -/
theorem rerun (h : Granted v) {w : TNode} {k : After} (hf : (v.thr t).frame = .after k)
    (hw : k.head = some w) : Granted (v.rerun t w) := by
  have hhead : (v.thr t).frame.head = some w := by rw [hf]; exact hw
  have htr : ∀ w', woken w' (v.rerun t w).trace =
      if w = w' then (woken w' v.trace).erase t else woken w' v.trace := fun _ => rfl
  have hnot : ∀ w', t ∉ woken w' (v.rerun t w).trace := by
    intro w' hm
    rw [htr] at hm
    split at hm
    · exact absurd rfl ((h.nodup w').mem_erase_iff.mp hm).1
    · next hne =>
      have := ((h.thread t).woken w' hm).1
      rw [hhead] at this
      exact hne (by simpa using this)
  refine ⟨fun u => ?_, fun w' => ?_, fun w' u hu => ?_, h.fresh⟩
  · by_cases hut : u = t
    · subst hut
      refine GrantOk.of_head_none ?_ hnot ?_
      · simp [View.rerun, View.emit, View.setFrame, View.set, Frame.head]
      · simp [View.rerun, View.emit, View.setFrame, View.set, Frame.stored]
    · have hx : (v.rerun t w).thr u = v.thr u := by
        simp [View.rerun, View.emit, View.setFrame, View.set, hut]
      have hon : ∀ w', u ∈ woken w' (v.rerun t w).trace ↔ u ∈ woken w' v.trace := by
        intro w'
        rw [htr]
        split
        · exact List.mem_erase_of_ne hut
        · rfl
      rw [hx]
      have hok := h.thread u
      exact ⟨fun w' hw' => hok.woken w' ((hon w').mp hw'),
        fun hl w' h1 h2 h3 h4 => (hon w').mpr (hok.back hl w' h1 h2 h3 h4), hok.stored⟩
  · rw [htr]
    split
    · exact (h.nodup w').erase t
    · exact h.nodup w'
  · rw [htr] at hu
    split at hu
    · exact h.old w' u (List.mem_of_mem_erase hu)
    · exact h.old w' u hu

/-- A call that returns from its wait has been woken for its turn exactly when its
error code is clean. -/
theorem mem_woken_iff (h : Granted v) (hp : Placed v) {w : TNode} {k : After}
    (hc : v.current = some t) (hf : (v.thr t).frame = .after k) (hw : k.head = some w) :
    t ∈ woken w v.trace ↔ (v.thr t).error = RT_EOK := by
  constructor
  · exact fun hm => ((h.thread t).woken w hm).2.1
  · intro herr
    have ht := hp.current_mem t hc
    have hrun := (hp.thread t ht).running_of_after hc hf
    refine (h.thread t).back ht w ?_ herr (by simp [hrun]) (by simp [hrun])
    rw [hf]
    exact hw

theorem park (h : Granted v) {w : TNode} {k : After} (hf : (v.thr t).frame.head = none)
    (hk : k.head = some w) : Granted (v.park t w k) := by
  refine Granted.congr (v := v.move t _) (h.move ?_) rfl rfl rfl fun _ => rfl
  exact (h.thread t).of_free hf (Or.inr rfl) (by simp [(stored_of_head hk).1])

theorem setFrame_of_free (h : Granted v) {f : Frame} (hf : (v.thr t).frame.head = none)
    (hf' : f.head = none) (hst : ∀ o, f.stored = some o → o.prompt = true) :
    Granted (v.setFrame t f) :=
  h.set ((h.thread t).of_free hf (Or.inl hf') hst)

theorem prompt_of_retObs {k : After} {r : Obs} (hk : k.isLoop = true)
    (hr : k.retObs t RT_EOK = some r) : r.prompt = true := by
  cases k <;> simp_all [After.isLoop, After.retObs] <;> subst hr <;>
    simp [Obs.prompt, RT_EOK, RT_ETIMEOUT]

theorem isLoop_of_serves {m : ℕ} {x x' : Mailbox} {k : After} {o : Obs} {w : TNode}
    (h : View.Serves m x k x' o w) : k.isLoop = true := by
  cases h <;> rfl

theorem turn (h : Granted v) (hp : Placed v) {k : After}
    (hf : (v.thr t).frame.head = none) (hst : (v.thr t).frame.stored = none)
    (hT : View.Turn t k v v') : Granted v' := by
  cases hT with
  | giveUp hx hk ho =>
      refine Granted.emit (h.set ?_) (isReport_of_retObs ho)
      exact (h.thread t).of_free hf (Or.inl hf) (by simp [hst])
  | park hx hk hk' hw hrun => exact h.park hf hk'
  | pass hx hk hq hr =>
      exact ((h.setMb _ _).emit (isReport_of_serves hk)).emit (isReport_of_retObs hr)
  | @passWake m x x' k w o r u us p _ hx hk hq hu hs hr =>
      have h₁ := (h.setMb m x').emit (isReport_of_serves hk)
      have hp₁ : Placed ((v.setMb m x').emit o) := (hp.setMb m x').emit o
      have h₂ := h₁.hand hp₁ hq hu hs p
      refine h₂.setFrame_of_free ?_ rfl (fun o' ho' => ?_)
      · by_cases htu : t = u
        · subst htu
          simpa [View.wake, View.move, View.awake, View.emit, View.setMb] using hf
        · simpa [View.wake, View.move, View.emit, View.setMb, htu] using hf
      · obtain rfl : r = o' := by simpa [Frame.stored] using ho'
        exact prompt_of_retObs (isLoop_of_serves hk) hr

theorem dispatch (h : Granted v) {d : Tid} (hs : (v.thr d).statu = .ready) :
    Granted (v.dispatch d) := by
  refine Granted.congr (v := v.set d _) (h.set ?_) rfl rfl rfl fun _ => rfl
  exact (h.thread d).update rfl rfl (fun ha => ha) (by simp) (by simp [hs]) rfl

theorem left (h : Granted v) {c : Tid} {q : ℕ} {f : Frame}
    (hhead : f.head = (v.thr c).frame.head) (hst : f.stored = (v.thr c).frame.stored) :
    Granted (v.set c (v.left c q f)) := by
  refine h.set ?_
  unfold View.left
  split
  · next hrun =>
    refine (h.thread c).update hhead rfl (fun ha => ha) (by simp) (fun _ _ => ?_) hst
    constructor <;> intro hs <;> simp [hs, Statu.runnable] at hrun
  · exact (h.thread c).update hhead rfl (fun ha => ha) (fun hs => hs) (fun h1 h2 => ⟨h1, h2⟩) hst

/-- The grants are kept by every move whose event meets the conditions. -/
theorem step {Q N : Prop} {M : ℕ → Prop} {e : Event} (hQ : Q) (hN : N) (hp : Placed v) (h : Granted v)
    (hs : View.Step Q N M e v v') : Granted v' := by
  cases hs with
  | @create t p _ ht hcur hlive hq =>
      refine h.update (t := t) (fun u hu => ?_) (fun u hu hl => ?_) ?_ (fun _ => rfl) ?_ ?_
      · simp [View.create, View.set, hu]
      · exact (List.mem_cons.mp hl).resolve_left hu
      · rw [← ht]
        exact Nat.le_succ t
      · refine GrantOk.of_head_none ?_ (fun w hw => ?_) ?_
        · simp [View.create, View.set, Frame.head]
        · exact Nat.lt_irrefl _ (ht ▸ h.old w t hw)
        · simp [View.create, View.set, Frame.stored]
      · exact fun _ => Nat.lt_succ_self t
  | dispatch hc ht hs hh => exact h.dispatch hs
  | @leave c d p q f _ hc hne hd hs hh hf =>
      have hframe : f.head = (v.thr c).frame.head ∧ f.stored = (v.thr c).frame.stored := by
        rcases hf with rfl | ⟨k, rfl, hf | ⟨hfree, rfl⟩⟩
        · exact ⟨rfl, rfl⟩
        · rw [hf]
          cases k <;> exact ⟨rfl, rfl⟩
        · exact ⟨(head_of_free hfree).symm, (stored_of_free hfree).symm⟩
      refine (h.left (q := q) hframe.1 hframe.2).dispatch ?_
      simpa [View.set, hne] using hs
  | @stay c k _ hc hrun hf =>
      have hframe : Frame.head (.after k) = (v.thr c).frame.head ∧
          Frame.stored (.after k) = (v.thr c).frame.stored := by
        rcases hf with hf | ⟨hfree, rfl⟩
        · rw [hf]
          cases k <;> exact ⟨rfl, rfl⟩
        · exact ⟨(head_of_free hfree).symm, (stored_of_free hfree).symm⟩
      exact h.set ((h.thread c).update hframe.1 rfl (fun ha => ha) (fun hs => hs)
        (fun h1 h2 => ⟨h1, h2⟩) hframe.2)
  | @suspend t s f _ he ht hs hsleep hf =>
      obtain rfl := hsleep hQ
      have hframe : f.head = (v.thr t).frame.head ∧ f.stored = (v.thr t).frame.stored := by
        rcases hf with ⟨-, hfree, rfl⟩ | ⟨-, rfl⟩
        · exact ⟨(head_of_free hfree).symm, (stored_of_free hfree).symm⟩
        · exact ⟨rfl, rfl⟩
      refine h.move ((h.thread t).update hframe.1 rfl (by simp) (by simp) (fun _ _ => ?_)
        hframe.2)
      rcases hs with hs | hs <;> simp [hs]
  | sleep hc hs hf =>
      exact h.move ((h.thread _).of_free (head_of_free hf) (Or.inl rfl) (by simp [Frame.stored]))
  | enter hc hf => exact h.setFrame_of_free (head_of_free hf) rfl (by simp [Frame.stored])
  | @close t _ ht hself hkill =>
      refine h.move ((h.thread t).update rfl rfl (by simp) (by simp) (by simp) rfl)
  | @clean t _ hh hc =>
      refine h.update (t := t) (fun u hu => ?_) (fun u hu hl => ?_) (Nat.le_refl _)
        (fun _ => rfl) ?_ ?_
      · simp [View.clean, View.move, hu]
      · exact (List.mem_filter.mp hl).1
      · have hok := h.thread t
        have hx : (v.clean t).thr t = { v.thr t with home := none } := by
          simp [View.clean, View.move]
        rw [hx]
        refine ⟨hok.woken, fun hl => ?_, hok.stored⟩
        simp [View.clean] at hl
      · simp [View.clean]
  | @resume t p _ ht hs hsleep =>
      refine h.move ((h.thread t).update rfl rfl (by simp [View.awake]) (fun _ => ?_)
        (fun _ _ => ?_) rfl)
      · simp only [View.awake]
        split <;> simp
      · simp [hsleep hN]
  | @expire t p _ ht harm hs =>
      have hnot : ∀ w, t ∉ woken w v.trace := fun w hw => by
        have := ((h.thread t).woken w hw).2.2.1
        simp [harm] at this
      refine Granted.congr (v := v.move t { v.awake p t with error := -RT_ETIMEOUT })
        (h.move ⟨fun w hw => absurd hw (hnot w), fun _ w _ herr => ?_, (h.thread t).stored⟩)
        rfl rfl rfl fun _ => rfl
      simp [RT_ETIMEOUT, RT_EOK] at herr
  | semInit hs hq => exact (h.setSem _ _).emit rfl
  | mbInit hm hq hq' => exact h.setMb _ _
  | semTaken hx hpos => exact ((h.setSem _ _).emit rfl).emit rfl
  | semRefused => exact h.emit rfl
  | report ho => exact h.emit (isReport_of_prompt ho)
  | semPark hx hzero hc hrun hf => exact h.park (head_of_free hf) rfl
  | semUp hx hM hq => exact (h.setSem _ _).emit rfl
  | semHand hx hq hu hs => exact (h.emit (o := .semReleased _) rfl).hand (hp.emit _) hq hu hs _
  | post hx hk hq => exact (h.setMb _ _).emit (isReport_of_serves hk)
  | postWake hx hk hq hu hs =>
      exact ((h.setMb _ _).emit (isReport_of_serves hk)).hand ((hp.setMb _ _).emit _) hq hu hs _
  | turn hc hf hT => exact h.turn hp (head_of_free hf) (stored_of_free hf) hT
  | @rerunTurn t k k' w _ _ hc hf hw hw' hk herr hT =>
      have hx : ((v.rerun t w).thr t).frame = .run := by
        simp [View.rerun, View.emit, View.setFrame, View.set]
      exact (h.rerun hf hw).turn (hp.rerun hc hf) (by rw [hx]; rfl) (by rw [hx]; rfl) hT
  | rerunRet hc hf hw ho herr => exact (h.rerun hf hw).emit (isReport_of_retObs ho)
  | @returned t r _ hc hf =>
      have hhead : (v.thr t).frame.head = none := by rw [hf]; rfl
      have hrun := h.setFrame_of_free (f := .run) hhead rfl (by simp [Frame.stored])
      cases r with
      | none => exact hrun
      | some o =>
          refine hrun.emit (isReport_of_prompt ((h.thread t).stored o ?_))
          rw [hf]
          rfl

end Granted

theorem granted_threadInit (tick : BitVec 32) :
    Granted (view (threadInit tick) Rings.empty) where
  thread t := by
    refine GrantOk.of_head_none rfl (fun w hw => ?_) (by simp [view, threadInit, Frame.stored])
    simp [view, threadInit, woken] at hw
  nodup w := List.nodup_nil
  old w t ht := by simp [view, threadInit, woken] at ht
  fresh t ht := by simp [view, threadInit] at ht

end LuojiOs
