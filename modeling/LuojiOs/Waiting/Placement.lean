import LuojiOs.Waiting.Simulation
import LuojiOs.Scheduler.ReadySet

/-!
# A thread is where its status says

In the runs that meet `runGuard` the status of a thread tells on which list its
`tlist` node is.  The invariant is local to each thread: `ThreadOk` relates the
status, the list, the frame and the error code of one thread, and each move of the
waiting protocol changes one thread, or two in a switch.
-/

namespace LuojiOs

open CircularList

/-- What holds of one thread; `cur` says that it is the current one. -/
structure ThreadOk (cur : Prop) (x : ThreadView) : Prop where
  ready : x.statu = .ready → (∃ p, x.home = some (.ready p)) ∧ ¬cur
  suspend : x.statu = .suspend →
    (∃ w : TNode, w.isWait = true ∧ x.home = some w ∧ x.frame.head = some w) ∧
      x.error = RT_EOK
  sleep : x.statu = .sleep → x.home = none
  running : x.statu = .running → x.home = none ∧ cur
  close : x.statu = .close → x.home = some .dead
  used : x.statu ≠ .init ∧ x.statu ≠ .deadSleep
  current : cur → x.statu = .running ∨ (∃ k, x.frame = .schedule k) ∨ x.frame = .suspended

/-- The wait lists hold the threads that are linked on them, each once, and every
live thread is in its place. -/
structure Placed (v : View) : Prop where
  mem_queue : ∀ w t, t ∈ v.queue w ↔ w.isWait = true ∧ (v.thr t).home = some w
  nodup : ∀ w, (v.queue w).Nodup
  current_mem : ∀ c, v.current = some c → c ∈ v.live
  thread : ∀ t ∈ v.live, ThreadOk (v.current = some t) (v.thr t)

section

variable {cur : Prop} {x : ThreadView}

/-- A thread in its own code is not suspended. -/
theorem ThreadOk.not_suspend (h : ThreadOk cur x) (hf : x.frame.head = none) :
    x.statu ≠ .suspend := by
  intro hs
  obtain ⟨⟨w, -, -, hhead⟩, -⟩ := h.suspend hs
  simp [hf] at hhead

theorem head_of_free {f : Frame} (hf : f.free = true) : f.head = none := by
  cases f <;> simp_all [Frame.free, Frame.head]

/-- At the return of its `rt_schedule()` the current thread runs. -/
theorem ThreadOk.running_of_after (h : ThreadOk cur x) (hc : cur) {k : After}
    (hf : x.frame = .after k) : x.statu = .running := by
  rcases h.current hc with hs | ⟨k', hk'⟩ | hsus
  · exact hs
  · simp [hf] at hk'
  · simp [hf] at hsus

/-- Another frame with the same wait list. -/
theorem ThreadOk.setFrame (h : ThreadOk cur x) {f : Frame}
    (hhead : x.statu = .suspend → f.head = x.frame.head)
    (hcur : cur → x.statu = .running ∨ (∃ k, f = .schedule k) ∨ f = .suspended) :
    ThreadOk cur { x with frame := f } where
  ready := h.ready
  suspend hs := by
    obtain ⟨⟨w, hw, hhome, hf⟩, herr⟩ := h.suspend hs
    exact ⟨⟨w, hw, hhome, (hhead hs).trans hf⟩, herr⟩
  sleep := h.sleep
  running := h.running
  close := h.close
  used := h.used
  current := hcur

theorem ThreadOk.setError (h : ThreadOk cur x) (hs : x.statu ≠ .suspend) (r : ℤ) :
    ThreadOk cur { x with error := r } where
  ready := h.ready
  suspend hs' := absurd hs' hs
  sleep := h.sleep
  running := h.running
  close := h.close
  used := h.used
  current := h.current

/-- A thread that was woken is ready, or runs if it is the current one. -/
theorem threadOk_awake (v : View) (p : ℕ) (t : Tid) (r : ℤ) :
    ThreadOk (v.current = some t) { v.awake p t with error := r } := by
  unfold View.awake
  by_cases hc : v.current = some t
  · constructor <;> simp [hc]
  · constructor <;> simp [hc]

theorem threadOk_left {v : View} {c : Tid} {q : ℕ} {f : Frame} (cur' : Prop)
    (h : ThreadOk cur (v.thr c)) (hcur : ¬cur')
    (hhead : (v.thr c).statu = .suspend → f.head = (v.thr c).frame.head) :
    ThreadOk cur' (v.left c q f) := by
  unfold View.left
  by_cases hrun : (v.thr c).statu.runnable = true
  · rw [if_pos hrun]
    constructor <;> simp [hcur]
  · rw [if_neg hrun]
    have hnot : (v.thr c).statu ≠ .ready ∧ (v.thr c).statu ≠ .running := by
      constructor <;> intro hs <;> simp [hs, Statu.runnable] at hrun
    refine ⟨fun hs => absurd hs hnot.1, fun hs => ?_, h.sleep, fun hs => absurd hs hnot.2,
      h.close, h.used, fun hc => absurd hc hcur⟩
    obtain ⟨⟨w, hw, hhome, hf⟩, herr⟩ := h.suspend hs
    exact ⟨⟨w, hw, hhome, (hhead hs).trans hf⟩, herr⟩

end

theorem After.isWait_of_head {k : After} {w : TNode} (h : k.head = some w) :
    w.isWait = true := by
  cases k <;> simp_all [After.head] <;> subst h <;> rfl

namespace Placed

variable {v v' : View} {t : Tid}

/-- The invariant reads neither the objects nor the trace. -/
theorem congr (h : Placed v) (hlive : v'.live = v.live) (hcur : v'.current = v.current)
    (hthr : v'.thr = v.thr) (hqueue : v'.queue = v.queue) : Placed v' where
  mem_queue := by rw [hqueue, hthr]; exact h.mem_queue
  nodup := by rw [hqueue]; exact h.nodup
  current_mem := by rw [hcur, hlive]; exact h.current_mem
  thread := by rw [hlive, hcur, hthr]; exact h.thread

theorem emit (h : Placed v) (o : Obs) : Placed (v.emit o) :=
  h.congr rfl rfl rfl rfl

theorem setSem (h : Placed v) (s : ℕ) (x : Sem) : Placed (v.setSem s x) :=
  h.congr rfl rfl rfl rfl

theorem setMb (h : Placed v) (m : ℕ) (x : Mailbox) : Placed (v.setMb m x) :=
  h.congr rfl rfl rfl rfl

theorem set (h : Placed v) {x : ThreadView} (hhome : x.home = (v.thr t).home)
    (hx : t ∈ v.live → ThreadOk (v.current = some t) x) : Placed (v.set t x) where
  mem_queue w u := by
    rw [show (v.set t x).queue = v.queue from rfl, h.mem_queue]
    by_cases hu : u = t
    · subst hu
      simp [View.set, hhome]
    · simp [View.set, hu]
  nodup := h.nodup
  current_mem := h.current_mem
  thread u hu := by
    by_cases hut : u = t
    · subst hut
      simpa [View.set] using hx hu
    · simpa [View.set, hut] using h.thread u hu

theorem setFrame (h : Placed v) {f : Frame}
    (hx : t ∈ v.live → ThreadOk (v.current = some t) { v.thr t with frame := f }) :
    Placed (v.setFrame t f) :=
  h.set rfl hx

theorem setError (h : Placed v) {r : ℤ} (hs : t ∈ v.live → (v.thr t).statu ≠ .suspend) :
    Placed (v.setError t r) :=
  h.set rfl fun ht => (h.thread t ht).setError (hs ht) r

theorem mem_queue_move (h : Placed v) (t : Tid) (x : ThreadView) (w : TNode) (u : Tid) :
    u ∈ (v.move t x).queue w ↔ w.isWait = true ∧ ((v.move t x).thr u).home = some w := by
  by_cases hut : u = t
  · subst hut
    have hnot : u ∉ (v.queue w).erase u := fun hm =>
      absurd rfl ((h.nodup w).mem_erase_iff.mp hm).1
    by_cases hd : x.home = some w ∧ w.isWait = true
    · simp [View.move, hd]
    · have hd' : ¬(w.isWait = true ∧ x.home = some w) := fun hh => hd ⟨hh.2, hh.1⟩
      simp [View.move, hd, hnot, hd']
  · have hmem : u ∈ (v.queue w).erase t ↔ u ∈ v.queue w := List.mem_erase_of_ne hut
    by_cases hd : x.home = some w ∧ w.isWait = true
    · simp [View.move, hd, hut, hmem, h.mem_queue]
    · simp [View.move, hd, hut, hmem, h.mem_queue]

theorem nodup_move (h : Placed v) (t : Tid) (x : ThreadView) (w : TNode) :
    ((v.move t x).queue w).Nodup := by
  have hnot : t ∉ (v.queue w).erase t := fun hm =>
    absurd rfl ((h.nodup w).mem_erase_iff.mp hm).1
  have hnd : ((v.queue w).erase t).Nodup := (h.nodup w).erase t
  unfold View.move
  dsimp only
  split
  · exact List.nodup_append.mpr ⟨hnd, List.nodup_singleton t, fun a ha b hb hab => by
      obtain rfl := List.mem_singleton.mp hb
      exact hnot (hab ▸ ha)⟩
  · exact hnd

theorem move (h : Placed v) {x : ThreadView}
    (hx : t ∈ v.live → ThreadOk (v.current = some t) x) : Placed (v.move t x) where
  mem_queue := h.mem_queue_move t x
  nodup := h.nodup_move t x
  current_mem := h.current_mem
  thread u hu := by
    by_cases hut : u = t
    · subst hut
      simpa [View.move] using hx hu
    · simpa [View.move, hut] using h.thread u hu

theorem wake (h : Placed v) (p : ℕ) (t : Tid) : Placed (v.wake p t) :=
  h.move fun _ => threadOk_awake v p t _

theorem rerun (h : Placed v) {w : TNode} {k : After} (hc : v.current = some t)
    (hf : (v.thr t).frame = .after k) : Placed (v.rerun t w) := by
  refine Placed.emit (h.setFrame fun ht => ?_) _
  have hok := h.thread t ht
  have hrun := hok.running_of_after hc hf
  exact hok.setFrame (fun hs => by simp [hrun] at hs) fun _ => Or.inl hrun

theorem park (h : Placed v) {w : TNode} {k : After} (hw : w.isWait = true)
    (hk : k.head = some w) : Placed (v.park t w k) := by
  refine Placed.emit (h.move fun _ => ⟨?_, ?_, ?_, ?_, ?_, ?_, ?_⟩) _
  · simp
  · exact fun _ => ⟨⟨w, hw, rfl, hk⟩, rfl⟩
  · simp
  · simp
  · simp
  · simp
  · exact fun _ => Or.inr (Or.inl ⟨k, rfl⟩)

/-- The current thread, in its own code, is set to go on to `rt_schedule()`. -/
theorem enter (h : Placed v) {k : After} (hk : k.head = none)
    (hf : (v.thr t).frame.head = none) : Placed (v.setFrame t (.schedule k)) := by
  refine h.setFrame fun ht => (h.thread t ht).setFrame (fun _ => ?_) fun _ =>
    Or.inr (Or.inl ⟨k, rfl⟩)
  rw [hf]
  exact hk

/-! ## Every move keeps the places -/

theorem turn (h : Placed v) {k : After} (hf : (v.thr t).frame.head = none)
    (hT : View.Turn t k v v') : Placed v' := by
  cases hT with
  | giveUp hx hk ho =>
      exact Placed.emit (h.setError fun ht => (h.thread t ht).not_suspend hf) _
  | park hx hk hk' hw hrun => exact h.park (After.isWait_of_head hw) hk'
  | pass hx hk hq hr => exact ((h.setMb _ _).emit _).emit _
  | @passWake m x x' k w o r u us p _ hx hk hq hu hs hr =>
      have h₁ := ((((h.setMb m x').emit o).emit (.woke w u)).wake p u)
      refine h₁.enter (t := t) (k := .ret (some r)) rfl ?_
      by_cases htu : t = u
      · subst htu
        simpa [View.wake, View.move, View.awake, View.emit, View.setMb] using hf
      · simpa [View.wake, View.move, View.emit, View.setMb, htu] using hf

/-- The thread `d`, taken from a ready list, becomes the current one. -/
theorem dispatch {d : Tid} (hmem : ∀ w t, t ≠ d → (t ∈ v.queue w ↔
      w.isWait = true ∧ (v.thr t).home = some w))
    (hnot : ∀ w, d ∉ v.queue w) (hnodup : ∀ w, (v.queue w).Nodup) (hd : d ∈ v.live)
    (hother : ∀ t ∈ v.live, t ≠ d → ThreadOk False (v.thr t)) : Placed (v.dispatch d) where
  mem_queue w t := by
    by_cases htd : t = d
    · subst htd
      simp only [View.dispatch, View.set, Function.update_self]
      constructor
      · exact fun hm => absurd hm (hnot w)
      · simp
    · simpa [View.dispatch, View.set, htd] using hmem w t htd
  nodup := hnodup
  current_mem := by
    rintro c ⟨rfl⟩
    exact hd
  thread t ht := by
    by_cases htd : t = d
    · subst htd
      simp only [View.dispatch, View.set, Function.update_self]
      constructor <;> simp
    · have hne : ¬d = t := fun he => htd he.symm
      simpa [View.dispatch, View.set, htd, hne] using hother t ht htd

theorem not_mem_queue (h : Placed v) {p : ℕ} (hhome : (v.thr t).home = some (.ready p))
    (w : TNode) : t ∉ v.queue w := by
  rw [h.mem_queue, hhome]
  rintro ⟨hw, ⟨rfl⟩⟩
  simp [TNode.isWait] at hw

/-- Away from the current thread `cur` may be any false statement. -/
theorem threadOk_false (h : Placed v) (ht : t ∈ v.live) (hc : v.current ≠ some t) :
    ThreadOk False (v.thr t) := by
  have hfalse : (v.current = some t) = False := eq_false hc
  rw [← hfalse]
  exact h.thread t ht

theorem switch (h : Placed v) {c d : Tid} {p q : ℕ} {f : Frame} (hc : v.current = some c)
    (hne : d ≠ c) (hd : d ∈ v.live) (hhome : (v.thr d).home = some (.ready p))
    (hf : (v.thr c).statu = .suspend → f.head = (v.thr c).frame.head) :
    Placed (v.switch c d q f) := by
  have hok := h.thread c (h.current_mem c hc)
  refine dispatch (fun w t htd => ?_) (h.not_mem_queue hhome) h.nodup hd (fun t ht htd => ?_)
  · rw [show (v.set c (v.left c q f)).queue = v.queue from rfl, h.mem_queue]
    by_cases htc : t = c
    · subst htc
      simp only [View.set, Function.update_self, View.left]
      split
      · next hrun =>
        -- the caller ran, so it was on no list
        have hnone : (v.thr t).home = none := by
          rcases hs : (v.thr t).statu with _ | _ | _ | _ | _ | _ | _
          · exact absurd hs hok.used.1
          · exact absurd hc (hok.ready hs).2
          · simp [hs, Statu.runnable] at hrun
          · exact hok.sleep hs
          · exact (hok.running hs).1
          · simp [hs, Statu.runnable] at hrun
          · exact absurd hs hok.used.2
        rw [hnone]
        constructor
        · simp
        · rintro ⟨hw, ⟨rfl⟩⟩
          simp [TNode.isWait] at hw
      · rfl
    · simp [View.set, htc]
  · by_cases htc : t = c
    · subst htc
      simpa [View.set] using threadOk_left False hok not_false hf
    · have hcur : v.current ≠ some t := by
        rw [hc]
        simpa using Ne.symm htc
      simpa [View.set, htc] using h.threadOk_false ht hcur

/-- The places are kept by every move whose event meets the switch condition. -/
theorem step {Q N : Prop} {M : ℕ → Prop} {e : Event} (hQ : Q) (h : Placed v)
    (hs : View.Step Q N M e v v') : Placed v' := by
  cases hs with
  | @create t p _ ht hcur hlive hq =>
      refine ⟨fun w u => ?_, h.nodup, fun c hc => ?_, fun u hu => ?_⟩
      · rw [show (v.create t p).queue = v.queue from rfl, h.mem_queue]
        by_cases hut : u = t
        · subst hut
          have := hq w
          rw [h.mem_queue] at this
          simp only [View.create, View.set, Function.update_self, this, false_iff]
          rintro ⟨hw, ⟨rfl⟩⟩
          simp [TNode.isWait] at hw
        · simp [View.create, View.set, hut]
      · exact List.mem_cons_of_mem _ (h.current_mem c hc)
      · by_cases hut : u = t
        · subst hut
          simp only [View.create, View.set, Function.update_self]
          constructor <;> simp [hcur]
        · have hu' : u ∈ v.live := (List.mem_cons.mp hu).resolve_left hut
          simpa [View.create, View.set, hut] using h.thread u hu'
  | dispatch hc ht hs hh =>
      exact dispatch (fun w t _ => h.mem_queue w t) (h.not_mem_queue hh) h.nodup ht
        fun t ht _ => h.threadOk_false ht (by simp [hc])
  | leave hc hne hd hs hh hf =>
      refine h.switch hc hne hd hh fun hsus => ?_
      rcases hf with rfl | ⟨k, rfl, hf | ⟨hfree, -⟩⟩
      · rfl
      · rw [hf]
        rfl
      · exact absurd hsus
          ((h.thread _ (h.current_mem _ hc)).not_suspend (head_of_free hfree))
  | stay hc hrun hf =>
      refine h.setFrame fun ht => (h.thread _ ht).setFrame (fun hsus => ?_)
        fun _ => Or.inl (hrun hQ)
      simp [hrun hQ] at hsus
  | @suspend t s f _ he ht hs hsleep hf =>
      obtain rfl := hsleep hQ
      refine h.move fun _ => ⟨by simp, by simp, by simp, by simp, by simp, by simp, ?_⟩
      intro hc
      rcases hf with ⟨-, -, rfl⟩ | ⟨hne, -⟩
      · exact Or.inr (Or.inr rfl)
      · exact absurd hc hne
  | sleep hc hs hf =>
      exact h.move fun _ => ⟨by simp, by simp, by simp, by simp, by simp, by simp,
        fun _ => Or.inr (Or.inl ⟨_, rfl⟩)⟩
  | enter hc hf => exact h.enter rfl (head_of_free hf)
  | close ht hself hkill =>
      refine h.move fun _ => ⟨by simp, by simp, by simp, by simp, by simp, by simp, ?_⟩
      exact fun hc => Or.inr (Or.inl ⟨_, hself hc⟩)
  | @clean t _ hh hc =>
      refine ⟨h.mem_queue_move t { v.thr t with home := none },
        h.nodup_move t { v.thr t with home := none }, fun c hcur => ?_, fun u hu => ?_⟩
      · have hct : c ≠ t := by
          rintro rfl
          exact hc hcur
        exact List.mem_filter.mpr ⟨h.current_mem c hcur, by simpa using hct⟩
      · obtain ⟨hmem, hut⟩ := List.mem_filter.mp hu
        have hne : u ≠ t := by simpa using hut
        simpa [View.clean, View.move, hne] using h.thread u hmem
  | resume ht hs hN => exact h.wake _ _
  | expire ht harm hs => exact Placed.emit (h.move fun _ => threadOk_awake v _ _ _) _
  | semInit hs hq => exact (h.setSem _ _).emit _
  | mbInit hm hq hq' => exact h.setMb _ _
  | semTaken hx hpos => exact ((h.setSem _ _).emit _).emit _
  | semRefused => exact h.emit _
  | report ho => exact h.emit _
  | semPark hx hzero hc hrun hf => exact h.park rfl rfl
  | semUp hx hM hq => exact (h.setSem _ _).emit _
  | semHand hx hq hu hs => exact ((h.emit _).emit _).wake _ _
  | post hx hk hq => exact (h.setMb _ _).emit _
  | postWake hx hk hq hu hs => exact (((h.setMb _ _).emit _).emit _).wake _ _
  | turn hc hf hT => exact h.turn (head_of_free hf) hT
  | rerunTurn hc hf hw hw' hk herr hT =>
      refine (h.rerun hc hf).turn ?_ hT
      simp [View.rerun, View.emit, View.setFrame, View.set, Frame.head]
  | rerunRet hc hf hw ho herr => exact (h.rerun hc hf).emit _
  | @returned t r _ hc hf =>
      have hrun : Placed (v.setFrame t .run) := by
        refine h.setFrame fun ht => ?_
        have hok := h.thread t ht
        have hrun := hok.running_of_after hc hf
        exact hok.setFrame (fun hsus => by simp [hrun] at hsus) fun _ => Or.inl hrun
      cases r with
      | none => exact hrun
      | some o => exact hrun.emit o

end Placed

/-! ## The lists of the kernel -/

/-- Every live thread is linked where its status says, on one list at most, and the
current thread is the one that runs unless it stands before an `rt_schedule()`. -/
structure ListMembership (σ : Kernel) (R : Rings TNode) : Prop where
  /-- the pointers link the rings, and no node is a member of two of them -/
  represents : R.Represents σ.tlinks
  heads : ∀ t w, R.home (.thread t) = some w → w.isThread = false
  place : ∀ t ∈ σ.allThread,
    match σ.statu t with
    | .ready => R.home (.thread t) = some (.ready (σ.thread t).currentPriority)
    | .suspend => ∃ w, w.isWait = true ∧ R.home (.thread t) = some w
    | .sleep | .running =>
      σ.tlinks.next (.thread t) = .thread t ∧ σ.tlinks.prev (.thread t) = .thread t
    | .close => R.home (.thread t) = some .dead
    | .init | .deadSleep => False
  running : ∀ t ∈ σ.allThread, σ.statu t = .running → σ.currentThread = some t
  current : ∀ c, σ.currentThread = some c → (∀ k, σ.frame c ≠ .schedule k) →
    σ.frame c ≠ .suspended → σ.statu c = .running ∧ R.home (.thread c) = none

theorem LinkInv.self_linked {σ : Kernel} {R : Rings TNode} {t : Tid} (h : LinkInv σ R)
    (hhome : R.home (.thread t) = none) :
    σ.tlinks.next (.thread t) = .thread t ∧ σ.tlinks.prev (.thread t) = .thread t := by
  have hpath := h.represents _ hhome
  rw [h.seq_thread] at hpath
  exact hpath

theorem Placed.membership {σ : Kernel} {R : Rings TNode} (h : Placed (view σ R))
    (hl : LinkInv σ R) : ListMembership σ R where
  represents := hl.represents
  heads t w hw := (hl.member _ _ hw).1
  place t ht := by
    have hok := h.thread t ht
    cases hs : σ.statu t with
    | init => exact absurd hs hok.used.1
    | ready =>
        obtain ⟨⟨p, hp⟩, -⟩ := hok.ready hs
        have hprio : (σ.thread t).currentPriority = p := (hl.ready t p hp).1
        rw [hprio]
        exact hp
    | suspend =>
        obtain ⟨⟨w, hw, hhome, -⟩, -⟩ := hok.suspend hs
        exact ⟨w, hw, hhome⟩
    | sleep => exact hl.self_linked (hok.sleep hs)
    | running => exact hl.self_linked (hok.running hs).1
    | close => exact hok.close hs
    | deadSleep => exact absurd hs hok.used.2
  running t ht hs := ((h.thread t ht).running hs).2
  current c hc hsched hsus := by
    have hok := h.thread c (h.current_mem c hc)
    have hrun : σ.statu c = .running := by
      rcases hok.current hc with hs | ⟨k, hk⟩ | hf
      · exact hs
      · exact absurd hk (hsched k)
      · exact absurd hf hsus
    exact ⟨hrun, (hok.running hrun).1⟩

theorem placed_threadInit (tick : BitVec 32) : Placed (view (threadInit tick) Rings.empty) where
  mem_queue w t := by
    have hnil : (view (threadInit tick) Rings.empty).queue w = [] := by
      unfold view
      dsimp only
      split <;> rfl
    rw [hnil]
    simp [view, Rings.empty]
  nodup w := by
    have hnil : (view (threadInit tick) Rings.empty).queue w = [] := by
      unfold view
      dsimp only
      split <;> rfl
    rw [hnil]
    exact List.nodup_nil
  current_mem c hc := by simp [view, threadInit] at hc
  thread t ht := by simp [view, threadInit] at ht

theorem linkGuard_of_runGuard {σ : Kernel} {e : Event} (h : runGuard σ e = true) :
    linkGuard σ e = true ∧ switchGuard σ e = true := by
  simpa [runGuard] using h

theorem placed_of_reachable {σ : Kernel}
    (h : Reachable (fun σ e => runGuard σ e = true) σ) :
    ∃ R, BaseInv σ R ∧ Placed (view σ R) :=
  Reachable.protocol (fun _ _ hg => (linkGuard_of_runGuard hg).1) placed_threadInit
    (fun _ _ _ _ hg hs hp => hp.step (linkGuard_of_runGuard hg).2 hs) h

theorem membership_of_reachable {σ : Kernel}
    (h : Reachable (fun σ e => runGuard σ e = true) σ) : ∃ R, ListMembership σ R := by
  obtain ⟨R, hb, hp⟩ := placed_of_reachable h
  exact ⟨R, hp.membership hb.links⟩

theorem membership_handOverRun :
    ∃ σ, checkedRun runGuard 0 handOverRun = some σ ∧ ∃ R, ListMembership σ R := by
  have hsome : (checkedRun runGuard 0 handOverRun).isSome = true := by decide
  obtain ⟨σ, hσ⟩ := Option.isSome_iff_exists.mp hsome
  exact ⟨σ, hσ, membership_of_reachable (reachable_of_checkedRun hσ)⟩

/-- The only thread waits for a semaphore: `rt_schedule` finds no other thread and
returns. -/
def aloneRun : List Event :=
  [.call (.rtSemInit 0 0), joinCall 3, .threadStart,
    .call (.rtSemTake 0 RT_WAITING_FOREVER), .goOn]

/-- `rt_schedule()` has returned and the current thread is suspended. -/
def suspendedReturn (σ : Kernel) : Bool :=
  σ.currentThread = some 0 ∧
    σ.frame 0 = .after (.semTake 0 RT_WAITING_FOREVER) ∧ σ.statu 0 = .suspend

theorem membership_broken :
    ∃ σ, runFrom 0 aloneRun = some σ ∧ ¬∃ R, ListMembership σ R := by
  obtain ⟨σ, hσ, hbad⟩ := Runs.exists_of_any
    (show (runFrom 0 aloneRun).any suspendedReturn = true by decide)
  refine ⟨σ, hσ, ?_⟩
  rintro ⟨R, h⟩
  obtain ⟨hcur, hframe, hsus⟩ := of_decide_eq_true hbad
  have hrun := (h.current 0 hcur (by simp [hframe]) (by simp [hframe])).1
  simp [hsus] at hrun

end LuojiOs
