import LuojiOs.Lwip.Timeouts

/-!
# When timeouts expire

The list is an agenda of requests, each with its deadline on a clock that goes on only while the
network thread waits.  The agenda has besides what became of each request, and what has passed in
ticks of the system, so that the clock can be compared with them.
-/

namespace LuojiOs

namespace Lwip

/-- Ticks of the system, messages that were fetched, and the ticks that passed without a timeout
being counted down: outside of the waiting, or in waiting for too long. -/
structure Meter where
  ticks : ℕ
  messages : ℕ
  lost : ℕ

structure Request (H A : Type) where
  id : ℕ
  msecs : ℕ
  due : ℕ
  set : Meter
  h : H
  arg : A

structure Agenda (H A : Type) where
  clock : ℕ
  meter : Meter
  requested : List (Request H A)
  pending : List (Request H A)
  cancelled : List (Request H A)
  fired : List (Request H A × Meter)

/-- The list of the code, with the calls of handlers. -/
structure Thread (H A : Type) where
  nextTimeout : List (SysTimeo H A)
  called : List (H × A)

inductive Event (H A : Type)
  | timeout (mem : Bool) (msecs : BitVec 32) (h : H) (arg : A)
  | untimeout (h : H) (arg : A)
  /-- a round of `sys_timeouts_mbox_fetch`, which waits `e` ticks if it waits -/
  | round (got : Bool) (e : ℕ)
  | work (e : ℕ)

variable {H A : Type}

def Thread.after [DecidableEq H] [DecidableEq A] (s : Thread H A) :
    Event H A → Thread H A
  | .timeout mem msecs h arg => { s with nextTimeout := sysTimeout mem msecs h arg s.nextTimeout }
  | .untimeout h arg => { s with nextTimeout := sysUntimeout h arg s.nextTimeout }
  | .round got e =>
    let r := fetchRound got e s.nextTimeout
    ⟨r.1, s.called ++ r.2.toList⟩
  | .work _ => s

/-- Is the deadline of a request before that of another one? -/
def Earlier (x y : Request H A) : Prop := x.due < y.due

instance : DecidableRel (Earlier (H := H) (A := A)) := fun x y =>
  inferInstanceAs (Decidable (x.due < y.due))

namespace Agenda

def request (a : Agenda H A) (msecs : ℕ) (h : H) (arg : A) : Agenda H A :=
  let r : Request H A := ⟨a.requested.length, msecs, a.clock + msecs, a.meter, h, arg⟩
  { a with
    requested := a.requested ++ [r]
    pending := a.pending.orderedInsert Earlier r }

def cancel [DecidableEq H] [DecidableEq A] (a : Agenda H A) (h : H) (arg : A) : Agenda H A :=
  let p := fun r : Request H A => decide ((r.h, r.arg) = (h, arg))
  { a with
    pending := a.pending.eraseP p
    cancelled := a.cancelled ++ (a.pending.find? p).toList }

def round (a : Agenda H A) (got : Bool) (e : ℕ) : Agenda H A :=
  match a.pending with
  | [] => { a with meter := ⟨a.meter.ticks + e, a.meter.messages + 1, a.meter.lost + e⟩ }
  | r :: rest =>
    let waited : Meter :=
      ⟨a.meter.ticks + e, a.meter.messages + got.toNat, a.meter.lost + (e - (r.due - a.clock))⟩
    if r.due = a.clock then { a with pending := rest, fired := a.fired ++ [(r, a.meter)] }
    else if got then { a with clock := min (a.clock + max 1 e) r.due, meter := waited }
    else
      { a with
        clock := r.due
        meter := waited
        pending := rest
        fired := a.fired ++ [(r, waited)] }

def after [DecidableEq H] [DecidableEq A] (a : Agenda H A) : Event H A → Agenda H A
  | .timeout mem msecs h arg => if mem then a.request msecs.toNat h arg else a
  | .untimeout h arg => a.cancel h arg
  | .round got e => a.round got e
  | .work e => { a with meter := ⟨a.meter.ticks + e, a.meter.messages, a.meter.lost + e⟩ }

end Agenda

def step [DecidableEq H] [DecidableEq A] (s : Thread H A × Agenda H A) (e : Event H A) :
    Option (Thread H A × Agenda H A) :=
  some (s.1.after e, s.2.after e)

/-- `rt_mb_recv` gives up when the ticks it was to wait have passed, and no wait lasts so long that
the ticks come around. -/
def Waits (s : Thread H A × Agenda H A) : Event H A → Prop
  | .round true e => e < 2 ^ 32 - 1
  | .round false e =>
    0 < waitTicks (firstTime s.1.nextTimeout) ∧ waitTicks (firstTime s.1.nextTimeout) ≤ e
  | _ => True

/-- Nothing has been requested. -/
def idle : Thread H A × Agenda H A := (⟨[], []⟩, ⟨0, ⟨0, 0, 0⟩, [], [], [], []⟩)

/-! ## The list is the agenda -/

def Request.entry (r : Request H A) : ℕ × H × A := (r.due, r.h, r.arg)

structure Agrees (s : Thread H A) (a : Agenda H A) : Prop where
  called : s.called = a.fired.map fun f => (f.1.h, f.1.arg)
  list : DeltaList.due a.clock (s.nextTimeout.map SysTimeo.entry) = a.pending.map Request.entry

/-- No deadline is out of the reach of the 32 bits of a time. -/
def Agenda.Near (a : Agenda H A) : Prop := ∀ r ∈ a.pending, r.due < a.clock + 2 ^ 32

variable {s : Thread H A} {a : Agenda H A} {t : SysTimeo H A} {l : List (SysTimeo H A)}
  {r : Request H A} {rest : List (Request H A)}

theorem Agrees.nil (h : Agrees s a) : s.nextTimeout = [] ↔ a.pending = [] := by
  have hlist := h.list
  constructor
  · intro hnil
    rw [hnil] at hlist
    exact List.map_eq_nil_iff.mp hlist.symm
  · intro hnil
    rw [hnil] at hlist
    cases hs : s.nextTimeout with
    | nil => rfl
    | cons t l =>
        rw [hs] at hlist
        cases hlist

theorem Agrees.cons (h : Agrees s a) (hs : s.nextTimeout = t :: l) (ha : a.pending = r :: rest) :
    r.due = a.clock + t.time.toNat ∧ (t.h, t.arg) = (r.h, r.arg) ∧
      DeltaList.due r.due (l.map SysTimeo.entry) = rest.map Request.entry := by
  have hlist := h.list
  rw [hs, ha, List.map_cons, List.map_cons, SysTimeo.entry, DeltaList.due_cons] at hlist
  obtain ⟨hhead, htail⟩ := List.cons.inj hlist
  obtain ⟨hdue, hcall⟩ := Prod.mk_inj.mp hhead
  rw [hdue] at htail
  exact ⟨hdue.symm, hcall, htail⟩

theorem Agrees.request (h : Agrees s a) (msecs : BitVec 32) (hd : H) (arg : A) :
    Agrees { s with nextTimeout := sysTimeout true msecs hd arg s.nextTimeout }
      (a.request msecs.toNat hd arg) where
  called := h.called
  list := by
    change DeltaList.due a.clock ((sysTimeout true msecs hd arg s.nextTimeout).map SysTimeo.entry) =
      (List.orderedInsert Earlier _ a.pending).map Request.entry
    rw [sysTimeout_eq, DeltaList.due_insert, h.list,
      List.map_orderedInsert Earlier DeltaList.Sooner Request.entry _ _ (fun _ _ => Iff.rfl)
        fun _ _ => Iff.rfl]
    rfl

theorem Agrees.cancel [DecidableEq H] [DecidableEq A] (h : Agrees s a) (hnear : a.Near)
    (hd : H) (arg : A) :
    Agrees { s with nextTimeout := sysUntimeout hd arg s.nextTimeout } (a.cancel hd arg) where
  called := h.called
  list := by
    change DeltaList.due a.clock ((sysUntimeout hd arg s.nextTimeout).map SysTimeo.entry) = _
    have hbound : ∀ x ∈ DeltaList.due a.clock (s.nextTimeout.map SysTimeo.entry),
        x.1 < a.clock + 2 ^ 32 := by
      intro x hx
      rw [h.list] at hx
      obtain ⟨r, hr, rfl⟩ := List.mem_map.mp hx
      exact hnear r hr
    rw [sysUntimeout_eq hd arg hbound, DeltaList.due_erase, h.list, List.eraseP_map]
    rfl

/-- What is given to a wait that is too short is not less than the time of the timeout. -/
theorem le_of_waitTicks {time : BitVec 32} {e : ℕ} (hpos : 0 < waitTicks time)
    (he : waitTicks time ≤ e) : time ≠ 0 ∧ time.toNat ≤ e := by
  have hone : BitVec.ofNat 32 (1000 / rtTickPerSecond) = 1#32 := rfl
  unfold waitTicks at hpos he
  rw [hone, BitVec.udiv_one] at hpos he
  split at hpos
  · cases hpos
  · next hne =>
    rw [if_neg hne] at he
    refine ⟨hne, ?_⟩
    split at hpos
    · next hlt =>
      have hlt : time.toNat < 1 := hlt
      omega
    · next hge =>
      rw [if_neg hge] at he
      have hint := BitVec.toInt_eq_toNat_cond time
      have hle := time.isLt
      split at hint <;> omega

theorem Agrees.round (h : Agrees s a) {got : Bool} {e : ℕ} (hw : Waits (s, a) (.round got e)) :
    Agrees ⟨(fetchRound got e s.nextTimeout).1,
      s.called ++ (fetchRound got e s.nextTimeout).2.toList⟩ (a.round got e) := by
  cases hs : s.nextTimeout with
  | nil =>
      have ha := h.nil.mp hs
      have hlist := h.list
      unfold Agenda.round
      rw [ha]
      rw [hs, ha] at hlist
      exact ⟨(List.append_nil _).trans h.called, hlist⟩
  | cons t l =>
      have hne := mt h.nil.mpr (by rw [hs]; exact List.cons_ne_nil _ _)
      obtain ⟨r, rest, ha⟩ := List.exists_cons_of_ne_nil hne
      obtain ⟨hdue, hcall, hrest⟩ := h.cons hs ha
      have hfire (clock : ℕ) (meter meter' : Meter) (hclock : clock = r.due)
          (hround : t.time = 0 ∨ got = false) :
          Agrees ⟨(fetchRound got e (t :: l)).1, s.called ++ (fetchRound got e (t :: l)).2.toList⟩
            { a with
              clock := clock
              meter := meter
              pending := rest
              fired := a.fired ++ [(r, meter')] } := by
        rw [fetchRound_fires hround, hclock]
        refine ⟨?_, hrest⟩
        change s.called ++ [(t.h, t.arg)] = _
        rw [h.called, hcall, List.map_append, List.map_singleton]
      unfold Agenda.round
      rw [ha]
      dsimp only
      split
      · next hnow =>
        have hzero : t.time = 0 := BitVec.eq_of_toNat_eq (by change _ = 0; omega)
        exact hfire a.clock a.meter a.meter hnow.symm (Or.inl hzero)
      · next hlater =>
        cases got with
        | false => exact hfire _ _ _ rfl (Or.inr rfl)
        | true =>
            have hpos : t.time ≠ 0 := fun hzero => hlater (by rw [hdue, hzero]; rfl)
            obtain ⟨hlist, hnone⟩ := fetchRound_passes hpos hw l
            refine ⟨?_, ?_⟩
            · rw [hnone]
              exact (List.append_nil _).trans h.called
            · have hlist' := h.list
              rw [hs, ha, List.map_cons, SysTimeo.entry] at hlist'
              change DeltaList.due (min (a.clock + max 1 e) r.due) _ =
                (r :: rest).map Request.entry
              rw [hlist, hdue, List.map_cons, SysTimeo.entry, DeltaList.due_pass, hlist']

/-! ## What the agenda keeps -/

/-- The order in which requests are to fire: by their deadlines, and those with one deadline in
the order in which they were made. -/
def Before (x y : Request H A) : Prop := x.due < y.due ∨ x.due = y.due ∧ x.id < y.id

theorem Before.le {x y : Request H A} (h : Before x y) : x.due ≤ y.due := by
  rcases h with hlt | ⟨heq, -⟩
  · exact hlt.le
  · exact heq.le

theorem before_of_le {x y : Request H A} (hdue : x.due ≤ y.due) (hid : x.id < y.id) :
    Before x y :=
  (Nat.lt_or_eq_of_le hdue).imp id fun heq => ⟨heq, hid⟩

/-- The newest request is put behind those with its deadline. -/
theorem pairwise_orderedInsert {L : List (Request H A)} (h : L.Pairwise Before)
    (hid : ∀ x ∈ L, x.id < r.id) : (L.orderedInsert Earlier r).Pairwise Before := by
  induction h with
  | nil => exact List.pairwise_singleton _ _
  | @cons x L hx hL ih =>
      rw [List.orderedInsert_cons]
      split
      · next hlt =>
        refine .cons (fun y hy => ?_) (.cons hx hL)
        rcases List.mem_cons.mp hy with rfl | hy
        · exact Or.inl hlt
        · exact Or.inl (Nat.lt_of_lt_of_le hlt (hx y hy).le)
      · next hle =>
        refine .cons (fun y hy => ?_) (ih fun y hy => hid y (List.mem_cons_of_mem _ hy))
        rcases (List.mem_orderedInsert Earlier).mp hy with rfl | hy
        · exact before_of_le (Nat.le_of_not_lt hle) (hid x List.mem_cons_self)
        · exact hx y hy

/-- A request has fired neither too early nor too late: the ticks since it was made are at least
its time, but for one for each message, and they are at most its time and those that were lost. -/
structure OnTime (r : Request H A) (m : Meter) : Prop where
  early : r.set.ticks + r.msecs + r.set.messages ≤ m.ticks + m.messages
  late : m.ticks + r.set.lost ≤ r.set.ticks + r.msecs + m.lost

/-- The same of one that waits, at the time `clock`. -/
structure OnTrack (r : Request H A) (clock : ℕ) (m : Meter) : Prop where
  early : r.set.ticks + r.msecs + r.set.messages + clock ≤ m.ticks + m.messages + r.due
  late : m.ticks + r.set.lost + r.due ≤ r.set.ticks + r.msecs + m.lost + clock

theorem OnTrack.onTime {m : Meter} (h : OnTrack r r.due m) : OnTime r m :=
  ⟨Nat.le_of_add_le_add_right h.early, Nat.le_of_add_le_add_right h.late⟩

structure Kept (a : Agenda H A) : Prop where
  account : a.requested.Perm (a.fired.map Prod.fst ++ a.cancelled ++ a.pending)
  order : (a.fired.map Prod.fst ++ a.pending).Pairwise Before
  past : ∀ f ∈ a.fired, f.1.due ≤ a.clock
  ahead : ∀ x ∈ a.pending, a.clock ≤ x.due
  near : a.Near
  ids : ∀ x ∈ a.requested, x.id < a.requested.length
  onTrack : ∀ x ∈ a.pending, OnTrack x a.clock a.meter
  onTime : ∀ f ∈ a.fired, OnTime f.1 f.2

theorem Kept.requested (h : Kept a) {x : Request H A}
    (hx : x ∈ a.fired.map Prod.fst ++ a.cancelled ++ a.pending) : x.id < a.requested.length :=
  h.ids x (h.account.mem_iff.mpr hx)

theorem Kept.request (h : Kept a) (msecs : BitVec 32) (hd : H) (arg : A) :
    Kept (a.request msecs.toNat hd arg) := by
  have hmsecs := msecs.isLt
  unfold Agenda.request
  generalize hr : Request.mk a.requested.length msecs.toNat (a.clock + msecs.toNat) a.meter hd arg =
    r
  have hid : r.id = a.requested.length := by rw [← hr]
  have hdue : r.due = a.clock + msecs.toNat := by rw [← hr]
  have htrack : OnTrack r a.clock a.meter := by
    rw [← hr]
    refine ⟨?_, ?_⟩ <;> dsimp only <;> omega
  obtain ⟨hfired, hpending, hcross⟩ := List.pairwise_append.mp h.order
  have hmem {x : Request H A} (hx : x ∈ a.pending.orderedInsert Earlier r) :
      x = r ∨ x ∈ a.pending := (List.mem_orderedInsert Earlier).mp hx
  refine ⟨?_, List.pairwise_append.mpr ⟨hfired, pairwise_orderedInsert hpending fun x hx => ?_,
    fun x hx y hy => ?_⟩, h.past, fun x hx => ?_, fun x hx => ?_, fun x hx => ?_, fun x hx => ?_,
    h.onTime⟩
  · have hinsert := (List.perm_append_singleton r a.pending).trans
      (List.perm_orderedInsert Earlier r a.pending).symm
    have happ := h.account.append_right [r]
    rw [List.append_assoc] at happ
    exact happ.trans (hinsert.append_left _)
  · rw [hid]
    exact h.requested (List.mem_append_right _ hx)
  · rcases hmem hy with rfl | hy
    · obtain ⟨f, hf, rfl⟩ := List.mem_map.mp hx
      have hpast := h.past f hf
      refine before_of_le (by omega) ?_
      rw [hid]
      exact h.requested (List.mem_append_left _ (List.mem_append_left _ hx))
    · exact hcross x hx y hy
  · rcases hmem hx with rfl | hx
    · exact hdue ▸ Nat.le_add_right _ _
    · exact h.ahead x hx
  · rcases hmem hx with rfl | hx
    · exact hdue ▸ Nat.add_lt_add_left hmsecs _
    · exact h.near x hx
  · rw [List.length_append]
    rcases List.mem_append.mp hx with hx | hx
    · exact Nat.lt_succ_of_lt (h.ids x hx)
    · obtain rfl := List.mem_singleton.mp hx
      exact hid ▸ Nat.lt_succ_self _
  · rcases hmem hx with rfl | hx
    · exact htrack
    · exact h.onTrack x hx

theorem Kept.cancel [DecidableEq H] [DecidableEq A] (h : Kept a) (hd : H) (arg : A) :
    Kept (a.cancel hd arg) := by
  unfold Agenda.cancel
  dsimp only
  generalize (fun r : Request H A => decide ((r.h, r.arg) = (hd, arg))) = p
  have hsub {x : Request H A} (hx : x ∈ a.pending.eraseP p) : x ∈ a.pending :=
    List.mem_of_mem_eraseP hx
  refine ⟨?_, h.order.sublist (List.eraseP_sublist.append_left _), h.past,
    fun x hx => h.ahead x (hsub hx), fun x hx => h.near x (hsub hx), h.ids,
    fun x hx => h.onTrack x (hsub hx), h.onTime⟩
  have hperm := h.account.trans ((DeltaList.perm_eraseP p a.pending).append_left _)
  rwa [← List.append_assoc, List.append_assoc _ a.cancelled] at hperm

/-- Time passes, and at most the first timeout comes to its deadline. -/
theorem Kept.wait (h : Kept a) (clock : ℕ) (m : Meter) (hclock : a.clock ≤ clock)
    (hahead : ∀ x ∈ a.pending, clock ≤ x.due)
    (hearly : a.meter.ticks + a.meter.messages + clock ≤ m.ticks + m.messages + a.clock)
    (hlate : m.ticks + a.meter.lost + a.clock ≤ a.meter.ticks + m.lost + clock) :
    Kept { a with clock := clock, meter := m } where
  account := h.account
  order := h.order
  past f hf := (h.past f hf).trans hclock
  ahead := hahead
  near x hx := (h.near x hx).trans_le (Nat.add_le_add_right hclock _)
  ids := h.ids
  onTrack x hx := by
    obtain ⟨he, hl⟩ := h.onTrack x hx
    exact ⟨by dsimp only; omega, by dsimp only; omega⟩
  onTime := h.onTime

theorem Kept.fire (h : Kept a) (ha : a.pending = r :: rest) (hnow : r.due = a.clock) :
    Kept { a with pending := rest, fired := a.fired ++ [(r, a.meter)] } := by
  have hmem {x : Request H A} (hx : x ∈ rest) : x ∈ a.pending := ha ▸ List.mem_cons_of_mem _ hx
  have hr : r ∈ a.pending := ha ▸ List.mem_cons_self
  refine ⟨?_, ?_, fun f hf => ?_, fun x hx => h.ahead x (hmem hx), fun x hx => h.near x (hmem hx),
    h.ids, fun x hx => h.onTrack x (hmem hx), fun f hf => ?_⟩
  · have haccount := h.account
    rw [ha] at haccount
    rw [List.map_append, List.map_singleton, List.append_assoc, List.append_assoc]
    rw [List.append_assoc] at haccount
    exact haccount.trans (List.perm_middle.append_left _)
  · have horder := h.order
    rw [ha] at horder
    rwa [List.map_append, List.map_singleton, List.append_assoc]
  · rcases List.mem_append.mp hf with hf | hf
    · exact h.past f hf
    · obtain rfl := List.mem_singleton.mp hf
      exact hnow.le
  · rcases List.mem_append.mp hf with hf | hf
    · exact h.onTime f hf
    · obtain rfl := List.mem_singleton.mp hf
      have htrack := h.onTrack r hr
      rw [← hnow] at htrack
      exact htrack.onTime

theorem Kept.round (h : Kept a) {got : Bool} {e : ℕ}
    (hwait : got = false → ∀ r ∈ a.pending.head?, r.due ≤ a.clock + e) :
    Kept (a.round got e) := by
  unfold Agenda.round
  cases ha : a.pending with
  | nil =>
      have hnone : ∀ x ∈ a.pending, a.clock ≤ x.due := h.ahead
      have hkept := h.wait _ ⟨a.meter.ticks + e, a.meter.messages + 1, a.meter.lost + e⟩
        le_rfl hnone (by dsimp only; omega) (by dsimp only; omega)
      rwa [ha] at hkept
  | cons r rest =>
      have hr : r ∈ a.pending := ha ▸ List.mem_cons_self
      have hahead := h.ahead r hr
      have hfirst : ∀ x ∈ a.pending, r.due ≤ x.due := fun x hx => by
        have hpending := (List.pairwise_append.mp h.order).2.1
        rw [ha] at hpending hx
        rcases List.mem_cons.mp hx with rfl | hx
        · exact le_rfl
        · exact (List.rel_of_pairwise_cons hpending hx).le
      dsimp only
      split
      · next hnow => exact h.fire ha hnow
      · next hlater =>
        cases got with
        | true =>
            have hkept := h.wait (min (a.clock + max 1 e) r.due)
              ⟨a.meter.ticks + e, a.meter.messages + 1,
                a.meter.lost + (e - (r.due - a.clock))⟩ (by omega)
              (fun x hx => (Nat.min_le_right _ _).trans (hfirst x hx))
              (by dsimp only; omega) (by dsimp only; omega)
            rwa [ha] at hkept
        | false =>
            have hle := hwait rfl r (by rw [ha]; rfl)
            have hkept := h.wait _ ⟨a.meter.ticks + e, a.meter.messages + 0,
              a.meter.lost + (e - (r.due - a.clock))⟩ hahead hfirst (by dsimp only; omega)
              (by dsimp only; omega)
            exact hkept.fire ha rfl

/-! ## Runs -/

theorem agrees_idle : Agrees (idle (H := H) (A := A)).1 (idle (H := H) (A := A)).2 := ⟨rfl, rfl⟩

theorem kept_idle : Kept (idle (H := H) (A := A)).2 :=
  ⟨.refl _, .nil, nofun, nofun, nofun, nofun, nofun, nofun⟩

section

variable [DecidableEq H] [DecidableEq A]

theorem inv_step {s s' : Thread H A × Agenda H A} {e : Event H A}
    (h : Agrees s.1 s.2 ∧ Kept s.2) (hw : Waits s e) (he : step s e = some s') :
    Agrees s'.1 s'.2 ∧ Kept s'.2 := by
  obtain rfl := Option.some.inj he
  obtain ⟨hagrees, hkept⟩ := h
  cases e with
  | timeout mem msecs hd arg =>
      cases mem with
      | true => exact ⟨hagrees.request msecs hd arg, hkept.request msecs hd arg⟩
      | false => exact ⟨hagrees, hkept⟩
  | untimeout hd arg => exact ⟨hagrees.cancel hkept.near hd arg, hkept.cancel hd arg⟩
  | round got e =>
      refine ⟨hagrees.round hw, hkept.round ?_⟩
      rintro rfl r hr
      obtain ⟨rest, ha⟩ := List.head?_eq_some_iff.mp hr
      have hne := mt hagrees.nil.mp (by rw [ha]; exact List.cons_ne_nil _ _)
      obtain ⟨t, l, hs⟩ := List.exists_cons_of_ne_nil hne
      obtain ⟨hdue, -, -⟩ := hagrees.cons hs ha
      have htime := (le_of_waitTicks hw.1 hw.2).2
      rw [hs] at htime
      change t.time.toNat ≤ e at htime
      omega
  | work e =>
      exact ⟨⟨hagrees.called, hagrees.list⟩, hkept.wait _ _ le_rfl hkept.ahead
        (by dsimp only; omega) (by dsimp only; omega)⟩

theorem inv_of_reach {s : Thread H A × Agenda H A}
    (h : Runs.Reach step Waits (fun t => t = idle) s) : Agrees s.1 s.2 ∧ Kept s.2 :=
  h.invariant (fun _ ht => ht ▸ ⟨agrees_idle, kept_idle⟩) fun _ _ _ => inv_step

/-- In any run the handlers are called in the order of the deadlines, and of the requests where
they are the same; and each request has been called, or cancelled, or is on the list, once. -/
theorem called_in_order {s : Thread H A × Agenda H A}
    (h : Runs.Reach step Waits (fun t => t = idle) s) :
    s.1.called = s.2.fired.map (fun f => (f.1.h, f.1.arg)) ∧
      DeltaList.due s.2.clock (s.1.nextTimeout.map SysTimeo.entry) =
        s.2.pending.map Request.entry ∧
      s.2.requested.Perm (s.2.fired.map Prod.fst ++ s.2.cancelled ++ s.2.pending) ∧
      (s.2.fired.map Prod.fst ++ s.2.pending).Pairwise Before := by
  obtain ⟨hagrees, hkept⟩ := inv_of_reach h
  exact ⟨hagrees.called, hagrees.list, hkept.account, hkept.order⟩

/-- No handler is called too early, but for the tick that each message is counted for at least,
nor later than by the ticks that were lost. -/
theorem called_on_time {s : Thread H A × Agenda H A}
    (h : Runs.Reach step Waits (fun t => t = idle) s) :
    ∀ f ∈ s.2.fired, f.1.set.ticks + f.1.msecs + f.1.set.messages ≤ f.2.ticks + f.2.messages ∧
      f.2.ticks + f.1.set.lost ≤ f.1.set.ticks + f.1.msecs + f.2.lost := by
  intro f hf
  obtain ⟨hearly, hlate⟩ := (inv_of_reach h).2.onTime f hf
  exact ⟨hearly, hlate⟩

/-- Three requests, a message, and the cancelling of the last request, before the first one to
expire. -/
def expired : Thread ℕ ℕ × Agenda ℕ ℕ :=
  [Event.timeout true 5 1 0, .timeout true 3 2 0, .timeout true 5 3 0, .round true 2,
    .untimeout 3 0, .round false 1].foldl (fun s e => (s.1.after e, s.2.after e)) idle

theorem reach_expired : Runs.Reach step Waits (fun t => t = idle) expired := by
  have hstart : Runs.Reach step Waits (fun t => t = idle) (idle (H := ℕ) (A := ℕ)) := .start rfl
  have hset := ((hstart.step (e := Event.timeout true 5 1 0) trivial rfl).step
    (e := Event.timeout true 3 2 0) trivial rfl).step (e := Event.timeout true 5 3 0) trivial rfl
  have hmessage := hset.step (e := Event.round true 2) (by decide : 2 < 2 ^ 32 - 1) rfl
  have hcancel := hmessage.step (e := Event.untimeout 3 0) trivial rfl
  exact hcancel.step (e := Event.round false 1)
    (by decide : 0 < waitTicks 1 ∧ waitTicks 1 ≤ (1 : ℕ)) rfl

theorem called_in_order_expired :
    expired.1.called = expired.2.fired.map (fun f => (f.1.h, f.1.arg)) ∧
      DeltaList.due expired.2.clock (expired.1.nextTimeout.map SysTimeo.entry) =
        expired.2.pending.map Request.entry ∧
      expired.2.requested.Perm
        (expired.2.fired.map Prod.fst ++ expired.2.cancelled ++ expired.2.pending) ∧
      (expired.2.fired.map Prod.fst ++ expired.2.pending).Pairwise Before :=
  called_in_order reach_expired

theorem called_on_time_expired :
    ∃ f ∈ expired.2.fired, f.1.h = 2 ∧
      f.1.set.ticks + f.1.msecs + f.1.set.messages ≤ f.2.ticks + f.2.messages ∧
        f.2.ticks + f.1.set.lost ≤ f.1.set.ticks + f.1.msecs + f.2.lost :=
  ⟨_, List.mem_cons_self, rfl, called_on_time reach_expired _ List.mem_cons_self⟩

-- The first deadline is that of the second request.
example : expired.1.called = [(2, 0)] ∧ expired.1.nextTimeout.map SysTimeo.time = [2] := by decide

end

end Lwip

end LuojiOs
