import LuojiOs.Support.DeltaList
import LuojiOs.Support.Runs
import Mathlib.Algebra.Order.Ring.Nat

/-!
# The timeouts of the network thread

`timers.c` with `sys_arch_mbox_fetch` of `sys_arch.c`: the list of the timeouts, each with the
time from the one before, of which the first is counted down while `tcpip_thread` waits for a
message.  A handler `NULL`, which is only not called, is one of the handlers.
-/

namespace LuojiOs

namespace Lwip

variable {H A : Type}

/-- `struct sys_timeo` -/
structure SysTimeo (H A : Type) where
  time : BitVec 32
  h : H
  arg : A

/-- The loop of `sys_timeout`, at the entry `t`. -/
def insertFrom (timeout t : SysTimeo H A) : List (SysTimeo H A) → List (SysTimeo H A)
  | [] => [t, { timeout with time := timeout.time - t.time }]
  | next :: l =>
    let timeout := { timeout with time := timeout.time - t.time }
    if timeout.time < next.time then
      t :: timeout :: { next with time := next.time - timeout.time } :: l
    else t :: insertFrom timeout next l

/-- `sys_timeout`, where `mem` is whether the pool has an entry. -/
def sysTimeout (mem : Bool) (msecs : BitVec 32) (h : H) (arg : A) (l : List (SysTimeo H A)) :
    List (SysTimeo H A) :=
  if mem then
    match l with
    | [] => [⟨msecs, h, arg⟩]
    | t :: rest =>
      if msecs < t.time then ⟨msecs, h, arg⟩ :: { t with time := t.time - msecs } :: rest
      else insertFrom ⟨msecs, h, arg⟩ t rest
  else l

/-- The time of an entry that is taken out is added to the next one. -/
def unlink (time : BitVec 32) : List (SysTimeo H A) → List (SysTimeo H A)
  | [] => []
  | t :: l => { t with time := t.time + time } :: l

def sysUntimeout [DecidableEq H] [DecidableEq A] (h : H) (arg : A) :
    List (SysTimeo H A) → List (SysTimeo H A)
  | [] => []
  | t :: l => if t.h = h ∧ t.arg = arg then unlink t.time l else t :: sysUntimeout h arg l

/-! ## Waiting -/

def rtTickPerSecond : ℕ := 1000

/-- `SYS_ARCH_TIMEOUT` -/
def sysArchTimeout : BitVec 32 := 0xffffffff

/-- For how many ticks `sys_arch_mbox_fetch` waits.  A negative number is for ever. -/
def waitTicks (timeout : BitVec 32) : ℤ :=
  if timeout = 0 then -1
  else if timeout < BitVec.ofNat 32 (1000 / rtTickPerSecond) then 1
  else (timeout / BitVec.ofNat 32 (1000 / rtTickPerSecond)).toInt

/-- What `sys_arch_mbox_fetch` returns after `e` ticks: has `rt_mb_recv` got a message? -/
def sysArchMboxFetch (got : Bool) (e : ℕ) : BitVec 32 :=
  if got then
    let tick := BitVec.ofNat 32 e * BitVec.ofNat 32 (1000 / rtTickPerSecond)
    if tick = 0 then 1 else tick
  else sysArchTimeout

/-- What the next round of `sys_timeouts_mbox_fetch` would wait for. -/
def firstTime : List (SysTimeo H A) → BitVec 32
  | [] => 0
  | t :: _ => t.time

/-- A round of `sys_timeouts_mbox_fetch`, with the handler that it calls. -/
def fetchRound (got : Bool) (e : ℕ) :
    List (SysTimeo H A) → List (SysTimeo H A) × Option (H × A)
  | [] => ([], none)
  | t :: l =>
    let timeNeeded := if 0 < t.time then sysArchMboxFetch got e else sysArchTimeout
    if timeNeeded = sysArchTimeout then (l, some (t.h, t.arg))
    else if timeNeeded < t.time then ({ t with time := t.time - timeNeeded } :: l, none)
    else ({ t with time := 0 } :: l, none)

/-! ## The list as deadlines -/

def SysTimeo.entry (t : SysTimeo H A) : ℕ × H × A := (t.time.toNat, t.h, t.arg)

theorem insertFrom_eq {timeout t : SysTimeo H A} (h : t.time ≤ timeout.time)
    (l : List (SysTimeo H A)) :
    (insertFrom timeout t l).map SysTimeo.entry =
      DeltaList.insert timeout.time.toNat (timeout.h, timeout.arg)
        ((t :: l).map SysTimeo.entry) := by
  induction l generalizing timeout t with
  | nil =>
      rw [List.map_singleton, SysTimeo.entry, DeltaList.insert_of_le h,
        ← BitVec.toNat_sub_of_le h]
      rfl
  | cons next l ih =>
      rw [List.map_cons, SysTimeo.entry, DeltaList.insert_of_le h, ← BitVec.toNat_sub_of_le h,
        List.map_cons, SysTimeo.entry, insertFrom]
      dsimp only
      split
      · next hlt =>
        rw [DeltaList.insert_of_lt hlt, ← BitVec.toNat_sub_of_le (BitVec.le_of_lt hlt)]
        rfl
      · next hle =>
        rw [List.map_cons, ih (BitVec.not_lt.mp hle)]
        rfl

/-- The subtractions of `sys_timeout` do not wrap. -/
theorem sysTimeout_eq (msecs : BitVec 32) (h : H) (arg : A) (l : List (SysTimeo H A)) :
    (sysTimeout true msecs h arg l).map SysTimeo.entry =
      DeltaList.insert msecs.toNat (h, arg) (l.map SysTimeo.entry) := by
  cases l with
  | nil => rfl
  | cons t rest =>
      change (if msecs < t.time then _ else insertFrom ⟨msecs, h, arg⟩ t rest).map _ = _
      split
      · next hlt =>
        have hcons : (t :: rest).map SysTimeo.entry =
          (t.time.toNat, t.h, t.arg) :: rest.map SysTimeo.entry := rfl
        rw [hcons, DeltaList.insert_of_lt hlt, ← BitVec.toNat_sub_of_le (BitVec.le_of_lt hlt)]
        rfl
      · next hle => exact insertFrom_eq (BitVec.not_lt.mp hle) rest

theorem unlink_eq {time : BitVec 32} {l : List (SysTimeo H A)}
    (h : ∀ t ∈ l.head?, t.time.toNat + time.toNat < 2 ^ 32) :
    (unlink time l).map SysTimeo.entry =
      DeltaList.push time.toNat (l.map SysTimeo.entry) := by
  cases l with
  | nil => rfl
  | cons t l =>
      have hcons : (t :: l).map SysTimeo.entry =
        (t.time.toNat, t.h, t.arg) :: l.map SysTimeo.entry := rfl
      rw [hcons, DeltaList.push, ← BitVec.toNat_add_of_lt (h t rfl)]
      rfl

/-- Nor does the addition of `sys_untimeout`, if no deadline is too far away. -/
theorem sysUntimeout_eq [DecidableEq H] [DecidableEq A] (h : H) (arg : A) {base : ℕ}
    {l : List (SysTimeo H A)}
    (hnear : ∀ a ∈ DeltaList.due base (l.map SysTimeo.entry), a.1 < base + 2 ^ 32) :
    (sysUntimeout h arg l).map SysTimeo.entry =
      DeltaList.erase (fun a => decide (a = (h, arg))) (l.map SysTimeo.entry) := by
  induction l generalizing base with
  | nil => rfl
  | cons t l ih =>
      have hcons : (t :: l).map SysTimeo.entry =
        (t.time.toNat, t.h, t.arg) :: l.map SysTimeo.entry := rfl
      have hiff : ((t.h, t.arg) = (h, arg)) ↔ t.h = h ∧ t.arg = arg := Prod.mk_inj
      rw [hcons, DeltaList.due_cons] at hnear
      rw [hcons, DeltaList.erase, sysUntimeout]
      by_cases hmatch : t.h = h ∧ t.arg = arg
      · rw [if_pos hmatch, if_pos (decide_eq_true (hiff.mpr hmatch))]
        refine unlink_eq fun next hnext => ?_
        obtain ⟨rest, rfl⟩ := List.head?_eq_some_iff.mp hnext
        have hlt := hnear _ (List.mem_cons_of_mem _ List.mem_cons_self)
        dsimp only [SysTimeo.entry] at hlt
        omega
      · rw [if_neg hmatch, if_neg (mt of_decide_eq_true (mt hiff.mp hmatch)), List.map_cons]
        have hrest : ∀ a ∈ DeltaList.due (base + t.time.toNat) (l.map SysTimeo.entry),
            a.1 < base + t.time.toNat + 2 ^ 32 := fun a ha =>
          (hnear a (List.mem_cons_of_mem _ ha)).trans_le
            (Nat.add_le_add_right (Nat.le_add_right _ _) _)
        rw [ih hrest]
        rfl

/-! ## A round -/

theorem sysArchMboxFetch_got {e : ℕ} (he : e < 2 ^ 32 - 1) :
    (sysArchMboxFetch true e).toNat = max 1 e := by
  have htick : BitVec.ofNat 32 e * BitVec.ofNat 32 (1000 / rtTickPerSecond) =
      BitVec.ofNat 32 e := BitVec.mul_one _
  rw [sysArchMboxFetch, if_pos rfl, htick]
  dsimp only
  split
  · next hzero =>
    have hnat := congrArg BitVec.toNat hzero
    rw [BitVec.toNat_ofNat] at hnat
    change e % 2 ^ 32 = 0 at hnat
    change 1 = max 1 e
    omega
  · next hne =>
    have hpos : e ≠ 0 := fun hzero => hne (by rw [hzero]; rfl)
    rw [BitVec.toNat_ofNat]
    omega

theorem fetchRound_fires {t : SysTimeo H A} {got : Bool} (h : t.time = 0 ∨ got = false) (e : ℕ)
    (l : List (SysTimeo H A)) : fetchRound got e (t :: l) = (l, some (t.h, t.arg)) := by
  have hneeded : (if 0 < t.time then sysArchMboxFetch got e else sysArchTimeout) =
      sysArchTimeout := by
    rcases h with hzero | rfl
    · rw [hzero, if_neg (BitVec.lt_irrefl _)]
    · exact ite_self _
  exact if_pos hneeded

theorem fetchRound_passes {t : SysTimeo H A} {e : ℕ} (h : t.time ≠ 0) (he : e < 2 ^ 32 - 1)
    (l : List (SysTimeo H A)) :
    (fetchRound true e (t :: l)).1.map SysTimeo.entry =
        DeltaList.pass (max 1 e) ((t :: l).map SysTimeo.entry) ∧
      (fetchRound true e (t :: l)).2 = none := by
  have hgot := sysArchMboxFetch_got he
  have hcons : (t :: l).map SysTimeo.entry =
    (t.time.toNat, t.h, t.arg) :: l.map SysTimeo.entry := rfl
  have hne : sysArchMboxFetch true e ≠ sysArchTimeout := fun heq => by
    rw [heq] at hgot
    change 2 ^ 32 - 1 = max 1 e at hgot
    omega
  have hpos : 0 < t.time := Nat.pos_of_ne_zero fun hzero => h (BitVec.eq_of_toNat_eq hzero)
  unfold fetchRound
  dsimp only
  rw [if_pos hpos, if_neg hne, hcons, DeltaList.pass]
  split
  · next hlt =>
    rw [← hgot, ← BitVec.toNat_sub_of_le (BitVec.le_of_lt hlt)]
    exact ⟨rfl, rfl⟩
  · next hle =>
    have hle : t.time.toNat ≤ (sysArchMboxFetch true e).toNat := BitVec.not_lt.mp hle
    rw [hgot] at hle
    rw [Nat.sub_eq_zero_of_le hle]
    exact ⟨rfl, rfl⟩

end Lwip

end LuojiOs
