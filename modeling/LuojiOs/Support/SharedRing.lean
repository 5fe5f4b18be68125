import LuojiOs.Support.RingBuffer
import Mathlib.Order.Interval.Finset.Nat

/-!
# Rings that two sides share

One side fills the slots of a ring and takes them out again, the other side deals with them in
between, and each slot says whose it is.  The three hands are counted without going around: the
slots from `taken` to `closed` are dealt with, those up to `filled` wait for the other side, and the
rest of the ring is empty.
-/

namespace SharedRing

variable {σ : Type*} {size taken closed filled p : ℕ}

/-- What the slots are like, with the position that each of them stands for. -/
structure Holds (size : ℕ) (slots : ℕ → σ) (dealt waiting : ℕ → σ → Prop) (free : ℕ → σ → Prop)
    (taken closed filled : ℕ) : Prop where
  taken_le : taken ≤ closed
  closed_le : closed ≤ filled
  filled_le : filled ≤ taken + size
  dealt : ∀ p, taken ≤ p → p < closed → dealt p (slots (p % size))
  waiting : ∀ p, closed ≤ p → p < filled → waiting p (slots (p % size))
  free : ∀ p, filled ≤ p → p < taken + size → free (p % size) (slots (p % size))

/-- Positions of one round have slots of their own. -/
theorem slot_ne {q : ℕ} (hp : taken ≤ p) (hq : taken ≤ q) (hp' : p < taken + size)
    (hq' : q < taken + size) (h : p ≠ q) : p % size ≠ q % size := fun he =>
  h (Nat.mod_injOn_Ico taken size (by simp [hp, hp']) (by simp [hq, hq']) he)

theorem succ_mod (hsize : 0 < size) (p : ℕ) :
    (p + 1) % size = if p % size = size - 1 then 0 else p % size + 1 := by
  have hlt := Nat.mod_lt p hsize
  rw [← Nat.mod_add_mod, ← RingBuffer.next_eq_mod hlt, RingBuffer.next]
  have hiff : size ≤ p % size + 1 ↔ p % size = size - 1 := by omega
  rw [if_congr hiff rfl rfl]

variable {slots : ℕ → σ} {dealt waiting free : ℕ → σ → Prop}

/-- A free slot is filled. -/
theorem Holds.fill (h : Holds size slots dealt waiting free taken closed filled)
    (hroom : filled < taken + size) {v : σ} (hv : waiting filled v) :
    Holds size (Function.update slots (filled % size) v) dealt waiting free taken closed
      (filled + 1) := by
  have hle := h.taken_le
  have hle' := h.closed_le
  have hother {q : ℕ} (hq : taken ≤ q) (hq' : q < taken + size) (hne : q ≠ filled) :
      Function.update slots (filled % size) v (q % size) = slots (q % size) :=
    Function.update_of_ne (slot_ne hq (by omega) hq' hroom hne) _ _
  refine ⟨hle, by omega, hroom, fun q hq hq' => ?_, fun q hq hq' => ?_, fun q hq hq' => ?_⟩
  · rw [hother hq (by omega) (by omega)]
    exact h.dealt q hq hq'
  · by_cases hlast : q = filled
    · rw [hlast, Function.update_self]
      exact hv
    · rw [hother (by omega) (by omega) hlast]
      exact h.waiting q hq (by omega)
  · rw [hother (by omega) hq' (by omega)]
    exact h.free q (by omega) hq'

/-- The other side deals with its next slot. -/
theorem Holds.close (h : Holds size slots dealt waiting free taken closed filled)
    (hsome : closed < filled) {v : σ} (hv : dealt closed v) :
    Holds size (Function.update slots (closed % size) v) dealt waiting free taken (closed + 1)
      filled := by
  have hle := h.taken_le
  have hle' := h.filled_le
  have hother {q : ℕ} (hq : taken ≤ q) (hq' : q < taken + size) (hne : q ≠ closed) :
      Function.update slots (closed % size) v (q % size) = slots (q % size) :=
    Function.update_of_ne (slot_ne hq hle hq' (by omega) hne) _ _
  refine ⟨by omega, hsome, hle', fun q hq hq' => ?_, fun q hq hq' => ?_, fun q hq hq' => ?_⟩
  · by_cases hlast : q = closed
    · rw [hlast, Function.update_self]
      exact hv
    · rw [hother hq (by omega) hlast]
      exact h.dealt q hq (by omega)
  · rw [hother (by omega) (by omega) (by omega)]
    exact h.waiting q (by omega) hq'
  · rw [hother (by omega) hq' (by omega)]
    exact h.free q hq hq'

/-- The first slot that is dealt with becomes free. -/
theorem Holds.take (h : Holds size slots dealt waiting free taken closed filled)
    (hsome : taken < closed) {v : σ} (hv : free (taken % size) v) :
    Holds size (Function.update slots (taken % size) v) dealt waiting free (taken + 1) closed
      filled := by
  have hle := h.closed_le
  have hle' := h.filled_le
  have hother {q : ℕ} (hq : taken ≤ q) (hq' : q < taken + size) (hne : q ≠ taken) :
      Function.update slots (taken % size) v (q % size) = slots (q % size) :=
    Function.update_of_ne (slot_ne hq le_rfl hq' (by omega) hne) _ _
  refine ⟨hsome, hle, by omega, fun q hq hq' => ?_, fun q hq hq' => ?_, fun q hq hq' => ?_⟩
  · rw [hother (by omega) (by omega) (by omega)]
    exact h.dealt q (by omega) hq'
  · rw [hother (by omega) (by omega) (by omega)]
    exact h.waiting q hq hq'
  · by_cases hlast : q = taken + size
    · rw [hlast, Nat.add_mod_right, Function.update_self]
      exact hv
    · rw [hother (by omega) (by omega) (by omega)]
      exact h.free q hq (by omega)

/-- What is said of the slots may be weakened where it matters. -/
theorem Holds.mono {dealt' waiting' : ℕ → σ → Prop}
    (h : Holds size slots dealt waiting free taken closed filled)
    (hdealt : ∀ p v, taken ≤ p → p < closed → dealt p v → dealt' p v)
    (hwaiting : ∀ p v, closed ≤ p → p < filled → waiting p v → waiting' p v) :
    Holds size slots dealt' waiting' free taken closed filled :=
  ⟨h.taken_le, h.closed_le, h.filled_le, fun p hp hp' => hdealt p _ hp hp' (h.dealt p hp hp'),
    fun p hp hp' => hwaiting p _ hp hp' (h.waiting p hp hp'), h.free⟩

end SharedRing
