import LuojiOs.Support.Checked

/-!
# Spans

A loop that walks over the bytes with a property, and stops at the end of its buffer at the
latest, covers a span of them.
-/

namespace Bytes

/-- The `k` bytes from `p` on have the property `P`, and the next one does not or is the
end `n` of the buffer. -/
structure Span (P : BitVec 8 → Prop) (m : Bytes) (n p k : ℕ) : Prop where
  le : p + k ≤ n
  inside : ∀ i < k, P (m (p + i))
  stop : p + k < n → ¬P (m (p + k))

variable {P : BitVec 8 → Prop} {m m' : Bytes} {n p k l : ℕ} {c : BitVec 8}
  {s t : List (BitVec 8)}

theorem span_zero (hp : p ≤ n) (h : p < n → ¬P (m p)) : Span P m n p 0 :=
  ⟨hp, nofun, h⟩

theorem Span.succ (h : Span P m n (p + 1) k) (hp : P (m p)) : Span P m n p (k + 1) where
  le := by
    have := h.le
    omega
  inside := by
    intro i hi
    cases i with
    | zero => exact hp
    | succ i =>
        have := h.inside i (by omega)
        rwa [Nat.add_right_comm, Nat.add_assoc] at this
  stop := by
    intro hlt
    have hstop := h.stop (by omega)
    rwa [Nat.add_right_comm, Nat.add_assoc] at hstop

theorem Span.tail (h : Span P m n p (k + 1)) : Span P m n (p + 1) k where
  le := by
    have := h.le
    omega
  inside := by
    intro i hi
    have := h.inside (i + 1) (Nat.succ_lt_succ hi)
    rwa [Nat.add_right_comm, Nat.add_assoc]
  stop := by
    intro hlt
    have hstop := h.stop (by omega)
    rwa [Nat.add_right_comm, Nat.add_assoc]

/-- Only the bytes from `p` on matter. -/
theorem Span.congr (h : Span P m n p k) (hm : ∀ x, p ≤ x → m' x = m x) : Span P m' n p k where
  le := h.le
  inside := by
    intro i hi
    rw [hm _ (by omega)]
    exact h.inside i hi
  stop := by
    intro hlt
    rw [hm _ (by omega)]
    exact h.stop hlt

/-- A span has one length. -/
theorem Span.unique (hk : Span P m n p k) (hl : Span P m n p l) : k = l := by
  rcases Nat.lt_trichotomy k l with h | h | h
  · have hle := hl.le
    exact absurd (hl.inside k h) (hk.stop (by omega))
  · exact h
  · have hle := hk.le
    exact absurd (hk.inside l h) (hl.stop (by omega))

/-- The span is the text `s`, which ends at a byte without the property or at the end. -/
theorem span_of_reads (h : m.Reads p (s ++ t)) (hs : ∀ c ∈ s, P c)
    (ht : ∀ c, t.head? = some c → ¬P c) (hn : p + s.length + t.length = n) :
    Span P m n p s.length where
  le := by omega
  inside := by
    intro i hi
    have hbyte := reads_iff.mp (reads_append.mp h).1 i hi
    rw [hbyte]
    exact hs _ (List.getElem_mem hi)
  stop := by
    intro hlt
    cases t with
    | nil =>
        rw [List.length_nil] at hn
        omega
    | cons c t =>
        rw [(reads_append.mp h).2.1]
        exact ht c rfl

/-- Filling one byte more. -/
theorem fill_succ : (m.set p c).fill (p + 1) c k = m.fill p c (k + 1) := by
  funext x
  unfold fill set
  by_cases hx : x = p
  · subst hx
    rw [if_neg (by omega), if_pos rfl, if_pos (by omega)]
  · by_cases hin : p + 1 ≤ x ∧ x < p + 1 + k
    · rw [if_pos hin, if_pos (by omega)]
    · rw [if_neg hin, if_neg hx, if_neg (by omega)]

theorem fill_zero : m.fill p c 0 = m := by
  funext x
  exact fill_of_outside (by omega)

theorem fill_of_inside {i : ℕ} (h : i < k) : m.fill p c k (p + i) = c := by
  unfold fill
  rw [if_pos (by omega)]

end Bytes
