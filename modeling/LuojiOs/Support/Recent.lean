import Mathlib.Data.List.Destutter
import Mathlib.Data.List.DropRight

/-!
# The last values of a stream

A window of fixed length over a stream in which a value that repeats the one before it is left
out, and how the window changes when the stream goes on.
-/

namespace Recent

variable {α : Type*} {xs : List α} {a b : α} {n : ℕ}

theorem getLast?_rtake (hn : 0 < n) : (xs.rtake n).getLast? = xs.getLast? := by
  unfold List.rtake
  rw [List.getLast?_drop]
  split
  · next hle =>
    have hnil : xs = [] := List.length_eq_zero_iff.mp (by omega)
    rw [hnil]
    rfl
  · rfl

/-- A window that is not full keeps all its values, and a full one loses the oldest. -/
theorem rtake_eq_tail : xs.rtake n =
    if (xs.rtake (n + 1)).length < n + 1 then xs.rtake (n + 1) else (xs.rtake (n + 1)).tail := by
  unfold List.rtake
  rw [List.length_drop, List.tail_drop]
  split
  · next hlt =>
    have hnone : xs.length - n = xs.length - (n + 1) := by omega
    rw [hnone]
  · next hge =>
    have hone : xs.length - n = xs.length - (n + 1) + 1 := by omega
    rw [hone]

section Repetitions

variable [DecidableEq α]

/-- The last `n` values of `xs` without the repetitions. -/
def recent (n : ℕ) (xs : List α) : List α := (xs.destutter (· ≠ ·)).rtake n

theorem destutter'_concat : (xs ++ [a]).destutter' (· ≠ ·) b =
    if (xs.destutter' (· ≠ ·) b).getLast? = some a then xs.destutter' (· ≠ ·) b
    else xs.destutter' (· ≠ ·) b ++ [a] := by
  induction xs generalizing b with
  | nil =>
      rw [List.nil_append, List.destutter'_singleton, List.destutter'_nil]
      by_cases hba : b = a
      · rw [if_neg (not_not.mpr hba), if_pos (by rw [hba]; rfl)]
      · have hlast : [b].getLast? ≠ some a := fun h => hba (Option.some_inj.mp h)
        rw [if_pos hba, if_neg hlast]
        rfl
  | cons c xs ih =>
      rw [List.cons_append]
      by_cases hbc : b ≠ c
      · have hlast : (b :: xs.destutter' (· ≠ ·) c).getLast? =
            (xs.destutter' (· ≠ ·) c).getLast? := by
          rw [List.getLast?_cons, List.getLast?_eq_some_getLast (List.destutter'_ne_nil _ _)]
          rfl
        rw [List.destutter'_cons_pos _ hbc, List.destutter'_cons_pos _ hbc, ih, hlast]
        split
        · rfl
        · rfl
      · rw [List.destutter'_cons_neg _ hbc, List.destutter'_cons_neg _ hbc, ih]

/-- A value at the end is left out if it is the last one already. -/
theorem destutter_concat : (xs ++ [a]).destutter (· ≠ ·) =
    if (xs.destutter (· ≠ ·)).getLast? = some a then xs.destutter (· ≠ ·)
    else xs.destutter (· ≠ ·) ++ [a] := by
  cases xs with
  | nil => rfl
  | cons b xs => exact destutter'_concat

theorem recent_concat : recent (n + 1) (xs ++ [a]) =
    if (recent (n + 1) xs).getLast? = some a then recent (n + 1) xs
    else if (recent (n + 1) xs).length < n + 1 then recent (n + 1) xs ++ [a]
    else (recent (n + 1) xs).tail ++ [a] := by
  unfold recent
  rw [destutter_concat, getLast?_rtake (Nat.succ_pos n)]
  by_cases hlast : (xs.destutter (· ≠ ·)).getLast? = some a
  · rw [if_pos hlast, if_pos hlast]
  · rw [if_neg hlast, if_neg hlast, List.rtake_concat_succ, rtake_eq_tail]
    split
    · rfl
    · rfl

theorem mem_of_mem_recent (h : a ∈ recent n xs) : a ∈ xs :=
  (List.destutter_sublist _ xs).subset (List.mem_of_mem_drop h)

end Repetitions

end Recent
