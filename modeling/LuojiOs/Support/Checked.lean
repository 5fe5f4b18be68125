import LuojiOs.Support.CStrings

/-!
# Buffers with a bound

An access to a buffer of `n` bytes has a result only if it is inside the buffer.  So a run
with a result has made no access outside.
-/

namespace Bytes

variable {m : Bytes} {n x a fuel : ℕ} {c : BitVec 8} {l s : List (BitVec 8)}

/-- The byte at `x` of a buffer of `n` bytes. -/
def getIn (m : Bytes) (n x : ℕ) : Option (BitVec 8) := if x < n then some (m x) else none

/-- A buffer of `n` bytes, after the byte `c` is written to `x`. -/
def setIn (m : Bytes) (n x : ℕ) (c : BitVec 8) : Option Bytes :=
  if x < n then some (m.set x c) else none

/-- The string at `x` of a buffer of `n` bytes; there is none if its NUL is not inside. -/
def stringIn (m : Bytes) (n : ℕ) : ℕ → ℕ → Option (List (BitVec 8))
  | 0, _ => none
  | fuel + 1, x => do
    let c ← m.getIn n x
    if c = 0 then return [] else return c :: (← m.stringIn n fuel (x + 1))

/-- The bytes `l` are written from `x` on, one after the other. -/
def writeIn (m : Bytes) (n : ℕ) : ℕ → List (BitVec 8) → Option Bytes
  | _, [] => some m
  | x, c :: l => do
    let m ← m.setIn n x c
    m.writeIn n (x + 1) l

/-- `strcat`, to the string at the beginning of a buffer of `n` bytes. -/
def strcat (m : Bytes) (n : ℕ) (src : List (BitVec 8)) : Option Bytes := do
  let dst ← m.stringIn n n 0
  m.writeIn n dst.length (src ++ [0])

theorem getIn_of_lt (h : x < n) : m.getIn n x = some (m x) := if_pos h

theorem setIn_of_lt (h : x < n) : m.setIn n x c = some (m.set x c) := if_pos h

theorem stringIn_of_reads (h : m.Reads x (s ++ [0])) (hs : ∀ c ∈ s, c ≠ 0)
    (hx : x + s.length < n) (hf : s.length < fuel) : m.stringIn n fuel x = some s := by
  induction s generalizing x fuel with
  | nil =>
      obtain ⟨fuel, rfl⟩ := Nat.exists_eq_succ_of_ne_zero (by omega : fuel ≠ 0)
      have hget : m.getIn n x = some 0 := by
        rw [getIn_of_lt (by omega), h.1]
      unfold stringIn
      rw [hget]
      rfl
  | cons c s ih =>
      rw [List.length_cons] at hx hf
      obtain ⟨fuel, rfl⟩ := Nat.exists_eq_succ_of_ne_zero (by omega : fuel ≠ 0)
      have hget : m.getIn n x = some c := by
        rw [getIn_of_lt (by omega), h.1]
      have htail : m.stringIn n fuel (x + 1) = some s :=
        ih h.2 (fun d hd => hs d (List.mem_cons_of_mem c hd)) (by omega) (by omega)
      unfold stringIn
      rw [hget, Option.bind_eq_bind, Option.bind_some, if_neg (hs c List.mem_cons_self), htail]
      rfl

/-- A NUL at the end of the buffer ends every string in it. -/
theorem exists_stringIn (hend : m n = 0) (hx : x ≤ n) (hf : n - x < fuel) :
    ∃ s, m.stringIn (n + 1) fuel x = some s := by
  induction fuel generalizing x with
  | zero => exact absurd hf (Nat.not_lt_zero _)
  | succ fuel ih =>
      unfold stringIn
      rw [getIn_of_lt (by omega), Option.bind_eq_bind, Option.bind_some]
      by_cases hc : m x = 0
      · rw [if_pos hc]
        exact ⟨[], rfl⟩
      · have hne : x ≠ n := by
          rintro rfl
          exact hc hend
        obtain ⟨s, hs⟩ := ih (x := x + 1) (by omega) (by omega)
        rw [if_neg hc, hs]
        exact ⟨m x :: s, rfl⟩

theorem write_nil : m.write a [] = m := by
  funext x
  exact write_of_outside (by simp only [List.length_nil]; omega)

theorem writeIn_of_le (h : x + l.length ≤ n) : m.writeIn n x l = some (m.write x l) := by
  induction l generalizing m x with
  | nil => rw [write_nil]; rfl
  | cons c l ih =>
      rw [List.length_cons] at h
      unfold writeIn
      rw [setIn_of_lt (by omega), Option.bind_eq_bind, Option.bind_some, ih (by omega),
        write_cons]

theorem writeIn_of_lt (hx : x ≤ n) (h : n < x + l.length) : m.writeIn n x l = none := by
  induction l generalizing m x with
  | nil =>
      rw [List.length_nil] at h
      omega
  | cons c l ih =>
      rw [List.length_cons] at h
      unfold writeIn setIn
      by_cases hlt : x < n
      · rw [if_pos hlt, Option.bind_eq_bind, Option.bind_some, ih (by omega) (by omega)]
      · rw [if_neg hlt]
        rfl

/-! ## Strings in a buffer -/

/-- The buffer `m` holds the string `s`. -/
structure HoldsString (m : Bytes) (s : List (BitVec 8)) : Prop where
  reads : m.Reads 0 (s ++ [0])
  clean : ∀ c ∈ s, c ≠ 0

theorem HoldsString.stringIn (h : m.HoldsString s) (hs : s.length < n) :
    m.stringIn n n 0 = some s :=
  stringIn_of_reads h.reads h.clean (by omega) hs

theorem holdsString_write (h : m.HoldsString s) (hl : ∀ c ∈ l, c ≠ 0) :
    (m.write s.length (l ++ [0])).HoldsString (s ++ l) where
  reads := by
    rw [List.append_assoc, reads_append, Nat.zero_add]
    refine ⟨(reads_append.mp h.reads).1.congr fun i hi => ?_, reads_write⟩
    exact write_of_outside (by omega)
  clean := by
    intro c hc
    exact (List.mem_append.mp hc).elim (h.clean c) (hl c)

/-- `strcat` stays inside if both strings and a NUL fit. -/
theorem HoldsString.strcat (h : m.HoldsString s) (hl : ∀ c ∈ l, c ≠ 0)
    (hfit : s.length + l.length < n) :
    ∃ m', m.strcat n l = some m' ∧ m'.HoldsString (s ++ l) := by
  refine ⟨_, ?_, holdsString_write h hl⟩
  unfold Bytes.strcat
  rw [h.stringIn (by omega), Option.bind_eq_bind, Option.bind_some]
  apply writeIn_of_le
  rw [List.length_append, List.length_singleton]
  omega

/-- A result of `strcat` means that both strings and a NUL fit. -/
theorem HoldsString.of_strcat {m' : Bytes} (h : m.HoldsString s) (hs : s.length < n)
    (hl : ∀ c ∈ l, c ≠ 0) (hrun : m.strcat n l = some m') :
    s.length + l.length < n ∧ m'.HoldsString (s ++ l) := by
  by_cases hfit : s.length + l.length < n
  · obtain ⟨m'', hm, hm''⟩ := h.strcat hl hfit
    obtain rfl := Option.some.inj (hm.symm.trans hrun)
    exact ⟨hfit, hm''⟩
  · unfold Bytes.strcat at hrun
    rw [h.stringIn hs, Option.bind_eq_bind, Option.bind_some, writeIn_of_lt (by omega)] at hrun
    · cases hrun
    · rw [List.length_append, List.length_singleton]
      omega

/-- A byte is written behind the bytes `l`. -/
theorem Reads.set_end (h : m.Reads a l) : (m.set (a + l.length) c).Reads a (l ++ [c]) := by
  rw [reads_append]
  constructor
  · apply h.congr
    intro i hi
    exact set_of_ne (by omega)
  · exact ⟨set_self, trivial⟩

end Bytes
