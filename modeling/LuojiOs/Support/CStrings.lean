import LuojiOs.Support.Bytes

/-!
# Strings in memory

`Reads m a l` says that the bytes `l` stand in the memory `m` from the address `a` on.  A
sequence of strings is laid out one behind the other, each with a NUL at its end, and ends
with an empty string.
-/

namespace Bytes

variable {m m' : Bytes} {a b k n fuel : ℕ} {c : BitVec 8} {l l' s : List (BitVec 8)}
  {es : List (List (BitVec 8))}

/-! ## Bytes in a row -/

def Reads (m : Bytes) : ℕ → List (BitVec 8) → Prop
  | _, [] => True
  | a, c :: l => m a = c ∧ m.Reads (a + 1) l

theorem reads_append : m.Reads a (l ++ l') ↔ m.Reads a l ∧ m.Reads (a + l.length) l' := by
  induction l generalizing a with
  | nil => simp [Reads]
  | cons c l ih =>
      have hlen : a + (c :: l).length = a + 1 + l.length := by
        rw [List.length_cons]
        omega
      simp only [List.cons_append, Reads, ih, hlen, and_assoc]

theorem Reads.congr (h : m.Reads a l) (hm : ∀ i < l.length, m' (b + i) = m (a + i)) :
    m'.Reads b l := by
  induction l generalizing a b with
  | nil => trivial
  | cons c l ih =>
      refine ⟨(hm 0 (by simp)).trans h.1, ih h.2 ?_⟩
      intro i hi
      have := hm (i + 1) (by simpa using hi)
      rwa [Nat.add_right_comm a, Nat.add_right_comm b]

/-- The byte `c` is written to the address `a`. -/
def set (m : Bytes) (a : ℕ) (c : BitVec 8) : Bytes := fun x => if x = a then c else m x

@[simp] theorem set_self : m.set a c a = c := if_pos rfl

theorem set_of_ne {x : ℕ} (h : x ≠ a) : m.set a c x = m x := if_neg h

/-- The bytes `l` are written from the address `a` on. -/
def write (m : Bytes) (a : ℕ) (l : List (BitVec 8)) : Bytes :=
  fun x => if a ≤ x then (l[x - a]?).getD (m x) else m x

theorem write_of_outside {x : ℕ} (h : x < a ∨ a + l.length ≤ x) : m.write a l x = m x := by
  unfold write
  split
  · rw [List.getElem?_eq_none (by omega)]
    rfl
  · rfl

theorem write_of_inside {i : ℕ} (h : i < l.length) : m.write a l (a + i) = l[i] := by
  unfold write
  rw [if_pos (by omega), Nat.add_sub_cancel_left, List.getElem?_eq_getElem h]
  rfl

theorem write_cons : m.write a (c :: l) = (m.set a c).write (a + 1) l := by
  funext x
  unfold write
  rcases Nat.lt_trichotomy x a with h | rfl | h
  · rw [if_neg (by omega), if_neg (by omega), set_of_ne (by omega)]
  · rw [if_pos (Nat.le_refl x), if_neg (by omega), Nat.sub_self, set_self]
    rfl
  · obtain ⟨k, rfl⟩ := Nat.exists_eq_add_of_lt h
    rw [if_pos (by omega), if_pos (by omega), set_of_ne (by omega),
      show a + k + 1 - a = k + 1 by omega, show a + k + 1 - (a + 1) = k by omega,
      List.getElem?_cons_succ]

theorem reads_iff : m.Reads a l ↔ ∀ i (h : i < l.length), m (a + i) = l[i] := by
  induction l generalizing a with
  | nil => simp [Reads]
  | cons c l ih =>
      unfold Reads
      rw [ih]
      constructor
      · rintro ⟨hc, hl⟩ i hi
        cases i with
        | zero => exact hc
        | succ i =>
            have := hl i (by simpa using hi)
            rwa [Nat.add_right_comm] at this
      · intro h
        refine ⟨h 0 (by simp), ?_⟩
        intro i hi
        have := h (i + 1) (by simpa using hi)
        rw [Nat.add_right_comm]
        exact this

theorem reads_write : (m.write a l).Reads a l := by
  rw [reads_iff]
  intro i hi
  exact write_of_inside hi

theorem write_replicate : m.write a (List.replicate n c) = m.fill a c n := by
  funext x
  by_cases h : a ≤ x ∧ x < a + n
  · obtain ⟨i, rfl⟩ : ∃ i, x = a + i := ⟨x - a, by omega⟩
    rw [write_of_inside (by simp; omega), List.getElem_replicate]
    exact (if_pos h).symm
  · rw [write_of_outside (by simp; omega), fill_of_outside (by omega)]

/-- The `n` bytes from the address `a` on. -/
def slice (m : Bytes) (a n : ℕ) : List (BitVec 8) := (List.range n).map fun i => m (a + i)

theorem slice_of_reads (h : m.Reads a l) : m.slice a l.length = l := by
  apply List.ext_getElem
  · simp [slice]
  · intro i hi hl
    have hbyte := reads_iff.mp h i hl
    simpa [slice] using hbyte

/-! ## Strings -/

/-- `while (*ep++ != '\0');`: the address behind the next NUL. -/
def skipString (m : Bytes) : ℕ → ℕ → Option ℕ
  | 0, _ => none
  | fuel + 1, a => if m a = 0 then some (a + 1) else m.skipString fuel (a + 1)

theorem skipString_of_reads (h : m.Reads a (s ++ [0])) (hs : ∀ c ∈ s, c ≠ 0)
    (hf : s.length < fuel) : m.skipString fuel a = some (a + s.length + 1) := by
  induction s generalizing a fuel with
  | nil =>
      obtain ⟨fuel, rfl⟩ := Nat.exists_eq_succ_of_ne_zero (by omega : fuel ≠ 0)
      exact if_pos h.1
  | cons c s ih =>
      obtain ⟨fuel, rfl⟩ := Nat.exists_eq_succ_of_ne_zero (by omega : fuel ≠ 0)
      have hc : m a ≠ 0 := by
        rw [h.1]
        exact hs c List.mem_cons_self
      rw [List.length_cons] at hf
      have htail : m.skipString fuel (a + 1) = some (a + 1 + s.length + 1) :=
        ih h.2 (fun d hd => hs d (List.mem_cons_of_mem c hd)) (by omega)
      unfold skipString
      rw [if_neg hc, htail, List.length_cons]
      congr 1
      omega

/-- The walk may begin inside the string. -/
theorem skipString_of_mid (h : m.Reads a (s ++ [0])) (hs : ∀ c ∈ s, c ≠ 0) (hk : k ≤ s.length)
    (hf : s.length < fuel) : m.skipString fuel (a + k) = some (a + s.length + 1) := by
  have hlen : (s.take k).length = k := List.length_take_of_le hk
  rw [← List.take_append_drop k s, List.append_assoc, reads_append, hlen] at h
  have hdrop : m.skipString fuel (a + k) = some (a + k + (s.drop k).length + 1) := by
    apply skipString_of_reads h.2
    · intro c hc
      exact hs c (List.mem_of_mem_drop hc)
    · rw [List.length_drop]
      omega
  rw [hdrop, List.length_drop]
  congr 1
  omega

/-- The layout of the strings `es`, without the empty one behind them. -/
def layout (es : List (List (BitVec 8))) : List (BitVec 8) := es.flatMap (· ++ [0])

@[simp] theorem layout_nil : layout [] = [] := rfl

@[simp] theorem layout_cons : layout (s :: es) = s ++ (0 :: layout es) := by
  simp [layout]

@[simp] theorem layout_append {fs : List (List (BitVec 8))} :
    layout (es ++ fs) = layout es ++ layout fs := by
  simp [layout]

/-- The string at the address `a`. -/
def stringAt (m : Bytes) : ℕ → ℕ → List (BitVec 8)
  | 0, _ => []
  | fuel + 1, a => if m a = 0 then [] else m a :: m.stringAt fuel (a + 1)

/-- The strings from the address `a` on, up to the empty one. -/
def stringsAt (m : Bytes) : ℕ → ℕ → List (List (BitVec 8))
  | 0, _ => []
  | fuel + 1, a =>
    if m a = 0 then []
    else m.stringAt fuel a :: m.stringsAt fuel (a + (m.stringAt fuel a).length + 1)

theorem stringAt_of_reads (h : m.Reads a (s ++ [0])) (hs : ∀ c ∈ s, c ≠ 0)
    (hf : s.length ≤ fuel) : m.stringAt fuel a = s := by
  induction s generalizing a fuel with
  | nil =>
      cases fuel with
      | zero => rfl
      | succ fuel => exact if_pos h.1
  | cons c s ih =>
      obtain ⟨fuel, rfl⟩ := Nat.exists_eq_succ_of_ne_zero
        (show fuel ≠ 0 by rw [List.length_cons] at hf; omega)
      have hc : m a ≠ 0 := by
        rw [h.1]
        exact hs c List.mem_cons_self
      rw [List.length_cons] at hf
      have htail : m.stringAt fuel (a + 1) = s :=
        ih h.2 (fun d hd => hs d (List.mem_cons_of_mem c hd)) (by omega)
      unfold stringAt
      rw [if_neg hc, htail, h.1]

/-- Strings that are not empty and have no NUL in them. -/
def Strings (es : List (List (BitVec 8))) : Prop := ∀ s ∈ es, s ≠ [] ∧ ∀ c ∈ s, c ≠ 0

theorem stringsAt_of_reads (h : m.Reads a (layout es ++ [0])) (hes : Strings es)
    (hf : (layout es).length ≤ fuel) : m.stringsAt fuel a = es := by
  induction es generalizing a fuel with
  | nil =>
      cases fuel with
      | zero => rfl
      | succ fuel => exact if_pos h.1
  | cons s es ih =>
      obtain ⟨hne, hs⟩ := hes s List.mem_cons_self
      have hpos := List.length_pos_iff.mpr hne
      simp only [layout_cons, List.length_append, List.length_cons] at hf
      obtain ⟨fuel, rfl⟩ := Nat.exists_eq_succ_of_ne_zero (by omega : fuel ≠ 0)
      rw [layout_cons, List.append_assoc, List.cons_append] at h
      have hfirst : m.Reads a (s ++ [0]) := by
        rw [reads_append] at h ⊢
        exact ⟨h.1, h.2.1, trivial⟩
      have hrest : m.Reads (a + s.length + 1) (layout es ++ [0]) := by
        rw [reads_append] at h
        exact h.2.2
      have hc : m a ≠ 0 := by
        obtain ⟨c, t, rfl⟩ := List.exists_cons_of_ne_nil hne
        rw [hfirst.1]
        exact hs c List.mem_cons_self
      unfold stringsAt
      rw [if_neg hc, stringAt_of_reads hfirst hs (by omega),
        ih hrest (fun t ht => hes t (List.mem_cons_of_mem s ht)) (by omega)]

end Bytes
