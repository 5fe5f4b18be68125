import LuojiOs.Support.CStrings
import Mathlib.Data.List.Forall2

/-!
# Tables of strings

A table of strings is a row of pointers and, somewhere behind it, the strings themselves, one
after the other.  It is built by a list of stores.
-/

namespace Bytes

/-- The bytes `bytes` are stored from the address `addr` on. -/
structure Store where
  addr : ℕ
  bytes : List (BitVec 8)

/-- The memory after the stores, in their order. -/
def apply (m : Bytes) : List Store → Bytes
  | [] => m
  | s :: stores => apply (m.write s.addr s.bytes) stores

/-- All bytes of the store are in the `n` bytes from `a` on. -/
def Store.Inside (s : Store) (a n : ℕ) : Prop := a ≤ s.addr ∧ s.addr + s.bytes.length ≤ a + n

/-- The bytes of a pointer. -/
def wordBytes (p : ℕ) : List (BitVec 8) :=
  [BitVec.ofNat 8 p, BitVec.ofNat 8 (p / 256), BitVec.ofNat 8 (p / 256 ^ 2),
    BitVec.ofNat 8 (p / 256 ^ 3)]

/-- The pointers `ps` stand in a row from `a` on. -/
def Words (m : Bytes) : ℕ → List ℕ → Prop
  | _, [] => True
  | a, p :: ps => m.loadLE a 4 = p ∧ Words m (a + 4) ps

/-- Where the strings start that are laid out from `a` on. -/
def starts : ℕ → List (List (BitVec 8)) → List ℕ
  | _, [] => []
  | a, s :: ss => a :: starts (a + s.length + 1) ss

/-- Copy the strings to `ssp` and their addresses to `vsp`. -/
def copyStrings : List (List (BitVec 8)) → ℕ → ℕ → List Store
  | [], _, _ => []
  | s :: ss, vsp, ssp =>
    ⟨vsp, wordBytes ssp⟩ :: ⟨ssp, s ++ [0]⟩ :: copyStrings ss (vsp + 4) (ssp + s.length + 1)

section

variable {m m' : Bytes} {a n p vsp ssp x : ℕ} {l l' s : List (BitVec 8)}
  {ss ts : List (List (BitVec 8))} {ps qs : List ℕ} {stores stores' : List Store}

/-! ## Stores -/

theorem apply_append : m.apply (stores ++ stores') = (m.apply stores).apply stores' := by
  induction stores generalizing m with
  | nil => rfl
  | cons s stores ih => exact ih

theorem apply_of_outside
    (h : ∀ s ∈ stores, x < s.addr ∨ s.addr + s.bytes.length ≤ x) : m.apply stores x = m x := by
  induction stores generalizing m with
  | nil => rfl
  | cons s stores ih =>
      unfold apply
      rw [ih fun t ht => h t (List.mem_cons_of_mem s ht)]
      exact write_of_outside (h s List.mem_cons_self)

/-- Bytes are written that are there already. -/
theorem write_of_reads (h : m.Reads a l) : m.write a l = m := by
  funext x
  by_cases hx : a ≤ x ∧ x < a + l.length
  · obtain ⟨i, rfl⟩ := Nat.exists_eq_add_of_le hx.1
    have hi : i < l.length := by omega
    rw [write_of_inside hi, reads_iff.mp h i hi]
  · exact write_of_outside (by omega)

/-- A string is written in two parts, the second over the NUL of the first. -/
theorem write_write (hl : 0 < l'.length) :
    (m.write a (l ++ [0])).write (a + l.length) l' = m.write a (l ++ l') := by
  funext x
  by_cases hlow : x < a + l.length
  · rw [write_of_outside (Or.inl hlow)]
    by_cases hx : x < a
    · rw [write_of_outside (Or.inl hx), write_of_outside (Or.inl hx)]
    · obtain ⟨i, rfl⟩ := Nat.exists_eq_add_of_le (Nat.le_of_not_lt hx)
      have hi : i < l.length := by omega
      rw [write_of_inside (by rw [List.length_append]; omega),
        write_of_inside (by rw [List.length_append]; omega), List.getElem_append_left hi,
        List.getElem_append_left hi]
  · obtain ⟨i, rfl⟩ := Nat.exists_eq_add_of_le (Nat.le_of_not_lt hlow)
    by_cases hi : i < l'.length
    · have hi' : l.length + i < (l ++ l').length := by
        rw [List.length_append]
        omega
      rw [write_of_inside hi, Nat.add_assoc, write_of_inside hi', List.getElem_append_right
        (Nat.le_add_right _ _)]
      simp
    · rw [write_of_outside (by omega),
        write_of_outside (by rw [List.length_append, List.length_singleton]; omega),
        write_of_outside (by rw [List.length_append]; omega)]

/-! ## Pointers -/

@[simp] theorem length_wordBytes : (wordBytes p).length = 4 := rfl

theorem Words.congr (h : m.Words a ps) (hm : ∀ x, a ≤ x → x < a + 4 * ps.length → m' x = m x) :
    m'.Words a ps := by
  induction ps generalizing a with
  | nil => trivial
  | cons p ps ih =>
      rw [List.length_cons] at hm
      refine ⟨?_, ih h.2 fun x hlo hhi => hm x (by omega) (by omega)⟩
      rw [← h.1]
      apply loadLE_congr
      intro i hi
      exact hm _ (by omega) (by omega)

theorem words_append :
    m.Words a (ps ++ qs) ↔ m.Words a ps ∧ m.Words (a + 4 * ps.length) qs := by
  induction ps generalizing a with
  | nil => simp [Words]
  | cons p ps ih =>
      have hlen : a + 4 * (p :: ps).length = a + 4 + 4 * ps.length := by
        rw [List.length_cons]
        omega
      simp only [List.cons_append, Words, ih, hlen, and_assoc]

/-- A pointer reads back. -/
theorem loadLE_wordBytes (hp : p < 2 ^ 32) : (m.write a (wordBytes p)).loadLE a 4 = p := by
  have hbytes : ∀ i < 4, m.write a (wordBytes p) (a + i) = BitVec.ofNat 8 (p / 256 ^ i) := by
    intro i hi
    rw [write_of_inside (show i < (wordBytes p).length from hi)]
    obtain rfl | rfl | rfl | rfl : i = 0 ∨ i = 1 ∨ i = 2 ∨ i = 3 := by omega
    all_goals simp [wordBytes]
  rw [loadLE_of_bytes hbytes]
  exact Nat.mod_eq_of_lt (by omega)

/-- A null pointer ends the row. -/
theorem Words.null (h : m.Words a ps) :
    (m.write (a + 4 * ps.length) (wordBytes 0)).Words a (ps ++ [0]) := by
  refine words_append.mpr ⟨h.congr ?_, loadLE_wordBytes (by decide), trivial⟩
  intro x _ hx
  exact write_of_outside (Or.inl hx)

theorem reads_nullWord (h : ∀ i < 4, m (a + i) = 0) : m.Reads a (wordBytes 0) :=
  ⟨h 0 (by omega), h 1 (by omega), h 2 (by omega), h 3 (by omega), trivial⟩

/-! ## Strings -/

@[simp] theorem length_starts : (starts a ss).length = ss.length := by
  induction ss generalizing a with
  | nil => rfl
  | cons s ss ih => rw [starts, List.length_cons, ih, List.length_cons]

theorem length_layout_cons : (layout (s :: ss)).length = s.length + 1 + (layout ss).length := by
  rw [layout_cons, List.length_append, List.length_cons]
  omega

/-- Each string can be read at its start. -/
theorem Reads.strings (h : m.Reads a (layout ss)) :
    List.Forall₂ (fun p s => m.Reads p (s ++ [0])) (starts a ss) ss := by
  induction ss generalizing a with
  | nil => exact List.Forall₂.nil
  | cons s ss ih =>
      rw [layout_cons, List.append_cons, reads_append, List.length_append, List.length_singleton,
        ← Nat.add_assoc] at h
      exact List.Forall₂.cons h.1 (ih h.2)

/-- The strings lie between `a` and the end of the layout. -/
theorem starts_bounds {q : ℕ × List (BitVec 8)} (h : q ∈ (starts a ss).zip ss) :
    a ≤ q.1 ∧ q.1 + q.2.length + 1 ≤ a + (layout ss).length := by
  induction ss generalizing a with
  | nil => cases h
  | cons s ss ih =>
      rw [length_layout_cons]
      rcases List.mem_cons.mp h with rfl | h
      · constructor
        · exact Nat.le_refl a
        · dsimp only
          omega
      · have := ih h
        omega

/-- No string overlaps the next ones. -/
theorem starts_pairwise :
    ((starts a ss).zip ss).Pairwise fun q r => q.1 + q.2.length + 1 ≤ r.1 := by
  induction ss generalizing a with
  | nil => exact List.Pairwise.nil
  | cons s ss ih => exact List.Pairwise.cons (fun r hr => (starts_bounds hr).1) ih

theorem starts_append :
    starts a (ss ++ ts) = starts a ss ++ starts (a + (layout ss).length) ts := by
  induction ss generalizing a with
  | nil => simp [starts]
  | cons s ss ih =>
      rw [List.cons_append, starts, starts, ih, length_layout_cons, List.cons_append]
      congr 3
      omega

/-! ## Building -/

/-- The stores are inside the row of pointers or inside the layout. -/
theorem copyStrings_inside {t : Store} (h : t ∈ copyStrings ss vsp ssp) :
    t.Inside vsp (4 * ss.length) ∨ t.Inside ssp (layout ss).length := by
  induction ss generalizing vsp ssp with
  | nil => cases h
  | cons s ss ih =>
      unfold Store.Inside at ih ⊢
      rw [length_layout_cons, List.length_cons]
      rcases List.mem_cons.mp h with rfl | h
      · left
        simp only [length_wordBytes]
        omega
      · rcases List.mem_cons.mp h with rfl | h
        · right
          simp only [List.length_append, List.length_singleton]
          omega
        · rcases ih h with h | h
          · left
            omega
          · right
            omega

theorem apply_copyStrings_of_outside (hv : x < vsp ∨ vsp + 4 * ss.length ≤ x)
    (hs : x < ssp ∨ ssp + (layout ss).length ≤ x) :
    m.apply (copyStrings ss vsp ssp) x = m x := by
  apply apply_of_outside
  intro t ht
  rcases copyStrings_inside ht with h | h
  · unfold Store.Inside at h
    omega
  · unfold Store.Inside at h
    omega

/-- The pointers and the strings that are built. -/
theorem copyStrings_spec (hv : vsp + 4 * ss.length ≤ ssp)
    (hs : ssp + (layout ss).length ≤ 2 ^ 32) :
    (m.apply (copyStrings ss vsp ssp)).Words vsp (starts ssp ss) ∧
      (m.apply (copyStrings ss vsp ssp)).Reads ssp (layout ss) := by
  induction ss generalizing m vsp ssp with
  | nil => exact ⟨trivial, trivial⟩
  | cons s ss ih =>
      rw [List.length_cons] at hv
      rw [length_layout_cons] at hs
      have hstep : m.apply (copyStrings (s :: ss) vsp ssp) =
          ((m.write vsp (wordBytes ssp)).write ssp (s ++ [0])).apply
            (copyStrings ss (vsp + 4) (ssp + s.length + 1)) :=
        rfl
      have hrest : ∀ m : Bytes,
          (m.apply (copyStrings ss (vsp + 4) (ssp + s.length + 1))).Words (vsp + 4)
              (starts (ssp + s.length + 1) ss) ∧
            (m.apply (copyStrings ss (vsp + 4) (ssp + s.length + 1))).Reads (ssp + s.length + 1)
              (layout ss) :=
        fun m => ih (by omega) (by omega)
      obtain ⟨hwords, hreads⟩ := hrest ((m.write vsp (wordBytes ssp)).write ssp (s ++ [0]))
      rw [hstep]
      refine ⟨⟨?_, hwords⟩, ?_⟩
      · have hword := loadLE_wordBytes (m := m) (a := vsp) (show ssp < 2 ^ 32 by omega)
        refine (loadLE_congr fun i hi => ?_).trans hword
        rw [apply_copyStrings_of_outside (Or.inl (by omega)) (Or.inl (by omega)),
          write_of_outside (Or.inl (by omega))]
      · have hcons : layout (s :: ss) = (s ++ [0]) ++ layout ss := by simp
        rw [hcons, reads_append, List.length_append, List.length_singleton, ← Nat.add_assoc]
        refine ⟨?_, hreads⟩
        apply Reads.congr (m := (m.write vsp (wordBytes ssp)).write ssp (s ++ [0])) reads_write
        intro i hi
        rw [List.length_append, List.length_singleton] at hi
        exact apply_copyStrings_of_outside (Or.inr (by omega)) (Or.inl (by omega))

end

end Bytes
