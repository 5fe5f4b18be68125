import Mathlib.Algebra.Order.Ring.Nat

/-!
# Buffers

A buffer is a list of bytes of fixed length.  `put` copies a row of values into it from a place
on and drops what does not fit, so that the length never changes; `Fits` says that nothing is
dropped.
-/

namespace Buffer

variable {α : Type*} {b d e : List α} {i j n : ℕ}

/-- The values `d`, copied into the buffer from the place `i` on. -/
def put (b : List α) (i : ℕ) (d : List α) : List α :=
  b.take i ++ d.take (b.length - i) ++ b.drop (i + d.length)

/-- A row of `n` values from the place `i` on stays inside the buffer. -/
def Fits (b : List α) (i n : ℕ) : Prop := i + n ≤ b.length

instance : Decidable (Fits b i n) := inferInstanceAs (Decidable (_ ≤ _))

@[simp] theorem length_put : (put b i d).length = b.length := by
  unfold put
  simp only [List.length_append, List.length_take, List.length_drop]
  omega

@[simp] theorem fits_put : Fits (put b i d) j n ↔ Fits b j n := by
  unfold Fits
  rw [length_put]

theorem getElem?_put : (put b i d)[j]? =
    if i ≤ j ∧ j < i + d.length ∧ j < b.length then d[j - i]? else b[j]? := by
  unfold put
  rw [List.append_assoc]
  by_cases hbefore : j < i
  · rw [if_neg (by omega)]
    by_cases hj : j < b.length
    · rw [List.getElem?_append_left (by rw [List.length_take]; omega),
        List.getElem?_take_of_lt hbefore]
    · rw [List.getElem?_eq_none (by omega : b.length ≤ j), List.getElem?_eq_none]
      simp only [List.length_append, List.length_take, List.length_drop]
      omega
  · by_cases hlong : b.length ≤ j
    · rw [if_neg (by omega), List.getElem?_eq_none hlong, List.getElem?_eq_none]
      simp only [List.length_append, List.length_take, List.length_drop]
      omega
    · have hfirst : (b.take i).length = i := List.length_take_of_le (by omega)
      rw [List.getElem?_append_right (by omega), hfirst]
      by_cases hinside : j < i + d.length
      · rw [if_pos (by omega), List.getElem?_append_left (by rw [List.length_take]; omega),
          List.getElem?_take_of_lt (by omega)]
      · have hmiddle : (d.take (b.length - i)).length = d.length :=
          List.length_take.trans (by omega)
        rw [if_neg (by omega), List.getElem?_append_right (by omega), hmiddle,
          List.getElem?_drop]
        congr 1
        omega

theorem getElem?_put_of_outside (h : j < i ∨ i + d.length ≤ j) : (put b i d)[j]? = b[j]? := by
  rw [getElem?_put, if_neg]
  omega

theorem getElem?_put_of_inside (hfits : Fits b i d.length) (h : n < d.length) :
    (put b i d)[i + n]? = d[n]? := by
  unfold Fits at hfits
  rw [getElem?_put, if_pos (by omega), Nat.add_sub_cancel_left]

@[simp] theorem put_nil : put b i [] = b := by
  apply List.ext_getElem?
  intro j
  rw [getElem?_put, if_neg]
  rw [List.length_nil]
  omega

/-- Two rows, one behind the other. -/
theorem put_put (h : j = i + d.length) : put (put b i d) j e = put b i (d ++ e) := by
  subst h
  apply List.ext_getElem?
  intro k
  simp only [getElem?_put, length_put, List.length_append]
  by_cases hlong : b.length ≤ k
  · rw [if_neg (by omega), if_neg (by omega), if_neg (by omega)]
  by_cases hfirst : k < i + d.length
  · rw [if_neg (by omega)]
    by_cases hbefore : k < i
    · rw [if_neg (by omega), if_neg (by omega)]
    · rw [if_pos (by omega), if_pos (by omega), List.getElem?_append_left (by omega)]
  · by_cases hsecond : k < i + d.length + e.length
    · rw [if_pos (by omega), if_pos (by omega), List.getElem?_append_right (by omega)]
      congr 1
      omega
    · rw [if_neg (by omega), if_neg (by omega), if_neg (by omega)]

/-- A row that covers the whole buffer. -/
theorem put_all (h : d.length = b.length) : put b 0 d = d := by
  unfold put
  rw [List.take_zero, List.nil_append, List.drop_eq_nil_of_le (by omega), List.append_nil,
    List.take_of_length_le (by omega)]

end Buffer
