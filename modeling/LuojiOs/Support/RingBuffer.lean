import Mathlib.Data.Nat.Notation
import Mathlib.Logic.Function.Basic

/-!
# Ring buffers

A queue kept in `size` cells of a memory `pool`, given by the position of its first
element and the number of its elements.  `contents` reads the queue off the memory;
`contents_push` and `contents_pop` say that writing behind the last element and
stepping over the first one are the two ends of a queue.
-/

namespace RingBuffer

variable {α : Type*} {size front back count : ℕ}

/-- The position after `i`. -/
def next (size i : ℕ) : ℕ :=
  if size ≤ i + 1 then 0 else i + 1

theorem next_eq_mod (h : front < size) : next size front = (front + 1) % size := by
  unfold next
  split
  · have : front + 1 = size := by omega
    simp [this]
  · exact (Nat.mod_eq_of_lt (by omega)).symm

theorem next_lt (h : front < size) : next size front < size := by
  unfold next
  split <;> omega

/-- The `count` elements from the position `front` on. -/
def contents (size : ℕ) (pool : ℕ → α) : ℕ → ℕ → List α
  | _, 0 => []
  | front, count + 1 => pool front :: contents size pool (next size front) count

/-- The positions of a queue of `count` elements: `back` is where the next one goes. -/
structure Valid (size front back count : ℕ) : Prop where
  count_le : count ≤ size
  front_lt : front < size
  back_eq : back = (front + count) % size

theorem Valid.back_lt (h : Valid size front back count) : back < size := by
  rw [h.back_eq]
  exact Nat.mod_lt _ (Nat.zero_lt_of_lt h.front_lt)

theorem valid_empty (h : 0 < size) : Valid size 0 0 0 :=
  ⟨Nat.zero_le size, h, rfl⟩

theorem Valid.push (h : Valid size front back count) (hroom : count ≠ size) :
    Valid size front (next size back) (count + 1) where
  count_le := by
    have := h.count_le
    omega
  front_lt := h.front_lt
  back_eq := by
    rw [next_eq_mod h.back_lt, h.back_eq, Nat.mod_add_mod, Nat.add_assoc]

theorem next_add_mod (h : front < size) (n : ℕ) :
    (next size front + n) % size = (front + (n + 1)) % size := by
  rw [next_eq_mod h, Nat.mod_add_mod, Nat.add_assoc, Nat.add_comm 1 n]

theorem Valid.pop (h : Valid size front back (count + 1)) :
    Valid size (next size front) back count where
  count_le := Nat.le_of_succ_le h.count_le
  front_lt := next_lt h.front_lt
  back_eq := by rw [h.back_eq, next_add_mod h.front_lt]

theorem contents_pop (pool : ℕ → α) (front count : ℕ) :
    contents size pool front (count + 1) =
      pool front :: contents size pool (next size front) count :=
  rfl

/-- Positions less than `size` apart are different. -/
theorem add_mod_ne {n : ℕ} (h : front < size) (hn : 0 < n) (hlt : n < size) :
    (front + n) % size ≠ front := by
  intro he
  by_cases hwrap : front + n < size
  · rw [Nat.mod_eq_of_lt hwrap] at he
    omega
  · have hsub : (front + n) % size = front + n - size := by
      rw [Nat.mod_eq_sub_mod (by omega), Nat.mod_eq_of_lt (by omega)]
    omega

theorem contents_push (pool : ℕ → α) (v : α) (hfront : front < size) (hroom : count < size) :
    contents size (Function.update pool ((front + count) % size) v) front (count + 1) =
      contents size pool front count ++ [v] := by
  induction count generalizing front with
  | zero =>
      rw [Nat.add_zero, Nat.mod_eq_of_lt hfront]
      simp [contents]
  | succ count ih =>
      have hne : front ≠ (front + (count + 1)) % size :=
        (add_mod_ne hfront (Nat.succ_pos count) hroom).symm
      have hrest := ih (next_lt hfront) (Nat.lt_of_succ_lt hroom)
      rw [next_add_mod hfront] at hrest
      rw [contents_pop, hrest, Function.update_of_ne hne]
      rfl

end RingBuffer
