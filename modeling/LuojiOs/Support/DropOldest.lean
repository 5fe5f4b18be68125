import Mathlib.Data.List.Pairwise
import Mathlib.Data.Nat.Notation

/-!
# Queues that drop their oldest element

A queue of capacity `cap` that makes room for a new element by dropping its oldest one.
It is kept as the log of everything that has arrived, so that an element is its number in
the log and the queue is the end of the log from `first` on.  `Fair` says what such a queue
promises: numbers are read in order and once each, and a number below `first` that was not
read has at least `cap` newer ones.
-/

structure DropOldest (α : Type*) where
  arrived : List α
  first : ℕ
  /-- the numbers that were read, oldest first -/
  read : List ℕ
  deriving DecidableEq

namespace DropOldest

variable {α : Type*} {cap : ℕ} {l l' : DropOldest α} {x : α}

def queue (l : DropOldest α) : List α :=
  l.arrived.drop l.first

def empty : DropOldest α :=
  ⟨[], 0, []⟩

def put (cap : ℕ) (l : DropOldest α) (x : α) : DropOldest α :=
  { l with
    arrived := l.arrived ++ [x]
    first := if l.queue.length = cap then l.first + 1 else l.first }

def get (l : DropOldest α) : Option (α × DropOldest α) :=
  match l.queue with
  | [] => none
  | x :: _ => some (x, { l with first := l.first + 1, read := l.read ++ [l.first] })

/-- What is read, looked up in the log. -/
def delivered (l : DropOldest α) : List (Option α) :=
  l.read.map (l.arrived[·]?)

structure Fair (cap : ℕ) (l : DropOldest α) : Prop where
  first_le : l.first ≤ l.arrived.length
  length_le : l.arrived.length ≤ l.first + cap
  ordered : l.read.Pairwise (· < ·)
  read_lt : ∀ i ∈ l.read, i < l.first
  /-- a number that is passed over has `cap` newer ones -/
  lost : ∀ i < l.first, i ∉ l.read → i + cap < l.arrived.length

theorem queue_eq_nil_iff : l.queue = [] ↔ l.get = none := by
  unfold get
  cases l.queue <;> simp

theorem length_queue (l : DropOldest α) : l.queue.length = l.arrived.length - l.first := by
  simp [queue]

theorem queue_put_of_ne (h : l.first ≤ l.arrived.length) (hroom : l.queue.length ≠ cap) :
    (l.put cap x).queue = l.queue ++ [x] := by
  have hfirst : (l.put cap x).first = l.first := if_neg hroom
  unfold queue
  rw [hfirst]
  exact List.drop_append_of_le_length h

theorem queue_put_of_full (h : l.first ≤ l.arrived.length) (hfull : l.queue.length = cap)
    (hcap : 0 < cap) : (l.put cap x).queue = l.queue.tail ++ [x] := by
  have hlt : l.first + 1 ≤ l.arrived.length := by
    rw [length_queue] at hfull
    omega
  have hfirst : (l.put cap x).first = l.first + 1 := if_pos hfull
  unfold queue
  rw [hfirst, List.tail_drop]
  exact List.drop_append_of_le_length hlt

theorem get_eq_some (h : l.get = some (x, l')) :
    l.queue = x :: l'.queue ∧ l'.arrived = l.arrived ∧ l'.first = l.first + 1 ∧
      l'.read = l.read ++ [l.first] := by
  unfold get at h
  split at h
  · cases h
  · next y ys hqueue =>
    obtain ⟨rfl, rfl⟩ := Prod.mk.inj (Option.some.inj h)
    refine ⟨?_, rfl, rfl, rfl⟩
    have htail : l.queue.tail = l.arrived.drop (l.first + 1) := by
      rw [queue, List.tail_drop]
    rw [hqueue] at htail
    rw [hqueue]
    exact congrArg (List.cons y) htail

namespace Fair

theorem empty (cap : ℕ) : (DropOldest.empty : DropOldest α).Fair cap :=
  ⟨Nat.le_refl _, Nat.zero_le _, List.Pairwise.nil, fun _ hi => absurd hi List.not_mem_nil,
    fun i hi => absurd hi (Nat.not_lt_zero i)⟩

theorem put (h : l.Fair cap) (x : α) : (l.put cap x).Fair cap := by
  have hqueue := length_queue l
  have hfirst := h.first_le
  have hlength := h.length_le
  unfold DropOldest.put
  split
  · next hfull =>
    refine ⟨?_, ?_, h.ordered, fun i hi => ?_, fun i hi hnot => ?_⟩
    · simp only [List.length_append, List.length_singleton]
      omega
    · simp only [List.length_append, List.length_singleton]
      omega
    · exact Nat.lt_succ_of_lt (h.read_lt i hi)
    · simp only [List.length_append, List.length_singleton]
      rcases Nat.lt_succ_iff_lt_or_eq.mp hi with hlt | rfl
      · have := h.lost i hlt hnot
        omega
      · omega
  · next hroom =>
    refine ⟨?_, ?_, h.ordered, h.read_lt, fun i hi hnot => ?_⟩
    · simp only [List.length_append, List.length_singleton]
      omega
    · simp only [List.length_append, List.length_singleton]
      omega
    · have := h.lost i hi hnot
      simp only [List.length_append, List.length_singleton]
      omega

theorem get (h : l.Fair cap) (hget : l.get = some (x, l')) : l'.Fair cap := by
  obtain ⟨hqueue, harrived, hfirst, hread⟩ := get_eq_some hget
  have hlength : l.queue.length ≠ 0 := by simp [hqueue]
  rw [length_queue] at hlength
  have hle := h.length_le
  constructor
  · rw [harrived, hfirst]
    omega
  · rw [harrived, hfirst]
    omega
  · rw [hread, List.pairwise_append]
    refine ⟨h.ordered, List.pairwise_singleton _ _, fun i hi j hj => ?_⟩
    obtain rfl := List.mem_singleton.mp hj
    exact h.read_lt i hi
  · rw [hread, hfirst]
    intro i hi
    rcases List.mem_append.mp hi with hi | hi
    · exact Nat.lt_succ_of_lt (h.read_lt i hi)
    · obtain rfl := List.mem_singleton.mp hi
      exact Nat.lt_succ_self _
  · rw [hread, hfirst, harrived]
    intro i hi hnot
    have hnot' : i ∉ l.read ∧ i ≠ l.first := by simpa using hnot
    exact h.lost i (by omega) hnot'.1

end Fair

/-- New arrivals do not change what was read. -/
theorem delivered_put (h : l.Fair cap) (x : α) : (l.put cap x).delivered = l.delivered := by
  unfold delivered put
  dsimp only
  refine List.map_congr_left fun i hi => ?_
  have hlt := h.read_lt i hi
  have hfirst := h.first_le
  exact List.getElem?_append_left (by omega)

theorem delivered_get (hget : l.get = some (x, l')) :
    l'.delivered = l.delivered ++ [some x] := by
  obtain ⟨hqueue, harrived, -, hread⟩ := get_eq_some hget
  unfold delivered
  rw [harrived, hread, List.map_append, List.map_singleton]
  have hx : l.queue[0]? = some x := by simp [hqueue]
  rw [queue, List.getElem?_drop, Nat.add_zero] at hx
  rw [hx]

/-- Several arrivals. -/
def putAll (cap : ℕ) : List α → DropOldest α → DropOldest α
  | [], l => l
  | x :: xs, l => putAll cap xs (l.put cap x)

theorem Fair.putAll (h : l.Fair cap) (xs : List α) : (DropOldest.putAll cap xs l).Fair cap := by
  induction xs generalizing l with
  | nil => exact h
  | cons x xs ih => exact ih (h.put x)

theorem delivered_putAll (h : l.Fair cap) (xs : List α) :
    (putAll cap xs l).delivered = l.delivered := by
  induction xs generalizing l with
  | nil => rfl
  | cons x xs ih => exact (ih (h.put x)).trans (delivered_put h x)

theorem arrived_putAll (cap : ℕ) (xs : List α) (l : DropOldest α) :
    (putAll cap xs l).arrived = l.arrived ++ xs := by
  induction xs generalizing l with
  | nil => simp [putAll]
  | cons x xs ih =>
      rw [putAll, ih]
      simp [put]

end DropOldest
