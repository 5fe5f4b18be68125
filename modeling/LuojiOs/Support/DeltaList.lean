import Mathlib.Data.List.Sort
import Mathlib.Order.Basic

/-!
# Delta lists

A list of deadlines where each entry has only the distance from the one before.  `due` is the
list of the deadlines themselves, from a base on.  Inserting, erasing and the passing of time
touch one or two distances, and are on the deadlines what one expects: an insertion behind all
that are not later, an erasure, and a move of the base.
-/

namespace DeltaList

variable {α : Type*}

/-- The deadlines, counted from `base`. -/
def due (base : ℕ) : List (ℕ × α) → List (ℕ × α)
  | [] => []
  | (d, x) :: l => (base + d, x) :: due (base + d) l

/-- An entry `d` after the base is put behind all that are not later. -/
def insert (d : ℕ) (x : α) : List (ℕ × α) → List (ℕ × α)
  | [] => [(d, x)]
  | (e, y) :: l => if d < e then (d, x) :: (e - d, y) :: l else (e, y) :: insert (d - e) x l

/-- The first entry is moved away from the base. -/
def push (d : ℕ) : List (ℕ × α) → List (ℕ × α)
  | [] => []
  | (e, y) :: l => (e + d, y) :: l

/-- The first entry with the property `p` is taken out. -/
def erase (p : α → Bool) : List (ℕ × α) → List (ℕ × α)
  | [] => []
  | (e, y) :: l => if p y then push e l else (e, y) :: erase p l

/-- The base comes closer to the first entry. -/
def pass (k : ℕ) : List (ℕ × α) → List (ℕ × α)
  | [] => []
  | (e, y) :: l => (e - k, y) :: l

/-- Is a deadline before another one? -/
def Sooner (a b : ℕ × α) : Prop := a.1 < b.1

instance : DecidableRel (Sooner (α := α)) := fun a b => inferInstanceAs (Decidable (a.1 < b.1))

@[simp]
theorem due_nil (base : ℕ) : due base ([] : List (ℕ × α)) = [] := rfl

@[simp]
theorem due_cons (base d : ℕ) (x : α) (l : List (ℕ × α)) :
    due base ((d, x) :: l) = (base + d, x) :: due (base + d) l := rfl

theorem insert_of_lt {d e : ℕ} (h : d < e) (x y : α) (l : List (ℕ × α)) :
    insert d x ((e, y) :: l) = (d, x) :: (e - d, y) :: l :=
  if_pos h

theorem insert_of_le {d e : ℕ} (h : e ≤ d) (x y : α) (l : List (ℕ × α)) :
    insert d x ((e, y) :: l) = (e, y) :: insert (d - e) x l :=
  if_neg (Nat.not_lt_of_le h)

theorem due_insert (base d : ℕ) (x : α) (l : List (ℕ × α)) :
    due base (insert d x l) = (due base l).orderedInsert Sooner (base + d, x) := by
  induction l generalizing base d with
  | nil => rfl
  | cons a l ih =>
      obtain ⟨e, y⟩ := a
      have hiff : Sooner (base + d, x) (base + e, y) ↔ d < e := Nat.add_lt_add_iff_left
      rcases Nat.lt_or_ge d e with hlt | hle
      · rw [insert_of_lt hlt, due_cons, due_cons, due_cons, List.orderedInsert_cons,
          if_pos (hiff.mpr hlt), Nat.add_assoc, Nat.add_sub_cancel' hlt.le]
      · rw [insert_of_le hle, due_cons, due_cons, List.orderedInsert_cons,
          if_neg (mt hiff.mp (Nat.not_lt_of_le hle)), ih, Nat.add_assoc, Nat.add_sub_cancel' hle]

theorem due_push (base d : ℕ) (l : List (ℕ × α)) : due base (push d l) = due (base + d) l := by
  cases l with
  | nil => rfl
  | cons a l =>
      rw [push, due_cons, due_cons, Nat.add_comm a.1 d, Nat.add_assoc]

theorem due_erase (p : α → Bool) (base : ℕ) (l : List (ℕ × α)) :
    due base (erase p l) = (due base l).eraseP fun a => p a.2 := by
  induction l generalizing base with
  | nil => rfl
  | cons a l ih =>
      rw [erase, due_cons]
      cases hp : p a.2 with
      | false =>
          rw [if_neg Bool.false_ne_true, due_cons, ih,
            List.eraseP_cons_of_neg (by rw [hp]; exact Bool.false_ne_true)]
      | true =>
          rw [if_pos rfl, due_push]
          exact (List.eraseP_cons_of_pos (a := (base + a.1, a.2)) (p := fun c => p c.2) hp).symm

/-- The deadlines stay, if the base does not pass the first entry. -/
theorem due_pass (k base d : ℕ) (x : α) (l : List (ℕ × α)) :
    due (min (base + k) (base + d)) (pass k ((d, x) :: l)) = due base ((d, x) :: l) := by
  have hsum : min (base + k) (base + d) + (d - k) = base + d := by omega
  rw [pass, due_cons, due_cons, hsum]

/-- What is taken out and what is left. -/
theorem perm_eraseP (p : α → Bool) (L : List α) :
    L.Perm ((L.find? p).toList ++ L.eraseP p) := by
  induction L with
  | nil => exact .refl _
  | cons x L ih =>
      cases hp : p x with
      | true =>
          rw [List.find?_cons_of_pos hp, List.eraseP_cons_of_pos hp]
          exact .refl _
      | false =>
          have hneg : ¬p x = true := by rw [hp]; exact Bool.false_ne_true
          rw [List.find?_cons_of_neg hneg, List.eraseP_cons_of_neg hneg]
          exact (ih.cons x).trans List.perm_middle.symm

end DeltaList
