import Mathlib.Data.List.Nodup
import Mathlib.Logic.Function.Basic

/-!
# Lists with a hidden tail pointer

The elements of a list in the style of `LIST_ENTRY` have a forward pointer, and a back pointer
that addresses the forward pointer of the element before.  There is no element before the first
one, so that its back pointer is free to address the forward pointer of the last element: a new
element is then put behind it in a few assignments.  Removing an element follows its back
pointer, which is right as long as it is not the first one, and it forgets the hidden tail
pointer if it is the last one.
-/

namespace TailList

/-- The two pointers of every element.  `prev` is the element whose forward pointer the back
pointer addresses. -/
@[ext] structure Links (A : Type*) where
  next : A → Option A
  prev : A → A

variable {A : Type*}

namespace Links

variable [DecidableEq A]

def setNext (m : Links A) (a : A) (b : Option A) : Links A :=
  { m with next := Function.update m.next a b }

def setPrev (m : Links A) (a b : A) : Links A :=
  { m with prev := Function.update m.prev a b }

@[simp] theorem next_setNext (m : Links A) (a : A) (b : Option A) (x : A) :
    (m.setNext a b).next x = if x = a then b else m.next x := by
  simp [setNext, Function.update_apply]

@[simp] theorem prev_setNext (m : Links A) (a : A) (b : Option A) (x : A) :
    (m.setNext a b).prev x = m.prev x := rfl

@[simp] theorem next_setPrev (m : Links A) (a b x : A) :
    (m.setPrev a b).next x = m.next x := rfl

@[simp] theorem prev_setPrev (m : Links A) (a b x : A) :
    (m.setPrev a b).prev x = if x = a then b else m.prev x := by
  simp [setPrev, Function.update_apply]

/-- `n->prev = l->prev; n->next = l; *l->prev = n; l->prev = &n->next`. -/
def insertBefore (m : Links A) (l n : A) : Links A :=
  let m₁ := m.setPrev n (m.prev l)
  let m₂ := m₁.setNext n (some l)
  let m₃ := m₂.setNext (m₂.prev l) (some n)
  m₃.setPrev l n

/-- The list is closed to a ring, and opened again behind the new element. -/
def append (m : Links A) (first n : A) : Links A :=
  let m₁ := m.setNext (m.prev first) (some first)
  let m₂ := m₁.insertBefore first n
  m₂.setNext (m₂.prev first) none

/-- `if (n->next) n->next->prev = n->prev; *n->prev = n->next`. -/
def remove (m : Links A) (n : A) : Links A :=
  let m₁ := match m.next n with
    | some x => m.setPrev x (m.prev n)
    | none => m
  m₁.setNext (m₁.prev n) (m₁.next n)

variable {m m' : Links A} {first n x y p : A} {xs ys : List A} {ptr head stop stop' : Option A}

theorem next_append (hn : n ≠ first) : (m.append first n).next x =
    if x = n then none else if x = m.prev first then some n else m.next x := by
  by_cases hx : x = n
  · simp [append, insertBefore, hx]
  · by_cases hlast : x = m.prev first
    · simp [append, insertBefore, hlast, hn.symm]
    · simp [append, insertBefore, hx, hlast, hn.symm]

theorem prev_append : (m.append first n).prev x =
    if x = first then n else if x = n then m.prev first else m.prev x := by
  simp [append, insertBefore]

theorem next_remove (hn : m.next n ≠ some n) : (m.remove n).next x =
    if x = m.prev n then m.next n else m.next x := by
  unfold remove
  cases hnext : m.next n with
  | none => simp [hnext]
  | some y =>
      have hny : n ≠ y := fun h => hn (hnext.trans (congrArg some h.symm))
      simp [hnext, hny]

theorem prev_remove : (m.remove n).prev x =
    if m.next n = some x then m.prev n else m.prev x := by
  unfold remove
  cases hnext : m.next n with
  | none => simp
  | some y => simp [eq_comm]

end Links

open Links

/-! ## Segments -/

/-- From `ptr` the forward pointers lead through `xs` to `stop`.  Each back pointer addresses the
element before, and the first of them addresses `p`. -/
def Segment (m : Links A) : A → Option A → List A → Option A → Prop
  | _, ptr, [], stop => ptr = stop
  | p, ptr, x :: xs, stop => ptr = some x ∧ m.prev x = p ∧ Segment m x (m.next x) xs stop

/-- The list that begins at `head`. -/
def Holds (m : Links A) (head : Option A) : List A → Prop
  | [] => head = none
  | x :: xs => (x :: xs).Nodup ∧ Segment m (xs.getLastD x) head (x :: xs) none

variable {m m' : Links A} {first n x y p : A} {xs ys : List A} {ptr head stop stop' : Option A}

theorem segment_append : Segment m p ptr (xs ++ ys) stop ↔
    ∃ mid, Segment m p ptr xs mid ∧ Segment m (xs.getLastD p) mid ys stop := by
  induction xs generalizing p ptr with
  | nil => simp [Segment]
  | cons x xs ih =>
      rw [List.cons_append, List.getLastD_cons]
      simp only [Segment, ih]
      constructor
      · rintro ⟨hptr, hprev, mid, hxs, hys⟩
        exact ⟨mid, ⟨hptr, hprev, hxs⟩, hys⟩
      · rintro ⟨mid, ⟨hptr, hprev, hxs⟩, hys⟩
        exact ⟨hptr, hprev, mid, hxs, hys⟩

theorem getLastD_append_cons : (xs ++ y :: ys).getLastD x = ys.getLastD y := by
  rw [List.getLastD_eq_getLast?, List.getLast?_append_cons, ← List.getLastD_eq_getLast?,
    List.getLastD_cons]

/-- The last element may lead elsewhere. -/
theorem Segment.retarget (h : Segment m x (m.next x) xs stop) (hnodup : (x :: xs).Nodup)
    (hnext : ∀ y ∈ x :: xs, y ≠ xs.getLastD x → m'.next y = m.next y)
    (hlast : m'.next (xs.getLastD x) = stop') (hprev : ∀ y ∈ xs, m'.prev y = m.prev y) :
    Segment m' x (m'.next x) xs stop' := by
  induction xs generalizing x with
  | nil => exact hlast
  | cons y ys ih =>
      obtain ⟨hxy, hyx, hys⟩ := h
      obtain ⟨hx, hnodup⟩ := List.nodup_cons.mp hnodup
      rw [List.getLastD_cons] at hnext hlast
      have hne : x ≠ ys.getLastD y := fun hxl => hx (hxl ▸ List.getLastD_mem_cons)
      refine ⟨(hnext x List.mem_cons_self hne).trans hxy,
        (hprev y List.mem_cons_self).trans hyx, ?_⟩
      exact ih hys hnodup (fun z hz => hnext z (List.mem_cons_of_mem _ hz)) hlast
        fun z hz => hprev z (List.mem_cons_of_mem _ hz)

/-- A segment whose elements keep their pointers is left as it is. -/
theorem Segment.congr (h : Segment m p ptr xs stop) (hnext : ∀ y ∈ xs, m'.next y = m.next y)
    (hprev : ∀ y ∈ xs, m'.prev y = m.prev y) : Segment m' p ptr xs stop := by
  induction xs generalizing p ptr with
  | nil => exact h
  | cons x xs ih =>
      obtain ⟨hptr, hpx, hxs⟩ := h
      refine ⟨hptr, (hprev x List.mem_cons_self).trans hpx, ?_⟩
      rw [hnext x List.mem_cons_self]
      exact ih hxs (fun y hy => hnext y (List.mem_cons_of_mem _ hy))
        fun y hy => hprev y (List.mem_cons_of_mem _ hy)

theorem Segment.next_mem (h : Segment m p ptr xs stop) (hx : x ∈ xs) :
    m.next x = stop ∨ ∃ y ∈ xs, m.next x = some y := by
  induction xs generalizing p ptr with
  | nil => exact absurd hx List.not_mem_nil
  | cons z zs ih =>
      obtain ⟨-, -, hzs⟩ := h
      rcases List.mem_cons.mp hx with rfl | hx
      · cases zs with
        | nil => exact Or.inl hzs
        | cons y ys => exact Or.inr ⟨y, by simp, hzs.1⟩
      · rcases ih hzs hx with hstop | ⟨y, hy, hnext⟩
        · exact Or.inl hstop
        · exact Or.inr ⟨y, List.mem_cons_of_mem _ hy, hnext⟩

theorem Segment.prev_mem (h : Segment m p ptr xs stop) (hx : x ∈ xs) :
    m.prev x = p ∨ m.prev x ∈ xs := by
  induction xs generalizing p ptr with
  | nil => exact absurd hx List.not_mem_nil
  | cons z zs ih =>
      obtain ⟨-, hprev, hzs⟩ := h
      rcases List.mem_cons.mp hx with rfl | hx
      · exact Or.inl hprev
      · rcases ih hzs hx with hfirst | hmem
        · exact Or.inr (hfirst ▸ List.mem_cons_self)
        · exact Or.inr (List.mem_cons_of_mem _ hmem)

theorem Segment.next_ne (h : Segment m p ptr xs none) (hnodup : xs.Nodup) (hx : x ∈ xs) :
    m.next x ≠ some x := by
  obtain ⟨front, behind, rfl⟩ := List.append_of_mem hx
  obtain ⟨mid, -, -, -, hbehind⟩ := segment_append.mp h
  cases behind with
  | nil =>
      rw [show m.next x = none from hbehind]
      exact nofun
  | cons y ys =>
      intro hloop
      have hxy : x = y := Option.some.inj (hloop.symm.trans hbehind.1)
      have hout := (List.nodup_cons.mp (List.nodup_append.mp hnodup).2.1).1
      exact hout (hxy ▸ List.mem_cons_self)

/-! ## The list -/

theorem Holds.nodup (h : Holds m head xs) : xs.Nodup := by
  cases xs with
  | nil => exact List.nodup_nil
  | cons x xs => exact h.1

/-- The hidden tail pointer. -/
theorem Holds.prev_first (h : Holds m head (x :: xs)) : m.prev x = xs.getLastD x := h.2.2.1

theorem Holds.head_eq (h : Holds m head xs) : head = xs.head? := by
  cases xs with
  | nil => exact h
  | cons x xs => exact h.2.1

theorem Holds.prev_mem (h : Holds m head xs) (hx : x ∈ xs) : m.prev x ∈ xs := by
  cases xs with
  | nil => exact absurd hx List.not_mem_nil
  | cons y ys =>
      rcases h.2.prev_mem hx with hlast | hmem
      · exact hlast ▸ List.getLastD_mem_cons
      · exact hmem

theorem Holds.next_mem (h : Holds m head xs) (hx : x ∈ xs) (hnext : m.next x = some y) :
    y ∈ xs := by
  cases xs with
  | nil => exact absurd hx List.not_mem_nil
  | cons z zs =>
      rcases h.2.next_mem hx with hstop | ⟨w, hw, hnext'⟩
      · cases hnext.symm.trans hstop
      · exact Option.some.inj (hnext'.symm.trans hnext) ▸ hw

theorem Holds.next_ne (h : Holds m head xs) (hx : x ∈ xs) : m.next x ≠ some x := by
  cases xs with
  | nil => exact absurd hx List.not_mem_nil
  | cons y ys => exact h.2.next_ne h.1 hx

theorem Holds.congr (h : Holds m head xs) (hnext : ∀ y ∈ xs, m'.next y = m.next y)
    (hprev : ∀ y ∈ xs, m'.prev y = m.prev y) : Holds m' head xs := by
  cases xs with
  | nil => exact h
  | cons x xs => exact ⟨h.1, h.2.congr hnext hprev⟩

theorem holds_single (hnext : m.next x = none) (hprev : m.prev x = x) :
    Holds m (some x) [x] :=
  ⟨List.nodup_singleton x, rfl, hprev, hnext⟩

/-- The head still leads to the first element when that is removed. -/
theorem not_holds_tail (h : Holds m head (x :: xs)) : ¬Holds m' head xs := by
  intro h'
  have hhead := h.head_eq.symm.trans h'.head_eq
  cases xs with
  | nil => cases hhead
  | cons y ys =>
      have hxy : x = y := Option.some.inj hhead
      exact (List.nodup_cons.mp h.nodup).1 (hxy ▸ List.mem_cons_self)

/-! ## Edits of the list -/

section Edits

variable [DecidableEq A]

theorem Holds.append (h : Holds m head (x :: xs)) (hn : n ∉ x :: xs) :
    Holds (m.append x n) head (x :: (xs ++ [n])) := by
  have hnx : n ≠ x := fun hnx => hn (hnx ▸ List.mem_cons_self)
  have hlast := h.prev_first
  obtain ⟨hnodup, hhead, -, hxs⟩ := h
  have hne (y : A) (hy : y ∈ x :: xs) : y ≠ n := fun hyn => hn (hyn ▸ hy)
  refine ⟨?_, hhead, ?_, ?_⟩
  · rw [← List.cons_append, ← List.concat_eq_append]
    exact hnodup.concat hn
  · rw [prev_append, if_pos rfl, List.getLastD_concat]
  · refine segment_append.mpr ⟨some n, hxs.retarget hnodup (fun y hy hyl => ?_) ?_ fun y hy => ?_,
      rfl, ?_, ?_⟩
    · rw [next_append hnx, if_neg (hne y hy), hlast, if_neg hyl]
    · rw [next_append hnx, if_neg (hne _ List.getLastD_mem_cons), hlast, if_pos rfl]
    · have hyx : y ≠ x := fun hyx => (List.nodup_cons.mp hnodup).1 (hyx ▸ hy)
      rw [prev_append, if_neg hyx, if_neg (hne y (List.mem_cons_of_mem _ hy))]
    · rw [prev_append, if_neg hnx, if_pos rfl, hlast]
    · rw [Segment, next_append hnx, if_pos rfl]

/-- An element with one before it and one behind it. -/
theorem Holds.remove_inner (h : Holds m head (x :: (xs ++ n :: y :: ys))) :
    Holds (m.remove n) head (x :: (xs ++ y :: ys)) := by
  have hlast := h.prev_first
  obtain ⟨hnodup, hhead, -, hrest⟩ := h
  obtain ⟨mid, hxs, rfl, hprev, hnext, hyn, hys⟩ := segment_append.mp hrest
  have hsub : (x :: (xs ++ y :: ys)).Sublist (x :: (xs ++ n :: y :: ys)) :=
    ((List.sublist_cons_self n _).append_left _).cons_cons x
  have hnodup' := hnodup.sublist hsub
  rw [← List.cons_append, List.nodup_append] at hnodup hnodup'
  obtain ⟨hxs', hys', hapart⟩ := hnodup'
  have hny : m.next n ≠ some n := by
    rw [hnext]
    intro hloop
    exact (List.nodup_cons.mp hnodup.2.1).1 (Option.some.inj hloop ▸ List.mem_cons_self)
  have hkept (z : A) (hz : z ≠ y) : (m.remove n).prev z = m.prev z := by
    rw [prev_remove, hnext, if_neg fun hyz => hz (Option.some.inj hyz).symm]
  refine ⟨?_, hhead, ?_, ?_⟩
  · rw [← List.cons_append]
    exact List.nodup_append.mpr ⟨hxs', hys', hapart⟩
  · rw [hkept x (hapart x List.mem_cons_self y List.mem_cons_self), hlast, getLastD_append_cons,
      getLastD_append_cons, List.getLastD_cons]
  · refine segment_append.mpr ⟨some y, hxs.retarget hxs' (fun z _ hz => ?_) ?_ fun z hz => ?_,
      rfl, ?_, ?_⟩
    · rw [next_remove hny, hprev, if_neg hz]
    · rw [next_remove hny, hprev, if_pos rfl, hnext]
    · exact hkept z (hapart z (List.mem_cons_of_mem _ hz) y List.mem_cons_self)
    · rw [prev_remove, hnext, if_pos rfl, hprev]
    -- what follows `y` is not touched
    · have hbehind (z : A) (hz : z ∈ y :: ys) : (m.remove n).next z = m.next z := by
        rw [next_remove hny, hprev, if_neg (hapart _ List.getLastD_mem_cons z hz).symm]
      rw [hbehind y List.mem_cons_self]
      refine hys.congr (fun z hz => hbehind z (List.mem_cons_of_mem _ hz)) fun z hz => ?_
      refine hkept z fun hzy => (List.nodup_cons.mp hys').1 (hzy ▸ hz)

/-- The hidden tail pointer still leads to the last element when that is removed. -/
theorem not_holds_remove_last (h : Holds m head (x :: (xs ++ [n]))) :
    ¬Holds (m.remove n) head (x :: xs) := by
  intro h'
  have hlast := h.prev_first
  rw [List.getLastD_concat] at hlast
  obtain ⟨hnodup, -, -, hrest⟩ := h
  obtain ⟨mid, -, -, -, hnext⟩ := segment_append.mp hrest
  have hkept := h'.prev_first
  rw [prev_remove, show m.next n = none from hnext, if_neg (by simp), hlast] at hkept
  rw [← List.cons_append, List.nodup_append] at hnodup
  exact hnodup.2.2 _ List.getLastD_mem_cons n List.mem_cons_self hkept.symm

end Edits

end TailList
