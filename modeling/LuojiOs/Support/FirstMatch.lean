import Mathlib.Data.List.Basic

/-!
# The first element that passes a test

A search through a list whose test may depend on the elements in front of the one tested.  Two
tests find the same element if they agree wherever neither has been passed before.
-/

namespace FirstMatch

variable {A : Type*} {test test' : List A → A → Prop} {l l' front front' : List A} {x x' : A}

/-- No element passes the test. -/
def Fails (test : List A → A → Prop) (l : List A) : Prop :=
  ∀ front x behind, l = front ++ x :: behind → ¬test front x

/-- The first element of `l` that passes the test is `x`, which stands behind `front`. -/
structure First (test : List A → A → Prop) (l front : List A) (x : A) : Prop where
  split : ∃ behind, l = front ++ x :: behind
  passes : test front x
  earlier : Fails test front

theorem fails_nil : Fails test [] :=
  fun _ _ _ h => absurd h.symm (List.append_ne_nil_of_right_ne_nil _ (List.cons_ne_nil _ _))

theorem Fails.of_append (h : Fails test (l ++ l')) : Fails test l := by
  rintro front x behind rfl
  exact h front x (behind ++ l') (by rw [List.append_assoc, List.cons_append])

theorem Fails.concat (h : Fails test l) (hx : ¬test l x) : Fails test (l ++ [x]) := by
  intro front y behind hsplit
  rcases List.eq_nil_or_concat' behind with rfl | ⟨rest, z, rfl⟩
  · obtain ⟨rfl, hy⟩ := List.append_inj' hsplit rfl
    obtain rfl : x = y := List.singleton_inj.mp hy
    exact hx
  · rw [← List.cons_append, ← List.append_assoc] at hsplit
    exact h front y rest (List.append_inj' hsplit rfl).1

/-- Nothing passes in front of the first one, and something does from there on. -/
theorem First.length_le (h : First test l front x) (h' : First test l front' x') :
    front.length ≤ front'.length := by
  obtain ⟨behind, hsplit⟩ := h.split
  obtain ⟨behind', hsplit'⟩ := h'.split
  by_contra hlt
  have hprefix : front' ++ [x'] <+: front := by
    refine @List.prefix_of_prefix_length_le _ _ _ l ⟨behind', ?_⟩ ⟨x :: behind, hsplit.symm⟩ ?_
    · rw [hsplit', List.append_cons front' x' behind']
    · rw [List.length_append, List.length_singleton]
      omega
  obtain ⟨mid, hmid⟩ := hprefix
  exact h.earlier front' x' mid (by rw [← hmid, List.append_cons front' x' mid]) h'.passes

theorem First.unique (h : First test l front x) (h' : First test l front' x') :
    front = front' ∧ x = x' := by
  obtain ⟨behind, hsplit⟩ := h.split
  obtain ⟨behind', hsplit'⟩ := h'.split
  obtain ⟨hfront, hrest⟩ := List.append_inj (hsplit.symm.trans hsplit')
    (Nat.le_antisymm (h.length_le h') (h'.length_le h))
  exact ⟨hfront, (List.cons.inj hrest).1⟩

theorem First.not_fails (h : First test l front x) : ¬Fails test l := by
  obtain ⟨behind, hsplit⟩ := h.split
  exact fun hfails => hfails front x behind hsplit h.passes

section Search

variable [∀ front, DecidablePred (test front)]

/-- The search, behind `front`. -/
def search (test : List A → A → Prop) [∀ front, DecidablePred (test front)] :
    List A → List A → Option (List A × A)
  | _, [] => none
  | front, x :: xs => if test front x then some (front, x) else search test (front ++ [x]) xs

theorem search_spec (hfront : Fails test front) :
    match search test front l with
    | some (found, x) => First test (front ++ l) found x
    | none => Fails test (front ++ l) := by
  induction l generalizing front with
  | nil =>
      rw [List.append_nil]
      exact hfront
  | cons x xs ih =>
      unfold search
      by_cases hx : test front x
      · rw [if_pos hx]
        exact ⟨⟨xs, rfl⟩, hx, hfront⟩
      · rw [if_neg hx, List.append_cons front x xs]
        exact ih (hfront.concat hx)

theorem search_append : search test front (l ++ l') =
    (search test front l).or (search test (front ++ l) l') := by
  induction l generalizing front with
  | nil => rw [List.nil_append, List.append_nil, search, Option.none_or]
  | cons x xs ih =>
      rw [List.cons_append, search, search]
      split
      · rw [Option.some_or]
      · rw [ih, List.append_cons front x xs]

theorem search_length {found : List A} (h : search test front l = some (found, x)) :
    front.length ≤ found.length ∧ found.length < front.length + l.length := by
  induction l generalizing front with
  | nil => cases h
  | cons y ys ih =>
      unfold search at h
      split at h
      · cases h
        rw [List.length_cons]
        omega
      · have hrest := ih h
        rw [List.length_append, List.length_singleton] at hrest
        rw [List.length_cons]
        omega

theorem search_eq_none : search test [] l = none ↔ Fails test l := by
  have hspec := @search_spec A test l [] _ fails_nil
  cases hsearch : search test [] l with
  | none =>
      rw [hsearch] at hspec
      exact iff_of_true rfl hspec
  | some found =>
      rw [hsearch] at hspec
      exact iff_of_false (Option.some_ne_none found) hspec.not_fails

theorem search_eq_some : search test [] l = some (front, x) ↔ First test l front x := by
  have hspec := @search_spec A test l [] _ fails_nil
  cases hsearch : search test [] l with
  | none =>
      rw [hsearch] at hspec
      exact iff_of_false (Option.some_ne_none _).symm fun h => h.not_fails hspec
  | some found =>
      rw [hsearch] at hspec
      obtain ⟨front', x'⟩ := found
      constructor
      · intro h
        cases h
        exact hspec
      · intro h
        obtain ⟨rfl, rfl⟩ := h.unique hspec
        rfl

end Search

/-- Either something passes, and then something does first, or nothing does. -/
theorem exists_first_or_fails (test : List A → A → Prop) (l : List A) :
    (∃ front x, First test l front x) ∨ Fails test l := by
  classical
  cases hsearch : search test [] l with
  | none => exact Or.inr (search_eq_none.mp hsearch)
  | some found => exact Or.inl ⟨found.1, found.2, search_eq_some.mp hsearch⟩

theorem exists_first_iff : (∃ front x, First test l front x) ↔
    ∃ front x behind, l = front ++ x :: behind ∧ test front x := by
  constructor
  · rintro ⟨front, x, h⟩
    obtain ⟨behind, hsplit⟩ := h.split
    exact ⟨front, x, behind, hsplit, h.passes⟩
  · rintro ⟨front, x, behind, hsplit, hx⟩
    exact (exists_first_or_fails test l).resolve_right fun hfails => hfails front x behind hsplit hx

/-! ## Two tests -/

/-- What stands behind the same elements is the same. -/
theorem First.eq_of_front (h : First test l front x) (h' : First test' l front x') : x = x' := by
  obtain ⟨behind, hsplit⟩ := h.split
  obtain ⟨behind', hsplit'⟩ := h'.split
  exact (List.cons.inj (List.append_cancel_left (hsplit.symm.trans hsplit'))).1

/-- The tests agree on every element such that neither has been passed before. -/
def Agree (test test' : List A → A → Prop) (l : List A) : Prop :=
  ∀ front x behind, l = front ++ x :: behind → Fails test front → Fails test' front →
    (test front x ↔ test' front x)

theorem Agree.of_append (h : Agree test test' (l ++ l')) : Agree test test' l := by
  rintro front x behind rfl
  exact h front x (behind ++ l') (by rw [List.append_assoc, List.cons_append])

theorem Agree.fails (h : Agree test test' l) (hfails : Fails test l) : Fails test' l := by
  rcases exists_first_or_fails test' l with ⟨front, x, hfirst⟩ | hfails'
  · obtain ⟨behind, rfl⟩ := hfirst.split
    have hx := (h front x behind rfl hfails.of_append hfirst.earlier).mpr hfirst.passes
    exact absurd hx (hfails front x behind rfl)
  · exact hfails'

theorem Agree.first (h : Agree test test' l) (hfirst : First test l front x) :
    First test' l front x := by
  obtain ⟨behind, rfl⟩ := hfirst.split
  have hearlier := h.of_append.fails hfirst.earlier
  exact ⟨⟨behind, rfl⟩, (h front x behind rfl hfirst.earlier hearlier).mp hfirst.passes, hearlier⟩

/-- The tests agree if what is first for one of them is first for the other one. -/
theorem agree_of_first (h : ∀ front x, First test l front x → First test' l front x)
    (h' : ∀ front x, First test' l front x → First test l front x) : Agree test test' l := by
  intro front x behind hsplit hfails hfails'
  constructor
  · intro hx
    exact (h front x ⟨⟨behind, hsplit⟩, hx, hfails⟩).passes
  · intro hx
    exact (h' front x ⟨⟨behind, hsplit⟩, hx, hfails'⟩).passes

end FirstMatch
