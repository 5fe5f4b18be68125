import Mathlib.Data.List.Infix
import Mathlib.Data.Nat.Find

/-!
# Patterns with wild cards

A pattern matches a string if each of its `any` can be given some part of the string.  A search
that puts the characters behind an `any` where they occur first, and does not come back, finds
fewer matches.
-/

namespace Glob

/-- A piece of a pattern: any string, any character, or one character. -/
inductive Piece (C : Type*)
  | any
  | one
  | lit (c : C)

variable {C : Type*} {p rest : List (Piece C)} {w : Piece C} {s u v q u' v' q' : List C} {c : C}

/-- The pattern matches the whole string. -/
inductive Matches : List (Piece C) → List C → Prop
  | nil : Matches [] []
  | any {p : List (Piece C)} {v : List C} (u : List C) (h : Matches p v) :
      Matches (.any :: p) (u ++ v)
  | one {p : List (Piece C)} {s : List C} {c : C} (h : Matches p s) : Matches (.one :: p) (c :: s)
  | lit {p : List (Piece C)} {s : List C} {c : C} (h : Matches p s) :
      Matches (.lit c :: p) (c :: s)

def Piece.Wild : Piece C → Prop
  | any => True
  | one => True
  | lit _ => False

/-- The pieces of a string. -/
def literals (q : List C) : List (Piece C) := q.map .lit

/-- `q` occurs in `s` between `u` and `v`, and not before. -/
structure First (q u v s : List C) : Prop where
  eq : s = u ++ (q ++ v)
  least : ∀ u' v', s = u' ++ (q ++ v') → u.length ≤ u'.length

/-- The matches of a search that puts each run of characters behind an `any` where it occurs first,
and the last run at the end. -/
inductive Leftmost : List (Piece C) → List C → Prop
  | nil : Leftmost [] []
  | one {p : List (Piece C)} {s : List C} {c : C} (h : Leftmost p s) :
      Leftmost (.one :: p) (c :: s)
  | lit {p : List (Piece C)} {s : List C} {c : C} (h : Leftmost p s) :
      Leftmost (.lit c :: p) (c :: s)
  | last (q u : List C) : Leftmost (.any :: literals q) (u ++ q)
  | next {p : List (Piece C)} {w : Piece C} {q u v s : List C} (hw : w.Wild) (hq : q ≠ [])
      (hfirst : First q u v s) (h : Leftmost (w :: p) v) :
      Leftmost (.any :: (literals q ++ w :: p)) s

/-- The search comes to an `any` from which on the pattern matches, and loses the match. -/
inductive Misplaced : List (Piece C) → List C → Prop
  | one {p : List (Piece C)} {s : List C} {c : C} (h : Misplaced p s) :
      Misplaced (.one :: p) (c :: s)
  | lit {p : List (Piece C)} {s : List C} {c : C} (h : Misplaced p s) :
      Misplaced (.lit c :: p) (c :: s)
  /-- No character stands behind the `any`. -/
  | adjacent {p : List (Piece C)} {w : Piece C} {s : List C} (hw : w.Wild)
      (h : Matches (.any :: w :: p) s) : Misplaced (.any :: w :: p) s
  /-- The run behind the `any` is followed by `one`, and its first occurrence is not the right
  one. -/
  | late {p : List (Piece C)} {q u v s : List C} (hq : q ≠ []) (hfirst : First q u v s)
      (h : Matches (.any :: (literals q ++ .one :: p)) s) (hlost : ¬Matches (.one :: p) v) :
      Misplaced (.any :: (literals q ++ .one :: p)) s
  | next {p : List (Piece C)} {w : Piece C} {q u v s : List C} (hw : w.Wild) (hq : q ≠ [])
      (hfirst : First q u v s) (h : Misplaced (w :: p) v) :
      Misplaced (.any :: (literals q ++ w :: p)) s

/-! ## Runs and their occurrences -/

theorem matches_literals : Matches (literals q ++ p) s ↔ ∃ v, s = q ++ v ∧ Matches p v := by
  induction q generalizing s with
  | nil => exact ⟨fun h => ⟨s, rfl, h⟩, fun ⟨v, hs, h⟩ => by rwa [hs]⟩
  | cons c q ih =>
      constructor
      · intro h
        cases h with
        | lit h =>
            obtain ⟨v, rfl, hv⟩ := ih.mp h
            exact ⟨v, rfl, hv⟩
      · rintro ⟨v, rfl, hv⟩
        exact Matches.lit (ih.mpr ⟨v, rfl, hv⟩)

theorem matches_any : Matches (.any :: p) s ↔ ∃ u v, s = u ++ v ∧ Matches p v := by
  constructor
  · intro h
    cases h with
    | any u h => exact ⟨u, _, rfl, h⟩
  · rintro ⟨u, v, rfl, h⟩
    exact Matches.any u h

/-- A run is followed by its first wild card in one way only. -/
theorem run_inj (hw : w.Wild) {w' : Piece C} (hw' : w'.Wild) {p' : List (Piece C)}
    (h : literals q ++ w :: p = literals q' ++ w' :: p') : q = q' ∧ w = w' ∧ p = p' := by
  induction q generalizing q' with
  | nil =>
      cases q' with
      | nil => exact ⟨rfl, List.cons.inj h⟩
      | cons c q' => exact absurd hw (by rw [(List.cons.inj h).1]; exact not_false)
  | cons c q ih =>
      cases q' with
      | nil => exact absurd hw' (by rw [← (List.cons.inj h).1]; exact not_false)
      | cons d q' =>
          obtain ⟨hc, hrest⟩ := List.cons.inj h
          obtain ⟨hq, hwild⟩ := ih hrest
          exact ⟨by rw [Piece.lit.inj hc, hq], hwild⟩

theorem literals_ne_run (hw : w.Wild) : literals q' ≠ literals q ++ w :: p := by
  intro h
  have hmem : w ∈ literals q' := h ▸ List.mem_append_right _ List.mem_cons_self
  obtain ⟨c, -, rfl⟩ := List.mem_map.mp hmem
  exact hw

/-- A pattern is a run of characters, with a wild card behind it or not. -/
theorem exists_run (p : List (Piece C)) :
    ∃ q, p = literals q ∨ ∃ w rest, w.Wild ∧ p = literals q ++ w :: rest := by
  induction p with
  | nil => exact ⟨[], Or.inl rfl⟩
  | cons w p ih =>
      cases w with
      | any => exact ⟨[], Or.inr ⟨.any, p, trivial, rfl⟩⟩
      | one => exact ⟨[], Or.inr ⟨.one, p, trivial, rfl⟩⟩
      | lit c =>
          obtain ⟨q, rfl | ⟨w, rest, hw, rfl⟩⟩ := ih
          · exact ⟨c :: q, Or.inl rfl⟩
          · exact ⟨c :: q, Or.inr ⟨w, rest, hw, rfl⟩⟩

theorem First.unique (h : First q u v s) (h' : First q u' v' s) : u = u' ∧ v = v' := by
  have hlen : u.length = u'.length := Nat.le_antisymm (h.least _ _ h'.eq) (h'.least _ _ h.eq)
  obtain ⟨hu, hrest⟩ := List.append_inj (h.eq.symm.trans h'.eq) hlen
  exact ⟨hu, List.append_cancel_left hrest⟩

/-- What occurs at all has a first occurrence. -/
theorem exists_first (h : s = u ++ (q ++ v)) : ∃ u v, First q u v s := by
  classical
  have hex : ∃ n, ∃ u v, s = u ++ (q ++ v) ∧ u.length = n := ⟨u.length, u, v, h, rfl⟩
  obtain ⟨u', v', hs, hn⟩ := Nat.find_spec hex
  refine ⟨u', v', hs, fun a b hab => ?_⟩
  rw [hn]
  exact Nat.find_min' hex ⟨a, b, hab, rfl⟩

/-- Behind the first occurrence there is at least as much as behind another one. -/
theorem First.suffix (h : First q u v s) (h' : s = u' ++ (q ++ v')) : ∃ t, v = t ++ v' := by
  have hlen := h.least _ _ h'
  have hv : v <:+ s := ⟨u ++ q, by rw [List.append_assoc, ← h.eq]⟩
  have hv' : v' <:+ s := ⟨u' ++ q, by rw [List.append_assoc, ← h']⟩
  have hle : v'.length ≤ v.length := by
    have hs := congrArg List.length h.eq
    have hs' := congrArg List.length h'
    simp only [List.length_append] at hs hs'
    omega
  obtain ⟨t, ht⟩ := List.suffix_of_suffix_length_le hv' hv hle
  exact ⟨t, ht.symm⟩

/-- A run behind an `any` that matches has a first occurrence. -/
theorem exists_first_of_matches (h : Matches (.any :: (literals q ++ p)) s) :
    ∃ u v, First q u v s := by
  obtain ⟨u, t, rfl, ht⟩ := matches_any.mp h
  obtain ⟨v, rfl, -⟩ := matches_literals.mp ht
  exact exists_first rfl

/-- In front of another `any` the first occurrence is as good as any. -/
theorem matches_of_first (hfirst : First q u v s)
    (h : Matches (.any :: (literals q ++ .any :: p)) s) : Matches (.any :: p) v := by
  obtain ⟨u', t, hs, ht⟩ := matches_any.mp h
  obtain ⟨v', rfl, hv'⟩ := matches_literals.mp ht
  obtain ⟨t, rfl⟩ := hfirst.suffix hs
  obtain ⟨a, b, rfl, hb⟩ := matches_any.mp hv'
  exact matches_any.mpr ⟨t ++ a, b, (List.append_assoc _ _ _).symm, hb⟩

/-! ## The search -/

theorem Leftmost.matches (h : Leftmost p s) : Matches p s := by
  induction h with
  | nil => exact Matches.nil
  | one h ih => exact Matches.one ih
  | lit h ih => exact Matches.lit ih
  | last q u =>
      refine Matches.any u ?_
      have hq := @matches_literals C [] q q
      rw [List.append_nil] at hq
      exact hq.mpr ⟨[], (List.append_nil q).symm, Matches.nil⟩
  | next hw hq hfirst h ih =>
      rw [hfirst.eq]
      exact Matches.any _ (matches_literals.mpr ⟨_, rfl, ih⟩)

theorem leftmost_nil : Leftmost ([] : List (Piece C)) s ↔ s = [] := by
  constructor
  · intro h
    cases h
    rfl
  · rintro rfl
    exact Leftmost.nil

theorem leftmost_one : Leftmost (.one :: p) s ↔ ∃ c t, s = c :: t ∧ Leftmost p t := by
  constructor
  · intro h
    cases h with
    | one h => exact ⟨_, _, rfl, h⟩
  · rintro ⟨c, t, rfl, h⟩
    exact Leftmost.one h

theorem leftmost_lit : Leftmost (.lit c :: p) s ↔ ∃ t, s = c :: t ∧ Leftmost p t := by
  constructor
  · intro h
    cases h with
    | lit h => exact ⟨_, rfl, h⟩
  · rintro ⟨t, rfl, h⟩
    exact Leftmost.lit h

theorem leftmost_last : Leftmost (.any :: literals q) s ↔ ∃ u, s = u ++ q := by
  constructor
  · intro hleft
    obtain ⟨u, t, rfl, ht⟩ := matches_any.mp hleft.matches
    rw [← List.append_nil (literals q)] at ht
    obtain ⟨v, rfl, hv⟩ := matches_literals.mp ht
    cases hv
    exact ⟨u, by rw [List.append_nil]⟩
  · rintro ⟨u, rfl⟩
    exact Leftmost.last q u

theorem leftmost_run (hw : w.Wild) :
    Leftmost (.any :: (literals q ++ w :: p)) s ↔
      q ≠ [] ∧ ∃ u v, First q u v s ∧ Leftmost (w :: p) v := by
  constructor
  · intro h
    generalize hp : Piece.any :: (literals q ++ w :: p) = p' at h
    cases h with
    | nil => cases hp
    | one h => cases hp
    | lit h => cases hp
    | last q' u => exact absurd (List.cons.inj hp).2.symm (literals_ne_run hw)
    | next hw' hq' hfirst h =>
        obtain ⟨rfl, rfl, rfl⟩ := run_inj hw hw' (List.cons.inj hp).2
        exact ⟨hq', _, _, hfirst, h⟩
  · rintro ⟨hq, u, v, hfirst, h⟩
    exact Leftmost.next hw hq hfirst h

/-- A misplaced search loses a match. -/
theorem Misplaced.lost (h : Misplaced p s) : Matches p s ∧ ¬Leftmost p s := by
  induction h with
  | one h ih =>
      refine ⟨Matches.one ih.1, fun hleft => ?_⟩
      cases hleft with
      | one hleft => exact ih.2 hleft
  | lit h ih =>
      refine ⟨Matches.lit ih.1, fun hleft => ?_⟩
      cases hleft with
      | lit hleft => exact ih.2 hleft
  | adjacent hw h => exact ⟨h, fun hleft => ((@leftmost_run C _ _ _ [] hw).mp hleft).1 rfl⟩
  | late hq hfirst h hlost =>
      refine ⟨h, fun hleft => hlost ?_⟩
      obtain ⟨-, u, v, hfirst', hrest⟩ := (@leftmost_run C _ .one _ _ trivial).mp hleft
      rw [(hfirst.unique hfirst').2]
      exact hrest.matches
  | next hw hq hfirst h ih =>
      constructor
      · rw [hfirst.eq]
        exact Matches.any _ (matches_literals.mpr ⟨_, rfl, ih.1⟩)
      · intro hleft
        obtain ⟨-, u, v, hfirst', hrest⟩ := (leftmost_run hw).mp hleft
        rw [← (hfirst.unique hfirst').2] at hrest
        exact ih.2 hrest

/-- A match that is lost is lost at an `any`. -/
theorem misplaced_of_lost (h : Matches p s) (hlost : ¬Leftmost p s) : Misplaced p s := by
  induction hn : p.length using Nat.strong_induction_on generalizing p s with
  | _ n ih =>
      subst hn
      cases h with
      | nil => exact absurd Leftmost.nil hlost
      | one h =>
          exact Misplaced.one (ih _ (Nat.lt_succ_self _) h (fun hl => hlost (Leftmost.one hl)) rfl)
      | lit h =>
          exact Misplaced.lit (ih _ (Nat.lt_succ_self _) h (fun hl => hlost (Leftmost.lit hl)) rfl)
      | @any p v u h =>
          have hany := Matches.any u h
          obtain ⟨q, rfl | ⟨w, rest, hw, rfl⟩⟩ := exists_run p
          · have hq := @matches_literals C [] v q
            rw [List.append_nil] at hq
            obtain ⟨t, rfl, ht⟩ := hq.mp h
            cases ht
            rw [List.append_nil] at hlost
            exact absurd (Leftmost.last q u) hlost
          by_cases hq : q = []
          · subst hq
            exact Misplaced.adjacent hw hany
          obtain ⟨a, b, hfirst⟩ := exists_first_of_matches hany
          by_cases hb : Matches (w :: rest) b
          · refine Misplaced.next hw hq hfirst (ih _ ?_ hb (fun hleft => ?_) rfl)
            · have hle : (w :: rest).length ≤ (literals q ++ w :: rest).length := by
                rw [List.length_append]
                exact Nat.le_add_left _ _
              exact Nat.lt_succ_of_le hle
            · exact hlost (Leftmost.next hw hq hfirst hleft)
          · cases w with
            | any => exact absurd (matches_of_first hfirst hany) hb
            | one => exact Misplaced.late hq hfirst hany hb
            | lit c => exact hw.elim

/-- The search finds a match if there is one, unless it is misplaced. -/
theorem leftmost_iff_matches : (Leftmost p s ↔ Matches p s) ↔ ¬Misplaced p s := by
  constructor
  · intro hiff hmis
    exact hmis.lost.2 (hiff.mpr hmis.lost.1)
  · intro hmis
    refine ⟨Leftmost.matches, fun h => ?_⟩
    by_contra hlost
    exact hmis (misplaced_of_lost h hlost)

/-- Without `one`, and without an `any` next to another one, nothing is misplaced. -/
theorem Misplaced.exists_cause (h : Misplaced p s) : .one ∈ p ∨ [.any, .any] <:+: p := by
  induction h with
  | one h ih => exact Or.inl List.mem_cons_self
  | lit h ih =>
      exact ih.imp (List.mem_cons_of_mem _) fun hadj => hadj.trans (List.suffix_cons _ _).isInfix
  | @adjacent p w s hw h =>
      cases w with
      | any => exact Or.inr ⟨[], p, rfl⟩
      | one => exact Or.inl (List.mem_cons_of_mem _ List.mem_cons_self)
      | lit c => exact hw.elim
  | late hq hfirst h hlost =>
      exact Or.inl (List.mem_cons_of_mem _ (List.mem_append_right _ List.mem_cons_self))
  | @next p w q u v s hw hq hfirst h ih =>
      have hsuffix : w :: p <:+ .any :: (literals q ++ w :: p) :=
        (List.suffix_append _ _).trans (List.suffix_cons _ _)
      exact ih.imp (fun hone => hsuffix.subset hone) fun hadj => hadj.trans hsuffix.isInfix

end Glob
