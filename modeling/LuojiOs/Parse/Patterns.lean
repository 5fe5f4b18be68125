import LuojiOs.Files.Table
import LuojiOs.Support.Glob
import Mathlib.Data.List.TakeWhile

/-!
# `strpat`

The pattern `*` matches any string and `?` any character.  The string and the pattern are put
between anchors, which do not occur in them, and the run of characters behind a `*` is looked for
from the left.
-/

namespace LuojiOs

namespace Filesys

open Glob

/-- The pieces of a pattern. -/
def pieceOf (c : BitVec 8) : Piece (BitVec 8) :=
  if c = star then .any else if c = question then .one else .lit c

def pieces (pat : CString) : List (Piece (BitVec 8)) := pat.map pieceOf

/-- The character stands for itself. -/
def isPlain (c : BitVec 8) : Bool := c ≠ star ∧ c ≠ question

variable {s pat q u v : CString} {c d : BitVec 8} {fuel : ℕ}

theorem pieces_plain (hq : ∀ c ∈ q, isPlain c = true) : pieces q = literals q := by
  unfold pieces literals
  refine List.map_congr_left fun c hc => ?_
  obtain ⟨hstar, hquestion⟩ := of_decide_eq_true (hq c hc)
  unfold pieceOf
  rw [if_neg hstar, if_neg hquestion]

theorem pieceOf_wild (hc : isPlain c = false) : (pieceOf c).Wild := by
  unfold pieceOf
  by_cases hstar : c = star
  · rw [if_pos hstar]
    trivial
  · have hquestion : c = question := by
      by_contra hne
      exact absurd (decide_eq_true (⟨hstar, hne⟩ : c ≠ star ∧ c ≠ question))
        (by rw [← isPlain, hc]; decide)
    rw [if_neg hstar, if_pos hquestion]
    trivial

/-! ## The first occurrence -/

theorem first_cons (hpre : ¬q <+: c :: s) :
    First q (d :: u) v (c :: s) ↔ d = c ∧ First q u v s := by
  constructor
  · intro hfirst
    obtain ⟨rfl, hs⟩ := List.cons.inj hfirst.eq
    refine ⟨rfl, hs, fun u' v' hs' => ?_⟩
    exact Nat.le_of_succ_le_succ (hfirst.least (c :: u') v' (congrArg (c :: ·) hs'))
  · rintro ⟨rfl, hfirst⟩
    refine ⟨congrArg (d :: ·) hfirst.eq, fun u' v' hs' => ?_⟩
    cases u' with
    | nil => exact absurd ⟨v', hs'.symm⟩ hpre
    | cons e u' => exact Nat.succ_le_succ (hfirst.least u' v' (List.cons.inj hs').2)

/-- `strposn` finds the first occurrence. -/
theorem behind_eq_some (hq : q ≠ []) : behind q s = some v ↔ ∃ u, First q u v s := by
  induction s with
  | nil =>
      have hnone : behind q [] = none := if_neg hq
      rw [hnone]
      refine iff_of_false nofun ?_
      rintro ⟨u, hfirst⟩
      obtain ⟨-, hqv⟩ := List.append_eq_nil_iff.mp hfirst.eq.symm
      exact hq (List.append_eq_nil_iff.mp hqv).1
  | cons c s ih =>
      unfold behind
      by_cases hpre : q <+: c :: s
      · rw [if_pos (List.isPrefixOf_iff_prefix.mpr hpre)]
        obtain ⟨t, ht⟩ := hpre
        have hdrop : (c :: s).drop q.length = t := by rw [← ht, List.drop_left]
        have hfirst : First q [] t (c :: s) := ⟨ht.symm, fun _ _ _ => Nat.zero_le _⟩
        rw [hdrop]
        constructor
        · intro htv
          obtain rfl := Option.some.inj htv
          exact ⟨[], hfirst⟩
        · rintro ⟨u, hfirst'⟩
          rw [(hfirst.unique hfirst').2]
      · rw [if_neg fun h => hpre (List.isPrefixOf_iff_prefix.mp h), ih]
        constructor
        · rintro ⟨u, hfirst⟩
          exact ⟨c :: u, (first_cons hpre).mpr ⟨rfl, hfirst⟩⟩
        · rintro ⟨u, hfirst⟩
          cases u with
          | nil => exact absurd ⟨v, hfirst.eq.symm⟩ hpre
          | cons d u => exact ⟨u, ((first_cons hpre).mp hfirst).2⟩

/-- The anchor at the end is behind each run that does not contain it. -/
theorem anchor_split (hq : q ≠ []) (hanchor : EANCHOR ∉ q)
    (h : s ++ [EANCHOR] = u ++ (q ++ v)) : ∃ v', v = v' ++ [EANCHOR] ∧ s = u ++ (q ++ v') := by
  rcases List.eq_nil_or_concat v with rfl | ⟨v', d, rfl⟩
  · obtain ⟨q', d, rfl⟩ := (List.eq_nil_or_concat q).resolve_left hq
    rw [List.append_nil, List.concat_eq_append, ← List.append_assoc] at h
    obtain ⟨-, hd⟩ := List.append_inj' h rfl
    rw [List.concat_eq_append, ← hd] at hanchor
    exact absurd (List.mem_append_right q' List.mem_cons_self) hanchor
  · rw [List.concat_eq_append, ← List.append_assoc, ← List.append_assoc] at h
    obtain ⟨hs, hd⟩ := List.append_inj' h rfl
    rw [List.append_assoc] at hs
    exact ⟨v', by rw [List.concat_eq_append, hd], hs⟩

theorem first_anchor (hq : q ≠ []) (hanchor : EANCHOR ∉ q) :
    First q u v (s ++ [EANCHOR]) ↔ ∃ v', v = v' ++ [EANCHOR] ∧ First q u v' s := by
  constructor
  · intro hfirst
    obtain ⟨v', hv, hs⟩ := anchor_split hq hanchor hfirst.eq
    refine ⟨v', hv, hs, fun a b hab => ?_⟩
    refine hfirst.least a (b ++ [EANCHOR]) ?_
    rw [hab, List.append_assoc, List.append_assoc]
  · rintro ⟨v', rfl, hfirst⟩
    refine ⟨by rw [hfirst.eq, List.append_assoc, List.append_assoc], fun a b hab => ?_⟩
    obtain ⟨b', -, hs⟩ := anchor_split hq hanchor hab
    exact hfirst.least a b' hs

/-! ## The loop -/

theorem strpatFrom_cons {p : CString} : strpatFrom (fuel + 1) (c :: p) (d :: pat) =
    if d = star then
      match if pat.takeWhile isPlain = [] then some []
        else behind (pat.takeWhile isPlain) (c :: p) with
      | none => false
      | some p => strpatFrom fuel p (pat.drop (pat.takeWhile isPlain).length)
    else if d = question ∨ d = c then strpatFrom fuel p pat
    else false := rfl

theorem isPlain_anchor : isPlain EANCHOR = true := by decide

/-- Behind the end of the string only the end of the pattern matches. -/
theorem strpatFrom_nil : strpatFrom (fuel + 1) [] (pat ++ [EANCHOR]) = false := by
  have hne : pat ++ [EANCHOR] ≠ [star] := by
    intro h
    have hmem : EANCHOR ∈ [star] := h ▸ List.mem_append_right pat List.mem_cons_self
    exact absurd (List.mem_singleton.mp hmem) (by decide)
  cases pat with
  | nil => rfl
  | cons d pat => exact decide_eq_false hne

/-- A `*` with a run that ends the pattern. -/
theorem strpatFrom_last (hq : ∀ c ∈ q, isPlain c = true) (hs : EANCHOR ∉ s) :
    strpatFrom (fuel + 2) (s ++ [EANCHOR]) (star :: (q ++ [EANCHOR])) = true ↔
      ∃ u, s = u ++ q := by
  have hrun : (q ++ [EANCHOR]).takeWhile isPlain = q ++ [EANCHOR] := by
    refine List.takeWhile_eq_self_iff.mpr fun c hc => ?_
    rcases List.mem_append.mp hc with hc | hc
    · exact hq c hc
    · rw [List.mem_singleton.mp hc]
      exact isPlain_anchor
  have hne : q ++ [EANCHOR] ≠ [] := List.append_ne_nil_of_right_ne_nil q (List.cons_ne_nil _ _)
  obtain ⟨c, p, hcp⟩ := List.exists_cons_of_ne_nil
    (List.append_ne_nil_of_right_ne_nil s (List.cons_ne_nil EANCHOR []))
  rw [hcp, strpatFrom_cons, if_pos rfl, hrun, if_neg hne, List.drop_length, ← hcp]
  have hend : ∀ u v, s ++ [EANCHOR] = u ++ ((q ++ [EANCHOR]) ++ v) → v = [] ∧ s = u ++ q := by
    intro u v h
    rcases List.eq_nil_or_concat v with rfl | ⟨v', d, rfl⟩
    · rw [List.append_nil, ← List.append_assoc] at h
      exact ⟨rfl, (List.append_inj' h rfl).1⟩
    · rw [List.concat_eq_append, ← List.append_assoc, ← List.append_assoc] at h
      have hmem : EANCHOR ∈ s := by
        rw [(List.append_inj' h rfl).1]
        simp
      exact absurd hmem hs
  cases hbehind : behind (q ++ [EANCHOR]) (s ++ [EANCHOR]) with
  | none =>
      refine iff_of_false Bool.false_ne_true ?_
      rintro ⟨u, rfl⟩
      obtain ⟨a, b, hfirst⟩ := exists_first (s := u ++ q ++ [EANCHOR]) (u := u)
        (q := q ++ [EANCHOR]) (v := []) (by rw [List.append_nil, List.append_assoc])
      cases hbehind.symm.trans ((behind_eq_some hne).mpr ⟨a, hfirst⟩)
  | some v =>
      obtain ⟨u, hfirst⟩ := (behind_eq_some hne).mp hbehind
      obtain ⟨rfl, hs⟩ := hend u v hfirst.eq
      exact iff_of_true rfl ⟨u, hs⟩

/-- Without a run behind a `*` the string is passed over. -/
theorem strpatFrom_adjacent {w : BitVec 8} (hw : isPlain w = false) :
    strpatFrom (fuel + 2) (s ++ [EANCHOR]) (star :: w :: pat ++ [EANCHOR]) = false := by
  have hrun : (w :: pat ++ [EANCHOR]).takeWhile isPlain = [] :=
    List.takeWhile_cons_of_neg (by rw [hw]; exact Bool.false_ne_true)
  obtain ⟨c, p, hcp⟩ := List.exists_cons_of_ne_nil
    (List.append_ne_nil_of_right_ne_nil s (List.cons_ne_nil EANCHOR []))
  rw [hcp, List.cons_append, strpatFrom_cons, if_pos rfl, hrun, if_pos rfl]
  exact @strpatFrom_nil (w :: pat) fuel

/-- A `*` with a run and another wild card behind it. -/
theorem strpatFrom_next {w : BitVec 8} (hq : ∀ c ∈ q, isPlain c = true) (hne : q ≠ [])
    (hw : isPlain w = false) (hanchor : EANCHOR ∉ q) :
    strpatFrom (fuel + 1) (s ++ [EANCHOR]) (star :: (q ++ w :: pat)) = true ↔
      ∃ u v, First q u v s ∧ strpatFrom fuel (v ++ [EANCHOR]) (w :: pat) = true := by
  have hrun : (q ++ w :: pat).takeWhile isPlain = q := by
    rw [List.takeWhile_append_of_pos hq,
      List.takeWhile_cons_of_neg (by rw [hw]; exact Bool.false_ne_true), List.append_nil]
  obtain ⟨c, p, hcp⟩ := List.exists_cons_of_ne_nil
    (List.append_ne_nil_of_right_ne_nil s (List.cons_ne_nil EANCHOR []))
  rw [hcp, strpatFrom_cons, if_pos rfl, hrun, if_neg hne, List.drop_left, ← hcp]
  cases hbehind : behind q (s ++ [EANCHOR]) with
  | none =>
      refine iff_of_false Bool.false_ne_true ?_
      rintro ⟨u, v, hfirst, -⟩
      have hfirst' := (first_anchor hne hanchor).mpr ⟨v, rfl, hfirst⟩
      cases hbehind.symm.trans ((behind_eq_some hne).mpr ⟨u, hfirst'⟩)
  | some v =>
      obtain ⟨u, hfirst⟩ := (behind_eq_some hne).mp hbehind
      obtain ⟨v', rfl, hfirst'⟩ := (first_anchor hne hanchor).mp hfirst
      constructor
      · exact fun h => ⟨u, v', hfirst', h⟩
      · rintro ⟨a, b, hab, h⟩
        rwa [(hfirst'.unique hab).2]

/-- The pattern has ended. -/
theorem strpatFrom_end (hs : EANCHOR ∉ s) :
    strpatFrom (fuel + 2) (s ++ [EANCHOR]) [EANCHOR] = true ↔ s = [] := by
  cases s with
  | nil => exact iff_of_true rfl rfl
  | cons c s =>
      have hc : EANCHOR ≠ c := fun h => hs (h ▸ List.mem_cons_self)
      refine iff_of_false ?_ (List.cons_ne_nil c s)
      rw [List.cons_append, strpatFrom_cons, if_neg (by decide),
        if_neg (not_or.mpr ⟨by decide, hc⟩)]
      exact Bool.false_ne_true

theorem strpatFrom_question :
    strpatFrom (fuel + 2) (s ++ [EANCHOR]) (question :: (pat ++ [EANCHOR])) = true ↔
      ∃ c t, s = c :: t ∧ strpatFrom (fuel + 1) (t ++ [EANCHOR]) (pat ++ [EANCHOR]) = true := by
  have hstar : question ≠ star := by decide
  cases s with
  | nil =>
      refine iff_of_false ?_ (by rintro ⟨c, t, heq, -⟩; cases heq)
      rw [List.nil_append, strpatFrom_cons, if_neg hstar, if_pos (Or.inl rfl), strpatFrom_nil]
      exact Bool.false_ne_true
  | cons c s =>
      rw [List.cons_append, strpatFrom_cons, if_neg hstar, if_pos (Or.inl rfl)]
      constructor
      · exact fun h => ⟨c, s, rfl, h⟩
      · rintro ⟨d, t, heq, h⟩
        rwa [(List.cons.inj heq).2]

theorem strpatFrom_plain (hstar : d ≠ star) (hquestion : d ≠ question) (hd : d ≠ EANCHOR) :
    strpatFrom (fuel + 1) (s ++ [EANCHOR]) (d :: (pat ++ [EANCHOR])) = true ↔
      ∃ t, s = d :: t ∧ strpatFrom fuel (t ++ [EANCHOR]) (pat ++ [EANCHOR]) = true := by
  cases s with
  | nil =>
      refine iff_of_false ?_ (by rintro ⟨t, heq, -⟩; cases heq)
      rw [List.nil_append, strpatFrom_cons, if_neg hstar, if_neg (not_or.mpr ⟨hquestion, hd⟩)]
      exact Bool.false_ne_true
  | cons c s =>
      rw [List.cons_append, strpatFrom_cons, if_neg hstar]
      by_cases hc : d = c
      · subst hc
        rw [if_pos (Or.inr rfl)]
        constructor
        · exact fun h => ⟨s, rfl, h⟩
        · rintro ⟨t, heq, h⟩
          rwa [(List.cons.inj heq).2]
      · rw [if_neg (not_or.mpr ⟨hquestion, hc⟩)]
        refine iff_of_false Bool.false_ne_true ?_
        rintro ⟨t, heq, -⟩
        exact hc (List.cons.inj heq).1.symm

/-- A pattern stands for itself up to its first wild card. -/
theorem exists_wild (pat : CString) : (∀ c ∈ pat, isPlain c = true) ∨
    ∃ q w rest, pat = q ++ w :: rest ∧ (∀ c ∈ q, isPlain c = true) ∧ isPlain w = false := by
  have hplain : ∀ c ∈ pat.takeWhile isPlain, isPlain c = true := fun c hc =>
    List.mem_takeWhile_imp hc
  have hsplit : pat = pat.takeWhile isPlain ++ pat.dropWhile isPlain :=
    List.takeWhile_append_dropWhile.symm
  cases hrest : pat.dropWhile isPlain with
  | nil =>
      rw [hrest, List.append_nil] at hsplit
      exact Or.inl (hsplit ▸ hplain)
  | cons w rest =>
      have hw : isPlain w = false := by
        have hhead := List.head?_dropWhile_not isPlain pat
        rw [hrest] at hhead
        simpa using hhead
      exact Or.inr ⟨_, w, rest, hrest ▸ hsplit, hplain, hw⟩

/-- The loop is the search that does not come back. -/
theorem strpatFrom_iff (hfuel : pat.length + 2 ≤ fuel) (hs : EANCHOR ∉ s) (hpat : EANCHOR ∉ pat) :
    strpatFrom fuel (s ++ [EANCHOR]) (pat ++ [EANCHOR]) = true ↔ Leftmost (pieces pat) s := by
  induction fuel generalizing s pat with
  | zero => omega
  | succ fuel ih =>
      obtain ⟨fuel, rfl⟩ : ∃ k, fuel = k + 1 := ⟨fuel - 1, by omega⟩
      cases pat with
      | nil => exact (strpatFrom_end hs).trans leftmost_nil.symm
      | cons d pat =>
          have hpat' : EANCHOR ∉ pat := fun h => hpat (List.mem_cons_of_mem _ h)
          have hpieces : pieces (d :: pat) = pieceOf d :: pieces pat := rfl
          rw [List.length_cons] at hfuel
          rw [hpieces, List.cons_append]
          by_cases hstar : d = star
          · subst hstar
            have hany : pieceOf star = .any := if_pos rfl
            rw [hany]
            rcases exists_wild pat with hplain | ⟨q, w, rest, rfl, hplain, hw⟩
            · rw [strpatFrom_last hplain hs, pieces_plain hplain, leftmost_last]
            · have hrest : EANCHOR ∉ w :: rest := fun h => hpat' (List.mem_append_right _ h)
              have hq : EANCHOR ∉ q := fun h => hpat' (List.mem_append_left _ h)
              have hpieces' : pieces (q ++ w :: rest) = literals q ++ pieceOf w :: pieces rest := by
                rw [← pieces_plain hplain]
                exact List.map_append
              rw [List.length_append] at hfuel
              rw [hpieces', leftmost_run (pieceOf_wild hw), List.append_assoc, List.cons_append]
              by_cases hne : q = []
              · subst hne
                refine iff_of_false ?_ fun h => h.1 rfl
                exact ne_true_of_eq_false (strpatFrom_adjacent hw)
              · rw [strpatFrom_next hplain hne hw hq, ← List.cons_append, and_iff_right hne]
                refine exists_congr fun u => exists_congr fun v => and_congr_right fun hfirst => ?_
                have hv : EANCHOR ∉ v := fun h => hs (by
                  rw [hfirst.eq]
                  exact List.mem_append_right _ (List.mem_append_right _ h))
                exact ih (by omega) hv hrest
          by_cases hquestion : d = question
          · subst hquestion
            have hone : pieceOf question = .one := rfl
            rw [hone, strpatFrom_question, leftmost_one]
            refine exists_congr fun c => exists_congr fun t => and_congr_right fun heq => ?_
            have ht : EANCHOR ∉ t := fun h => hs (heq ▸ List.mem_cons_of_mem c h)
            exact ih (by omega) ht hpat'
          · have hlit : pieceOf d = .lit d := by
              unfold pieceOf
              rw [if_neg hstar, if_neg hquestion]
            have hd : d ≠ EANCHOR := fun h => hpat (h ▸ List.mem_cons_self)
            rw [hlit, strpatFrom_plain hstar hquestion hd, leftmost_lit]
            refine exists_congr fun t => and_congr_right fun heq => ?_
            have ht : EANCHOR ∉ t := fun h => hs (heq ▸ List.mem_cons_of_mem d h)
            exact ih (by omega) ht hpat'

theorem strpat_iff_leftmost (hs : EANCHOR ∉ s) (hpat : EANCHOR ∉ pat) :
    strpat s pat = true ↔ Leftmost (pieces pat) s := by
  have hstep : strpat s pat = strpatFrom (s.length + pat.length + 3) (s ++ [EANCHOR])
      (pat ++ [EANCHOR]) := by
    unfold strpat
    rw [List.cons_append, List.cons_append, strpatFrom_cons, if_neg (by decide),
      if_pos (Or.inr rfl)]
  rw [hstep, strpatFrom_iff (by omega) hs hpat]

/-! ## Matching -/

/-- The string matches the pattern. -/
def Globs (pat s : CString) : Prop := Matches (pieces pat) s

/-- `strpat` answers as the pattern says, unless it loses a match at a `*` that has no character
behind it, or one whose run is followed by `?` and does not belong to its first place. -/
theorem strpat_iff_globs (hs : BANCHOR ∉ s ∧ EANCHOR ∉ s) (hpat : BANCHOR ∉ pat ∧ EANCHOR ∉ pat) :
    (strpat s pat = true ↔ Globs pat s) ↔ ¬Misplaced (pieces pat) s := by
  rw [strpat_iff_leftmost hs.2 hpat.2]
  exact leftmost_iff_matches

/-- Patterns without `?` and without two `*` in a row are safe. -/
theorem strpat_iff_globs_of_stars (hs : BANCHOR ∉ s ∧ EANCHOR ∉ s)
    (hpat : BANCHOR ∉ pat ∧ EANCHOR ∉ pat) (hquestion : question ∉ pat)
    (hstars : ¬[star, star] <:+: pat) : strpat s pat = true ↔ Globs pat s := by
  refine (strpat_iff_globs hs hpat).mpr fun hmis => ?_
  have hany : ∀ c, pieceOf c = .any → c = star := by
    intro c hc
    unfold pieceOf at hc
    split at hc
    · assumption
    split at hc
    · cases hc
    · cases hc
  rcases hmis.exists_cause with hone | ⟨a, b, hab⟩
  · obtain ⟨c, hc, hpiece⟩ := List.mem_map.mp hone
    unfold pieceOf at hpiece
    split at hpiece
    · cases hpiece
    split at hpiece
    · next heq => exact hquestion (heq ▸ hc)
    · cases hpiece
  · obtain ⟨l, r, rfl, hl, -⟩ := List.map_eq_append_iff.mp hab.symm
    obtain ⟨l, m, rfl, -, hm⟩ := List.map_eq_append_iff.mp hl
    obtain ⟨c, m, rfl, hc, hm⟩ := List.map_eq_cons_iff.mp hm
    obtain ⟨d, m, rfl, hd, hm⟩ := List.map_eq_cons_iff.mp hm
    obtain rfl := List.map_eq_nil_iff.mp hm
    obtain rfl := hany c hc
    obtain rfl := hany d hd
    exact hstars ⟨l, r, rfl⟩

/-- `a*b?` and `abxabc` -/
theorem strpat_iff_globs_abc :
    (strpat (cstr "abxabc") (cstr "a*b?") = true ↔ Globs (cstr "a*b?") (cstr "abxabc")) ↔
      ¬Misplaced (pieces (cstr "a*b?")) (cstr "abxabc") :=
  strpat_iff_globs (by decide) (by decide)

/-- `*b?` does not match `xbxbc`, whose first `b` is not the right one. -/
theorem strpat_not_globs :
    strpat (cstr "xbxbc") (cstr "*b?") = false ∧ Globs (cstr "*b?") (cstr "xbxbc") := by
  refine ⟨by decide, ?_⟩
  exact Matches.any (cstr "xbx") (Matches.lit (Matches.one Matches.nil))

end Filesys

end LuojiOs
