import LuojiOs.Support.Buffer

/-!
# Texts in a buffer

A text is kept in a buffer of fixed length, filled up with a value that no text holds.
Insertion and deletion shift the part behind the place.  The last section is about what a
number of texts have in common at their beginning.
-/

namespace Text

variable {α : Type*} {z c : α} {t u : List α} {i n p : ℕ}

/-- `t`, filled up to the length `n`. -/
def pad (n : ℕ) (z : α) (t : List α) : List α := t ++ List.replicate (n - t.length) z

theorem length_pad (h : t.length ≤ n) : (pad n z t).length = n := by
  unfold pad
  rw [List.length_append, List.length_replicate]
  omega

theorem getElem?_pad_of_lt (hi : i < t.length) : (pad n z t)[i]? = t[i]? :=
  List.getElem?_append_left hi

theorem getElem?_pad_of_ge (hi : t.length ≤ i) (hn : i < n) : (pad n z t)[i]? = some z := by
  unfold pad
  rw [List.getElem?_append_right hi, List.getElem?_replicate, if_pos (by omega)]

theorem getElem?_pad_of_outside (h : t.length ≤ n) (hn : n ≤ i) : (pad n z t)[i]? = none :=
  List.getElem?_eq_none (by rw [length_pad h]; exact hn)

theorem take_pad : (pad n z t).take t.length = t := List.take_left

/-- The filler stands behind the text and nowhere else. -/
theorem idxOf_pad [DecidableEq α] (hz : z ∉ t) (u : List α) (h : t.length < n) :
    (pad n z t ++ u).idxOf z = t.length := by
  have hn : 0 < n - t.length := by omega
  obtain ⟨k, hk⟩ := Nat.exists_eq_add_of_lt hn
  unfold pad
  rw [List.append_assoc, List.idxOf_append, if_neg hz, hk, Nat.zero_add, List.replicate_succ,
    List.cons_append, List.idxOf_cons_self, Nat.zero_add]

theorem eq_of_pad_eq [DecidableEq α] (ht : z ∉ t) (hu : z ∉ u) (htn : t.length < n)
    (hun : u.length < n) (h : pad n z t = pad n z u) : t = u := by
  have hlength : t.length = u.length := by
    rw [← idxOf_pad ht [] htn, ← idxOf_pad hu [] hun, h]
  calc t = (pad n z t).take t.length := take_pad.symm
    _ = (pad n z u).take u.length := by rw [h, hlength]
    _ = u := take_pad

/-- A text that is written over a shorter one. -/
theorem put_pad (htu : t.length ≤ u.length) (hu : u.length ≤ n) :
    Buffer.put (pad n z t) 0 u = pad n z u := by
  have hpad : (pad n z t).length = n := length_pad (htu.trans hu)
  apply List.ext_getElem?
  intro i
  rw [Buffer.getElem?_put, hpad]
  by_cases hi : i < u.length
  · rw [if_pos (by omega), getElem?_pad_of_lt hi, Nat.sub_zero]
  · rw [if_neg (by omega)]
    rcases Nat.lt_or_ge i n with hin | hout
    · rw [getElem?_pad_of_ge (by omega) hin, getElem?_pad_of_ge (by omega) hin]
    · rw [getElem?_pad_of_outside (htu.trans hu) hout, getElem?_pad_of_outside hu hout]

/-! ## Insertion and deletion -/

/-- What is behind the place `p` is moved up by one, and `c` is stored there. -/
theorem set_put_pad (hlt : t.length < n) (hp : p ≤ t.length) :
    (Buffer.put (pad n z t) (p + 1) (((pad n z t).drop p).take (t.length - p))).set p c =
      pad n z (t.insertIdx p c) := by
  have hlength : (t.insertIdx p c).length = t.length + 1 :=
    List.length_insertIdx_of_le_length hp c
  have hpad : (pad n z t).length = n := length_pad (Nat.le_of_lt hlt)
  have hmoved : (((pad n z t).drop p).take (t.length - p)).length = t.length - p := by
    rw [List.length_take, List.length_drop, hpad]
    omega
  apply List.ext_getElem?
  intro i
  rw [List.getElem?_set, Buffer.length_put, hpad, Buffer.getElem?_put, hmoved, hpad]
  rcases Nat.lt_or_ge i n with hin | hout
  · rcases Nat.lt_trichotomy i p with hbefore | rfl | hbehind
    · rw [if_neg (by omega), if_neg (by omega), getElem?_pad_of_lt (by omega),
        getElem?_pad_of_lt (by omega), List.getElem?_insertIdx, if_pos hbefore]
    · rw [if_pos rfl, if_pos hin, getElem?_pad_of_lt (by omega), List.getElem?_insertIdx,
        if_neg (Nat.lt_irrefl _), if_pos rfl, if_pos hp]
    · rw [if_neg (by omega)]
      by_cases hinside : i < t.length + 1
      · have hsource : p + (i - (p + 1)) = i - 1 := by omega
        rw [if_pos (by omega), List.getElem?_take_of_lt (by omega), List.getElem?_drop, hsource,
          getElem?_pad_of_lt (by omega), getElem?_pad_of_lt (by omega), List.getElem?_insertIdx,
          if_neg (by omega), if_neg (by omega)]
      · rw [if_neg (by omega), getElem?_pad_of_ge (by omega) hin,
          getElem?_pad_of_ge (by omega) hin]
  · rw [if_neg (by omega), if_neg (by omega), getElem?_pad_of_outside (Nat.le_of_lt hlt) hout,
      getElem?_pad_of_outside (by omega) hout]

/-- What is behind the place `p` is moved down by one, and the last place is cleared. -/
theorem set_put_pad_erase (hle : t.length ≤ n) (hp : p < t.length) :
    (Buffer.put (pad n z t) p (((pad n z t).drop (p + 1)).take (t.length - 1 - p))).set
      (t.length - 1) z = pad n z (t.eraseIdx p) := by
  have hlength : (t.eraseIdx p).length = t.length - 1 := List.length_eraseIdx_of_lt hp
  have hpad : (pad n z t).length = n := length_pad hle
  have hmoved : (((pad n z t).drop (p + 1)).take (t.length - 1 - p)).length =
      t.length - 1 - p := by
    rw [List.length_take, List.length_drop, hpad]
    omega
  apply List.ext_getElem?
  intro i
  rw [List.getElem?_set, Buffer.length_put, hpad, Buffer.getElem?_put, hmoved, hpad]
  rcases Nat.lt_or_ge i n with hin | hout
  · by_cases hlast : t.length - 1 = i
    · rw [if_pos hlast, if_pos (by omega), getElem?_pad_of_ge (by omega) hin]
    · rw [if_neg hlast]
      rcases Nat.lt_or_ge i p with hbefore | hbehind
      · rw [if_neg (by omega), getElem?_pad_of_lt (by omega), getElem?_pad_of_lt (by omega),
          List.getElem?_eraseIdx_of_lt hbefore]
      · by_cases hinside : i < t.length - 1
        · have hsource : p + 1 + (i - p) = i + 1 := by omega
          rw [if_pos (by omega), List.getElem?_take_of_lt (by omega), List.getElem?_drop,
            hsource, getElem?_pad_of_lt (by omega), getElem?_pad_of_lt (by omega),
            List.getElem?_eraseIdx_of_ge hbehind]
        · rw [if_neg (by omega), getElem?_pad_of_ge (by omega) hin,
            getElem?_pad_of_ge (by omega) hin]
  · rw [if_neg (by omega), if_neg (by omega), getElem?_pad_of_outside hle hout,
      getElem?_pad_of_outside (by omega) hout]

/-! ## Common beginnings -/

section Common

variable [DecidableEq α] {s v : List α} {texts : List (List α)}

/-- The longest list that two lists begin with. -/
def commonPrefix : List α → List α → List α
  | a :: t, b :: u => if a = b then a :: commonPrefix t u else []
  | _, _ => []

theorem prefix_commonPrefix_iff : s <+: commonPrefix t u ↔ s <+: t ∧ s <+: u := by
  induction t generalizing u s with
  | nil =>
      simp only [commonPrefix, List.prefix_nil]
      exact ⟨fun h => ⟨h, h ▸ List.nil_prefix⟩, And.left⟩
  | cons a t ih =>
      cases u with
      | nil =>
          simp only [commonPrefix, List.prefix_nil]
          exact ⟨fun h => ⟨h ▸ List.nil_prefix, h⟩, And.right⟩
      | cons b u =>
          unfold commonPrefix
          cases s with
          | nil => simp
          | cons d s =>
              by_cases hab : a = b
              · subst hab
                rw [if_pos rfl, List.cons_prefix_cons, List.cons_prefix_cons, List.cons_prefix_cons,
                  ih]
                tauto
              · rw [if_neg hab, List.cons_prefix_cons, List.cons_prefix_cons]
                constructor
                · intro h
                  cases List.prefix_nil.mp h
                · rintro ⟨⟨rfl, -⟩, rfl, -⟩
                  exact absurd rfl hab

theorem commonPrefix_prefix_left : commonPrefix t u <+: t :=
  (prefix_commonPrefix_iff.mp List.prefix_rfl).1

/-- The longest list that `t` and all the `texts` begin with. -/
def commonPrefixes (t : List α) (texts : List (List α)) : List α :=
  texts.foldl commonPrefix t

theorem prefix_commonPrefixes_iff :
    s <+: commonPrefixes t texts ↔ s <+: t ∧ ∀ u ∈ texts, s <+: u := by
  unfold commonPrefixes
  induction texts generalizing t with
  | nil => simp
  | cons u texts ih =>
      rw [List.foldl_cons, ih, prefix_commonPrefix_iff]
      simp only [List.mem_cons, forall_eq_or_imp, and_assoc]

/-- A beginning of `t` against another text. -/
theorem commonPrefix_take (n : ℕ) (t u : List α) :
    commonPrefix (t.take n) u = t.take (min n (commonPrefix t u).length) := by
  induction t generalizing u n with
  | nil => simp [commonPrefix]
  | cons a t ih =>
      cases n with
      | zero => simp [commonPrefix]
      | succ n =>
          cases u with
          | nil => simp [commonPrefix]
          | cons b u =>
              rw [List.take_succ_cons]
              unfold commonPrefix
              by_cases hab : a = b
              · rw [if_pos hab, if_pos hab, ih, List.length_cons, Nat.succ_min_succ,
                  List.take_succ_cons]
              · rw [if_neg hab, if_neg hab]
                rfl

end Common

end Text
