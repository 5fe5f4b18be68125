import Mathlib.Data.List.Nodup
import Mathlib.Data.List.Range
import Mathlib.Logic.Nontrivial.Defs

/-!
# Places that are not skipped

The places of an interval that a predicate admits, in their order.  Taking them in two parts,
where the second part begins as many places further as the first one took, is the same as
taking them at once exactly if nothing was skipped in between.
-/

namespace Places

variable {good : ℕ → Bool} {start mid stop a b n x : ℕ}

/-- The admitted places from `start` up to `stop`. -/
def places (good : ℕ → Bool) (start stop : ℕ) : List ℕ :=
  (List.range' start (stop - start)).filter good

theorem mem_places : x ∈ places good start stop ↔ start ≤ x ∧ x < stop ∧ good x = true := by
  unfold places
  rw [List.mem_filter, List.mem_range'_1]
  constructor
  · rintro ⟨⟨hstart, hstop⟩, hgood⟩
    exact ⟨hstart, by omega, hgood⟩
  · rintro ⟨hstart, hstop, hgood⟩
    exact ⟨⟨hstart, by omega⟩, hgood⟩

theorem nodup_places : (places good start stop).Nodup :=
  List.Nodup.filter _ List.nodup_range'

theorem places_of_le (h : stop ≤ start) : places good start stop = [] := by
  unfold places
  rw [Nat.sub_eq_zero_of_le h]
  rfl

theorem places_append (hstart : start ≤ mid) (hstop : mid ≤ stop) :
    places good start mid ++ places good mid stop = places good start stop := by
  unfold places
  have hlength : stop - start = (mid - start) + (stop - mid) := by omega
  have hmid : start + (mid - start) = mid := by omega
  rw [hlength, ← List.range'_append_1, List.filter_append, hmid]

theorem places_eq_range' (h : ∀ x, start ≤ x → x < stop → good x = true) :
    places good start stop = List.range' start (stop - start) := by
  unfold places
  apply List.filter_eq_self.mpr
  intro x hx
  rw [List.mem_range'_1] at hx
  exact h x hx.1 (by omega)

theorem places_eq_nil (h : ∀ x, start ≤ x → x < stop → good x = false) :
    places good start stop = [] := by
  apply List.eq_nil_iff_forall_not_mem.mpr
  intro x hx
  obtain ⟨hstart, hstop, hgood⟩ := mem_places.mp hx
  rw [h x hstart hstop] at hgood
  cases hgood

theorem length_places_le : (places good start stop).length ≤ stop - start := by
  refine (List.length_filter_le _ _).trans ?_
  rw [List.length_range']

theorem length_places_eq_iff :
    (places good start stop).length = stop - start ↔
      ∀ x, start ≤ x → x < stop → good x = true := by
  constructor
  · intro hlength x hstart hstop
    have hrange : (List.range' start (stop - start)).length = stop - start := List.length_range'
    have hall := List.length_filter_eq_length_iff.mp (hlength.trans hrange.symm)
    exact hall x (List.mem_range'_1.mpr ⟨hstart, by omega⟩)
  · intro h
    rw [places_eq_range' h, List.length_range']

/-- If there are enough places in front of `mid`, they are those in front of `stop`, where no
place lies behind `stop` at all. -/
theorem take_places_eq (hstop : ∀ x, good x = true → x < stop)
    (hn : n ≤ (places good start mid).length) :
    (places good start mid).take n = (places good start stop).take n := by
  rcases Nat.lt_or_ge mid start with hlt | hstart
  · rw [places_of_le hlt.le] at hn
    rw [Nat.le_zero.mp hn, List.take_zero, List.take_zero]
  rcases Nat.lt_or_ge stop mid with hlt | hle
  · congr 1
    have hnone : places good stop mid = [] := by
      apply places_eq_nil
      intro x hx _
      exact Bool.eq_false_iff.mpr fun hgood => absurd (hstop x hgood) (Nat.not_lt.mpr hx)
    rcases Nat.lt_or_ge stop start with hfront | hinside
    · rw [places_of_le hfront.le]
      apply places_eq_nil
      intro x hx _
      exact Bool.eq_false_iff.mpr fun hgood =>
        absurd (hstop x hgood) (Nat.not_lt.mpr (hfront.le.trans hx))
    · rw [← places_append hinside hlt.le, hnone, List.append_nil]
  · rw [← places_append hstart hle, List.take_append_of_le_length hn]

/-- If places are taken in two parts, and the second part begins `a` places behind `start`, it
begins where the first one ended exactly if the first one skipped nothing. -/
theorem take_append_take_iff (hb : 0 < b) (hlength : a + b ≤ (places good start stop).length) :
    (places good start stop).take a ++ (places good (start + a) stop).take b =
        (places good start stop).take (a + b) ↔
      ∀ x, start ≤ x → x < start + a → good x = true := by
  have hwide := hlength.trans length_places_le
  have hsplit : places good start (start + a) ++ places good (start + a) stop =
      places good start stop := places_append (by omega) (by omega)
  rw [List.take_add, List.append_cancel_left_eq, ← length_places_eq_iff, Nat.add_sub_cancel_left]
  have hle : (places good start (start + a)).length ≤ a :=
    length_places_le.trans (Nat.add_sub_cancel_left start a).le
  generalize hfirst : places good start (start + a) = first at hsplit hle ⊢
  generalize hrest : places good (start + a) stop = rest at hsplit ⊢
  have hdistinct : rest.Nodup := hrest ▸ nodup_places
  rw [← hsplit, List.length_append] at hlength
  rw [← hsplit, List.drop_append, List.drop_of_length_le hle, List.nil_append]
  constructor
  · intro heq
    -- the first place of the rest cannot also be a later one
    have hzero : rest[0]? = rest[a - first.length]? := by
      have hhead := congrArg (·[0]?) heq
      simpa [List.getElem?_take, hb] using hhead
    have hindex := (List.getElem?_inj (by omega) hdistinct).mp hzero
    omega
  · intro hall
    rw [hall, Nat.sub_self, List.drop_zero]

theorem take_range' : (List.range' start a).take n = List.range' start (min n a) := by
  rcases Nat.le_total n a with hle | hle
  · rw [List.take_range'_of_length_ge hle, Nat.min_eq_left hle]
  · rw [List.take_range'_of_length_le hle, Nat.min_eq_right hle]

/-- Lists with the same values under every map are the same. -/
theorem eq_of_map_eq {α β : Type*} [Nontrivial β] {xs ys : List α}
    (h : ∀ f : α → β, xs.map f = ys.map f) : xs = ys := by
  classical
  obtain ⟨c, d, hcd⟩ := exists_pair_ne β
  apply List.ext_getElem?
  intro i
  have hi (f : α → β) : xs[i]?.map f = ys[i]?.map f := by
    rw [← List.getElem?_map, ← List.getElem?_map, h f]
  cases hx : xs[i]? with
  | none =>
      have hmap := hi fun _ => c
      rw [hx] at hmap
      exact (Option.map_eq_none_iff.mp hmap.symm).symm
  | some x =>
      have hmap := hi fun y => if y = x then c else d
      rw [hx] at hmap
      cases hy : ys[i]? with
      | none =>
          rw [hy] at hmap
          cases hmap
      | some y =>
          rw [hy] at hmap
          by_cases hyx : y = x
          · rw [hyx]
          · simp [hyx, hcd] at hmap

end Places
