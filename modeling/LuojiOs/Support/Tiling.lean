import Mathlib.Data.List.Basic
import Mathlib.Data.List.Chain
import Mathlib.Order.Interval.Set.Defs

/-!
# Tilings of an interval

A list of pieces tiles `[o, e)` when each piece starts where the one before it stops.
Pieces may carry any data; only where they start and stop matters here.  Two pieces of a
tiling are the same or lie apart.  A tiling without two neighbouring gaps is determined by
its full pieces.
-/

namespace Tiling

variable {α : Type*} {start stop : α → ℕ} {o e : ℕ} {a b : α} {as bs : List α}

/-- The pieces lie end to end from `o` to `e`, and none is empty. -/
def Tiles (start stop : α → ℕ) : ℕ → List α → ℕ → Prop
  | o, [], e => o = e
  | o, b :: bs, e => start b = o ∧ start b < stop b ∧ Tiles start stop (stop b) bs e

theorem tiles_append :
    Tiles start stop o (as ++ bs) e ↔
      ∃ m, Tiles start stop o as m ∧ Tiles start stop m bs e := by
  induction as generalizing o with
  | nil => simp [Tiles]
  | cons a as ih =>
      simp only [List.cons_append, Tiles, ih]
      constructor
      · rintro ⟨hs, hlt, m, has, hbs⟩
        exact ⟨m, ⟨hs, hlt, has⟩, hbs⟩
      · rintro ⟨m, ⟨hs, hlt, has⟩, hbs⟩
        exact ⟨hs, hlt, m, has, hbs⟩

/-- The pieces around one piece of a tiling. -/
theorem tiles_append_cons :
    Tiles start stop o (as ++ b :: bs) e ↔
      Tiles start stop o as (start b) ∧ start b < stop b ∧ Tiles start stop (stop b) bs e := by
  rw [tiles_append]
  constructor
  · rintro ⟨m, has, rfl, hlt, hbs⟩
    exact ⟨has, hlt, hbs⟩
  · rintro ⟨has, hlt, hbs⟩
    exact ⟨start b, has, rfl, hlt, hbs⟩

theorem Tiles.le (h : Tiles start stop o bs e) : o ≤ e := by
  induction bs generalizing o with
  | nil => exact Nat.le_of_eq h
  | cons b bs ih =>
      have := ih h.2.2
      have := h.1
      have := h.2.1
      omega

theorem Tiles.mem_bounds (h : Tiles start stop o bs e) (hb : b ∈ bs) :
    o ≤ start b ∧ start b < stop b ∧ stop b ≤ e := by
  obtain ⟨as, cs, rfl⟩ := List.append_of_mem hb
  obtain ⟨has, hlt, hcs⟩ := tiles_append_cons.mp h
  exact ⟨has.le, hlt, hcs.le⟩

/-- The length of a tiling is bounded by the length of the interval. -/
theorem Tiles.length_le (h : Tiles start stop o bs e) : o + bs.length ≤ e := by
  induction bs generalizing o with
  | nil => exact Nat.le_of_eq h
  | cons b bs ih =>
      have := ih h.2.2
      have := h.1
      have := h.2.1
      simp only [List.length_cons]
      omega

/-- Two pieces of a tiling are the same, or one stops before the other starts. -/
theorem Tiles.apart (h : Tiles start stop o bs e) (ha : a ∈ bs) (hb : b ∈ bs) :
    a = b ∨ stop a ≤ start b ∨ stop b ≤ start a := by
  induction bs generalizing o with
  | nil => cases ha
  | cons c bs ih =>
      rcases List.mem_cons.mp ha with rfl | ha'
      · rcases List.mem_cons.mp hb with rfl | hb'
        · exact Or.inl rfl
        · exact Or.inr (Or.inl (h.2.2.mem_bounds hb').1)
      · rcases List.mem_cons.mp hb with rfl | hb'
        · exact Or.inr (Or.inr (h.2.2.mem_bounds ha').1)
        · exact ih h.2.2 ha' hb'

/-- A piece is determined by its start. -/
theorem Tiles.eq_of_start (h : Tiles start stop o bs e) (ha : a ∈ bs) (hb : b ∈ bs)
    (hs : start a = start b) : a = b := by
  have hla := h.mem_bounds ha
  have hlb := h.mem_bounds hb
  rcases h.apart ha hb with hab | hab | hab
  · exact hab
  · omega
  · omega

/-! ## Coalesced tilings -/

section Coalesced

variable {full : α → Prop}

/-- Where the first piece is a gap, it does not reach beyond the first piece of another
tiling of the interval whose second piece is full. -/
theorem Tiles.stop_le_of_gap (h : Tiles start stop o (a :: as) e)
    (h' : Tiles start stop o (b :: bs) e) (hb : ¬full b) (hnext : ∀ c ∈ as.head?, full c)
    (hmem : ∀ x ∈ as, full x → x ∈ b :: bs) : stop b ≤ stop a := by
  cases as with
  | nil =>
      have ha : stop a = e := h.2.2
      have := h'.2.2.le
      omega
  | cons c cs =>
      have hc : full c := hnext c rfl
      have hcstart : start c = stop a := h.2.2.1
      rcases List.mem_cons.mp (hmem c (by simp) hc) with rfl | hcbs
      · exact absurd hc hb
      · have := (h'.2.2.mem_bounds hcbs).1
        omega

/-- Two tilings of an interval are the same if they have the same full pieces, neither has
two neighbouring gaps, and a gap is determined by its bounds. -/
theorem Tiles.eq_of_full (h : Tiles start stop o as e) (h' : Tiles start stop o bs e)
    (hchain : as.IsChain fun a b => full a ∨ full b)
    (hchain' : bs.IsChain fun a b => full a ∨ full b)
    (hfull : ∀ x, full x → (x ∈ as ↔ x ∈ bs))
    (hext : ∀ x y, ¬full x → ¬full y → start x = start y → stop x = stop y → x = y) :
    as = bs := by
  induction as generalizing o bs with
  | nil =>
      obtain rfl : o = e := h
      cases bs with
      | nil => rfl
      | cons b bs =>
          have := h'.2.2.le
          have := h'.1
          have := h'.2.1
          omega
  | cons a as ih =>
      cases bs with
      | nil =>
          obtain rfl : o = e := h'
          have := h.2.2.le
          have := h.1
          have := h.2.1
          omega
      | cons b bs =>
          have hstart : start a = start b := h.1.trans h'.1.symm
          obtain ⟨hhead, htail⟩ := List.isChain_cons.mp hchain
          obtain ⟨hhead', htail'⟩ := List.isChain_cons.mp hchain'
          have hab : a = b := by
            by_cases ha : full a
            · exact h'.eq_of_start ((hfull a ha).mp (by simp)) (by simp) hstart
            · by_cases hb : full b
              · exact h.eq_of_start (by simp) ((hfull b hb).mpr (by simp)) hstart
              · apply hext a b ha hb hstart
                apply Nat.le_antisymm
                · apply h'.stop_le_of_gap h ha
                  · intro c hc
                    exact (hhead' c hc).resolve_left hb
                  · intro x hx hxf
                    exact (hfull x hxf).mpr (List.mem_cons_of_mem b hx)
                · apply h.stop_le_of_gap h' hb
                  · intro c hc
                    exact (hhead c hc).resolve_left ha
                  · intro x hx hxf
                    exact (hfull x hxf).mp (List.mem_cons_of_mem a hx)
          subst hab
          -- the first piece does not occur again
          have hnot : ∀ {cs}, Tiles start stop (stop a) cs e → a ∉ cs := by
            intro cs hcs hmem
            have := (hcs.mem_bounds hmem).1
            have := h.2.1
            omega
          rw [ih h.2.2 h'.2.2 htail htail']
          intro x hx
          have hiff := hfull x hx
          simp only [List.mem_cons] at hiff
          by_cases hxa : x = a
          · subst hxa
            exact ⟨fun hm => absurd hm (hnot h.2.2), fun hm => absurd hm (hnot h'.2.2)⟩
          · simpa [hxa] using hiff

end Coalesced

end Tiling
