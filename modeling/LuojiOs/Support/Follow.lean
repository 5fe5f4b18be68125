import LuojiOs.Support.Climb
import Mathlib.Data.Set.Card

/-!
# Following links

From a place on, a partial function leads to the next place until it is undefined.  This comes
to an end exactly if no place is met twice, and then after as many places as are met.
-/

namespace Follow

open Relation Climb

variable {α : Type*} {next : α → Option α} {a b c : α} {l : List α} {n : ℕ}

/-- The places met from `a` on, if there are no more than `n`. -/
def follow (next : α → Option α) : ℕ → α → Option (List α)
  | 0, _ => none
  | n + 1, a =>
    match next a with
    | none => some [a]
    | some b => (follow next n b).map (a :: ·)

/-- The place `b` is met after `a`. -/
def Later (next : α → Option α) (a b : α) : Prop :=
  TransGen (fun b c => next b = some c) a b

/-- No place that is met from `a` on is met again. -/
def Acyclic (next : α → Option α) (a : α) : Prop :=
  ∀ b, Visits next a b → ¬Later next b b

/-- The places met from `a` on. -/
def met (next : α → Option α) (a : α) : Set α := {b | Visits next a b}

theorem mem_met_self : a ∈ met next a := ReflTransGen.refl

theorem visits_iff (h : next a = some b) : Visits next a c ↔ c = a ∨ Visits next b c := by
  constructor
  · intro hc
    rcases ReflTransGen.cases_head hc with rfl | ⟨d, hd, hrest⟩
    · exact Or.inl rfl
    · cases h.symm.trans hd
      exact Or.inr hrest
  · rintro (rfl | hc)
    · exact ReflTransGen.refl
    · exact ReflTransGen.head h hc

theorem later_iff (h : next a = some b) : Later next a c ↔ Visits next b c := by
  constructor
  · intro hc
    obtain ⟨d, hd, hrest⟩ := TransGen.head'_iff.mp hc
    cases h.symm.trans hd
    exact hrest
  · intro hc
    exact TransGen.head' h hc

theorem not_later (h : next a = none) : ¬Later next a c := by
  intro hc
  obtain ⟨d, hd, -⟩ := TransGen.head'_iff.mp hc
  cases h.symm.trans hd

theorem visits_of_none (h : next a = none) (hc : Visits next a c) : c = a := by
  rcases ReflTransGen.cases_head hc with rfl | ⟨d, hd, -⟩
  · rfl
  · cases h.symm.trans hd

theorem met_of_none (h : next a = none) : met next a = {a} := by
  ext c
  constructor
  · exact visits_of_none h
  · rintro rfl
    exact mem_met_self

theorem met_of_some (h : next a = some b) : met next a = insert a (met next b) := by
  ext c
  exact visits_iff h

theorem acyclic_of_none (h : next a = none) : Acyclic next a := by
  intro c hc
  rw [visits_of_none h hc]
  exact not_later h

/-- A place is met again if and only if this happens behind it, or its own successors lead back
to it. -/
theorem acyclic_of_some (h : next a = some b) :
    Acyclic next a ↔ a ∉ met next b ∧ Acyclic next b := by
  constructor
  · intro hacyclic
    refine ⟨fun ha => hacyclic a mem_met_self ((later_iff h).mpr ha), ?_⟩
    intro c hc
    exact hacyclic c (ReflTransGen.head h hc)
  · rintro ⟨ha, hacyclic⟩ c hc
    rcases (visits_iff h).mp hc with rfl | hc
    · exact fun hlater => ha ((later_iff h).mp hlater)
    · exact hacyclic c hc

theorem encard_met_of_some (h : next a = some b) (ha : a ∉ met next b) :
    (met next a).encard = (met next b).encard + 1 := by
  rw [met_of_some h, Set.encard_insert_of_notMem ha]

/-- A loop leads back to every place on it. -/
theorem not_mem_met_of_acyclic (h : next a = some b) (hb : Acyclic next b) : a ∉ met next b :=
  fun ha => hb a ha ((later_iff h).mpr ha)

/-- Following the links ends within `n` places if and only if none of them is met twice and there
are no more than `n`. -/
theorem follow_isSome_iff :
    (follow next n a).isSome ↔ Acyclic next a ∧ (met next a).encard ≤ n := by
  induction n generalizing a with
  | zero =>
      have hmet : 1 ≤ (met next a).encard := Set.one_le_encard_iff_nonempty.mpr ⟨a, mem_met_self⟩
      constructor
      · intro h
        cases h
      · rintro ⟨-, hzero⟩
        exact absurd (hmet.trans hzero) (by simp)
  | succ n ih =>
      unfold follow
      cases hnext : next a with
      | none =>
          refine ⟨fun _ => ⟨acyclic_of_none hnext, ?_⟩, fun _ => rfl⟩
          rw [met_of_none hnext, Set.encard_singleton]
          exact_mod_cast Nat.succ_pos n
      | some b =>
          dsimp only
          rw [Option.isSome_map, ih, acyclic_of_some hnext, Nat.cast_succ]
          constructor
          · rintro ⟨hacyclic, hfew⟩
            have ha := not_mem_met_of_acyclic hnext hacyclic
            rw [encard_met_of_some hnext ha]
            exact ⟨⟨ha, hacyclic⟩, add_le_add_left hfew 1⟩
          · rintro ⟨⟨ha, hacyclic⟩, hfew⟩
            rw [encard_met_of_some hnext ha] at hfew
            exact ⟨hacyclic, (WithTop.add_le_add_iff_right ENat.one_ne_top).mp hfew⟩

/-! ## The end -/

theorem mem_follow (h : follow next n a = some l) : b ∈ l ↔ Visits next a b := by
  induction n generalizing a l with
  | zero => cases h
  | succ n ih =>
      unfold follow at h
      cases hnext : next a with
      | none =>
          rw [hnext] at h
          cases h
          rw [List.mem_singleton]
          refine ⟨?_, visits_of_none hnext⟩
          rintro rfl
          exact mem_met_self
      | some c =>
          rw [hnext] at h
          obtain ⟨l, hl, rfl⟩ := Option.map_eq_some_iff.mp h
          rw [List.mem_cons, ih hl, visits_iff hnext]

theorem ne_nil_of_follow (h : follow next n a = some l) : l ≠ [] :=
  List.ne_nil_of_mem ((mem_follow h).mpr mem_met_self)

theorem exists_end (h : follow next n a = some l) : ∃ b, Visits next a b ∧ next b = none := by
  induction n generalizing a l with
  | zero => cases h
  | succ n ih =>
      unfold follow at h
      cases hnext : next a with
      | none => exact ⟨a, mem_met_self, hnext⟩
      | some c =>
          rw [hnext] at h
          obtain ⟨l, hl, rfl⟩ := Option.map_eq_some_iff.mp h
          obtain ⟨b, hb, hend⟩ := ih hl
          exact ⟨b, ReflTransGen.head hnext hb, hend⟩

/-- There is one end at most. -/
theorem end_unique (hb : Visits next a b) (hbend : next b = none) (hc : Visits next a c)
    (hcend : next c = none) : b = c := by
  have htotal : Visits next b c ∨ Visits next c b := by
    refine ReflTransGen.total_of_right_unique ?_ hb hc
    intro d e f he hf
    exact Option.some_inj.mp (he.symm.trans hf)
  rcases htotal with hbc | hcb
  · exact (visits_of_none hbend hbc).symm
  · exact visits_of_none hcend hcb

end Follow
