import LuojiOs.Support.Loops
import Mathlib.Data.Finset.Max
import Mathlib.Data.List.Sort
import Mathlib.Logic.Nontrivial.Defs

/-!
# Taking what comes first

Some things have places, and a round of a loop looks at one after the other.  It takes a thing if
its place is smaller than those of all others, and then gives it a place of its own, the mark.  The
loop ends when all things are at the mark, or when one cannot be taken; and it may also happen that
taking a thing never comes back.  Whether the loop ends can be seen from the places that it begins
with, and so can the order in which the things are taken.
-/

namespace Smallest

open Loops

/-- Things to take, and the mark. -/
structure Things (ι α M : Type*) where
  all : List ι
  complete : ∀ t, t ∈ all
  nodup : all.Nodup
  mark : α
  /-- Whether a thing can be taken at a place, unless this never comes back -/
  outcome : ι → α → Option Bool
  act : ι → α → M → M

/-- The places, and the state on which the things act. -/
structure State (ι α M : Type*) where
  place : ι → α
  mem : M

variable {ι α M : Type*} [LinearOrder α]

/-- The thing has the smallest place. -/
def First (place : ι → α) (t : ι) : Prop := ∀ u, u ≠ t → place t < place u

theorem First.eq {place : ι → α} {t u : ι} (ht : First place t) (hu : First place u) : u = t := by
  by_contra hne
  exact lt_asymm (ht u hne) (hu t (Ne.symm hne))

namespace Things

variable (things : Things ι α M)

/-! ## When the loop ends -/

/-- All things can be taken one after the other. -/
structure Taken (place : ι → α) : Prop where
  le : ∀ t, place t ≤ things.mark
  apart : ∀ t u, t ≠ u → place t = place u → place t = things.mark
  taken : ∀ t, place t < things.mark → things.outcome t (place t) = some true

/-- A thing in front of the mark cannot be taken, and all that come before it can. -/
structure FailsAt (place : ι → α) (t : ι) : Prop where
  lt : place t < things.mark
  fails : things.outcome t (place t) = some false
  apart : ∀ u v, u ≠ v → place u ≤ place t → place u ≠ place v
  taken : ∀ u, place u < place t → things.outcome u (place u) = some true

/-- All other things are behind the mark, and the first one cannot be taken, or not at the mark
again. -/
structure FailsAgain (place : ι → α) (t : ι) : Prop where
  behind : ∀ u, u ≠ t → things.mark < place u ∧ place t < place u
  fails : things.outcome t (place t) = some false ∨
    things.outcome t (place t) = some true ∧ things.outcome t things.mark = some false

/-- The loop ends from these places. -/
def Ends (place : ι → α) : Prop :=
  things.Taken place ∨ ∃ t, things.FailsAt place t ∨ things.FailsAgain place t

variable {things} {place : ι → α} {t u : ι} {s s' : State ι α M}

theorem FailsAgain.first (h : things.FailsAgain place t) : First place t :=
  fun u hne => (h.behind u hne).2

/-! ## The order -/

/-- The things in front of the mark, the one that comes first at the head. -/
def order (things : Things ι α M) (place : ι → α) : List ι :=
  (things.all.filter fun t => place t < things.mark).insertionSort fun t u => place t ≤ place u

/-- What comes of taking things one after the other. -/
def takeAll (things : Things ι α M) (place : ι → α) (ts : List ι) (m : M) : M :=
  ts.foldl (fun m t => things.act t (place t) m) m

theorem mem_order : t ∈ things.order place ↔ place t < things.mark := by
  unfold order
  rw [List.mem_insertionSort, List.mem_filter, decide_eq_true_iff]
  exact and_iff_right (things.complete t)

theorem pairwise_order (h : things.Taken place) :
    (things.order place).Pairwise fun t u => place t < place u := by
  have htotal : Std.Total fun t u : ι => place t ≤ place u := ⟨fun t u => le_total _ _⟩
  have htrans : IsTrans ι fun t u => place t ≤ place u := ⟨fun _ _ _ => le_trans⟩
  have hsorted : (things.order place).Pairwise fun t u => place t ≤ place u :=
    List.pairwise_insertionSort _ _
  have hnodup : (things.order place).Nodup :=
    (List.perm_insertionSort _ _).nodup_iff.mpr (things.nodup.filter _)
  refine (hsorted.and hnodup).imp_of_mem fun ht _ hle => hle.1.lt_of_ne fun heq => ?_
  exact (mem_order.mp ht).ne (h.apart _ _ hle.2 heq)

/-- There is one order only. -/
theorem order_eq {ts : List ι} (h : things.Taken place)
    (hts : ts.Pairwise fun t u => place t < place u) (hmem : ∀ t, t ∈ ts ↔ place t < things.mark) :
    things.order place = ts := by
  have hirrefl : Std.Irrefl fun t u : ι => place t < place u := ⟨fun _ => lt_irrefl _⟩
  have hantisymm : Std.Antisymm fun t u : ι => place t < place u :=
    ⟨fun _ _ h h' => absurd h' (lt_asymm h)⟩
  exact (pairwise_order h).eq_of_mem_iff hts fun t => mem_order.trans (hmem t).symm

omit [LinearOrder α] in
theorem takeAll_congr {place' : ι → α} {ts : List ι} {m : M}
    (h : ∀ t ∈ ts, place' t = place t) :
    things.takeAll place' ts m = things.takeAll place ts m := by
  induction ts generalizing m with
  | nil => rfl
  | cons t ts ih =>
      unfold takeAll
      rw [List.foldl_cons, List.foldl_cons, h t List.mem_cons_self]
      exact ih fun u hu => h u (List.mem_cons_of_mem t hu)

/-- The things are taken in order, which leads to this. -/
structure Leads (things : Things ι α M) (s : State ι α M) (m : M) : Prop where
  taken : things.Taken s.place
  mem : things.takeAll s.place (things.order s.place) s.mem = m

theorem leads_of_marked (h : ∀ t, s.place t = things.mark) : things.Leads s s.mem := by
  have htaken : things.Taken s.place :=
    ⟨fun t => (h t).le, fun t _ _ _ => h t, fun t hlt => absurd (h t) hlt.ne⟩
  refine ⟨htaken, ?_⟩
  rw [order_eq htaken List.Pairwise.nil fun t => iff_of_false List.not_mem_nil (h t).not_lt]
  rfl

/-! ## Taking the first thing -/

variable [DecidableEq ι]

section Update

variable (ht : First place t) (hok : things.outcome t (place t) = some true)

include ht hok

/-- A thing that comes first may be taken. -/
theorem taken_update [Nontrivial ι] :
    things.Taken (Function.update place t things.mark) ↔ things.Taken place := by
  constructor
  · intro h
    have hle : ∀ u, u ≠ t → place u ≤ things.mark := fun u hne => by
      have := h.le u
      rwa [Function.update_of_ne hne] at this
    refine ⟨fun u => ?_, fun u v hne heq => ?_, fun u hlt => ?_⟩
    · by_cases hu : u = t
      · obtain ⟨v, hv⟩ := exists_ne t
        rw [hu]
        exact (ht v hv).le.trans (hle v hv)
      · exact hle u hu
    · by_cases hu : u = t
      · subst hu
        exact absurd heq (ht v (Ne.symm hne)).ne
      · by_cases hv : v = t
        · subst hv
          exact absurd heq (ht u hu).ne'
        · have hmark := h.apart u v hne
          rw [Function.update_of_ne hu, Function.update_of_ne hv] at hmark
          exact hmark heq
    · by_cases hu : u = t
      · rw [hu]
        exact hok
      · have htaken := h.taken u
        rw [Function.update_of_ne hu] at htaken
        exact htaken hlt
  · intro h
    refine ⟨fun u => ?_, fun u v hne heq => ?_, fun u hlt => ?_⟩
    · by_cases hu : u = t
      · rw [hu, Function.update_self]
      · rw [Function.update_of_ne hu]
        exact h.le u
    · by_cases hu : u = t
      · rw [hu, Function.update_self]
      · rw [Function.update_of_ne hu] at heq ⊢
        by_cases hv : v = t
        · rw [heq, hv, Function.update_self]
        · rw [Function.update_of_ne hv] at heq
          exact h.apart u v hne heq
    · by_cases hu : u = t
      · rw [hu, Function.update_self] at hlt
        exact absurd hlt (lt_irrefl _)
      · rw [Function.update_of_ne hu] at hlt ⊢
        exact h.taken u hlt

theorem failsAt_update : things.FailsAt (Function.update place t things.mark) u ↔
    things.FailsAt place u := by
  constructor
  · intro h
    have hu : u ≠ t := by
      rintro rfl
      have hlt := h.lt
      rw [Function.update_self] at hlt
      exact lt_irrefl _ hlt
    obtain ⟨hlt, hfails, hapart, htaken⟩ := h
    simp only [Function.update_of_ne hu] at hlt hfails hapart htaken
    refine ⟨hlt, hfails, fun v w hne hle => ?_, fun v hv => ?_⟩
    · by_cases hv : v = t
      · subst hv
        exact (ht w (Ne.symm hne)).ne
      · by_cases hw : w = t
        · subst hw
          exact (ht v hv).ne'
        · have hne' := hapart v w hne
          rw [Function.update_of_ne hv, Function.update_of_ne hw] at hne'
          exact hne' hle
    · by_cases hv' : v = t
      · rw [hv']
        exact hok
      · have htaken' := htaken v
        rw [Function.update_of_ne hv'] at htaken'
        exact htaken' hv
  · rintro ⟨hlt, hfails, hapart, htaken⟩
    have hu : u ≠ t := by
      rintro rfl
      rw [hok] at hfails
      cases hfails
    have hsame : ∀ v, Function.update place t things.mark v ≤ place u → v ≠ t := by
      rintro v hv rfl
      rw [Function.update_self] at hv
      exact not_le_of_gt hlt hv
    refine ⟨?_, ?_, fun v w hne hle => ?_, fun v hv => ?_⟩
    · rwa [Function.update_of_ne hu]
    · rwa [Function.update_of_ne hu]
    · rw [Function.update_of_ne hu] at hle
      have hv := hsame v hle
      rw [Function.update_of_ne hv] at hle ⊢
      by_cases hw : w = t
      · rw [hw, Function.update_self]
        exact (hle.trans_lt hlt).ne
      · rw [Function.update_of_ne hw]
        exact hapart v w hne hle
    · rw [Function.update_of_ne hu] at hv
      have hv' := hsame v hv.le
      rw [Function.update_of_ne hv'] at hv ⊢
      exact htaken v hv

theorem failsAgain_update : things.FailsAgain (Function.update place t things.mark) u ↔
    things.FailsAgain place u := by
  constructor
  · intro h
    have hu : u = t := by
      by_contra hne
      have hlt := (h.behind t (Ne.symm hne)).1
      rw [Function.update_self] at hlt
      exact lt_irrefl _ hlt
    subst hu
    obtain ⟨hbehind, hfails⟩ := h
    rw [Function.update_self] at hfails
    refine ⟨fun v hv => ?_, Or.inr ⟨hok, hfails.elim id And.right⟩⟩
    have hmark := (hbehind v hv).1
    rw [Function.update_of_ne hv] at hmark
    exact ⟨hmark, ht v hv⟩
  · intro h
    have hu : u = t := ht.eq h.first
    subst hu
    refine ⟨fun v hv => ?_, Or.inl ?_⟩
    · rw [Function.update_of_ne hv, Function.update_self]
      exact ⟨(h.behind v hv).1, (h.behind v hv).1⟩
    · rw [Function.update_self]
      obtain hno | ⟨-, hmark⟩ := h.fails
      · rw [hok] at hno
        cases hno
      · exact hmark

theorem ends_update [Nontrivial ι] :
    things.Ends (Function.update place t things.mark) ↔ things.Ends place := by
  unfold Ends
  rw [taken_update ht hok]
  simp only [failsAt_update ht hok, failsAgain_update ht hok]

end Update

/-- The loop ends where the first thing cannot be taken. -/
theorem ends_of_fails (ht : First place t) (hno : things.outcome t (place t) = some false) :
    things.Ends place := by
  refine Or.inr ⟨t, ?_⟩
  rcases lt_or_ge (place t) things.mark with hlt | hge
  · refine Or.inl ⟨hlt, hno, fun u v hne hle => ?_, fun u hlt' => ?_⟩
    · have hu : u = t := by
        by_contra hu
        exact not_lt_of_ge hle (ht u hu)
      rw [hu]
      exact (ht v fun hv => hne (hu.trans hv.symm)).ne
    · have hu : u ≠ t := fun hu => lt_irrefl _ (hu ▸ hlt')
      exact absurd hlt' (lt_asymm (ht u hu))
  · exact Or.inr ⟨fun u hu => ⟨hge.trans_lt (ht u hu), ht u hu⟩, Or.inl hno⟩

/-- It does not end where taking the first thing never comes back. -/
theorem not_ends_of_none [Nontrivial ι] (ht : First place t)
    (hnone : things.outcome t (place t) = none) : ¬things.Ends place := by
  rintro (h | ⟨u, h | h⟩)
  · obtain ⟨v, hv⟩ := exists_ne t
    have hok := h.taken t ((ht v hv).trans_le (h.le v))
    rw [hnone] at hok
    cases hok
  · by_cases hu : u = t
    · have hno := h.fails
      rw [hu, hnone] at hno
      cases hno
    · have hok := h.taken t (ht u hu)
      rw [hnone] at hok
      cases hok
  · have hfails := h.fails
    rw [ht.eq h.first, hnone] at hfails
    rcases hfails with hno | ⟨hok, -⟩
    · cases hno
    · cases hok

/-- Not all things are at the mark, and one of them comes first; it is not at the mark, or cannot be
taken there. -/
theorem Ends.first (h : things.Ends place) (hleft : ∃ t, place t ≠ things.mark) :
    ∃ t, First place t ∧ (place t ≠ things.mark ∨ things.outcome t things.mark = some false) := by
  obtain ⟨t₀, ht₀⟩ := hleft
  obtain ⟨t, -, hmin⟩ := things.all.toFinset.exists_min_image place
    ⟨t₀, List.mem_toFinset.mpr (things.complete t₀)⟩
  have hle : ∀ u, place t ≤ place u := fun u =>
    hmin u (List.mem_toFinset.mpr (things.complete u))
  rcases h with h | ⟨u, h | h⟩
  · have hlt : place t < things.mark := (hle t₀).trans_lt ((h.le t₀).lt_of_ne ht₀)
    refine ⟨t, fun v hv => (hle v).lt_of_ne fun heq => ?_, Or.inl hlt.ne⟩
    exact hlt.ne (h.apart t v (Ne.symm hv) heq)
  · have hlt : place t < things.mark := (hle u).trans_lt h.lt
    refine ⟨t, fun v hv => (hle v).lt_of_ne ?_, Or.inl hlt.ne⟩
    exact h.apart t v (Ne.symm hv) (hle u)
  · refine ⟨u, h.first, ?_⟩
    by_cases hu : place u = things.mark
    · have hfails := h.fails
      rw [hu] at hfails
      exact Or.inr (hfails.elim id And.right)
    · exact Or.inl hu

/-! ## The loop -/

section Loop

variable (things)

/-- What comes of looking at a thing: nothing, if this never comes back, or the next state, unless
the thing cannot be taken. -/
def look (t : ι) (s : State ι α M) : Option (Option (State ι α M)) :=
  if ∀ u ∈ things.all, u ≠ t → s.place t < s.place u then
    (things.outcome t (s.place t)).map fun ok =>
      if ok then
        some ⟨Function.update s.place t things.mark, things.act t (s.place t) s.mem⟩
      else none
  else some (some s)

def looks : List ι → State ι α M → Option (Option (State ι α M))
  | [], s => some (some s)
  | t :: ts, s =>
    match things.look t s with
    | none => none
    | some none => some none
    | some (some s) => looks ts s

/-- A round.  One that never comes back is made for ever. -/
def round (s : State ι α M) : Option (State ι α M) ⊕ State ι α M :=
  match things.looks things.all s with
  | none => .inr s
  | some none => .inl none
  | some (some s') => if ∀ t ∈ things.all, s'.place t = things.mark then .inl (some s') else .inr s'

end Loop

variable {ts : List ι}

theorem look_of_first (ht : First s.place t) : things.look t s =
    (things.outcome t (s.place t)).map fun ok =>
      if ok then
        some ⟨Function.update s.place t things.mark, things.act t (s.place t) s.mem⟩
      else none := if_pos fun u _ => ht u

theorem look_of_not (ht : ¬First s.place t) : things.look t s = some (some s) :=
  if_neg fun h => ht fun u => h u (things.complete u)

/-- The thing has been taken, or it does not come first. -/
theorem look_cases (h : things.look t s = some (some s')) :
    (First s.place t ∧ things.outcome t (s.place t) = some true ∧
      s' = ⟨Function.update s.place t things.mark, things.act t (s.place t) s.mem⟩) ∨
    (¬First s.place t ∧ s' = s) := by
  by_cases ht : First s.place t
  · rw [look_of_first ht] at h
    cases hok : things.outcome t (s.place t) with
    | none =>
        rw [hok] at h
        cases h
    | some ok =>
        rw [hok] at h
        cases ok with
        | false => cases h
        | true =>
            cases h
            exact Or.inl ⟨ht, rfl, rfl⟩
  · rw [look_of_not ht] at h
    cases h
    exact Or.inr ⟨ht, rfl⟩

theorem look_fails (h : things.look t s = some none) :
    First s.place t ∧ things.outcome t (s.place t) = some false := by
  by_cases ht : First s.place t
  · rw [look_of_first ht] at h
    refine ⟨ht, ?_⟩
    cases hok : things.outcome t (s.place t) with
    | none =>
        rw [hok] at h
        cases h
    | some ok =>
        rw [hok] at h
        cases ok with
        | false => rfl
        | true => cases h
  · rw [look_of_not ht] at h
    cases h

theorem look_none (h : things.look t s = none) :
    First s.place t ∧ things.outcome t (s.place t) = none := by
  by_cases ht : First s.place t
  · rw [look_of_first ht] at h
    exact ⟨ht, Option.map_eq_none_iff.mp h⟩
  · rw [look_of_not ht] at h
    cases h

theorem looks_of_none (h : things.look t s = none) : things.looks (t :: ts) s = none := by
  unfold looks
  rw [h]

theorem looks_of_fails (h : things.look t s = some none) :
    things.looks (t :: ts) s = some none := by
  unfold looks
  rw [h]

theorem looks_cons (h : things.look t s = some (some s')) :
    things.looks (t :: ts) s = things.looks ts s' := by
  conv_lhs => unfold looks
  rw [h]

/-- What each look preserves is preserved by all. -/
theorem looks_rel {R : State ι α M → State ι α M → Prop} (hrefl : ∀ s, R s s)
    (htrans : ∀ s s₁ s₂, R s s₁ → R s₁ s₂ → R s s₂)
    (hlook : ∀ t s s', things.look t s = some (some s') → R s s')
    (h : things.looks ts s = some (some s')) : R s s' := by
  induction ts generalizing s with
  | nil =>
      cases h
      exact hrefl _
  | cons t ts ih =>
      rcases hl : things.look t s with _ | _ | s₁
      · rw [looks_of_none hl] at h
        cases h
      · rw [looks_of_fails hl] at h
        cases h
      · rw [looks_cons hl] at h
        exact htrans s s₁ s' (hlook t s s₁ hl) (ih h)

/-- All looks before the one that comes first do nothing. -/
theorem looks_of_first (things : Things ι α M) (ht : First s.place t) (hmem : t ∈ ts) :
    ∃ ts', things.looks ts s = things.looks (t :: ts') s := by
  induction ts with
  | nil => cases hmem
  | cons u ts ih =>
      by_cases hu : u = t
      · exact ⟨ts, by rw [hu]⟩
      · obtain ⟨ts', heq⟩ := ih ((List.mem_cons.mp hmem).resolve_left fun h => hu h.symm)
        exact ⟨ts', (looks_cons (look_of_not fun h => hu (ht.eq h))).trans heq⟩

/-- What looking tells about whether the loop ends. -/
def Tells (things : Things ι α M) (s : State ι α M) : Option (Option (State ι α M)) → Prop
  | none => ¬things.Ends s.place
  | some none => things.Ends s.place
  | some (some s') => things.Ends s'.place ↔ things.Ends s.place

theorem look_ends [Nontrivial ι] (h : things.look t s = some (some s')) :
    things.Ends s'.place ↔ things.Ends s.place := by
  obtain ⟨ht, hok, rfl⟩ | ⟨-, rfl⟩ := look_cases h
  · exact ends_update ht hok
  · exact Iff.rfl

theorem taken_of_look [Nontrivial ι] (h : things.look t s = some (some s'))
    (htaken : things.Taken s.place) : things.Taken s'.place := by
  obtain ⟨ht, hok, rfl⟩ | ⟨-, rfl⟩ := look_cases h
  · exact (taken_update ht hok).mpr htaken
  · exact htaken

theorem looks_tells [Nontrivial ι] (things : Things ι α M) (ts : List ι) (s : State ι α M) :
    Tells things s (things.looks ts s) := by
  induction ts generalizing s with
  | nil => exact Iff.rfl
  | cons t ts ih =>
      rcases hl : things.look t s with _ | _ | s₁
      · obtain ⟨ht, hnone⟩ := look_none hl
        rw [looks_of_none hl]
        exact not_ends_of_none ht hnone
      · obtain ⟨ht, hno⟩ := look_fails hl
        rw [looks_of_fails hl]
        exact ends_of_fails ht hno
      · have hends := look_ends hl
        have htells := ih s₁
        rw [looks_cons hl]
        rcases hls : things.looks ts s₁ with _ | _ | s₂
        · rw [hls] at htells
          exact fun h => htells (hends.mpr h)
        · rw [hls] at htells
          exact hends.mp htells
        · rw [hls] at htells
          exact htells.trans hends

theorem round_of_none (h : things.looks things.all s = none) : things.round s = .inr s := by
  unfold round
  rw [h]

theorem round_of_fails (h : things.looks things.all s = some none) :
    things.round s = .inl none := by
  unfold round
  rw [h]

theorem round_of_looks (h : things.looks things.all s = some (some s')) :
    things.round s =
      if ∀ t ∈ things.all, s'.place t = things.mark then .inl (some s') else .inr s' := by
  unfold round
  rw [h]

/-- The round never comes back, or the loop goes on behind it. -/
theorem round_inr (h : things.round s = .inr s') :
    s' = s ∨ things.looks things.all s = some (some s') := by
  rcases hl : things.looks things.all s with _ | _ | s₁
  · rw [round_of_none hl] at h
    cases h
    exact Or.inl rfl
  · rw [round_of_fails hl] at h
    cases h
  · rw [round_of_looks hl] at h
    split at h
    · cases h
    · cases h
      exact Or.inr rfl

theorem round_inl (h : things.round s = .inl (some s')) :
    things.looks things.all s = some (some s') ∧ ∀ t, s'.place t = things.mark := by
  rcases hl : things.looks things.all s with _ | _ | s₁
  · rw [round_of_none hl] at h
    cases h
  · rw [round_of_fails hl] at h
    cases h
  · rw [round_of_looks hl] at h
    split at h
    · next hall =>
      cases h
      exact ⟨rfl, fun t => hall t (things.complete t)⟩
    · cases h

/-! ### The number of rounds -/

/-- The things that are not at the mark. -/
def left (things : Things ι α M) (s : State ι α M) : Finset ι :=
  things.all.toFinset.filter fun t => s.place t ≠ things.mark

theorem mem_left : t ∈ things.left s ↔ s.place t ≠ things.mark := by
  unfold left
  rw [Finset.mem_filter, List.mem_toFinset]
  exact and_iff_right (things.complete t)

theorem left_subset_of_look (h : things.look t s = some (some s')) :
    things.left s' ⊆ things.left s := by
  obtain ⟨-, -, rfl⟩ | ⟨-, rfl⟩ := look_cases h
  · intro u hu
    have hne : Function.update s.place t things.mark u ≠ things.mark := mem_left.mp hu
    have hut : u ≠ t := by
      rintro rfl
      exact hne (Function.update_self ..)
    rw [Function.update_of_ne hut] at hne
    exact mem_left.mpr hne
  · exact Finset.Subset.refl _

theorem left_subset (h : things.looks ts s = some (some s')) : things.left s' ⊆ things.left s :=
  looks_rel (R := fun s s' => things.left s' ⊆ things.left s) (fun _ => Finset.Subset.refl _)
    (fun _ _ _ h h' => h'.trans h) (fun _ _ _ => left_subset_of_look) h

/-- A thing that is not at the mark is taken in the round. -/
theorem left_ssubset (hends : things.Ends s.place) (hs : ∃ t, s.place t ≠ things.mark)
    (h : things.looks things.all s = some (some s')) : things.left s' ⊂ things.left s := by
  obtain ⟨t, ht, hmark⟩ := hends.first hs
  obtain ⟨ts, heq⟩ := looks_of_first things ht (things.complete t)
  rw [heq] at h
  rcases hl : things.look t s with _ | _ | s₁
  · rw [looks_of_none hl] at h
    cases h
  · rw [looks_of_fails hl] at h
    cases h
  · rw [looks_cons hl] at h
    have hsub := left_subset h
    obtain ⟨-, hok, rfl⟩ | ⟨hnot, -⟩ := look_cases hl
    · have hne : s.place t ≠ things.mark := by
        intro heq
        rw [heq] at hok
        rcases hmark with hne | hno
        · exact hne heq
        · rw [hno] at hok
          cases hok
      refine ⟨hsub.trans (left_subset_of_look hl), fun hsup => ?_⟩
      exact mem_left.mp (hsub (hsup (mem_left.mpr hne))) (Function.update_self ..)
    · exact absurd ht hnot

/-! ### When it ends -/

/-- When all things are at the mark, none comes first. -/
theorem looks_of_marked [Nontrivial ι] (h : ∀ t, s.place t = things.mark) :
    things.looks ts s = some (some s) := by
  induction ts with
  | nil => rfl
  | cons t ts ih =>
      refine (looks_cons (look_of_not fun ht => ?_)).trans ih
      obtain ⟨u, hu⟩ := exists_ne t
      have hlt := ht u hu
      rw [h t, h u] at hlt
      exact lt_irrefl _ hlt

theorem not_ends_next [Nontrivial ι] (h : ¬things.Ends s.place) :
    ∃ s', things.round s = .inr s' ∧ ¬things.Ends s'.place := by
  have htells := looks_tells things things.all s
  rcases hl : things.looks things.all s with _ | _ | s'
  · exact ⟨s, round_of_none hl, h⟩
  · rw [hl] at htells
    exact absurd htells h
  · rw [hl] at htells
    have hno : ¬things.Ends s'.place := fun h' => h (htells.mp h')
    refine ⟨s', (round_of_looks hl).trans (if_neg fun hall => hno (Or.inl ?_)), hno⟩
    have hmark : ∀ t, s'.place t = things.mark := fun t => hall t (things.complete t)
    exact ⟨fun t => (hmark t).le, fun t _ _ _ => hmark t,
      fun t hlt => absurd (hmark t) hlt.ne⟩

theorem ends_next [Nontrivial ι] (h : things.Ends s.place) :
    (∃ x, things.round s = .inl x) ∨
      ∃ s', things.round s = .inr s' ∧ (things.left s').card < (things.left s).card := by
  have htells := looks_tells things things.all s
  rcases hl : things.looks things.all s with _ | _ | s'
  · rw [hl] at htells
    exact absurd h htells
  · exact Or.inl ⟨none, round_of_fails hl⟩
  · by_cases hall : ∀ t ∈ things.all, s'.place t = things.mark
    · exact Or.inl ⟨some s', (round_of_looks hl).trans (if_pos hall)⟩
    · refine Or.inr ⟨s', (round_of_looks hl).trans (if_neg hall), Finset.card_lt_card (left_ssubset h ?_ hl)⟩
      by_contra hmark
      have hs : ∀ t, s.place t = things.mark := fun t => by
        by_contra hne
        exact hmark ⟨t, hne⟩
      rw [looks_of_marked hs] at hl
      cases hl
      exact hall fun t _ => hs t

theorem ends_of_next [Nontrivial ι] (h : things.Ends s.place) (hround : things.round s = .inr s') :
    things.Ends s'.place := by
  obtain rfl | hl := round_inr hround
  · exact h
  · have htells := looks_tells things things.all s
    rw [hl] at htells
    exact htells.mpr h

/-- Whether the loop ends can be seen from the places that it begins with. -/
theorem ends_iff [Nontrivial ι] :
    (∃ rounds x, run things.round rounds s = some x) ↔ things.Ends s.place := by
  rw [@Loops.ends_iff _ _ things.round s (fun s => things.Ends s.place) _ (fun _ => ends_next)
    fun _ => not_ends_next]
  constructor
  · exact fun h => h s (.here s)
  · intro h s' hvisits
    induction hvisits with
    | here s => exact h
    | next hround _ ih => exact ih (ends_of_next h hround)

/-! ### What it ends with -/

theorem ne_of_mem_order (hu : u ∈ things.order (Function.update place t things.mark)) : u ≠ t := by
  rintro rfl
  have hmark := mem_order.mp hu
  rw [Function.update_self] at hmark
  exact lt_irrefl _ hmark

/-- The order begins with the thing that comes first. -/
theorem order_first [Nontrivial ι] (h : things.Taken place) (ht : First place t)
    (hok : things.outcome t (place t) = some true) :
    things.order place = t :: things.order (Function.update place t things.mark) := by
  have hlt : place t < things.mark := by
    obtain ⟨u, hu⟩ := exists_ne t
    exact (ht u hu).trans_le (h.le u)
  refine order_eq h (List.pairwise_cons.mpr ⟨fun u hu => ht u (ne_of_mem_order hu), ?_⟩) fun u => ?_
  · refine (pairwise_order ((taken_update ht hok).mpr h)).imp_of_mem fun hu hv hlt => ?_
    rwa [Function.update_of_ne (ne_of_mem_order hu),
      Function.update_of_ne (ne_of_mem_order hv)] at hlt
  · rw [List.mem_cons, mem_order]
    by_cases hu : u = t
    · rw [hu]
      exact iff_of_true (Or.inl rfl) hlt
    · rw [Function.update_of_ne hu]
      exact or_iff_right hu

theorem leads_of_look [Nontrivial ι] {m : M} (hl : things.look t s = some (some s'))
    (h : things.Leads s' m) : things.Leads s m := by
  obtain ⟨ht, hok, rfl⟩ | ⟨-, rfl⟩ := look_cases hl
  · have htaken := (taken_update ht hok).mp h.taken
    refine ⟨htaken, ?_⟩
    rw [order_first htaken ht hok]
    refine Eq.trans ?_ h.mem
    exact takeAll_congr fun u hu => (Function.update_of_ne (ne_of_mem_order hu) _ _).symm
  · exact h

theorem leads_of_looks [Nontrivial ι] {m : M} (hl : things.looks ts s = some (some s'))
    (h : things.Leads s' m) : things.Leads s m :=
  looks_rel (R := fun s s' => things.Leads s' m → things.Leads s m) (fun _ => id)
    (fun _ _ _ h h' => h ∘ h') (fun _ _ _ => leads_of_look) hl h

theorem leads_of_run [Nontrivial ι] {rounds : ℕ}
    (hrun : run things.round rounds s = some (some s')) : things.Leads s s'.mem := by
  induction rounds generalizing s with
  | zero => cases hrun
  | succ rounds ih =>
      cases hround : things.round s with
      | inl x =>
          rw [run_succ_inl hround] at hrun
          cases hrun
          obtain ⟨hl, hmark⟩ := round_inl hround
          exact leads_of_looks hl (leads_of_marked hmark)
      | inr s₁ =>
          rw [run_succ_inr hround] at hrun
          obtain rfl | hl := round_inr hround
          · exact ih hrun
          · exact leads_of_looks hl (ih hrun)

theorem not_taken_of_looks [Nontrivial ι] (hl : things.looks ts s = some none) :
    ¬things.Taken s.place := by
  induction ts generalizing s with
  | nil => cases hl
  | cons t ts ih =>
      rcases hlook : things.look t s with _ | _ | s₁
      · rw [looks_of_none hlook] at hl
        cases hl
      · intro h
        obtain ⟨ht, hno⟩ := look_fails hlook
        obtain ⟨u, hu⟩ := exists_ne t
        have hok := h.taken t ((ht u hu).trans_le (h.le u))
        rw [hno] at hok
        cases hok
      · rw [looks_cons hlook] at hl
        exact fun h => ih hl (taken_of_look hlook h)

/-- When a thing cannot be taken, they cannot all be taken. -/
theorem not_taken_of_run [Nontrivial ι] {rounds : ℕ}
    (hrun : run things.round rounds s = some none) : ¬things.Taken s.place := by
  induction rounds generalizing s with
  | zero => cases hrun
  | succ rounds ih =>
      rcases hl : things.looks things.all s with _ | _ | s₁
      · rw [run_succ_inr (round_of_none hl)] at hrun
        exact ih hrun
      · exact not_taken_of_looks hl
      · have hround := round_of_looks hl
        split at hround
        · rw [run_succ_inl hround] at hrun
          cases hrun
        · rw [run_succ_inr hround] at hrun
          refine fun h => ih hrun ?_
          exact looks_rel (R := fun s s' => things.Taken s.place → things.Taken s'.place)
            (fun _ => id) (fun _ _ _ h h' => h' ∘ h) (fun _ _ _ => taken_of_look) hl h

end Things

end Smallest
