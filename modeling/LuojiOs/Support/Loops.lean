import Mathlib.Data.Nat.Notation
import Mathlib.Tactic.ByContra

/-!
# Loops that may not end

A round of a loop ends with a result, or with the state that the next round begins with.  If some
states are such that each round from them makes progress, and the others only lead to one another,
then the loop ends if and only if it never comes to one of the others.
-/

namespace Loops

variable {S R : Type*} (round : S → R ⊕ S)

/-- The result of the loop, if it ends in this number of rounds. -/
def run : ℕ → S → Option R
  | 0, _ => none
  | rounds + 1, s =>
    match round s with
    | .inl r => some r
    | .inr s => run rounds s

/-- The states that rounds begin with. -/
inductive Visits : S → S → Prop
  | here (s : S) : Visits s s
  | next {s t u : S} (hround : round s = .inr t) (h : Visits t u) : Visits s u

variable {round} {rounds : ℕ} {s t : S} {r : R} {good : S → Prop} {left : S → ℕ}

theorem run_succ_inl (h : round s = .inl r) : run round (rounds + 1) s = some r := by
  unfold run
  rw [h]

theorem run_succ_inr (h : round s = .inr t) : run round (rounds + 1) s = run round rounds t := by
  rw [run, h]

/-- What each round preserves holds at the end. -/
theorem run_invariant {P : S → Prop} {Q : R → Prop}
    (hnext : ∀ s t, P s → round s = .inr t → P t)
    (hend : ∀ s r, P s → round s = .inl r → Q r) (hs : P s) (hrun : run round rounds s = some r) :
    Q r := by
  induction rounds generalizing s with
  | zero => cases hrun
  | succ rounds ih =>
      cases hround : round s with
      | inl r' =>
          rw [run_succ_inl hround] at hrun
          cases hrun
          exact hend s r hs hround
      | inr t =>
          rw [run_succ_inr hround] at hrun
          exact ih (hnext s t hs hround) hrun

/-- A loop whose rounds are those of another one, seen through two functions. -/
theorem run_map {S' R' : Type*} {round' : S' → R' ⊕ S'} {P : S → Prop} {f : S → S'} {g : R → R'}
    (hround : ∀ s, P s → Sum.map g f (round s) = round' (f s))
    (hnext : ∀ s t, P s → round s = .inr t → P t) (hs : P s) :
    (run round rounds s).map g = run round' rounds (f s) := by
  induction rounds generalizing s with
  | zero => rfl
  | succ rounds ih =>
      have heq := hround s hs
      cases hr : round s with
      | inl r =>
          rw [hr] at heq
          rw [run_succ_inl hr, run_succ_inl heq.symm]
          rfl
      | inr t =>
          rw [hr] at heq
          rw [run_succ_inr hr, run_succ_inr heq.symm]
          exact ih (hnext s t hs hr)

theorem run_eq_none (hbad : ∀ s, ¬good s → ∃ t, round s = .inr t ∧ ¬good t) (hs : ¬good s) :
    run round rounds s = none := by
  induction rounds generalizing s with
  | zero => rfl
  | succ rounds ih =>
      obtain ⟨t, hround, ht⟩ := hbad s hs
      rw [run_succ_inr hround]
      exact ih ht

/-- A loop that ends also ends from the states that it visits. -/
theorem Visits.ends (h : Visits round s t) (hs : ∃ rounds r, run round rounds s = some r) :
    ∃ rounds r, run round rounds t = some r := by
  induction h with
  | here s => exact hs
  | @next s t u hround _ ih =>
      obtain ⟨rounds, r, hrun⟩ := hs
      cases rounds with
      | zero => cases hrun
      | succ rounds =>
          rw [run_succ_inr hround] at hrun
          exact ih ⟨rounds, r, hrun⟩

theorem ends_of_good
    (hgood : ∀ s, good s →
      (∃ r, round s = .inl r) ∨ ∃ t, round s = .inr t ∧ left t < left s)
    (hs : ∀ t, Visits round s t → good t) : ∃ rounds r, run round rounds s = some r := by
  induction hleft : left s using Nat.strongRecOn generalizing s with
  | ind n ih =>
      rcases hgood s (hs s (.here s)) with ⟨r, hround⟩ | ⟨t, hround, hlt⟩
      · exact ⟨1, r, run_succ_inl hround⟩
      · obtain ⟨rounds, r, hrun⟩ :=
          ih (left t) (hleft ▸ hlt) (fun u hu => hs u (.next hround hu)) rfl
        exact ⟨rounds + 1, r, (run_succ_inr hround).trans hrun⟩

theorem ends_iff
    (hgood : ∀ s, good s →
      (∃ r, round s = .inl r) ∨ ∃ t, round s = .inr t ∧ left t < left s)
    (hbad : ∀ s, ¬good s → ∃ t, round s = .inr t ∧ ¬good t) :
    (∃ rounds r, run round rounds s = some r) ↔ ∀ t, Visits round s t → good t := by
  constructor
  · intro hs t ht
    by_contra hno
    obtain ⟨rounds, r, hrun⟩ := ht.ends hs
    rw [run_eq_none hbad hno] at hrun
    cases hrun
  · exact ends_of_good hgood

end Loops
