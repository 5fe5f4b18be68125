import Mathlib.Logic.Relation
import Mathlib.Data.Nat.Notation

/-!
# Loops that climb

A loop goes from a place to the next one until `next` is `none`.  If every round leads to a
higher place, and there is a highest one, the loop ends.  A loop that comes to a place which
is its own next one does not.
-/

namespace Climb

open Relation

variable {α : Type*} {next : α → Option α} {height : α → ℕ} {a b c : α} {fuel t : ℕ}

/-- The loop from `a` comes to `b`. -/
def Visits (next : α → Option α) (a b : α) : Prop :=
  ReflTransGen (fun b c => next b = some c) a b

/-- The loop from `a` is left at one of its first `fuel` tests. -/
def stops (next : α → Option α) : ℕ → α → Bool
  | 0, _ => false
  | fuel + 1, a =>
    match next a with
    | none => true
    | some b => stops next fuel b

/-- Every round of the loop from `a` leads to a higher place, and the loop ends. -/
structure Climbs (next : α → Option α) (height : α → ℕ) (a : α) : Prop where
  rises : ∀ b c, Visits next a b → next b = some c → height b < height c
  ends : ∃ fuel, stops next fuel a = true

/-- A loop that climbs to no more than `t` is left after the rounds that this allows. -/
theorem stops_of_rises (hrises : ∀ b c, Visits next a b → next b = some c → height b < height c)
    (htop : ∀ b, Visits next a b → height b ≤ t) (hfuel : t < height a + fuel) :
    stops next fuel a = true := by
  induction fuel generalizing a with
  | zero =>
      have := htop a .refl
      omega
  | succ fuel ih =>
      unfold stops
      split
      · rfl
      · next b hb =>
        have hlt := hrises a b .refl hb
        apply ih
        · intro c d hc
          exact hrises c d (.head hb hc)
        · intro c hc
          exact htop c (.head hb hc)
        · omega

/-- If an invariant of the loop gives the rise and the bound, the loop climbs. -/
theorem climbs_of_invariant {P : α → Prop} (ha : P a)
    (hstep : ∀ b c, P b → next b = some c → P c ∧ height b < height c)
    (htop : ∀ b, P b → height b ≤ t) : Climbs next height a := by
  have hinv : ∀ b, Visits next a b → P b := by
    intro b hb
    induction hb with
    | refl => exact ha
    | tail _ hc ih => exact (hstep _ _ ih hc).1
  have hrises : ∀ b c, Visits next a b → next b = some c → height b < height c := by
    intro b c hb hc
    exact (hstep b c (hinv b hb) hc).2
  have hfuel : t < height a + (t + 1) := by omega
  refine ⟨hrises, t + 1, stops_of_rises hrises ?_ hfuel⟩
  intro b hb
  exact htop b (hinv b hb)

end Climb
