import Mathlib.Data.List.Pairwise
import Mathlib.Data.List.Perm.Basic

/-!
# Patches of a memory

A patch gives values to some of the places of a memory.  Patches that have no place in common can
be applied in any order.
-/

namespace Patches

variable {A V : Type*}

/-- The values of the patch `p` are put into the memory. -/
def apply (m : A → V) (p : A → Option V) : A → V := fun x => (p x).getD (m x)

/-- The patches have no place in common. -/
def Apart (p q : A → Option V) : Prop := ∀ x, p x = none ∨ q x = none

variable {m : A → V} {p q : A → Option V} {ps qs : List (A → Option V)} {x : A} {v : V}

theorem apply_of_some (h : p x = some v) : apply m p x = v := by
  unfold apply
  rw [h]
  rfl

theorem apply_of_none (h : p x = none) : apply m p x = m x := by
  unfold apply
  rw [h]
  rfl

theorem Apart.symm (h : Apart p q) : Apart q p := fun x => (h x).symm

instance : Std.Symm (@Apart A V) := ⟨fun _ _ => Apart.symm⟩

theorem apply_comm (h : Apart p q) : apply (apply m p) q = apply (apply m q) p := by
  funext x
  rcases h x with hp | hq
  · rw [apply_of_none hp]
    unfold apply
    rw [hp]
    rfl
  · rw [apply_of_none hq]
    unfold apply
    rw [hq]
    rfl

/-- Patches are applied one after the other. -/
def applyAll (m : A → V) (ps : List (A → Option V)) : A → V := ps.foldl apply m

theorem applyAll_of_none (h : ∀ p ∈ ps, p x = none) : applyAll m ps x = m x := by
  induction ps generalizing m with
  | nil => rfl
  | cons p ps ih =>
      obtain ⟨hp, hps⟩ := List.forall_mem_cons.mp h
      exact (ih hps).trans (apply_of_none hp)

/-- A place has the value that the only patch with this place gives to it. -/
theorem applyAll_of_some (hps : ps.Pairwise Apart) (hp : p ∈ ps) (hx : p x = some v) :
    applyAll m ps x = v := by
  induction ps generalizing m with
  | nil => cases hp
  | cons q ps ih =>
      obtain ⟨hq, hrest⟩ := List.pairwise_cons.mp hps
      rcases List.mem_cons.mp hp with rfl | hmem
      · have hnone : ∀ r ∈ ps, r x = none := by
          intro r hr
          refine (hq r hr x).resolve_left ?_
          rw [hx]
          exact Option.some_ne_none v
        exact (applyAll_of_none hnone).trans (apply_of_some hx)
      · exact ih hrest hmem

theorem applyAll_perm (hps : ps.Pairwise Apart) (hperm : ps.Perm qs) :
    applyAll m ps = applyAll m qs := by
  refine hperm.foldl_eq' ?_ m
  intro p hp q hq m
  by_cases heq : p = q
  · rw [heq]
  · exact apply_comm (hps.forall hp hq heq)

end Patches
