import Mathlib.Data.Nat.Digits.Lemmas

/-!
# Numbers in positional notation

A string of symbols, some of which are digits, read from the left in a base.
-/

namespace Numerals

variable {C : Type*}

section Reading

variable (digit : C → Option ℕ) (base : ℕ)

/-- The symbol is a digit of the base. -/
def isDigit (c : C) : Bool := (digit c).any (· < base)

/-- The number that these digits stand for, behind digits that stand for `n`. -/
def valueFrom (n : ℕ) (t : List C) : ℕ := t.foldl (fun n c => base * n + (digit c).getD 0) n

def value (t : List C) : ℕ := valueFrom digit base 0 t

end Reading

variable {digit : C → Option ℕ} {base n m : ℕ} {c : C} {t u : List C} {symbol : ℕ → C}

theorem isDigit_iff : isDigit digit base c = true ↔ ∃ d < base, digit c = some d := by
  unfold isDigit
  rw [Option.any_eq_true]
  simp only [decide_eq_true_eq]
  exact ⟨fun ⟨d, hd, hlt⟩ => ⟨d, hlt, hd⟩, fun ⟨d, hlt, hd⟩ => ⟨d, hd, hlt⟩⟩

theorem valueFrom_cons :
    valueFrom digit base n (c :: t) = valueFrom digit base (base * n + (digit c).getD 0) t := rfl

/-- A number does not get smaller by more digits. -/
theorem le_valueFrom (hbase : 0 < base) : n ≤ valueFrom digit base n t := by
  induction t generalizing n with
  | nil => exact Nat.le_refl n
  | cons c t ih =>
      rw [valueFrom_cons]
      have hle : n ≤ base * n := Nat.le_mul_of_pos_left n hbase
      exact (hle.trans (Nat.le_add_right _ _)).trans ih

/-! ## Rendering -/

section Rendering

variable (symbol : ℕ → C) (base : ℕ)

/-- The digits of a number, without zeros in front. -/
def render (n : ℕ) : List C :=
  if n = 0 then [symbol 0] else (Nat.digits base n).reverse.map symbol

end Rendering

theorem render_ne_nil : render symbol base n ≠ [] := by
  unfold render
  split
  · exact List.cons_ne_nil _ _
  · next hn => simpa using @Nat.digits_ne_nil_iff_ne_zero base n |>.mpr hn

theorem isDigit_of_mem_render (hbase : 1 < base)
    (hsymbol : ∀ d < base, digit (symbol d) = some d) (hc : c ∈ render symbol base n) :
    isDigit digit base c = true := by
  rw [isDigit_iff]
  unfold render at hc
  split at hc
  · obtain rfl := List.mem_singleton.mp hc
    exact ⟨0, by omega, hsymbol 0 (by omega)⟩
  · obtain ⟨d, hd, rfl⟩ := List.mem_map.mp hc
    have hlt := Nat.digits_lt_base hbase (List.mem_reverse.mp hd)
    exact ⟨d, hlt, hsymbol d hlt⟩

/-- The first digit is 0 only if the number is. -/
theorem render_eq_cons_zero (hbase : 1 < base) (hn : n ≠ 0) :
    ∃ d u, 0 < d ∧ d < base ∧ render symbol base n = symbol d :: u := by
  have hne : Nat.digits base n ≠ [] := Nat.digits_ne_nil_iff_ne_zero.mpr hn
  have hlast := Nat.getLast_digit_ne_zero base hn
  have hlt := Nat.digits_lt_base hbase (List.getLast_mem hne)
  refine ⟨_, ((Nat.digits base n).dropLast.reverse).map symbol, Nat.pos_of_ne_zero hlast, hlt, ?_⟩
  unfold render
  rw [if_neg hn, ← List.map_cons, ← List.reverse_concat, List.dropLast_append_getLast]

theorem valueFrom_map_symbol (hsymbol : ∀ d < base, digit (symbol d) = some d) {ds : List ℕ}
    (hds : ∀ d ∈ ds, d < base) :
    valueFrom digit base n (ds.map symbol) = n * base ^ ds.length + Nat.ofDigits base ds.reverse := by
  induction ds generalizing n with
  | nil => simp [valueFrom]
  | cons d ds ih =>
      obtain ⟨hd, hrest⟩ := List.forall_mem_cons.mp hds
      rw [List.map_cons, valueFrom_cons, hsymbol d hd, ih hrest, List.reverse_cons,
        Nat.ofDigits_append, Nat.ofDigits_singleton, List.length_reverse, List.length_cons,
        Option.getD_some]
      ring

theorem value_render (hbase : 1 < base) (hsymbol : ∀ d < base, digit (symbol d) = some d) :
    value digit base (render symbol base n) = n := by
  unfold render value
  split
  · next hn =>
    rw [valueFrom_cons, hsymbol 0 (by omega), hn]
    rfl
  · have hlt : ∀ d ∈ (Nat.digits base n).reverse, d < base :=
      fun d hd => Nat.digits_lt_base hbase (List.mem_reverse.mp hd)
    rw [valueFrom_map_symbol hsymbol hlt, Nat.zero_mul, Nat.zero_add, List.reverse_reverse,
      Nat.ofDigits_digits]

end Numerals
