import Mathlib.Algebra.BigOperators.Group.Finset.Basic
import Mathlib.Algebra.Order.BigOperators.Group.Finset
import Mathlib.Data.Fintype.Card
import Mathlib.Data.BitVec

/-!
# Paired parity

Every bit of a block has an address, a vector of bits over `ι`.  The check word of the block
has two bits for each `k` of `ι`: the parity of the ones whose address has the bit `k`, and
the parity of the ones whose address has it not.  A flip in the block changes one bit of each
pair, so it names its address; a flip in the check word changes a single bit; two flips do
neither.
-/

namespace PairedParity

/-! ## Sums by exclusive or -/

section Sums

variable {w : ℕ} {f g : ℕ → BitVec w} {i n : ℕ}

/-- The exclusive or of `f` over the numbers below `n`. -/
def xorSum (f : ℕ → BitVec w) : ℕ → BitVec w
  | 0 => 0
  | n + 1 => xorSum f n ^^^ f n

theorem xorSum_succ : xorSum f (n + 1) = xorSum f n ^^^ f n := rfl

theorem xor_xor_xor_comm (a b c d : BitVec w) : a ^^^ b ^^^ (c ^^^ d) = a ^^^ c ^^^ (b ^^^ d) := by
  ext k
  simp only [BitVec.getElem_xor]
  cases a[k] <;> cases b[k] <;> simp

theorem xorSum_xor (f g : ℕ → BitVec w) (n : ℕ) :
    xorSum (fun i => f i ^^^ g i) n = xorSum f n ^^^ xorSum g n := by
  induction n with
  | zero => exact BitVec.xor_zero.symm
  | succ n ih =>
      rw [xorSum_succ, xorSum_succ, xorSum_succ, ih]
      exact xor_xor_xor_comm _ _ _ _

theorem xorSum_congr (h : ∀ i < n, f i = g i) : xorSum f n = xorSum g n := by
  induction n with
  | zero => rfl
  | succ n ih =>
      rw [xorSum_succ, xorSum_succ, ih fun i hi => h i (Nat.lt_succ_of_lt hi),
        h n (Nat.lt_succ_self n)]

theorem xorSum_zero (h : ∀ i < n, f i = 0) : xorSum f n = 0 := by
  induction n with
  | zero => rfl
  | succ n ih =>
      rw [xorSum_succ, ih fun i hi => h i (Nat.lt_succ_of_lt hi), h n (Nat.lt_succ_self n)]
      exact BitVec.xor_zero

/-- A sum with one term. -/
theorem xorSum_single (hi : i < n) (h : ∀ j < n, j ≠ i → f j = 0) : xorSum f n = f i := by
  induction n with
  | zero => omega
  | succ n ih =>
      rw [xorSum_succ]
      by_cases hin : i = n
      · subst hin
        have hzero : xorSum f i = 0 := xorSum_zero fun j hj =>
          h j (Nat.lt_succ_of_lt hj) (Nat.ne_of_lt hj)
        rw [hzero]
        exact BitVec.zero_xor
      · have hrest := ih (by omega) fun j hj hne => h j (Nat.lt_succ_of_lt hj) hne
        rw [hrest, h n (Nat.lt_succ_self n) (Ne.symm hin)]
        exact BitVec.xor_zero

end Sums

/-! ## Syndromes -/

/-- The exclusive or of two check words. -/
@[ext]
structure Syndrome (ι : Type*) where
  line : ι → Bool
  complement : ι → Bool

/-- What may be flipped: the bit of the block with an address, or a bit of the check word, on
the one side of a pair or on the other. -/
inductive Place (ι : Type*)
  | data (address : ι → Bool)
  | check (k : ι) (side : Bool)

namespace Syndrome

variable {ι : Type*}

def xor (s t : Syndrome ι) : Syndrome ι where
  line k := s.line k ^^ t.line k
  complement k := s.complement k ^^ t.complement k

/-- One bit of each pair is set. -/
def IsData (s : Syndrome ι) : Prop := ∀ k, s.line k ≠ s.complement k

/-- The number of bits of a pair that are set. -/
def count (s : Syndrome ι) (k : ι) : ℕ := (s.line k).toNat + (s.complement k).toNat

def weight [Fintype ι] (s : Syndrome ι) : ℕ := ∑ k, s.count k

theorem xor_comm (s t : Syndrome ι) : s.xor t = t.xor s := by
  ext k
  · exact Bool.xor_comm _ _
  · exact Bool.xor_comm _ _

variable {s : Syndrome ι} {i j k : ι}

theorem IsData.count_eq (h : s.IsData) (k : ι) : s.count k = 1 := by
  have hk := h k
  unfold count
  cases hl : s.line k <;> cases hc : s.complement k <;> simp_all

theorem not_isData_of_count (h : s.count k ≠ 1) : ¬s.IsData := fun hdata => h (hdata.count_eq k)

variable [Fintype ι]

theorem count_le_weight (k : ι) : s.count k ≤ s.weight :=
  Finset.single_le_sum (f := s.count) (fun _ _ => Nat.zero_le _) (Finset.mem_univ k)

theorem count_add_count_le_weight [DecidableEq ι] (h : i ≠ j) :
    s.count i + s.count j ≤ s.weight := by
  rw [← Finset.sum_pair h]
  exact Finset.sum_le_sum_of_subset (Finset.subset_univ _)

end Syndrome

/-! ## Flips -/

section Flips

variable {ι : Type*} [DecidableEq ι]

/-- The change of the check word by a flip. -/
def Place.syndrome : Place ι → Syndrome ι
  | .data address => ⟨address, fun k => !address k⟩
  | .check k side => ⟨fun j => decide (j = k) && side, fun j => decide (j = k) && !side⟩

theorem isData_data (address : ι → Bool) : (Place.data address).syndrome.IsData := by
  intro k
  cases h : address k <;> simp [Place.syndrome, h]

variable {address address' : ι → Bool} {i j k l : ι} {side side' : Bool}

theorem count_data_data (h : address k ≠ address' k) :
    ((Place.data address).syndrome.xor (Place.data address').syndrome).count k = 2 := by
  cases ha : address k <;> cases ha' : address' k <;>
    simp_all [Place.syndrome, Syndrome.xor, Syndrome.count]

theorem count_data_check_of_ne (h : j ≠ k) :
    ((Place.data address).syndrome.xor (Place.check k side).syndrome).count j = 1 := by
  cases ha : address j <;> simp [Place.syndrome, Syndrome.xor, Syndrome.count, ha, h]

theorem count_data_check_self :
    ((Place.data address).syndrome.xor (Place.check k side).syndrome).count k ≠ 1 := by
  cases ha : address k <;> cases side <;> simp [Place.syndrome, Syndrome.xor, Syndrome.count, ha]

theorem count_check_check_self (h : side ≠ side') :
    ((Place.check k side).syndrome.xor (Place.check k side').syndrome).count k = 2 := by
  cases side <;> cases side' <;> simp_all [Place.syndrome, Syndrome.xor, Syndrome.count]

theorem count_check_check_of_ne (h : k ≠ l) :
    ((Place.check k side).syndrome.xor (Place.check l side').syndrome).count k = 1 := by
  cases side <;> simp [Place.syndrome, Syndrome.xor, Syndrome.count, h]

theorem count_check_check_of_ne' (h : l ≠ k) :
    ((Place.check k side).syndrome.xor (Place.check l side').syndrome).count l = 1 := by
  cases side' <;> simp [Place.syndrome, Syndrome.xor, Syndrome.count, h]

theorem count_check_check_other (hk : j ≠ k) (hl : j ≠ l) :
    ((Place.check k side).syndrome.xor (Place.check l side').syndrome).count j = 0 := by
  simp [Place.syndrome, Syndrome.xor, Syndrome.count, hk, hl]

end Flips

section TwoFlips

variable {ι : Type*} [DecidableEq ι] [Fintype ι]

/-- Three different pairs, of which two are not `k`. -/
theorem exists_two_ne (hcard : 2 < Fintype.card ι) (k : ι) : ∃ i j, i ≠ j ∧ i ≠ k ∧ j ≠ k := by
  obtain ⟨a, b, c, hab, hac, hbc⟩ := Fintype.two_lt_card_iff.mp hcard
  by_cases ha : a = k
  · exact ⟨b, c, hbc, fun h => hab (ha.trans h.symm), fun h => hac (ha.trans h.symm)⟩
  · by_cases hb : b = k
    · exact ⟨a, c, hac, ha, fun h => hbc (hb.trans h.symm)⟩
    · exact ⟨a, b, hab, ha, hb⟩

theorem exists_ne_ne (hcard : 2 < Fintype.card ι) (k l : ι) : ∃ j, j ≠ k ∧ j ≠ l := by
  obtain ⟨i, j, hij, hi, hj⟩ := exists_two_ne hcard k
  by_cases hil : i = l
  · exact ⟨j, hj, fun hjl => hij (hil.trans hjl.symm)⟩
  · exact ⟨i, hi, hil⟩

/-- What two flips leave is neither a flip of the block nor one of the check word. -/
structure Syndrome.Double (s : Syndrome ι) : Prop where
  not_isData : ¬s.IsData
  two_le : 2 ≤ s.weight

theorem double_data_data {address address' : ι → Bool} (h : address ≠ address') :
    ((Place.data address).syndrome.xor (Place.data address').syndrome).Double := by
  obtain ⟨k, hk⟩ := Function.ne_iff.mp h
  have hcount := count_data_data hk
  refine ⟨Syndrome.not_isData_of_count (k := k) (by omega), ?_⟩
  exact hcount.ge.trans (Syndrome.count_le_weight k)

theorem double_data_check (hcard : 2 < Fintype.card ι) (address : ι → Bool) (k : ι)
    (side : Bool) :
    ((Place.data address).syndrome.xor (Place.check k side).syndrome).Double := by
  refine ⟨Syndrome.not_isData_of_count count_data_check_self, ?_⟩
  obtain ⟨i, j, hij, hi, hj⟩ := exists_two_ne hcard k
  have hle := Syndrome.count_add_count_le_weight
    (s := (Place.data address).syndrome.xor (Place.check k side).syndrome) hij
  rwa [count_data_check_of_ne hi, count_data_check_of_ne hj] at hle

theorem double_check_check (hcard : 2 < Fintype.card ι) {k l : ι} {side side' : Bool}
    (h : (k, side) ≠ (l, side')) :
    ((Place.check k side).syndrome.xor (Place.check l side').syndrome).Double := by
  constructor
  · obtain ⟨j, hk, hl⟩ := exists_ne_ne hcard k l
    apply Syndrome.not_isData_of_count (k := j)
    rw [count_check_check_other hk hl]
    exact Nat.zero_ne_one
  · by_cases hkl : k = l
    · subst hkl
      have hside : side ≠ side' := fun hs => h (by rw [hs])
      exact (count_check_check_self hside).ge.trans (Syndrome.count_le_weight k)
    · have hle := Syndrome.count_add_count_le_weight
        (s := (Place.check k side).syndrome.xor (Place.check l side').syndrome) hkl
      rwa [count_check_check_of_ne hkl, count_check_check_of_ne' (Ne.symm hkl)] at hle

/-- Two flips in different places are told from a single one. -/
theorem double_of_ne (hcard : 2 < Fintype.card ι) {p q : Place ι} (h : p ≠ q) :
    (p.syndrome.xor q.syndrome).Double := by
  cases p with
  | data address =>
      cases q with
      | data address' => exact double_data_data fun ha => h (by rw [ha])
      | check k side => exact double_data_check hcard address k side
  | check k side =>
      cases q with
      | data address =>
          rw [Syndrome.xor_comm]
          exact double_data_check hcard address k side
      | check l side' =>
          apply double_check_check hcard
          intro hkl
          rw [Prod.mk.injEq] at hkl
          exact h (by rw [hkl.1, hkl.2])

end TwoFlips

end PairedParity
