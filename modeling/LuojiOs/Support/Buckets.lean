import Mathlib.Algebra.BigOperators.Group.Finset.Basic
import Mathlib.Data.Finset.Card
import Mathlib.Data.Fintype.Basic
import Mathlib.Data.List.Lookmap
import Mathlib.Logic.Function.Basic

/-!
# Hash tables with chains

A table has a chain of entries for each bucket.  A new entry goes to the front of the chain of its
key, and an entry that exists is changed where it is.
-/

namespace Buckets

variable {ι K E : Type*}

section Operations

variable (key : E → K) (hash : K → ι)

/-- Each entry is in the chain of its key, and no key has two of them. -/
structure Proper (b : ι → List E) : Prop where
  home : ∀ i, ∀ e ∈ b i, hash (key e) = i
  nodup : ∀ i, ((b i).map key).Nodup

def put [DecidableEq ι] (b : ι → List E) (e : E) : ι → List E :=
  Function.update b (hash (key e)) (e :: b (hash (key e)))

variable [DecidableEq K]

def find (b : ι → List E) (k : K) : Option E := (b (hash k)).find? fun e => key e = k

def changeOf (f : E → E) (k : K) (e : E) : Option E := if key e = k then some (f e) else none

/-- The first entry of a key is changed. -/
def change [DecidableEq ι] (f : E → E) (b : ι → List E) (k : K) : ι → List E :=
  Function.update b (hash k) ((b (hash k)).lookmap (changeOf key f k))

end Operations

variable {key : E → K} {hash : K → ι} {b : ι → List E} {e : E} {f : E → E} {j k : K} {l : List E}

section Chains

variable [DecidableEq K]

/-- The chain with the first entry of a key changed. -/
theorem find?_lookmap (hf : ∀ e, key (f e) = key e) :
    (l.lookmap (changeOf key f k)).find? (fun e => key e = j) =
      if j = k then (l.find? fun e => key e = k).map f else l.find? fun e => key e = j := by
  induction l with
  | nil => simp
  | cons e l ih =>
      by_cases hk : key e = k
      · have hsome : changeOf key f k e = some (f e) := if_pos hk
        rw [List.lookmap_cons_some _ _ hsome, List.find?_cons, List.find?_cons,
          List.find?_cons, decide_eq_true hk, hf, hk]
        by_cases hj : j = k
        · rw [if_pos hj, decide_eq_true hj.symm]
          rfl
        · rw [if_neg hj, decide_eq_false (Ne.symm hj)]
      · have hnone : changeOf key f k e = none := if_neg hk
        rw [List.lookmap_cons_none _ _ hnone, List.find?_cons, List.find?_cons,
          List.find?_cons, decide_eq_false hk, ih]
        by_cases hj : j = k
        · rw [if_pos hj, if_pos hj, hj, decide_eq_false hk]
        · rw [if_neg hj, if_neg hj]

theorem map_key_lookmap (hf : ∀ e, key (f e) = key e) :
    (l.lookmap (changeOf key f k)).map key = l.map key := by
  refine List.lookmap_map_eq _ key (fun e e' he => ?_) l
  unfold changeOf at he
  split at he
  · rw [← Option.some.inj he, hf]
  · cases he

theorem Proper.not_mem (hb : Proper key hash b) (h : find key hash b k = none) (i : ι) :
    k ∉ (b i).map key := by
  intro hk
  obtain ⟨e, he, rfl⟩ := List.mem_map.mp hk
  have hnone := List.find?_eq_none.mp h e (by rw [hb.home i e he]; exact he)
  simp at hnone

/-- The entries of the table are those that are found. -/
theorem Proper.mem_iff (hb : Proper key hash b) {i : ι} :
    e ∈ b i ↔ i = hash (key e) ∧ find key hash b (key e) = some e := by
  constructor
  · intro he
    have hi := hb.home i e he
    refine ⟨hi.symm, ?_⟩
    unfold find
    rw [hi]
    obtain ⟨e', he'⟩ := Option.isSome_iff_exists.mp
      (List.find?_isSome.mpr ⟨e, he, by simp⟩ :
        ((b i).find? fun e' => key e' = key e).isSome = true)
    have hkey : key e' = key e := by simpa using List.find?_some he'
    rw [he', List.inj_on_of_nodup_map (hb.nodup i) (List.mem_of_find?_eq_some he') he hkey]
  · rintro ⟨rfl, he⟩
    exact List.mem_of_find?_eq_some he

end Chains

section Tables

variable [DecidableEq ι] [DecidableEq K]

theorem find_put : find key hash (put key hash b e) k =
    if k = key e then some e else find key hash b k := by
  unfold find put
  by_cases hk : k = key e
  · subst hk
    rw [Function.update_self, if_pos rfl, List.find?_cons_of_pos (by simp)]
  · rw [if_neg hk]
    by_cases hhash : hash k = hash (key e)
    · rw [hhash, Function.update_self, List.find?_cons_of_neg (by simpa using Ne.symm hk)]
    · rw [Function.update_of_ne hhash]

theorem find_change (hf : ∀ e, key (f e) = key e) : find key hash (change key hash f b k) j =
    if j = k then (find key hash b k).map f else find key hash b j := by
  unfold find change
  by_cases hhash : hash j = hash k
  · rw [hhash, Function.update_self, find?_lookmap hf]
  · have hne : j ≠ k := fun h => hhash (congrArg hash h)
    rw [Function.update_of_ne hhash, if_neg hne]

theorem Proper.put (hb : Proper key hash b) (h : find key hash b (key e) = none) :
    Proper key hash (put key hash b e) where
  home i e' he' := by
    unfold Buckets.put at he'
    by_cases hi : i = hash (key e)
    · subst hi
      rw [Function.update_self] at he'
      rcases List.mem_cons.mp he' with rfl | he'
      · rfl
      · exact hb.home _ e' he'
    · rw [Function.update_of_ne hi] at he'
      exact hb.home i e' he'
  nodup i := by
    unfold Buckets.put
    by_cases hi : i = hash (key e)
    · subst hi
      rw [Function.update_self, List.map_cons, List.nodup_cons]
      exact ⟨hb.not_mem h _, hb.nodup _⟩
    · rw [Function.update_of_ne hi]
      exact hb.nodup i

theorem Proper.change (hb : Proper key hash b) (hf : ∀ e, key (f e) = key e) :
    Proper key hash (change key hash f b k) where
  home i e he := by
    have hkey : key e ∈ (b i).map key := by
      unfold Buckets.change at he
      by_cases hi : i = hash k
      · subst hi
        rw [Function.update_self] at he
        rw [← map_key_lookmap (k := k) (l := b (hash k)) hf]
        exact List.mem_map_of_mem he
      · rw [Function.update_of_ne hi] at he
        exact List.mem_map_of_mem he
    obtain ⟨e', he', heq⟩ := List.mem_map.mp hkey
    rw [← heq]
    exact hb.home i e' he'
  nodup i := by
    unfold Buckets.change
    by_cases hi : i = hash k
    · subst hi
      rw [Function.update_self, map_key_lookmap hf]
      exact hb.nodup _
    · rw [Function.update_of_ne hi]
      exact hb.nodup i

end Tables

section Size

variable [Fintype ι]

/-- The number of the entries. -/
def size (b : ι → List E) : ℕ := ∑ i, (b i).length

theorem size_put [DecidableEq ι] : size (put key hash b e) = size b + 1 := by
  have hrest : ∀ i ∈ Finset.univ.erase (hash (key e)),
      (put key hash b e i).length = (b i).length := by
    intro i hi
    unfold put
    rw [Function.update_of_ne (Finset.ne_of_mem_erase hi)]
  unfold size
  rw [← Finset.add_sum_erase _ _ (Finset.mem_univ (hash (key e))), Finset.sum_congr rfl hrest,
    ← Finset.add_sum_erase Finset.univ (fun i => (b i).length) (Finset.mem_univ (hash (key e)))]
  unfold put
  rw [Function.update_self, List.length_cons]
  omega

theorem size_change [DecidableEq ι] [DecidableEq K] : size (change key hash f b k) = size b := by
  refine Finset.sum_congr rfl fun i _ => ?_
  unfold change
  by_cases hi : i = hash k
  · rw [hi, Function.update_self, List.length_lookmap]
  · rw [Function.update_of_ne hi]

variable [DecidableEq K]

/-- The keys of the entries. -/
def keys (key : E → K) (b : ι → List E) : Finset K :=
  Finset.univ.biUnion fun i => ((b i).map key).toFinset

theorem Proper.mem_keys (hb : Proper key hash b) :
    k ∈ keys key b ↔ (find key hash b k).isSome = true := by
  unfold keys
  simp only [Finset.mem_biUnion, Finset.mem_univ, true_and, List.mem_toFinset, List.mem_map]
  constructor
  · rintro ⟨i, e, he, rfl⟩
    rw [(hb.mem_iff.mp he).2]
    rfl
  · intro h
    obtain ⟨e, he⟩ := Option.isSome_iff_exists.mp h
    have hkey : key e = k := by simpa using List.find?_some he
    exact ⟨hash k, e, List.mem_of_find?_eq_some he, hkey⟩

theorem Proper.card_keys (hb : Proper key hash b) : (keys key b).card = size b := by
  unfold keys size
  rw [Finset.card_biUnion]
  · refine Finset.sum_congr rfl fun i _ => ?_
    rw [List.toFinset_card_of_nodup (hb.nodup i), List.length_map]
  · intro i _ j _ hij
    refine Finset.disjoint_left.mpr fun k hi hj => hij ?_
    obtain ⟨e, he, rfl⟩ := List.mem_map.mp (List.mem_toFinset.mp hi)
    obtain ⟨e', he', heq⟩ := List.mem_map.mp (List.mem_toFinset.mp hj)
    rw [← hb.home i e he, ← hb.home j e' he', heq]

end Size

end Buckets
