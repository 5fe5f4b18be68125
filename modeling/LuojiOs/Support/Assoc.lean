import Mathlib.Data.List.Nodup

/-!
# Lists of settings

A list of pairs of a key and a value, in which a new setting of a key goes to the end and
takes the place of the old one.  After any sequence of settings each key is looked up with
the value it was given last.
-/

namespace Assoc

variable {α β : Type*} {es fs cs : List (α × β)} {k x : α} {v : β}

def keys (es : List (α × β)) : List α := es.map Prod.fst

@[simp] theorem keys_nil : keys ([] : List (α × β)) = [] := rfl

@[simp] theorem keys_cons {p : α × β} : keys (p :: es) = p.1 :: keys es := rfl

@[simp] theorem keys_append : keys (es ++ fs) = keys es ++ keys fs := List.map_append

section BEq

variable [BEq α]

/-- The settings without that of `k`. -/
def without (es : List (α × β)) (k : α) : List (α × β) := es.filter fun p => p.1 != k

/-- The settings with `k` set to `v`. -/
def put (es : List (α × β)) (k : α) (v : β) : List (α × β) := without es k ++ [(k, v)]

/-- The settings in force after the settings `cs`, from the settings `es` on. -/
def puts (es : List (α × β)) : List (α × β) → List (α × β)
  | [] => es
  | p :: cs => puts (put es p.1 p.2) cs

theorem nodup_without (h : (keys es).Nodup) : (keys (without es k)).Nodup :=
  h.sublist (List.filter_sublist.map Prod.fst)

theorem without_append : without (es ++ fs) k = without es k ++ without fs k :=
  List.filter_append ..

end BEq

variable [BEq α] [LawfulBEq α]

/-! ## Keys -/

theorem mem_keys_without : x ∈ keys (without es k) ↔ x ∈ keys es ∧ x ≠ k := by
  simp only [keys, without, List.mem_map, List.mem_filter]
  constructor
  · rintro ⟨p, ⟨hp, hne⟩, rfl⟩
    exact ⟨⟨p, hp, rfl⟩, by simpa using hne⟩
  · rintro ⟨⟨p, hp, rfl⟩, hne⟩
    exact ⟨p, ⟨hp, by simpa using hne⟩, rfl⟩

theorem mem_keys_put : x ∈ keys (put es k v) ↔ x ∈ keys es ∨ x = k := by
  rw [put, keys_append, List.mem_append, mem_keys_without]
  simp only [keys_cons, keys_nil, List.mem_singleton]
  tauto

theorem nodup_put (h : (keys es).Nodup) : (keys (put es k v)).Nodup := by
  rw [put, keys_append]
  apply (nodup_without h).append (List.nodup_singleton k)
  intro y hy hyk
  exact (mem_keys_without.mp hy).2 (List.mem_singleton.mp hyk)

theorem nodup_puts (h : (keys es).Nodup) : (keys (puts es cs)).Nodup := by
  induction cs generalizing es with
  | nil => exact h
  | cons p cs ih => exact ih (nodup_put h)

theorem mem_keys_puts : x ∈ keys (puts es cs) ↔ x ∈ keys es ∨ x ∈ keys cs := by
  induction cs generalizing es with
  | nil => simp [puts]
  | cons p cs ih =>
      rw [puts, ih, mem_keys_put, keys_cons, List.mem_cons]
      tauto

theorem without_of_not_mem (h : k ∉ keys es) : without es k = es := by
  apply List.filter_eq_self.mpr
  intro p hp
  rw [bne_iff_ne]
  rintro rfl
  exact h (List.mem_map_of_mem hp)

@[simp] theorem without_cons_self : without ((k, v) :: es) k = without es k := by
  simp [without]

/-- Where the setting of a key stands. -/
theorem exists_split (h : (keys es).Nodup) (hk : k ∈ keys es) :
    ∃ as v bs, es = as ++ (k, v) :: bs ∧ k ∉ keys as ∧ without es k = as ++ bs := by
  obtain ⟨p, hp, rfl⟩ := List.mem_map.mp hk
  obtain ⟨as, bs, rfl⟩ := List.append_of_mem hp
  rw [keys_append, keys_cons, List.nodup_append, List.nodup_cons] at h
  obtain ⟨-, ⟨hbs, -⟩, hne⟩ := h
  have has : p.1 ∉ keys as := fun hmem => hne p.1 hmem p.1 List.mem_cons_self rfl
  refine ⟨as, p.2, bs, rfl, has, ?_⟩
  rw [without_append, without_of_not_mem has, without_cons_self, without_of_not_mem hbs]

theorem length_without (h : (keys es).Nodup) (hk : k ∈ keys es) :
    (without es k).length + 1 = es.length := by
  obtain ⟨as, v, bs, rfl, -, hw⟩ := exists_split h hk
  rw [hw, List.length_append, List.length_append, List.length_cons, Nat.add_assoc]

theorem length_put_of_mem (h : (keys es).Nodup) (hk : k ∈ keys es) :
    (put es k v).length = es.length := by
  rw [put, List.length_append, List.length_singleton, length_without h hk]

theorem length_put_of_not_mem (hk : k ∉ keys es) : (put es k v).length = es.length + 1 := by
  rw [put, without_of_not_mem hk, List.length_append, List.length_singleton]

@[simp] theorem without_without : without (without es k) k = without es k :=
  without_of_not_mem fun h => (mem_keys_without.mp h).2 rfl

theorem without_put : without (put es k v) k = without es k := by
  rw [put, without_append, without_without, without_cons_self]
  exact List.append_nil _

/-! ## Looking up -/

theorem lookup_eq_none_iff : es.lookup k = none ↔ k ∉ keys es := by
  rw [List.lookup_eq_none_iff]
  simp only [keys, List.mem_map, not_exists, not_and]
  constructor
  · intro h p hp hk
    simpa [hk] using h p hp
  · intro h p hp
    simpa using fun hk => h p hp hk.symm

variable [DecidableEq α]

theorem lookup_cons_ite :
    ((k, v) :: es).lookup x = if x = k then some v else es.lookup x := by
  rw [List.lookup_cons]
  by_cases hx : x = k
  · simp [hx]
  · have hbeq : (x == k) = false := by simpa using hx
    rw [hbeq, if_neg hx]

theorem lookup_without : (without es k).lookup x = if x = k then none else es.lookup x := by
  induction es with
  | nil => simp [without]
  | cons p es ih =>
      obtain ⟨y, w⟩ := p
      by_cases hy : y = k
      · subst hy
        rw [without_cons_self, ih, lookup_cons_ite]
        by_cases hx : x = y
        · rw [if_pos hx, if_pos hx]
        · rw [if_neg hx, if_neg hx, if_neg hx]
      · have hcons : without ((y, w) :: es) k = (y, w) :: without es k := by
          simp [without, hy]
        rw [hcons, lookup_cons_ite, lookup_cons_ite, ih]
        by_cases hx : x = y
        · rw [if_pos hx, if_neg (hx ▸ hy), if_pos hx]
        · rw [if_neg hx, if_neg hx]

theorem lookup_put : (put es k v).lookup x = if x = k then some v else es.lookup x := by
  rw [put, List.lookup_append, lookup_without, lookup_cons_ite]
  by_cases hx : x = k
  · simp [hx]
  · simp [hx]

/-- The setting that was made last is in force. -/
theorem lookup_puts : (puts es cs).lookup x = (cs.reverse.lookup x).or (es.lookup x) := by
  induction cs generalizing es with
  | nil => rfl
  | cons p cs ih =>
      obtain ⟨k, v⟩ := p
      rw [puts, ih, lookup_put, List.reverse_cons, List.lookup_append, lookup_cons_ite,
        Option.or_assoc]
      by_cases hx : x = k
      · simp [hx]
      · simp [hx]

end Assoc
