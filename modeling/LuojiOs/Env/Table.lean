import LuojiOs.Env.Nvram
import LuojiOs.Support.Assoc

/-!
# The table of variables in RAM

`set_mem_env` puts a value into the slot of its variable, into the first free slot for a new
variable, or nowhere when all slots are taken.
-/

namespace LuojiOs

open Assoc

@[simp] theorem striequ_iff {s₁ s₂ : CString} : striequ s₁ s₂ = true ↔ s₁ = s₂ := by
  unfold striequ
  simp only [Bool.decide_and, Bool.and_eq_true, decide_eq_true_eq]
  constructor
  · exact fun h => h.2
  · rintro rfl
    exact ⟨rfl, rfl⟩

/-- The slot belongs to the variable `name`. -/
theorem any_striequ_iff {name : CString} {o : Option CString} :
    o.any (striequ name) = true ↔ o = some name := by
  cases o with
  | none => exact ⟨nofun, nofun⟩
  | some s =>
      rw [Option.any_some, striequ_iff, Option.some.injEq]
      exact eq_comm

/-! ## Looking up -/

/-- The value of a variable in the table. -/
def tableValue (name : CString) (tbl : List EnvPair) : Option CString :=
  (tbl.find? fun ep => ep.name.any (striequ name)).map fun ep => ep.value.getD []

/-- The variables of the table. -/
def tableNames (tbl : List EnvPair) : List CString := tbl.filterMap EnvPair.name

theorem getenv_of_inited {name : CString} {σ : Env} (h : σ.envinited = true) :
    getenv name σ = tableValue name σ.envvar := if_pos h

section Lookup

variable {name n : CString} {v : CString} {w : Option CString} {ep : EnvPair}
  {as bs tbl : List EnvPair} {i : ℕ} {bp : Option ℕ}

theorem mem_tableNames : name ∈ tableNames tbl ↔ ∃ ep ∈ tbl, ep.name = some name :=
  List.mem_filterMap

theorem tableValue_append :
    tableValue n (as ++ bs) = (tableValue n as).or (tableValue n bs) := by
  unfold tableValue
  rw [List.find?_append]
  cases as.find? fun ep => ep.name.any (striequ n) with
  | none => simp
  | some ep => simp

theorem tableValue_cons :
    tableValue n (ep :: bs) =
      if ep.name = some n then some (ep.value.getD []) else tableValue n bs := by
  unfold tableValue
  rw [List.find?_cons]
  by_cases h : ep.name = some n
  · rw [any_striequ_iff.mpr h, if_pos h]
    rfl
  · have hany : ep.name.any (striequ n) = false := by
      rw [← Bool.not_eq_true, any_striequ_iff]
      exact h
    rw [hany, if_neg h]

theorem tableValue_eq_none_iff : tableValue n tbl = none ↔ n ∉ tableNames tbl := by
  induction tbl with
  | nil => simp [tableValue, tableNames]
  | cons ep tbl ih =>
      rw [tableValue_cons, mem_tableNames]
      rw [mem_tableNames] at ih
      by_cases h : ep.name = some n
      · simp [h]
      · rw [if_neg h, ih]
        simp [h]

theorem tableNames_append : tableNames (as ++ bs) = tableNames as ++ tableNames bs :=
  List.filterMap_append

theorem tableNames_cons_some (h : ep.name = some n) :
    tableNames (ep :: bs) = n :: tableNames bs :=
  List.filterMap_cons_some h

theorem tableNames_cons_none (h : ep.name = none) : tableNames (ep :: bs) = tableNames bs :=
  List.filterMap_cons_none h

/-- The slot of the variable, or a free one for a new variable, gets its value; the others keep
theirs. -/
theorem tableValue_set (has : name ∉ tableNames as)
    (hep : ep.name = some name ∨ ep.name = none ∧ name ∉ tableNames (as ++ ep :: bs)) :
    tableValue n (as ++ ⟨some name, w⟩ :: bs) =
      if n = name then some (w.getD []) else tableValue n (as ++ ep :: bs) := by
  rw [tableValue_append, tableValue_append, tableValue_cons, tableValue_cons]
  by_cases hn : n = name
  · subst hn
    rw [if_pos rfl, if_pos rfl, tableValue_eq_none_iff.mpr has]
    rfl
  · have hnew : ¬some name = some n := fun hc => hn (Option.some.inj hc).symm
    have hold : ¬ep.name = some n := by
      rcases hep with hep | ⟨hep, -⟩
      · rwa [hep]
      · rw [hep]
        exact nofun
    rw [if_neg hn, if_neg hnew, if_neg hold]

/-! ## Finding the slot -/

theorem not_mem_tableNames_cons :
    name ∉ tableNames (ep :: tbl) ↔ ep.name ≠ some name ∧ name ∉ tableNames tbl := by
  rw [← tableValue_eq_none_iff, ← tableValue_eq_none_iff, tableValue_cons]
  by_cases h : ep.name = some name
  · simp [h]
  · simp [h]

/-- The slot is that of another variable, or a free one behind the first. -/
theorem findSlot_skip (hname : ep.name ≠ some name) (hfree : ¬(ep.name = none ∧ bp = none)) :
    findSlot name (ep :: tbl) i bp = findSlot name tbl (i + 1) bp := by
  simp only [findSlot]
  rw [if_neg hfree, if_neg fun h => hname (any_striequ_iff.mp h)]

theorem findSlot_take (hfree : ep.name = none) :
    findSlot name (ep :: tbl) i none = findSlot name tbl (i + 1) (some i) :=
  if_pos ⟨hfree, rfl⟩

theorem findSlot_found (hname : ep.name = some name) :
    findSlot name (ep :: tbl) i bp = (some i, bp) := by
  have hfree : ¬(ep.name = none ∧ bp = none) := by simp [hname]
  simp only [findSlot]
  rw [if_neg hfree, if_pos (any_striequ_iff.mpr hname)]

/-- The slot that is found is that of the variable. -/
theorem findSlot_of_mem (hname : ep.name = some name) (has : name ∉ tableNames as) :
    (findSlot name (as ++ ep :: bs) i bp).1 = some (i + as.length) := by
  induction as generalizing i bp with
  | nil =>
      rw [List.nil_append, findSlot_found hname]
      rfl
  | cons a as ih =>
      obtain ⟨ha, htail⟩ := not_mem_tableNames_cons.mp has
      have hlen : i + (a :: as).length = i + 1 + as.length := by
        rw [List.length_cons]
        omega
      rw [hlen, List.cons_append]
      by_cases hfree : a.name = none ∧ bp = none
      · rw [hfree.2, findSlot_take hfree.1]
        exact ih htail
      · rw [findSlot_skip ha hfree]
        exact ih htail

/-- A new variable gets no slot beyond the first free one. -/
theorem findSlot_of_not_mem_some {j : ℕ} (h : name ∉ tableNames tbl) :
    findSlot name tbl i (some j) = (none, some j) := by
  induction tbl generalizing i with
  | nil => rfl
  | cons a as ih =>
      obtain ⟨ha, htail⟩ := not_mem_tableNames_cons.mp h
      rw [findSlot_skip ha (by simp)]
      exact ih htail

theorem findSlot_of_free (hfree : ep.name = none) (has : ∀ a ∈ as, a.name ≠ none)
    (h : name ∉ tableNames (as ++ ep :: bs)) :
    findSlot name (as ++ ep :: bs) i none = (none, some (i + as.length)) := by
  induction as generalizing i with
  | nil =>
      rw [List.nil_append, findSlot_take hfree]
      exact findSlot_of_not_mem_some (not_mem_tableNames_cons.mp h).2
  | cons a as ih =>
      obtain ⟨ha, htail⟩ := not_mem_tableNames_cons.mp h
      have hlen : i + (a :: as).length = i + 1 + as.length := by
        rw [List.length_cons]
        omega
      rw [hlen, List.cons_append, findSlot_skip ha fun hc => has a List.mem_cons_self hc.1]
      exact ih (fun b hb => has b (List.mem_cons_of_mem a hb)) htail

theorem findSlot_of_full (has : ∀ a ∈ tbl, a.name ≠ none) (h : name ∉ tableNames tbl) :
    findSlot name tbl i none = (none, none) := by
  induction tbl generalizing i with
  | nil => rfl
  | cons a as ih =>
      obtain ⟨ha, htail⟩ := not_mem_tableNames_cons.mp h
      rw [findSlot_skip ha fun hc => has a List.mem_cons_self hc.1]
      exact ih (fun b hb => has b (List.mem_cons_of_mem a hb)) htail

/-! ## `set_mem_env` -/

/-- The table has a slot for the variable `name`. -/
def Takes (name : CString) (tbl : List EnvPair) : Prop :=
  name ∈ tableNames tbl ∨ ∃ ep ∈ tbl, ep.name = none

theorem modify_append {f : EnvPair → EnvPair} :
    (as ++ ep :: bs).modify as.length f = as ++ f ep :: bs := by
  induction as with
  | nil => rfl
  | cons a as ih => exact congrArg (a :: ·) ih

/-- A variable of the table has its own slot. -/
theorem findSlot_of_old (hmem : name ∈ tableNames tbl) :
    ∃ as ep bs, tbl = as ++ ep :: bs ∧ ep.name = some name ∧ name ∉ tableNames as ∧
      (findSlot name tbl 0 none).1 = some as.length := by
  have hsome : ∃ ep ∈ tbl, ep.name = some name := mem_tableNames.mp hmem
  obtain ⟨ep, hfind⟩ : ∃ ep, tbl.find? (fun ep => ep.name = some name) = some ep := by
    rw [← Option.isSome_iff_exists, List.find?_isSome]
    simpa using hsome
  obtain ⟨hname, as, bs, rfl, has⟩ := List.find?_eq_some_iff_append.mp hfind
  have hname : ep.name = some name := by simpa using hname
  have has' : name ∉ tableNames as := by
    intro hmem
    obtain ⟨a, ha, haname⟩ := mem_tableNames.mp hmem
    have := has a ha
    simp [haname] at this
  have hslot : (findSlot name (as ++ ep :: bs) 0 none).1 = some (0 + as.length) :=
    findSlot_of_mem hname has'
  rw [Nat.zero_add] at hslot
  exact ⟨as, ep, bs, rfl, hname, has', hslot⟩

/-- A new variable gets the first free slot. -/
theorem findSlot_of_new (hmem : name ∉ tableNames tbl) (h : Takes name tbl) :
    ∃ as ep bs, tbl = as ++ ep :: bs ∧ ep.name = none ∧
      findSlot name tbl 0 none = (none, some as.length) := by
  have hfree : ∃ ep ∈ tbl, ep.name = none := h.resolve_left hmem
  obtain ⟨ep, hfind⟩ : ∃ ep, tbl.find? (fun ep => ep.name = none) = some ep := by
    rw [← Option.isSome_iff_exists, List.find?_isSome]
    simpa using hfree
  obtain ⟨hname, as, bs, rfl, has⟩ := List.find?_eq_some_iff_append.mp hfind
  have hname : ep.name = none := by simpa using hname
  have hnone : ∀ a ∈ as, a.name ≠ none := fun a ha => by simpa using has a ha
  have hslot : findSlot name (as ++ ep :: bs) 0 none = (none, some (0 + as.length)) :=
    findSlot_of_free hname hnone hmem
  rw [Nat.zero_add] at hslot
  exact ⟨as, ep, bs, rfl, hname, hslot⟩

/-- The variable gets the value in its own slot or in the first free one. -/
theorem setMemEnv_of_takes (h : Takes name tbl) :
    ∃ as ep bs, tbl = as ++ ep :: bs ∧ name ∉ tableNames as ∧
      (ep.name = some name ∨ ep.name = none ∧ name ∉ tableNames tbl) ∧
      setMemEnv name (some v) true true tbl = (true, as ++ ⟨some name, some v⟩ :: bs) := by
  by_cases hmem : name ∈ tableNames tbl
  · obtain ⟨as, ep, bs, rfl, hname, has, hslot⟩ := findSlot_of_old hmem
    refine ⟨as, ep, bs, rfl, has, Or.inl hname, ?_⟩
    unfold setMemEnv
    split
    · next i bp hfound =>
      rw [hfound] at hslot
      obtain rfl := Option.some.inj hslot
      unfold fillSlot
      simp only [if_true, modify_append]
      rw [hname]
    · next hfound =>
      rw [hfound] at hslot
      cases hslot
    · next hfound =>
      rw [hfound] at hslot
      cases hslot
  · obtain ⟨as, ep, bs, rfl, hname, hslot⟩ := findSlot_of_new hmem h
    have has' : name ∉ tableNames as := by
      intro hc
      apply hmem
      unfold tableNames
      rw [List.filterMap_append]
      exact List.mem_append_left _ hc
    refine ⟨as, ep, bs, rfl, has', Or.inr ⟨hname, hmem⟩, ?_⟩
    unfold setMemEnv fillSlot
    rw [hslot]
    simp only [if_true, modify_append]

theorem setMemEnv_of_not_takes {okName okValue : Bool} (h : ¬Takes name tbl) :
    setMemEnv name w okName okValue tbl = (false, tbl) := by
  have hmem : name ∉ tableNames tbl := fun hc => h (Or.inl hc)
  have hfull : ∀ a ∈ tbl, a.name ≠ none := fun a ha hc => h (Or.inr ⟨a, ha, hc⟩)
  unfold setMemEnv
  rw [findSlot_of_full hfull hmem]

/-- With memory where it is asked for, the other results of `malloc` do not matter. -/
theorem setMemEnv_of_memory {okName okValue : Bool}
    (hvalue : Takes name tbl → okValue = true)
    (hname : Takes name tbl → name ∈ tableNames tbl ∨ okName = true) :
    setMemEnv name (some v) okName okValue tbl = setMemEnv name (some v) true true tbl := by
  by_cases ht : Takes name tbl
  · rw [hvalue ht]
    rcases hname ht with hmem | rfl
    · obtain ⟨as, ep, bs, -, -, -, hslot⟩ := findSlot_of_old hmem
      unfold setMemEnv
      split
      · rfl
      · next hfound =>
        rw [hfound] at hslot
        cases hslot
      · rfl
    · rfl
  · rw [setMemEnv_of_not_takes ht, setMemEnv_of_not_takes ht]

/-- A new variable for which there is no memory leaves the table as it is to its readers. -/
theorem setMemEnv_of_rejected {okName okValue : Bool} (hmem : name ∉ tableNames tbl)
    (hok : Takes name tbl → okName = false ∨ okValue = false) :
    (setMemEnv name (some v) okName okValue tbl).2.length = tbl.length ∧
      tableNames (setMemEnv name (some v) okName okValue tbl).2 = tableNames tbl ∧
      ∀ n, tableValue n (setMemEnv name (some v) okName okValue tbl).2 = tableValue n tbl := by
  by_cases ht : Takes name tbl
  · obtain ⟨as, ep, bs, rfl, hname, hslot⟩ := findSlot_of_new hmem ht
    unfold setMemEnv
    rw [hslot]
    cases okName with
    | false => exact ⟨rfl, rfl, fun _ => rfl⟩
    | true =>
        obtain rfl : okValue = false := (hok ht).resolve_left nofun
        simp only [fillSlot, if_true, Bool.false_eq_true, if_false, modify_append]
        refine ⟨by simp, by simp [tableNames, hname], ?_⟩
        intro n
        rw [tableValue_append, tableValue_append, tableValue_cons, tableValue_cons, hname]
        rfl
  · rw [setMemEnv_of_not_takes ht]
    exact ⟨rfl, rfl, fun _ => rfl⟩

/-- A variable that the table takes has the new value, the others have theirs. -/
theorem tableValue_setMemEnv (h : Takes name tbl) :
    tableValue n (setMemEnv name (some v) true true tbl).2 =
      if n = name then some v else tableValue n tbl := by
  obtain ⟨as, ep, bs, rfl, has, hep, hset⟩ := setMemEnv_of_takes (v := v) h
  rw [hset, tableValue_set has hep]
  rfl

theorem length_setMemEnv (h : Takes name tbl) :
    (setMemEnv name (some v) true true tbl).2.length = tbl.length ∧
      (tableNames (setMemEnv name (some v) true true tbl).2).length =
        (tableNames tbl).length + if name ∈ tableNames tbl then 0 else 1 := by
  obtain ⟨as, ep, bs, rfl, has, hep, hset⟩ := setMemEnv_of_takes (v := v) h
  rw [hset]
  refine ⟨by simp, ?_⟩
  rcases hep with hep | ⟨hep, hmem⟩
  · have hmem : name ∈ tableNames (as ++ ep :: bs) := mem_tableNames.mpr ⟨ep, by simp, hep⟩
    rw [if_pos hmem]
    simp [tableNames, hep]
  · rw [if_neg hmem]
    simp [tableNames, hep]
    omega

/-- A table with fewer variables than slots takes any variable. -/
theorem takes_iff :
    Takes name tbl ↔ name ∈ tableNames tbl ∨ (tableNames tbl).length < tbl.length := by
  have hcount : (∃ ep ∈ tbl, ep.name = none) ↔ (tableNames tbl).length < tbl.length := by
    induction tbl with
    | nil => simp [tableNames]
    | cons ep tbl ih =>
        have hle : (tableNames tbl).length ≤ tbl.length := List.length_filterMap_le ..
        cases hep : ep.name with
        | none =>
            have hcount : tableNames (ep :: tbl) = tableNames tbl := List.filterMap_cons_none hep
            rw [hcount, List.length_cons]
            exact ⟨fun _ => Nat.lt_succ_of_le hle, fun _ => ⟨ep, List.mem_cons_self, hep⟩⟩
        | some s =>
            have hcount : tableNames (ep :: tbl) = s :: tableNames tbl :=
              List.filterMap_cons_some hep
            rw [hcount, List.length_cons, List.length_cons, Nat.add_lt_add_iff_right, ← ih]
            constructor
            · rintro ⟨q, hq, hfree⟩
              rcases List.mem_cons.mp hq with rfl | hq
              · rw [hep] at hfree
                cases hfree
              · exact ⟨q, hq, hfree⟩
            · rintro ⟨q, hq, hfree⟩
              exact ⟨q, List.mem_cons_of_mem ep hq, hfree⟩
  unfold Takes
  rw [hcount]

end Lookup

/-! ## The table as a list of settings -/

/-- The table holds the variables `es`, one in each of as many slots. -/
structure Mirrors (tbl : List EnvPair) (es : List (CString × CString)) : Prop where
  slots : tbl.length = NVAR
  count : (tableNames tbl).length = es.length
  value : ∀ n, tableValue n tbl = es.lookup n

namespace Mirrors

variable {tbl : List EnvPair} {es : List (CString × CString)} {name v : CString}

theorem mem_iff (h : Mirrors tbl es) : name ∈ tableNames tbl ↔ name ∈ keys es := by
  rw [← not_iff_not, ← tableValue_eq_none_iff, h.value, lookup_eq_none_iff]

theorem takes_iff (h : Mirrors tbl es) : Takes name tbl ↔ name ∈ keys es ∨ es.length < NVAR := by
  rw [LuojiOs.takes_iff, h.mem_iff, h.count, h.slots]

theorem empty : Mirrors (List.replicate NVAR ⟨none, none⟩) [] where
  slots := List.length_replicate
  count := by decide
  value n := by
    rw [List.lookup_nil, tableValue_eq_none_iff, mem_tableNames]
    rintro ⟨ep, hep, hname⟩
    rw [List.eq_of_mem_replicate hep] at hname
    cases hname

theorem set (h : Mirrors tbl es) (hes : (keys es).Nodup) (ht : Takes name tbl) :
    Mirrors (setMemEnv name (some v) true true tbl).2 (put es name v) := by
  obtain ⟨hslots, hcount⟩ := length_setMemEnv (v := v) ht
  refine ⟨hslots.trans h.slots, ?_, ?_⟩
  · rw [hcount, h.count]
    by_cases hmem : name ∈ keys es
    · rw [if_pos (h.mem_iff.mpr hmem), length_put_of_mem hes hmem]
      rfl
    · rw [if_neg fun hc => hmem (h.mem_iff.mp hc), length_put_of_not_mem hmem]
  · intro n
    rw [tableValue_setMemEnv ht, lookup_put, h.value]

end Mirrors

end LuojiOs
