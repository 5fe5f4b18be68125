import LuojiOs.Env.Table
import LuojiOs.Support.Runs

/-!
# The table as a finite map

The table maps each name to the value of its last successful `set_mem_env`, with one
exception.  A new value for a variable is allocated after the old one is gone, so if that
fails the variable is lost.

For a name that is not in the table `getenv` runs off its end.  What it returns then is 0 in the
program as built: the register holds the result of the last comparison that failed.
-/

namespace LuojiOs

/-- One call of `set_mem_env`; a name or a value can be `NULL`.  The flags say whether `malloc`
has memory for the two. -/
structure MemCall where
  name : Option CString
  value : Option CString
  okName : Bool
  okValue : Bool

/-- The table, and the successful calls, newest first. -/
structure RamEnv where
  envvar : List EnvPair
  sets : List (CString × Option CString)

namespace RamEnv

/-- What `set_mem_env` returns, and the table then.  A `NULL` name is dereferenced, so there is
no result. -/
def result (s : RamEnv) (c : MemCall) : Option (Bool × List EnvPair) :=
  c.name.map fun name => setMemEnv name c.value c.okName c.okValue s.envvar

def step (s : RamEnv) (c : MemCall) : Option RamEnv := do
  let name ← c.name
  let (r, envvar) ← s.result c
  return ⟨envvar, if r then (name, c.value) :: s.sets else s.sets⟩

/-- The value of the last successful set of `name`. -/
def lastSet (name : CString) (s : RamEnv) : Option CString :=
  (s.sets.find? fun p => p.1 = name).map fun p => p.2.getD []

end RamEnv

/-- No two slots have one name, and `getenv` gives the value of the last successful set, and 0
if there is none. -/
structure RamEnv.Atomic (s : RamEnv) : Prop where
  nodup : (tableNames s.envvar).Nodup
  get : ∀ n (σ : Env), σ.envinited = true → σ.envvar = s.envvar → getenv n σ = s.lastSet n

/-- The table is empty, as `envinit` makes it. -/
structure RamEnv.Cleared (s : RamEnv) : Prop where
  envvar : s.envvar = List.replicate NVAR ⟨none, none⟩
  sets : s.sets = []

/-- There is memory for the new value of an old variable. -/
def MemCall.Keeps (c : MemCall) (s : RamEnv) : Prop :=
  ∀ name ∈ c.name, name ∈ tableNames s.envvar → c.value ≠ none → c.okValue = true

instance (c : MemCall) (s : RamEnv) : Decidable (c.Keeps s) :=
  inferInstanceAs (Decidable (∀ name ∈ c.name, name ∈ tableNames s.envvar → c.value ≠ none →
    c.okValue = true))

section SetMemEnv

variable {name : CString} {value : Option CString} {okName okValue : Bool}
  {tbl : List EnvPair}

/-- A free slot has no value, and no two slots have one name. -/
structure Sound (tbl : List EnvPair) : Prop where
  nodup : (tableNames tbl).Nodup
  free : ∀ ep ∈ tbl, ep.name = none → ep.value = none

/-- A successful call puts the variable into one slot; a failed one that keeps the variables
leaves the table as it was. -/
theorem setMemEnv_cases (okName : Bool) (h : Sound tbl)
    (hkeeps : name ∈ tableNames tbl → value ≠ none → okValue = true) :
    (∃ as ep bs, tbl = as ++ ep :: bs ∧ name ∉ tableNames as ∧
        (ep.name = some name ∨ ep.name = none ∧ name ∉ tableNames tbl) ∧
        setMemEnv name value okName okValue tbl = (true, as ++ ⟨some name, value⟩ :: bs)) ∨
      setMemEnv name value okName okValue tbl = (false, tbl) := by
  by_cases hmem : name ∈ tableNames tbl
  · obtain ⟨as, ep, bs, rfl, hname, has, hslot⟩ := findSlot_of_old hmem
    refine Or.inl ⟨as, ep, bs, rfl, has, Or.inl hname, ?_⟩
    obtain ⟨bp, hfound⟩ : ∃ bp, findSlot name (as ++ ep :: bs) 0 none = (some as.length, bp) :=
      ⟨_, Prod.ext hslot rfl⟩
    unfold setMemEnv fillSlot
    rw [hfound]
    cases value with
    | none =>
        simp only [modify_append]
        rw [hname]
    | some v =>
        simp only [modify_append, hkeeps hmem nofun, if_true]
        rw [hname]
  · by_cases ht : Takes name tbl
    · obtain ⟨as, ep, bs, rfl, hname, hslot⟩ := findSlot_of_new hmem ht
      have hvalue : ep.value = none := h.free ep (by simp) hname
      have hep : ep = ⟨none, none⟩ := by
        obtain ⟨epName, epValue⟩ := ep
        dsimp only at hname hvalue
        rw [hname, hvalue]
      have has : name ∉ tableNames as := by
        intro hc
        apply hmem
        unfold tableNames
        rw [List.filterMap_append]
        exact List.mem_append_left _ hc
      unfold setMemEnv fillSlot
      rw [hslot]
      cases okName with
      | false => exact Or.inr rfl
      | true =>
          cases value with
          | none =>
              refine Or.inl ⟨as, ep, bs, rfl, has, Or.inr ⟨hname, hmem⟩, ?_⟩
              simp only [if_true, modify_append, hvalue]
          | some v =>
              cases okValue with
              | true =>
                  refine Or.inl ⟨as, ep, bs, rfl, has, Or.inr ⟨hname, hmem⟩, ?_⟩
                  simp only [if_true, modify_append]
              | false =>
                  right
                  simp only [if_true, Bool.false_eq_true, if_false, modify_append]
                  rw [← hep]
    · exact Or.inr (setMemEnv_of_not_takes ht)

variable {as bs : List EnvPair} {ep : EnvPair}

/-- The slot of the variable, or a free one for a new variable, gets its value. -/
theorem Sound.set (h : Sound (as ++ ep :: bs))
    (hep : ep.name = some name ∨ ep.name = none ∧ name ∉ tableNames (as ++ ep :: bs)) :
    Sound (as ++ ⟨some name, value⟩ :: bs) where
  nodup := by
    have hnodup := h.nodup
    rw [tableNames_append, tableNames_cons_some rfl]
    rcases hep with hep | ⟨hep, hmem⟩
    · rwa [tableNames_append, tableNames_cons_some hep] at hnodup
    · rw [tableNames_append, tableNames_cons_none hep] at hnodup hmem
      exact List.nodup_middle.mpr (List.nodup_cons.mpr ⟨hmem, hnodup⟩)
  free := by
    intro q hq hname
    rcases List.mem_append.mp hq with hq | hq
    · exact h.free q (by simp [hq]) hname
    · rcases List.mem_cons.mp hq with rfl | hq
      · cases hname
      · exact h.free q (by simp [hq]) hname

end SetMemEnv

/-! ## Runs -/

namespace RamEnv

variable {s s' : RamEnv} {c : MemCall}

/-- The table is sound and holds what was set last. -/
structure Holds (s : RamEnv) : Prop where
  sound : Sound s.envvar
  value : ∀ n, tableValue n s.envvar = s.lastSet n

theorem holds_cleared (h : s.Cleared) : s.Holds := by
  have hnames : tableNames (List.replicate NVAR ⟨none, none⟩) = [] := by decide
  refine ⟨⟨?_, ?_⟩, ?_⟩
  · rw [h.envvar, hnames]
    exact List.nodup_nil
  · intro ep hep _
    rw [h.envvar] at hep
    rw [List.eq_of_mem_replicate hep]
  · intro n
    unfold lastSet
    rw [h.envvar, h.sets, tableValue_eq_none_iff.mpr (by rw [hnames]; exact List.not_mem_nil)]
    rfl

/-- A call that returns 0 leaves the table as it was. -/
theorem Holds.fail (h : s.Holds) (hc : c.Keeps s) {envvar : List EnvPair}
    (hresult : s.result c = some (false, envvar)) : envvar = s.envvar := by
  obtain ⟨name, hname, hset'⟩ := Option.map_eq_some_iff.mp hresult
  rcases setMemEnv_cases c.okName h.sound (hc name hname) with
    ⟨as, ep, bs, -, -, -, hset⟩ | hset
  · rw [hset] at hset'
    cases hset'
  · exact congrArg Prod.snd (hset'.symm.trans hset)

theorem Holds.step (h : s.Holds) (hc : c.Keeps s) (hstep : s.step c = some s') : s'.Holds := by
  obtain ⟨name, hname, hstep⟩ := Option.bind_eq_some_iff.mp hstep
  obtain ⟨⟨r, envvar⟩, hresult, hstep⟩ := Option.bind_eq_some_iff.mp hstep
  obtain rfl := Option.some.inj hstep
  cases r with
  | false =>
      rw [h.fail hc hresult]
      exact ⟨h.sound, h.value⟩
  | true =>
      unfold result at hresult
      rw [hname] at hresult
      rcases setMemEnv_cases c.okName h.sound (hc name hname) with
        ⟨as, ep, bs, htbl, has, hep, hset⟩ | hset
      · rw [Option.map_some, hset] at hresult
        obtain rfl := congrArg Prod.snd (Option.some.inj hresult)
        rw [htbl] at hep
        refine ⟨?_, ?_⟩
        · have hsound := h.sound
          rw [htbl] at hsound
          exact hsound.set hep
        · intro n
          have hvalue := h.value n
          rw [htbl] at hvalue
          dsimp only
          rw [tableValue_set has hep, hvalue]
          unfold lastSet
          simp only [if_true, List.find?_cons]
          by_cases hn : n = name
          · simp [hn]
          · simp [hn, Ne.symm hn]
      · rw [Option.map_some, hset] at hresult
        cases hresult

theorem Holds.atomic (h : s.Holds) : s.Atomic where
  nodup := h.sound.nodup
  get := by
    intro n σ hinit hσ
    rw [getenv_of_inited hinit, hσ, h.value]

end RamEnv

def clearedEnv : RamEnv := ⟨List.replicate NVAR ⟨none, none⟩, []⟩

/-- The variable `al` is set, and set again. -/
def setAl (okValue : Bool) : List MemCall :=
  [⟨some (cstr "al"), some (cstr "mtd0"), true, true⟩,
    ⟨some (cstr "al"), some (cstr "tftp"), true, okValue⟩]

end LuojiOs
