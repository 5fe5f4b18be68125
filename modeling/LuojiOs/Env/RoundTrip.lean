import LuojiOs.Env.Reading
import Mathlib.Algebra.Order.BigOperators.Group.List
import Mathlib.Algebra.Order.Group.Nat
import Mathlib.Data.List.Dedup
import Mathlib.Data.List.Infix
import Mathlib.Data.List.Perm.Subperm

/-!
# The round trip through the flash

After any sequence of calls of `do_setenv` whose settings always fit into the sector,
`map_rom_env` finds for each variable the value that it was given last, and no others.
-/

namespace LuojiOs

open Assoc Bytes

/-- The calls `do_setenv(name, value)` one after the other. -/
def setenvs : List (Setting × Allocs) → Env → Option Env
  | [], σ => some σ
  | ((name, value), a) :: calls, σ => (doSetenv name value a σ).bind (setenvs calls)

/-- The bytes that the strings of the settings take up. -/
def liveBytes (es : List Setting) : ℕ := (es.map fun p => (entry p).length + 1).sum

theorem length_text {es : List Setting} : (text es).length = liveBytes es := by
  induction es with
  | nil => rfl
  | cons p es ih =>
      rw [length_text_cons, ih]
      rfl

theorem liveBytes_without_le (es : List Setting) (name : CString) :
    liveBytes (without es name) ≤ liveBytes es :=
  (List.filter_sublist.map _).sum_le_sum fun _ _ => Nat.zero_le _

/-- No more bytes are taken up than were set in all. -/
theorem liveBytes_puts_le (es cs : List Setting) :
    liveBytes (puts es cs) ≤ liveBytes es + liveBytes cs := by
  induction cs generalizing es with
  | nil => exact Nat.le_refl _
  | cons p cs ih =>
      have hput : liveBytes (put es p.1 p.2) =
          liveBytes (without es p.1) + ((entry p).length + 1) := by
        unfold put liveBytes
        rw [List.map_append, List.sum_append]
        rfl
      have hcons : liveBytes (p :: cs) = (entry p).length + 1 + liveBytes cs := rfl
      have hwithout := liveBytes_without_le es p.1
      have htail := ih (put es p.1 p.2)
      unfold puts
      omega

/-- Settings that can be stored one after the other. -/
structure Fitting (cs : List Setting) : Prop where
  storable : ∀ p ∈ cs, Storable p
  short : ∀ p ∈ cs, p.1.length + p.2.length + 2 ≤ 255
  mac : ∀ p ∈ cs, p.1 = ENV_MAC_NAME → checkMacFormat p.2 = true
  few : (keys cs).dedup.length ≤ NVAR
  /-- There is room for the settings in force after each call. -/
  room : ∀ ds ∈ cs.inits, 2 + liveBytes (puts [] ds) + 1 ≤ NVRAM_SECSIZE

section Runs

variable {σ : Env} {es : List Setting} {cs : List (Setting × Allocs)}

/-- Each call puts its setting into the sector. -/
theorem Stores.setenvs (h : Stores σ es) (hs : ∀ c ∈ cs, Storable c.1)
    (hshort : ∀ c ∈ cs, c.1.1.length + c.1.2.length + 2 ≤ 255)
    (hmac : ∀ c ∈ cs, c.1.1 = ENV_MAC_NAME → checkMacFormat c.1.2 = true)
    (ha : ∀ c ∈ cs, c.2.Succeed)
    (hroom : ∀ ds, ds <+: cs.map Prod.fst → 2 + (text (puts es ds)).length + 1 ≤ NVRAM_SECSIZE) :
    ∃ σ', LuojiOs.setenvs cs σ = some σ' ∧ Stores σ' (puts es (cs.map Prod.fst)) := by
  induction cs generalizing σ es with
  | nil => exact ⟨σ, rfl, h⟩
  | cons c cs ih =>
      obtain ⟨⟨name, v⟩, a⟩ := c
      have hfirst : 2 + (text (put es name v)).length + 1 ≤ NVRAM_SECSIZE := by
        apply hroom [(name, v)]
        exact ⟨cs.map Prod.fst, rfl⟩
      have hsucceed := ha _ List.mem_cons_self
      obtain ⟨σ₀, hrun, hstores, -⟩ := h.setenv (hs _ List.mem_cons_self)
        (hshort _ List.mem_cons_self) (hmac _ List.mem_cons_self) hsucceed.block
        (Or.inl hsucceed.scratch) hfirst
      obtain ⟨σ', hrest, hend⟩ := ih hstores (fun c hc => hs c (List.mem_cons_of_mem _ hc))
        (fun c hc => hshort c (List.mem_cons_of_mem _ hc))
        (fun c hc => hmac c (List.mem_cons_of_mem _ hc))
        (fun c hc => ha c (List.mem_cons_of_mem _ hc)) (by
          intro ds hds
          apply hroom ((name, v) :: ds)
          exact List.cons_prefix_cons.mpr ⟨rfl, hds⟩)
      refine ⟨σ', ?_, hend⟩
      unfold LuojiOs.setenvs
      rw [hrun]
      exact hrest

end Runs

/-- A sector that was reset holds no settings. -/
theorem stores_reset {σ : Env} {b : Bytes} (h : σ.nvramInvalid ≠ 0) :
    Stores (resetNorEnvSpace (some b) σ) [] := by
  unfold resetNorEnvSpace
  rw [if_pos h]
  exact ⟨rfl, nvramPut_image (image_reset b), nofun⟩

/-- There are as many variables in force as different names were set. -/
theorem length_puts_le (cs : List Setting) :
    (puts [] cs).length ≤ (keys cs).dedup.length := by
  have hnodup : (keys (puts [] cs)).Nodup := nodup_puts List.nodup_nil
  have hsub : keys (puts [] cs) ⊆ (keys cs).dedup := by
    intro x hx
    rw [List.mem_dedup]
    exact (mem_keys_puts.mp hx).resolve_left List.not_mem_nil
  have hlen := (List.subperm_of_subset hnodup hsub).length_le
  unfold keys at hlen ⊢
  rwa [List.length_map] at hlen

/-- After the calls, `map_rom_env` gives each variable the value that was set last, and no
other variable has a slot. -/
theorem mapRomEnv_setenvs {σ : Env} {oks : ℕ → Bool × Bool} {cs : List (Setting × Allocs)}
    (b buffer : Bytes) (reset : Option Bytes) (hσ : σ.nvramInvalid ≠ 0)
    (hcs : Fitting (cs.map Prod.fst)) (ha : ∀ c ∈ cs, c.2.Succeed)
    (hoks : ∀ k, oks k = (true, true)) :
    ∃ σ₁, setenvs cs (resetNorEnvSpace (some b) σ) = some σ₁ ∧
      ∃ σ₂, mapRomEnv (some buffer) reset oks
          { σ₁ with envvar := List.replicate NVAR ⟨none, none⟩ } = some σ₂ ∧
        (∀ n, getenv n { σ₂ with envinited := true } = (cs.map Prod.fst).reverse.lookup n) ∧
        ∀ n ∈ tableNames σ₂.envvar, n ∈ keys (cs.map Prod.fst) := by
  have hmem : ∀ {c}, c ∈ cs → c.1 ∈ cs.map Prod.fst := fun hc => List.mem_map_of_mem hc
  obtain ⟨σ₁, hrun, hstores⟩ := (stores_reset (b := b) hσ).setenvs
    (fun c hc => hcs.storable c.1 (hmem hc)) (fun c hc => hcs.short c.1 (hmem hc))
    (fun c hc => hcs.mac c.1 (hmem hc)) ha (by
      intro ds hds
      rw [length_text]
      exact hcs.room ds ((List.mem_inits ds _).mpr hds))
  obtain ⟨tbl, hmap, hmirrors⟩ := hstores.of_envvar.map buffer reset hoks rfl
  rw [List.take_of_length_le ((length_puts_le _).trans hcs.few)] at hmirrors
  refine ⟨σ₁, hrun, _, hmap, ?_, ?_⟩
  · intro n
    rw [getenv_of_inited rfl]
    dsimp only
    rw [hmirrors.value, lookup_puts, List.lookup_nil, Option.or_none]
  · intro n hn
    have hkeys := hmirrors.mem_iff.mp hn
    exact (mem_keys_puts.mp hkeys).resolve_left List.not_mem_nil

/-! ## An example -/

theorem storable_iff {p : Setting} :
    (p.1 ≠ [] ∧ (p.1.all fun c => c ≠ 0 ∧ c ≠ equals) = true ∧
      (p.2.all fun c => c ≠ 0) = true) ↔ Storable p := by
  simp only [List.all_eq_true, decide_eq_true_eq]
  constructor
  · rintro ⟨hne, hname, hvalue⟩
    exact ⟨hne, hname, hvalue⟩
  · intro h
    exact ⟨h.name_ne, h.name_clean, h.value_clean⟩

instance (p : Setting) : Decidable (Storable p) := decidable_of_iff _ storable_iff

/-- Calls of `malloc` that give out memory full of zeros. -/
def freshAllocs : Allocs := ⟨true, true, some fun _ => 0, some fun _ => 0, some fun _ => 0⟩

/-- Two names of which one is the beginning of the other, the first one set twice. -/
def addresses : List Setting :=
  [(cstr "tftp", cstr "192.168.1.2"), (cstr "tftpIp", cstr "192.168.1.3"),
    (cstr "tftp", cstr "a=b")]

/-- Before the first use, with a sector full of ones. -/
def blankEnv : Env := ⟨fun _ => 0xff, 1, List.replicate NVAR ⟨none, none⟩, false⟩

theorem mapRomEnv_setenvs_addresses :
    ∃ σ₁, setenvs (addresses.map fun p => (p, freshAllocs))
        (resetNorEnvSpace (some fun _ => 0) blankEnv) = some σ₁ ∧
      ∃ σ₂, mapRomEnv (some fun _ => 0) none (fun _ => (true, true))
          { σ₁ with envvar := List.replicate NVAR ⟨none, none⟩ } = some σ₂ ∧
        getenv (cstr "tftp") { σ₂ with envinited := true } = some (cstr "a=b") := by
  have hcs : (addresses.map fun p => (p, freshAllocs)).map Prod.fst = addresses := rfl
  have hfitting : Fitting addresses :=
    ⟨by decide, by decide, by decide, by decide, by decide⟩
  have hsucceed : ∀ c ∈ addresses.map fun p => (p, freshAllocs), c.2.Succeed := by decide
  obtain ⟨σ₁, hrun, σ₂, hmap, hvalue, -⟩ := mapRomEnv_setenvs (σ := blankEnv) (fun _ => 0)
    (fun _ => 0) none (by decide) (hcs ▸ hfitting) hsucceed fun _ => rfl
  refine ⟨σ₁, hrun, σ₂, hmap, ?_⟩
  rw [hvalue, hcs]
  decide

end LuojiOs
