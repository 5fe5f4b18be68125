import LuojiOs.Env.Image

/-!
# Setting and unsetting a variable in the sector

`unset_rom_env` cuts the string of a variable out of the image, and `set_rom_env` puts a new
string behind those that are left.
-/

namespace LuojiOs

open Assoc Bytes

variable {σ : Env} {es : List Setting} {name v : CString} {b : Bytes}
  {block scratch reset : Option Bytes}

/-- The flash of `σ` holds the settings `es`, none of them longer than `set_rom_env` allows,
and its checksum was found right. -/
structure Stores (σ : Env) (es : List Setting) : Prop where
  usable : σ.nvramInvalid = 0
  image : Image σ.flash es
  short : ∀ p ∈ es, (entry p).length < 255

theorem mem_of_mem_without {p : Setting} (h : p ∈ without es name) : p ∈ es :=
  (List.mem_filter.mp h).1

theorem Image.congr_nvramGet (h : Image σ.flash es) : Image (nvramGet b σ) es :=
  h.congr fun _ hx => if_pos hx

theorem nvramPut_image (h : Image b es) : Image (nvramPut b σ).flash es :=
  h.congr fun _ hx => if_pos hx

/-- The bytes of the strings and the empty string behind them lie in the sector. -/
theorem Image.text_lt (h : Image b es) : 2 + (text es).length < NVRAM_SECSIZE := h.fits

theorem Image.length_lt (h : Image b es) : es.length < NVRAM_SECSIZE + 1 := by
  have := h.fits
  have hle := length_le_text es
  omega

/-! ## `unset_rom_env` -/

theorem unsetRomEnv_of_not_mem (h : Stores σ es) (hname : name ∉ keys es) :
    unsetRomEnv name block σ = some (0, σ) := by
  unfold unsetRomEnv
  rw [if_neg (not_not.mpr h.usable)]
  cases block with
  | none => rfl
  | some b =>
      have him : Image (nvramGet b σ) es := h.image.congr_nvramGet
      have hfind : findString name (nvramGet b σ) (NVRAM_SECSIZE + 1) 2 = some none :=
        findString_of_not_mem him.reads him.storable him.text_lt hname him.length_lt
      dsimp only
      rw [hfind]
      rfl

theorem unsetRomEnv_of_mem (h : Stores σ es) (hname : name ∈ keys es) :
    ∃ fl, unsetRomEnv name (some b) σ = some (1, { σ with flash := fl }) ∧
      Image fl (without es name) := by
  have him : Image (nvramGet b σ) es := h.image.congr_nvramGet
  obtain ⟨as, v, bs, rfl, has, hwithout⟩ := exists_split him.nodup hname
  have hp : Storable (name, v) := him.storable _ (by simp)
  have hlen := length_entry (p := (name, v))
  have hfits := him.fits
  rw [text_append, List.length_append, length_text_cons] at hfits
  have hfind : findString name (nvramGet b σ) (NVRAM_SECSIZE + 1) 2 =
      some (some (2 + (text as).length, 2 + (text as).length + name.length)) := by
    apply findString_of_mem him.reads him.storable him.text_lt has
    have := him.length_lt
    rw [List.length_append, List.length_cons] at this
    omega
  have hstring : (nvramGet b σ).Reads (2 + (text as).length) (entry (name, v) ++ [0]) := by
    have hreads := him.reads
    rw [text_append, List.append_assoc, reads_append] at hreads
    exact (reads_text_cons hreads.2).1
  have hskip : (nvramGet b σ).skipString maxWalk (2 + (text as).length + name.length) =
      some (2 + (text as).length + (entry (name, v)).length + 1) := by
    apply skipString_of_mid hstring hp.entry_clean
    · dsimp only at hlen
      omega
    · unfold NVRAM_SECSIZE at hfits
      unfold maxWalk
      omega
  have hcut := him.cut
  refine ⟨_, ?_, hwithout ▸ nvramPut_image (σ := σ) hcut⟩
  unfold unsetRomEnv
  rw [if_neg (not_not.mpr h.usable)]
  dsimp only
  rw [hfind]
  simp only [Option.bind_eq_bind, Option.bind_some]
  rw [hskip]
  rfl

/-- The other settings stay, and that of `name` goes if there is memory for the call. -/
theorem Stores.unset (h : Stores σ es) (name : CString) (block : Option Bytes) :
    ∃ st fl, unsetRomEnv name block σ = some (st, { σ with flash := fl }) ∧
      Stores { σ with flash := fl } (if block.isSome then without es name else es) := by
  by_cases hname : name ∈ keys es
  · cases block with
    | none =>
        refine ⟨0, σ.flash, ?_, h⟩
        unfold unsetRomEnv
        rw [if_neg (not_not.mpr h.usable)]
    | some b =>
        obtain ⟨fl, hrun, him⟩ := unsetRomEnv_of_mem (b := b) h hname
        exact ⟨1, fl, hrun, h.usable, him, fun p hp => h.short p (mem_of_mem_without hp)⟩
  · refine ⟨0, σ.flash, unsetRomEnv_of_not_mem h hname, ?_⟩
    rwa [without_of_not_mem hname, ite_self]

/-! ## `set_rom_env` -/

theorem length_text_put : (text (put es name v)).length =
    (text (without es name)).length + (name.length + v.length + 2) := by
  unfold put
  rw [text_append, List.length_append, length_text_cons, length_entry, text_nil, List.length_nil]

/-- A name that is empty or a string that is too long is turned away. -/
theorem setRomEnv_rejected (h : name = [] ∨ 255 < name.length + v.length + 2) :
    setRomEnv name (some v) reset block scratch σ = some ⟨0, σ, none⟩ := by
  unfold setRomEnv
  by_cases hname : name.length = 0
  · rw [if_pos hname]
  · rw [if_neg hname]
    apply if_pos
    rcases h with rfl | h
    · exact absurd rfl hname
    · exact h

section Set

variable (hname : name ≠ []) (hlen : name.length + v.length + 2 ≤ 255)

include hname hlen

theorem setRomEnv_noMemory (reset scratch : Option Bytes) (h : Stores σ es) :
    setRomEnv name (some v) reset none scratch σ = some ⟨-1, σ, none⟩ := by
  unfold setRomEnv
  rw [if_neg (mt List.eq_nil_of_length_eq_zero hname)]
  dsimp only [Option.map_some, Option.getD_some]
  rw [if_neg (not_lt.mpr hlen), if_neg (not_not.mpr h.usable)]

/-- With memory the new string is written behind the strings `fs` that `unset_rom_env`
leaves, whether there is room for it or not. -/
theorem setRomEnv_writes {fl : Bytes} {st : ℤ} {fs : List Setting} (reset : Option Bytes)
    (b : Bytes) (h : Stores σ es)
    (hunset : unsetRomEnv name scratch σ = some (st, { σ with flash := fl }))
    (hreads : fl.Reads 2 (text fs ++ [0])) (hfs : ∀ p ∈ fs, Storable p)
    (hfits : 2 + (text fs).length < NVRAM_SECSIZE) :
    setRomEnv name (some v) reset (some b) scratch σ =
      let m := (cksum NVRAM_SECSIZE true ((nvramGet (b.fill 0 0 NVRAM_SECSIZE)
        { σ with flash := fl }).write (2 + (text fs).length) (entryText name (some v)))).2
      some ⟨1, nvramPut m { σ with flash := fl }, some m⟩ := by
  have hget : (nvramGet (b.fill 0 0 NVRAM_SECSIZE) { σ with flash := fl }).Reads 2
      (text fs ++ [0]) := by
    apply hreads.congr
    intro i hi
    rw [List.length_append, List.length_singleton] at hi
    exact if_pos (by omega)
  unfold setRomEnv
  rw [if_neg (mt List.eq_nil_of_length_eq_zero hname)]
  dsimp only [Option.map_some, Option.getD_some]
  rw [if_neg (not_lt.mpr hlen), if_neg (not_not.mpr h.usable), hunset]
  simp only [Option.bind_eq_bind, Option.bind_some]
  rw [endOfStrings_of_reads hget hfs hfits]
  simp only [Option.bind_some]
  -- the test for room compares the whole sector with the string
  rw [if_neg]
  · rfl
  · unfold NVRAM_SECSIZE
    omega

/-- A setting for which there is room is made, and nothing is written behind the buffer. -/
theorem Stores.set (reset : Option Bytes) (b : Bytes) (h : Stores σ es) (hp : Storable (name, v))
    (hscratch : scratch.isSome ∨ name ∉ keys es)
    (hroom : 2 + (text (put es name v)).length + 1 ≤ NVRAM_SECSIZE) :
    ∃ fl m, setRomEnv name (some v) reset (some b) scratch σ =
        some ⟨1, { σ with flash := fl }, some m⟩ ∧
      Stores { σ with flash := fl } (put es name v) ∧ ∀ x ≥ NVRAM_SECSIZE, m x = b x := by
  obtain ⟨st, fl, hunset, hstores⟩ := h.unset name scratch
  have hes : (if scratch.isSome then without es name else es) = without es name := by
    split
    · rfl
    · next hnone => exact (without_of_not_mem (hscratch.resolve_left hnone)).symm
  rw [hes] at hstores
  have him := hstores.image
  have hwrites := setRomEnv_writes hname hlen reset b h hunset him.reads
    him.storable him.text_lt
  refine ⟨_, _, hwrites, ⟨h.usable, ?_, ?_⟩, ?_⟩
  · have hget : Image (nvramGet (b.fill 0 0 NVRAM_SECSIZE) { σ with flash := fl })
        (without es name) := him.congr_nvramGet (σ := { σ with flash := fl })
    apply nvramPut_image
    apply hget.append hp ?_ hroom
    exact fun hmem => (mem_keys_without.mp hmem).2 rfl
  · intro q hq
    rcases List.mem_append.mp hq with hq | hq
    · exact h.short q (mem_of_mem_without hq)
    · rw [List.mem_singleton.mp hq, length_entry]
      dsimp only
      omega
  · intro x hx
    have hx2 : 2 ≤ x := by
      unfold NVRAM_SECSIZE at hx
      omega
    have hnew : (entryText name (some v)).length = name.length + v.length + 3 := by
      simp [entryText]
      omega
    rw [length_text_put] at hroom
    rw [cksum_of_ge hx2, write_of_outside (Or.inr (by omega))]
    unfold nvramGet
    rw [if_neg (by omega), fill_of_outside (Or.inr (by omega))]

end Set

/-! ## `do_setenv` -/

/-- The calls of `malloc` in `do_setenv` succeed. -/
structure Allocs.Succeed (a : Allocs) : Prop where
  name : a.name = true
  value : a.value = true
  block : a.block.isSome
  scratch : a.scratch.isSome

instance (a : Allocs) : Decidable a.Succeed :=
  decidable_of_iff (a.name = true ∧ a.value = true ∧ a.block.isSome ∧ a.scratch.isSome)
    ⟨fun ⟨h₁, h₂, h₃, h₄⟩ => ⟨h₁, h₂, h₃, h₄⟩, fun ⟨h₁, h₂, h₃, h₄⟩ => ⟨h₁, h₂, h₃, h₄⟩⟩

theorem doSetenv_eq {a : Allocs} (hmac : name = ENV_MAC_NAME → checkMacFormat v = true) :
    doSetenv name v a σ = (setRomEnv name (some v) a.reset a.block a.scratch
      { σ with envvar := (setMemEnv name (some v) a.name a.value σ.envvar).2 }).map
        RomResult.env := by
  unfold doSetenv
  rw [if_neg fun h => h.2 (hmac (striequ_iff.mp h.1))]

theorem Stores.of_envvar {tbl : List EnvPair} (h : Stores σ es) :
    Stores { σ with envvar := tbl } es :=
  ⟨h.usable, h.image, h.short⟩

/-- The setting is made in the sector, whatever the table does. -/
theorem Stores.setenv {a : Allocs} (h : Stores σ es) (hp : Storable (name, v))
    (hlen : name.length + v.length + 2 ≤ 255)
    (hmac : name = ENV_MAC_NAME → checkMacFormat v = true) (hblock : a.block.isSome)
    (hscratch : a.scratch.isSome ∨ name ∉ keys es)
    (hroom : 2 + (text (put es name v)).length + 1 ≤ NVRAM_SECSIZE) :
    ∃ σ', doSetenv name v a σ = some σ' ∧ Stores σ' (put es name v) ∧
      σ'.envvar = (setMemEnv name (some v) a.name a.value σ.envvar).2 ∧
      σ'.envinited = σ.envinited := by
  obtain ⟨b, hb⟩ := Option.isSome_iff_exists.mp hblock
  obtain ⟨fl, m, hset, hstores, -⟩ :=
    h.of_envvar.set hp.name_ne hlen a.reset b hp hscratch hroom
  refine ⟨_, ?_, hstores, rfl, rfl⟩
  rw [doSetenv_eq hmac, hb, hset]
  rfl

end LuojiOs
