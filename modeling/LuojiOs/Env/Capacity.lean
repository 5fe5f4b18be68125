import LuojiOs.Env.RoundTrip
import LuojiOs.Support.Runs

/-!
# The capacity of the sector

The test for room in `set_rom_env` never fails.  As long as the callers leave room
themselves, and `unset_rom_env` has memory where it is needed, every call keeps the sector an
image and writes nothing behind the buffer.
-/

namespace LuojiOs

open Assoc Bytes

/-! ## Calls -/

inductive RomCall where
  | set (name value : CString) (reset block scratch : Option Bytes)
  | unset (name : CString) (block : Option Bytes)

/-- The strings in the sector. -/
def romStrings (σ : Env) : List CString := σ.flash.stringsAt NVRAM_SECSIZE 2

/-- The name at the beginning of a string. -/
def nameOf (s : CString) : CString := s.takeWhile (· ≠ equals)

def otherStrings (name : CString) (σ : Env) : List CString :=
  (romStrings σ).filter fun s => nameOf s != name

namespace RomCall

def name : RomCall → CString
  | set name .. => name
  | unset name _ => name

/-- The memory from the buffer of `set_rom_env` on. -/
def memory : RomCall → Option Bytes
  | set _ _ _ block _ => block
  | unset .. => none

def run : RomCall → Env → Option RomResult
  | set name value reset block scratch, σ => setRomEnv name (some value) reset block scratch σ
  | unset name block, σ => (unsetRomEnv name block σ).map fun r => ⟨r.1, r.2, none⟩

def step (σ : Env) (c : RomCall) : Option Env := (c.run σ).map RomResult.env

/-- The call is given strings, and there is no `=` in the name. -/
def Proper : RomCall → Prop
  | set name value .. => (∀ c ∈ name, c ≠ 0 ∧ c ≠ equals) ∧ ∀ c ∈ value, c ≠ 0
  | unset name _ => ∀ c ∈ name, c ≠ 0 ∧ c ≠ equals

/-- The string of a call fits behind the strings of the other variables. -/
def Fits (σ : Env) : RomCall → Prop
  | set name value .. => name.length + value.length + 2 ≤ 255 ∧
      2 + (layout (otherStrings name σ)).length + (name.length + value.length + 2) + 1 ≤
        NVRAM_SECSIZE
  | unset .. => True

/-- What the callers of `set_rom_env` have to see to: a string that is short enough to be
accepted has room, and the string that it replaces can be removed. -/
def Room (σ : Env) : RomCall → Prop
  | set name value reset block scratch =>
      name ≠ [] → name.length + value.length + 2 ≤ 255 →
        Fits σ (set name value reset block scratch) ∧
          (block.isSome → scratch.isSome ∨ name ∉ (romStrings σ).map nameOf)
  | unset .. => True

/-- What is expected of a call with the result `r`. -/
structure Sound (c : RomCall) (σ : Env) (r : RomResult) : Prop where
  image : ∃ es, Image r.env.flash es
  /-- Nothing is written behind the buffer. -/
  inside : ∀ m b, r.buffer = some m → c.memory = some b → ∀ x ≥ NVRAM_SECSIZE, m x = b x
  others : otherStrings c.name r.env = otherStrings c.name σ
  rejected : ¬c.Fits σ → r.status = 0 ∧ ∀ x < NVRAM_SECSIZE, r.env.flash x = σ.flash x

end RomCall

/-- The sector that `resetNorEnvSpace` writes. -/
def FreshSector (σ : Env) : Prop :=
  ∃ σ₀ b, σ₀.nvramInvalid ≠ 0 ∧ σ = resetNorEnvSpace (some b) σ₀

theorem FreshSector.stores {σ : Env} (h : FreshSector σ) : Stores σ [] := by
  obtain ⟨σ₀, b, hσ₀, rfl⟩ := h
  exact stores_reset hσ₀

/-! ## The strings of an image -/

section Strings

variable {σ : Env} {es : List Setting} {p : Setting} {name : CString} {m : Bytes}

theorem Storable.nameOf_entry (h : Storable p) : nameOf (entry p) = p.1 := by
  unfold nameOf entry
  rw [List.takeWhile_append_of_pos]
  · simp
  · intro c hc
    exact decide_eq_true (h.name_clean c hc).2

/-- The strings that stand in a memory from byte 2 on. -/
theorem romStrings_of_reads (h : σ.flash.Reads 2 (text es ++ [0]))
    (hes : ∀ p ∈ es, Storable p) (hfits : 2 + (text es).length < NVRAM_SECSIZE) :
    romStrings σ = es.map entry := by
  apply stringsAt_of_reads h
  · intro s hs
    obtain ⟨p, hp, rfl⟩ := List.mem_map.mp hs
    refine ⟨?_, (hes p hp).entry_clean⟩
    unfold entry
    simp
  · exact Nat.le_of_lt (Nat.lt_of_le_of_lt (Nat.le_add_left _ 2) hfits)

theorem Image.romStrings (h : Image σ.flash es) : romStrings σ = es.map entry :=
  romStrings_of_reads h.reads h.storable h.text_lt

theorem map_nameOf (hes : ∀ p ∈ es, Storable p) : (es.map entry).map nameOf = keys es := by
  rw [List.map_map]
  apply List.map_congr_left
  intro p hp
  exact (hes p hp).nameOf_entry

theorem Image.otherStrings (h : Image σ.flash es) :
    otherStrings name σ = (without es name).map entry := by
  unfold LuojiOs.otherStrings without
  rw [h.romStrings, List.filter_map]
  congr 1
  apply List.filter_congr
  intro p hp
  dsimp only [Function.comp]
  rw [(h.storable p hp).nameOf_entry]

end Strings

/-! ## Calls on an image -/

section Calls

variable {σ : Env} {es : List Setting} {c : RomCall}

/-- A call for which there is room makes its setting or leaves the sector alone. -/
theorem Stores.call (h : Stores σ es) (hc : c.Proper) (hroom : c.Room σ) :
    ∃ r es', c.run σ = some r ∧ Stores r.env es' ∧ c.Sound σ r := by
  cases c with
  | unset name block =>
      obtain ⟨st, fl, hrun, hstores⟩ := h.unset name block
      refine ⟨_, _, congrArg (Option.map _) hrun, hstores, ⟨_, hstores.image⟩, nofun, ?_, ?_⟩
      · rw [hstores.image.otherStrings, h.image.otherStrings]
        split
        · exact congrArg (List.map entry) without_without
        · rfl
      · exact fun hfits => absurd trivial hfits
  | set name value reset block scratch =>
      have hrejected : name = [] ∨ 255 < name.length + value.length + 2 →
          ∃ r es', (RomCall.set name value reset block scratch).run σ = some r ∧
            Stores r.env es' ∧ (RomCall.set name value reset block scratch).Sound σ r := by
        intro hbad
        refine ⟨_, es, setRomEnv_rejected hbad, h, ⟨es, h.image⟩, nofun, rfl, ?_⟩
        exact fun _ => ⟨rfl, fun _ _ => rfl⟩
      by_cases hname : name = []
      · exact hrejected (Or.inl hname)
      by_cases hlen : name.length + value.length + 2 ≤ 255
      · obtain ⟨hfits, hscratch⟩ := hroom hname hlen
        have hp : Storable (name, value) := ⟨hname, hc.1, hc.2⟩
        cases block with
        | none =>
            refine ⟨_, es, setRomEnv_noMemory hname hlen reset scratch h, h, ⟨es, h.image⟩, nofun,
              rfl, ?_⟩
            exact fun hnot => absurd hfits hnot
        | some b =>
            have hold : scratch.isSome ∨ name ∉ keys es := by
              rw [← map_nameOf h.image.storable, ← h.image.romStrings]
              exact hscratch rfl
            have hput : 2 + (text (put es name value)).length + 1 ≤ NVRAM_SECSIZE := by
              have hspace := hfits.2
              rw [h.image.otherStrings] at hspace
              rw [length_text_put, ← Nat.add_assoc]
              exact hspace
            obtain ⟨fl, m, hrun, hstores, hinside⟩ := h.set hname hlen reset b hp hold hput
            refine ⟨_, _, hrun, hstores, ⟨_, hstores.image⟩, ?_, ?_, ?_⟩
            · rintro _ _ ⟨⟩ ⟨⟩
              exact hinside
            · rw [hstores.image.otherStrings, h.image.otherStrings]
              exact congrArg (List.map entry) without_put
            · exact fun hnot => absurd hfits hnot
      · exact hrejected (Or.inr (by omega))

end Calls

/-! ## Runs -/

theorem stores_of_reach {σ : Env}
    (h : Runs.Reach RomCall.step (fun σ c => c.Proper ∧ c.Room σ) FreshSector σ) :
    ∃ es, Stores σ es := by
  refine h.invariant (P := fun σ => ∃ es, Stores σ es) ?_ ?_
  · intro σ hfresh
    exact ⟨[], hfresh.stores⟩
  · rintro σ c σ' ⟨es, hes⟩ ⟨hc, hroom⟩ hstep
    obtain ⟨r, es', hrun, hstores, -⟩ := hes.call hc hroom
    obtain rfl : r.env = σ' := by simpa [RomCall.step, hrun] using hstep
    exact ⟨es', hstores⟩

/-- In a run in which the callers see to the room, the sector is always an image, and every
further call of this kind returns and is sound. -/
theorem romCalls_sound {σ : Env}
    (h : Runs.Reach RomCall.step (fun σ c => c.Proper ∧ c.Room σ) FreshSector σ) :
    (∃ es, Image σ.flash es) ∧
      ∀ c : RomCall, c.Proper → c.Room σ → ∃ r, c.run σ = some r ∧ c.Sound σ r := by
  obtain ⟨es, hes⟩ := stores_of_reach h
  refine ⟨⟨es, hes.image⟩, ?_⟩
  intro c hc hroom
  obtain ⟨r, es', hrun, -, hsound⟩ := hes.call hc hroom
  exact ⟨r, hrun, hsound⟩

/-! ## Filling the sector -/

section Filling

variable {σ : Env} {es cs : List Setting} {b : Bytes} {p : Setting}

abbrev GuardedRom (σ : Env) : Prop :=
  Runs.Reach RomCall.step (fun σ c => c.Proper ∧ c.Room σ) FreshSector σ

/-- The call that makes the setting `p`, with memory `b` for all that it needs. -/
def setCall (p : Setting) (b : Bytes) : RomCall := .set p.1 p.2 none (some b) (some b)

theorem Storable.proper (hp : Storable p) : (setCall p b).Proper :=
  ⟨hp.name_clean, hp.value_clean⟩

/-- A setting that has room is made. -/
theorem Stores.reach_put (h : Stores σ es) (hreach : GuardedRom σ) (hp : Storable p)
    (hlen : (entry p).length < 255)
    (hroom : 2 + (text (put es p.1 p.2)).length + 1 ≤ NVRAM_SECSIZE) :
    ∃ σ', GuardedRom σ' ∧ Stores σ' (put es p.1 p.2) := by
  rw [length_entry] at hlen
  obtain ⟨fl, m, hrun, hstores, -⟩ := h.set hp.name_ne (by omega) none (fun _ => 0) hp
    (Or.inl (Option.isSome_some (a := fun _ => 0))) hroom
  refine ⟨_, hreach.step (e := setCall p fun _ => 0) ⟨hp.proper, ?_⟩ ?_, hstores⟩
  · intro _ hshort
    refine ⟨⟨hshort, ?_⟩, fun _ => Or.inl rfl⟩
    rw [length_text_put, ← Nat.add_assoc] at hroom
    rw [h.image.otherStrings]
    exact hroom
  · exact congrArg (Option.map RomResult.env) hrun

/-- The settings of a list are made one after the other. -/
theorem Stores.reach_puts (h : Stores σ es) (hreach : GuardedRom σ)
    (hcs : ∀ p ∈ cs, Storable p) (hlen : ∀ p ∈ cs, (entry p).length < 255)
    (hroom : 2 + (liveBytes es + liveBytes cs) + 1 ≤ NVRAM_SECSIZE) :
    ∃ σ', GuardedRom σ' ∧ Stores σ' (puts es cs) := by
  induction cs generalizing σ es with
  | nil => exact ⟨σ, hreach, h⟩
  | cons p cs ih =>
      have hcons : liveBytes (p :: cs) = liveBytes [p] + liveBytes cs := by
        simp [liveBytes]
      have hput : liveBytes (put es p.1 p.2) ≤ liveBytes es + liveBytes [p] :=
        liveBytes_puts_le es [p]
      obtain ⟨σ', hreach', hstores⟩ := h.reach_put hreach (hcs p List.mem_cons_self)
        (hlen p List.mem_cons_self) (by rw [length_text]; omega)
      exact ih hstores hreach' (fun q hq => hcs q (List.mem_cons_of_mem p hq))
        (fun q hq => hlen q (List.mem_cons_of_mem p hq)) (by omega)

theorem exists_fresh : ∃ σ, FreshSector σ :=
  ⟨resetNorEnvSpace (some fun _ => 0) blankEnv, blankEnv, fun _ => 0, by decide, rfl⟩

/-- From a fresh sector on any settings that fit all at once can be made. -/
theorem exists_guarded (cs : List Setting) (hcs : ∀ p ∈ cs, Storable p)
    (hlen : ∀ p ∈ cs, (entry p).length < 255)
    (hroom : 2 + liveBytes cs + 1 ≤ NVRAM_SECSIZE) :
    ∃ σ, GuardedRom σ ∧ Stores σ (puts [] cs) := by
  obtain ⟨σ, hfresh⟩ := exists_fresh
  apply hfresh.stores.reach_puts (.start hfresh) hcs hlen
  have hnil : liveBytes [] = 0 := rfl
  omega

end Filling

/-- A setting is made, and one that replaces it is sound. -/
theorem romCalls_sound_replaced :
    ∃ σ, GuardedRom σ ∧ Stores σ [(cstr "a", cstr "1")] ∧
      ∃ r, (setCall (cstr "a", cstr "2") fun _ => 0).run σ = some r ∧
        (setCall (cstr "a", cstr "2") fun _ => 0).Sound σ r := by
  have hputs : puts [] [(cstr "a", cstr "1")] = [(cstr "a", cstr "1")] := rfl
  obtain ⟨σ, hreach, hstores⟩ := exists_guarded [(cstr "a", cstr "1")] (by decide)
    (by decide) (by decide)
  have hp : Storable (cstr "a", cstr "2") := by decide
  rw [hputs] at hstores
  refine ⟨σ, hreach, hstores, (romCalls_sound hreach).2 _ hp.proper ?_⟩
  intro _ hshort
  refine ⟨⟨hshort, ?_⟩, fun _ => Or.inl rfl⟩
  rw [hstores.image.otherStrings]
  decide

/-! ## A full sector, and a setting that is stored twice -/

/-- The longest setting with a name of one letter. -/
def filler (i : ℕ) : Setting := ([BitVec.ofNat 8 (0x61 + i)], List.replicate 252 0x78)

theorem length_filler (i : ℕ) : (entry (filler i)).length = 254 := by
  rw [length_entry]
  unfold filler
  rw [List.length_replicate, List.length_singleton]

theorem storable_filler (i : ℕ) (hi : i < 17) : Storable (filler i) := by
  have hname : ∀ i < 17, BitVec.ofNat 8 (0x61 + i) ≠ 0 ∧ BitVec.ofNat 8 (0x61 + i) ≠ equals := by
    decide
  refine ⟨List.cons_ne_nil _ _, ?_, ?_⟩
  · intro c hc
    rw [List.mem_singleton.mp hc]
    exact hname i hi
  · intro c hc
    rw [List.eq_of_mem_replicate hc]
    decide

/-- Sixteen of the longest strings fill the sector.  One more is accepted, and it runs over
the end of the buffer. -/
theorem full_sector_overrun :
    ∃ σ, GuardedRom σ ∧ ∃ c r, RomCall.Proper c ∧ c.run σ = some r ∧ ¬c.Fits σ ∧
      r.status = 1 ∧ ∃ m b, r.buffer = some m ∧ c.memory = some b ∧
        m NVRAM_SECSIZE ≠ b NVRAM_SECSIZE := by
  obtain ⟨σ, hreach, hstores⟩ := exists_guarded ((List.range 16).map filler) (by
      intro p hp
      obtain ⟨i, hi, rfl⟩ := List.mem_map.mp hp
      exact storable_filler i (Nat.lt_succ_of_lt (List.mem_range.mp hi)))
    (by
      intro p hp
      obtain ⟨i, -, rfl⟩ := List.mem_map.mp hp
      rw [length_filler]
      omega)
    (by decide +kernel)
  have hkeys : (filler 16).1 ∉ keys (puts [] ((List.range 16).map filler)) := by decide +kernel
  have hlen : (text (puts [] ((List.range 16).map filler))).length = 4080 := by
    rw [length_text]
    decide +kernel
  have him := hstores.image
  have hp := storable_filler 16 (by omega)
  have hsize := length_filler 16
  rw [length_entry] at hsize
  have hunset : unsetRomEnv (filler 16).1 (some fun _ => 0) σ = some (0, σ) :=
    unsetRomEnv_of_not_mem hstores hkeys
  have hwrites := setRomEnv_writes (v := (filler 16).2) hp.name_ne (by omega) none (fun _ => 0)
    hstores hunset him.reads him.storable him.text_lt
  refine ⟨σ, hreach, setCall (filler 16) fun _ => 0, _, hp.proper, hwrites, ?_, rfl, _, _, rfl,
    rfl, ?_⟩
  · rintro ⟨-, hfits⟩
    have hothers : layout (otherStrings (filler 16).1 σ) =
        text (puts [] ((List.range 16).map filler)) := by
      rw [him.otherStrings, without_of_not_mem hkeys]
      rfl
    rw [hothers, hlen] at hfits
    unfold NVRAM_SECSIZE at hfits
    omega
  · have hbyte : 14 < (entry (filler 16)).length := by
      rw [length_filler]
      omega
    have hplace : NVRAM_SECSIZE = 2 + 4080 + 14 := rfl
    have htext : entryText (filler 16).1 (some (filler 16).2) = entry (filler 16) ++ [0, 0] := by
      simp [entryText, entry]
    rw [cksum_of_ge (by decide), hlen, hplace, htext, write_of_inside (by simp; omega),
      List.getElem_append_left hbyte]
    exact hp.entry_clean _ (List.getElem_mem hbyte)

/-- Without memory for `unset_rom_env` the new string goes behind all old ones. -/
theorem setRomEnv_noScratch {σ : Env} {es : List Setting} {name v : CString}
    (hname : name ≠ []) (hlen : name.length + v.length + 2 ≤ 255) (b : Bytes)
    (h : Stores σ es) (hp : Storable (name, v))
    (hfits : 2 + (text (es ++ [(name, v)])).length < NVRAM_SECSIZE) :
    ∃ r, setRomEnv name (some v) none (some b) none σ = some r ∧
      romStrings r.env = (es ++ [(name, v)]).map entry := by
  have him := h.image
  have hunset : unsetRomEnv name none σ = some (0, σ) := by
    unfold unsetRomEnv
    rw [if_neg (not_not.mpr h.usable)]
  have hwrites := setRomEnv_writes hname hlen none b h hunset him.reads him.storable him.text_lt
  refine ⟨_, hwrites, romStrings_of_reads ?_ ?_ hfits⟩
  · have hget : Image (nvramGet (b.fill 0 0 NVRAM_SECSIZE) σ) es := him.congr_nvramGet
    apply (reads_append_entry hget.reads).congr
    intro i hi
    rw [List.length_append, List.length_singleton] at hi
    exact (if_pos (by omega)).trans (cksum_of_ge (by omega))
  · intro q hq
    rcases List.mem_append.mp hq with hq | hq
    · exact him.storable q hq
    · rw [List.mem_singleton.mp hq]
      exact hp

/-- The old string of a variable stays behind the new one. -/
theorem stored_twice :
    ∃ σ c σ', GuardedRom σ ∧ RomCall.Proper c ∧ c.step σ = some σ' ∧ ¬∃ es, Image σ'.flash es := by
  obtain ⟨σ, hreach, hstores⟩ := exists_guarded [(cstr "a", cstr "1")] (by decide)
    (by decide) (by decide)
  have hputs : puts [] [(cstr "a", cstr "1")] = [(cstr "a", cstr "1")] := rfl
  rw [hputs] at hstores
  have hp : Storable (cstr "a", cstr "2") := by decide
  obtain ⟨r, hrun, hstrings⟩ := setRomEnv_noScratch hp.name_ne (by decide) (fun _ => 0) hstores hp
    (by decide)
  refine ⟨σ, .set (cstr "a") (cstr "2") none (some fun _ => 0) none, r.env, hreach,
    ⟨hp.name_clean, hp.value_clean⟩, congrArg (Option.map RomResult.env) hrun, ?_⟩
  rintro ⟨es, hes⟩
  have hkeys : keys es = [cstr "a", cstr "a"] := by
    rw [← map_nameOf hes.storable, ← hes.romStrings, hstrings]
    decide
  have hnodup := hes.nodup
  rw [hkeys] at hnodup
  revert hnodup
  decide

/-- A full sector is run over, and a setting is stored twice. -/
theorem romCalls_unsound :
    (∃ σ, Runs.Reach RomCall.step (fun _ c => c.Proper) FreshSector σ ∧
      ∃ c r, RomCall.Proper c ∧ c.run σ = some r ∧ ¬c.Fits σ ∧ r.status = 1 ∧
        ∃ m b, r.buffer = some m ∧ c.memory = some b ∧ m NVRAM_SECSIZE ≠ b NVRAM_SECSIZE) ∧
    ∃ σ, Runs.Reach RomCall.step (fun _ c => c.Proper) FreshSector σ ∧
      ¬∃ es, Image σ.flash es := by
  have hmono : ∀ {σ}, GuardedRom σ →
      Runs.Reach RomCall.step (fun _ c => c.Proper) FreshSector σ :=
    fun h => h.mono fun _ _ hg => hg.1
  constructor
  · obtain ⟨σ, hreach, hover⟩ := full_sector_overrun
    exact ⟨σ, hmono hreach, hover⟩
  · obtain ⟨σ, c, σ', hreach, hc, hstep, hbad⟩ := stored_twice
    exact ⟨σ', (hmono hreach).step hc hstep, hbad⟩

end LuojiOs
