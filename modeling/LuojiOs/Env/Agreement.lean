import LuojiOs.Env.Capacity

/-!
# The table and the sector

`do_setenv` sets a variable in the table and in the sector and looks at neither result.  The
two agree as long as each call is refused by both or goes through in both.
-/

namespace LuojiOs

open Assoc Bytes

/-! ## Calls -/

/-- A call of `do_setenv`, with the results of `malloc` in it. -/
structure SetenvCall where
  name : CString
  value : CString
  allocs : Allocs

namespace SetenvCall

def step (σ : Env) (c : SetenvCall) : Option Env := doSetenv c.name c.value c.allocs σ

/-- The call is given strings, and the name is not empty. -/
structure Proper (c : SetenvCall) : Prop where
  name_ne : c.name ≠ []
  name_string : ∀ d ∈ c.name, d ≠ 0
  value_string : ∀ d ∈ c.value, d ≠ 0

/-- The string that the sector gets. -/
def room (c : SetenvCall) : RomCall :=
  .set c.name c.value c.allocs.reset c.allocs.block c.allocs.scratch

/-- Neither the table nor the sector makes the setting. -/
structure Refused (σ : Env) (c : SetenvCall) : Prop where
  unknown : c.name ∉ tableNames σ.envvar
  table : Takes c.name σ.envvar → c.allocs.name = false ∨ c.allocs.value = false
  sector : 255 < c.name.length + c.value.length + 2 ∨ c.allocs.block = none

/-- The sector makes the setting, and the table makes it if it has a slot. -/
structure Accepted (σ : Env) (c : SetenvCall) : Prop where
  no_equals : ∀ d ∈ c.name, d ≠ equals
  fits : c.room.Fits σ
  block : c.allocs.block.isSome
  scratch : c.allocs.scratch.isSome ∨ c.name ∉ (romStrings σ).map nameOf
  value : Takes c.name σ.envvar → c.allocs.value = true
  name : Takes c.name σ.envvar → c.name ∈ tableNames σ.envvar ∨ c.allocs.name = true
  /-- With more strings than slots, no string of the table moves behind one that was left out. -/
  order : NVAR < (romStrings σ).length → c.name ∉ tableNames σ.envvar

/-- The call has the same outcome in the table and in the sector. -/
def Matched (σ : Env) (c : SetenvCall) : Prop :=
  c.name = ENV_MAC_NAME ∧ checkMacFormat c.value = false ∨ c.Refused σ ∨ c.Accepted σ

end SetenvCall

/-- `envinit` has run on a fresh sector, with memory for the defaults. -/
def FirstEnv (σ : Env) : Prop :=
  ∃ σ₀ block reset oks null allocs, FreshSector σ₀ ∧ (∀ n, (allocs n).Succeed) ∧
    envinit block reset oks null allocs σ₀ = some σ

/-- `getenv` reads from the table what `map_rom_env` would read from the sector. -/
def Env.Agrees (σ : Env) : Prop :=
  ∀ buffer reset oks, (∀ k, oks k = (true, true)) →
    ∃ σ', mapRomEnv (some buffer) reset oks
        { σ with envvar := List.replicate NVAR ⟨none, none⟩ } = some σ' ∧
      ∀ n, getenv n σ' = getenv n σ

/-! ## The invariant -/

/-- The first settings of the sector are those of the table. -/
structure Synced (σ : Env) (es : List Setting) : Prop where
  stores : Stores σ es
  mirrors : Mirrors σ.envvar (es.take NVAR)
  inited : σ.envinited = true

section Steps

variable {σ : Env} {es : List Setting} {c : SetenvCall}

/-- The two agree if the table has the first settings of the sector. -/
theorem Stores.agrees_iff (h : Stores σ es) (hinited : σ.envinited = true) :
    σ.Agrees ↔ ∀ n, tableValue n σ.envvar = (es.take NVAR).lookup n := by
  have hmap := fun buffer reset {oks : ℕ → Bool × Bool} (hoks : ∀ k, oks k = (true, true)) =>
    h.of_envvar.map (σ := { σ with envvar := List.replicate NVAR ⟨none, none⟩ }) buffer reset
      hoks rfl
  have hread : ∀ {tbl n}, Mirrors tbl (es.take NVAR) →
      getenv n { σ with envvar := tbl } = (es.take NVAR).lookup n := by
    intro tbl n hmirrors
    have hset : ({ σ with envvar := tbl } : Env).envinited = true := hinited
    rw [getenv_of_inited hset]
    exact hmirrors.value n
  constructor
  · intro hagrees n
    obtain ⟨σ', hrun, hsame⟩ := hagrees (fun _ => 0) none (fun _ => (true, true)) fun _ => rfl
    obtain ⟨tbl, htbl, hmirrors⟩ := hmap (fun _ => 0) none fun _ : ℕ => rfl
    obtain rfl : { σ with envvar := tbl } = σ' := Option.some.inj (htbl.symm.trans hrun)
    rw [← getenv_of_inited hinited, ← hsame, hread hmirrors]
  · intro hvalue buffer reset oks hoks
    obtain ⟨tbl, htbl, hmirrors⟩ := hmap buffer reset hoks
    refine ⟨_, htbl, ?_⟩
    intro n
    rw [getenv_of_inited hinited, hvalue]
    exact hread hmirrors

theorem Synced.agrees (h : Synced σ es) : σ.Agrees :=
  (h.stores.agrees_iff h.inited).mpr h.mirrors.value

/-- The settings of the table after a setting that goes through. -/
theorem Synced.mirrors_put {name v : CString} (h : Synced σ es)
    (horder : NVAR < es.length → name ∉ tableNames σ.envvar) :
    Mirrors (setMemEnv name (some v) true true σ.envvar).2 ((put es name v).take NVAR) := by
  have hnodup := h.stores.image.nodup
  by_cases ht : Takes name σ.envvar
  · -- there are no strings that were left out
    have hfew : es.length ≤ NVAR := by
      by_contra hmore
      have hslots : (es.take NVAR).length = NVAR := List.length_take_of_le (by omega)
      rcases h.mirrors.takes_iff.mp ht with hmem | hlt
      · exact horder (by omega) (h.mirrors.mem_iff.mpr hmem)
      · omega
    have hall : es.take NVAR = es := List.take_of_length_le hfew
    have hmirrors := h.mirrors
    rw [hall] at hmirrors
    have hset := hmirrors.set (v := v) hnodup ht
    rwa [List.take_of_length_le]
    rcases hmirrors.takes_iff.mp ht with hmem | hlt
    · rw [length_put_of_mem hnodup hmem]
      exact hfew
    · by_cases hmem : name ∈ keys es
      · rw [length_put_of_mem hnodup hmem]
        exact hfew
      · rw [length_put_of_not_mem hmem]
        exact hlt
  · have hunknown : name ∉ keys (es.take NVAR) := by
      intro hmem
      exact ht (h.mirrors.takes_iff.mpr (Or.inl hmem))
    have hfull : NVAR ≤ (es.take NVAR).length := by
      by_contra hlt
      exact ht (h.mirrors.takes_iff.mpr (Or.inr (by omega)))
    have hput : put es name v =
        es.take NVAR ++ (without (es.drop NVAR) name ++ [(name, v)]) := by
      have hsplit : without es name = without (es.take NVAR ++ es.drop NVAR) name := by
        rw [List.take_append_drop]
      unfold put
      rw [hsplit, without_append, without_of_not_mem hunknown, List.append_assoc]
    have hlen : (es.take NVAR).length = NVAR := by
      rw [List.length_take] at hfull ⊢
      omega
    rw [setMemEnv_of_not_takes ht, hput, List.take_left' hlen]
    exact h.mirrors

theorem Synced.refused (h : Synced σ es) (hc : c.Proper) (hr : c.Refused σ)
    (hmac : c.name = ENV_MAC_NAME → checkMacFormat c.value = true) :
    ∃ σ', c.step σ = some σ' ∧ Synced σ' es := by
  obtain ⟨hslots, hnames, hvalues⟩ := setMemEnv_of_rejected (v := c.value) hr.unknown hr.table
  refine ⟨{ σ with envvar :=
    (setMemEnv c.name (some c.value) c.allocs.name c.allocs.value σ.envvar).2 }, ?_,
    h.stores.of_envvar, ⟨?_, ?_, ?_⟩, h.inited⟩
  · unfold SetenvCall.step
    rw [doSetenv_eq hmac]
    by_cases hlen : c.name.length + c.value.length + 2 ≤ 255
    · have hblock : c.allocs.block = none := hr.sector.resolve_left (by omega)
      rw [hblock, setRomEnv_noMemory hc.name_ne hlen _ _ h.stores.of_envvar]
      rfl
    · rw [setRomEnv_rejected (Or.inr (by omega))]
      rfl
  · exact hslots.trans h.mirrors.slots
  · rw [hnames]
    exact h.mirrors.count
  · intro n
    rw [hvalues]
    exact h.mirrors.value n

theorem Synced.accepted (h : Synced σ es) (hc : c.Proper) (ha : c.Accepted σ)
    (hmac : c.name = ENV_MAC_NAME → checkMacFormat c.value = true) :
    ∃ σ', c.step σ = some σ' ∧ Synced σ' (put es c.name c.value) := by
  have him := h.stores.image
  have hp : Storable (c.name, c.value) :=
    ⟨hc.name_ne, fun d hd => ⟨hc.name_string d hd, ha.no_equals d hd⟩, hc.value_string⟩
  have hscratch : c.allocs.scratch.isSome ∨ c.name ∉ keys es := by
    rw [← map_nameOf him.storable, ← him.romStrings]
    exact ha.scratch
  obtain ⟨hlen, hspace⟩ := ha.fits
  have hroom : 2 + (text (put es c.name c.value)).length + 1 ≤ NVRAM_SECSIZE := by
    rw [him.otherStrings] at hspace
    rw [length_text_put, ← Nat.add_assoc]
    exact hspace
  obtain ⟨σ', hrun, hstores, htable, hinited⟩ :=
    h.stores.setenv hp hlen hmac ha.block hscratch hroom
  refine ⟨σ', hrun, hstores, ?_, hinited.trans h.inited⟩
  rw [htable, setMemEnv_of_memory ha.value ha.name]
  apply h.mirrors_put
  intro hmany
  apply ha.order
  rwa [him.romStrings, List.length_map]

/-- Every call with the same outcome on both sides returns and keeps them in step. -/
theorem Synced.call (h : Synced σ es) (hc : c.Proper) (hm : c.Matched σ) :
    ∃ σ' es', c.step σ = some σ' ∧ Synced σ' es' := by
  by_cases hmac : c.name = ENV_MAC_NAME → checkMacFormat c.value = true
  · rcases hm with ⟨hname, hvalue⟩ | hr | ha
    · rw [hmac hname] at hvalue
      cases hvalue
    · obtain ⟨σ', hrun, hsynced⟩ := h.refused hc hr hmac
      exact ⟨σ', es, hrun, hsynced⟩
    · obtain ⟨σ', hrun, hsynced⟩ := h.accepted hc ha hmac
      exact ⟨σ', _, hrun, hsynced⟩
  · obtain ⟨hname, hvalue⟩ := Classical.not_imp.mp hmac
    refine ⟨σ, es, ?_, h⟩
    unfold SetenvCall.step doSetenv
    rw [if_pos ⟨striequ_iff.mpr hname, hvalue⟩]

end Steps

/-! ## `envinit` -/

section Init

variable {σ : Env} {es tab : List Setting} {allocs : CString → Allocs}

/-- Some of the defaults are set, one after the other. -/
theorem setDefaults_synced (null : CString → Bool) (hallocs : ∀ n, (allocs n).Succeed)
    (htab : ∀ p ∈ tab, Storable p)
    (hshort : ∀ p ∈ tab, p.1.length + p.2.length + 2 ≤ 255)
    (hmac : ∀ p ∈ tab, p.1 = ENV_MAC_NAME → checkMacFormat p.2 = true)
    (h : Synced σ es) (hcount : es.length + tab.length ≤ NVAR)
    (hroom : 2 + (liveBytes es + liveBytes tab) + 1 ≤ NVRAM_SECSIZE) :
    ∃ σ' cs, setDefaults null allocs tab σ = some σ' ∧ cs.Sublist tab ∧
      Synced σ' (puts es cs) := by
  induction tab generalizing σ es with
  | nil => exact ⟨σ, [], rfl, List.Sublist.refl _, h⟩
  | cons p tab ih =>
      obtain ⟨name, v⟩ := p
      have hcons : liveBytes ((name, v) :: tab) = liveBytes [(name, v)] + liveBytes tab := by
        simp [liveBytes]
      rw [List.length_cons] at hcount
      have hrest := fun {σ : Env} {es : List Setting} (hs : Synced σ es) =>
        ih (σ := σ) (fun q hq => htab q (List.mem_cons_of_mem _ hq))
          (fun q hq => hshort q (List.mem_cons_of_mem _ hq))
          (fun q hq => hmac q (List.mem_cons_of_mem _ hq)) hs
      by_cases hset : getenv name σ = none ∧ null name
      · have hput : liveBytes (put es name v) ≤ liveBytes es + liveBytes [(name, v)] :=
          liveBytes_puts_le es [(name, v)]
        have hlen : (put es name v).length ≤ es.length + 1 := by
          unfold put
          rw [List.length_append, List.length_singleton]
          exact Nat.add_le_add_right (List.length_filter_le ..) 1
        have hsucceed := hallocs name
        obtain ⟨σ₁, hrun, hstores, htable, hinited⟩ := h.stores.setenv
          (htab _ List.mem_cons_self) (hshort _ List.mem_cons_self) (hmac _ List.mem_cons_self)
          hsucceed.block (Or.inl hsucceed.scratch) (by rw [length_text]; omega)
        have hsynced : Synced σ₁ (put es name v) := by
          refine ⟨hstores, ?_, hinited.trans h.inited⟩
          rw [htable, hsucceed.name, hsucceed.value]
          exact h.mirrors_put fun hmany => absurd hmany (by omega)
        obtain ⟨σ', cs, hdefaults, hsub, hend⟩ := hrest hsynced (by omega) (by omega)
        refine ⟨σ', (name, v) :: cs, ?_, hsub.cons_cons _, hend⟩
        unfold setDefaults
        rw [if_pos hset, hrun]
        exact hdefaults
      · obtain ⟨σ', cs, hdefaults, hsub, hend⟩ := hrest h (by omega) (by omega)
        refine ⟨σ', cs, ?_, hsub.cons _, hend⟩
        unfold setDefaults
        rw [if_neg hset]
        exact hdefaults

/-- The bytes of a row of characters. -/
def bytesOf (l : List Char) : CString := l.map fun c => BitVec.ofNat 8 c.toNat

theorem cstr_ofList {s : String} {l : List Char} (h : s = String.ofList l) :
    cstr s = bytesOf l := by
  rw [h, cstr, String.toList_ofList, bytesOf]

/-- A literal is a row of characters at once, while its `toList` has to be computed. -/
theorem map_cstr_cons {p : String × String} {ps : List (String × String)} {k v : List Char}
    {es : List Setting} (hk : p.1 = String.ofList k) (hv : p.2 = String.ofList v)
    (h : (ps.map fun p => (cstr p.1, cstr p.2)) = es) :
    ((p :: ps).map fun p => (cstr p.1, cstr p.2)) = (bytesOf k, bytesOf v) :: es := by
  rw [List.map_cons, cstr_ofList hk, cstr_ofList hv, h]

set_option maxRecDepth 20000 in
/-- All defaults fit into the sector and pass the checks of `do_setenv`. -/
theorem stdenvtab_fitting :
    (∀ p ∈ stdenvtab, Storable p) ∧ (∀ p ∈ stdenvtab, p.1.length + p.2.length + 2 ≤ 255) ∧
      (∀ p ∈ stdenvtab, p.1 = ENV_MAC_NAME → checkMacFormat p.2 = true) ∧
      stdenvtab.length ≤ NVAR ∧ 2 + liveBytes stdenvtab + 1 ≤ NVRAM_SECSIZE := by
  unfold stdenvtab
  simp only [String.reduceAppend]
  repeat rw [map_cstr_cons rfl rfl rfl]
  rw [List.map_nil]
  decide

set_option maxRecDepth 20000 in
theorem liveBytes_stdenvtab : liveBytes stdenvtab ≤ 1000 := by
  unfold stdenvtab
  simp only [String.reduceAppend]
  repeat rw [map_cstr_cons rfl rfl rfl]
  rw [List.map_nil]
  decide

/-- `envinit` on a fresh sector sets some of the defaults, in the table and in the sector. -/
theorem envinit_synced {σ₀ : Env} (hfresh : FreshSector σ₀) (block reset : Option Bytes)
    (oks : ℕ → Bool × Bool) (null : CString → Bool) (hallocs : ∀ n, (allocs n).Succeed) :
    ∃ σ cs, envinit block reset oks null allocs σ₀ = some σ ∧ cs.Sublist stdenvtab ∧
      Synced σ (puts [] cs) := by
  have hempty : Stores { σ₀ with envvar := List.replicate NVAR ⟨none, none⟩ } [] :=
    hfresh.stores.of_envvar
  have hstart : Synced { σ₀ with
      envvar := List.replicate NVAR ⟨none, none⟩, envinited := true } [] :=
    ⟨⟨hempty.usable, hempty.image, hempty.short⟩, Mirrors.empty, rfl⟩
  obtain ⟨hstorable, hshort, hmac, hcount, hroom⟩ := stdenvtab_fitting
  have hnil : liveBytes [] = 0 := rfl
  obtain ⟨σ, cs, hdefaults, hsub, hsynced⟩ := setDefaults_synced null hallocs hstorable hshort
    hmac hstart (by rw [List.length_nil]; omega) (by omega)
  refine ⟨σ, cs, ?_, hsub, hsynced⟩
  unfold envinit
  dsimp only
  rw [hempty.map_nil]
  exact hdefaults

end Init

/-! ## Runs -/

theorem synced_of_reach {σ : Env}
    (h : Runs.Reach SetenvCall.step (fun σ c => c.Proper ∧ c.Matched σ) FirstEnv σ) :
    ∃ es, Synced σ es := by
  refine h.invariant (P := fun σ => ∃ es, Synced σ es) ?_ ?_
  · rintro σ ⟨σ₀, block, reset, oks, null, allocs, hfresh, hallocs, hinit⟩
    obtain ⟨σ', cs, hrun, -, hsynced⟩ := envinit_synced hfresh block reset oks null hallocs
    obtain rfl : σ' = σ := Option.some.inj (hrun.symm.trans hinit)
    exact ⟨_, hsynced⟩
  · rintro σ c σ' ⟨es, hes⟩ ⟨hc, hm⟩ hstep
    obtain ⟨σ'', es', hrun, hsynced⟩ := hes.call hc hm
    obtain rfl : σ'' = σ' := Option.some.inj (hrun.symm.trans hstep)
    exact ⟨es', hsynced⟩

/-- In a run in which each call has the same outcome on both sides, the table and the sector
agree in every state, and every further call of this kind returns. -/
theorem setenvCalls_agree {σ : Env}
    (h : Runs.Reach SetenvCall.step (fun σ c => c.Proper ∧ c.Matched σ) FirstEnv σ) :
    σ.Agrees ∧ ∀ c : SetenvCall, c.Proper → c.Matched σ → (c.step σ).isSome := by
  obtain ⟨es, hes⟩ := synced_of_reach h
  refine ⟨hes.agrees, ?_⟩
  intro c hc hm
  obtain ⟨σ', es', hrun, -⟩ := hes.call hc hm
  rw [hrun]
  rfl

/-! ## A run, and a value that only the table takes -/

/-- The variables that `envinit` sets, with memory full of zeros for all calls. -/
theorem exists_firstEnv :
    ∃ σ cs, FirstEnv σ ∧ cs.Sublist stdenvtab ∧ Synced σ (puts [] cs) := by
  obtain ⟨σ₀, hfresh⟩ := exists_fresh
  have hallocs : ∀ _ : CString, freshAllocs.Succeed := fun _ => by decide
  obtain ⟨σ, cs, hinit, hsub, hsynced⟩ := envinit_synced hfresh (some fun _ => 0) none
    (fun _ => (true, true)) (fun _ => true) hallocs
  exact ⟨σ, cs, ⟨σ₀, _, _, _, _, _, hfresh, hallocs, hinit⟩, hsub, hsynced⟩

/-- Defaults leave slots free. -/
theorem length_puts_defaults {cs : List Setting} (hsub : cs.Sublist stdenvtab) :
    (puts [] cs).length ≤ 39 := by
  have hkeys : (keys cs).length = cs.length := List.length_map _
  have hdedup : (keys cs).dedup.length ≤ (keys cs).length :=
    (List.dedup_sublist _).length_le
  have hputs := length_puts_le cs
  have hcs : cs.length ≤ 39 := hsub.length_le
  omega

/-- The boot delay is set to 3. -/
def delayCall : SetenvCall := ⟨cstr "bootdelay", cstr "3", freshAllocs⟩

theorem delayCall_proper : delayCall.Proper := ⟨by decide, by decide, by decide⟩

/-- There is room for the setting behind any defaults. -/
theorem delayCall_accepted {σ : Env} {cs : List Setting} (hsub : cs.Sublist stdenvtab)
    (h : Synced σ (puts [] cs)) : delayCall.Accepted σ where
  no_equals := by decide
  fits := by
    have him := h.stores.image
    have hcs : liveBytes cs ≤ liveBytes stdenvtab :=
      (hsub.map _).sum_le_sum fun _ _ => Nat.zero_le _
    have hputs := liveBytes_puts_le [] cs
    have hwithout := liveBytes_without_le (puts [] cs) delayCall.name
    have hnil : liveBytes [] = 0 := rfl
    have htab := liveBytes_stdenvtab
    have htext : (layout (otherStrings delayCall.name σ)).length =
        liveBytes (without (puts [] cs) delayCall.name) := by
      rw [him.otherStrings]
      exact length_text
    refine ⟨by decide, ?_⟩
    change 2 + (layout (otherStrings delayCall.name σ)).length + 12 + 1 ≤ 4096
    omega
  block := rfl
  scratch := Or.inl rfl
  value _ := rfl
  name _ := Or.inr rfl
  order := by
    intro hmany
    have hlen := length_puts_defaults hsub
    rw [h.stores.image.romStrings, List.length_map] at hmany
    unfold NVAR at hmany
    omega

/-- After `envinit` the boot delay is set, and the two sides still agree. -/
theorem setenvCalls_agree_delay :
    ∃ σ₀ σ, FirstEnv σ₀ ∧ delayCall.step σ₀ = some σ ∧ σ.Agrees := by
  obtain ⟨σ₀, cs, hfirst, hsub, hsynced⟩ := exists_firstEnv
  have hm : delayCall.Matched σ₀ := Or.inr (Or.inr (delayCall_accepted hsub hsynced))
  obtain ⟨σ, es, hrun, -⟩ := hsynced.call delayCall_proper hm
  refine ⟨σ₀, σ, hfirst, hrun, (setenvCalls_agree ?_).1⟩
  exact (Runs.Reach.start hfirst).step ⟨delayCall_proper, hm⟩ hrun

/-- A value of 254 characters, which the sector does not take. -/
def longCall : SetenvCall := ⟨cstr "a", List.replicate 254 0x78, freshAllocs⟩

theorem longCall_proper : longCall.Proper where
  name_ne := by decide
  name_string := by decide
  value_string := by
    intro d hd
    rw [List.eq_of_mem_replicate hd]
    decide

/-- The table takes the long value, and the sector does not. -/
theorem setenvCalls_disagree :
    ∃ σ, Runs.Reach SetenvCall.step (fun _ c => c.Proper) FirstEnv σ ∧ ¬σ.Agrees := by
  obtain ⟨σ₀, cs, hfirst, hsub, hsynced⟩ := exists_firstEnv
  have hlen := length_puts_defaults hsub
  have hnew : longCall.name ∉ keys ((puts [] cs).take NVAR) := by
    intro hmem
    have hputs : longCall.name ∈ keys (puts [] cs) :=
      ((List.take_sublist _ _).map Prod.fst).subset hmem
    have hcs := (mem_keys_puts.mp hputs).resolve_left List.not_mem_nil
    have htab : longCall.name ∉ keys stdenvtab := by decide +kernel
    exact htab ((hsub.map Prod.fst).subset hcs)
  have htakes : Takes longCall.name σ₀.envvar := by
    apply hsynced.mirrors.takes_iff.mpr
    refine Or.inr (Nat.lt_of_le_of_lt (List.length_take_le' ..) ?_)
    unfold NVAR
    omega
  have hlong : 255 < longCall.name.length + longCall.value.length + 2 := by
    have hvalue : longCall.value.length = 254 := List.length_replicate
    omega
  have hrun : longCall.step σ₀ = some { σ₀ with
      envvar := (setMemEnv longCall.name (some longCall.value) true true σ₀.envvar).2 } := by
    unfold SetenvCall.step
    rw [doSetenv_eq fun hname => absurd hname (by decide), setRomEnv_rejected (Or.inr hlong)]
    rfl
  refine ⟨_, (Runs.Reach.start hfirst).step longCall_proper hrun, ?_⟩
  intro hagrees
  have hstores : Stores { σ₀ with envvar :=
      (setMemEnv longCall.name (some longCall.value) true true σ₀.envvar).2 } (puts [] cs) :=
    hsynced.stores.of_envvar
  have hvalue := (hstores.agrees_iff hsynced.inited).mp hagrees longCall.name
  rw [lookup_eq_none_iff.mpr hnew] at hvalue
  dsimp only at hvalue
  have hset := tableValue_setMemEnv (n := longCall.name) (v := longCall.value) htakes
  rw [hvalue, if_pos rfl] at hset
  cases hset

end LuojiOs
