import LuojiOs.Env.Sector

/-!
# Deleting one variable

`set_rom_env` writes `name=value`, and the name alone for a `NULL` value.  `unset_rom_env`
compares the name with each string up to its `=` or its NUL and goes on behind the next NUL,
but only if the comparison has not stopped at one.  So it ends the search at a bare name
that is a beginning of the name it looks for.
-/

namespace LuojiOs

open Assoc Bytes

/-! ## Strings of entries -/

/-- A variable in the sector; there is no value for one that was set to `NULL`. -/
abbrev RomEntry := CString × Option CString

/-- The string of an entry. -/
def romString (p : RomEntry) : CString :=
  match p.2 with
  | some v => p.1 ++ equals :: v
  | none => p.1

/-- The strings of the entries `es`, without the empty string behind them. -/
def romText (es : List RomEntry) : List (BitVec 8) := layout (es.map romString)

/-- The name is not empty, and nothing in the entry looks like the end of a part of it. -/
structure RomStorable (p : RomEntry) : Prop where
  name_ne : p.1 ≠ []
  name_clean : ∀ c ∈ p.1, c ≠ 0 ∧ c ≠ equals
  value_clean : ∀ v ∈ p.2, ∀ c ∈ v, c ≠ 0

section Strings

variable {es fs : List RomEntry} {p : RomEntry}

theorem romString_ne (h : RomStorable p) : romString p ≠ [] := by
  unfold romString
  split
  · simp
  · exact h.name_ne

theorem RomStorable.clean (h : RomStorable p) : ∀ c ∈ romString p, c ≠ 0 := by
  intro c hc
  unfold romString at hc
  split at hc
  · next v hv =>
    rcases List.mem_append.mp hc with hc | hc
    · exact (h.name_clean c hc).1
    · rcases List.mem_cons.mp hc with rfl | hc
      · decide
      · exact h.value_clean v hv c hc
  · exact (h.name_clean c hc).1

theorem strings_map (hes : ∀ p ∈ es, RomStorable p) : Strings (es.map romString) := by
  intro s hs
  obtain ⟨p, hp, rfl⟩ := List.mem_map.mp hs
  exact ⟨romString_ne (hes p hp), (hes p hp).clean⟩

@[simp] theorem romText_nil : romText [] = [] := rfl

@[simp] theorem romText_cons : romText (p :: es) = romString p ++ 0 :: romText es := layout_cons

@[simp] theorem romText_append : romText (es ++ fs) = romText es ++ romText fs := by
  unfold romText
  rw [List.map_append, layout_append]

theorem length_romText_cons :
    (romText (p :: es)).length = (romString p).length + 1 + (romText es).length := by
  rw [romText_cons, List.length_append, List.length_cons]
  omega

theorem length_le_romText (es : List RomEntry) : es.length ≤ (romText es).length := by
  induction es with
  | nil => exact Nat.le_refl _
  | cons p es ih =>
      rw [length_romText_cons, List.length_cons]
      omega

end Strings

/-! ## The search -/

/-- The comparison of `name` with the string of `p` stops at its NUL, so that the search
ends there. -/
def Shadows (name : CString) (p : RomEntry) : Prop := p.2 = none ∧ p.1 <+: name

instance (name : CString) (p : RomEntry) : Decidable (Shadows name p) :=
  inferInstanceAs (Decidable (_ ∧ _))

/-- A bare name before the entry of `name` is a beginning of it. -/
def Hidden (name : CString) (es : List RomEntry) : Prop :=
  ∃ p ∈ es.takeWhile (fun p => p.1 ≠ name), Shadows name p

instance (name : CString) (es : List RomEntry) : Decidable (Hidden name es) :=
  inferInstanceAs (Decidable (∃ p ∈ _, _))

section Search

variable {m : Bytes} {ep fuel : ℕ} {name : CString} {es as bs : List RomEntry} {p : RomEntry}

/-- The first string and the strings behind it. -/
theorem reads_romText_cons (h : m.Reads ep (romText (p :: es) ++ [0])) :
    m.Reads ep (romString p ++ [0]) ∧
      m.Reads (ep + (romString p).length + 1) (romText es ++ [0]) := by
  rw [romText_cons, List.append_assoc, List.cons_append, reads_append] at h
  exact ⟨reads_append.mpr ⟨h.1, h.2.1, trivial⟩, h.2.2⟩

/-- The name of an entry ends with `=`, or with the NUL of its string. -/
theorem exists_reads_name (h : m.Reads ep (romString p ++ [0])) :
    ∃ d t, m.Reads ep (p.1 ++ d :: t) ∧
      ((d = equals ∧ p.2 ≠ none) ∨ (d = 0 ∧ p.2 = none)) := by
  unfold romString at h
  split at h
  · next v hv =>
    refine ⟨equals, v ++ [0], ?_, Or.inl ⟨rfl, by simp [hv]⟩⟩
    rwa [List.append_assoc, List.cons_append] at h
  · next hv => exact ⟨0, [], h, Or.inr ⟨rfl, hv⟩⟩

theorem length_name_le (p : RomEntry) : p.1.length ≤ (romString p).length := by
  unfold romString
  split
  · rw [List.length_append]
    omega
  · exact Nat.le_refl _

theorem first_ne_zero (h : m.Reads ep (romString p ++ [0])) (hp : RomStorable p) : m ep ≠ 0 := by
  obtain ⟨d, t, hread, -⟩ := exists_reads_name h
  obtain ⟨c, n, hc⟩ := List.exists_cons_of_ne_nil hp.name_ne
  rw [hc] at hread
  rw [hread.1]
  exact (hp.name_clean c (hc ▸ List.mem_cons_self)).1

/-- The string of the name is found. -/
theorem findString_found (h : m.Reads ep (romString p ++ [0])) (hp : RomStorable p)
    (hname : ∀ c ∈ p.1, c ≠ 0) (hep : ep < NVRAM_SECSIZE) :
    findString p.1 m (fuel + 1) ep = some (some (ep, ep + p.1.length)) := by
  have hstart := first_ne_zero h hp
  obtain ⟨d, t, hread, hd⟩ := exists_reads_name h
  have hend : m (ep + p.1.length) = d := (reads_append.mp hread).2.1
  have hstops := matchName_stops p.1 hread hp.name_clean
    (hd.imp And.left fun hz => ⟨hz.1, hname⟩)
  simp only [findString]
  rw [if_pos ⟨hstart, hep⟩]
  rcases hstops with ⟨-, hm⟩ | ⟨hne, -⟩
  · rw [hm]
    dsimp only
    rw [if_pos]
    rw [hend]
    exact ⟨rfl, hd.symm.imp And.left And.left⟩
  · exact absurd rfl hne

/-- A string of another name ends the search or is passed. -/
theorem findString_other (h : m.Reads ep (romString p ++ [0])) (hp : RomStorable p)
    (hname : ∀ c ∈ name, c ≠ 0) (hne : name ≠ p.1)
    (hep : ep + (romString p).length + 1 < NVRAM_SECSIZE) :
    (Shadows name p → findString name m (fuel + 2) ep = some none) ∧
      (¬Shadows name p →
        findString name m (fuel + 1) ep = findString name m fuel (ep + (romString p).length + 1)) := by
  have hstart := first_ne_zero h hp
  have hlen := length_name_le p
  obtain ⟨d, t, hread, hd⟩ := exists_reads_name h
  have hstops := matchName_stops name hread hp.name_clean
    (hd.imp And.left fun hz => ⟨hz.1, hname⟩)
  rcases hstops with ⟨heq, -⟩ | ⟨-, np, k, hk, hm, hfail, hpre⟩
  · exact absurd heq hne
  · have hstopped : m (ep + k) = 0 ↔ Shadows name p := by
      have hend : m (ep + p.1.length) = d := (reads_append.mp hread).2.1
      unfold Shadows
      rw [← hpre]
      by_cases hkn : k = p.1.length
      · subst hkn
        rw [hend]
        rcases hd with ⟨rfl, hv⟩ | ⟨rfl, hv⟩
        · simp [hv, equals]
        · simp [hv]
      · have hlt : k < p.1.length := by omega
        have hbyte := reads_iff.mp (reads_append.mp hread).1 k hlt
        rw [hbyte]
        constructor
        · intro hzero
          exact absurd hzero (hp.name_clean _ (List.getElem_mem hlt)).1
        · rintro ⟨-, hc⟩
          exact absurd hc hkn
    have hround : ∀ n, findString name m (n + 1) ep =
        if m (ep + k) ≠ 0 then (m.skipString maxWalk (ep + k)).bind (findString name m n)
        else findString name m n (ep + k) := by
      intro n
      simp only [findString]
      rw [if_pos ⟨hstart, by omega⟩, hm]
      dsimp only
      rw [if_neg hfail]
    constructor
    · intro hs
      have hzero := hstopped.mpr hs
      rw [hround, if_neg (not_not.mpr hzero)]
      simp only [findString]
      rw [if_neg fun hc => hc.1 hzero]
    · intro hs
      have hskip : m.skipString maxWalk (ep + k) = some (ep + (romString p).length + 1) := by
        apply skipString_of_mid h hp.clean (by omega)
        unfold NVRAM_SECSIZE at hep
        unfold maxWalk
        omega
      rw [hround, if_pos fun hzero => hs (hstopped.mp hzero), hskip]
      rfl

/-- The search fails for a name that is not there, and for one that is hidden. -/
theorem findString_none (h : m.Reads ep (romText es ++ [0])) (hes : ∀ p ∈ es, RomStorable p)
    (hfit : ep + (romText es).length < NVRAM_SECSIZE) (hname : ∀ c ∈ name, c ≠ 0)
    (hnone : name ∉ keys es ∨ Hidden name es) (hfuel : es.length < fuel) :
    findString name m fuel ep = some none := by
  induction es generalizing ep fuel with
  | nil =>
      obtain ⟨fuel, rfl⟩ := Nat.exists_eq_succ_of_ne_zero (by omega : fuel ≠ 0)
      simp only [findString]
      rw [if_neg fun hc => hc.1 h.1]
  | cons p es ih =>
      rw [List.length_cons] at hfuel
      obtain ⟨fuel, rfl⟩ := Nat.exists_eq_add_of_le' (show 2 ≤ fuel by omega)
      rw [length_romText_cons] at hfit
      have hne : name ≠ p.1 := by
        rintro rfl
        rcases hnone with hmem | ⟨q, hq, -⟩
        · simp at hmem
        · simp at hq
      obtain ⟨hfirst, hrest⟩ := reads_romText_cons h
      have hp := hes p List.mem_cons_self
      by_cases hs : Shadows name p
      · exact (findString_other hfirst hp hname hne (by omega)).1 hs
      · rw [(findString_other hfirst hp hname hne (by omega)).2 hs]
        apply ih hrest (fun q hq => hes q (List.mem_cons_of_mem p hq)) (by omega) ?_ (by omega)
        refine hnone.imp (fun hmem hc => hmem (List.mem_cons_of_mem p.1 hc)) ?_
        rintro ⟨q, hq, hqs⟩
        rw [List.takeWhile_cons_of_pos (by simpa using Ne.symm hne)] at hq
        rcases List.mem_cons.mp hq with rfl | hq
        · exact absurd hqs hs
        · exact ⟨q, hq, hqs⟩

/-- The search finds the string of a name that is not hidden. -/
theorem findString_some {v : Option CString}
    (h : m.Reads ep (romText (as ++ (name, v) :: bs) ++ [0]))
    (hes : ∀ p ∈ as ++ (name, v) :: bs, RomStorable p)
    (hfit : ep + (romText (as ++ (name, v) :: bs)).length < NVRAM_SECSIZE)
    (hname : ∀ c ∈ name, c ≠ 0) (has : name ∉ keys as) (hseen : ∀ p ∈ as, ¬Shadows name p)
    (hfuel : as.length < fuel) :
    findString name m fuel ep =
      some (some (ep + (romText as).length, ep + (romText as).length + name.length)) := by
  induction as generalizing ep fuel with
  | nil =>
      obtain ⟨fuel, rfl⟩ := Nat.exists_eq_succ_of_ne_zero (by omega : fuel ≠ 0)
      exact findString_found (p := (name, v)) (reads_romText_cons h).1 (hes _ (by simp)) hname
        (by omega)
  | cons p as ih =>
      rw [List.length_cons] at hfuel
      obtain ⟨fuel, rfl⟩ := Nat.exists_eq_succ_of_ne_zero (by omega : fuel ≠ 0)
      rw [keys_cons, List.mem_cons, not_or] at has
      rw [List.cons_append] at h hes hfit
      rw [length_romText_cons] at hfit
      obtain ⟨hfirst, hrest⟩ := reads_romText_cons h
      rw [(findString_other hfirst (hes p (by simp)) hname has.1 (by
        rw [romText_append, List.length_append, length_romText_cons] at hfit
        omega)).2 (hseen p (by simp))]
      rw [ih hrest (fun q hq => hes q (List.mem_cons_of_mem p hq)) (by omega) has.2
        (fun q hq => hseen q (List.mem_cons_of_mem p hq)) (by omega), length_romText_cons]
      congr 3
      · omega
      · omega

end Search

/-! ## Images -/

/-- The sector `m` holds the entries `es`. -/
structure RomImage (m : Bytes) (es : List RomEntry) : Prop where
  reads : m.Reads 2 (romText es ++ [0])
  fits : 2 + (romText es).length + 1 ≤ NVRAM_SECSIZE
  storable : ∀ p ∈ es, RomStorable p
  nodup : (keys es).Nodup
  valid : (cksum NVRAM_SECSIZE false m).1 = 0

section Image

variable {m m' : Bytes} {es as bs : List RomEntry} {p : RomEntry}

/-- The settings of `do_setenv` are entries with a value. -/
theorem Image.rom {fs : List Setting} (h : Image m fs) :
    RomImage m (fs.map fun p => (p.1, some p.2)) := by
  have htext : romText (fs.map fun p => (p.1, some p.2)) = text fs := by
    unfold romText text
    rw [List.map_map]
    rfl
  constructor
  · rw [htext]
    exact h.reads
  · rw [htext]
    exact h.fits
  · intro p hp
    obtain ⟨q, hq, rfl⟩ := List.mem_map.mp hp
    have hs := h.storable q hq
    refine ⟨hs.name_ne, hs.name_clean, ?_⟩
    rintro v hv
    obtain rfl := Option.some.inj hv
    exact hs.value_clean
  · have hkeys : keys (fs.map fun p => (p.1, some p.2)) = keys fs := by
      unfold keys
      rw [List.map_map]
      rfl
    rw [hkeys]
    exact h.nodup
  · exact h.valid

/-- Only the bytes of the sector matter. -/
theorem RomImage.congr (h : RomImage m es) (hm : ∀ x < NVRAM_SECSIZE, m' x = m x) :
    RomImage m' es where
  reads := by
    apply h.reads.congr
    intro i hi
    apply hm
    have := h.fits
    rw [List.length_append, List.length_singleton] at hi
    omega
  fits := h.fits
  storable := h.storable
  nodup := h.nodup
  valid := (cksum_congr hm).trans h.valid

theorem RomImage.cut (h : RomImage m (as ++ p :: bs)) :
    RomImage (cutString (2 + (romText as).length)
      (2 + (romText as).length + (romString p).length + 1) m).2 (as ++ bs) := by
  have hstorable : ∀ q ∈ as ++ bs, RomStorable q := by
    intro q hq
    apply h.storable
    simp only [List.mem_append, List.mem_cons] at hq ⊢
    tauto
  have hstrings := strings_map hstorable
  have hreads := h.reads
  have hfits := h.fits
  rw [List.map_append] at hstrings
  unfold romText at hreads hfits
  rw [List.map_append, List.map_cons] at hreads hfits
  have hcut := reads_cutString hreads hfits hstrings
  rw [← List.map_append] at hcut
  constructor
  · exact hcut
  · have hlen : (romText (as ++ bs)).length ≤ (romText (as ++ p :: bs)).length := by
      rw [romText_append, romText_append, List.length_append, List.length_append,
        length_romText_cons]
      omega
    have := h.fits
    omega
  · exact hstorable
  · have hall := h.nodup
    rw [keys_append, keys_cons] at hall
    rw [keys_append]
    exact hall.sublist ((List.Sublist.refl _).append (List.sublist_cons_self _ _))
  · exact cksum_valid (by decide)

/-- The sector with the entries `es` and a checksum. -/
theorem romImage_write (hfits : 2 + (romText es).length + 1 ≤ NVRAM_SECSIZE)
    (hes : ∀ p ∈ es, RomStorable p) (hnodup : (keys es).Nodup) (b : Bytes) :
    RomImage (cksum NVRAM_SECSIZE true (b.write 2 (romText es ++ [0]))).2 es where
  reads := by
    apply reads_write.congr
    intro i _
    exact cksum_of_ge (by omega)
  fits := hfits
  storable := hes
  nodup := hnodup
  valid := cksum_valid (by decide)

end Image

/-! ## `unset_rom_env` -/

/-- The name of a variable. -/
structure ProperName (name : CString) : Prop where
  ne : name ≠ []
  clean : ∀ c ∈ name, c ≠ 0 ∧ c ≠ equals

/-- `unset_rom_env(name)` returns 1 if there is an entry of that name, which it deletes, and
else 0, and has changed nothing. -/
def DeletesOne (name : CString) (block : Option Bytes) (es : List RomEntry) (σ : Env) : Prop :=
  ∃ r σ', unsetRomEnv name block σ = some (r, σ') ∧ (r = 1 ↔ name ∈ keys es) ∧
    (name ∈ keys es → RomImage σ'.flash (without es name)) ∧ (name ∉ keys es → σ' = σ)

section Unset

variable {σ : Env} {es : List RomEntry} {name : CString} {block : Option Bytes} {b : Bytes}

theorem RomImage.nvramGet (h : RomImage σ.flash es) : RomImage (nvramGet b σ) es :=
  h.congr fun _ hx => if_pos hx

theorem RomImage.nvramPut (h : RomImage b es) (σ : Env) : RomImage (nvramPut b σ).flash es :=
  h.congr fun _ hx => if_pos hx

/-- Nothing is deleted if the call is refused or the name is not found. -/
theorem unsetRomEnv_none (h : RomImage σ.flash es) (hname : ∀ c ∈ name, c ≠ 0)
    (hnone : σ.nvramInvalid ≠ 0 ∨ block = none ∨ name ∉ keys es ∨ Hidden name es) :
    unsetRomEnv name block σ = some (0, σ) := by
  unfold unsetRomEnv
  by_cases hinvalid : σ.nvramInvalid = 0
  · rw [if_neg (not_not.mpr hinvalid)]
    cases block with
    | none => rfl
    | some b =>
        have him : RomImage (LuojiOs.nvramGet b σ) es := h.nvramGet
        have hfits := him.fits
        have hle := length_le_romText es
        have hmissing : name ∉ keys es ∨ Hidden name es := by
          rcases hnone with hne | hnull | hmissing
          · exact absurd hinvalid hne
          · cases hnull
          · exact hmissing
        have hfind : findString name (LuojiOs.nvramGet b σ) (NVRAM_SECSIZE + 1) 2 = some none :=
          findString_none him.reads him.storable (by omega) hname hmissing (by omega)
        dsimp only
        rw [hfind]
        rfl
  · rw [if_pos hinvalid]

theorem unsetRomEnv_some (h : RomImage σ.flash es) (hname : ∀ c ∈ name, c ≠ 0)
    (hvalid : σ.nvramInvalid = 0) (hmem : name ∈ keys es) (hseen : ¬Hidden name es) :
    ∃ fl, unsetRomEnv name (some b) σ = some (1, { σ with flash := fl }) ∧
      RomImage fl (without es name) := by
  have him : RomImage (LuojiOs.nvramGet b σ) es := h.nvramGet
  obtain ⟨as, v, bs, rfl, has, hwithout⟩ := exists_split him.nodup hmem
  have hp : RomStorable (name, v) := him.storable _ (by simp)
  have hfits := him.fits
  have hle := length_le_romText (as ++ (name, v) :: bs)
  have hbefore : ∀ q ∈ as, ¬Shadows name q := by
    intro q hq hqs
    refine hseen ⟨q, ?_, hqs⟩
    have hall : ∀ p ∈ as, decide (p.1 ≠ name) = true := by
      intro p hpas
      rw [decide_eq_true_iff]
      rintro rfl
      exact has (List.mem_map_of_mem hpas)
    rw [List.takeWhile_append_of_pos hall]
    exact List.mem_append_left _ hq
  have hfind : findString name (LuojiOs.nvramGet b σ) (NVRAM_SECSIZE + 1) 2 =
      some (some (2 + (romText as).length, 2 + (romText as).length + name.length)) := by
    apply findString_some him.reads him.storable (by omega) hname has hbefore
    rw [List.length_append] at hle
    omega
  have hstring : (LuojiOs.nvramGet b σ).Reads (2 + (romText as).length)
      (romString (name, v) ++ [0]) := by
    have hreads := him.reads
    rw [romText_append, List.append_assoc, reads_append] at hreads
    exact (reads_romText_cons hreads.2).1
  have hskip : (LuojiOs.nvramGet b σ).skipString maxWalk (2 + (romText as).length + name.length) =
      some (2 + (romText as).length + (romString (name, v)).length + 1) := by
    apply skipString_of_mid hstring hp.clean (length_name_le (name, v))
    rw [romText_append, List.length_append, length_romText_cons] at hfits
    unfold NVRAM_SECSIZE at hfits
    unfold maxWalk
    omega
  have hcut := him.cut
  refine ⟨_, ?_, hwithout ▸ hcut.nvramPut σ⟩
  unfold unsetRomEnv
  rw [if_neg (not_not.mpr hvalid)]
  dsimp only
  rw [hfind]
  simp only [Option.bind_eq_bind, Option.bind_some]
  rw [hskip]
  rfl

/-- `unset_rom_env` does what it is for unless the name is there and the call is refused or
the name is hidden by a bare name before it. -/
theorem unsetRomEnv_deletesOne_iff (h : RomImage σ.flash es) (hname : ProperName name)
    (block : Option Bytes) :
    DeletesOne name block es σ ↔
      (name ∈ keys es → σ.nvramInvalid = 0 ∧ block ≠ none ∧ ¬Hidden name es) := by
  have hclean : ∀ c ∈ name, c ≠ 0 := fun c hc => (hname.clean c hc).1
  by_cases hmem : name ∈ keys es
  · by_cases hok : σ.nvramInvalid = 0 ∧ block ≠ none ∧ ¬Hidden name es
    · obtain ⟨hvalid, hblock, hseen⟩ := hok
      obtain ⟨b, rfl⟩ := Option.ne_none_iff_exists'.mp hblock
      obtain ⟨fl, hrun, him⟩ := unsetRomEnv_some (b := b) h hclean hvalid hmem hseen
      have hdeletes : DeletesOne name (some b) es σ :=
        ⟨1, _, hrun, by simp [hmem], fun _ => him, fun hc => absurd hmem hc⟩
      exact ⟨fun _ _ => ⟨hvalid, hblock, hseen⟩, fun _ => hdeletes⟩
    · constructor
      · rintro ⟨r, σ', hrun, hr, -⟩
        have hnone : σ.nvramInvalid ≠ 0 ∨ block = none ∨ name ∉ keys es ∨ Hidden name es := by
          tauto
        rw [unsetRomEnv_none h hclean hnone] at hrun
        have hzero : (0 : ℤ) = r := congrArg Prod.fst (Option.some.inj hrun)
        have hone := hr.mpr hmem
        omega
      · intro hall
        exact absurd (hall hmem) hok
  · refine ⟨fun _ hc => absurd hc hmem, fun _ => ⟨0, σ, ?_, by simp [hmem], ?_, fun _ => rfl⟩⟩
    · exact unsetRomEnv_none h hclean (Or.inr (Or.inr (Or.inl hmem)))
    · intro hc
      exact absurd hc hmem

end Unset

/-! ## Two sectors -/

theorem properName_iff {name : CString} :
    ProperName name ↔ name ≠ [] ∧ (name.all fun c => c ≠ 0 ∧ c ≠ equals) = true := by
  rw [List.all_eq_true]
  constructor
  · rintro ⟨hne, hclean⟩
    exact ⟨hne, fun c hc => decide_eq_true (hclean c hc)⟩
  · rintro ⟨hne, hclean⟩
    exact ⟨hne, fun c hc => of_decide_eq_true (hclean c hc)⟩

theorem romStorable_iff {p : RomEntry} :
    RomStorable p ↔ ProperName p.1 ∧ ∀ v ∈ p.2, ∀ c ∈ v, c ≠ 0 := by
  constructor
  · rintro ⟨hne, hname, hvalue⟩
    exact ⟨⟨hne, hname⟩, hvalue⟩
  · rintro ⟨⟨hne, hname⟩, hvalue⟩
    exact ⟨hne, hname, hvalue⟩

/-- A sector with these entries. -/
def envOf (es : List RomEntry) : Env where
  flash := (cksum NVRAM_SECSIZE true (Bytes.write (fun _ => 0) 2 (romText es ++ [0]))).2
  nvramInvalid := 0
  envvar := []
  envinited := false

/-- Two names of which one is a beginning of the other; the shorter one has no value. -/
def longFirst : List RomEntry := [(cstr "foobar", some (cstr "1")), (cstr "foo", none)]

def shortFirst : List RomEntry := [(cstr "foo", none), (cstr "foobar", some (cstr "1"))]

theorem romStorable_foo {p : RomEntry} (hp : p ∈ longFirst) : RomStorable p := by
  rw [romStorable_iff, properName_iff]
  revert p
  decide

theorem romImage_longFirst : RomImage (envOf longFirst).flash longFirst :=
  romImage_write (by decide) (fun _ => romStorable_foo) (by decide) _

theorem romImage_shortFirst : RomImage (envOf shortFirst).flash shortFirst := by
  refine romImage_write (by decide) ?_ (by decide) _
  intro p hp
  exact romStorable_foo (List.Perm.mem_iff (List.Perm.swap _ _ _) |>.mp hp)

/-- The longer name is deleted if it stands first. -/
theorem unsetRomEnv_deletesOne_longFirst :
    DeletesOne (cstr "foobar") (some fun _ => 0) longFirst (envOf longFirst) :=
  (unsetRomEnv_deletesOne_iff romImage_longFirst (properName_iff.mpr (by decide)) _).mpr
    fun _ => ⟨rfl, by simp, by decide⟩

/-- If it stands behind the shorter one, it is not found. -/
theorem unsetRomEnv_keeps_shortFirst :
    RomImage (envOf shortFirst).flash shortFirst ∧ ProperName (cstr "foobar") ∧
      cstr "foobar" ∈ keys shortFirst ∧
        ¬DeletesOne (cstr "foobar") (some fun _ => 0) shortFirst (envOf shortFirst) := by
  have hproper : ProperName (cstr "foobar") := properName_iff.mpr (by decide)
  refine ⟨romImage_shortFirst, hproper, by decide, ?_⟩
  rintro ⟨r, σ', hrun, hr, -⟩
  rw [unsetRomEnv_none romImage_shortFirst (fun c hc => (hproper.clean c hc).1)
    (Or.inr (Or.inr (Or.inr (by decide))))] at hrun
  have hzero : (0 : ℤ) = r := congrArg Prod.fst (Option.some.inj hrun)
  have hone := hr.mpr (by decide)
  omega

end LuojiOs
