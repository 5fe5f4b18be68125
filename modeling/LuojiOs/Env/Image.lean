import LuojiOs.Env.Checksum
import LuojiOs.Env.Table

/-!
# Images of the environment sector

The sector holds a list of settings: their strings from byte 2 on, the empty string behind
them, and a checksum that makes the sum of all words zero.
-/

namespace LuojiOs

open Assoc Bytes

/-! ## Settings -/

abbrev Setting := CString × CString

/-- The string of a setting. -/
def entry (p : Setting) : CString := p.1 ++ equals :: p.2

/-- The name is not empty, and nothing in the setting looks like the end of a part of it. -/
structure Storable (p : Setting) : Prop where
  name_ne : p.1 ≠ []
  name_clean : ∀ c ∈ p.1, c ≠ 0 ∧ c ≠ equals
  value_clean : ∀ c ∈ p.2, c ≠ 0

/-- The strings of the settings `es`, without the empty string behind them. -/
def text (es : List Setting) : List (BitVec 8) := layout (es.map entry)

section Settings

variable {es fs : List Setting} {p : Setting}

theorem length_entry : (entry p).length = p.1.length + p.2.length + 1 := by
  unfold entry
  rw [List.length_append, List.length_cons]
  omega

theorem Storable.entry_clean (h : Storable p) : ∀ c ∈ entry p, c ≠ 0 := by
  intro c hc
  unfold entry at hc
  rcases List.mem_append.mp hc with hc | hc
  · exact (h.name_clean c hc).1
  · rcases List.mem_cons.mp hc with rfl | hc
    · decide
    · exact h.value_clean c hc

@[simp] theorem text_nil : text [] = [] := rfl

@[simp] theorem text_cons : text (p :: es) = entry p ++ 0 :: text es := layout_cons

@[simp] theorem text_append : text (es ++ fs) = text es ++ text fs := by
  unfold text
  rw [List.map_append, layout_append]

theorem length_text_cons :
    (text (p :: es)).length = (entry p).length + 1 + (text es).length := by
  rw [text_cons, List.length_append, List.length_cons]
  omega

end Settings

/-! ## Searching for a name -/

section Search

variable {m : Bytes} {ep fuel k : ℕ} {name n t : CString} {es as bs : List Setting}
  {p : Setting}

/-- The walk along a name ends behind the name of the string if the names are the same.
Otherwise it stops somewhere in that name, and behind it only if it is a beginning of the
name that is looked for. -/
theorem matchName_stops {d : BitVec 8} (name : CString) (h : m.Reads ep (n ++ d :: t))
    (hn : ∀ c ∈ n, c ≠ 0 ∧ c ≠ equals) (hd : d = equals ∨ (d = 0 ∧ ∀ c ∈ name, c ≠ 0)) :
    (name = n ∧ matchName m name ep = ([], ep + n.length)) ∨
      (name ≠ n ∧ ∃ np, ∃ k ≤ n.length, matchName m name ep = (np, ep + k) ∧
        ¬(np = [] ∧ (m (ep + k) = 0 ∨ m (ep + k) = equals)) ∧ (k = n.length ↔ n <+: name)) := by
  induction name generalizing ep n with
  | nil =>
      cases n with
      | nil => exact Or.inl ⟨rfl, rfl⟩
      | cons e n =>
          have he := hn e List.mem_cons_self
          refine Or.inr ⟨nofun, [], 0, Nat.zero_le _, rfl, ?_, ?_⟩
          · rw [Nat.add_zero, h.1]
            rintro ⟨-, hc | hc⟩
            · exact he.1 hc
            · exact he.2 hc
          · simp
  | cons c name ih =>
      have hstop : ¬(m ep = c ∧ m ep ≠ equals) → (0 = n.length ↔ n <+: c :: name) →
          ∃ np, ∃ k ≤ n.length, matchName m (c :: name) ep = (np, ep + k) ∧
            ¬(np = [] ∧ (m (ep + k) = 0 ∨ m (ep + k) = equals)) ∧
              (k = n.length ↔ n <+: c :: name) := by
        intro hc hk
        exact ⟨c :: name, 0, Nat.zero_le _, if_neg hc, fun hnil => List.cons_ne_nil c name hnil.1, hk⟩
      cases n with
      | nil =>
          refine Or.inr ⟨nofun, hstop ?_ (by simp)⟩
          rintro ⟨hc, hne⟩
          rcases hd with rfl | ⟨rfl, hname⟩
          · exact hne h.1
          · exact hname c List.mem_cons_self (hc.symm.trans h.1)
      | cons e n =>
          have he := hn e List.mem_cons_self
          have hd' : d = equals ∨ (d = 0 ∧ ∀ c ∈ name, c ≠ 0) :=
            hd.imp_right fun hz => ⟨hz.1, fun x hx => hz.2 x (List.mem_cons_of_mem c hx)⟩
          by_cases hec : e = c
          · subst hec
            have hgo : matchName m (e :: name) ep = matchName m name (ep + 1) :=
              if_pos ⟨h.1, by rw [h.1]; exact he.2⟩
            rcases ih h.2 (fun x hx => hn x (List.mem_cons_of_mem e hx)) hd' with
              ⟨rfl, hm⟩ | ⟨hne, np, k, hk, hm, hfail, hpre⟩
            · refine Or.inl ⟨rfl, ?_⟩
              rw [hgo, hm, List.length_cons, Nat.add_right_comm, Nat.add_assoc]
            · refine Or.inr ⟨fun hc => hne (List.tail_eq_of_cons_eq hc), np, k + 1, ?_, ?_, ?_, ?_⟩
              · rw [List.length_cons]
                omega
              · rw [hgo, hm, Nat.add_right_comm, Nat.add_assoc]
              · rwa [Nat.add_right_comm, Nat.add_assoc] at hfail
              · rw [List.length_cons, Nat.add_right_cancel_iff, hpre, List.prefix_cons_inj]
          · refine Or.inr ⟨fun hc => hec (List.head_eq_of_cons_eq hc).symm, hstop ?_ ?_⟩
            · intro hc
              exact hec (h.1.symm.trans hc.1)
            · constructor
              · intro hlen
                cases hlen
              · intro hpre
                exact absurd (List.cons_prefix_cons.mp hpre).1 hec

/-- The walk along a name ends at the `=` if it is the name of the string, and inside the
name otherwise. -/
theorem matchName_spec (name : CString) (h : m.Reads ep (n ++ equals :: t))
    (hn : ∀ c ∈ n, c ≠ 0 ∧ c ≠ equals) :
    (name = n ∧ matchName m name ep = ([], ep + n.length)) ∨
      (name ≠ n ∧ ∃ np, ∃ k ≤ n.length, matchName m name ep = (np, ep + k) ∧
        ¬(np = [] ∧ (m (ep + k) = 0 ∨ m (ep + k) = equals))) := by
  rcases matchName_stops name h hn (Or.inl rfl) with hfound | ⟨hne, np, k, hk, hm, hfail, -⟩
  · exact Or.inl hfound
  · exact Or.inr ⟨hne, np, k, hk, hm, hfail⟩

/-- The first string and the strings behind it. -/
theorem reads_text_cons (h : m.Reads ep (text (p :: es) ++ [0])) :
    m.Reads ep (entry p ++ [0]) ∧ m.Reads (ep + (entry p).length + 1) (text es ++ [0]) := by
  rw [text_cons, List.append_assoc, List.cons_append, reads_append] at h
  refine ⟨reads_append.mpr ⟨h.1, h.2.1, trivial⟩, h.2.2⟩

/-- The loop passes a string of another name. -/
theorem findString_cons (h : m.Reads ep (text (p :: es) ++ [0])) (hp : Storable p)
    (hfit : ep + (text (p :: es)).length < NVRAM_SECSIZE) (hne : name ≠ p.1) :
    findString name m (fuel + 1) ep = findString name m fuel (ep + (entry p).length + 1) := by
  obtain ⟨hfirst, -⟩ := reads_text_cons h
  have hlen := length_entry (p := p)
  rw [length_text_cons] at hfit
  have hread : m.Reads ep (p.1 ++ equals :: (p.2 ++ [0])) := by
    unfold entry at hfirst
    rwa [List.append_assoc] at hfirst
  have hstart : m ep ≠ 0 := by
    obtain ⟨c, n, hc⟩ := List.exists_cons_of_ne_nil hp.name_ne
    rw [hc] at hread
    rw [hread.1]
    exact (hp.name_clean c (hc ▸ List.mem_cons_self)).1
  rcases matchName_spec name hread hp.name_clean with ⟨hc, -⟩ | ⟨-, np, k, hk, hm, hf⟩
  · exact absurd hc hne
  · have hmid : m (ep + k) ≠ 0 := by
      have hk' : k < (entry p).length := by omega
      have hbyte := reads_iff.mp (reads_append.mp hfirst).1 k hk'
      rw [hbyte]
      exact hp.entry_clean _ (List.getElem_mem hk')
    have hskip : m.skipString maxWalk (ep + k) = some (ep + (entry p).length + 1) := by
      apply skipString_of_mid hfirst hp.entry_clean (by omega)
      unfold NVRAM_SECSIZE at hfit
      unfold maxWalk
      omega
    simp only [findString]
    rw [if_pos ⟨hstart, by omega⟩, hm]
    dsimp only
    rw [if_neg hf, if_pos hmid, hskip]
    rfl

/-- A name that is not there is not found. -/
theorem findString_of_not_mem (h : m.Reads ep (text es ++ [0])) (hes : ∀ p ∈ es, Storable p)
    (hfit : ep + (text es).length < NVRAM_SECSIZE) (hname : name ∉ keys es)
    (hfuel : es.length < fuel) : findString name m fuel ep = some none := by
  induction es generalizing ep fuel with
  | nil =>
      obtain ⟨fuel, rfl⟩ := Nat.exists_eq_succ_of_ne_zero (by omega : fuel ≠ 0)
      simp only [findString]
      rw [if_neg fun hc => hc.1 h.1]
  | cons p es ih =>
      rw [List.length_cons] at hfuel
      obtain ⟨fuel, rfl⟩ := Nat.exists_eq_succ_of_ne_zero (by omega : fuel ≠ 0)
      rw [keys_cons, List.mem_cons, not_or] at hname
      rw [findString_cons h (hes p List.mem_cons_self) hfit hname.1]
      rw [length_text_cons] at hfit
      exact ih (reads_text_cons h).2 (fun q hq => hes q (List.mem_cons_of_mem p hq))
        (by omega) hname.2 (by omega)

/-- The string of a name is found where it stands. -/
theorem findString_of_mem {v : CString} (h : m.Reads ep (text (as ++ (name, v) :: bs) ++ [0]))
    (hes : ∀ p ∈ as ++ (name, v) :: bs, Storable p)
    (hfit : ep + (text (as ++ (name, v) :: bs)).length < NVRAM_SECSIZE) (has : name ∉ keys as)
    (hfuel : as.length < fuel) :
    findString name m fuel ep =
      some (some (ep + (text as).length, ep + (text as).length + name.length)) := by
  induction as generalizing ep fuel with
  | nil =>
      obtain ⟨fuel, rfl⟩ := Nat.exists_eq_succ_of_ne_zero (by omega : fuel ≠ 0)
      have hp : Storable (name, v) := hes _ (by simp)
      obtain ⟨hfirst, -⟩ := reads_text_cons h
      have hread : m.Reads ep (name ++ equals :: (v ++ [0])) := by
        unfold entry at hfirst
        rwa [List.append_assoc] at hfirst
      have hstart : m ep ≠ 0 := by
        obtain ⟨c, n, hc⟩ := List.exists_cons_of_ne_nil hp.name_ne
        dsimp only at hc
        rw [hc] at hread
        rw [hread.1]
        exact (hp.name_clean c (hc ▸ List.mem_cons_self)).1
      have hend : m (ep + name.length) = equals := (reads_append.mp hread).2.1
      rw [List.nil_append, length_text_cons] at hfit
      rcases matchName_spec name hread hp.name_clean with ⟨-, hm⟩ | ⟨hc, -⟩
      · simp only [findString]
        rw [if_pos ⟨hstart, by omega⟩, hm]
        dsimp only
        rw [if_pos ⟨rfl, Or.inr hend⟩]
        rfl
      · exact absurd rfl hc
  | cons p as ih =>
      rw [List.length_cons] at hfuel
      obtain ⟨fuel, rfl⟩ := Nat.exists_eq_succ_of_ne_zero (by omega : fuel ≠ 0)
      rw [keys_cons, List.mem_cons, not_or] at has
      rw [List.cons_append] at h hes hfit
      rw [findString_cons h (hes p List.mem_cons_self) hfit has.1]
      rw [length_text_cons] at hfit
      rw [ih (reads_text_cons h).2 (fun q hq => hes q (List.mem_cons_of_mem p hq)) (by omega)
        has.2 (by omega), length_text_cons]
      congr 3
      · omega
      · omega

/-- The end of the strings, from inside the first one. -/
theorem endLoop_of_reads (h : m.Reads ep (text (p :: es) ++ [0]))
    (hes : ∀ q ∈ p :: es, Storable q) (hk : k ≤ (entry p).length)
    (hfit : ep + (text (p :: es)).length < NVRAM_SECSIZE) (hfuel : es.length < fuel) :
    endLoop m fuel (ep + k) = some (ep + (text (p :: es)).length) := by
  induction es generalizing p ep k fuel with
  | nil =>
      obtain ⟨fuel, rfl⟩ := Nat.exists_eq_succ_of_ne_zero (by omega : fuel ≠ 0)
      obtain ⟨hfirst, hrest⟩ := reads_text_cons h
      rw [length_text_cons] at hfit ⊢
      have hskip : m.skipString maxWalk (ep + k) = some (ep + (entry p).length + 1) := by
        apply skipString_of_mid hfirst (hes p List.mem_cons_self).entry_clean hk
        unfold NVRAM_SECSIZE at hfit
        unfold maxWalk
        omega
      have hend : m (ep + (entry p).length + 1) = 0 := hrest.1
      unfold endLoop
      rw [hskip]
      simp only [Option.bind_eq_bind, Option.bind_some, hend, ne_eq, not_true_eq_false, if_false,
        text_nil, List.length_nil]
      rfl
  | cons q es ih =>
      rw [List.length_cons] at hfuel
      obtain ⟨fuel, rfl⟩ := Nat.exists_eq_succ_of_ne_zero (by omega : fuel ≠ 0)
      obtain ⟨hfirst, hrest⟩ := reads_text_cons h
      have hq := hes q (by simp)
      rw [length_text_cons] at hfit ⊢
      have hskip : m.skipString maxWalk (ep + k) = some (ep + (entry p).length + 1) := by
        apply skipString_of_mid hfirst (hes p List.mem_cons_self).entry_clean hk
        unfold NVRAM_SECSIZE at hfit
        unfold maxWalk
        omega
      have hlen := length_entry (p := q)
      have hnext : m (ep + (entry p).length + 1) ≠ 0 := by
        have hpos : 0 < (entry q).length := by omega
        have hbyte := reads_iff.mp (reads_append.mp (reads_text_cons hrest).1).1 0 hpos
        rw [Nat.add_zero] at hbyte
        rw [hbyte]
        exact hq.entry_clean _ (List.getElem_mem hpos)
      have htail := ih hrest (fun r hr => hes r (List.mem_cons_of_mem p hr))
        (show 1 ≤ (entry q).length by omega) (by omega) (show es.length < fuel by omega)
      unfold endLoop
      rw [hskip]
      simp only [Option.bind_eq_bind, Option.bind_some]
      rw [if_pos hnext, htail]
      congr 1
      omega

/-- Every string takes up some bytes. -/
theorem length_le_text (es : List Setting) : es.length ≤ (text es).length := by
  induction es with
  | nil => exact Nat.le_refl _
  | cons p es ih =>
      rw [length_text_cons, List.length_cons]
      omega

theorem endOfStrings_of_reads (h : m.Reads 2 (text es ++ [0])) (hes : ∀ p ∈ es, Storable p)
    (hfit : 2 + (text es).length < NVRAM_SECSIZE) :
    endOfStrings m = some (2 + (text es).length) := by
  unfold endOfStrings
  cases es with
  | nil =>
      have hend : m 2 = 0 := h.1
      rw [if_neg fun hc => hc hend]
      rfl
  | cons p es =>
      have hp := hes p List.mem_cons_self
      have hlen := length_entry (p := p)
      have hpos : 0 < (entry p).length := by omega
      have hstart : m 2 ≠ 0 := by
        have hbyte := reads_iff.mp (reads_append.mp (reads_text_cons h).1).1 0 hpos
        rw [Nat.add_zero] at hbyte
        rw [hbyte]
        exact hp.entry_clean _ (List.getElem_mem hpos)
      have hle := length_le_text es
      rw [if_pos hstart]
      apply endLoop_of_reads (k := 0) h hes (Nat.zero_le _) hfit
      rw [length_text_cons] at hfit
      unfold NVRAM_SECSIZE at hfit
      unfold maxWalk
      omega

end Search

/-! ## Images -/

/-- The sector `m` holds the settings `es`. -/
structure Image (m : Bytes) (es : List Setting) : Prop where
  reads : m.Reads 2 (text es ++ [0])
  fits : 2 + (text es).length + 1 ≤ NVRAM_SECSIZE
  storable : ∀ p ∈ es, Storable p
  nodup : (keys es).Nodup
  valid : (cksum NVRAM_SECSIZE false m).1 = 0

section Image

variable {m m' : Bytes} {es as bs : List Setting} {p : Setting} {name v : CString}

/-- Only the bytes of the sector matter. -/
theorem Image.congr (h : Image m es) (hm : ∀ x < NVRAM_SECSIZE, m' x = m x) : Image m' es where
  reads := by
    apply h.reads.congr
    intro i hi
    apply hm
    have := h.fits
    rw [List.length_append, List.length_singleton] at hi
    omega
  fits := h.fits
  storable := h.storable
  nodup := h.nodup
  valid := (cksum_congr hm).trans h.valid

/-- The sector that `resetNorEnvSpace` writes. -/
theorem image_reset (b : Bytes) : Image (resetBuffer b).2 [] where
  reads := by
    refine ⟨?_, trivial⟩
    unfold resetBuffer
    rw [cksum_of_ge (Nat.le_refl _), set_of_ne (by omega), set_self]
  fits := by decide
  storable := nofun
  nodup := List.nodup_nil
  valid := cksum_valid (by decide)

/-- What is behind the checksum makes the sector. -/
theorem image_cksum (hreads : m.Reads 2 (text es ++ [0]))
    (hfits : 2 + (text es).length + 1 ≤ NVRAM_SECSIZE) (hes : ∀ p ∈ es, Storable p)
    (hnodup : (keys es).Nodup) : Image (cksum NVRAM_SECSIZE true m).2 es where
  reads := by
    apply hreads.congr
    intro i _
    exact cksum_of_ge (by omega)
  fits := hfits
  storable := hes
  nodup := hnodup
  valid := cksum_valid (by decide)

/-- A string is cut out of the strings from byte 2 on. -/
theorem reads_cutString {ss ts : List CString} {s : CString}
    (h : m.Reads 2 (layout (ss ++ s :: ts) ++ [0]))
    (hfits : 2 + (layout (ss ++ s :: ts)).length + 1 ≤ NVRAM_SECSIZE) (hs : Strings (ss ++ ts)) :
    (cutString (2 + (layout ss).length) (2 + (layout ss).length + s.length + 1) m).2.Reads 2
      (layout (ss ++ ts) ++ [0]) := by
  rw [layout_append, layout_cons, List.append_assoc, reads_append, List.append_assoc,
    List.cons_append, reads_append] at h
  obtain ⟨hss, -, -, hts⟩ := h
  rw [layout_append, layout_cons, List.length_append, List.length_append,
    List.length_cons] at hfits
  have hmoved : (m.copy (2 + (layout ss).length) (2 + (layout ss).length + s.length + 1)
      (NVRAM_SECSIZE - (2 + (layout ss).length + s.length + 1))).Reads 2
      (layout (ss ++ ts) ++ [0]) := by
    rw [layout_append, List.append_assoc, reads_append]
    constructor
    · apply hss.congr
      intro i hi
      exact copy_of_outside (Or.inl (by omega))
    · apply hts.congr
      intro i hi
      rw [List.length_append, List.length_singleton] at hi
      exact copy_of_inside (by omega)
  have hend : ∀ {m' : Bytes}, m'.Reads 2 (layout (ss ++ ts) ++ [0]) →
      (cksum NVRAM_SECSIZE true m').2.Reads 2 (layout (ss ++ ts) ++ [0]) := by
    intro m' hm'
    apply hm'.congr
    intro i _
    exact cksum_of_ge (by omega)
  unfold cutString
  apply hend
  split
  · next hzero =>
    -- no string is left: only the byte 2 counts
    cases hall : ss ++ ts with
    | nil => exact ⟨(set_of_ne (by omega)).trans hzero, trivial⟩
    | cons u us =>
        rw [hall] at hmoved hs
        obtain ⟨hne, hu⟩ := hs u List.mem_cons_self
        obtain ⟨c, v, rfl⟩ := List.exists_cons_of_ne_nil hne
        exact absurd (hmoved.1.symm.trans hzero) (hu c List.mem_cons_self)
  · exact hmoved

/-- A string is cut out. -/
theorem Image.cut (h : Image m (as ++ p :: bs)) :
    Image (cutString (2 + (text as).length) (2 + (text as).length + (entry p).length + 1) m).2
      (as ++ bs) := by
  have hfits := h.fits
  have hstorable : ∀ q ∈ as ++ bs, Storable q := by
    intro q hq
    apply h.storable
    simp only [List.mem_append, List.mem_cons] at hq ⊢
    tauto
  have hstrings : Strings (as.map entry ++ bs.map entry) := by
    intro s hs
    rw [← List.map_append] at hs
    obtain ⟨q, hq, rfl⟩ := List.mem_map.mp hs
    have hlen := length_entry (p := q)
    refine ⟨?_, (hstorable q hq).entry_clean⟩
    intro hnil
    rw [hnil, List.length_nil] at hlen
    omega
  have hreads := h.reads
  unfold text at hreads hfits
  rw [List.map_append, List.map_cons] at hreads hfits
  have hcut := reads_cutString hreads hfits hstrings
  rw [← List.map_append] at hcut
  constructor
  · exact hcut
  · have hlen : (text (as ++ bs)).length ≤ (text (as ++ p :: bs)).length := by
      rw [text_append, text_append, List.length_append, List.length_append, length_text_cons]
      omega
    have := h.fits
    omega
  · exact hstorable
  · have hall := h.nodup
    rw [keys_append, keys_cons] at hall
    rw [keys_append]
    exact hall.sublist ((List.Sublist.refl _).append (List.sublist_cons_self _ _))
  · exact cksum_valid (by decide)

/-- A string is written behind the others. -/
theorem reads_append_entry (h : m.Reads 2 (text es ++ [0])) :
    (m.write (2 + (text es).length) (entryText name (some v))).Reads 2
      (text (es ++ [(name, v)]) ++ [0]) := by
  have htext : text (es ++ [(name, v)]) ++ [0] = text es ++ entryText name (some v) := by
    rw [text_append, text_cons, text_nil, List.append_assoc]
    simp [entryText, entry]
  rw [htext, reads_append]
  refine ⟨?_, reads_write⟩
  apply (reads_append.mp h).1.congr
  intro i hi
  exact write_of_outside (Or.inl (by omega))

theorem Image.append (h : Image m es) (hp : Storable (name, v)) (hname : name ∉ keys es)
    (hfits : 2 + (text (es ++ [(name, v)])).length + 1 ≤ NVRAM_SECSIZE) :
    Image (cksum NVRAM_SECSIZE true
      (m.write (2 + (text es).length) (entryText name (some v)))).2 (es ++ [(name, v)]) := by
  apply image_cksum (reads_append_entry h.reads) hfits
  · intro q hq
    rcases List.mem_append.mp hq with hq | hq
    · exact h.storable q hq
    · rw [List.mem_singleton.mp hq]
      exact hp
  · rw [keys_append]
    apply h.nodup.append (List.nodup_singleton name)
    intro y hy hyn
    exact hname (List.mem_singleton.mp hyn ▸ hy)

end Image

end LuojiOs
