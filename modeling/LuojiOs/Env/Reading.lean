import Mathlib.Data.List.TakeWhile
import LuojiOs.Env.Sector

/-!
# Reading the sector back

`map_rom_env` takes the strings of an image apart and sets the variables one by one, as long
as the table has a free slot.
-/

namespace LuojiOs

open Assoc Bytes

/-! ## One string -/

/-- The name in a string, up to its first `=`, and the value behind that. -/
def splitEntry (t : CString) : CString × Option CString :=
  (t.takeWhile (· ≠ equals),
    match t.dropWhile (· ≠ equals) with
    | [] => none
    | _ :: v => some v)

theorem splitEntry_append {n v : CString} (hn : ∀ c ∈ n, c ≠ equals) :
    splitEntry (n ++ equals :: v) = (n, some v) := by
  have hpos : ∀ c ∈ n, decide (c ≠ equals) = true := fun c hc => decide_eq_true (hn c hc)
  unfold splitEntry
  rw [List.takeWhile_append_of_pos hpos, List.dropWhile_append_of_pos hpos]
  simp

theorem splitEntry_of_forall {t : CString} (ht : ∀ c ∈ t, c ≠ equals) :
    splitEntry t = (t, none) := by
  have hpos : ∀ c ∈ t, decide (c ≠ equals) = true := fun c hc => decide_eq_true (ht c hc)
  have htake := List.takeWhile_eq_self_iff.mpr hpos
  have hdrop := List.dropWhile_eq_nil_iff.mpr hpos
  unfold splitEntry
  rw [htake, hdrop]

theorem splitEntry_cases (t : CString) :
    (splitEntry t = (t, none) ∧ ∀ c ∈ t, c ≠ equals) ∨
      ∃ n v, t = n ++ equals :: v ∧ splitEntry t = (n, some v) ∧ ∀ c ∈ n, c ≠ equals := by
  by_cases h : equals ∈ t
  · obtain ⟨n, v, rfl, hn⟩ := List.eq_append_cons_of_mem h
    have hclean : ∀ c ∈ n, c ≠ equals := by
      rintro c hc rfl
      exact hn hc
    exact Or.inr ⟨n, v, rfl, splitEntry_append hclean, hclean⟩
  · have hclean : ∀ c ∈ t, c ≠ equals := by
      rintro c hc rfl
      exact h hc
    exact Or.inl ⟨splitEntry_of_forall hclean, hclean⟩

theorem splitEntry_entry {p : Setting} (hp : ∀ c ∈ p.1, c ≠ equals) :
    splitEntry (entry p) = (p.1, some p.2) :=
  splitEntry_append hp

namespace EntryReader

variable {m : Bytes} {r : EntryReader} {n v w rest : CString} {fuel : ℕ} {c : BitVec 8}
  {p : Setting}

/-- A byte that belongs to the string. -/
theorem read_step (hc : m r.ep = c) (h0 : c ≠ 0) (hep : r.ep + 1 ≤ NVRAM_SECSIZE - 1)
    (hi : r.i < 255) :
    read m (fuel + 1) r =
      let r' := { r with ep := r.ep + 1, i := r.i + 1 }
      if c = equals ∧ r.val = none then read m fuel { r' with val := some [] }
      else read m fuel (r'.push c) := by
  simp only [read]
  rw [hc, if_neg h0, if_pos hep, if_pos hi]

/-- The value and the NUL behind it. -/
theorem read_value (h : m.Reads r.ep (v ++ [0])) (hv : ∀ c ∈ v, c ≠ 0) (hval : r.val = some w)
    (hep : r.ep + v.length ≤ NVRAM_SECSIZE - 1) (hi : r.i + v.length ≤ 255)
    (hfuel : v.length < fuel) :
    read m fuel r = ⟨r.ep + v.length + 1, r.i + v.length, r.name, some (w ++ v)⟩ := by
  induction v generalizing r w fuel with
  | nil =>
      obtain ⟨fuel, rfl⟩ := Nat.exists_eq_succ_of_ne_zero (by omega : fuel ≠ 0)
      simp only [read]
      rw [if_pos h.1, hval, List.append_nil]
      rfl
  | cons c v ih =>
      obtain ⟨fuel, rfl⟩ := Nat.exists_eq_succ_of_ne_zero (by omega : fuel ≠ 0)
      rw [List.length_cons] at hep hi hfuel
      have hsplit : ¬(c = equals ∧ r.val = none) := by simp [hval]
      have hpush : push c { r with ep := r.ep + 1, i := r.i + 1 } =
          ⟨r.ep + 1, r.i + 1, r.name, some (w ++ [c])⟩ := by
        simp [push, hval]
      rw [read_step h.1 (hv c List.mem_cons_self) (by omega) (by omega)]
      dsimp only
      rw [if_neg hsplit, hpush]
      rw [ih h.2 (fun d hd => hv d (List.mem_cons_of_mem c hd)) rfl (by dsimp only; omega)
        (by dsimp only; omega) (by omega)]
      simp only [List.append_assoc, List.singleton_append, List.length_cons, mk.injEq, and_true]
      omega

/-- The name, up to the `=`. -/
theorem read_name (fuel : ℕ) (h : m.Reads r.ep (n ++ rest)) (hn : ∀ c ∈ n, c ≠ 0 ∧ c ≠ equals)
    (hval : r.val = none) (hep : r.ep + n.length ≤ NVRAM_SECSIZE - 1)
    (hi : r.i + n.length ≤ 255) :
    read m (fuel + n.length) r =
      read m fuel ⟨r.ep + n.length, r.i + n.length, r.name ++ n, none⟩ := by
  induction n generalizing r with
  | nil =>
      rw [← hval, List.append_nil]
      rfl
  | cons c n ih =>
      rw [List.length_cons] at hep hi
      obtain ⟨h0, heq⟩ := hn c List.mem_cons_self
      have hpush : push c { r with ep := r.ep + 1, i := r.i + 1 } =
          ⟨r.ep + 1, r.i + 1, r.name ++ [c], none⟩ := by
        simp [push, hval]
      rw [List.length_cons, ← Nat.add_assoc, read_step h.1 h0 (by omega) (by omega)]
      dsimp only
      rw [if_neg fun hc => heq hc.1, hpush]
      rw [ih h.2 (fun d hd => hn d (List.mem_cons_of_mem c hd)) rfl (by dsimp only; omega)
        (by dsimp only; omega)]
      simp only [List.append_assoc, List.singleton_append]
      congr 2 <;> omega

/-- A whole string. -/
theorem read_string {ep : ℕ} {t : CString} (h : m.Reads ep (t ++ [0])) (ht : ∀ c ∈ t, c ≠ 0)
    (hep : ep + t.length ≤ NVRAM_SECSIZE - 1) (hlen : t.length < 255) :
    read m maxEntry ⟨ep, 0, [], none⟩ =
      ⟨ep + t.length + 1, t.length, (splitEntry t).1, (splitEntry t).2⟩ := by
  have hmax : maxEntry = 256 := rfl
  rcases splitEntry_cases t with ⟨hsplit, hn⟩ | ⟨n, v, rfl, hsplit, hn⟩
  · obtain ⟨fuel, hfuel⟩ : ∃ fuel, maxEntry = fuel + 1 + t.length := by
      refine ⟨maxEntry - 1 - t.length, ?_⟩
      omega
    have hname := read_name (fuel + 1) (r := ⟨ep, 0, [], none⟩) h
      (fun c hc => ⟨ht c hc, hn c hc⟩) rfl hep (by dsimp only; omega)
    have hend : m (ep + t.length) = 0 := (reads_append.mp h).2.1
    rw [hfuel, hname, hsplit]
    simp only [read]
    rw [if_pos hend, List.nil_append, Nat.zero_add]
  · rw [List.append_assoc, List.cons_append] at h
    rw [List.length_append, List.length_cons] at hep hlen
    have hclean : ∀ c ∈ n, c ≠ 0 ∧ c ≠ equals :=
      fun c hc => ⟨ht c (List.mem_append_left _ hc), hn c hc⟩
    obtain ⟨fuel, hfuel⟩ : ∃ fuel, maxEntry = fuel + 1 + n.length := by
      refine ⟨maxEntry - 1 - n.length, ?_⟩
      omega
    have hname := read_name (fuel + 1) (r := ⟨ep, 0, [], none⟩) h hclean rfl
      (by dsimp only; omega) (by dsimp only; omega)
    have htail := (reads_append.mp h).2
    rw [hfuel, hname, hsplit]
    dsimp only
    rw [read_step htail.1 (by decide) (by dsimp only; omega) (by dsimp only; omega)]
    dsimp only
    rw [if_pos ⟨rfl, rfl⟩]
    rw [read_value htail.2 (fun c hc => ht c (by simp [hc])) rfl (by dsimp only; omega)
      (by dsimp only; omega) (by omega)]
    simp only [List.nil_append, List.length_append, List.length_cons, mk.injEq, and_true]
    omega

/-- The string of a setting. -/
theorem read_entry {ep : ℕ} (h : m.Reads ep (entry p ++ [0])) (hp : Storable p)
    (hep : ep + (entry p).length ≤ NVRAM_SECSIZE - 1) (hlen : (entry p).length < 255) :
    read m maxEntry ⟨ep, 0, [], none⟩ =
      ⟨ep + (entry p).length + 1, (entry p).length, p.1, some p.2⟩ := by
  rw [read_string h hp.entry_clean hep hlen, splitEntry_entry fun c hc => (hp.name_clean c hc).2]

end EntryReader

/-! ## All strings -/

section Strings

variable {σ : Env} {es fs : List Setting} {b : Bytes} {reset : Option Bytes}
  {oks : ℕ → Bool × Bool} {fuel k ep : ℕ} {m : Bytes}

/-- The first settings get the slots that are free, the others get none. -/
theorem mapStrings_spec (hread : m.Reads ep (text fs ++ [0])) (hfs : ∀ p ∈ fs, Storable p)
    (hshort : ∀ p ∈ fs, (entry p).length < 255) (hfits : ep + (text fs).length < NVRAM_SECSIZE)
    (hfuel : fs.length < fuel) (hoks : ∀ k, oks k = (true, true)) (ht : Mirrors σ.envvar es)
    (hnodup : (keys (es ++ fs)).Nodup) :
    ∃ tbl, mapStrings m oks fuel k ep σ = some { σ with envvar := tbl } ∧
      Mirrors tbl (es ++ fs.take (NVAR - es.length)) := by
  induction fs generalizing σ es ep k fuel with
  | nil =>
      obtain ⟨fuel, rfl⟩ := Nat.exists_eq_succ_of_ne_zero (by omega : fuel ≠ 0)
      refine ⟨σ.envvar, ?_, ?_⟩
      · unfold mapStrings
        rw [if_neg (not_not.mpr hread.1)]
      · rwa [List.take_nil, List.append_nil]
  | cons p fs ih =>
      rw [List.length_cons] at hfuel
      obtain ⟨fuel, rfl⟩ := Nat.exists_eq_succ_of_ne_zero (by omega : fuel ≠ 0)
      obtain ⟨hfirst, hrest⟩ := reads_text_cons hread
      have hp := hfs p List.mem_cons_self
      have hlen := hshort p List.mem_cons_self
      have hsize := length_entry (p := p)
      rw [length_text_cons] at hfits
      have hstart : m ep ≠ 0 := by
        have hpos : 0 < (entry p).length := by omega
        have hbyte := reads_iff.mp (reads_append.mp hfirst).1 0 hpos
        rw [Nat.add_zero] at hbyte
        rw [hbyte]
        exact hp.entry_clean _ (List.getElem_mem hpos)
      have hentry := EntryReader.read_entry hfirst hp (by omega) hlen
      have hnew : p.1 ∉ keys es := by
        rw [keys_append, List.nodup_append] at hnodup
        intro hmem
        exact hnodup.2.2 p.1 hmem p.1 (by simp) rfl
      have hstep : ∀ tbl, (setMemEnv p.1 (some p.2) true true σ.envvar).2 = tbl →
          mapStrings m oks (fuel + 1) k ep σ =
            mapStrings m oks fuel (k + 1) (ep + (entry p).length + 1) { σ with envvar := tbl } := by
        rintro tbl rfl
        simp only [mapStrings]
        rw [if_pos hstart, hentry, hoks]
        exact if_pos ⟨by dsimp only; omega, hlen⟩
      have hrun := fun {es' : List Setting} {tbl : List EnvPair} (ht : Mirrors tbl es')
          (hn : (keys (es' ++ fs)).Nodup) =>
        ih (σ := { σ with envvar := tbl }) (k := k + 1) hrest
          (fun q hq => hfs q (List.mem_cons_of_mem p hq))
          (fun q hq => hshort q (List.mem_cons_of_mem p hq)) (by omega)
          (show fs.length < fuel by omega) ht hn
      by_cases htakes : Takes p.1 σ.envvar
      · have hroom : es.length < NVAR := (ht.takes_iff.mp htakes).resolve_left hnew
        have hes : (keys es).Nodup := by
          rw [keys_append] at hnodup
          exact hnodup.of_append_left
        have hput : put es p.1 p.2 = es ++ [p] := by
          unfold put
          rw [without_of_not_mem hnew]
        have hset := ht.set (v := p.2) hes htakes
        rw [hput] at hset
        rw [List.append_cons] at hnodup
        obtain ⟨tbl, hmap, hmirrors⟩ := hrun hset hnodup
        refine ⟨tbl, ?_, ?_⟩
        · rw [hstep _ rfl, hmap]
        · rw [List.length_append, List.length_singleton, List.append_assoc] at hmirrors
          have htake : NVAR - es.length = NVAR - (es.length + 1) + 1 := by omega
          rwa [htake, List.take_succ_cons]
      · have hfull : NVAR ≤ es.length := by
          by_contra hlt
          exact htakes (ht.takes_iff.mpr (Or.inr (by omega)))
        have hsame : (setMemEnv p.1 (some p.2) true true σ.envvar).2 = σ.envvar := by
          rw [setMemEnv_of_not_takes htakes]
        have hn : (keys (es ++ fs)).Nodup := by
          apply List.Nodup.sublist ?_ hnodup
          rw [keys_append, keys_append]
          exact (List.Sublist.refl _).append (List.sublist_cons_self _ _)
        obtain ⟨tbl, hmap, hmirrors⟩ := hrun ht hn
        refine ⟨tbl, ?_, ?_⟩
        · rw [hstep _ hsame, hmap]
        · rw [Nat.sub_eq_zero_of_le hfull, List.take_zero] at hmirrors ⊢
          exact hmirrors

/-- `map_rom_env` with an empty table reads the first settings of the sector. -/
theorem Stores.map (h : Stores σ es) (b : Bytes) (reset : Option Bytes)
    (hoks : ∀ k, oks k = (true, true))
    (ht : σ.envvar = List.replicate NVAR ⟨none, none⟩) :
    ∃ tbl, mapRomEnv (some b) reset oks σ = some { σ with envvar := tbl } ∧
      Mirrors tbl (es.take NVAR) := by
  have him : Image (nvramGet (b.fill 0 0 NVRAM_SECSIZE) σ) es := h.image.congr_nvramGet
  have hempty : Mirrors σ.envvar [] := by
    rw [ht]
    exact Mirrors.empty
  obtain ⟨tbl, hmap, hmirrors⟩ := mapStrings_spec (k := 0) him.reads him.storable h.short
    him.text_lt him.length_lt hoks hempty (by simpa using him.nodup)
  refine ⟨tbl, ?_, hmirrors⟩
  unfold mapRomEnv
  dsimp only
  rw [if_neg (not_not.mpr him.valid), hmap]

/-- From a sector without settings `map_rom_env` reads nothing. -/
theorem Stores.map_nil (h : Stores σ []) (block reset : Option Bytes) (oks : ℕ → Bool × Bool) :
    mapRomEnv block reset oks σ = some σ := by
  cases block with
  | none => rfl
  | some b =>
      have him : Image (nvramGet (b.fill 0 0 NVRAM_SECSIZE) σ) [] := h.image.congr_nvramGet
      unfold mapRomEnv
      dsimp only
      rw [if_neg (not_not.mpr him.valid)]
      unfold mapStrings
      rw [if_neg (not_not.mpr him.reads.1)]

end Strings

end LuojiOs
