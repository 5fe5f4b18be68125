import LuojiOs.Env.Reading
import LuojiOs.Env.Unset
import LuojiOs.Support.Checked

/-!
# Reading any sector

A sector with a valid checksum can hold anything, after a half-written update for example.
Here every access of `map_rom_env` to its copy of the sector and to its buffer `env` is
checked, so that a result means that all of them are inside.
-/

namespace LuojiOs

open Bytes

/-! ## The accesses of `map_rom_env` -/

/-- The loop of `cksum` for a buffer of `NVRAM_SECSIZE` bytes. -/
def wordSumIn (m : Bytes) : ℕ → ℕ → BitVec 16 → Option (BitVec 16)
  | 0, _, sum => some sum
  | sz + 1, sp, sum => do
    let high ← m.getIn NVRAM_SECSIZE sp
    let low ← m.getIn NVRAM_SECSIZE (sp + 1)
    wordSumIn m sz (sp + 2) (sum + high.setWidth 16 <<< 8 + low.setWidth 16)

/-- The variables of the inner loop; `ep` points into the sector, `p` and `val` into the
buffer `env`. -/
structure EntryCopy where
  ep : ℕ
  p : ℕ
  i : ℕ
  val : Option ℕ
  env : Bytes

namespace EntryCopy

/-- `while ((*p++ = *ep++) && (ep <= nvram + NVRAM_SECSIZE - 1) && i++ < 255)` -/
def run (nvram : Bytes) : ℕ → EntryCopy → Option EntryCopy
  | 0, _ => none
  | fuel + 1, s => do
    let c ← nvram.getIn NVRAM_SECSIZE s.ep
    let env ← s.env.setIn NVRAM_SECSIZE s.p c
    let s := { s with ep := s.ep + 1, p := s.p + 1, env := env }
    if c = 0 then return s
    else if s.ep ≤ NVRAM_SECSIZE - 1 then
      if s.i < 255 then
        let s := { s with i := s.i + 1 }
        let d ← s.env.getIn NVRAM_SECSIZE (s.p - 1)
        if d = equals ∧ s.val = none then
          let env ← s.env.setIn NVRAM_SECSIZE (s.p - 1) 0
          run nvram fuel { s with val := some s.p, env := env }
        else run nvram fuel s
      else return { s with i := s.i + 1 }
    else return s

/-- The arguments of `set_mem_env(env, val)`, which reads both strings to their ends. -/
def args (s : EntryCopy) : Option RomEntry := do
  let name ← s.env.stringIn NVRAM_SECSIZE NVRAM_SECSIZE 0
  match s.val with
  | none => return (name, none)
  | some val =>
    let value ← s.env.stringIn NVRAM_SECSIZE NVRAM_SECSIZE val
    return (name, some value)

end EntryCopy

/-- The outer loop, with the calls of `set_mem_env` that it makes. -/
def mapStringsIn (nvram : Bytes) (oks : ℕ → Bool × Bool) :
    ℕ → ℕ → ℕ → Bytes → Env → Option (List RomEntry × Env)
  | 0, _, _, _, _ => none
  | fuel + 1, k, ep, env, σ => do
    let c ← nvram.getIn NVRAM_SECSIZE ep
    if c ≠ 0 then
      let s ← EntryCopy.run nvram maxEntry ⟨ep, 0, 0, none, env⟩
      if s.ep ≤ NVRAM_SECSIZE - 1 ∧ s.i < 255 then
        let call ← s.args
        let envvar := (setMemEnv call.1 call.2 (oks k).1 (oks k).2 σ.envvar).2
        let (calls, σ) ← mapStringsIn nvram oks fuel (k + 1) s.ep s.env { σ with envvar := envvar }
        return (call :: calls, σ)
      else return ([], { σ with nvramInvalid := 2 })
    else return ([], σ)

/-- `map_rom_env` with the contents of `env` before the call. -/
def mapRomEnvIn (block reset : Option Bytes) (env : Bytes) (oks : ℕ → Bool × Bool) (σ : Env) :
    Option (List RomEntry × Env) :=
  match block with
  | none => some ([], σ)
  | some buffer => do
    let nvram := nvramGet (buffer.fill 0 0 NVRAM_SECSIZE) σ
    let sum ← wordSumIn nvram (NVRAM_SECSIZE / 2) 0 0
    if sum ≠ 0 then return ([], resetNorEnvSpace reset { σ with nvramInvalid := 1 })
    else mapStringsIn nvram oks (NVRAM_SECSIZE + 1) 0 2 env σ

theorem wordSumIn_eq (m : Bytes) {sz sp : ℕ} (sum : BitVec 16) (h : sp + 2 * sz ≤ NVRAM_SECSIZE) :
    wordSumIn m sz sp sum = some (wordSum m sz sp sum) := by
  induction sz generalizing sp sum with
  | zero => rfl
  | succ sz ih =>
      unfold wordSumIn wordSum
      rw [getIn_of_lt (by omega), getIn_of_lt (by omega)]
      exact ih _ (by omega)

/-! ## One string -/

namespace EntryReader

variable {m : Bytes} {r : EntryReader} {s : EntryCopy} {fuel : ℕ}

/-- What the loop has written to `env`: a NUL stands for the first `=`. -/
def written (r : EntryReader) : CString :=
  match r.val with
  | none => r.name
  | some v => r.name ++ 0 :: v

/-- The copy `s` in `env` is that of the reader `r`. -/
structure Copied (r : EntryReader) (s : EntryCopy) : Prop where
  ep : s.ep = r.ep
  p : s.p = r.i
  i : s.i = r.i
  val : s.val = r.val.map fun _ => r.name.length + 1
  reads : s.env.Reads 0 r.written
  length : r.written.length = r.i
  name_clean : ∀ c ∈ r.name, c ≠ 0
  val_clean : ∀ v ∈ r.val, ∀ c ∈ v, c ≠ 0

/-- What the loop leaves in `env` after the byte `c` that it writes to `p`. -/
theorem Copied.reads_set (h : Copied r s) (c : BitVec 8) :
    (s.env.set s.p c).Reads 0 (r.written ++ [c]) := by
  have hset := h.reads.set_end (c := c)
  rwa [Nat.zero_add, h.length, ← h.p] at hset

theorem copied_start (ep : ℕ) (env : Bytes) : Copied ⟨ep, 0, [], none⟩ ⟨ep, 0, 0, none, env⟩ where
  ep := rfl
  p := rfl
  i := rfl
  val := rfl
  reads := trivial
  length := rfl
  name_clean := nofun
  val_clean := nofun

theorem push_ep {c : BitVec 8} : (r.push c).ep = r.ep := by
  unfold push
  split <;> rfl

theorem push_i {c : BitVec 8} : (r.push c).i = r.i := by
  unfold push
  split <;> rfl

theorem written_push {c : BitVec 8} : (r.push c).written = r.written ++ [c] := by
  unfold written push
  cases hval : r.val with
  | none => simp
  | some v => simp

/-- A byte of the name or of the value. -/
theorem Copied.push {c : BitVec 8} (h : Copied r s) (hc : c ≠ 0) :
    Copied (EntryReader.push c { r with ep := r.ep + 1, i := r.i + 1 })
      ⟨s.ep + 1, s.p + 1, s.i + 1, s.val, s.env.set s.p c⟩ := by
  have hreads := h.reads_set c
  have hlength : (r.written ++ [c]).length = r.i + 1 := by
    rw [List.length_append, h.length, List.length_singleton]
  have hclean : ∀ l : CString, (∀ d ∈ l, d ≠ 0) → ∀ d ∈ l ++ [c], d ≠ 0 := by
    intro l hl d hd
    rcases List.mem_append.mp hd with hd | hd
    · exact hl d hd
    · rwa [List.mem_singleton.mp hd]
  have hval := h.val
  rw [← written_push (c := c)] at hreads hlength
  unfold EntryReader.push at hreads hlength ⊢
  cases hv : r.val with
  | none =>
      rw [hv] at hreads hlength hval
      refine ⟨?_, ?_, ?_, ?_, hreads, hlength, ?_, ?_⟩
      · exact congrArg (· + 1) h.ep
      · exact congrArg (· + 1) h.p
      · exact congrArg (· + 1) h.i
      · exact hval
      · exact hclean r.name h.name_clean
      · exact nofun
  | some v =>
      rw [hv] at hreads hlength hval
      refine ⟨?_, ?_, ?_, ?_, hreads, hlength, ?_, ?_⟩
      · exact congrArg (· + 1) h.ep
      · exact congrArg (· + 1) h.p
      · exact congrArg (· + 1) h.i
      · exact hval
      · exact h.name_clean
      · rintro w hw
        obtain rfl := Option.some.inj hw
        exact hclean v (h.val_clean v hv)

/-- The first `=`, which becomes the end of the name. -/
theorem Copied.split (h : Copied r s) (hval : r.val = none) :
    Copied { r with ep := r.ep + 1, i := r.i + 1, val := some [] }
      ⟨s.ep + 1, s.p + 1, s.i + 1, some (s.p + 1), (s.env.set s.p equals).set s.p 0⟩ := by
  have hwritten : r.written = r.name := by
    unfold written
    rw [hval]
  have hreads := h.reads_set 0
  have hlength := h.length
  have hp := h.p
  rw [hwritten] at hreads hlength
  refine ⟨?_, ?_, ?_, ?_, ?_, ?_, h.name_clean, ?_⟩
  · exact congrArg (· + 1) h.ep
  · exact congrArg (· + 1) h.p
  · exact congrArg (· + 1) h.i
  · simp only [Option.map_some, Option.some.injEq]
    omega
  · apply hreads.congr
    intro i _
    dsimp only
    by_cases hi : 0 + i = s.p
    · rw [hi, set_self, set_self]
    · rw [set_of_ne hi, set_of_ne hi, set_of_ne hi]
  · simp only [written, List.length_append, List.length_singleton]
    omega
  · rintro v hv
    obtain rfl := Option.some.inj hv
    exact nofun

/-- The NUL at the end: `set_mem_env` gets the strings that the reader has read. -/
theorem Copied.args (h : Copied r s) (hi : r.i < NVRAM_SECSIZE) (ep p i : ℕ) :
    EntryCopy.args ⟨ep, p, i, s.val, s.env.set s.p 0⟩ = some (r.name, r.val) := by
  have hreads := h.reads_set 0
  have hlength := h.length
  unfold EntryCopy.args
  rw [h.val]
  unfold written at hreads hlength
  cases hv : r.val with
  | none =>
      rw [hv] at hreads hlength
      dsimp only at hreads hlength
      rw [stringIn_of_reads hreads h.name_clean (by omega) (by omega)]
      rfl
  | some v =>
      rw [hv] at hreads hlength
      simp only [List.length_append, List.length_cons] at hlength
      rw [List.append_assoc, List.cons_append, reads_append] at hreads
      have hname : (s.env.set s.p 0).Reads 0 (r.name ++ [0]) :=
        reads_append.mpr ⟨hreads.1, hreads.2.1, trivial⟩
      have hvalue : (s.env.set s.p 0).Reads (r.name.length + 1) (v ++ [0]) := by
        have htail := hreads.2.2
        rwa [Nat.zero_add] at htail
      rw [stringIn_of_reads hname h.name_clean (by omega) (by omega)]
      simp only [Option.map_some, Option.bind_eq_bind, Option.bind_some]
      rw [stringIn_of_reads hvalue (h.val_clean v hv) (by omega) (by omega)]
      rfl

/-- The loop makes no access outside, and copies what the reader reads. -/
theorem Copied.run (m : Bytes) (fuel : ℕ) (h : Copied r s) (hep : r.ep < NVRAM_SECSIZE)
    (hfuel : r.i + fuel = maxEntry) (hpos : 0 < fuel) :
    ∃ s', EntryCopy.run m fuel s = some s' ∧ s'.ep = (read m fuel r).ep ∧
      s'.i = (read m fuel r).i ∧
        ((read m fuel r).ep ≤ NVRAM_SECSIZE - 1 → (read m fuel r).i < 255 →
          s'.args = some ((read m fuel r).name, (read m fuel r).val)) := by
  have hmax : maxEntry = 256 := rfl
  have hsize : NVRAM_SECSIZE = 4096 := rfl
  induction fuel generalizing r s with
  | zero => exact absurd hpos (Nat.lt_irrefl 0)
  | succ fuel ih =>
      have hp := h.p
      unfold EntryCopy.run read
      rw [h.ep, getIn_of_lt hep]
      simp only [Option.bind_eq_bind, Option.bind_some]
      rw [setIn_of_lt (by omega), Option.bind_some, h.i]
      by_cases hc : m r.ep = 0
      · -- the end of the string
        rw [if_pos hc, if_pos hc, hc]
        exact ⟨_, rfl, rfl, rfl, fun _ hi => h.args (by omega) _ _ _⟩
      · rw [if_neg hc, if_neg hc]
        by_cases hnext : r.ep + 1 ≤ NVRAM_SECSIZE - 1
        · rw [if_pos hnext, if_pos hnext]
          by_cases hi : r.i < 255
          · rw [if_pos hi, if_pos hi, Nat.add_sub_cancel, getIn_of_lt (by omega), set_self,
              Option.bind_some, h.val]
            by_cases hsplit : m r.ep = equals ∧ r.val = none
            · have hnone : (r.val.map fun _ => r.name.length + 1) = none := by
                rw [hsplit.2]
                rfl
              have hstep := h.split hsplit.2
              rw [← hsplit.1, h.ep, h.i] at hstep
              rw [if_pos ⟨hsplit.1, hnone⟩, if_pos hsplit, setIn_of_lt (by omega),
                Option.bind_some]
              exact ih hstep (by dsimp only; omega) (by dsimp only; omega) (by omega)
            · have hstep := h.push hc
              rw [h.ep, h.i, h.val] at hstep
              rw [if_neg fun hd => hsplit ⟨hd.1, Option.map_eq_none_iff.mp hd.2⟩, if_neg hsplit]
              exact ih hstep (by rw [push_ep]; dsimp only; omega)
                (by rw [push_i]; dsimp only; omega) (by omega)
          · -- too many bytes
            rw [if_neg hi, if_neg hi]
            refine ⟨_, rfl, ?_, rfl, fun _ hlt => absurd hlt (by dsimp only; omega)⟩
            simp only [push_ep]
        · -- the last byte of the sector
          rw [if_neg hnext, if_neg hnext]
          refine ⟨_, rfl, ?_, ?_, fun hle => ?_⟩
          · rw [push_ep]
          · rw [push_i]
          · rw [push_ep] at hle
            exact absurd hle hnext

/-- A string that the reader accepts has its NUL in time. -/
theorem exists_string (hfuel : r.i + fuel = maxEntry)
    (hep : (read m fuel r).ep ≤ NVRAM_SECSIZE - 1) (hi : (read m fuel r).i < 255) :
    ∃ t : CString, m.Reads r.ep (t ++ [0]) ∧ (∀ c ∈ t, c ≠ 0) ∧
      r.ep + t.length + 1 ≤ NVRAM_SECSIZE - 1 ∧ r.i + t.length < 255 := by
  have hmax : maxEntry = 256 := rfl
  induction fuel generalizing r with
  | zero =>
      change r.i < 255 at hi
      omega
  | succ fuel ih =>
      by_cases hc : m r.ep = 0
      · simp only [read] at hep hi
        rw [if_pos hc] at hep hi
        exact ⟨[], ⟨hc, trivial⟩, List.forall_mem_nil _, hep, hi⟩
      · have hnext : ∃ r' : EntryReader, r'.ep = r.ep + 1 ∧ r'.i = r.i + 1 ∧
            read m (fuel + 1) r = read m fuel r' := by
          simp only [read] at hep hi
          rw [if_neg hc] at hep hi
          by_cases hstop : r.ep + 1 ≤ NVRAM_SECSIZE - 1
          · rw [if_pos hstop] at hep hi
            by_cases hlt : r.i < 255
            · rw [read_step rfl hc hstop hlt]
              dsimp only
              by_cases hsplit : m r.ep = equals ∧ r.val = none
              · rw [if_pos hsplit]
                exact ⟨_, rfl, rfl, rfl⟩
              · rw [if_neg hsplit]
                exact ⟨_, push_ep, push_i, rfl⟩
            · rw [if_neg hlt] at hi
              dsimp only at hi
              omega
          · rw [if_neg hstop, push_ep] at hep
            exact absurd hep hstop
        obtain ⟨r', hr', hi', hread⟩ := hnext
        rw [hread] at hep hi
        obtain ⟨t, hreads, ht, hfit, hlen⟩ := ih (by omega) hep hi
        rw [hr'] at hreads hfit
        refine ⟨m r.ep :: t, ⟨rfl, hreads⟩, ?_, ?_, ?_⟩
        · rintro d hd
          rcases List.mem_cons.mp hd with rfl | hd
          · exact hc
          · exact ht d hd
        · rw [List.length_cons]
          omega
        · rw [List.length_cons]
          omega

end EntryReader

/-! ## The strings that can be read -/

/-- The strings `ss` stand in the sector from `ep` on.  Each has at most 254 characters and
ends before the last byte. -/
structure Readable (m : Bytes) (ep : ℕ) (ss : List CString) : Prop where
  reads : m.Reads ep (layout ss)
  strings : Strings ss
  short : ∀ s ∈ ss, s.length ≤ 254
  fits : ep + (layout ss).length ≤ NVRAM_SECSIZE - 1

/-- All strings that can be read from `ep` on are `ss` or a beginning of it. -/
structure Longest (m : Bytes) (ep : ℕ) (ss : List CString) : Prop extends Readable m ep ss where
  longest : ∀ ss', Readable m ep ss' → ss' <+: ss

section Longest

variable {m m' : Bytes} {ep : ℕ} {s t : CString} {ss ts : List CString}

theorem layout_singleton : layout [t] = t ++ [0] := by
  rw [layout_cons, layout_nil]

theorem readable_cons :
    Readable m ep (t :: ts) ↔ Readable m ep [t] ∧ Readable m (ep + t.length + 1) ts := by
  have hlen : (layout (t :: ts)).length = t.length + 1 + (layout ts).length := by
    rw [layout_cons, List.length_append, List.length_cons]
    omega
  have hone : (layout [t]).length = t.length + 1 := by
    rw [layout_singleton, List.length_append, List.length_singleton]
  have hreads : m.Reads ep (layout (t :: ts)) ↔
      m.Reads ep (layout [t]) ∧ m.Reads (ep + t.length + 1) (layout ts) := by
    rw [layout_singleton, layout_cons, List.append_cons, reads_append, List.length_append,
      List.length_singleton, ← Nat.add_assoc]
  constructor
  · rintro ⟨hr, hs, hshort, hfit⟩
    obtain ⟨hfirst, hrest⟩ := hreads.mp hr
    refine ⟨⟨hfirst, ?_, ?_, by omega⟩, ⟨hrest, ?_, ?_, by omega⟩⟩
    · intro x hx
      exact hs x (by simp [List.mem_singleton.mp hx])
    · intro x hx
      exact hshort x (by simp [List.mem_singleton.mp hx])
    · exact fun x hx => hs x (List.mem_cons_of_mem t hx)
    · exact fun x hx => hshort x (List.mem_cons_of_mem t hx)
  · rintro ⟨h₁, h₂⟩
    refine ⟨hreads.mpr ⟨h₁.reads, h₂.reads⟩, ?_, ?_, ?_⟩
    · intro x hx
      rcases List.mem_cons.mp hx with rfl | hx
      · exact h₁.strings x List.mem_cons_self
      · exact h₂.strings x hx
    · intro x hx
      rcases List.mem_cons.mp hx with rfl | hx
      · exact h₁.short x List.mem_cons_self
      · exact h₂.short x hx
    · have := h₂.fits
      omega

/-- Only one string starts at a place. -/
theorem Readable.unique (hs : Readable m ep [s]) (ht : Readable m ep [t]) : s = t := by
  have hsr := hs.reads
  have htr := ht.reads
  rw [layout_singleton] at hsr htr
  have hclean₁ := (hs.strings s List.mem_cons_self).2
  have hclean₂ := (ht.strings t List.mem_cons_self).2
  rw [← stringAt_of_reads hsr hclean₁ (Nat.le_max_left _ t.length),
    stringAt_of_reads htr hclean₂ (Nat.le_max_right s.length _)]

theorem Longest.nil (hep : ep ≤ NVRAM_SECSIZE - 1) (hnone : ∀ t, ¬Readable m ep [t]) :
    Longest m ep [] where
  reads := trivial
  strings := nofun
  short := nofun
  fits := hep
  longest := by
    intro ss' h
    cases ss' with
    | nil => exact List.prefix_refl _
    | cons t ts => exact absurd (readable_cons.mp h).1 (hnone t)

theorem Longest.cons (ht : Readable m ep [t]) (h : Longest m (ep + t.length + 1) ts) :
    Longest m ep (t :: ts) where
  toReadable := readable_cons.mpr ⟨ht, h.toReadable⟩
  longest := by
    intro ss' hss
    cases ss' with
    | nil => exact List.nil_prefix
    | cons s ss =>
        obtain ⟨hfirst, hrest⟩ := readable_cons.mp hss
        obtain rfl := hfirst.unique ht
        exact List.cons_prefix_cons.mpr ⟨rfl, h.longest ss hrest⟩

/-- Only the bytes of the sector matter. -/
theorem Readable.congr (h : Readable m ep ss) (hm : ∀ x < NVRAM_SECSIZE, m' x = m x) :
    Readable m' ep ss where
  reads := by
    apply h.reads.congr
    intro i hi
    apply hm
    have := h.fits
    omega
  strings := h.strings
  short := h.short
  fits := h.fits

theorem Longest.congr (h : Longest m ep ss) (hm : ∀ x < NVRAM_SECSIZE, m' x = m x) :
    Longest m' ep ss where
  toReadable := h.toReadable.congr hm
  longest := fun ss' hss => h.longest ss' (hss.congr fun x hx => (hm x hx).symm)

end Longest

/-! ## All strings -/

/-- The table after the calls of `set_mem_env`, which are counted from `k` on. -/
def setMemEnvs (oks : ℕ → Bool × Bool) : ℕ → List RomEntry → List EnvPair → List EnvPair
  | _, [], envvar => envvar
  | k, call :: calls, envvar =>
    setMemEnvs oks (k + 1) calls (setMemEnv call.1 call.2 (oks k).1 (oks k).2 envvar).2

section Run

variable {m : Bytes} {oks : ℕ → Bool × Bool} {fuel k ep : ℕ} {env : Bytes} {σ : Env}

/-- What is left after the strings `ss` from `ep` on. -/
def afterStrings (m : Bytes) (oks : ℕ → Bool × Bool) (k ep : ℕ) (ss : List CString) (σ : Env) :
    Env :=
  { σ with
    envvar := setMemEnvs oks k (ss.map splitEntry) σ.envvar
    nvramInvalid := if m (ep + (layout ss).length) = 0 then σ.nvramInvalid else 2 }

theorem afterStrings_nil :
    afterStrings m oks k ep [] σ = if m ep = 0 then σ else { σ with nvramInvalid := 2 } := by
  unfold afterStrings
  rw [layout_nil, List.length_nil, Nat.add_zero]
  split <;> rfl

theorem afterStrings_cons {t : CString} {ss : List CString} {envvar : List EnvPair}
    (hset : (setMemEnv (splitEntry t).1 (splitEntry t).2 (oks k).1 (oks k).2 σ.envvar).2 =
      envvar) :
    afterStrings m oks k ep (t :: ss) σ =
      afterStrings m oks (k + 1) (ep + t.length + 1) ss { σ with envvar := envvar } := by
  have hend : ep + (layout (t :: ss)).length = ep + t.length + 1 + (layout ss).length := by
    rw [layout_cons, List.length_append, List.length_cons]
    omega
  unfold afterStrings
  rw [hend, List.map_cons, setMemEnvs, hset]

/-- Nothing can be read from the NUL of an empty string. -/
theorem not_readable_of_zero {t : CString} (hend : m ep = 0) : ¬Readable m ep [t] := by
  intro h
  obtain ⟨hne, hclean⟩ := h.strings t List.mem_cons_self
  obtain ⟨c, l, rfl⟩ := List.exists_cons_of_ne_nil hne
  have hread := h.reads
  rw [layout_cons, List.cons_append] at hread
  exact hclean c List.mem_cons_self (hread.1.symm.trans hend)

/-- The reader accepts exactly the strings that can be read. -/
theorem Readable.read {t : CString} (h : Readable m ep [t]) :
    EntryReader.read m maxEntry ⟨ep, 0, [], none⟩ =
      ⟨ep + t.length + 1, t.length, (splitEntry t).1, (splitEntry t).2⟩ ∧
        ep + t.length + 1 ≤ NVRAM_SECSIZE - 1 ∧ t.length < 255 := by
  have hread := h.reads
  have hfit := h.fits
  have hshort := h.short t List.mem_cons_self
  rw [layout_singleton] at hread hfit
  rw [List.length_append, List.length_singleton] at hfit
  refine ⟨?_, by omega, by omega⟩
  exact EntryReader.read_string hread (h.strings t List.mem_cons_self).2 (by omega) (by omega)

theorem exists_readable (hne : m ep ≠ 0)
    (hep : (EntryReader.read m maxEntry ⟨ep, 0, [], none⟩).ep ≤ NVRAM_SECSIZE - 1)
    (hi : (EntryReader.read m maxEntry ⟨ep, 0, [], none⟩).i < 255) :
    ∃ t, Readable m ep [t] := by
  obtain ⟨t, hread, hclean, hfit, hlen⟩ := EntryReader.exists_string rfl hep hi
  dsimp only at hread hfit hlen
  refine ⟨t, ?_, ?_, ?_, ?_⟩
  · rwa [layout_singleton]
  · intro s hs
    obtain rfl := List.mem_singleton.mp hs
    refine ⟨?_, hclean⟩
    rintro rfl
    exact hne hread.1
  · intro s hs
    obtain rfl := List.mem_singleton.mp hs
    omega
  · rw [layout_singleton, List.length_append, List.length_singleton]
    omega

/-- The loop stops at the first string that cannot be read. -/
theorem mapStringsIn_spec (m env : Bytes) (oks : ℕ → Bool × Bool) (k : ℕ) (σ : Env)
    (hep : ep ≤ NVRAM_SECSIZE - 1) (hfuel : NVRAM_SECSIZE - ep < fuel) :
    ∃ ss, Longest m ep ss ∧
      mapStringsIn m oks fuel k ep env σ =
        some (ss.map splitEntry, afterStrings m oks k ep ss σ) ∧
      mapStrings m oks fuel k ep σ = some (afterStrings m oks k ep ss σ) := by
  have hsize : NVRAM_SECSIZE = 4096 := rfl
  induction fuel generalizing k ep env σ with
  | zero => exact absurd hfuel (Nat.not_lt_zero _)
  | succ fuel ih =>
      have hlt : ep < NVRAM_SECSIZE := by omega
      unfold mapStringsIn mapStrings
      rw [getIn_of_lt hlt]
      simp only [Option.bind_eq_bind, Option.bind_some]
      by_cases hend : m ep = 0
      · rw [if_neg (not_not.mpr hend), if_neg (not_not.mpr hend)]
        refine ⟨[], Longest.nil hep fun t => not_readable_of_zero hend, ?_⟩
        rw [afterStrings_nil, if_pos hend]
        exact ⟨rfl, rfl⟩
      · rw [if_pos hend, if_pos hend]
        obtain ⟨s, hrun, hsep, hsi, hargs⟩ :=
          (EntryReader.copied_start ep env).run m maxEntry hlt rfl (by decide)
        rw [hrun, Option.bind_some, hsep, hsi]
        by_cases hgood : ∃ t, Readable m ep [t]
        · obtain ⟨t, ht⟩ := hgood
          obtain ⟨hread, hfit, hlen⟩ := ht.read
          rw [hread] at hargs ⊢
          dsimp only at hargs ⊢
          rw [if_pos ⟨hfit, hlen⟩, if_pos ⟨hfit, hlen⟩, hargs hfit hlen, Option.bind_some]
          obtain ⟨ss, hlongest, hin, hout⟩ := ih s.env (k + 1)
            { σ with envvar := (setMemEnv (splitEntry t).1 (splitEntry t).2 (oks k).1
              (oks k).2 σ.envvar).2 } hfit (by omega)
          rw [hin, hout]
          refine ⟨t :: ss, hlongest.cons ht, ?_, ?_⟩
          · rw [afterStrings_cons rfl]
            rfl
          · rw [afterStrings_cons rfl]
        · have hreject : ¬((EntryReader.read m maxEntry ⟨ep, 0, [], none⟩).ep ≤
              NVRAM_SECSIZE - 1 ∧ (EntryReader.read m maxEntry ⟨ep, 0, [], none⟩).i < 255) :=
            fun h => hgood (exists_readable hend h.1 h.2)
          rw [if_neg hreject, if_neg hreject]
          refine ⟨[], Longest.nil hep fun t ht => hgood ⟨t, ht⟩, ?_⟩
          rw [afterStrings_nil, if_neg hend]
          exact ⟨rfl, rfl⟩

end Run

/-- Whatever the sector holds, `map_rom_env` stays inside its buffers and ends, and hands
the strings over up to the first one that cannot be read. -/
theorem mapRomEnv_anySector (block reset : Option Bytes) (env : Bytes) (oks : ℕ → Bool × Bool)
    (σ : Env) :
    ∃ calls σ', mapRomEnvIn block reset env oks σ = some (calls, σ') ∧
      mapRomEnv block reset oks σ = some σ' ∧
      (block = none ∨ (cksum NVRAM_SECSIZE false σ.flash).1 ≠ 0 → calls = []) ∧
      (block ≠ none → (cksum NVRAM_SECSIZE false σ.flash).1 = 0 →
        ∃ ss, Longest σ.flash 2 ss ∧ calls = ss.map splitEntry ∧
          σ' = { σ with
            envvar := setMemEnvs oks 0 calls σ.envvar
            nvramInvalid :=
              if σ.flash (2 + (layout ss).length) = 0 then σ.nvramInvalid else 2 }) := by
  cases block with
  | none => exact ⟨[], σ, rfl, rfl, fun _ => rfl, fun h => absurd rfl h⟩
  | some buffer =>
      have hsame : ∀ x < NVRAM_SECSIZE,
          nvramGet (buffer.fill 0 0 NVRAM_SECSIZE) σ x = σ.flash x :=
        fun x hx => if_pos hx
      have hsum := cksum_congr hsame
      have hwords : wordSumIn (nvramGet (buffer.fill 0 0 NVRAM_SECSIZE) σ) (NVRAM_SECSIZE / 2) 0 0 =
          some (cksum NVRAM_SECSIZE false σ.flash).1 := by
        rw [wordSumIn_eq _ _ (by decide), ← hsum, cksum_false]
      unfold mapRomEnvIn mapRomEnv
      dsimp only
      rw [hsum, hwords, Option.bind_eq_bind, Option.bind_some]
      by_cases hzero : (cksum NVRAM_SECSIZE false σ.flash).1 = 0
      · rw [if_neg (not_not.mpr hzero), if_neg (not_not.mpr hzero)]
        have hfuel : NVRAM_SECSIZE - 2 < NVRAM_SECSIZE + 1 := by decide
        obtain ⟨ss, hlongest, hin, hout⟩ := mapStringsIn_spec
          (nvramGet (buffer.fill 0 0 NVRAM_SECSIZE) σ) env oks 0 σ (by decide) hfuel
        have hfit := hlongest.fits
        refine ⟨_, _, hin, hout, ?_, ?_⟩
        · rintro (hblock | hsum)
          · cases hblock
          · exact absurd hzero hsum
        · intro _ _
          refine ⟨ss, hlongest.congr fun x hx => (hsame x hx).symm, rfl, ?_⟩
          unfold afterStrings
          rw [hsame _ (by unfold NVRAM_SECSIZE at hfit ⊢; omega)]
      · rw [if_pos hzero, if_pos hzero]
        exact ⟨[], _, rfl, rfl, fun _ => rfl, fun _ h => absurd h hzero⟩

end LuojiOs
