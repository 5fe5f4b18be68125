import LuojiOs.Env.Nvram
import LuojiOs.Support.StringTable

/-!
# The arguments of the kernel

`go_loaded_elf` puts the arguments and the variables into a block from `malloc`, `initstack`
puts them below the stack: a pointer to each argument, a null pointer, a pointer to each
variable, a null pointer, and then the strings.  Both clear 32 bytes below the block, for the
arguments of the first call.  Below a block from `malloc` these belong to the heap.

The functions are given as the stores they make, in their order.  The registers of the new
thread are left out.  The strings they copy lie elsewhere, and are so short that no length
exceeds an `int`.
-/

namespace LuojiOs

namespace Boot

open Bytes

/-! ## The size and the strings of the environment -/

/-- The loop of `envsize`. -/
def envsizeFrom : List EnvPair → ℕ → ℕ → ℕ × ℕ
  | [], ec, slen => (ec, slen)
  | ep :: envvar, ec, slen =>
    match ep.name with
    | none => envsizeFrom envvar ec slen
    | some name =>
      let slen := slen + (name.length + 2)
      match ep.value with
      | none => envsizeFrom envvar (ec + 1) slen
      | some value => envsizeFrom envvar (ec + 1) (slen + value.length)

def envsize (envvar : List EnvPair) : ℕ × ℕ := envsizeFrom envvar 0 0

/-- The value is printed over the NUL that ends `name=`. -/
def envbuild : List EnvPair → ℕ → ℕ → List Store
  | [], vsp, _ => [⟨vsp, wordBytes 0⟩]
  | ep :: envvar, vsp, ssp =>
    match ep.name with
    | none => envbuild envvar vsp ssp
    | some name =>
      let next := ssp + ((name ++ [equals]).length + 1)
      ⟨vsp, wordBytes ssp⟩ :: ⟨ssp, name ++ [equals] ++ [0]⟩ ::
        match ep.value with
        | none => envbuild envvar (vsp + 4) next
        | some value =>
          ⟨next - 1, value ++ [0]⟩ :: envbuild envvar (vsp + 4) (next + value.length)

/-! ## The block -/

/-- The sum of `strlen(clientav[i]) + 1`. -/
def argvLen (argv : List CString) : ℕ := (argv.map fun s => s.length + 1).sum

/-- The sizes of the pointers, and of the whole block. -/
def vectorlen (ac ec : ℕ) : ℕ := (ac + ec + 2) * 4

def stacklen (ac ec stringlen : ℕ) : ℕ :=
  (vectorlen ac ec + (stringlen + 3) / 4 * 4 + 7) / 8 * 8

/-- The block that `go_loaded_elf` asks for. -/
def blockSize (argv : List CString) (envvar : List EnvPair) : ℕ :=
  stacklen argv.length (envsize envvar).1 ((envsize envvar).2 + argvLen argv)

/-- The stores of `go_loaded_elf`, with the result `nsp` of `malloc`. -/
def goLoadedElf (argv : List CString) (envvar : List EnvPair) (nsp : ℕ) : List Store :=
  let ec := (envsize envvar).1
  let vsp := nsp + 4 * argv.length
  let ssp := nsp + vectorlen argv.length ec
  [⟨nsp, List.replicate (blockSize argv envvar) 0⟩, ⟨nsp - 32, List.replicate 32 0⟩] ++
    copyStrings argv nsp ssp ++ [⟨vsp, wordBytes 0⟩] ++
      if ec ≠ 0 then envbuild envvar (vsp + 4) (ssp + argvLen argv) else []

/-- The stores of `initstack`, with the new stack pointer `nsp`. -/
def initstack (argv : List CString) (envvar : List EnvPair) (addenv : Bool) (nsp : ℕ) :
    List Store :=
  let ec := if addenv then (envsize envvar).1 else 0
  let vsp := nsp + 4 * argv.length
  let ssp := nsp + vectorlen argv.length ec
  [⟨nsp - 32, List.replicate 32 0⟩] ++ copyStrings argv nsp ssp ++ [⟨vsp, wordBytes 0⟩] ++
    if ec ≠ 0 then envbuild envvar (vsp + 4) (ssp + argvLen argv)
    else [⟨vsp + 4, wordBytes 0⟩]

/-- The size that `initstack` reckons with. -/
def initSize (argv : List CString) (envvar : List EnvPair) (addenv : Bool) : ℕ :=
  let (ec, slen) := if addenv then envsize envvar else (0, 0)
  stacklen argv.length ec (slen + argvLen argv)

/-! ## What the block should hold -/

/-- The strings of the variables that are set. -/
def envStrings (envvar : List EnvPair) : List CString :=
  envvar.filterMap fun ep => ep.name.map fun name => name ++ equals :: ep.value.getD []

/-- The `n` bytes from `nsp` on hold the pointers `as` and `es`, with a null pointer behind
each row, to strings that do not overlap. -/
structure ArgBlock (m : Bytes) (nsp n : ℕ) (argv env : List CString) (as es : List ℕ) : Prop where
  pointers : m.Words nsp (as ++ 0 :: (es ++ [0]))
  reads_argv : List.Forall₂ (fun p s => m.Reads p (s ++ [0])) as argv
  reads_env : List.Forall₂ (fun p s => m.Reads p (s ++ [0])) es env
  apart : ((as ++ es).zip (argv ++ env)).Pairwise fun q r => q.1 + q.2.length + 1 ≤ r.1
  inside : ∀ q ∈ (as ++ es).zip (argv ++ env),
    nsp + 4 * (argv.length + env.length + 2) ≤ q.1 ∧ q.1 + q.2.length + 1 ≤ nsp + n

section Environment

variable {envvar : List EnvPair} {ep : EnvPair} {name : CString} {m : Bytes} {vsp ssp : ℕ}

theorem envStrings_cons_none (h : ep.name = none) :
    envStrings (ep :: envvar) = envStrings envvar := by
  simp [envStrings, h]

theorem envStrings_cons_some (h : ep.name = some name) :
    envStrings (ep :: envvar) = (name ++ equals :: ep.value.getD []) :: envStrings envvar := by
  simp [envStrings, h]

theorem envsizeFrom_eq (ec slen : ℕ) :
    envsizeFrom envvar ec slen =
      (ec + (envStrings envvar).length, slen + (layout (envStrings envvar)).length) := by
  induction envvar generalizing ec slen with
  | nil => rfl
  | cons ep envvar ih =>
      unfold envsizeFrom
      cases hname : ep.name with
      | none => rw [envStrings_cons_none hname]; exact ih ec slen
      | some name =>
          rw [envStrings_cons_some hname, length_layout_cons, List.length_cons]
          cases hvalue : ep.value with
          | none =>
              dsimp only
              rw [ih]
              simp only [Option.getD_none, List.length_append, List.length_cons, List.length_nil]
              congr 1 <;> omega
          | some value =>
              dsimp only
              rw [ih]
              simp only [Option.getD_some, List.length_append, List.length_cons]
              congr 1 <;> omega

theorem envsize_eq :
    envsize envvar = ((envStrings envvar).length, (layout (envStrings envvar)).length) := by
  unfold envsize
  rw [envsizeFrom_eq, Nat.zero_add, Nat.zero_add]

/-- Printing the variables in two parts gives the same memory as copying their strings. -/
theorem apply_envbuild :
    m.apply (envbuild envvar vsp ssp) =
      (m.apply (copyStrings (envStrings envvar) vsp ssp)).apply
        [⟨vsp + 4 * (envStrings envvar).length, wordBytes 0⟩] := by
  induction envvar generalizing m vsp ssp with
  | nil => rfl
  | cons ep envvar ih =>
      unfold envbuild
      cases hname : ep.name with
      | none => rw [envStrings_cons_none hname]; exact ih
      | some name =>
          have hrow : ∀ k : ℕ, vsp + 4 + 4 * k = vsp + 4 * (k + 1) := by omega
          rw [envStrings_cons_some hname, List.length_cons, ← hrow]
          cases hvalue : ep.value with
          | none =>
              dsimp only [Option.getD_none]
              unfold copyStrings
              simp only [apply]
              rw [ih]
              rfl
          | some value =>
              have hcons : name ++ equals :: value = name ++ [equals] ++ value := by simp
              have hlen : ssp + ((name ++ [equals]).length + 1) + value.length =
                  ssp + (name ++ [equals] ++ value).length + 1 := by
                simp only [List.length_append]
                omega
              have hjoin : (m.write vsp (wordBytes ssp)).write ssp
                    (name ++ [equals] ++ value ++ [0]) =
                  ((m.write vsp (wordBytes ssp)).write ssp (name ++ [equals] ++ [0])).write
                    (ssp + ((name ++ [equals]).length + 1) - 1) (value ++ [0]) := by
                rw [← Nat.add_assoc, Nat.add_sub_cancel, write_write (by simp),
                  List.append_assoc (name ++ [equals])]
              dsimp only [Option.getD_some]
              unfold copyStrings
              simp only [apply]
              rw [ih, ← hjoin, hlen, hcons]
              rfl

/-- The stores of `envbuild` are inside the row of pointers or inside the strings. -/
theorem envbuild_inside {t : Store} (h : t ∈ envbuild envvar vsp ssp) :
    t.Inside vsp (4 * ((envStrings envvar).length + 1)) ∨
      t.Inside ssp (layout (envStrings envvar)).length := by
  induction envvar generalizing vsp ssp with
  | nil =>
      left
      rw [List.mem_singleton.mp h]
      exact ⟨Nat.le_refl _, Nat.le_refl _⟩
  | cons ep envvar ih =>
      unfold envbuild at h
      cases hname : ep.name with
      | none =>
          rw [hname] at h
          rw [envStrings_cons_none hname]
          exact ih h
      | some name =>
          rw [hname] at h
          rw [envStrings_cons_some hname, length_layout_cons]
          unfold Store.Inside at ih ⊢
          have hsplit : ∀ value : CString, (name ++ equals :: value).length =
              name.length + 1 + value.length := by
            intro value
            rw [List.length_append, List.length_cons]
            omega
          rw [hsplit, List.length_cons]
          rcases List.mem_cons.mp h with rfl | h
          · left
            simp only [length_wordBytes]
            omega
          rcases List.mem_cons.mp h with rfl | h
          · right
            simp only [List.length_append, List.length_singleton]
            omega
          cases hvalue : ep.value with
          | none =>
              rw [hvalue] at h
              have := ih h
              simp only [List.length_append, List.length_singleton, Option.getD_none,
                List.length_nil] at this ⊢
              omega
          | some value =>
              rw [hvalue] at h
              simp only [Option.getD_some]
              rcases List.mem_cons.mp h with rfl | h
              · right
                simp only [List.length_append, List.length_singleton]
                omega
              · have := ih h
                simp only [List.length_append, List.length_singleton] at this
                omega

end Environment

/-! ## Building the block -/

/-- The stores that build the block, without what is cleared before. -/
def buildStores (argv env : List CString) (nsp : ℕ) : List Store :=
  let vsp := nsp + 4 * argv.length
  let ssp := nsp + vectorlen argv.length env.length
  copyStrings argv nsp ssp ++ [⟨vsp, wordBytes 0⟩] ++
    (copyStrings env (vsp + 4) (ssp + argvLen argv) ++
      [⟨vsp + 4 + 4 * env.length, wordBytes 0⟩])

section Block

variable {argv env : List CString} {envvar : List EnvPair} {m : Bytes} {nsp n x : ℕ}

theorem argvLen_eq (argv : List CString) : argvLen argv = (layout argv).length := by
  induction argv with
  | nil => rfl
  | cons s argv ih =>
      rw [length_layout_cons, ← ih]
      exact List.sum_cons

theorem argBlock_build
    (hfit : nsp + vectorlen argv.length env.length + argvLen argv + (layout env).length ≤ nsp + n)
    (hn : nsp + n ≤ 2 ^ 32) :
    ArgBlock (m.apply (buildStores argv env nsp)) nsp n argv env
      (starts (nsp + vectorlen argv.length env.length) argv)
      (starts (nsp + vectorlen argv.length env.length + argvLen argv) env) := by
  have hvector : nsp + vectorlen argv.length env.length =
      nsp + 4 * argv.length + 4 + 4 * env.length + 4 := by
    unfold vectorlen
    omega
  have hargv := argvLen_eq argv
  unfold buildStores
  dsimp only
  rw [apply_append, apply_append, apply_append]
  simp only [apply]
  generalize nsp + vectorlen argv.length env.length = ssp at *
  obtain ⟨vsp, hvsp⟩ : ∃ vsp, nsp + 4 * argv.length = vsp := ⟨_, rfl⟩
  obtain ⟨sse, hsse⟩ : ∃ sse, ssp + argvLen argv = sse := ⟨_, rfl⟩
  rw [hvsp] at hvector ⊢
  rw [hsse] at hfit ⊢
  obtain ⟨m₁, hm₁⟩ : ∃ m₁, m.apply (copyStrings argv nsp ssp) = m₁ := ⟨_, rfl⟩
  obtain ⟨m₂, hm₂⟩ : ∃ m₂, m₁.write vsp (wordBytes 0) = m₂ := ⟨_, rfl⟩
  obtain ⟨m₃, hm₃⟩ : ∃ m₃, m₂.apply (copyStrings env (vsp + 4) sse) = m₃ := ⟨_, rfl⟩
  obtain ⟨m₄, hm₄⟩ : ∃ m₄, m₃.write (vsp + 4 + 4 * env.length) (wordBytes 0) = m₄ := ⟨_, rfl⟩
  have hspec₁ : m₁.Words nsp (starts ssp argv) ∧ m₁.Reads ssp (layout argv) := by
    rw [← hm₁]
    exact copyStrings_spec (by omega) (by omega)
  have hspec₃ : m₃.Words (vsp + 4) (starts sse env) ∧ m₃.Reads sse (layout env) := by
    rw [← hm₃]
    exact copyStrings_spec (by omega) (by omega)
  have hrow₂ : m₂.Words nsp (starts ssp argv ++ [0]) := by
    rw [← hm₂, ← hvsp]
    exact @length_starts ssp argv ▸ hspec₁.1.null
  have hrow₄ : m₄.Words (vsp + 4) (starts sse env ++ [0]) := by
    rw [← hm₄]
    exact @length_starts sse env ▸ hspec₃.1.null
  -- the first part is kept while the second one is built
  have hkeeps : ∀ x, x < vsp + 4 ∨ vsp + 4 + 4 * env.length + 4 ≤ x →
      x < sse ∨ sse + (layout env).length ≤ x → m₄ x = m₂ x := by
    intro x hv hs
    rw [← hm₄, ← hm₃]
    exact (write_of_outside (by rw [length_wordBytes]; omega)).trans
      (apply_copyStrings_of_outside (by omega) hs)
  rw [hm₁, hm₂, hm₃, hm₄]
  have hreads_argv : m₄.Reads ssp (layout argv) := by
    apply hspec₁.2.congr
    intro i hi
    rw [hkeeps _ (by omega) (by omega), ← hm₂]
    exact write_of_outside (Or.inr (by rw [length_wordBytes]; omega))
  have hreads_env : m₄.Reads sse (layout env) := by
    apply hspec₃.2.congr
    intro i hi
    rw [← hm₄]
    exact write_of_outside (Or.inr (by rw [length_wordBytes]; omega))
  have hall : starts ssp argv ++ starts sse env = starts ssp (argv ++ env) := by
    rw [starts_append, ← hargv, hsse]
  refine ⟨?_, hreads_argv.strings, hreads_env.strings, ?_, ?_⟩
  · have hrow : nsp + 4 * (starts ssp argv ++ [0]).length = vsp + 4 := by
      rw [List.length_append, length_starts, List.length_singleton]
      omega
    rw [List.append_cons, words_append, hrow]
    refine ⟨hrow₂.congr fun x _ hx => ?_, hrow₄⟩
    exact hkeeps x (by omega) (by omega)
  · rw [hall]
    exact starts_pairwise
  · intro q hq
    rw [hall] at hq
    have hq := starts_bounds hq
    have hlen : (layout (argv ++ env)).length = argvLen argv + (layout env).length := by
      rw [layout_append, List.length_append, hargv]
    omega

theorem le_stacklen (ac ec slen : ℕ) : vectorlen ac ec + slen ≤ stacklen ac ec slen := by
  unfold stacklen
  omega

/-- What `go_loaded_elf` clears. -/
def cleared (argv : List CString) (envvar : List EnvPair) (nsp : ℕ) (m : Bytes) : Bytes :=
  m.apply [⟨nsp, List.replicate (blockSize argv envvar) 0⟩, ⟨nsp - 32, List.replicate 32 0⟩]

theorem cleared_eq_zero (h : 32 ≤ nsp) (hlo : nsp ≤ x) (hhi : x < nsp + blockSize argv envvar) :
    cleared argv envvar nsp m x = 0 := by
  obtain ⟨i, rfl⟩ := Nat.exists_eq_add_of_le hlo
  have hi : i < (List.replicate (blockSize argv envvar) (0 : BitVec 8)).length := by
    rw [List.length_replicate]
    omega
  unfold cleared
  simp only [apply]
  rw [write_of_outside (Or.inr (by rw [List.length_replicate]; omega)), write_of_inside hi,
    List.getElem_replicate]

theorem blockSize_eq :
    blockSize argv envvar = stacklen argv.length (envStrings envvar).length
      ((layout (envStrings envvar)).length + argvLen argv) := by
  unfold blockSize
  rw [envsize_eq]

/-- Without variables the second null pointer is left from clearing the block. -/
theorem apply_goLoadedElf (h : 32 ≤ nsp) :
    m.apply (goLoadedElf argv envvar nsp) =
      (cleared argv envvar nsp m).apply (buildStores argv (envStrings envvar) nsp) := by
  unfold goLoadedElf buildStores
  rw [envsize_eq]
  simp only [apply_append]
  change (((cleared argv envvar nsp m).apply _).apply _).apply _ = _
  by_cases hec : (envStrings envvar).length = 0
  · have hnil : envStrings envvar = [] := List.length_eq_zero_iff.mp hec
    have hsize := le_stacklen argv.length 0 (argvLen argv)
    have hblock : blockSize argv envvar = stacklen argv.length 0 (argvLen argv) := by
      rw [blockSize_eq, hnil, layout_nil, List.length_nil]
      congr 1
      exact Nat.zero_add _
    have hvector : vectorlen argv.length 0 = 4 * argv.length + 8 := by
      unfold vectorlen
      omega
    have hargv := argvLen_eq argv
    rw [hnil, List.length_nil, if_neg (not_not.mpr rfl)]
    symm
    apply write_of_reads
    apply reads_nullWord
    intro i hi
    simp only [copyStrings, apply]
    rw [write_of_outside (Or.inr (by rw [length_wordBytes]; omega)),
      apply_copyStrings_of_outside (Or.inr (by omega)) (Or.inl (by omega))]
    exact cleared_eq_zero h (by omega) (by omega)
  · rw [if_pos hec, apply_envbuild]

/-- The variables that `initstack` puts into the block. -/
def initStrings (envvar : List EnvPair) (addenv : Bool) : List CString :=
  if addenv then envStrings envvar else []

theorem apply_initstack (addenv : Bool) :
    m.apply (initstack argv envvar addenv nsp) =
      (m.write (nsp - 32) (List.replicate 32 0)).apply
        (buildStores argv (initStrings envvar addenv) nsp) := by
  have hec : (if addenv then (envsize envvar).1 else 0) = (initStrings envvar addenv).length := by
    rw [envsize_eq]
    cases addenv <;> rfl
  unfold initstack buildStores
  rw [hec]
  simp only [apply_append]
  by_cases hnone : (initStrings envvar addenv).length = 0
  · rw [List.length_eq_zero_iff.mp hnone]
    rfl
  · have hadd : initStrings envvar addenv = envStrings envvar := by
      cases addenv with
      | true => rfl
      | false => exact absurd rfl hnone
    rw [if_pos hnone, apply_envbuild, hadd]
    rfl

theorem initSize_eq (addenv : Bool) :
    initSize argv envvar addenv = stacklen argv.length (initStrings envvar addenv).length
      ((layout (initStrings envvar addenv)).length + argvLen argv) := by
  unfold initSize
  rw [envsize_eq]
  cases addenv <;> rfl

/-- The stores that build the block are inside it. -/
theorem goLoadedElf_inside {t : Store} (h : t ∈ goLoadedElf argv envvar nsp) :
    t.Inside nsp (blockSize argv envvar) ∨ t = ⟨nsp - 32, List.replicate 32 0⟩ := by
  have hsize := le_stacklen argv.length (envStrings envvar).length
    ((layout (envStrings envvar)).length + argvLen argv)
  rw [← blockSize_eq] at hsize
  have hvector : vectorlen argv.length (envStrings envvar).length =
      4 * argv.length + 4 + 4 * (envStrings envvar).length + 4 := by
    unfold vectorlen
    omega
  have hargv := argvLen_eq argv
  unfold goLoadedElf at h
  rw [envsize_eq] at h
  simp only [List.mem_append, List.mem_cons, List.not_mem_nil, or_false] at h
  unfold Store.Inside
  rcases h with (((rfl | rfl) | h) | rfl) | h
  · left
    simp only [List.length_replicate]
    omega
  · exact Or.inr rfl
  · left
    rcases copyStrings_inside h with h | h
    all_goals
      unfold Store.Inside at h
      omega
  · left
    simp only [length_wordBytes]
    omega
  · left
    split at h
    · rcases envbuild_inside h with h | h
      all_goals
        unfold Store.Inside at h
        omega
    · cases h

/-- The block of `go_loaded_elf` is built as it should be, and all of its stores are in it. -/
structure BuiltInside (argv : List CString) (envvar : List EnvPair) (nsp : ℕ) (m : Bytes) :
    Prop where
  block : ∃ as es, ArgBlock (m.apply (goLoadedElf argv envvar nsp)) nsp (blockSize argv envvar)
    argv (envStrings envvar) as es
  inside : ∀ t ∈ goLoadedElf argv envvar nsp, t.Inside nsp (blockSize argv envvar)

/-- The `n` bytes from `nsp` on have 32 bytes below them, and are in the address space. -/
structure Room (nsp n : ℕ) : Prop where
  below : 32 ≤ nsp
  fits : nsp + n ≤ 2 ^ 32

/-- Both functions build their block, but `go_loaded_elf` always clears 32 bytes below what it
has got from `malloc`, and nothing else outside. -/
theorem goLoadedElf_not_inside (argv : List CString) (envvar : List EnvPair) (addenv : Bool)
    (nsp sp : ℕ) (m : Bytes) (hgo : Room nsp (blockSize argv envvar))
    (hinit : Room sp (initSize argv envvar addenv)) :
    (∃ as es, ArgBlock (m.apply (goLoadedElf argv envvar nsp)) nsp (blockSize argv envvar) argv
        (envStrings envvar) as es) ∧
      (∃ as es, ArgBlock (m.apply (initstack argv envvar addenv sp)) sp
        (initSize argv envvar addenv) argv (initStrings envvar addenv) as es) ∧
      (∀ t ∈ goLoadedElf argv envvar nsp,
        t.Inside nsp (blockSize argv envvar) ∨ t = ⟨nsp - 32, List.replicate 32 0⟩) ∧
      ¬BuiltInside argv envvar nsp m := by
  refine ⟨?_, ?_, fun t => goLoadedElf_inside, ?_⟩
  · rw [apply_goLoadedElf hgo.below]
    refine ⟨_, _, argBlock_build ?_ hgo.fits⟩
    have := le_stacklen argv.length (envStrings envvar).length
      ((layout (envStrings envvar)).length + argvLen argv)
    rw [blockSize_eq]
    omega
  · rw [apply_initstack]
    refine ⟨_, _, argBlock_build ?_ hinit.fits⟩
    have := le_stacklen argv.length (initStrings envvar addenv).length
      ((layout (initStrings envvar addenv)).length + argvLen argv)
    rw [initSize_eq]
    omega
  · intro h
    have hbelow := (h.inside ⟨nsp - 32, List.replicate 32 0⟩ (by simp [goLoadedElf])).1
    have := hgo.below
    dsimp only at hbelow
    omega

end Block

/-! ## An example -/

/-- A table with a free slot and a variable without a value. -/
def smallTab : List EnvPair :=
  [⟨some (cstr "al"), some (cstr "mtd0")⟩, ⟨none, none⟩, ⟨some (cstr "TZ"), none⟩]

theorem goLoadedElf_not_inside_small :
    (∃ as es, ArgBlock (Bytes.apply (fun _ => 0) (initstack [cstr "g"] smallTab true 0x80f00000))
      0x80f00000 (initSize [cstr "g"] smallTab true) [cstr "g"]
        [cstr "al=mtd0", cstr "TZ="] as es) ∧
      ¬BuiltInside [cstr "g"] smallTab 0x81000000 fun _ => 0 := by
  have h := goLoadedElf_not_inside [cstr "g"] smallTab true 0x81000000 0x80f00000 (fun _ => 0)
    ⟨by decide, by decide⟩ ⟨by decide, by decide⟩
  have hstrings : initStrings smallTab true = [cstr "al=mtd0", cstr "TZ="] := by decide
  rw [hstrings] at h
  exact ⟨h.2.1, h.2.2.2⟩

/-- Even without variables 32 bytes below the block are cleared. -/
theorem goLoadedElf_clears_below : ¬BuiltInside [cstr "g"] [] 0x81000000 fun _ => 0 := by
  intro h
  have hbelow := (h.inside ⟨0x81000000 - 32, List.replicate 32 0⟩ (by simp [goLoadedElf])).1
  revert hbelow
  decide

end Boot

end LuojiOs
