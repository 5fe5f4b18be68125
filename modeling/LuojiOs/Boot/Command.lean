import LuojiOs.Env.Table
import LuojiOs.Support.Checked

/-!
# The command line of the kernel

`g` joins its arguments, the variable `append` and the variable `mtdparts` to the line that
the kernel gets.  The last part goes through a buffer of 30 bytes.
-/

namespace LuojiOs

namespace Boot

open Bytes

def LINESZ : ℕ := 256

/-- The size of `buf` in `g`. -/
def bufSize : ℕ := 30

/-- `while (optind < argc)` -/
def catArgs : List CString → Bytes → Option Bytes
  | [], clientcmd => some clientcmd
  | arg :: argv, clientcmd => do
    let clientcmd ← clientcmd.strcat LINESZ arg
    let clientcmd ← clientcmd.strcat LINESZ (cstr " ")
    catArgs argv clientcmd

/-- `g` up to the call of `argvize`, which gets the contents of `clientcmd`.  There is no
result if a variable is not set or if a byte behind one of the buffers is accessed. -/
def g (argv : List CString) (clientcmd buf : Bytes) (σ : Env) : Option Bytes := do
  let clientcmd ← catArgs argv (clientcmd.fill 0 0 LINESZ)
  let append ← getenv (cstr "append") σ
  let clientcmd ← clientcmd.strcat LINESZ append
  let clientcmd ← clientcmd.strcat LINESZ (cstr " ")
  let mtdparts ← getenv (cstr "mtdparts") σ
  let buf ← buf.writeIn bufSize 0 (cstr "mtdparts=" ++ mtdparts ++ cstr " " ++ [0])
  let part ← buf.stringIn bufSize bufSize 0
  clientcmd.strcat LINESZ part

/-- The arguments, each with a space behind it. -/
def argsText (argv : List CString) : CString := argv.flatMap (· ++ cstr " ")

/-- The line that `g` is meant to make. -/
def commandText (argv : List CString) (append mtdparts : CString) : CString :=
  argsText argv ++ append ++ cstr " " ++ (cstr "mtdparts=" ++ mtdparts ++ cstr " ")

section Command

variable {argv : List CString} {append mtdparts t : CString} {m clientcmd buf : Bytes} {σ : Env}

theorem argsText_cons {arg : CString} :
    argsText (arg :: argv) = arg ++ cstr " " ++ argsText argv := by
  unfold argsText
  rw [List.flatMap_cons]

theorem clean_space : ∀ c ∈ cstr " ", c ≠ 0 := by decide

/-- The arguments are joined if they fit. -/
theorem catArgs_spec (h : m.HoldsString t) (hargs : ∀ arg ∈ argv, ∀ c ∈ arg, c ≠ 0)
    (hfit : t.length + (argsText argv).length < LINESZ) :
    ∃ m', catArgs argv m = some m' ∧ m'.HoldsString (t ++ argsText argv) := by
  induction argv generalizing m t with
  | nil => exact ⟨m, rfl, by simpa [argsText] using h⟩
  | cons arg argv ih =>
      rw [argsText_cons, List.length_append, List.length_append] at hfit
      obtain ⟨m₁, hm₁, h₁⟩ := h.strcat (hargs arg List.mem_cons_self)
        (show t.length + arg.length < LINESZ by omega)
      obtain ⟨m₂, hm₂, h₂⟩ := h₁.strcat clean_space
        (show (t ++ arg).length + (cstr " ").length < LINESZ by rw [List.length_append]; omega)
      obtain ⟨m', hm', h'⟩ := ih h₂ (fun a ha => hargs a (List.mem_cons_of_mem arg ha)) (by
        rw [List.length_append, List.length_append]
        omega)
      refine ⟨m', ?_, ?_⟩
      · unfold catArgs
        rw [hm₁, Option.bind_eq_bind, Option.bind_some, hm₂]
        exact hm'
      · rwa [argsText_cons, ← List.append_assoc, ← List.append_assoc]

/-- What has been joined does fit. -/
theorem catArgs_some {m' : Bytes} (h : m.HoldsString t) (ht : t.length < LINESZ)
    (hargs : ∀ arg ∈ argv, ∀ c ∈ arg, c ≠ 0) (hrun : catArgs argv m = some m') :
    t.length + (argsText argv).length < LINESZ ∧ m'.HoldsString (t ++ argsText argv) := by
  induction argv generalizing m t with
  | nil =>
      obtain rfl := Option.some.inj hrun
      exact ⟨by simpa [argsText] using ht, by simpa [argsText] using h⟩
  | cons arg argv ih =>
      unfold catArgs at hrun
      obtain ⟨m₁, hm₁, hrun⟩ := Option.bind_eq_some_iff.mp hrun
      obtain ⟨m₂, hm₂, hrun⟩ := Option.bind_eq_some_iff.mp hrun
      obtain ⟨hfit₁, h₁⟩ := h.of_strcat ht (hargs arg List.mem_cons_self) hm₁
      rw [← List.length_append] at hfit₁
      obtain ⟨hfit₂, h₂⟩ := h₁.of_strcat hfit₁ clean_space hm₂
      rw [← List.length_append] at hfit₂
      obtain ⟨hfit, h'⟩ := ih h₂ hfit₂ (fun a ha => hargs a (List.mem_cons_of_mem arg ha)) hrun
      rw [← List.length_append] at hfit ⊢
      rw [argsText_cons, ← List.append_assoc, ← List.append_assoc]
      exact ⟨hfit, h'⟩

/-- The part of the line that goes through `buf`. -/
def mtdpartsText (mtdparts : CString) : CString := cstr "mtdparts=" ++ mtdparts ++ cstr " "

theorem length_mtdpartsText (mtdparts : CString) :
    (mtdpartsText mtdparts).length = mtdparts.length + 10 := by
  have hname : (cstr "mtdparts=").length = 9 := by decide
  have hspace : (cstr " ").length = 1 := rfl
  unfold mtdpartsText
  rw [List.length_append, List.length_append, hname, hspace]
  omega

theorem clean_mtdpartsText (hm : ∀ c ∈ mtdparts, c ≠ 0) : ∀ c ∈ mtdpartsText mtdparts, c ≠ 0 := by
  have hname : ∀ c ∈ cstr "mtdparts=", c ≠ 0 := by decide
  intro c hc
  unfold mtdpartsText at hc
  rcases List.mem_append.mp hc with hc | hc
  · exact (List.mem_append.mp hc).elim (hname c) (hm c)
  · exact clean_space c hc

/-- The text with its NUL fits into `buf` if `mtdparts` has at most 19 characters. -/
theorem sprintf_buf (buf : Bytes) (hm : ∀ c ∈ mtdparts, c ≠ 0) (hfit : mtdparts.length ≤ 19) :
    ∃ buf', buf.writeIn bufSize 0 (mtdpartsText mtdparts ++ [0]) = some buf' ∧
      buf'.stringIn bufSize bufSize 0 = some (mtdpartsText mtdparts) := by
  have hlen := length_mtdpartsText mtdparts
  have hsize : bufSize = 30 := rfl
  refine ⟨_, writeIn_of_le ?_, ?_⟩
  · rw [List.length_append, List.length_singleton]
    omega
  · exact stringIn_of_reads reads_write (clean_mtdpartsText hm) (by omega) (by omega)

theorem length_argsText (argv : List CString) :
    (argsText argv).length = (argv.map fun arg => arg.length + 1).sum := by
  induction argv with
  | nil => rfl
  | cons arg argv ih =>
      rw [argsText_cons, List.length_append, List.length_append, ih, List.map_cons, List.sum_cons]
      rfl

/-- `g` stays inside its two buffers and hands on the line. -/
def Assembles (argv : List CString) (append mtdparts : CString) (clientcmd buf : Bytes)
    (σ : Env) : Prop :=
  ∃ line, g argv clientcmd buf σ = some line ∧
    line.HoldsString (commandText argv append mtdparts)

theorem holdsString_clear (clientcmd : Bytes) : (clientcmd.fill 0 0 LINESZ).HoldsString [] :=
  ⟨⟨if_pos ⟨Nat.le_refl 0, by decide⟩, trivial⟩, nofun⟩

/-- The variables and arguments of one call. -/
structure Given (argv : List CString) (append mtdparts : CString) (σ : Env) : Prop where
  getenv_append : getenv (cstr "append") σ = some append
  getenv_mtdparts : getenv (cstr "mtdparts") σ = some mtdparts
  argv_clean : ∀ arg ∈ argv, ∀ c ∈ arg, c ≠ 0
  append_clean : ∀ c ∈ append, c ≠ 0
  mtdparts_clean : ∀ c ∈ mtdparts, c ≠ 0

/-- The two texts fit into the two buffers. -/
def Fits (argv : List CString) (append mtdparts : CString) : Prop :=
  mtdparts.length ≤ 19 ∧
    (argv.map fun arg => arg.length + 1).sum + append.length + mtdparts.length ≤ 244

instance (argv : List CString) (append mtdparts : CString) :
    Decidable (Fits argv append mtdparts) :=
  inferInstanceAs (Decidable (_ ∧ _))

theorem Assembles.fits (h : Given argv append mtdparts σ)
    (hrun : Assembles argv append mtdparts clientcmd buf σ) : Fits argv append mtdparts := by
  have hsize : LINESZ = 256 := rfl
  have hspace : (cstr " ").length = 1 := rfl
  have hpart := length_mtdpartsText mtdparts
  have hsum := length_argsText argv
  have hzero : ([] : CString).length = 0 := rfl
  obtain ⟨line, hrun, -⟩ := hrun
  unfold g at hrun
  obtain ⟨m₁, hm₁, hrun⟩ := Option.bind_eq_some_iff.mp hrun
  obtain ⟨a, ha', hrun⟩ := Option.bind_eq_some_iff.mp hrun
  obtain rfl := Option.some.inj (h.getenv_append.symm.trans ha')
  obtain ⟨m₂, hm₂, hrun⟩ := Option.bind_eq_some_iff.mp hrun
  obtain ⟨m₃, hm₃, hrun⟩ := Option.bind_eq_some_iff.mp hrun
  obtain ⟨v, hv, hrun⟩ := Option.bind_eq_some_iff.mp hrun
  obtain rfl := Option.some.inj (h.getenv_mtdparts.symm.trans hv)
  obtain ⟨buf', hbuf, hrun⟩ := Option.bind_eq_some_iff.mp hrun
  obtain ⟨part, hread, hrun⟩ := Option.bind_eq_some_iff.mp hrun
  have hshort : mtdparts.length ≤ 19 := by
    by_contra hlong
    have hnone : buf.writeIn bufSize 0 (mtdpartsText mtdparts ++ [0]) = none := by
      apply writeIn_of_lt (Nat.zero_le _)
      rw [List.length_append, List.length_singleton, hpart]
      unfold bufSize
      omega
    cases hnone.symm.trans hbuf
  obtain ⟨buf'', hbuf'', hstring⟩ := sprintf_buf buf h.mtdparts_clean hshort
  obtain rfl := Option.some.inj (hbuf''.symm.trans hbuf)
  obtain rfl := Option.some.inj (hstring.symm.trans hread)
  obtain ⟨hfit₁, h₁⟩ := catArgs_some (holdsString_clear clientcmd) (by decide) h.argv_clean hm₁
  rw [hzero, Nat.zero_add] at hfit₁
  obtain ⟨hfit₂, h₂⟩ := h₁.of_strcat hfit₁ h.append_clean hm₂
  rw [← List.length_append] at hfit₂
  obtain ⟨hfit₃, h₃⟩ := h₂.of_strcat hfit₂ clean_space hm₃
  rw [← List.length_append] at hfit₃
  obtain ⟨hfit₄, -⟩ := h₃.of_strcat hfit₃ (clean_mtdpartsText h.mtdparts_clean) hrun
  simp only [List.length_append, List.nil_append] at hfit₄
  exact ⟨hshort, by omega⟩

theorem Fits.assembles (h : Given argv append mtdparts σ) (hfits : Fits argv append mtdparts)
    (clientcmd buf : Bytes) : Assembles argv append mtdparts clientcmd buf σ := by
  have hsize : LINESZ = 256 := rfl
  have hspace : (cstr " ").length = 1 := rfl
  have hpart := length_mtdpartsText mtdparts
  have hsum := length_argsText argv
  obtain ⟨hshort, hfit⟩ := hfits
  obtain ⟨m₁, hm₁, h₁⟩ := catArgs_spec (holdsString_clear clientcmd) h.argv_clean
    (show ([] : CString).length + (argsText argv).length < LINESZ by
      rw [List.length_nil]
      omega)
  rw [List.nil_append] at h₁
  obtain ⟨m₂, hm₂, h₂⟩ := h₁.strcat h.append_clean (show _ < LINESZ by omega)
  obtain ⟨m₃, hm₃, h₃⟩ := h₂.strcat clean_space (show _ < LINESZ by
    rw [List.length_append]
    omega)
  obtain ⟨line, hline, h₄⟩ := h₃.strcat (clean_mtdpartsText h.mtdparts_clean) (show _ < LINESZ by
    rw [List.length_append, List.length_append]
    omega)
  obtain ⟨buf', hbuf, hstring⟩ := sprintf_buf buf h.mtdparts_clean hshort
  refine ⟨line, ?_, h₄⟩
  refine Option.bind_eq_some_iff.mpr ⟨m₁, hm₁, ?_⟩
  refine Option.bind_eq_some_iff.mpr ⟨append, h.getenv_append, ?_⟩
  refine Option.bind_eq_some_iff.mpr ⟨m₂, hm₂, ?_⟩
  refine Option.bind_eq_some_iff.mpr ⟨m₃, hm₃, ?_⟩
  refine Option.bind_eq_some_iff.mpr ⟨mtdparts, h.getenv_mtdparts, ?_⟩
  refine Option.bind_eq_some_iff.mpr ⟨buf', hbuf, ?_⟩
  exact Option.bind_eq_some_iff.mpr ⟨_, hstring, hline⟩

/-- `g` makes the line for the kernel if and only if the two texts fit. -/
theorem g_assembles_iff (h : Given argv append mtdparts σ) (clientcmd buf : Bytes) :
    Assembles argv append mtdparts clientcmd buf σ ↔ Fits argv append mtdparts :=
  ⟨Assembles.fits h, fun hfits => hfits.assembles h clientcmd buf⟩

end Command

/-! ## Two environments -/

/-- The environment with the variables `tab`. -/
def tableEnv (tab : List (CString × CString)) : Env where
  flash := fun _ => 0
  nvramInvalid := 0
  envvar := tab.map fun p => ⟨some p.1, some p.2⟩
  envinited := true

/-- Short values for the kernel. -/
def shortTab : List (CString × CString) :=
  [(cstr "append", cstr "root=/dev/mtdblock1"), (cstr "mtdparts", cstr "spi-flash:1M(all)")]

theorem clean_of_all {t : CString} (h : t.all (· != 0) = true) : ∀ c ∈ t, c ≠ 0 :=
  fun c hc => bne_iff_ne.mp (List.all_eq_true.mp h c hc)

theorem g_assembles_short :
    Assembles [cstr "g"] (cstr "root=/dev/mtdblock1") (cstr "spi-flash:1M(all)") (fun _ => 0)
      (fun _ => 0) (tableEnv shortTab) :=
  (g_assembles_iff ⟨by decide, by decide, by decide, clean_of_all (by decide +kernel),
    clean_of_all (by decide +kernel)⟩ _ _).mpr (by decide)

/-- The default value of `mtdparts` does not fit into the buffer. -/
theorem g_overflows_by_default :
    ∃ append mtdparts, Given [cstr "g"] append mtdparts (tableEnv stdenvtab) ∧
      ∀ clientcmd buf, ¬Assembles [cstr "g"] append mtdparts clientcmd buf (tableEnv stdenvtab) := by
  have happend : (getenv (cstr "append") (tableEnv stdenvtab)).any (·.all (· != 0)) = true := by
    decide +kernel
  have hmtdparts : (getenv (cstr "mtdparts") (tableEnv stdenvtab)).any
      (fun v => v.all (· != 0) && decide (19 < v.length)) = true := by
    decide +kernel
  obtain ⟨append, happend, hclean⟩ := (Option.any_eq_true ..).mp happend
  obtain ⟨mtdparts, hmtdparts, hlong⟩ := (Option.any_eq_true ..).mp hmtdparts
  obtain ⟨hclean', hlong⟩ := Bool.and_eq_true_iff.mp hlong
  have hgiven : Given [cstr "g"] append mtdparts (tableEnv stdenvtab) :=
    ⟨happend, hmtdparts, by decide, clean_of_all hclean, clean_of_all hclean'⟩
  refine ⟨append, mtdparts, hgiven, ?_⟩
  intro clientcmd buf hrun
  exact absurd (hrun.fits hgiven).1 (not_le.mpr (of_decide_eq_true hlong))

end Boot

end LuojiOs
