import LuojiOs.Shell.Refinement

/-!
# Command completion

The loop of `msh_auto_complete` compares every matching command with the first one only, and
keeps the least length.  The line it leaves is nevertheless the longest text that all matching
commands begin with.
-/

namespace LuojiOs

namespace Shell

open Editor

/-- `u` is the longest text that all of `texts` begin with. -/
structure LongestCommonPrefix (u : CString) (texts : List CString) : Prop where
  common : ∀ s ∈ texts, u <+: s
  longest : ∀ v, (∀ s ∈ texts, v <+: s) → v <+: u

section Completion

variable {sh : FinshShell} {tab : SymTab} {t u : CString} {texts : List CString}

theorem longestCommonPrefix_commonPrefixes :
    LongestCommonPrefix (Text.commonPrefixes t texts) (t :: texts) := by
  constructor
  · intro s hs
    have hself := Text.prefix_commonPrefixes_iff.mp
      (@List.prefix_rfl _ (Text.commonPrefixes t texts))
    rcases List.mem_cons.mp hs with rfl | hs
    · exact hself.1
    · exact hself.2 s hs
  · intro v hv
    exact Text.prefix_commonPrefixes_iff.mpr ⟨hv t List.mem_cons_self,
      fun s hs => hv s (List.mem_cons_of_mem _ hs)⟩

/-- There is one such text at most. -/
theorem LongestCommonPrefix.eq (ht : LongestCommonPrefix t texts)
    (hu : LongestCommonPrefix u texts) : t = u :=
  (hu.longest t ht.common).eq_of_length_le (ht.longest u hu.common).length_le

theorem completion_longest (hne : t ≠ []) (hmatch : matching t tab.names ≠ []) :
    LongestCommonPrefix (tab.completion t) (matching t tab.names) := by
  rw [completion_eq hne]
  cases hall : matching t tab.names with
  | nil => exact absurd hall hmatch
  | cons command commands => exact longestCommonPrefix_commonPrefixes

/-- A command that the line names is the longest common prefix of those that begin with it. -/
theorem completion_of_mem (hmem : t ∈ matching t tab.names) (hne : t ≠ []) :
    tab.completion t = t := by
  have hlongest := completion_longest hne (List.ne_nil_of_mem hmem)
  refine hlongest.eq ⟨fun s hs => (mem_matching hs).1, fun v hv => hv t hmem⟩

/-- The line is extended to the longest common prefix of the commands that begin with it. -/
theorem mshAutoComplete_longest (hline : sh.line = lineOf t) (ht : IsLine t) (hne : t ≠ []) :
    ∃ u, sh.mshAutoComplete tab = some { sh with line := lineOf u } ∧ IsLine u ∧ t <+: u ∧
      (tab.commands.filter t.isPrefixOf ≠ [] →
        LongestCommonPrefix u (tab.commands.filter t.isPrefixOf)) ∧
      (tab.commands.filter t.isPrefixOf = [] → u = t) ∧
      (t ∈ tab.commands → u = t) := by
  obtain ⟨hpre, hlast⟩ := completion_spec tab ht
  refine ⟨tab.completion t, mshAutoComplete_eq hline ht, hlast, hpre, completion_longest hne,
    ?_, ?_⟩
  · intro hnone
    have hmatch : matching t tab.names = [] := hnone
    rw [completion_eq hne, hmatch]
  · intro hmem
    have hself : t ∈ matching t tab.names :=
      List.mem_filter.mpr ⟨hmem, List.isPrefixOf_iff_prefix.mpr List.prefix_rfl⟩
    exact completion_of_mem hself hne

/-- Two of the three commands begin with the line, and one of them is a beginning of the other. -/
theorem mshAutoComplete_longest_small :
    ∃ sh, ({ blankMemory with line := lineOf (cstr "li") } : FinshShell).mshAutoComplete smallTab =
      some sh ∧ sh.line = lineOf (cstr "list") := by
  have ht : IsLine (cstr "li") := ⟨by decide, by decide⟩
  obtain ⟨u, hrun, -, -, hlongest, -, -⟩ := @mshAutoComplete_longest
    { blankMemory with line := lineOf (cstr "li") } smallTab (cstr "li") rfl ht (by decide)
  have hmatch : smallTab.commands.filter (cstr "li").isPrefixOf =
      [cstr "list", cstr "listmem"] := by
    decide
  rw [hmatch] at hlongest
  have hlist : LongestCommonPrefix (cstr "list") [cstr "list", cstr "listmem"] := by
    exact ⟨by decide, fun v hv => hv _ List.mem_cons_self⟩
  have hu : u = cstr "list" := (hlongest (by decide)).eq hlist
  exact ⟨_, hrun, congrArg lineOf hu⟩

end Completion

end Shell

end LuojiOs
