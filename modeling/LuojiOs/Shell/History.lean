import LuojiOs.Shell.Refinement
import LuojiOs.Support.Recent

/-!
# The history of the shell

The return key pushes the line into the history.  After any number of lines the history is a
window over what was typed: the last `FINSH_HISTORY_LINES` lines, where an empty line and a line
that repeats the one before it do not count.
-/

namespace LuojiOs

namespace Shell

open Editor

/-- The return key, when the line holds `t`. -/
def commit (sh : FinshShell) (t : List (BitVec 8)) : Option FinshShell :=
  { sh with line := lineOf t, lineCharCounter := t.length }.enterKey

/-- What the history keeps of the lines, oldest first. -/
def keptLines (lines : List (List (BitVec 8))) : List (List (BitVec 8)) :=
  Recent.recent FINSH_HISTORY_LINES (lines.filter (· ≠ []))

section Commits

variable {memory sh : FinshShell} {lines rows history : List (List (BitVec 8))}
  {t : List (BitVec 8)}

theorem keptLines_concat : keptLines (lines ++ [t]) = remember t (keptLines lines) := by
  unfold keptLines remember
  by_cases hnil : t = []
  · have hdropped : (lines ++ [t]).filter (· ≠ []) = lines.filter (· ≠ []) := by
      rw [List.filter_append, hnil]
      exact List.append_nil _
    rw [hdropped, if_pos (Or.inl hnil)]
  · have hkept : (lines ++ [t]).filter (· ≠ []) = lines.filter (· ≠ []) ++ [t] := by
      rw [List.filter_append, List.filter_singleton, decide_eq_true hnil]
      rfl
    rw [hkept]
    refine Recent.recent_concat.trans ?_
    simp only [hnil, false_or]
    rfl

theorem isLine_of_mem_keptLines (hlines : ∀ t ∈ lines, IsLine t) :
    ∀ t ∈ keptLines lines, IsLine t :=
  fun t ht => hlines t (List.mem_of_mem_filter (Recent.mem_of_mem_recent ht))

theorem commit_eq (h : Recalls sh history) (ht : IsLine t) :
    ∃ sh', commit sh t = some sh' ∧ Recalls sh' (remember t history) ∧
      sh'.currentHistory = sh'.historyCount := by
  have hline : Recalls { sh with line := lineOf t, lineCharCounter := t.length } history :=
    ⟨h.stores, h.count, h.length_le, h.lines⟩
  obtain ⟨rows, hs, henter⟩ := enterKey_eq hline ht rfl rfl
  refine ⟨_, henter, ⟨hs, rfl, length_remember h.length_le, ?_⟩, rfl⟩
  intro u hu
  rcases mem_remember hu with hold | rfl
  · exact h.lines u hold
  · exact ht

theorem recalls_commits (h : EmptyHistory memory) (hlines : ∀ t ∈ lines, IsLine t) :
    ∃ sh, Runs.run commit memory lines = some sh ∧ Recalls sh (keptLines lines) ∧
      sh.currentHistory = sh.historyCount := by
  induction lines using List.reverseRecOn with
  | nil =>
      have hstores : Editor.Stores memory.cmdHistory (keptLines []) :=
        ⟨h.rows, fun i hi => absurd hi (Nat.not_lt_zero i)⟩
      have hrecalls : Recalls memory (keptLines []) :=
        ⟨hstores, h.count, Nat.zero_le _, isLine_of_mem_keptLines hlines⟩
      exact ⟨memory, rfl, hrecalls, h.current.trans h.count.symm⟩
  | append_singleton lines t ih =>
      obtain ⟨sh, hrun, hrecalls, -⟩ :=
        ih fun u hu => hlines u (List.mem_append_left [t] hu)
      have ht : IsLine t := hlines t (List.mem_append_right lines List.mem_cons_self)
      obtain ⟨sh', hcommit, hrecalls', hcurrent⟩ := commit_eq hrecalls ht
      refine ⟨sh', ?_, ?_, hcurrent⟩
      · rw [Runs.run_concat, hrun]
        exact hcommit
      · rw [keptLines_concat]
        exact hrecalls'

/-- The first rows of the array are the texts of the history. -/
theorem take_rows (hs : Editor.Stores rows history) :
    rows.take history.length = history.map lineOf := by
  apply List.ext_getElem?
  intro i
  rw [List.getElem?_take, List.getElem?_map]
  by_cases hi : i < history.length
  · rw [if_pos hi, hs.row i hi, List.getD_eq_getElem?_getD, List.getElem?_eq_getElem hi]
    rfl
  · rw [if_neg hi, List.getElem?_eq_none (Nat.not_lt.mp hi)]
    rfl

/-- After any lines the history holds the last ones of them, and the next line to recall is
behind them. -/
theorem history_holds_last_lines (h : EmptyHistory memory) (hlines : ∀ t ∈ lines, IsLine t) :
    ∃ sh, Runs.run commit memory lines = some sh ∧
      sh.cmdHistory.take sh.historyCount = (keptLines lines).map lineOf ∧
      sh.historyCount = (keptLines lines).length ∧ sh.currentHistory = sh.historyCount := by
  obtain ⟨sh, hrun, hrecalls, hcurrent⟩ := recalls_commits h hlines
  refine ⟨sh, hrun, ?_, hrecalls.count, hcurrent⟩
  rw [hrecalls.count]
  exact take_rows hrecalls.stores

/-- An empty line and a repeated one leave no trace. -/
theorem history_holds_last_lines_small :
    ∃ sh, Runs.run commit blankMemory [cstr "ls", [], cstr "ls", cstr "help"] = some sh ∧
      sh.cmdHistory.take sh.historyCount = [lineOf (cstr "ls"), lineOf (cstr "help")] ∧
      sh.currentHistory = 2 := by
  have hlines : ∀ t ∈ [cstr "ls", [], cstr "ls", cstr "help"], IsLine t := by
    intro t ht
    have hcheck : t.length < FINSH_CMD_SIZE ∧ 0 ∉ t := by
      revert t
      decide
    exact ⟨hcheck.1, hcheck.2⟩
  have hkept : keptLines [cstr "ls", [], cstr "ls", cstr "help"] = [cstr "ls", cstr "help"] := by
    decide
  obtain ⟨sh, hrun, hrows, hcount, hcurrent⟩ :=
    history_holds_last_lines emptyHistory_blankMemory hlines
  rw [hkept] at hrows hcount
  exact ⟨sh, hrun, hrows, hcurrent.trans hcount⟩

end Commits

end Shell

end LuojiOs
