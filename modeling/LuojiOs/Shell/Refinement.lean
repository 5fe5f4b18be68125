import LuojiOs.Shell.Editor
import Mathlib.Data.List.Induction
import Mathlib.Data.List.Infix

/-!
# The shell edits its line

Until a line would reach `FINSH_CMD_SIZE` bytes, each round of `shell_thread_entry` does to the
memory of the shell what the editor does.  The byte that fills the line clears the counters
but leaves the bytes of the line where they are.
-/

namespace LuojiOs

namespace Shell

open Text Editor

section Round

variable {ed : Editor} {rows : List (List (BitVec 8))} {c : BitVec 8} {tab : SymTab}
  {stat : InputStat} {sh : FinshShell}

theorem setEscape_valid (h : ed.Valid) (stat : InputStat) : { ed with escape := stat }.Valid :=
  ⟨h.text, h.cursor_le, h.history_le, h.lines, h.place_le⟩

/-- A byte outside of an escape sequence, or the one that ends it. -/
theorem leads_plain (h : ed.Valid) (hs : Editor.Stores rows ed.history)
    (hcalm : ¬(ed.text.length + 1 = FINSH_CMD_SIZE ∧ ∃ d, plainKey c = some (.char d)))
    (stat : InputStat) :
    Leads (({ ed with escape := stat }.shell rows).inputKey tab c)
      ((plainKey c).elim { ed with escape := stat } ({ ed with escape := stat }.press tab)) :=
  leads_inputKey (setEscape_valid h stat) hs hcalm

/-- A round that does not fill the line does what the editor does. -/
theorem leads_round (h : ed.Valid) (hs : Editor.Stores rows ed.history) (hcalm : ¬ed.Fills c) :
    Leads ((ed.shell rows).round tab c) (ed.input tab c) := by
  unfold Fills decode at hcalm
  unfold FinshShell.round Editor.input decode
  by_cases hsign : c.toInt < 0
  · rw [if_pos hsign, if_pos hsign]
    exact ⟨h, rows, hs, rfl⟩
  rw [if_neg hsign] at hcalm
  rw [if_neg hsign, if_neg hsign]
  by_cases hescape : c = 0x1b
  · rw [if_pos hescape, if_pos hescape]
    exact ⟨setEscape_valid h _, rows, hs, rfl⟩
  rw [if_neg hescape] at hcalm
  rw [if_neg hescape, if_neg hescape]
  obtain ⟨escape, text, cursor, history, place, executed⟩ := ed
  cases escape with
  | waitNormal => exact leads_plain h hs hcalm .waitNormal
  | waitSpecKey =>
      dsimp only [shell] at hcalm ⊢
      by_cases hbracket : c = 0x5b
      · rw [if_pos hbracket, if_pos hbracket]
        exact ⟨setEscape_valid h _, rows, hs, rfl⟩
      · rw [if_neg hbracket] at hcalm
        rw [if_neg hbracket, if_neg hbracket]
        exact leads_plain h hs hcalm .waitNormal
  | waitFuncKey =>
      dsimp only [shell] at hcalm ⊢
      have hnormal := setEscape_valid h .waitNormal
      by_cases hup : c = 0x41
      · rw [if_pos hup, if_pos hup]
        exact leads_press hnormal hs (by simp) (by simp) (upKey_shell hnormal hs)
      rw [if_neg hup] at hcalm
      rw [if_neg hup, if_neg hup]
      by_cases hdown : c = 0x42
      · rw [if_pos hdown, if_pos hdown]
        exact leads_press hnormal hs (by simp) (by simp) (downKey_shell hnormal hs)
      rw [if_neg hdown] at hcalm
      rw [if_neg hdown, if_neg hdown]
      by_cases hleft : c = 0x44
      · rw [if_pos hleft, if_pos hleft]
        have hleft := @leftKey_shell ⟨.waitNormal, text, cursor, history, place, executed⟩ rows tab
        exact leads_press hnormal hs (by simp) (by simp) (congrArg some hleft)
      rw [if_neg hleft] at hcalm
      rw [if_neg hleft, if_neg hleft]
      by_cases hright : c = 0x43
      · rw [if_pos hright, if_pos hright]
        exact leads_press hnormal hs (by simp) (by simp) (congrArg some (rightKey_shell hnormal))
      rw [if_neg hright] at hcalm
      rw [if_neg hright, if_neg hright]
      exact leads_plain h hs hcalm .waitNormal

/-- A normal character is taken as such wherever the escape sequence stands. -/
theorem inputKey_of_char {d : BitVec 8} (h : plainKey c = some (.char d)) :
    sh.inputKey tab c = sh.normalChar c := by
  unfold FinshShell.inputKey
  unfold plainKey at h
  split at h
  · cases h
  · next hzero =>
    split at h
    · cases h
    · next htab =>
      split at h
      · cases h
      · next herase =>
        split at h
        · cases h
        · next henter => rw [if_neg hzero, if_neg htab, if_neg herase, if_neg henter]

theorem round_of_char {d : BitVec 8} (h : (decode sh.stat c).2 = some (.char d)) :
    sh.round tab c = { sh with stat := .waitNormal }.normalChar c := by
  unfold decode at h
  unfold FinshShell.round
  split at h
  · cases h
  · next hsign =>
    rw [if_neg hsign]
    split at h
    · cases h
    · next hescape =>
      rw [if_neg hescape]
      obtain ⟨stat, currentHistory, historyCount, cmdHistory, line, counter, curpos, executed⟩ := sh
      cases stat with
      | waitNormal => exact inputKey_of_char h
      | waitSpecKey =>
          dsimp only at h ⊢
          split at h
          · cases h
          · next hbracket =>
            rw [if_neg hbracket]
            exact inputKey_of_char h
      | waitFuncKey =>
          dsimp only at h ⊢
          split at h
          · cases h
          · next hup =>
            split at h
            · cases h
            · next hdown =>
              split at h
              · cases h
              · next hleft =>
                split at h
                · cases h
                · next hright =>
                  rw [if_neg hup, if_neg hdown, if_neg hleft, if_neg hright]
                  exact inputKey_of_char h

/-- The byte that fills a line is stored in it, and the counters are cleared. -/
theorem round_of_fills (h : ed.Valid) (hfills : ed.Fills c) :
    (ed.shell rows).round tab c = some { ed.shell rows with
      stat := .waitNormal, line := lineOf (ed.text.insertIdx ed.cursor c), lineCharCounter := 0,
      lineCurpos := 0 } := by
  obtain ⟨hfull, d, hd⟩ := hfills
  have hround := @round_of_char c tab (ed.shell rows) d hd
  have hnormal := setEscape_valid h .waitNormal
  rw [hround]
  refine (normalChar_eq hnormal).trans ?_
  rw [if_pos hfull]
  rfl

end Round

/-! ## Runs -/

/-- What is to be seen of an editor in the memory of the shell: the text and the cursor, NULs
behind the text, and what has been executed. -/
structure Shows (sh : FinshShell) (ed : Editor) : Prop where
  curpos_le : sh.lineCurpos ≤ sh.lineCharCounter
  counter_lt : sh.lineCharCounter < FINSH_CMD_SIZE
  cleared : ∀ i, sh.lineCharCounter ≤ i → i < FINSH_CMD_SIZE → sh.line[i]? = some 0
  text : sh.line.take sh.lineCharCounter = ed.text
  cursor : sh.lineCurpos = ed.cursor
  executed : (sh.executed.map fun (line, n) => line.take n) = ed.executed

/-- The memory that `malloc` returns, with an empty history. -/
structure EmptyHistory (memory : FinshShell) : Prop where
  count : memory.historyCount = 0
  current : memory.currentHistory = 0
  rows : memory.cmdHistory.length = FINSH_HISTORY_LINES

section Run

variable {tab : SymTab} {ed : Editor} {rows : List (List (BitVec 8))} {memory sh : FinshShell}
  {cs : List (BitVec 8)} {c : BitVec 8}

theorem shows_shell (h : ed.Valid) : Shows (ed.shell rows) ed where
  curpos_le := h.cursor_le
  counter_lt := h.text.length_lt
  cleared _ hi hn := getElem?_pad_of_ge hi hn
  text := take_pad
  cursor := rfl
  executed := by
    unfold shell
    rw [List.map_map]
    exact List.map_id'' (fun t => take_pad) _

theorem ne_zero_of_fills (hfills : ed.Fills c) : c ≠ 0 := by
  obtain ⟨-, d, hd⟩ := hfills
  rintro rfl
  revert hd
  cases ed.escape <;> simp [decode, plainKey]

/-- The first byte of a line that was filled is not NUL. -/
theorem not_shows_of_fills (h : ed.Valid) (hfills : ed.Fills c)
    (hround : (ed.shell rows).round tab c = some sh) (ed' : Editor) : ¬Shows sh ed' := by
  rw [round_of_fills h hfills] at hround
  cases hround
  intro hshows
  have hlength : (ed.text.insertIdx ed.cursor c).length = ed.text.length + 1 :=
    List.length_insertIdx_of_le_length h.cursor_le c
  have hfirst : (ed.text.insertIdx ed.cursor c)[0]? = some 0 := by
    rw [← getElem?_pad_of_lt (n := FINSH_CMD_SIZE) (z := (0 : BitVec 8)) (by omega)]
    exact hshows.cleared 0 (Nat.le_refl 0) (by decide)
  rcases List.eq_or_mem_of_mem_insertIdx (List.mem_of_getElem? hfirst) with hzero | hzero
  · exact ne_zero_of_fills hfills hzero.symm
  · exact h.text.nonzero hzero

theorem shellInit_eq (h : EmptyHistory memory) :
    shellInit memory = (Editor.run tab memory.stat []).shell memory.cmdHistory := by
  unfold shellInit
  rw [h.count, h.current]
  rfl

theorem run_concat (stat : InputStat) :
    Editor.run tab stat (cs ++ [c]) = (Editor.run tab stat cs).input tab c := by
  unfold Editor.run
  rw [List.foldl_append]
  rfl

/-- As long as no line is filled, the shell holds the editor. -/
theorem leads_run (h : EmptyHistory memory)
    (hcalm : ∀ cs' c, cs' ++ [c] <+: cs → ¬(Editor.run tab memory.stat cs').Fills c) :
    Leads (Runs.run (FinshShell.round tab) (shellInit memory) cs)
      (Editor.run tab memory.stat cs) := by
  induction cs using List.reverseRecOn with
  | nil =>
      have hvalid : (Editor.run tab memory.stat []).Valid :=
        ⟨isLine_nil, Nat.le_refl _, Nat.zero_le _, by simp [Editor.run], Nat.le_refl _⟩
      refine ⟨hvalid, memory.cmdHistory, ⟨h.rows, ?_⟩, congrArg some (shellInit_eq h)⟩
      intro i hi
      exact absurd hi (Nat.not_lt_zero i)
  | append_singleton cs c ih =>
      obtain ⟨hvalid, rows, hs, hrun⟩ :=
        ih fun cs' d hpre => hcalm cs' d (hpre.trans (List.prefix_append cs [c]))
      rw [Runs.run_concat, hrun, run_concat]
      exact leads_round hvalid hs (hcalm cs c List.prefix_rfl)

/-- After every beginning of the input the shell shows the editor if and only if no byte of the
input fills a line. -/
theorem shell_shows_editor_iff (h : EmptyHistory memory) :
    (∀ cs', cs' <+: cs → ∃ sh, Runs.run (FinshShell.round tab) (shellInit memory) cs' = some sh ∧
        Shows sh (Editor.run tab memory.stat cs')) ↔
      ∀ cs' c, cs' ++ [c] <+: cs → ¬(Editor.run tab memory.stat cs').Fills c := by
  constructor
  · intro hshows
    induction cs using List.reverseRecOn with
    | nil =>
        intro cs' c hpre
        simp at hpre
    | append_singleton cs d ih =>
        have hearlier := ih fun cs' hpre => hshows cs' (hpre.trans (List.prefix_append cs [d]))
        intro cs' c hpre
        rcases List.prefix_concat_iff.mp hpre with hlast | hbefore
        · obtain ⟨rfl, hcd⟩ := List.append_inj' hlast rfl
          cases hcd
          intro hfills
          obtain ⟨hvalid, rows, -, hrun⟩ := leads_run h hearlier
          obtain ⟨sh, hsh, hsees⟩ := hshows _ List.prefix_rfl
          rw [Runs.run_concat, hrun] at hsh
          exact not_shows_of_fills hvalid hfills hsh _ hsees
        · exact hearlier cs' c hbefore
  · intro hcalm cs' hpre
    obtain ⟨hvalid, rows, -, hrun⟩ := leads_run h fun cs'' c hpre' =>
      hcalm cs'' c (hpre'.trans hpre)
    exact ⟨_, hrun, shows_shell hvalid⟩

end Run

def smallTab : SymTab := ⟨[cstr "__cmd_kill", cstr "__cmd_list", cstr "__cmd_listmem"],
  by decide, by decide⟩

def blankMemory : FinshShell :=
  ⟨.waitNormal, 0, 0, List.replicate 15 (List.replicate 80 0), [], 0, 0, []⟩

theorem emptyHistory_blankMemory : EmptyHistory blankMemory := ⟨rfl, rfl, rfl⟩

/-- A command is completed, executed, called back, and changed in its middle. -/
theorem shell_shows_editor_small :
    let cs := cstr "li" ++ [0x09, 0x0d, 0x1b, 0x5b, 0x41, 0x1b, 0x5b, 0x44, 0x7f] ++ cstr "x"
    ∃ sh, Runs.run (FinshShell.round smallTab) (shellInit blankMemory) cs = some sh ∧
      Shows sh (Editor.run smallTab .waitNormal cs) ∧
        (Editor.run smallTab .waitNormal cs).text = cstr "lixt" := by
  intro cs
  have hshort : ∀ p ∈ cs.inits, (Editor.run smallTab .waitNormal p).text.length < 79 := by
    decide +kernel
  have hcalm : ∀ cs' c, cs' ++ [c] <+: cs →
      ¬(Editor.run smallTab blankMemory.stat cs').Fills c := by
    intro cs' c hpre hfills
    have hmem : cs' ∈ cs.inits :=
      (List.mem_inits cs' cs).mpr ((List.prefix_append cs' [c]).trans hpre)
    have hlt := hshort cs' hmem
    have hfull : (Editor.run smallTab .waitNormal cs').text.length + 1 = 80 := hfills.1
    omega
  obtain ⟨sh, hrun, hshows⟩ :=
    (shell_shows_editor_iff emptyHistory_blankMemory).mpr hcalm cs List.prefix_rfl
  exact ⟨sh, hrun, hshows, by decide +kernel⟩

/-- After 80 letters the line is not cleared, and the completion key then takes the counters
past its end. -/
theorem shell_line_not_cleared :
    (∃ sh, Runs.run (FinshShell.round smallTab) (shellInit blankMemory)
        (List.replicate 80 0x61) = some sh ∧
      ¬Shows sh (Editor.run smallTab .waitNormal (List.replicate 80 0x61))) ∧
    ∃ sh, Runs.run (FinshShell.round smallTab) (shellInit blankMemory)
        (List.replicate 80 0x61 ++ [0x09]) = some sh ∧
      ¬sh.lineCharCounter < FINSH_CMD_SIZE := by
  constructor
  · obtain ⟨sh, hsh, hcheck⟩ := Runs.exists_of_any (show
      (Runs.run (FinshShell.round smallTab) (shellInit blankMemory) (List.replicate 80 0x61)).any
        (fun sh => sh.lineCharCounter = 0 ∧ sh.line[0]? ≠ some 0) = true by decide +kernel)
    obtain ⟨hcounter, hfirst⟩ := of_decide_eq_true hcheck
    exact ⟨sh, hsh, fun hshows => hfirst (hshows.cleared 0 hcounter.le (by decide))⟩
  · obtain ⟨sh, hsh, hcheck⟩ := Runs.exists_of_any (show
      (Runs.run (FinshShell.round smallTab) (shellInit blankMemory)
        (List.replicate 80 0x61 ++ [0x09])).any
        (fun sh => ¬sh.lineCharCounter < FINSH_CMD_SIZE) = true by decide +kernel)
    exact ⟨sh, hsh, of_decide_eq_true hcheck⟩

end Shell

end LuojiOs
