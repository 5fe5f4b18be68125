import LuojiOs.Shell.Refinement

/-!
# The indices of the history

`shellInit` takes the fields of the history over from the memory that `malloc` has returned, and
the keys then trust them.  What a round reads and writes of `cmd_history` is listed here, and
the fields are followed through every round.
-/

namespace LuojiOs

namespace Shell

namespace FinshShell

/-- The indices of `cmd_history` in `shell_push_history`: the line that is compared, and the
lines that are moved or written. -/
def pushIndices (sh : FinshShell) : List ℕ :=
  if sh.lineCharCounter ≠ 0 then
    if FINSH_HISTORY_LINES ≤ sh.historyCount then
      (FINSH_HISTORY_LINES - 1) ::
        if sh.cmdHistory[FINSH_HISTORY_LINES - 1]? ≠ some sh.line then
          List.range FINSH_HISTORY_LINES
        else []
    else
      (if sh.historyCount = 0 then [] else [sh.historyCount - 1]) ++
        if sh.historyCount = 0 ∨ sh.cmdHistory[sh.historyCount - 1]? ≠ some sh.line then
          [sh.historyCount]
        else []
  else []

/-- The index of the line that the up key recalls. -/
def upIndices (sh : FinshShell) : List ℕ :=
  if 0 < sh.currentHistory then [sh.currentHistory - 1] else []

/-- The index of the line that the down key recalls. -/
def downIndices (sh : FinshShell) : List ℕ :=
  if (sh.currentHistory : ℤ) < sh.historyCount - 1 then [sh.currentHistory + 1]
  else if sh.historyCount ≠ 0 then [sh.historyCount - 1]
  else []

/-- All indices of `cmd_history` in the round for the byte `c`. -/
def historyIndices (sh : FinshShell) (c : BitVec 8) : List ℕ :=
  if c.toInt < 0 ∨ c = 0x1b then []
  else if sh.stat = .waitFuncKey ∧ c = 0x41 then sh.upIndices
  else if sh.stat = .waitFuncKey ∧ c = 0x42 then sh.downIndices
  else if c = 0x0d ∨ c = 0x0a then sh.pushIndices
  else []

structure ValidHistory (sh : FinshShell) : Prop where
  current_le : sh.currentHistory ≤ sh.historyCount
  count_le : sh.historyCount ≤ FINSH_HISTORY_LINES

/-- The two fields of the history, which most keys leave alone. -/
structure SameHistory (sh sh' : FinshShell) : Prop where
  current : sh'.currentHistory = sh.currentHistory
  count : sh'.historyCount = sh.historyCount

section Rounds

variable {tab : SymTab} {sh sh' sh'' : FinshShell} {c : BitVec 8} {i dst src n : ℕ}

theorem ValidHistory.of_same (h : sh.ValidHistory) (hsame : SameHistory sh sh') :
    sh'.ValidHistory := by
  constructor
  · rw [hsame.current, hsame.count]
    exact h.current_le
  · rw [hsame.count]
    exact h.count_le

theorem SameHistory.trans (h : SameHistory sh sh') (h' : SameHistory sh' sh'') :
    SameHistory sh sh'' :=
  ⟨h'.current.trans h.current, h'.count.trans h.count⟩

/-! ## What leaves the history alone -/

theorem memmove_same (h : sh.memmove dst src n = some sh') : SameHistory sh sh' := by
  unfold memmove at h
  split at h
  · cases h
    exact ⟨rfl, rfl⟩
  · cases h

theorem store_same (h : sh.store i c = some sh') : SameHistory sh sh' := by
  unfold store at h
  split at h
  · cases h
    exact ⟨rfl, rfl⟩
  · cases h

theorem memmove_store_same {d : BitVec 8}
    (h : (sh.memmove dst src n).bind (·.store i d) = some sh') : SameHistory sh sh' := by
  obtain ⟨moved, hmove, hstore⟩ := Option.bind_eq_some_iff.mp h
  exact (memmove_same hmove).trans (store_same hstore)

theorem toEnd_same (h : sh.toEnd = some sh') : SameHistory sh sh' := by
  unfold toEnd at h
  obtain ⟨n, -, rfl⟩ := Option.map_eq_some_iff.mp h
  exact ⟨rfl, rfl⟩

theorem recallLine_same (h : sh.recallLine = some sh') : SameHistory sh sh' := by
  unfold recallLine at h
  split at h
  · cases h
  · have hend := toEnd_same h
    exact ⟨hend.current, hend.count⟩

theorem mshAutoComplete_same (h : sh.mshAutoComplete tab = some sh') : SameHistory sh sh' := by
  unfold mshAutoComplete at h
  obtain ⟨n, -, h⟩ := Option.bind_eq_some_iff.mp h
  dsimp only at h
  split at h
  · cases h
    exact ⟨rfl, rfl⟩
  · split at h
    · cases h
      exact ⟨rfl, rfl⟩
    · split at h
      · cases h
        exact ⟨rfl, rfl⟩
      · cases h

theorem tabKey_same (h : sh.tabKey tab = some sh') : SameHistory sh sh' := by
  obtain ⟨completed, hcomplete, hend⟩ := Option.bind_eq_some_iff.mp h
  exact (mshAutoComplete_same hcomplete).trans (toEnd_same hend)

theorem eraseKey_same (h : sh.eraseKey = some sh') : SameHistory sh sh' := by
  unfold eraseKey at h
  split at h
  · cases h
    exact ⟨rfl, rfl⟩
  · dsimp only at h
    split at h
    · have hmoved := memmove_store_same h
      exact ⟨hmoved.current, hmoved.count⟩
    · have hstored := store_same h
      exact ⟨hstored.current, hstored.count⟩

theorem normalChar_same (h : sh.normalChar c = some sh') : SameHistory sh sh' := by
  unfold normalChar at h
  obtain ⟨typed, htyped, rfl⟩ := Option.map_eq_some_iff.mp h
  generalize hstart : (if FINSH_CMD_SIZE ≤ sh.lineCharCounter then
      { sh with lineCharCounter := 0 } else sh) = start at htyped
  have hcleared : SameHistory sh start := by
    rw [← hstart]
    split
    · exact ⟨rfl, rfl⟩
    · exact ⟨rfl, rfl⟩
  have hstored : SameHistory start typed := by
    split at htyped
    · exact memmove_store_same htyped
    · exact store_same htyped
  refine (hcleared.trans hstored).trans ?_
  dsimp only
  split
  · exact ⟨rfl, rfl⟩
  · exact ⟨rfl, rfl⟩

theorem leftKey_same : SameHistory sh sh.leftKey := by
  unfold leftKey
  split
  · exact ⟨rfl, rfl⟩
  · exact ⟨rfl, rfl⟩

theorem rightKey_same : SameHistory sh sh.rightKey := by
  unfold rightKey
  split
  · exact ⟨rfl, rfl⟩
  · exact ⟨rfl, rfl⟩

/-! ## What moves in the history -/

theorem recallLine_valid (h : sh.ValidHistory) (hi : i ≤ sh.historyCount)
    (hr : { sh with currentHistory := i }.recallLine = some sh') : sh'.ValidHistory := by
  have hmoved : { sh with currentHistory := i }.ValidHistory := ⟨hi, h.count_le⟩
  exact hmoved.of_same (recallLine_same hr)

theorem upKey_valid (h : sh.ValidHistory) (hr : sh.upKey = some sh') : sh'.ValidHistory := by
  have hcurrent := h.current_le
  unfold upKey at hr
  split at hr
  · exact recallLine_valid h (by omega) hr
  · cases hr
    exact ⟨Nat.zero_le _, h.count_le⟩

theorem downKey_valid (h : sh.ValidHistory) (hr : sh.downKey = some sh') : sh'.ValidHistory := by
  unfold downKey at hr
  split at hr
  · exact recallLine_valid h (by omega) hr
  · split at hr
    · exact recallLine_valid h (by omega) hr
    · cases hr
      exact h

theorem storeHistory_count_le (h : sh.historyCount ≤ FINSH_HISTORY_LINES) :
    sh.storeHistory.historyCount ≤ FINSH_HISTORY_LINES := by
  unfold storeHistory
  split
  · split
    · split
      · exact Nat.le_refl _
      · exact h
    · next hroom =>
      split
      · exact Nat.lt_of_not_le hroom
      · exact h
  · exact h

theorem enterKey_valid (h : sh.ValidHistory) (hr : sh.enterKey = some sh') :
    sh'.ValidHistory := by
  unfold enterKey pushHistory at hr
  obtain ⟨pushed, hpush, rfl⟩ := Option.map_eq_some_iff.mp hr
  split at hpush
  · cases hpush
  · cases hpush
    exact ⟨Nat.le_refl _, storeHistory_count_le h.count_le⟩

theorem inputKey_valid (h : sh.ValidHistory) (hr : sh.inputKey tab c = some sh') :
    sh'.ValidHistory := by
  unfold inputKey at hr
  split at hr
  · cases hr
    exact h
  · split at hr
    · exact h.of_same (tabKey_same hr)
    · split at hr
      · exact h.of_same (eraseKey_same hr)
      · split at hr
        · exact enterKey_valid h hr
        · exact h.of_same (normalChar_same hr)

theorem setStat_valid (h : sh.ValidHistory) (stat : InputStat) :
    { sh with stat := stat }.ValidHistory :=
  ⟨h.current_le, h.count_le⟩

/-- No round makes valid fields invalid. -/
theorem round_valid (h : sh.ValidHistory) (hr : sh.round tab c = some sh') :
    sh'.ValidHistory := by
  have hnormal := setStat_valid h .waitNormal
  unfold round at hr
  split at hr
  · cases hr
    exact h
  · split at hr
    · cases hr
      exact setStat_valid h _
    · split at hr
      · split at hr
        · cases hr
          exact setStat_valid h _
        · exact inputKey_valid hnormal hr
      · dsimp only at hr
        split at hr
        · exact upKey_valid hnormal hr
        · split at hr
          · exact downKey_valid hnormal hr
          · split at hr
            · cases hr
              exact hnormal.of_same leftKey_same
            · split at hr
              · cases hr
                exact hnormal.of_same rightKey_same
              · exact inputKey_valid hnormal hr
      · exact inputKey_valid h hr

theorem pushIndices_lt (hi : i ∈ sh.pushIndices) : i < FINSH_HISTORY_LINES := by
  unfold pushIndices at hi
  split at hi
  · split at hi
    · rcases List.mem_cons.mp hi with rfl | hi
      · decide
      · split at hi
        · exact List.mem_range.mp hi
        · cases hi
    · next hroom =>
      have hlt := Nat.lt_of_not_le hroom
      rcases List.mem_append.mp hi with hi | hi
      · split at hi
        · cases hi
        · rw [List.mem_singleton.mp hi]
          omega
      · split at hi
        · rw [List.mem_singleton.mp hi]
          exact hlt
        · cases hi
  · cases hi

/-- Pushing is safe for all values of the fields, and the two arrows are for valid ones. -/
theorem historyIndices_lt (h : sh.ValidHistory) (hi : i ∈ sh.historyIndices c) :
    i < FINSH_HISTORY_LINES := by
  have hcurrent := h.current_le
  have hcount := h.count_le
  unfold historyIndices at hi
  split at hi
  · cases hi
  · split at hi
    · unfold upIndices at hi
      split at hi
      · rw [List.mem_singleton.mp hi]
        omega
      · cases hi
    · split at hi
      · unfold downIndices at hi
        split at hi
        · rw [List.mem_singleton.mp hi]
          omega
        · split at hi
          · rw [List.mem_singleton.mp hi]
            omega
          · cases hi
      · split at hi
        · exact pushIndices_lt hi
        · cases hi

end Rounds

end FinshShell

section Init

variable {tab : SymTab} {memory sh : FinshShell} {cs : List (BitVec 8)}

theorem run_valid (h : memory.ValidHistory)
    (hrun : Runs.run (FinshShell.round tab) (shellInit memory) cs = some sh) :
    sh.ValidHistory := by
  induction cs using List.reverseRecOn generalizing sh with
  | nil =>
      cases hrun
      exact ⟨h.current_le, h.count_le⟩
  | append_singleton cs c ih =>
      rw [Runs.run_concat] at hrun
      obtain ⟨before, hbefore, hround⟩ := Option.bind_eq_some_iff.mp hrun
      exact FinshShell.round_valid (ih hbefore) hround

/-- The indices are in range and the fields valid through every input if and only if the memory
from `malloc` holds valid fields by itself. -/
theorem history_valid_iff (tab : SymTab) (memory : FinshShell) :
    (∀ cs sh c, Runs.run (FinshShell.round tab) (shellInit memory) cs = some sh →
      (∀ i ∈ sh.historyIndices c, i < FINSH_HISTORY_LINES) ∧
        ∀ sh', sh.round tab c = some sh' → sh'.ValidHistory) ↔ memory.ValidHistory := by
  constructor
  · intro hsafe
    have hescape := (hsafe [] (shellInit memory) 0x1b rfl).2 _ rfl
    exact ⟨hescape.current_le, hescape.count_le⟩
  · intro h cs sh c hrun
    have hvalid := run_valid h hrun
    exact ⟨fun i hi => FinshShell.historyIndices_lt hvalid hi,
      fun sh' hround => FinshShell.round_valid hvalid hround⟩

def staleMemory : FinshShell := { blankMemory with currentHistory := 100, historyCount := 100 }

/-- With other data in the block, the first arrow key already reads outside of the history. -/
theorem history_invalid_stale :
    ∃ sh, Runs.run (FinshShell.round smallTab) (shellInit staleMemory) [0x1b, 0x5b] = some sh ∧
      ∃ i ∈ sh.historyIndices 0x41, ¬i < FINSH_HISTORY_LINES :=
  ⟨_, rfl, 99, by decide, by decide⟩

end Init

end Shell

end LuojiOs
