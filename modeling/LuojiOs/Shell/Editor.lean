import LuojiOs.Shell.Input
import LuojiOs.Support.Text
import LuojiOs.Support.Runs
import Mathlib.Data.List.InsertIdx

/-!
# A line editor

The editor that `shell_thread_entry` is meant to be: a text with a cursor, a history of at most
`FINSH_HISTORY_LINES` texts, and the keys that change them.  An escape sequence that is not
one of the four arrows ends with its last byte, which is then read as normal input.
-/

namespace LuojiOs

namespace Shell

open Text

inductive Key
  | up
  | down
  | left
  | right
  | tab
  | erase
  | enter
  | char (c : BitVec 8)
  deriving DecidableEq, Repr

/-- A byte outside of an escape sequence. -/
def plainKey (c : BitVec 8) : Option Key :=
  if c = 0 then none
  else if c = 0x09 then some .tab
  else if c = 0x7f ∨ c = 0x08 then some .erase
  else if c = 0x0d ∨ c = 0x0a then some .enter
  else some (.char c)

/-- What a byte means, and where the escape sequence then stands. -/
def decode (escape : InputStat) (c : BitVec 8) : InputStat × Option Key :=
  if c.toInt < 0 then (escape, none)
  else if c = 0x1b then (.waitSpecKey, none)
  else
    match escape with
    | .waitNormal => (.waitNormal, plainKey c)
    | .waitSpecKey => if c = 0x5b then (.waitFuncKey, none) else (.waitNormal, plainKey c)
    | .waitFuncKey =>
      (.waitNormal,
        if c = 0x41 then some .up
        else if c = 0x42 then some .down
        else if c = 0x44 then some .left
        else if c = 0x43 then some .right
        else plainKey c)

/-- The commands of the table. -/
def SymTab.commands (tab : SymTab) : List CString :=
  (tab.names.filter (cstr "__cmd_").isPrefixOf).map (·.drop 6)

/-- The longest text that all commands begin with that begin with `text`. -/
def SymTab.completion (tab : SymTab) (text : List (BitVec 8)) : List (BitVec 8) :=
  if text = [] then text
  else
    match tab.commands.filter text.isPrefixOf with
    | [] => text
    | command :: commands => commonPrefixes command commands

structure Editor where
  escape : InputStat
  text : List (BitVec 8)
  cursor : ℕ
  history : List (List (BitVec 8))
  place : ℕ
  executed : List (List (BitVec 8))

namespace Editor

/-- The text is stored unless it is empty or was stored last. -/
def remember (text : List (BitVec 8)) (history : List (List (BitVec 8))) :
    List (List (BitVec 8)) :=
  if text = [] ∨ history.getLast? = some text then history
  else if history.length < FINSH_HISTORY_LINES then history ++ [text]
  else history.tail ++ [text]

/-- The text of the history at the place `i`, with the cursor behind it. -/
def load (i : ℕ) (ed : Editor) : Editor :=
  let text := ed.history.getD i []
  { ed with text := text, cursor := text.length, place := i }

def insert (c : BitVec 8) (ed : Editor) : Editor :=
  if ed.text.length + 1 = FINSH_CMD_SIZE then { ed with text := [], cursor := 0 }
  else { ed with text := ed.text.insertIdx ed.cursor c, cursor := ed.cursor + 1 }

def press (tab : SymTab) (ed : Editor) : Key → Editor
  | .up => if ed.place = 0 then ed else ed.load (ed.place - 1)
  | .down =>
    if ed.history = [] then ed else ed.load (min (ed.place + 1) (ed.history.length - 1))
  | .left => { ed with cursor := ed.cursor - 1 }
  | .right => { ed with cursor := min (ed.cursor + 1) ed.text.length }
  | .tab =>
    let text := tab.completion ed.text
    { ed with text := text, cursor := text.length }
  | .erase =>
    if ed.cursor = 0 then ed
    else { ed with text := ed.text.eraseIdx (ed.cursor - 1), cursor := ed.cursor - 1 }
  | .enter =>
    let history := remember ed.text ed.history
    { ed with
      text := [], cursor := 0, history := history, place := history.length
      executed := ed.text :: ed.executed }
  | .char c => ed.insert c

def input (tab : SymTab) (ed : Editor) (c : BitVec 8) : Editor :=
  let (escape, key) := decode ed.escape c
  let ed := { ed with escape := escape }
  key.elim ed (ed.press tab)

/-- The editor after the bytes `cs`, from an empty line and an empty history on. -/
def run (tab : SymTab) (escape : InputStat) (cs : List (BitVec 8)) : Editor :=
  cs.foldl (input tab) ⟨escape, [], 0, [], 0, []⟩

/-- The byte `c` makes the line reach `FINSH_CMD_SIZE` bytes. -/
def Fills (c : BitVec 8) (ed : Editor) : Prop :=
  ed.text.length + 1 = FINSH_CMD_SIZE ∧ ∃ d, (decode ed.escape c).2 = some (.char d)

end Editor

/-! ## Lines -/

/-- A text that fits on a line with a NUL behind it. -/
structure IsLine (t : List (BitVec 8)) : Prop where
  length_lt : t.length < FINSH_CMD_SIZE
  nonzero : 0 ∉ t

/-- The bytes of a line, filled up with NULs. -/
def lineOf (t : List (BitVec 8)) : List (BitVec 8) := pad FINSH_CMD_SIZE 0 t

section Lines

variable {sh : FinshShell} {t u : List (BitVec 8)} {c : BitVec 8} {p : ℕ}

theorem isLine_nil : IsLine [] := ⟨by decide, by simp⟩

theorem IsLine.insertIdx (h : IsLine t) (hp : p ≤ t.length) (hc : c ≠ 0)
    (hlt : t.length + 1 ≠ FINSH_CMD_SIZE) : IsLine (t.insertIdx p c) := by
  have hlength := h.length_lt
  constructor
  · rw [List.length_insertIdx_of_le_length hp]
    omega
  · intro hmem
    rcases List.eq_or_mem_of_mem_insertIdx hmem with hzero | hzero
    · exact hc hzero.symm
    · exact h.nonzero hzero

theorem IsLine.eraseIdx (h : IsLine t) : IsLine (t.eraseIdx p) := by
  refine ⟨?_, fun hmem => h.nonzero (List.mem_of_mem_eraseIdx hmem)⟩
  exact (List.length_eraseIdx_le t p).trans_lt h.length_lt

theorem length_lineOf (h : IsLine t) : (lineOf t).length = FINSH_CMD_SIZE :=
  length_pad (Nat.le_of_lt h.length_lt)

theorem lineOf_inj (ht : IsLine t) (hu : IsLine u) : lineOf t = lineOf u ↔ t = u := by
  constructor
  · exact eq_of_pad_eq ht.nonzero hu.nonzero ht.length_lt hu.length_lt
  · exact congrArg lineOf

theorem strlen_eq (hline : sh.line = lineOf t) (ht : IsLine t) : sh.strlen = some t.length := by
  have hidx : sh.fromLine.idxOf 0 = t.length := by
    unfold FinshShell.fromLine
    rw [hline]
    exact idxOf_pad ht.nonzero _ ht.length_lt
  have hmem : 0 ∈ sh.fromLine := by
    apply List.idxOf_lt_length_iff.mp
    rw [hidx]
    unfold FinshShell.fromLine
    rw [List.length_append, hline, length_lineOf ht]
    exact Nat.lt_add_right _ ht.length_lt
  unfold FinshShell.strlen
  rw [if_pos hmem, hidx]

theorem toEnd_eq (hline : sh.line = lineOf t) (ht : IsLine t) :
    sh.toEnd = some { sh with lineCharCounter := t.length, lineCurpos := t.length } := by
  unfold FinshShell.toEnd
  rw [strlen_eq hline ht]
  rfl

theorem take_fromLine (hline : sh.line = lineOf t) : sh.fromLine.take t.length = t := by
  unfold FinshShell.fromLine
  rw [hline]
  unfold lineOf pad
  rw [List.append_assoc]
  exact List.take_left

theorem recallLine_eq (hrow : sh.cmdHistory[sh.currentHistory]? = some (lineOf t)) (ht : IsLine t) :
    sh.recallLine = some { sh with
      line := lineOf t, lineCharCounter := t.length, lineCurpos := t.length } := by
  unfold FinshShell.recallLine
  rw [hrow]
  exact toEnd_eq rfl ht

/-- A part of the line is moved, if there is any, and a byte is stored. -/
theorem memmove_store {dst src a b : ℕ} (hsrc : src + (b - a) ≤ FINSH_CMD_SIZE)
    (hdst : dst + (b - a) ≤ FINSH_CMD_SIZE) (hp : p < FINSH_CMD_SIZE) :
    (if a < b then (sh.memmove dst src (b - a)).bind (·.store p c) else sh.store p c) =
      some { sh with
        line := (Buffer.put sh.line dst ((sh.line.drop src).take (b - a))).set p c } := by
  unfold FinshShell.memmove FinshShell.store
  by_cases hab : a < b
  · rw [if_pos hab, if_pos ⟨hsrc, hdst⟩]
    exact if_pos hp
  · have hnone : b - a = 0 := by omega
    rw [if_neg hab, if_pos hp, hnone, List.take_zero, Buffer.put_nil]

end Lines

/-! ## The editor in the memory of the shell -/

namespace Editor

structure Valid (ed : Editor) : Prop where
  text : IsLine ed.text
  cursor_le : ed.cursor ≤ ed.text.length
  history_le : ed.history.length ≤ FINSH_HISTORY_LINES
  lines : ∀ t ∈ ed.history, IsLine t
  place_le : ed.place ≤ ed.history.length

/-- The array `cmd_history` with these texts in its first places. -/
structure Stores (rows history : List (List (BitVec 8))) : Prop where
  length : rows.length = FINSH_HISTORY_LINES
  row : ∀ i < history.length, rows[i]? = some (lineOf (history.getD i []))

/-- The shell that holds an editor. -/
def shell (rows : List (List (BitVec 8))) (ed : Editor) : FinshShell where
  stat := ed.escape
  currentHistory := ed.place
  historyCount := ed.history.length
  cmdHistory := rows
  line := lineOf ed.text
  lineCharCounter := ed.text.length
  lineCurpos := ed.cursor
  executed := ed.executed.map fun t => (lineOf t, t.length)

section Keys

variable {ed : Editor} {rows history : List (List (BitVec 8))} {c : BitVec 8} {tab : SymTab}
  {t : List (BitVec 8)} {i : ℕ}

@[simp] theorem currentHistory_shell : (ed.shell rows).currentHistory = ed.place := rfl

@[simp] theorem historyCount_shell : (ed.shell rows).historyCount = ed.history.length := rfl

@[simp] theorem cmdHistory_shell : (ed.shell rows).cmdHistory = rows := rfl

@[simp] theorem line_shell : (ed.shell rows).line = lineOf ed.text := rfl

@[simp] theorem lineCharCounter_shell :
    (ed.shell rows).lineCharCounter = ed.text.length := rfl

@[simp] theorem lineCurpos_shell : (ed.shell rows).lineCurpos = ed.cursor := rfl

theorem leftKey_shell : (ed.shell rows).leftKey = (ed.press tab .left).shell rows := by
  unfold FinshShell.leftKey
  split
  · rfl
  · next hzero =>
    have hcursor : ed.cursor = 0 := not_not.mp hzero
    unfold press shell
    rw [hcursor]

theorem rightKey_shell (h : ed.Valid) :
    (ed.shell rows).rightKey = (ed.press tab .right).shell rows := by
  have hcursor := h.cursor_le
  unfold FinshShell.rightKey
  split
  · next hlt =>
    have hmin : min (ed.cursor + 1) ed.text.length = ed.cursor + 1 := Nat.min_eq_left hlt
    unfold press
    rw [hmin]
    rfl
  · next hge =>
    have hge' : ¬ed.cursor < ed.text.length := hge
    have hmin : min (ed.cursor + 1) ed.text.length = ed.cursor := by omega
    unfold press
    rw [hmin]

theorem eraseKey_shell (h : ed.Valid) :
    (ed.shell rows).eraseKey = some ((ed.press tab .erase).shell rows) := by
  have hcursor := h.cursor_le
  have hlength := h.text.length_lt
  have hsize : FINSH_CMD_SIZE = 80 := rfl
  unfold FinshShell.eraseKey press
  by_cases hzero : ed.cursor = 0
  · rw [if_pos (show (ed.shell rows).lineCurpos = 0 from hzero)]
    dsimp only
    rw [if_pos hzero]
  · rw [if_neg (show (ed.shell rows).lineCurpos ≠ 0 from hzero)]
    dsimp only
    rw [if_neg hzero]
    have hcounter : (ed.text.length + 255) % 256 = ed.text.length - 1 := by omega
    have hplace : ed.cursor - 1 < ed.text.length := by omega
    unfold shell
    dsimp only
    rw [hcounter, memmove_store (by omega) (by omega) (by omega)]
    unfold lineOf
    rw [set_put_pad_erase (Nat.le_of_lt hlength) hplace, List.length_eraseIdx_of_lt hplace]

/-- The byte is in its place before the length of the line is looked at. -/
theorem typed_shell (h : ed.Valid) :
    (if ed.cursor < ed.text.length then
      ((ed.shell rows).memmove (ed.cursor + 1) ed.cursor (ed.text.length - ed.cursor)).bind
        (·.store ed.cursor c)
      else (ed.shell rows).store ed.text.length c) =
      some { ed.shell rows with line := lineOf (ed.text.insertIdx ed.cursor c) } := by
  have hcursor := h.cursor_le
  have hlength := h.text.length_lt
  have hshift := @memmove_store (ed.shell rows) c ed.cursor (ed.cursor + 1) ed.cursor ed.cursor
    ed.text.length (by omega) (by omega) (by omega)
  have hline : (Buffer.put (lineOf ed.text) (ed.cursor + 1) (((lineOf ed.text).drop ed.cursor).take
      (ed.text.length - ed.cursor))).set ed.cursor c = lineOf (ed.text.insertIdx ed.cursor c) :=
    set_put_pad hlength hcursor
  rw [← hline]
  refine Eq.trans ?_ hshift
  by_cases hlt : ed.cursor < ed.text.length
  · rw [if_pos hlt, if_pos hlt]
  · have heq : ed.text.length = ed.cursor := by omega
    rw [if_neg hlt, if_neg hlt, heq]

theorem normalChar_eq (h : ed.Valid) :
    (ed.shell rows).normalChar c =
      if ed.text.length + 1 = FINSH_CMD_SIZE then
        some { ed.shell rows with
          line := lineOf (ed.text.insertIdx ed.cursor c), lineCharCounter := 0, lineCurpos := 0 }
      else some { ed.shell rows with
          line := lineOf (ed.text.insertIdx ed.cursor c)
          lineCharCounter := ed.text.length + 1
          lineCurpos := ed.cursor + 1 } := by
  have hcursor := h.cursor_le
  have hlength := h.text.length_lt
  have hsize : FINSH_CMD_SIZE = 80 := rfl
  have hcounter : (ed.text.length + 1) % 256 = ed.text.length + 1 := by omega
  have hcurpos : (ed.cursor + 1) % 256 = ed.cursor + 1 := by omega
  unfold FinshShell.normalChar
  rw [if_neg (show ¬FINSH_CMD_SIZE ≤ (ed.shell rows).lineCharCounter from
    Nat.not_le.mpr hlength)]
  refine (congrArg (Option.map _) (typed_shell h)).trans ?_
  unfold shell
  rw [Option.map_some]
  dsimp only
  rw [hcounter, hcurpos]
  by_cases hfull : ed.text.length + 1 = FINSH_CMD_SIZE
  · rw [if_pos hfull, if_pos (by omega)]
  · rw [if_neg hfull, if_neg (by omega)]

theorem normalChar_shell (h : ed.Valid) (hfull : ed.text.length + 1 ≠ FINSH_CMD_SIZE) :
    (ed.shell rows).normalChar c = some ((ed.insert c).shell rows) := by
  rw [normalChar_eq h, if_neg hfull]
  unfold insert
  rw [if_neg hfull]
  unfold shell
  rw [List.length_insertIdx_of_le_length h.cursor_le]

/-! ### History -/

theorem isLine_getD (h : ∀ u ∈ history, IsLine u) (hi : i < history.length) :
    IsLine (history.getD i []) := by
  apply h
  rw [List.getD_eq_getElem?_getD, List.getElem?_eq_getElem hi]
  exact List.getElem_mem hi

theorem recallLine_shell (h : ed.Valid) (hs : Stores rows ed.history) (hi : i < ed.history.length) :
    { ed.shell rows with currentHistory := i }.recallLine = some ((ed.load i).shell rows) :=
  recallLine_eq (hs.row i hi) (isLine_getD h.lines hi)

theorem upKey_shell (h : ed.Valid) (hs : Stores rows ed.history) :
    (ed.shell rows).upKey = some ((ed.press tab .up).shell rows) := by
  have hplace := h.place_le
  unfold FinshShell.upKey press
  rw [currentHistory_shell]
  dsimp only
  by_cases hzero : ed.place = 0
  · rw [if_neg (Nat.not_lt.mpr hzero.le), if_pos hzero]
    unfold shell
    rw [hzero]
  · rw [if_pos (Nat.pos_of_ne_zero hzero), if_neg hzero]
    exact recallLine_shell h hs (by omega)

theorem downKey_shell (h : ed.Valid) (hs : Stores rows ed.history) :
    (ed.shell rows).downKey = some ((ed.press tab .down).shell rows) := by
  unfold FinshShell.downKey press
  rw [currentHistory_shell, historyCount_shell]
  dsimp only
  by_cases hnil : ed.history = []
  · have hlength : ed.history.length = 0 := by rw [hnil, List.length_nil]
    rw [if_neg (by omega), if_neg (not_not.mpr hlength), if_pos hnil]
  · have hlength : 0 < ed.history.length := List.length_pos_iff.mpr hnil
    rw [if_neg hnil]
    by_cases hlt : (ed.place : ℤ) < (ed.history.length : ℤ) - 1
    · have hmin : min (ed.place + 1) (ed.history.length - 1) = ed.place + 1 := by omega
      rw [if_pos hlt, hmin]
      exact recallLine_shell h hs (by omega)
    · have hmin : min (ed.place + 1) (ed.history.length - 1) = ed.history.length - 1 := by omega
      rw [if_neg hlt, if_pos (Nat.ne_of_gt hlength), hmin]
      exact recallLine_shell h hs (by omega)

end Keys

/-! ### Completion -/

section Completion

variable {pre : CString} {names : List CString} {name p : CString} {m : ℕ}

theorem strCommon_eq (s t : CString) : FinshShell.strCommon s t = (commonPrefix s t).length := by
  induction s generalizing t with
  | nil => rfl
  | cons c s ih =>
      cases t with
      | nil => rfl
      | cons d t =>
          unfold FinshShell.strCommon commonPrefix
          split
          · rw [ih, List.length_cons]
          · rfl

/-- The commands among `names` that begin with `pre`. -/
def matching (pre : CString) (names : List CString) : List CString :=
  ((names.filter (cstr "__cmd_").isPrefixOf).map (·.drop 6)).filter pre.isPrefixOf

theorem matching_cons_of_not (h : ¬(cstr "__cmd_").isPrefixOf name) :
    matching pre (name :: names) = matching pre names := by
  unfold matching
  rw [List.filter_cons_of_neg h]

theorem matching_cons (h : (cstr "__cmd_").isPrefixOf name) :
    matching pre (name :: names) =
      if pre.isPrefixOf (name.drop 6) then name.drop 6 :: matching pre names
      else matching pre names := by
  unfold matching
  rw [List.filter_cons_of_pos h, List.map_cons, List.filter_cons]

/-- The loop once `name_ptr` is set: the first `min_length` bytes of that name are what the
names so far have in common, and `pre` is a beginning of it. -/
theorem completeFrom_some (hne : pre ≠ []) (hle : m ≤ p.length) (hpre : pre <+: p.take m) :
    ∃ k, FinshShell.completeFrom pre names m (some p) = (k, some p) ∧ k ≤ p.length ∧
      p.take k = commonPrefixes (p.take m) (matching pre names) := by
  induction names generalizing m with
  | nil => exact ⟨m, rfl, hle, rfl⟩
  | cons name names ih =>
      unfold FinshShell.completeFrom
      by_cases hcmd : (cstr "__cmd_").isPrefixOf name = true
      · rw [if_neg (not_not.mpr hcmd), matching_cons hcmd]
        dsimp only
        split
        · next hmatch =>
          have hm : m ≠ 0 := by
            intro hzero
            rw [hzero, List.take_zero] at hpre
            exact hne (List.prefix_nil.mp hpre)
          have hlength : (if FinshShell.strCommon p (name.drop 6) < m then
              FinshShell.strCommon p (name.drop 6) else m) =
              min m (commonPrefix p (name.drop 6)).length := by
            rw [strCommon_eq]
            split <;> omega
          have htake := commonPrefix_take m p (name.drop 6)
          rw [if_neg hm, if_neg hm, Option.map_some, Option.getD_some, hlength]
          have hboth : pre <+: commonPrefix (p.take m) (name.drop 6) :=
            prefix_commonPrefix_iff.mpr ⟨hpre, List.isPrefixOf_iff_prefix.mp hmatch⟩
          rw [htake] at hboth
          obtain ⟨k, hk, hkle, hkeq⟩ := ih ((Nat.min_le_left _ _).trans hle) hboth
          refine ⟨k, hk, hkle, hkeq.trans ?_⟩
          rw [← htake]
          rfl
        · exact ih hle hpre
      · rw [if_pos hcmd, matching_cons_of_not hcmd]
        exact ih hle hpre

/-- The loop of `msh_auto_complete`. -/
theorem completeFrom_eq (hne : pre ≠ []) :
    (matching pre names = [] ∧ FinshShell.completeFrom pre names 0 none = (0, none)) ∨
      ∃ command commands k, matching pre names = command :: commands ∧
        FinshShell.completeFrom pre names 0 none = (k, some command) ∧ k ≤ command.length ∧
        command.take k = commonPrefixes command commands := by
  induction names with
  | nil => exact Or.inl ⟨rfl, rfl⟩
  | cons name names ih =>
      unfold FinshShell.completeFrom
      by_cases hcmd : (cstr "__cmd_").isPrefixOf name = true
      · rw [if_neg (not_not.mpr hcmd), matching_cons hcmd]
        dsimp only
        split
        · next hmatch =>
          have hself : FinshShell.strCommon (name.drop 6) (name.drop 6) = (name.drop 6).length := by
            have hle : name.drop 6 <+: commonPrefix (name.drop 6) (name.drop 6) :=
              prefix_commonPrefix_iff.mpr ⟨List.prefix_rfl, List.prefix_rfl⟩
            rw [strCommon_eq]
            exact Nat.le_antisymm commonPrefix_prefix_left.length_le hle.length_le
          rw [if_pos rfl, if_pos rfl, Option.map_some, Option.getD_some, hself,
            if_neg (Nat.lt_irrefl _)]
          have hpre : pre <+: (name.drop 6).take (name.drop 6).length := by
            rw [List.take_length]
            exact List.isPrefixOf_iff_prefix.mp hmatch
          obtain ⟨k, hk, hkle, hkeq⟩ := @completeFrom_some pre names _ _ hne (Nat.le_refl _) hpre
          rw [List.take_length] at hkeq
          exact Or.inr ⟨_, _, k, rfl, hk, hkle, hkeq⟩
        · exact ih
      · rw [if_pos hcmd, matching_cons_of_not hcmd]
        exact ih

end Completion

section Keys

variable {ed : Editor} {sh : FinshShell} {rows history : List (List (BitVec 8))} {c : BitVec 8}
  {tab : SymTab} {t : List (BitVec 8)} {i : ℕ}

theorem completion_eq (ht : t ≠ []) : tab.completion t = match matching t tab.names with
    | [] => t
    | command :: commands => commonPrefixes command commands := by
  unfold SymTab.completion
  rw [if_neg ht]
  rfl

theorem mem_matching {command : CString} (h : command ∈ matching t tab.names) :
    t <+: command ∧ IsLine command := by
  obtain ⟨hmem, hpre⟩ := List.mem_filter.mp h
  obtain ⟨name, hname, rfl⟩ := List.mem_map.mp hmem
  have hname' := (List.mem_filter.mp hname).1
  refine ⟨List.isPrefixOf_iff_prefix.mp hpre, tab.fits name hname', fun hzero => ?_⟩
  exact tab.nonzero name hname' (List.mem_of_mem_drop hzero)

/-- A completion is a line again, and it begins with the text. -/
theorem completion_spec (tab : SymTab) (ht : IsLine t) :
    t <+: tab.completion t ∧ IsLine (tab.completion t) := by
  by_cases hnil : t = []
  · subst hnil
    exact ⟨List.nil_prefix, isLine_nil⟩
  · rw [completion_eq hnil]
    cases hmatch : matching t tab.names with
    | nil => exact ⟨List.prefix_rfl, ht⟩
    | cons command commands =>
        have hall : ∀ u ∈ command :: commands, t <+: u ∧ IsLine u := by
          rw [← hmatch]
          exact fun u => mem_matching
        have hcommand := hall command List.mem_cons_self
        have hfirst : commonPrefixes command commands <+: command :=
          (prefix_commonPrefixes_iff.mp List.prefix_rfl).1
        refine ⟨prefix_commonPrefixes_iff.mpr ⟨hcommand.1, ?_⟩, ?_, ?_⟩
        · exact fun u hu => (hall u (List.mem_cons_of_mem _ hu)).1
        · exact hfirst.length_le.trans_lt hcommand.2.length_lt
        · exact fun hzero => hcommand.2.nonzero (hfirst.subset hzero)

theorem mshAutoComplete_eq (hline : sh.line = lineOf t) (ht : IsLine t) :
    sh.mshAutoComplete tab = some { sh with line := lineOf (tab.completion t) } := by
  obtain ⟨hpre, hlast⟩ := completion_spec tab ht
  have hsame : { sh with line := lineOf t } = sh := by rw [← hline]
  unfold FinshShell.mshAutoComplete
  rw [strlen_eq hline ht, Option.bind_eq_bind, Option.bind_some, take_fromLine hline]
  by_cases hnil : t = []
  · rw [if_pos hnil]
    unfold SymTab.completion
    rw [if_pos hnil, hsame]
    rfl
  · rw [if_neg hnil]
    rw [completion_eq hnil] at hpre hlast ⊢
    rcases @completeFrom_eq t tab.names hnil with ⟨hmatch, hloop⟩ |
      ⟨command, commands, k, hmatch, hloop, hle, htake⟩
    · rw [hloop, hmatch]
      exact congrArg some hsame.symm
    · rw [hmatch] at hpre hlast ⊢
      have hcommand : IsLine command := (mem_matching (hmatch ▸ List.mem_cons_self)).2
      rw [hloop]
      dsimp only
      rw [if_pos (hle.trans hcommand.length_lt.le), htake]
      refine congrArg some ?_
      rw [hline]
      unfold lineOf
      rw [put_pad hpre.length_le hlast.length_lt.le]

theorem tabKey_shell (h : ed.Valid) :
    (ed.shell rows).tabKey tab = some ((ed.press tab .tab).shell rows) := by
  unfold FinshShell.tabKey
  rw [mshAutoComplete_eq line_shell h.text, Option.bind_some]
  exact toEnd_eq rfl (completion_spec tab h.text).2

/-! ### The return key -/

theorem remember_eq (hline : sh.line = lineOf t) (hcounter : sh.lineCharCounter = t.length) :
    sh.remember i = { sh with cmdHistory := sh.cmdHistory.set i (lineOf t) } := by
  unfold FinshShell.remember
  rw [hline, hcounter]
  unfold lineOf
  rw [take_pad]
  rfl

/-- What stands last in the history is found in the array. -/
theorem getLast?_eq_iff (hlines : ∀ u ∈ history, IsLine u) (ht : IsLine t)
    (hs : Stores rows history) (hne : history ≠ []) :
    rows[history.length - 1]? = some (lineOf t) ↔ history.getLast? = some t := by
  have hlength : 0 < history.length := List.length_pos_iff.mpr hne
  have hlast : history.length - 1 < history.length := by omega
  rw [hs.row _ hlast, List.getLast?_eq_getElem?, List.getElem?_eq_getElem hlast, Option.some_inj,
    Option.some_inj, lineOf_inj (isLine_getD hlines hlast) ht, List.getD_eq_getElem?_getD,
    List.getElem?_eq_getElem hlast, Option.getD_some]

theorem stores_append (hs : Stores rows history) (hlt : history.length < FINSH_HISTORY_LINES) :
    Stores (rows.set history.length (lineOf t)) (history ++ [t]) := by
  have hlength := hs.length
  constructor
  · rw [List.length_set]
    exact hs.length
  · intro i hi
    rw [List.length_append, List.length_singleton] at hi
    rw [List.getElem?_set, List.getD_eq_getElem?_getD]
    by_cases hlast : history.length = i
    · rw [if_pos hlast, if_pos (by omega), ← hlast, List.getElem?_concat_length, Option.getD_some]
    · rw [if_neg hlast, hs.row i (by omega), List.getElem?_append_left (by omega),
        List.getD_eq_getElem?_getD]

theorem stores_shift (hs : Stores rows history) (hfull : history.length = FINSH_HISTORY_LINES) :
    Stores ((rows.drop 1 ++ rows.drop 14).set (FINSH_HISTORY_LINES - 1) (lineOf t))
      (history.tail ++ [t]) := by
  have hlength := hs.length
  have hlines : FINSH_HISTORY_LINES = 15 := rfl
  constructor
  · rw [List.length_set, List.length_append, List.length_drop, List.length_drop]
    omega
  · intro i hi
    rw [List.length_append, List.length_singleton, List.length_tail] at hi
    rw [List.getElem?_set, List.getD_eq_getElem?_getD]
    by_cases hlast : FINSH_HISTORY_LINES - 1 = i
    · have htail : history.tail.length = i := by
        rw [List.length_tail]
        omega
      rw [if_pos hlast, if_pos, ← htail, List.getElem?_concat_length, Option.getD_some]
      rw [List.length_append, List.length_drop, List.length_drop]
      omega
    · rw [if_neg hlast, List.getElem?_append_left (by rw [List.length_drop]; omega),
        List.getElem?_append_left (by rw [List.length_tail]; omega), List.getElem?_drop,
        List.getElem?_tail, Nat.add_comm, hs.row (i + 1) (by omega), List.getD_eq_getElem?_getD]

theorem length_remember (h : history.length ≤ FINSH_HISTORY_LINES) :
    (remember t history).length ≤ FINSH_HISTORY_LINES := by
  have hlines : FINSH_HISTORY_LINES = 15 := rfl
  unfold remember
  split
  · exact h
  · split
    · rw [List.length_append, List.length_singleton]
      omega
    · rw [List.length_append, List.length_singleton, List.length_tail]
      omega

theorem mem_remember {u : List (BitVec 8)} (h : u ∈ remember t history) : u ∈ history ∨ u = t := by
  unfold remember at h
  split at h
  · exact Or.inl h
  · split at h
    · rcases List.mem_append.mp h with hold | hnew
      · exact Or.inl hold
      · exact Or.inr (List.mem_singleton.mp hnew)
    · rcases List.mem_append.mp h with hold | hnew
      · exact Or.inl (List.mem_of_mem_tail hold)
      · exact Or.inr (List.mem_singleton.mp hnew)

/-- The fields of the history hold these texts. -/
structure Recalls (sh : FinshShell) (history : List (List (BitVec 8))) : Prop where
  stores : Stores sh.cmdHistory history
  count : sh.historyCount = history.length
  length_le : history.length ≤ FINSH_HISTORY_LINES
  lines : ∀ u ∈ history, IsLine u

/-- The cases of `shell_push_history` are those of the abstract history. -/
theorem storeHistory_eq (h : Recalls sh history) (ht : IsLine t) (hline : sh.line = lineOf t)
    (hcounter : sh.lineCharCounter = t.length) :
    ∃ rows, Stores rows (remember t history) ∧ sh.storeHistory =
      { sh with cmdHistory := rows, historyCount := (remember t history).length } := by
  have hs := h.stores
  have hcount := h.count
  have hle := h.length_le
  have hlines : FINSH_HISTORY_LINES = 15 := rfl
  have hsame' : { sh with cmdHistory := sh.cmdHistory, historyCount := history.length } = sh := by
    rw [← hcount]
  unfold FinshShell.storeHistory remember
  by_cases hnil : t = []
  · have hzero : sh.lineCharCounter = 0 := by rw [hcounter, hnil, List.length_nil]
    rw [if_neg (not_not.mpr hzero), if_pos (Or.inl hnil)]
    exact ⟨_, hs, hsame'.symm⟩
  · have hpos : sh.lineCharCounter ≠ 0 := by
      rw [hcounter]
      exact fun hzero => hnil (List.length_eq_zero_iff.mp hzero)
    rw [if_pos hpos]
    by_cases hfull : FINSH_HISTORY_LINES ≤ history.length
    · have hlength : history.length = FINSH_HISTORY_LINES := Nat.le_antisymm hle hfull
      have hne : history ≠ [] := by
        intro hempty
        rw [hempty, List.length_nil] at hlength
        omega
      have hlast : sh.cmdHistory[FINSH_HISTORY_LINES - 1]? = some sh.line ↔
          history.getLast? = some t := by
        rw [← hlength, hline]
        exact getLast?_eq_iff h.lines ht hs hne
      rw [if_pos (show FINSH_HISTORY_LINES ≤ sh.historyCount from hfull.trans_eq hcount.symm)]
      by_cases hsame : history.getLast? = some t
      · rw [if_neg (not_not.mpr (hlast.mpr hsame)), if_pos (Or.inr hsame)]
        exact ⟨_, hs, hsame'.symm⟩
      · have hlength' : (history.tail ++ [t]).length = FINSH_HISTORY_LINES := by
          rw [List.length_append, List.length_singleton, List.length_tail]
          omega
        rw [if_pos (not_congr hlast |>.mpr hsame), if_neg (fun hor => hor.elim hnil hsame),
          if_neg (by omega), hlength']
        refine ⟨_, stores_shift hs hlength, ?_⟩
        have hmoved := @remember_eq
          { sh with cmdHistory := sh.cmdHistory.drop 1 ++ sh.cmdHistory.drop 14 } t
          (FINSH_HISTORY_LINES - 1) hline hcounter
        exact congrArg (fun sh : FinshShell => { sh with historyCount := FINSH_HISTORY_LINES })
          hmoved
    · rw [if_neg (show ¬FINSH_HISTORY_LINES ≤ sh.historyCount from hcount ▸ hfull)]
      have hnew : (sh.historyCount = 0 ∨ sh.cmdHistory[sh.historyCount - 1]? ≠ some sh.line) ↔
          history.getLast? ≠ some t := by
        rw [hcount, hline]
        by_cases hempty : history = []
        · rw [hempty]
          exact ⟨fun _ => by simp, fun _ => Or.inl rfl⟩
        · rw [or_iff_right (fun hzero => hempty (List.length_eq_zero_iff.mp hzero))]
          exact not_congr (getLast?_eq_iff h.lines ht hs hempty)
      by_cases hsame : history.getLast? = some t
      · rw [if_neg fun hor => hnew.mp hor hsame, if_pos (Or.inr hsame)]
        exact ⟨_, hs, hsame'.symm⟩
      · rw [if_pos (hnew.mpr hsame), if_neg (fun hor => hor.elim hnil hsame),
          if_pos (Nat.not_le.mp hfull), List.length_append, List.length_singleton]
        refine ⟨_, stores_append hs (Nat.not_le.mp hfull), ?_⟩
        rw [remember_eq hline hcounter, hcount]

theorem enterKey_eq (h : Recalls sh history) (ht : IsLine t) (hline : sh.line = lineOf t)
    (hcounter : sh.lineCharCounter = t.length) :
    ∃ rows, Stores rows (remember t history) ∧ sh.enterKey = some { sh with
      cmdHistory := rows
      historyCount := (remember t history).length
      currentHistory := (remember t history).length
      executed := (lineOf t, t.length) :: sh.executed
      line := lineOf []
      lineCharCounter := 0
      lineCurpos := 0 } := by
  obtain ⟨rows, hs, hstore⟩ := storeHistory_eq h ht hline hcounter
  refine ⟨rows, hs, ?_⟩
  unfold FinshShell.enterKey FinshShell.pushHistory
  rw [if_neg (show ¬FINSH_CMD_SIZE < sh.lineCharCounter from
    hcounter ▸ Nat.not_lt.mpr ht.length_lt.le), hstore]
  dsimp only [Option.map_some]
  rw [hline, hcounter]
  rfl

theorem enterKey_shell (h : ed.Valid) (hs : Stores rows ed.history) :
    ∃ rows', Stores rows' (remember ed.text ed.history) ∧
      (ed.shell rows).enterKey = some ((ed.press tab .enter).shell rows') := by
  have hrecalls : Recalls (ed.shell rows) ed.history := ⟨hs, rfl, h.history_le, h.lines⟩
  obtain ⟨rows', hs', henter⟩ := enterKey_eq hrecalls h.text line_shell lineCharCounter_shell
  exact ⟨rows', hs', henter⟩

/-! ### One byte -/

theorem load_valid (h : ed.Valid) (hi : i < ed.history.length) : (ed.load i).Valid :=
  ⟨isLine_getD h.lines hi, Nat.le_refl _, h.history_le, h.lines, hi.le⟩

theorem insert_valid (h : ed.Valid) (hc : c ≠ 0) : (ed.insert c).Valid := by
  have hcursor := h.cursor_le
  unfold insert
  split
  · exact ⟨isLine_nil, Nat.le_refl _, h.history_le, h.lines, h.place_le⟩
  · next hfull =>
    refine ⟨h.text.insertIdx hcursor hc hfull, ?_, h.history_le, h.lines, h.place_le⟩
    dsimp only
    rw [List.length_insertIdx_of_le_length hcursor]
    omega

theorem press_valid (h : ed.Valid) {k : Key} (hk : k ≠ .char 0) : (ed.press tab k).Valid := by
  have hcursor := h.cursor_le
  have hplace := h.place_le
  unfold press
  cases k with
  | up =>
      dsimp only
      split
      · exact h
      · exact load_valid h (by omega)
  | down =>
      dsimp only
      split
      · exact h
      · next hne =>
        have hpos : 0 < ed.history.length := List.length_pos_iff.mpr hne
        exact load_valid h (by omega)
  | left => exact { h with cursor_le := (Nat.sub_le _ _).trans hcursor }
  | right => exact { h with cursor_le := Nat.min_le_right _ _ }
  | tab =>
      exact { h with text := (completion_spec tab h.text).2, cursor_le := Nat.le_refl _ }
  | erase =>
      dsimp only
      split
      · exact h
      · refine { h with text := h.text.eraseIdx, cursor_le := ?_ }
        dsimp only
        rw [List.length_eraseIdx_of_lt (by omega)]
        omega
  | enter =>
      refine ⟨isLine_nil, Nat.le_refl _, length_remember h.history_le, ?_, Nat.le_refl _⟩
      intro u hu
      rcases mem_remember hu with hold | rfl
      · exact h.lines u hold
      · exact h.text
  | char c =>
      apply insert_valid h
      rintro rfl
      exact hk rfl

theorem plainKey_ne_char_zero : plainKey c ≠ some (.char 0) := by
  unfold plainKey
  split
  · exact fun h => by cases h
  · next hc =>
    intro h
    split at h
    · cases h
    · split at h
      · cases h
      · split at h
        · cases h
        · cases h
          exact hc rfl

/-- `ed'` is the editor that the shell holds when the round has ended with `r`. -/
def Leads (r : Option FinshShell) (ed' : Editor) : Prop :=
  ed'.Valid ∧ ∃ rows, Stores rows ed'.history ∧ r = some (ed'.shell rows)

/-- Only the return key changes the history. -/
theorem history_press {k : Key} (hk : k ≠ .enter) : (ed.press tab k).history = ed.history := by
  unfold press
  cases k with
  | up =>
      dsimp only
      split
      · rfl
      · rfl
  | down =>
      dsimp only
      split
      · rfl
      · rfl
  | left => rfl
  | right => rfl
  | tab => rfl
  | erase =>
      dsimp only
      split
      · rfl
      · rfl
  | enter => exact absurd rfl hk
  | char c =>
      dsimp only
      unfold insert
      split
      · rfl
      · rfl

theorem leads_press {k : Key} {r : Option FinshShell} (h : ed.Valid)
    (hs : Stores rows ed.history) (hchar : k ≠ .char 0) (henter : k ≠ .enter)
    (hr : r = some ((ed.press tab k).shell rows)) :
    Leads r ((some k).elim ed (ed.press tab)) := by
  refine ⟨press_valid h hchar, rows, ?_, hr⟩
  rw [Option.elim_some, history_press henter]
  exact hs

theorem leads_inputKey (h : ed.Valid) (hs : Stores rows ed.history)
    (hcalm : ¬(ed.text.length + 1 = FINSH_CMD_SIZE ∧ ∃ d, plainKey c = some (.char d))) :
    Leads ((ed.shell rows).inputKey tab c) ((plainKey c).elim ed (ed.press tab)) := by
  have hchar := @plainKey_ne_char_zero c
  unfold FinshShell.inputKey
  unfold plainKey at hcalm hchar ⊢
  by_cases hzero : c = 0
  · rw [if_pos hzero, if_pos hzero]
    exact ⟨h, rows, hs, rfl⟩
  rw [if_neg hzero] at hcalm hchar
  rw [if_neg hzero, if_neg hzero]
  by_cases htab : c = 0x09
  · rw [if_pos htab, if_pos htab]
    exact leads_press h hs (by simp) (by simp) (tabKey_shell h)
  rw [if_neg htab] at hcalm hchar
  rw [if_neg htab, if_neg htab]
  by_cases herase : c = 0x7f ∨ c = 0x08
  · rw [if_pos herase, if_pos herase]
    exact leads_press h hs (by simp) (by simp) (eraseKey_shell h)
  rw [if_neg herase] at hcalm hchar
  rw [if_neg herase, if_neg herase]
  by_cases henter : c = 0x0d ∨ c = 0x0a
  · rw [if_pos henter, if_pos henter, Option.elim_some]
    exact ⟨press_valid (k := .enter) h (by simp), enterKey_shell h hs⟩
  rw [if_neg henter] at hcalm hchar
  rw [if_neg henter, if_neg henter]
  have hfull : ed.text.length + 1 ≠ FINSH_CMD_SIZE := fun heq => hcalm ⟨heq, c, rfl⟩
  exact leads_press h hs (fun heq => hchar (congrArg some heq)) (by simp)
    (normalChar_shell h hfull)

end Keys

end Editor

end Shell

end LuojiOs
