import LuojiOs.Env.Nvram
import LuojiOs.Support.Buffer

/-!
# The command line of `os/shell.c`

`shell_thread_entry` reads one byte in each round of its loop.  The buffer of the line and its
two counters stand next to each other in `struct finsh_shell`, so that `strlen` of a line
without a NUL reads the counters.  A round has no result if it touches memory outside the
structure.

What is printed is left out, and the commands are: `executed` records what `msh_exec` is
called with, newest first.  No function reads it.
-/

namespace LuojiOs

namespace Shell

def FINSH_HISTORY_LINES : ℕ := 15
def FINSH_CMD_SIZE : ℕ := 80

/-- `enum input_stat`.  Any other number in `stat` acts as `waitNormal`. -/
inductive InputStat
  | waitNormal
  | waitSpecKey
  | waitFuncKey
  deriving DecidableEq, Repr

structure FinshShell where
  stat : InputStat
  currentHistory : ℕ
  historyCount : ℕ
  cmdHistory : List (List (BitVec 8))
  line : List (BitVec 8)
  lineCharCounter : ℕ
  lineCurpos : ℕ
  executed : List (List (BitVec 8) × ℕ)

/-- The names between `__fsymtab_start` and `__fsymtab_end`.  Each command fits on a line. -/
structure SymTab where
  names : List CString
  fits : ∀ name ∈ names, (name.drop 6).length < FINSH_CMD_SIZE
  nonzero : ∀ name ∈ names, 0 ∉ name

namespace FinshShell

/-! ## Memory -/

/-- `memmove(&shell->line[dst], &shell->line[src], n)` -/
def memmove (dst src n : ℕ) (sh : FinshShell) : Option FinshShell :=
  if src + n ≤ FINSH_CMD_SIZE ∧ dst + n ≤ FINSH_CMD_SIZE then
    some { sh with line := Buffer.put sh.line dst ((sh.line.drop src).take n) }
  else none

/-- `shell->line[i] = c` -/
def store (i : ℕ) (c : BitVec 8) (sh : FinshShell) : Option FinshShell :=
  if i < FINSH_CMD_SIZE then some { sh with line := sh.line.set i c } else none

/-- What stands in the structure from `line` on. -/
def fromLine (sh : FinshShell) : List (BitVec 8) :=
  sh.line ++ [BitVec.ofNat 8 sh.lineCharCounter, BitVec.ofNat 8 sh.lineCurpos]

/-- `strlen(shell->line)` -/
def strlen (sh : FinshShell) : Option ℕ :=
  if 0 ∈ sh.fromLine then some (sh.fromLine.idxOf 0) else none

/-- `shell->line_curpos = shell->line_char_counter = strlen(shell->line)` -/
def toEnd (sh : FinshShell) : Option FinshShell :=
  sh.strlen.map fun n => { sh with lineCharCounter := n, lineCurpos := n }

/-! ## History -/

/-- The line at the place `index` of the history: cleared, and filled with what is typed. -/
def remember (index : ℕ) (sh : FinshShell) : FinshShell :=
  { sh with
    cmdHistory := sh.cmdHistory.set index
      (sh.line.take sh.lineCharCounter ++
        List.replicate (FINSH_CMD_SIZE - sh.lineCharCounter) 0) }

/-- `shell_push_history` up to its last statement. -/
def storeHistory (sh : FinshShell) : FinshShell :=
  if sh.lineCharCounter ≠ 0 then
    if FINSH_HISTORY_LINES ≤ sh.historyCount then
      if sh.cmdHistory[FINSH_HISTORY_LINES - 1]? ≠ some sh.line then
        let sh := { sh with cmdHistory := sh.cmdHistory.drop 1 ++ sh.cmdHistory.drop 14 }
        { sh.remember (FINSH_HISTORY_LINES - 1) with historyCount := FINSH_HISTORY_LINES }
      else sh
    else if sh.historyCount = 0 ∨ sh.cmdHistory[sh.historyCount - 1]? ≠ some sh.line then
      { sh.remember sh.historyCount with historyCount := sh.historyCount + 1 }
    else sh
  else sh

/-- `shell_push_history`.  A line that is longer than a place of the history is not followed
any further. -/
def pushHistory (sh : FinshShell) : Option FinshShell :=
  if FINSH_CMD_SIZE < sh.lineCharCounter then none
  else
    let sh := sh.storeHistory
    some { sh with currentHistory := sh.historyCount }

/-- `memcpy(shell->line, &shell->cmd_history[shell->current_history][0], FINSH_CMD_SIZE)`, and
the cursor to the end. -/
def recallLine (sh : FinshShell) : Option FinshShell :=
  match sh.cmdHistory[sh.currentHistory]? with
  | none => none
  | some row => toEnd { sh with line := row }

def upKey (sh : FinshShell) : Option FinshShell :=
  if 0 < sh.currentHistory then
    { sh with currentHistory := sh.currentHistory - 1 }.recallLine
  else some { sh with currentHistory := 0 }

/-- The subtraction is one of `int`. -/
def downKey (sh : FinshShell) : Option FinshShell :=
  if (sh.currentHistory : ℤ) < sh.historyCount - 1 then
    { sh with currentHistory := sh.currentHistory + 1 }.recallLine
  else if sh.historyCount ≠ 0 then
    { sh with currentHistory := sh.historyCount - 1 }.recallLine
  else some sh

/-! ## The cursor -/

def leftKey (sh : FinshShell) : FinshShell :=
  if sh.lineCurpos ≠ 0 then { sh with lineCurpos := sh.lineCurpos - 1 } else sh

def rightKey (sh : FinshShell) : FinshShell :=
  if sh.lineCurpos < sh.lineCharCounter then { sh with lineCurpos := sh.lineCurpos + 1 } else sh

/-! ## Completion -/

/-- `str_common` -/
def strCommon : CString → CString → ℕ
  | c :: str1, d :: str2 => if c = d then strCommon str1 str2 + 1 else 0
  | _, _ => 0

/-- The loop of `msh_auto_complete` over the table, with `min_length` and `name_ptr`. -/
def completeFrom (pre : CString) : List CString → ℕ → Option CString → ℕ × Option CString
  | [], minLength, namePtr => (minLength, namePtr)
  | name :: names, minLength, namePtr =>
    if ¬(cstr "__cmd_").isPrefixOf name then completeFrom pre names minLength namePtr
    else
      let cmdName := name.drop 6
      if pre.isPrefixOf cmdName then
        let namePtr := if minLength = 0 then some cmdName else namePtr
        let minLength := if minLength = 0 then cmdName.length else minLength
        let length := (namePtr.map fun name => strCommon name cmdName).getD 0
        completeFrom pre names (if length < minLength then length else minLength) namePtr
      else completeFrom pre names minLength namePtr

/-- `msh_auto_complete(&shell->line[0])`.  An empty line is answered with the list of the
commands. -/
def mshAutoComplete (tab : SymTab) (sh : FinshShell) : Option FinshShell := do
  let n ← sh.strlen
  let pre := sh.fromLine.take n
  if pre = [] then return sh
  else
    match completeFrom pre tab.names 0 none with
    | (_, none) => return sh
    | (minLength, some name) =>
      if minLength ≤ FINSH_CMD_SIZE then
        return { sh with line := Buffer.put sh.line 0 (name.take minLength) }
      else none

def tabKey (tab : SymTab) (sh : FinshShell) : Option FinshShell :=
  (sh.mshAutoComplete tab).bind toEnd

/-! ## Normal input -/

/-- The backspace key.  The counters are of type `unsigned char`. -/
def eraseKey (sh : FinshShell) : Option FinshShell :=
  if sh.lineCurpos = 0 then some sh
  else
    let sh := { sh with
      lineCharCounter := (sh.lineCharCounter + 255) % 256
      lineCurpos := sh.lineCurpos - 1 }
    if sh.lineCurpos < sh.lineCharCounter then
      (sh.memmove sh.lineCurpos (sh.lineCurpos + 1) (sh.lineCharCounter - sh.lineCurpos)).bind
        (·.store sh.lineCharCounter 0)
    else sh.store sh.lineCharCounter 0

/-- The return key. -/
def enterKey (sh : FinshShell) : Option FinshShell :=
  sh.pushHistory.map fun sh => { sh with
    executed := (sh.line, sh.lineCharCounter) :: sh.executed
    line := List.replicate FINSH_CMD_SIZE 0
    lineCharCounter := 0
    lineCurpos := 0 }

/-- A normal character.  When the line is full, the counters are cleared and the line is
not. -/
def normalChar (c : BitVec 8) (sh : FinshShell) : Option FinshShell :=
  let sh := if FINSH_CMD_SIZE ≤ sh.lineCharCounter then { sh with lineCharCounter := 0 } else sh
  let typed :=
    if sh.lineCurpos < sh.lineCharCounter then
      (sh.memmove (sh.lineCurpos + 1) sh.lineCurpos (sh.lineCharCounter - sh.lineCurpos)).bind
        (·.store sh.lineCurpos c)
    else sh.store sh.lineCharCounter c
  typed.map fun sh =>
    let sh := { sh with
      lineCharCounter := (sh.lineCharCounter + 1) % 256
      lineCurpos := (sh.lineCurpos + 1) % 256 }
    if FINSH_CMD_SIZE ≤ sh.lineCharCounter then
      { sh with lineCharCounter := 0, lineCurpos := 0 }
    else sh

/-- A round from the test for a null byte on. -/
def inputKey (tab : SymTab) (c : BitVec 8) (sh : FinshShell) : Option FinshShell :=
  if c = 0 then some sh
  else if c = 0x09 then sh.tabKey tab
  else if c = 0x7f ∨ c = 0x08 then sh.eraseKey
  else if c = 0x0d ∨ c = 0x0a then sh.enterKey
  else sh.normalChar c

/-- One round of `shell_thread_entry`, for the byte `c`.  `getchar` returns a `char`, which is
signed. -/
def round (tab : SymTab) (sh : FinshShell) (c : BitVec 8) : Option FinshShell :=
  if c.toInt < 0 then some sh
  else if c = 0x1b then some { sh with stat := .waitSpecKey }
  else
    match sh.stat with
    | .waitSpecKey =>
      if c = 0x5b then some { sh with stat := .waitFuncKey }
      else { sh with stat := .waitNormal }.inputKey tab c
    | .waitFuncKey =>
      let sh := { sh with stat := .waitNormal }
      if c = 0x41 then sh.upKey
      else if c = 0x42 then sh.downKey
      else if c = 0x44 then some sh.leftKey
      else if c = 0x43 then some sh.rightKey
      else sh.inputKey tab c
    | .waitNormal => sh.inputKey tab c

end FinshShell

/-- `shellInit`, on the memory that `malloc` has returned: only the line is cleared. -/
def shellInit (memory : FinshShell) : FinshShell :=
  { memory with
    line := List.replicate FINSH_CMD_SIZE 0
    lineCharCounter := 0
    lineCurpos := 0
    executed := [] }

end Shell

end LuojiOs
