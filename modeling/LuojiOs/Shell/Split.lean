import LuojiOs.Env.Nvram
import LuojiOs.Support.Spans
import Mathlib.Data.List.Forall2

/-!
# The arguments of a command

`msh_split` takes a line apart where it stands: it overwrites the blanks and the closing
quotes with NULs, and the arguments are addresses in the line.  Addresses count from the
beginning of the line.  A byte can be read up to the NUL at the end of the line, and written
before it; any other access has no result.
-/

namespace LuojiOs

namespace Shell

open Bytes

def FINSH_ARG_MAX : ℕ := 10

/-- A space or a tab. -/
def isBlank (c : BitVec 8) : Bool := c = 0x20 ∨ c = 0x09

/-- The character `"`. -/
def quote : BitVec 8 := 0x22

def backslash : BitVec 8 := 0x5c

/-- The line and the variables of `msh_split`; `argc` is the length of `argv`. -/
structure Splitter where
  cmd : Bytes
  ptr : ℕ
  position : ℕ
  argv : List ℕ

namespace Splitter

/-- `ptr ++; position ++;` -/
def next (s : Splitter) : Splitter := { s with ptr := s.ptr + 1, position := s.position + 1 }

/-- `*ptr = '\0';` -/
def cut (length : ℕ) (s : Splitter) : Option Splitter := do
  let cmd ← s.cmd.setIn length s.ptr 0
  return { s with cmd := cmd }

/-- `argv[argc] = ptr; argc ++;` -/
def push (s : Splitter) : Option Splitter :=
  if s.argv.length < FINSH_ARG_MAX then some { s with argv := s.argv ++ [s.ptr] } else none

/-- `while ((*ptr == ' ' || *ptr == '\t') && position < length)` -/
def stripBlanks (length : ℕ) : ℕ → Splitter → Option Splitter
  | 0, _ => none
  | fuel + 1, s => do
    let c ← s.cmd.getIn (length + 1) s.ptr
    if isBlank c ∧ s.position < length then
      let s ← s.cut length
      stripBlanks length fuel s.next
    else return s

/-- `while (*ptr != '"' && position < length)` -/
def skipString (length : ℕ) : ℕ → Splitter → Option Splitter
  | 0, _ => none
  | fuel + 1, s => do
    let c ← s.cmd.getIn (length + 1) s.ptr
    if c ≠ quote ∧ s.position < length then
      if c = backslash then
        let d ← s.cmd.getIn (length + 1) (s.ptr + 1)
        if d = quote then skipString length fuel s.next.next else skipString length fuel s.next
      else skipString length fuel s.next
    else return s

/-- `while ((*ptr != ' ' && *ptr != '\t') && position < length)` -/
def skipWord (length : ℕ) : ℕ → Splitter → Option Splitter
  | 0, _ => none
  | fuel + 1, s => do
    let c ← s.cmd.getIn (length + 1) s.ptr
    if ¬isBlank c ∧ s.position < length then skipWord length fuel s.next else return s

/-- The strings that are printed when there are too many. -/
def printArgs (length : ℕ) (s : Splitter) : Option (List CString) :=
  s.argv.mapM (s.cmd.stringIn (length + 1) (length + 1))

/-- The loop of `msh_split`. -/
def split (length : ℕ) : ℕ → Splitter → Option Splitter
  | 0, _ => none
  | fuel + 1, s =>
    if s.position < length then do
      let s ← s.stripBlanks length (length + 1)
      if FINSH_ARG_MAX ≤ s.argv.length then
        let _ ← s.printArgs length
        return s
      else if length ≤ s.position then return s
      else
        let c ← s.cmd.getIn (length + 1) s.ptr
        if c = quote then
          let s ← s.next.push
          let s ← s.skipString length (length + 1)
          if length ≤ s.position then return s
          else
            let s ← s.cut length
            split length fuel s.next
        else
          let s ← s.push
          let s ← s.skipWord length (length + 1)
          if length ≤ s.position then return s else split length fuel s
    else some s

end Splitter

def mshSplit (cmd : Bytes) (length : ℕ) : Option Splitter :=
  Splitter.split length (length + 1) ⟨cmd, 0, 0, []⟩

/-! ## The three loops -/

namespace Splitter

variable {m : Bytes} {p k n fuel : ℕ} {argv : List ℕ}

theorem stripBlanks_spec (m : Bytes) (argv : List ℕ) (hp : p ≤ n) (hf : n - p < fuel) :
    ∃ k, Span (isBlank · = true) m n p k ∧
      stripBlanks n fuel ⟨m, p, p, argv⟩ = some ⟨m.fill p 0 k, p + k, p + k, argv⟩ := by
  induction fuel generalizing m p with
  | zero => exact absurd hf (Nat.not_lt_zero _)
  | succ fuel ih =>
      unfold stripBlanks
      dsimp only
      rw [getIn_of_lt (by omega), Option.bind_eq_bind, Option.bind_some]
      by_cases hc : isBlank (m p) = true ∧ p < n
      · obtain ⟨k, hspan, hrun⟩ := ih (m.set p 0) (p := p + 1) (by omega) (by omega)
        have hspan' : Span (isBlank · = true) m n (p + 1) k :=
          hspan.congr fun x hx => (set_of_ne (by omega)).symm
        refine ⟨k + 1, hspan'.succ hc.1, ?_⟩
        rw [if_pos hc]
        unfold cut
        dsimp only
        rw [setIn_of_lt hc.2]
        change stripBlanks n fuel ⟨m.set p 0, p + 1, p + 1, argv⟩ = _
        rw [hrun, fill_succ, Nat.add_assoc, Nat.add_comm 1 k]
      · refine ⟨0, span_zero hp fun hlt hb => hc ⟨hb, hlt⟩, ?_⟩
        rw [if_neg hc, fill_zero]
        rfl

theorem skipWord_spec (m : Bytes) (argv : List ℕ) (hp : p ≤ n) (hf : n - p < fuel) :
    ∃ k, Span (¬isBlank · = true) m n p k ∧
      skipWord n fuel ⟨m, p, p, argv⟩ = some ⟨m, p + k, p + k, argv⟩ := by
  induction fuel generalizing p with
  | zero => exact absurd hf (Nat.not_lt_zero _)
  | succ fuel ih =>
      unfold skipWord
      dsimp only
      rw [getIn_of_lt (by omega), Option.bind_eq_bind, Option.bind_some]
      by_cases hc : ¬isBlank (m p) = true ∧ p < n
      · obtain ⟨k, hspan, hrun⟩ := ih (p := p + 1) (by omega) (by omega)
        refine ⟨k + 1, hspan.succ hc.1, ?_⟩
        rw [if_pos hc]
        change skipWord n fuel ⟨m, p + 1, p + 1, argv⟩ = _
        rw [hrun, Nat.add_assoc, Nat.add_comm 1 k]
      · refine ⟨0, span_zero hp fun hlt hb => hc ⟨hb, hlt⟩, ?_⟩
        rw [if_neg hc]
        rfl

/-- A backslash can hide a quote, but not the end of the line. -/
theorem skipString_ends (argv : List ℕ) (hend : m n = 0) (hp : p ≤ n) (hf : n - p < fuel) :
    ∃ q, p ≤ q ∧ q ≤ n ∧ skipString n fuel ⟨m, p, p, argv⟩ = some ⟨m, q, q, argv⟩ := by
  induction fuel generalizing p with
  | zero => exact absurd hf (Nat.not_lt_zero _)
  | succ fuel ih =>
      unfold skipString
      dsimp only
      rw [getIn_of_lt (by omega), Option.bind_eq_bind, Option.bind_some]
      by_cases hc : m p ≠ quote ∧ p < n
      · rw [if_pos hc]
        have hnext : ∃ q, p ≤ q ∧ q ≤ n ∧
            skipString n fuel ⟨m, p + 1, p + 1, argv⟩ = some ⟨m, q, q, argv⟩ := by
          obtain ⟨q, hpq, hqn, hrun⟩ := ih (p := p + 1) (by omega) (by omega)
          exact ⟨q, by omega, hqn, hrun⟩
        by_cases hb : m p = backslash
        · rw [if_pos hb, getIn_of_lt (by omega), Option.bind_some]
          by_cases hd : m (p + 1) = quote
          · have hne : p + 1 ≠ n := by
              intro hn
              rw [hn, hend] at hd
              cases hd
            obtain ⟨q, hpq, hqn, hrun⟩ := ih (p := p + 2) (by omega) (by omega)
            rw [if_pos hd]
            exact ⟨q, by omega, hqn, hrun⟩
          · rw [if_neg hd]
            exact hnext
        · rw [if_neg hb]
          exact hnext
      · rw [if_neg hc]
        exact ⟨p, Nat.le_refl p, hp, rfl⟩

/-- Without backslashes the string ends at the next quote. -/
theorem skipString_spec (argv : List ℕ) (hspan : Span (· ≠ quote) m n p k)
    (hclean : ∀ i < k, m (p + i) ≠ backslash) (hf : n - p < fuel) :
    skipString n fuel ⟨m, p, p, argv⟩ = some ⟨m, p + k, p + k, argv⟩ := by
  induction k generalizing p fuel with
  | zero =>
      obtain ⟨fuel, rfl⟩ := Nat.exists_eq_succ_of_ne_zero (by omega : fuel ≠ 0)
      have hle := hspan.le
      have hstop : ¬(m p ≠ quote ∧ p < n) := fun h => hspan.stop h.2 h.1
      unfold skipString
      dsimp only
      rw [getIn_of_lt (by omega), Option.bind_eq_bind, Option.bind_some, if_neg hstop]
      rfl
  | succ k ih =>
      obtain ⟨fuel, rfl⟩ := Nat.exists_eq_succ_of_ne_zero (by omega : fuel ≠ 0)
      have hle := hspan.le
      have hfirst : m p ≠ quote := hspan.inside 0 (Nat.succ_pos k)
      have hplain : m p ≠ backslash := hclean 0 (Nat.succ_pos k)
      have hrest := fun hf => ih hspan.tail (fun i hi => by
        have := hclean (i + 1) (Nat.succ_lt_succ hi)
        rwa [Nat.add_right_comm, Nat.add_assoc]) (show n - (p + 1) < fuel from hf)
      unfold skipString
      dsimp only
      rw [getIn_of_lt (by omega), Option.bind_eq_bind, Option.bind_some,
        if_pos ⟨hfirst, by omega⟩, if_neg hplain]
      change skipString n fuel ⟨m, p + 1, p + 1, argv⟩ = _
      rw [hrest (by omega), Nat.add_assoc, Nat.add_comm 1 k]

/-! ## One argument -/

section Round

variable {m' : Bytes} {q : ℕ}

/-- The blanks before an argument. -/
theorem split_strip (hp : p < n)
    (hstrip : stripBlanks n (n + 1) ⟨m, p, p, argv⟩ = some ⟨m', q, q, argv⟩) (hq : q < n)
    (hargc : argv.length < FINSH_ARG_MAX) :
    split n (fuel + 1) ⟨m, p, p, argv⟩ =
      if m' q = quote then
        (skipString n (n + 1) ⟨m', q + 1, q + 1, argv ++ [q + 1]⟩).bind fun s =>
          if n ≤ s.position then some s else (s.cut n).bind fun s => split n fuel s.next
      else
        (skipWord n (n + 1) ⟨m', q, q, argv ++ [q]⟩).bind fun s =>
          if n ≤ s.position then some s else split n fuel s := by
  simp only [split]
  rw [if_pos hp, hstrip, Option.bind_eq_bind, Option.bind_some]
  dsimp only
  rw [if_neg (by omega), if_neg (by omega), getIn_of_lt (by omega), Option.bind_eq_bind,
    Option.bind_some]
  unfold push next
  dsimp only
  rw [if_pos hargc, if_pos hargc]
  rfl

/-- An argument between quotes, which end at `e` if not at the end of the line. -/
theorem split_quoted {e : ℕ} (hp : p < n)
    (hstrip : stripBlanks n (n + 1) ⟨m, p, p, argv⟩ = some ⟨m', q, q, argv⟩) (hq : q < n)
    (hargc : argv.length < FINSH_ARG_MAX) (hquote : m' q = quote)
    (hskip : skipString n (n + 1) ⟨m', q + 1, q + 1, argv ++ [q + 1]⟩ =
      some ⟨m', e, e, argv ++ [q + 1]⟩) :
    split n (fuel + 1) ⟨m, p, p, argv⟩ =
      if n ≤ e then some ⟨m', e, e, argv ++ [q + 1]⟩
      else split n fuel ⟨m'.set e 0, e + 1, e + 1, argv ++ [q + 1]⟩ := by
  rw [split_strip hp hstrip hq hargc, if_pos hquote, hskip, Option.bind_some]
  by_cases he : n ≤ e
  · rw [if_pos he, if_pos he]
  · rw [if_neg he, if_neg he]
    unfold cut
    dsimp only
    rw [setIn_of_lt (by omega)]
    rfl

/-- An argument without quotes, which ends at `e`. -/
theorem split_word {e : ℕ} (hp : p < n)
    (hstrip : stripBlanks n (n + 1) ⟨m, p, p, argv⟩ = some ⟨m', q, q, argv⟩) (hq : q < n)
    (hargc : argv.length < FINSH_ARG_MAX) (hquote : m' q ≠ quote)
    (hskip : skipWord n (n + 1) ⟨m', q, q, argv ++ [q]⟩ = some ⟨m', e, e, argv ++ [q]⟩) :
    split n (fuel + 1) ⟨m, p, p, argv⟩ =
      if n ≤ e then some ⟨m', e, e, argv ++ [q]⟩
      else split n fuel ⟨m', e, e, argv ++ [q]⟩ := by
  rw [split_strip hp hstrip hq hargc, if_neg hquote, hskip, Option.bind_some]

end Round

/-! ## Any line -/

theorem exists_printArgs (hend : m n = 0) (hargv : ∀ a ∈ argv, a ≤ n) (ptr position : ℕ) :
    ∃ l, printArgs n ⟨m, ptr, position, argv⟩ = some l := by
  unfold printArgs
  dsimp only
  induction argv with
  | nil => exact ⟨[], rfl⟩
  | cons a argv ih =>
      have hfirst : ∃ s, m.stringIn (n + 1) (n + 1) a = some s :=
        exists_stringIn hend (hargv a List.mem_cons_self) (by omega)
      obtain ⟨s, hs⟩ := hfirst
      obtain ⟨l, hl⟩ := ih fun b hb => hargv b (List.mem_cons_of_mem a hb)
      refine ⟨s :: l, ?_⟩
      rw [List.mapM_cons, hs, Option.bind_eq_bind, Option.bind_some, hl]
      rfl

/-- What holds after a run on any line that ends with a NUL. -/
structure Bounded (n : ℕ) (m : Bytes) (s : Splitter) : Prop where
  argc : s.argv.length ≤ FINSH_ARG_MAX
  argv : ∀ a ∈ s.argv, a ≤ n
  frame : ∀ x, n ≤ x → s.cmd x = m x

theorem Bounded.trans {m' : Bytes} {s : Splitter} (h : Bounded n m' s)
    (hm : ∀ x, n ≤ x → m' x = m x) : Bounded n m s :=
  ⟨h.argc, h.argv, fun x hx => (h.frame x hx).trans (hm x hx)⟩

theorem length_push {a : ℕ} (h : argv.length < FINSH_ARG_MAX) :
    (argv ++ [a]).length ≤ FINSH_ARG_MAX := by
  rw [List.length_append, List.length_singleton]
  exact h

theorem mem_push {a : ℕ} (h : ∀ b ∈ argv, b ≤ n) (ha : a ≤ n) : ∀ b ∈ argv ++ [a], b ≤ n := by
  intro b hb
  rcases List.mem_append.mp hb with hb | hb
  · exact h b hb
  · rwa [List.mem_singleton.mp hb]

/-- A round ends the loop, or it passes at least one byte and goes on. -/
theorem split_round (fuel : ℕ) (hp : p < n) (hend : m n = 0)
    (hargc : argv.length ≤ FINSH_ARG_MAX) (hargv : ∀ a ∈ argv, a ≤ n) :
    (∃ s, split n (fuel + 1) ⟨m, p, p, argv⟩ = some s ∧ Bounded n m s) ∨
      ∃ m' p' a, split n (fuel + 1) ⟨m, p, p, argv⟩ = split n fuel ⟨m', p', p', argv ++ [a]⟩ ∧
        p < p' ∧ p' ≤ n ∧ argv.length < FINSH_ARG_MAX ∧ a ≤ n ∧ ∀ x, n ≤ x → m' x = m x := by
  obtain ⟨k, hspan, hstrip⟩ := stripBlanks_spec m argv hp.le (show n - p < n + 1 by omega)
  have hle := hspan.le
  have hframe : ∀ x, n ≤ x → m.fill p 0 k x = m x := fun x hx => fill_of_outside (by omega)
  have hend' : m.fill p 0 k n = 0 := (hframe n (Nat.le_refl n)).trans hend
  by_cases hgo : p + k < n ∧ argv.length < FINSH_ARG_MAX
  · obtain ⟨hq, hroom⟩ := hgo
    have hdone : ∀ a ≤ n, ∀ e, Bounded n m ⟨m.fill p 0 k, e, e, argv ++ [a]⟩ :=
      fun a ha e => ⟨length_push hroom, mem_push hargv ha, hframe⟩
    by_cases hquote : m.fill p 0 k (p + k) = quote
    · obtain ⟨e, hqe, hen, hskip⟩ := skipString_ends (argv ++ [p + k + 1]) hend'
        (show p + k + 1 ≤ n by omega) (show n - (p + k + 1) < n + 1 by omega)
      rw [split_quoted hp hstrip hq hroom hquote hskip]
      by_cases hlast : n ≤ e
      · rw [if_pos hlast]
        exact Or.inl ⟨_, rfl, hdone _ hq e⟩
      · rw [if_neg hlast]
        refine Or.inr ⟨_, e + 1, p + k + 1, rfl, by omega, by omega, hroom, hq, ?_⟩
        intro x hx
        rw [set_of_ne (by omega), hframe x hx]
    · obtain ⟨j, hword, hskip⟩ := skipWord_spec (m.fill p 0 k) (argv ++ [p + k]) hq.le
        (show n - (p + k) < n + 1 by omega)
      rw [split_word hp hstrip hq hroom hquote hskip]
      by_cases hlast : n ≤ p + k + j
      · rw [if_pos hlast]
        exact Or.inl ⟨_, rfl, hdone _ hq.le _⟩
      · -- a byte that is no blank is passed
        have hj : j ≠ 0 := by
          rintro rfl
          have hnext : m.fill p 0 k (p + k) = m (p + k) := fill_of_outside (by omega)
          have hblank := hword.stop (by omega)
          rw [Nat.add_zero, hnext, not_not] at hblank
          exact hspan.stop hq hblank
        rw [if_neg hlast]
        exact Or.inr ⟨_, _, _, rfl, by omega, by omega, hroom, hq.le, hframe⟩
  · left
    simp only [split]
    rw [if_pos hp, hstrip, Option.bind_eq_bind, Option.bind_some]
    dsimp only
    by_cases hmany : FINSH_ARG_MAX ≤ argv.length
    · obtain ⟨l, hl⟩ := exists_printArgs hend' hargv (p + k) (p + k)
      rw [if_pos hmany, hl]
      exact ⟨_, rfl, hargc, hargv, hframe⟩
    · rw [if_neg hmany, if_pos (by omega)]
      exact ⟨_, rfl, hargc, hargv, hframe⟩

theorem split_bounded (m : Bytes) (argv : List ℕ) (hp : p ≤ n) (hend : m n = 0)
    (hargc : argv.length ≤ FINSH_ARG_MAX) (hargv : ∀ a ∈ argv, a ≤ n) (hf : n - p < fuel) :
    ∃ s, split n fuel ⟨m, p, p, argv⟩ = some s ∧ Bounded n m s := by
  induction fuel generalizing m p argv with
  | zero => exact absurd hf (Nat.not_lt_zero _)
  | succ fuel ih =>
      by_cases hlt : p < n
      · rcases split_round fuel hlt hend hargc hargv with
          hdone | ⟨m', p', a, hrun, hpp, hpn, hroom, ha, hframe⟩
        · exact hdone
        · obtain ⟨s, hs, hbounded⟩ := ih m' (argv ++ [a]) hpn
            ((hframe n (Nat.le_refl n)).trans hend) (length_push hroom) (mem_push hargv ha)
            (by omega)
          exact ⟨s, hrun.trans hs, hbounded.trans hframe⟩
      · unfold split
        rw [if_neg hlt]
        exact ⟨_, rfl, hargc, hargv, fun _ _ => rfl⟩

end Splitter

/-! ## Lines of arguments -/

/-- An argument as it is written on a line. -/
inductive Arg
  | word (w : CString)
  | quoted (w : CString)
  deriving DecidableEq, Repr

namespace Arg

def value : Arg → CString
  | word w => w
  | quoted w => w

def text : Arg → CString
  | word w => w
  | quoted w => quote :: w ++ [quote]

/-- A word is not empty and has no blanks and quotes in it, a string between quotes has no
quotes and backslashes. -/
def Valid : Arg → Prop
  | word w => w ≠ [] ∧ ∀ c ∈ w, c ≠ 0 ∧ isBlank c = false ∧ c ≠ quote
  | quoted w => ∀ c ∈ w, c ≠ 0 ∧ c ≠ quote ∧ c ≠ backslash

/-- An argument does not begin with a blank. -/
theorem Valid.head {a : Arg} (h : a.Valid) : ∃ c t, a.text = c :: t ∧ isBlank c = false := by
  cases a with
  | word w =>
      obtain ⟨c, t, rfl⟩ := List.exists_cons_of_ne_nil h.1
      exact ⟨c, t, rfl, (h.2 c List.mem_cons_self).2.1⟩
  | quoted w => exact ⟨quote, w ++ [quote], rfl, rfl⟩

end Arg

/-- The arguments stand on the line in their order, with blanks between them. -/
inductive Joins : List Arg → CString → Prop
  | one (a : Arg) : Joins [a] a.text
  | cons (a : Arg) {as : List Arg} {sep line : CString} (hne : sep ≠ [])
      (hsep : ∀ c ∈ sep, isBlank c = true) (hline : Joins as line) :
      Joins (a :: as) (a.text ++ sep ++ line)

namespace Splitter

section Joins

variable {m m' : Bytes} {p n fuel ptr stop : ℕ} {argv : List ℕ} {a : Arg} {args : List Arg}
  {sep line rest w : CString}

theorem split_end (hf : 0 < fuel) (hp : n ≤ p) :
    split n fuel ⟨m, p, p, argv⟩ = some ⟨m, p, p, argv⟩ := by
  obtain ⟨fuel, rfl⟩ := Nat.exists_eq_succ_of_ne_zero (Nat.ne_of_gt hf)
  unfold split
  rw [if_neg (Nat.not_lt.mpr hp)]

/-- What a round with `k` blanks and the argument `a` does to the line. -/
structure Cuts (m m' : Bytes) (p k ptr stop : ℕ) (a : Arg) : Prop where
  before : ∀ x < p, m' x = m x
  blanks : ∀ i < k, m' (p + i) = 0
  behind : ∀ x, stop ≤ x → m' x = m x
  reads : m'.Reads ptr a.value
  ends : ptr + a.value.length = stop ∨
    ptr + a.value.length < stop ∧ m' (ptr + a.value.length) = 0

/-- The argument is a string once the byte behind it is a NUL. -/
theorem Cuts.value (h : Cuts m m' p n ptr stop a) {m'' : Bytes} (hm : ∀ x < stop, m'' x = m' x)
    (hstop : m'' stop = 0) : m''.Reads ptr (a.value ++ [0]) := by
  have hle : ptr + a.value.length ≤ stop := h.ends.elim Nat.le_of_eq fun he => Nat.le_of_lt he.1
  refine reads_append.mpr ⟨h.reads.congr fun i hi => hm _ (by omega), ?_, trivial⟩
  rcases h.ends with he | ⟨hlt, he⟩
  · rw [he, hstop]
  · rw [hm _ hlt, he]

/-- The blanks before an argument are cleared. -/
theorem stripBlanks_of_reads (argv : List ℕ) (hsep : ∀ c ∈ sep, isBlank c = true)
    (hreads : m.Reads p (sep ++ line)) (hline : ∀ c, line.head? = some c → isBlank c = false)
    (hlen : p + sep.length + line.length = n) :
    stripBlanks n (n + 1) ⟨m, p, p, argv⟩ =
        some ⟨m.fill p 0 sep.length, p + sep.length, p + sep.length, argv⟩ ∧
      (m.fill p 0 sep.length).Reads (p + sep.length) line := by
  have hspan : Span (isBlank · = true) m n p sep.length := by
    apply span_of_reads hreads hsep ?_ hlen
    intro d hd
    simp [hline d hd]
  obtain ⟨k, hspan', hstrip⟩ := stripBlanks_spec m argv (show p ≤ n by omega)
    (show n - p < n + 1 by omega)
  obtain rfl := hspan.unique hspan'
  refine ⟨hstrip, (reads_append.mp hreads).2.congr ?_⟩
  intro i _
  exact fill_of_outside (by omega)

/-- A word is passed. -/
theorem skipWord_of_reads (argv : List ℕ) (hw : ∀ c ∈ w, isBlank c = false)
    (hreads : m.Reads p (w ++ rest)) (hrest : ∀ c, rest.head? = some c → isBlank c = true)
    (hlen : p + w.length + rest.length = n) :
    skipWord n (n + 1) ⟨m, p, p, argv⟩ = some ⟨m, p + w.length, p + w.length, argv⟩ := by
  have hword : Span (¬isBlank · = true) m n p w.length := by
    apply span_of_reads hreads ?_ ?_ hlen
    · intro d hd
      simp [hw d hd]
    · intro d hd
      simp [hrest d hd]
  obtain ⟨k, hword', hskip⟩ := skipWord_spec m argv (show p ≤ n by omega)
    (show n - p < n + 1 by omega)
  obtain rfl := hword.unique hword'
  exact hskip

/-- A string is passed up to its quote. -/
theorem skipString_of_reads (argv : List ℕ) (hw : ∀ c ∈ w, c ≠ quote ∧ c ≠ backslash)
    (hreads : m.Reads p (w ++ quote :: rest)) (hlen : p + w.length + rest.length + 1 = n) :
    skipString n (n + 1) ⟨m, p, p, argv⟩ = some ⟨m, p + w.length, p + w.length, argv⟩ := by
  have hstring : Span (· ≠ quote) m n p w.length := by
    apply span_of_reads hreads (fun d hd => (hw d hd).1) ?_ (by rw [List.length_cons]; omega)
    intro d hd
    obtain rfl := Option.some.inj hd
    exact not_not.mpr rfl
  refine skipString_spec argv hstring ?_ (by omega)
  intro i hi
  rw [reads_iff.mp (reads_append.mp hreads).1 i hi]
  exact (hw _ (List.getElem_mem hi)).2

/-- A round takes the next argument. -/
theorem split_arg (argv : List ℕ) (fuel : ℕ) (rest : CString) (ha : a.Valid)
    (hsep : ∀ c ∈ sep, isBlank c = true) (hreads : m.Reads p (sep ++ (a.text ++ rest)))
    (hrest : ∀ c, rest.head? = some c → isBlank c = true)
    (hstop : p + sep.length + a.text.length = stop) (hlen : stop + rest.length = n)
    (hargc : argv.length < FINSH_ARG_MAX) (hf : 0 < fuel) :
    ∃ m' ptr, split n (fuel + 1) ⟨m, p, p, argv⟩ =
        split n fuel ⟨m', stop, stop, argv ++ [ptr]⟩ ∧
      Cuts m m' p sep.length ptr stop a := by
  obtain ⟨c, t, htext, hc⟩ := ha.head
  have hpos : 0 < a.text.length := by simp [htext]
  have hhead : ∀ d, (a.text ++ rest).head? = some d → isBlank d = false := by
    intro d hd
    rw [htext] at hd
    obtain rfl := Option.some.inj hd
    exact hc
  obtain ⟨hstrip, hreads'⟩ := stripBlanks_of_reads argv hsep hreads hhead
    (show p + sep.length + (a.text ++ rest).length = n by rw [List.length_append]; omega)
  have hbefore : ∀ x < p, m.fill p 0 sep.length x = m x := fun x hx => fill_of_outside (by omega)
  have hblanks : ∀ i < sep.length, m.fill p 0 sep.length (p + i) = 0 := fun i hi =>
    fill_of_inside hi
  have hbehind : ∀ x, stop ≤ x → m.fill p 0 sep.length x = m x :=
    fun x hx => fill_of_outside (by omega)
  generalize m.fill p 0 sep.length = m₁ at hstrip hreads' hbefore hblanks hbehind
  cases a with
  | word w =>
      change m₁.Reads (p + sep.length) (w ++ rest) at hreads'
      change p + sep.length + w.length = stop at hstop
      change 0 < w.length at hpos
      have hskip := skipWord_of_reads (argv ++ [p + sep.length]) (fun d hd => (ha.2 d hd).2.1)
        hreads' hrest (show p + sep.length + w.length + rest.length = n by omega)
      have hquote : m₁ (p + sep.length) ≠ quote := by
        obtain ⟨d, l, rfl⟩ := List.exists_cons_of_ne_nil ha.1
        rw [hreads'.1]
        exact (ha.2 d List.mem_cons_self).2.2
      refine ⟨m₁, _, ?_, hbefore, hblanks, hbehind, (reads_append.mp hreads').1, Or.inl hstop⟩
      rw [split_word (by omega) hstrip (by omega) hargc hquote hskip, hstop]
      by_cases hlast : n ≤ stop
      · rw [if_pos hlast, split_end hf hlast]
      · rw [if_neg hlast]
  | quoted w =>
      have hsplit : (Arg.quoted w).text ++ rest = quote :: (w ++ quote :: rest) := by
        simp [Arg.text]
      have hsize : (Arg.quoted w).text.length = w.length + 2 := by
        simp [Arg.text]
      rw [hsplit] at hreads'
      rw [hsize] at hstop
      have hskip := skipString_of_reads (argv ++ [p + sep.length + 1])
        (fun d hd => (ha d hd).2) hreads'.2
        (show p + sep.length + 1 + w.length + rest.length + 1 = n by omega)
      refine ⟨m₁.set (p + sep.length + 1 + w.length) 0, p + sep.length + 1,
        ?_, ?_, ?_, ?_, ?_, ?_⟩
      · rw [split_quoted (by omega) hstrip (by omega) hargc hreads'.1 hskip, if_neg (by omega)]
        congr 2 <;> omega
      · intro x hx
        rw [set_of_ne (by omega), hbefore x hx]
      · intro i hi
        rw [set_of_ne (by omega), hblanks i hi]
      · intro x hx
        rw [set_of_ne (by omega), hbehind x hx]
      · apply (reads_append.mp hreads'.2).1.congr
        intro i hi
        exact set_of_ne (by omega)
      · exact Or.inr ⟨by change _ + w.length < stop; omega, set_self⟩

/-- The arguments on the rest of a line, and the blanks before them. -/
theorem split_joins (argv : List ℕ) (h : Joins args line) (hargs : ∀ a ∈ args, a.Valid)
    (hsep : ∀ c ∈ sep, isBlank c = true) (hreads : m.Reads p (sep ++ line))
    (hlen : p + sep.length + line.length = n) (hend : m n = 0)
    (hcount : argv.length + args.length ≤ FINSH_ARG_MAX) (hf : n - p < fuel) :
    ∃ s new, split n fuel ⟨m, p, p, argv⟩ = some s ∧ s.argv = argv ++ new ∧
      List.Forall₂ (fun ptr a => s.cmd.Reads ptr (a.value ++ [0])) new args ∧
        (∀ x < p, s.cmd x = m x) ∧ ∀ i < sep.length, s.cmd (p + i) = 0 := by
  induction h generalizing m p sep fuel argv with
  | one a =>
      have ha := hargs a List.mem_cons_self
      obtain ⟨c, t, htext, -⟩ := ha.head
      have hpos : 0 < a.text.length := by simp [htext]
      obtain ⟨fuel, rfl⟩ := Nat.exists_eq_add_of_le' (show 2 ≤ fuel by omega)
      rw [List.length_singleton] at hcount
      obtain ⟨m', ptr, hrun, hcuts⟩ := split_arg argv (fuel + 1) [] ha hsep
        (by rwa [List.append_nil]) nofun hlen (Nat.add_zero n) (by omega) (Nat.succ_pos fuel)
      have hstop : m' n = 0 := (hcuts.behind n (Nat.le_refl n)).trans hend
      rw [split_end (Nat.succ_pos fuel) (Nat.le_refl n)] at hrun
      refine ⟨⟨m', n, n, argv ++ [ptr]⟩, [ptr], hrun, rfl, ?_, hcuts.before, hcuts.blanks⟩
      exact List.Forall₂.cons (hcuts.value (fun _ _ => rfl) hstop) List.Forall₂.nil
  | @cons a as sep' line hne hblank hline ih =>
      have ha := hargs a List.mem_cons_self
      obtain ⟨c, t, htext, -⟩ := ha.head
      have hpos : 0 < a.text.length := by simp [htext]
      have hsep' := List.length_pos_iff.mpr hne
      rw [List.length_append, List.length_append] at hlen
      rw [List.length_cons] at hcount
      obtain ⟨fuel, rfl⟩ := Nat.exists_eq_add_of_le' (show 2 ≤ fuel by omega)
      obtain ⟨m', ptr, hrun, hcuts⟩ := split_arg argv (fuel + 1) (sep' ++ line) ha hsep
        (by rwa [← List.append_assoc a.text]) (by
          intro d hd
          rw [List.head?_append_of_ne_nil _ hne] at hd
          exact hblank d (List.mem_of_head? hd)) rfl
        (show p + sep.length + a.text.length + (sep' ++ line).length = n by
          rw [List.length_append]
          omega) (by omega) (Nat.succ_pos fuel)
      have hrest : m'.Reads (p + sep.length + a.text.length) (sep' ++ line) := by
        rw [List.append_assoc, reads_append, reads_append] at hreads
        apply hreads.2.2.congr
        intro i _
        exact hcuts.behind _ (by omega)
      obtain ⟨s, new, hrun', hargv, hnew, hbefore, hblanks⟩ := ih _
        (fun b hb => hargs b (List.mem_cons_of_mem a hb)) hblank hrest (by omega)
        ((hcuts.behind n (by omega)).trans hend)
        (show (argv ++ [ptr]).length + as.length ≤ FINSH_ARG_MAX by
          rw [List.length_append, List.length_singleton]
          omega)
        (show n - (p + sep.length + a.text.length) < fuel + 1 by omega)
      refine ⟨s, ptr :: new, hrun.trans hrun', ?_, ?_, ?_, ?_⟩
      · rw [hargv, List.append_assoc, List.singleton_append]
      · exact List.Forall₂.cons (hcuts.value hbefore (hblanks 0 hsep')) hnew
      · intro x hx
        rw [hbefore x (by omega), hcuts.before x hx]
      · intro i hi
        rw [hbefore _ (by omega), hcuts.blanks i hi]

end Joins

end Splitter

/-- On a line that ends with a NUL `msh_split` stays inside and ends, and gives at most
`FINSH_ARG_MAX` addresses in the line.  If the line is made of so many arguments at most,
it gives these. -/
theorem mshSplit_spec (cmd : Bytes) (length : ℕ) (hend : cmd length = 0) :
    ∃ s, mshSplit cmd length = some s ∧ s.argv.length ≤ FINSH_ARG_MAX ∧
      (∀ ptr ∈ s.argv, ptr ≤ length) ∧ (∀ x, length ≤ x → s.cmd x = cmd x) ∧
      ∀ args line, Joins args line → (∀ a ∈ args, a.Valid) → args.length ≤ FINSH_ARG_MAX →
        line.length = length → cmd.Reads 0 line →
          List.Forall₂ (fun ptr a => s.cmd.Reads ptr (a.value ++ [0])) s.argv args := by
  obtain ⟨s, hrun, hs⟩ := Splitter.split_bounded cmd [] (Nat.zero_le length) hend
    (Nat.zero_le _) nofun (Nat.lt_succ_self length)
  refine ⟨s, hrun, hs.argc, hs.argv, hs.frame, ?_⟩
  intro args line hjoins hargs hcount hlen hreads
  obtain ⟨s', new, hrun', hargv, hnew, -⟩ := Splitter.split_joins [] hjoins hargs
    (show ∀ c ∈ ([] : CString), isBlank c = true from nofun)
    (show cmd.Reads 0 ([] ++ line) from hreads) (by simpa using hlen) hend
    (by simpa using hcount) (Nat.lt_succ_self length)
  obtain rfl := Option.some.inj (hrun.symm.trans hrun')
  rwa [hargv]

def echoArgs : List Arg := [.word (cstr "echo"), .quoted (cstr "a b")]

/-- The line `echo "a b"`. -/
def echoLine : Bytes :=
  Bytes.write (fun _ => 0) 0 (cstr "echo" ++ [0x20] ++ (Arg.quoted (cstr "a b")).text)

theorem mshSplit_echo :
    ∃ s, mshSplit echoLine 10 = some s ∧
      List.Forall₂ (fun ptr a => s.cmd.Reads ptr (a.value ++ [0])) s.argv echoArgs := by
  obtain ⟨s, hrun, -, -, -, hargs⟩ := mshSplit_spec echoLine 10 (by decide)
  refine ⟨s, hrun, hargs echoArgs _ ?_ ?_ (by decide) rfl reads_write⟩
  · exact Joins.cons (.word (cstr "echo")) (by decide) (by decide) (Joins.one _)
  · intro a ha
    simp only [echoArgs, List.mem_cons, List.not_mem_nil, or_false] at ha
    rcases ha with rfl | rfl
    · exact ⟨by decide, by decide⟩
    · exact fun c hc => by revert c; decide

end Shell

end LuojiOs
