import LuojiOs.Env.Nvram
import LuojiOs.Support.Spans
import Mathlib.Data.List.Forall2

/-!
# The words of the command line

`argvize` takes the line of the kernel apart where it stands.  It overwrites the closing
quotes, and the character behind each word, with NULs.  Addresses count from the beginning
of the line.  An access behind the buffer of the line, or behind the array for the words,
has no result.
-/

namespace LuojiOs

namespace Boot

open Bytes

/-- The largest number of words. -/
def MAX_AC : ℕ := 100

/-- `*s <= ' '`, where a character has a sign. -/
def isBlank (c : BitVec 8) : Bool := c.toInt ≤ 0x20

/-- The characters `'` and `"`. -/
def isQuote (c : BitVec 8) : Bool := c = 0x27 ∨ c = 0x22

/-- The line and the variables of `argvize`; `av` holds the words so far, if the caller has
an array for them. -/
structure Argvizer where
  line : Bytes
  s : ℕ
  av : Option (List ℕ)
  ac : ℕ

namespace Argvizer

/-- The loops `while (..) s++`, with a condition on `*s`. -/
def skipWhile (P : BitVec 8 → Bool) (size : ℕ) : ℕ → Argvizer → Option Argvizer
  | 0, _ => none
  | fuel + 1, a => do
    let c ← a.line.getIn size a.s
    if P c then skipWhile P size fuel { a with s := a.s + 1 } else return a

/-- `if (*s) *s++ = 0;` -/
def cut (size : ℕ) (a : Argvizer) : Option Argvizer := do
  let c ← a.line.getIn size a.s
  if c ≠ 0 then
    let line ← a.line.setIn size a.s 0
    return { a with line := line, s := a.s + 1 }
  else return a

/-- `if (pav) *pav++ = s;` -/
def push (a : Argvizer) : Option Argvizer :=
  match a.av with
  | none => some a
  | some av => if av.length < MAX_AC then some { a with av := some (av ++ [a.s]) } else none

/-- `if (pav) *pav++ = ++s;` -/
def pushNext (a : Argvizer) : Option Argvizer :=
  match a.av with
  | none => some a
  | some _ => push { a with s := a.s + 1 }

/-- One word, which begins at `s`. -/
def word (size : ℕ) (a : Argvizer) : Option Argvizer := do
  let c ← a.line.getIn size a.s
  if isQuote c then
    let a ← a.pushNext
    let a ← a.skipWhile (fun d => d ≠ 0 ∧ d ≠ c) size size
    let a ← a.cut size
    a.cut size
  else
    let a ← a.push
    let a ← a.skipWhile (fun d => !isBlank d) size size
    a.cut size

/-- The loop of `argvize`, with the number of rounds it can still take. -/
def argvizeFrom (size : ℕ) : ℕ → Argvizer → Option Argvizer
  | 0, a => some a
  | k + 1, a => do
    let a ← a.skipWhile (fun d => d ≠ 0 ∧ isBlank d) size size
    let c ← a.line.getIn size a.s
    if c = 0 then return a
    else
      let a ← a.word size
      argvizeFrom size k { a with ac := a.ac + 1 }

end Argvizer

/-- `argvize` on the buffer `line` of `size` bytes, with an array for the words or without. -/
def argvize (line : Bytes) (size : ℕ) (av : Bool) : Option Argvizer :=
  Argvizer.argvizeFrom size MAX_AC ⟨line, 0, if av then some [] else none, 0⟩

/-! ## The steps of a round -/

namespace Argvizer

variable {P : BitVec 8 → Bool} {m : Bytes} {n p k ac fuel : ℕ} {av : Option (List ℕ)}
  {ws : List ℕ} {s t : CString}

/-- A loop ends at the NUL at the latest. -/
theorem skipWhile_spec (av : Option (List ℕ)) (ac : ℕ) (hP : P 0 = false) (hend : m n = 0)
    (hp : p ≤ n) (hf : n - p < fuel) :
    ∃ k, Span (P · = true) m n p k ∧
      skipWhile P (n + 1) fuel ⟨m, p, av, ac⟩ = some ⟨m, p + k, av, ac⟩ := by
  induction fuel generalizing p with
  | zero => exact absurd hf (Nat.not_lt_zero _)
  | succ fuel ih =>
      unfold skipWhile
      dsimp only
      rw [getIn_of_lt (by omega), Option.bind_eq_bind, Option.bind_some]
      by_cases hc : P (m p) = true
      · have hne : p ≠ n := by
          rintro rfl
          rw [hend, hP] at hc
          cases hc
        obtain ⟨k, hspan, hrun⟩ := ih (p := p + 1) (by omega) (by omega)
        refine ⟨k + 1, hspan.succ hc, ?_⟩
        rw [if_pos hc, hrun, Nat.add_assoc, Nat.add_comm 1 k]
      · refine ⟨0, span_zero hp fun _ => hc, ?_⟩
        rw [if_neg hc]
        rfl

theorem skipWhile_of_reads (av : Option (List ℕ)) (ac : ℕ) (hP : P 0 = false) (hend : m n = 0)
    (hreads : m.Reads p (s ++ t)) (hs : ∀ c ∈ s, P c = true)
    (ht : ∀ c, t.head? = some c → P c = false) (hlen : p + s.length + t.length = n) :
    skipWhile P (n + 1) (n + 1) ⟨m, p, av, ac⟩ = some ⟨m, p + s.length, av, ac⟩ := by
  have hspan : Span (P · = true) m n p s.length := by
    apply span_of_reads hreads hs ?_ hlen
    intro c hc
    rw [ht c hc]
    exact Bool.false_ne_true
  obtain ⟨k, hspan', hrun⟩ := skipWhile_spec av ac hP hend (show p ≤ n by omega)
    (show n - p < n + 1 by omega)
  rw [hspan.unique hspan', hrun]

theorem cut_of_zero (hp : p ≤ n) (hz : m p = 0) :
    cut (n + 1) ⟨m, p, av, ac⟩ = some ⟨m, p, av, ac⟩ := by
  unfold cut
  dsimp only
  rw [getIn_of_lt (by omega), Option.bind_eq_bind, Option.bind_some, hz]
  rfl

theorem cut_of_ne (hp : p ≤ n) (hz : m p ≠ 0) :
    cut (n + 1) ⟨m, p, av, ac⟩ = some ⟨m.set p 0, p + 1, av, ac⟩ := by
  unfold cut
  dsimp only
  rw [getIn_of_lt (by omega), Option.bind_eq_bind, Option.bind_some, if_pos hz,
    setIn_of_lt (by omega)]
  rfl

/-- The NUL at the end of the line is not cut. -/
theorem cut_bounded (hend : m n = 0) (hp : p ≤ n) (av : Option (List ℕ)) (ac : ℕ) :
    ∃ m' p', cut (n + 1) ⟨m, p, av, ac⟩ = some ⟨m', p', av, ac⟩ ∧ p' ≤ n ∧
      ∀ x, n ≤ x → m' x = m x := by
  by_cases hz : m p = 0
  · exact ⟨m, p, cut_of_zero hp hz, hp, fun _ _ => rfl⟩
  · have hne : p ≠ n := by
      rintro rfl
      exact hz hend
    refine ⟨_, _, cut_of_ne hp hz, by omega, ?_⟩
    intro x hx
    exact set_of_ne (by omega)

/-- The array has room for `k` more words. -/
def Room (k : ℕ) (av : Option (List ℕ)) : Prop := ∀ ws, av = some ws → ws.length + k ≤ MAX_AC

theorem push_bounded (m : Bytes) (p ac : ℕ) (h : Room (k + 1) av) :
    ∃ av', push ⟨m, p, av, ac⟩ = some ⟨m, p, av', ac⟩ ∧ Room k av' := by
  cases av with
  | none => exact ⟨none, rfl, nofun⟩
  | some ws =>
      have hroom := h ws rfl
      refine ⟨some (ws ++ [p]), if_pos (by omega), ?_⟩
      rintro ws' ⟨⟩
      rw [List.length_append, List.length_singleton]
      omega

theorem pushNext_bounded (m : Bytes) (p ac : ℕ) (h : Room (k + 1) av) :
    ∃ p' av', pushNext ⟨m, p, av, ac⟩ = some ⟨m, p', av', ac⟩ ∧ p' ≤ p + 1 ∧ Room k av' := by
  cases av with
  | none => exact ⟨p, none, rfl, Nat.le_succ p, nofun⟩
  | some ws =>
      obtain ⟨av', hpush, hroom⟩ := push_bounded m (p + 1) ac h
      exact ⟨p + 1, av', hpush, Nat.le_refl _, hroom⟩

/-! ## Any line -/

theorem word_bounded (ac : ℕ) (hend : m n = 0) (hp : p < n) (h : Room (k + 1) av) :
    ∃ m' p' av', word (n + 1) ⟨m, p, av, ac⟩ = some ⟨m', p', av', ac⟩ ∧ p' ≤ n ∧
      (∀ x, n ≤ x → m' x = m x) ∧ Room k av' := by
  unfold word
  dsimp only
  rw [getIn_of_lt (by omega), Option.bind_eq_bind, Option.bind_some]
  by_cases hq : isQuote (m p) = true
  · obtain ⟨p₁, av', hpush, hp₁, hroom⟩ := pushNext_bounded m p ac h
    obtain ⟨j, hspan, hskip⟩ := skipWhile_spec av' ac
      (P := fun d => decide (d ≠ 0 ∧ d ≠ m p)) (by simp) hend (show p₁ ≤ n by omega)
      (show n - p₁ < n + 1 by omega)
    obtain ⟨m₁, p₂, hcut, hp₂, hframe⟩ := cut_bounded hend hspan.le av' ac
    obtain ⟨m', p', hcut', hp', hframe'⟩ :=
      cut_bounded ((hframe n (Nat.le_refl n)).trans hend) hp₂ av' ac
    refine ⟨m', p', av', ?_, hp', fun x hx => (hframe' x hx).trans (hframe x hx), hroom⟩
    rw [if_pos hq, hpush, Option.bind_eq_bind, Option.bind_some, hskip, Option.bind_some, hcut,
      Option.bind_some, hcut']
  · obtain ⟨av', hpush, hroom⟩ := push_bounded m p ac h
    obtain ⟨j, hspan, hskip⟩ := skipWhile_spec av' ac
      (P := fun d => !isBlank d) rfl hend hp.le (show n - p < n + 1 by omega)
    obtain ⟨m', p', hcut, hp', hframe⟩ := cut_bounded hend hspan.le av' ac
    refine ⟨m', p', av', ?_, hp', hframe, hroom⟩
    rw [if_neg hq, hpush, Option.bind_eq_bind, Option.bind_some, hskip, Option.bind_some, hcut]

/-- The loop stays inside and ends, and it takes at most `k` words. -/
theorem argvizeFrom_bounded (ac : ℕ) (hend : m n = 0) (hp : p ≤ n) (h : Room k av) :
    ∃ a, argvizeFrom (n + 1) k ⟨m, p, av, ac⟩ = some a ∧ a.ac ≤ ac + k ∧
      ∀ x, n ≤ x → a.line x = m x := by
  induction k generalizing m p av ac with
  | zero => exact ⟨_, rfl, Nat.le_refl _, fun _ _ => rfl⟩
  | succ k ih =>
      obtain ⟨j, hspan, hskip⟩ := skipWhile_spec av ac
        (P := fun d => decide (d ≠ 0 ∧ isBlank d)) (by simp) hend hp
        (show n - p < n + 1 by omega)
      have hle := hspan.le
      unfold argvizeFrom
      rw [hskip, Option.bind_eq_bind, Option.bind_some]
      dsimp only
      rw [getIn_of_lt (by omega), Option.bind_eq_bind, Option.bind_some]
      by_cases hz : m (p + j) = 0
      · rw [if_pos hz]
        exact ⟨_, rfl, Nat.le_add_right _ _, fun _ _ => rfl⟩
      · have hne : p + j ≠ n := by
          intro hn
          rw [hn] at hz
          exact hz hend
        obtain ⟨m', p', av', hword, hp', hframe, hroom⟩ :=
          word_bounded ac hend (show p + j < n by omega) h
        obtain ⟨a, hrun, hac, hline⟩ :=
          ih (ac + 1) ((hframe n (Nat.le_refl n)).trans hend) hp' hroom
        rw [if_neg hz, hword]
        exact ⟨a, hrun, by omega, fun x hx => (hline x hx).trans (hframe x hx)⟩

end Argvizer

/-! ## Lines of words -/

/-- A word as it is written on a line. -/
inductive Word
  | plain (w : CString)
  | quoted (q : BitVec 8) (w : CString)
  deriving DecidableEq, Repr

namespace Word

def value : Word → CString
  | plain w => w
  | quoted _ w => w

def text : Word → CString
  | plain w => w
  | quoted q w => q :: w ++ [q]

/-- A plain word is not empty, has no blanks in it and does not start with a quote.  Between
quotes there is anything but the quote and the NUL. -/
def Valid : Word → Prop
  | plain w => w ≠ [] ∧ (∀ c ∈ w, isBlank c = false) ∧ ∀ c, w.head? = some c → isQuote c = false
  | quoted q w => isQuote q = true ∧ ∀ c ∈ w, c ≠ 0 ∧ c ≠ q

end Word

/-- The blanks between words. -/
def Blanks (sep : CString) : Prop := ∀ c ∈ sep, c ≠ 0 ∧ isBlank c = true

/-- The words stand on the line in their order, with blanks between them. -/
inductive Joined : List Word → CString → Prop
  | nil : Joined [] []
  | one (w : Word) : Joined [w] w.text
  | cons (w : Word) {ws : List Word} {sep line : CString} (hne : sep ≠ []) (hsep : Blanks sep)
      (hline : Joined ws line) : Joined (w :: ws) (w.text ++ sep ++ line)

section Lines

variable {m m' : Bytes} {n p k ac : ℕ} {c q : BitVec 8} {ws : List ℕ} {w : Word}
  {words : List Word} {sep line rest : CString}

theorem isBlank_of_isQuote (h : isQuote q = true) : isBlank q = false := by
  rcases of_decide_eq_true h with rfl | rfl <;> rfl

theorem ne_zero_of_isBlank (h : isBlank c = false) : c ≠ 0 := by
  rintro rfl
  cases h

/-- A word begins with a character that is not passed as a blank. -/
theorem Word.Valid.head (h : w.Valid) : ∃ c t, w.text = c :: t ∧ isBlank c = false := by
  cases w with
  | plain w =>
      obtain ⟨c, t, rfl⟩ := List.exists_cons_of_ne_nil h.1
      exact ⟨c, t, rfl, h.2.1 c List.mem_cons_self⟩
  | quoted q w => exact ⟨q, w ++ [q], rfl, isBlank_of_isQuote h.1⟩

/-- What taking the word `w`, with the blanks before it, does to the line: it goes on at
`p'`, and `ptr` is the address of the word. -/
structure Taken (m m' : Bytes) (p p' n ptr : ℕ) (w : Word) : Prop where
  frame : ∀ x, x < p ∨ p' ≤ x → m' x = m x
  reads : m'.Reads ptr (w.value ++ [0])
  ends : ptr + w.value.length < p' ∨ p' = n ∧ ptr + w.value.length = n

/-- Later changes leave the word alone. -/
theorem Taken.reads_of_frame {m'' : Bytes} {p' ptr : ℕ} (h : Taken m m' p p' n ptr w)
    (hframe : ∀ x, x < p' ∨ n ≤ x → m'' x = m' x) : m''.Reads ptr (w.value ++ [0]) := by
  apply h.reads.congr
  intro i hi
  apply hframe
  rw [List.length_append, List.length_singleton] at hi
  rcases h.ends with hends | ⟨hends, hends'⟩ <;> omega

namespace Argvizer

/-- The character behind a word is cut, unless the line ends there. -/
theorem cut_rest {e : ℕ} (av : Option (List ℕ)) (ac : ℕ) (hend : m n = 0)
    (hreads : m.Reads e rest) (hrest : ∀ c, rest.head? = some c → c ≠ 0)
    (hlen : e + rest.length = n) :
    ∃ m' p', cut (n + 1) ⟨m, e, av, ac⟩ = some ⟨m', p', av, ac⟩ ∧ m' e = 0 ∧
      p' + rest.tail.length = n ∧ (e < p' ∨ p' = n ∧ e = n) ∧
        ∀ x, x < e ∨ p' ≤ x → m' x = m x := by
  cases rest with
  | nil =>
      rw [List.length_nil, Nat.add_zero] at hlen
      subst hlen
      exact ⟨m, e, cut_of_zero (Nat.le_refl e) hend, hend, rfl, Or.inr ⟨rfl, rfl⟩,
        fun _ _ => rfl⟩
  | cons c rest =>
      have hc : m e ≠ 0 := by
        rw [hreads.1]
        exact hrest c rfl
      rw [List.length_cons] at hlen
      refine ⟨m.set e 0, e + 1, cut_of_ne (by omega) hc, set_self, ?_, Or.inl (by omega), ?_⟩
      · rw [List.tail_cons]
        omega
      · intro x hx
        exact set_of_ne (by omega)

/-- A plain word ends before the next blank. -/
theorem word_of_plain {v : CString} (ac : ℕ) (hend : m n = 0) (hw : (Word.plain v).Valid)
    (hreads : m.Reads p (v ++ rest)) (hrest : ∀ c, rest.head? = some c → c ≠ 0 ∧ isBlank c = true)
    (hlen : p + v.length + rest.length = n) (hroom : ws.length < MAX_AC) :
    ∃ m' p' ptr, word (n + 1) ⟨m, p, some ws, ac⟩ = some ⟨m', p', some (ws ++ [ptr]), ac⟩ ∧
      p' + rest.tail.length = n ∧ Taken m m' p p' n ptr (.plain v) := by
  obtain ⟨hne', hgraph, hquote⟩ := hw
  have hne : ∀ c, rest.head? = some c → c ≠ 0 := fun c hc => (hrest c hc).1
  have hpos := List.length_pos_iff.mpr hne'
  have hplain : isQuote (m p) = false := by
    obtain ⟨c, t, rfl⟩ := List.exists_cons_of_ne_nil hne'
    rw [hreads.1]
    exact hquote c rfl
  unfold word
  dsimp only
  rw [getIn_of_lt (by omega), Option.bind_eq_bind, Option.bind_some]
  have hskip := skipWhile_of_reads (P := fun d => !isBlank d) (some (ws ++ [p])) ac rfl hend
    hreads (by simpa using hgraph) (fun d hd => by simp [(hrest d hd).2]) hlen
  obtain ⟨m', p', hcut, hzero, htail, hends, hframe⟩ :=
    cut_rest (some (ws ++ [p])) ac hend (reads_append.mp hreads).2 hne hlen
  refine ⟨m', p', p, ?_, htail, ?_, ?_, hends⟩
  · rw [hplain, if_neg Bool.false_ne_true]
    have hpush : push ⟨m, p, some ws, ac⟩ = some ⟨m, p, some (ws ++ [p]), ac⟩ := if_pos hroom
    rw [hpush, Option.bind_eq_bind, Option.bind_some, hskip, Option.bind_some, hcut]
  · intro x hx
    exact hframe x (by omega)
  · refine reads_append.mpr ⟨(reads_append.mp hreads).1.congr ?_, hzero, trivial⟩
    intro i hi
    exact hframe _ (by omega)

/-- A quoted word ends at the closing quote, which is cut as well. -/
theorem word_of_quoted {q : BitVec 8} {v : CString} (ac : ℕ) (hend : m n = 0)
    (hw : (Word.quoted q v).Valid) (hreads : m.Reads p ((Word.quoted q v).text ++ rest))
    (hrest : ∀ c, rest.head? = some c → c ≠ 0 ∧ isBlank c = true)
    (hlen : p + (Word.quoted q v).text.length + rest.length = n) (hroom : ws.length < MAX_AC) :
    ∃ m' p' ptr, word (n + 1) ⟨m, p, some ws, ac⟩ = some ⟨m', p', some (ws ++ [ptr]), ac⟩ ∧
      p' + rest.tail.length = n ∧ Taken m m' p p' n ptr (.quoted q v) := by
  obtain ⟨hquote, hclean⟩ := hw
  have hne : ∀ c, rest.head? = some c → c ≠ 0 := fun c hc => (hrest c hc).1
  have hsplit : (Word.quoted q v).text ++ rest = q :: (v ++ q :: rest) := by
    simp [Word.text]
  have hsize : (Word.quoted q v).text.length = v.length + 2 := by
    simp [Word.text]
  rw [hsplit] at hreads
  rw [hsize] at hlen
  obtain ⟨hq, hbody⟩ := hreads
  unfold word
  dsimp only
  rw [getIn_of_lt (by omega), Option.bind_eq_bind, Option.bind_some]
  have hq0 := ne_zero_of_isBlank (isBlank_of_isQuote hquote)
  have hskip := skipWhile_of_reads (P := fun d => decide (d ≠ 0 ∧ d ≠ m p))
    (some (ws ++ [p + 1])) ac (by simp) hend hbody
    (by rw [hq]; simpa using hclean) (by simp [hq])
    (show p + 1 + v.length + (q :: rest).length = n by rw [List.length_cons]; omega)
  obtain ⟨hvalue, hclose, hbehind⟩ := reads_append.mp hbody
  have hclosed : cut (n + 1) ⟨m, p + 1 + v.length, some (ws ++ [p + 1]), ac⟩ =
      some ⟨m.set (p + 1 + v.length) 0, p + 1 + v.length + 1, some (ws ++ [p + 1]), ac⟩ :=
    cut_of_ne (by omega) (by rw [hclose]; exact hq0)
  have hset : ∀ x, x ≠ p + 1 + v.length → m.set (p + 1 + v.length) 0 x = m x :=
    fun x hx => set_of_ne hx
  have hnul : m.set (p + 1 + v.length) 0 (p + 1 + v.length) = 0 := set_self
  generalize m.set (p + 1 + v.length) 0 = m₁ at hclosed hset hnul
  obtain ⟨m', p', hcut, -, htail, hends, hframe⟩ :=
    cut_rest (some (ws ++ [p + 1])) ac ((hset n (by omega)).trans hend)
      (hbehind.congr fun i _ => hset _ (by omega)) hne
      (show p + 1 + v.length + 1 + rest.length = n by omega)
  have hp' : p + 1 + v.length < p' := by
    rcases hends with hends | ⟨hends, hends'⟩ <;> omega
  refine ⟨m', p', p + 1, ?_, htail, ?_, ?_, Or.inl hp'⟩
  · have hpush : pushNext ⟨m, p, some ws, ac⟩ =
        some ⟨m, p + 1, some (ws ++ [p + 1]), ac⟩ := if_pos hroom
    rw [hq, if_pos hquote, ← hq, hpush, Option.bind_eq_bind, Option.bind_some, hskip,
      Option.bind_some, hclosed, Option.bind_some, hcut]
  · intro x hx
    rw [hframe x (by omega), hset x (by omega)]
  · refine reads_append.mpr ⟨hvalue.congr ?_, ?_, trivial⟩
    · intro i hi
      change i < v.length at hi
      rw [hframe (p + 1 + i) (by omega), hset (p + 1 + i) (by omega)]
    · exact (hframe (p + 1 + v.length) (by omega)).trans hnul

theorem word_of_reads (ac : ℕ) (hend : m n = 0) (hw : w.Valid)
    (hreads : m.Reads p (w.text ++ rest))
    (hrest : ∀ c, rest.head? = some c → c ≠ 0 ∧ isBlank c = true)
    (hlen : p + w.text.length + rest.length = n) (hroom : ws.length < MAX_AC) :
    ∃ m' p' ptr, word (n + 1) ⟨m, p, some ws, ac⟩ = some ⟨m', p', some (ws ++ [ptr]), ac⟩ ∧
      p' + rest.tail.length = n ∧ Taken m m' p p' n ptr w := by
  cases w with
  | plain v => exact word_of_plain ac hend hw hreads hrest hlen hroom
  | quoted q v => exact word_of_quoted ac hend hw hreads hrest hlen hroom

/-- The blanks before a word, or before the end of the line, are passed. -/
theorem skipBlanks_of_reads (av : Option (List ℕ)) (ac : ℕ) (hend : m n = 0)
    (hreads : m.Reads p (sep ++ rest)) (hsep : Blanks sep)
    (hrest : ∀ c, rest.head? = some c → isBlank c = false)
    (hlen : p + sep.length + rest.length = n) :
    skipWhile (fun d => decide (d ≠ 0 ∧ isBlank d)) (n + 1) (n + 1) ⟨m, p, av, ac⟩ =
      some ⟨m, p + sep.length, av, ac⟩ := by
  apply skipWhile_of_reads av ac (by simp) hend hreads ?_ ?_ hlen
  · intro c hc
    exact decide_eq_true (hsep c hc)
  · intro c hc
    simp [hrest c hc]

/-- A round takes the next word. -/
theorem argvizeFrom_word (rest : CString) (k ac : ℕ) (hend : m n = 0) (hw : w.Valid)
    (hsep : Blanks sep)
    (hreads : m.Reads p (sep ++ (w.text ++ rest)))
    (hrest : ∀ c, rest.head? = some c → c ≠ 0 ∧ isBlank c = true)
    (hlen : p + sep.length + w.text.length + rest.length = n) (hroom : ws.length < MAX_AC) :
    ∃ m' p' ptr, argvizeFrom (n + 1) (k + 1) ⟨m, p, some ws, ac⟩ =
        argvizeFrom (n + 1) k ⟨m', p', some (ws ++ [ptr]), ac + 1⟩ ∧
      p' + rest.tail.length = n ∧ Taken m m' (p + sep.length) p' n ptr w := by
  obtain ⟨c, t, htext, hc⟩ := hw.head
  have hpos : 0 < w.text.length := by rw [htext]; exact Nat.succ_pos _
  have hskip := skipBlanks_of_reads (some ws) ac hend hreads hsep
    (by rw [htext]; rintro d ⟨⟩; exact hc)
    (show p + sep.length + (w.text ++ rest).length = n by rw [List.length_append]; omega)
  have hword := (reads_append.mp hreads).2
  have hfirst : m (p + sep.length) ≠ 0 := by
    rw [htext] at hword
    rw [hword.1]
    exact ne_zero_of_isBlank hc
  obtain ⟨m', p', ptr, hrun, htail, htaken⟩ := word_of_reads ac hend hw hword hrest hlen hroom
  refine ⟨m', p', ptr, ?_, htail, htaken⟩
  rw [argvizeFrom, hskip, Option.bind_eq_bind, Option.bind_some]
  dsimp only
  rw [getIn_of_lt (by omega), Option.bind_eq_bind, Option.bind_some, if_neg hfirst, hrun]
  rfl

/-- The blanks at the end of a line. -/
theorem argvizeFrom_blanks (ws : List ℕ) (k ac : ℕ) (hend : m n = 0) (hsep : Blanks sep)
    (hreads : m.Reads p sep) (hlen : p + sep.length = n) :
    ∃ s, argvizeFrom (n + 1) k ⟨m, p, some ws, ac⟩ = some ⟨m, s, some ws, ac⟩ := by
  cases k with
  | zero => exact ⟨p, rfl⟩
  | succ k =>
      have hnil : m.Reads p (sep ++ []) := by rwa [List.append_nil]
      have hskip := skipBlanks_of_reads (some ws) ac hend hnil hsep nofun hlen
      refine ⟨p + sep.length, ?_⟩
      rw [argvizeFrom, hskip, Option.bind_eq_bind, Option.bind_some]
      dsimp only
      rw [getIn_of_lt (by omega), Option.bind_eq_bind, Option.bind_some, hlen, if_pos hend]
      rfl

/-- The words on the rest of a line, and the blanks before them. -/
theorem argvizeFrom_joined (ac : ℕ) (h : Joined words line) (hwords : ∀ w ∈ words, w.Valid)
    (hsep : Blanks sep) (hreads : m.Reads p (sep ++ line))
    (hlen : p + sep.length + line.length = n) (hend : m n = 0) (hk : words.length ≤ k)
    (hroom : ws.length + words.length ≤ MAX_AC) :
    ∃ a ptrs, argvizeFrom (n + 1) k ⟨m, p, some ws, ac⟩ = some a ∧
      a.ac = ac + words.length ∧ a.av = some (ws ++ ptrs) ∧
      List.Forall₂ (fun ptr w => a.line.Reads ptr (w.value ++ [0])) ptrs words ∧
        ∀ x, x < p ∨ n ≤ x → a.line x = m x := by
  induction h generalizing m p k ac ws sep with
  | nil =>
      rw [List.append_nil] at hreads
      obtain ⟨s, hrun⟩ := argvizeFrom_blanks ws k ac hend hsep hreads hlen
      exact ⟨_, [], hrun, rfl, by rw [List.append_nil], List.Forall₂.nil, fun _ _ => rfl⟩
  | one w =>
      obtain ⟨k, rfl⟩ := Nat.exists_eq_succ_of_ne_zero (Nat.ne_of_gt hk)
      rw [List.length_singleton] at hroom
      obtain ⟨m', p', ptr, hrun, htail, htaken⟩ := argvizeFrom_word [] k ac hend
        (hwords w List.mem_cons_self) hsep (by rwa [List.append_nil]) nofun hlen hroom
      have hp' : p' = n := htail
      have hlast : m' n = 0 := (htaken.frame n (by omega)).trans hend
      obtain ⟨s, hrun'⟩ := argvizeFrom_blanks (ws ++ [ptr]) k (ac + 1) hlast
        (show Blanks [] from nofun) trivial hp'
      refine ⟨_, [ptr], hrun.trans hrun', rfl, rfl, ?_, ?_⟩
      · exact List.Forall₂.cons htaken.reads List.Forall₂.nil
      · intro x hx
        exact htaken.frame x (by omega)
  | @cons w words sep' line hne hsep' hline ih =>
      obtain ⟨k, rfl⟩ := Nat.exists_eq_succ_of_ne_zero (Nat.ne_zero_of_lt hk)
      rw [List.length_cons] at hk hroom
      obtain ⟨c, sep', rfl⟩ := List.exists_cons_of_ne_nil hne
      rw [List.length_append, List.length_append, List.length_cons] at hlen
      rw [List.append_assoc w.text] at hreads
      obtain ⟨m', p', ptr, hrun, htail, htaken⟩ := argvizeFrom_word
        (c :: sep' ++ line) k ac hend (hwords w List.mem_cons_self) hsep hreads
        (by rintro d ⟨⟩; exact hsep' c List.mem_cons_self)
        (by rw [List.length_append, List.length_cons]; omega)
        (show ws.length < MAX_AC by omega)
      rw [List.cons_append, List.tail_cons, List.length_append] at htail
      have hrest : m'.Reads p' (sep' ++ line) := by
        have hsplit := (reads_append.mp (reads_append.mp hreads).2).2.2
        have hplace : p' = p + sep.length + w.text.length + 1 := by omega
        rw [hplace]
        apply hsplit.congr
        intro i _
        exact htaken.frame _ (by omega)
      obtain ⟨a, ptrs, hrun', hac, hav, hptrs, hframe⟩ := ih (ac + 1)
        (fun v hv => hwords v (List.mem_cons_of_mem w hv))
        (fun d hd => hsep' d (List.mem_cons_of_mem c hd)) hrest (by omega)
        ((htaken.frame n (by omega)).trans hend) (show words.length ≤ k by omega)
        (show (ws ++ [ptr]).length + words.length ≤ MAX_AC by
          rw [List.length_append, List.length_singleton]
          omega)
      refine ⟨a, ptr :: ptrs, hrun.trans hrun', ?_, ?_, ?_, ?_⟩
      · rw [hac, List.length_cons]
        omega
      · rw [hav, List.append_assoc, List.singleton_append]
      · exact List.Forall₂.cons (htaken.reads_of_frame hframe) hptrs
      · intro x hx
        rw [hframe x (by omega), htaken.frame x (by omega)]

end Argvizer

end Lines

/-- On a line that ends with a NUL `argvize` stays inside and ends, and returns at most
`MAX_AC`.  If the line is made of so many words at most, it gives these. -/
theorem argvize_spec (line : Bytes) (n : ℕ) (hend : line n = 0) :
    (∀ av : Bool, ∃ a, argvize line (n + 1) av = some a ∧ a.ac ≤ MAX_AC ∧
      ∀ x, n ≤ x → a.line x = line x) ∧
    ∀ words sep text, Joined words text → (∀ w ∈ words, w.Valid) → words.length ≤ MAX_AC →
      Blanks sep → (sep ++ text).length = n → line.Reads 0 (sep ++ text) →
      ∃ a av, argvize line (n + 1) true = some a ∧ a.ac = words.length ∧ a.av = some av ∧
        List.Forall₂ (fun ptr w => a.line.Reads ptr (w.value ++ [0])) av words := by
  constructor
  · intro av
    have hroom : Argvizer.Room MAX_AC (if av then some [] else none) := by
      cases av with
      | true =>
          rintro ws ⟨⟩
          exact Nat.le_of_eq (Nat.zero_add _)
      | false => exact nofun
    obtain ⟨a, hrun, hac, hframe⟩ :=
      Argvizer.argvizeFrom_bounded 0 hend (Nat.zero_le n) hroom
    rw [Nat.zero_add] at hac
    exact ⟨a, hrun, hac, hframe⟩
  · intro words sep text hjoined hwords hcount hsep hlen hreads
    rw [List.length_append] at hlen
    obtain ⟨a, av, hrun, hac, hav, hptrs, -⟩ :=
      Argvizer.argvizeFrom_joined 0 hjoined hwords hsep hreads (by omega) hend hcount
        (show ([] : List ℕ).length + words.length ≤ MAX_AC by rwa [List.length_nil, Nat.zero_add])
    rw [Nat.zero_add] at hac
    exact ⟨a, av, hrun, hac, hav, hptrs⟩

def bootWords : List Word := [.plain (cstr "go"), .quoted 0x22 (cstr "a 'b")]

/-- The line `go "a 'b"`. -/
def bootLine : Bytes :=
  Bytes.write (fun _ => 0) 0 (cstr "go" ++ [0x20] ++ (Word.quoted 0x22 (cstr "a 'b")).text)

theorem argvize_boot :
    ∃ a av, argvize bootLine 10 true = some a ∧ a.ac = 2 ∧ a.av = some av ∧
      List.Forall₂ (fun ptr w => a.line.Reads ptr (w.value ++ [0])) av bootWords := by
  refine (argvize_spec bootLine 9 (by decide)).2 bootWords [] _ ?_ ?_ (by decide) nofun rfl
    reads_write
  · exact Joined.cons (.plain (cstr "go")) (by decide) (by unfold Blanks; decide) (Joined.one _)
  · intro w hw
    simp only [bootWords, List.mem_cons, List.not_mem_nil, or_false] at hw
    rcases hw with rfl | rfl
    · exact ⟨by decide, by decide, by rintro c ⟨⟩; rfl⟩
    · exact ⟨rfl, by decide⟩

end Boot

end LuojiOs
