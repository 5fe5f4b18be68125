import LuojiOs.Mtd.Partition
import LuojiOs.Support.Numerals

/-!
# `strtoul`

The loop over the digits keeps a flag for a number that is too large, and the prefix of the base
is passed over before it is known whether a digit follows.
-/

namespace LuojiOs

namespace Parse

open Mtd Numerals

def ULONG_MAX : ℕ := 2 ^ 32 - 1

def plus : BitVec 8 := 0x2b

def minus : BitVec 8 := 0x2d

def zero : BitVec 8 := 0x30

def lowerX : BitVec 8 := 0x78

def upperX : BitVec 8 := 0x58

/-- What `strtoul` returns, whether it sets `errno` to `ERANGE`, and the string at `*endptr`. -/
structure Strtoul where
  result : ℕ
  erange : Bool
  endptr : CString
  deriving DecidableEq

/-- The loop over the digits: the number, whether it is too large, and where the loop ends. -/
def convert (base : ℕ) : ℕ → Bool → CString → ℕ × Bool × CString
  | result, overflow, [] => (result, overflow, [])
  | result, overflow, c :: nptr =>
    match digitValue c with
    | none => (result, overflow, c :: nptr)
    | some digit =>
      if base ≤ digit then (result, overflow, c :: nptr)
      else if overflow ∨ ULONG_MAX / base < result then convert base result true nptr
      else
        let result := base * result
        if ULONG_MAX - result < digit then convert base result true nptr
        else convert base (result + digit) false nptr

/-- The sign, and the string behind it. -/
def handleSign (nptr : CString) : Bool × CString :=
  match nptr with
  | [] => (false, [])
  | c :: rest => if c = plus ∨ c = minus then (decide (c = minus), rest) else (false, c :: rest)

/-- The base, and the string behind its prefix. -/
def handleBase (base : ℕ) (nptr : CString) : ℕ × CString :=
  if base = 0 then
    if nptr.head? = some zero then
      let nptr := nptr.tail
      if nptr.head? = some lowerX ∨ nptr.head? = some upperX then (16, nptr.tail) else (8, nptr)
    else (10, nptr)
  else if base = 16 ∧ nptr.head? = some zero then
    let nptr := nptr.tail
    -- what `c` is compared with is the result of `*nptr == 'x'`
    let c : BitVec 8 := if nptr.head? = some lowerX then 1 else 0
    if c ≠ 0 ∨ c = upperX then (16, nptr.tail) else (16, nptr)
  else (base, nptr)

def strtoul (nptr : CString) (base : ℕ) : Strtoul :=
  let (negative, nptr) := handleSign (nptr.dropWhile isspace)
  let (base, nptr) := handleBase base nptr
  let (result, overflow, nptr) := convert base 0 false nptr
  if overflow then ⟨ULONG_MAX, true, nptr⟩
  else ⟨if negative then (2 ^ 32 - result) % 2 ^ 32 else result, false, nptr⟩

variable {base n : ℕ} {s t : CString} {c : BitVec 8}

/-! ## Digits -/

def isDigitOf (base : ℕ) (c : BitVec 8) : Bool := isDigit digitValue base c

/-- The digits at the beginning of a string. -/
def digitsOf (base : ℕ) (s : CString) : CString := s.takeWhile (isDigitOf base)

theorem convert_nondigit (h : isDigitOf base c = false) (overflow : Bool) :
    convert base n overflow (c :: s) = (n, overflow, c :: s) := by
  unfold convert
  cases hc : digitValue c with
  | none => rfl
  | some digit =>
      have hle : base ≤ digit := by
        by_contra hlt
        have hdigit : isDigitOf base c = true :=
          isDigit_iff.mpr ⟨digit, Nat.lt_of_not_le hlt, hc⟩
        rw [h] at hdigit
        cases hdigit
      exact if_pos hle

/-- A number that is too large stays so. -/
theorem convert_overflow :
    ∃ r, convert base n true s = (r, true, s.dropWhile (isDigitOf base)) := by
  induction s with
  | nil => exact ⟨n, rfl⟩
  | cons c s ih =>
      cases hc : isDigitOf base c with
      | false =>
          rw [convert_nondigit hc, List.dropWhile_cons_of_neg (by rw [hc]; decide)]
          exact ⟨n, rfl⟩
      | true =>
          obtain ⟨digit, hlt, hdigit⟩ := isDigit_iff.mp hc
          obtain ⟨r, hr⟩ := ih
          refine ⟨r, ?_⟩
          unfold convert
          rw [hdigit, List.dropWhile_cons_of_pos hc]
          dsimp only
          rw [if_neg (Nat.not_le.mpr hlt), if_pos (Or.inl rfl), hr]

/-- The loop reads all the digits, and finds out whether their number is too large. -/
theorem convert_eq (hbase : 0 < base) (hn : n ≤ ULONG_MAX) :
    ∃ r, convert base n false s =
        (r, decide (ULONG_MAX < valueFrom digitValue base n (digitsOf base s)),
          s.dropWhile (isDigitOf base)) ∧
      (valueFrom digitValue base n (digitsOf base s) ≤ ULONG_MAX →
        r = valueFrom digitValue base n (digitsOf base s)) := by
  induction s generalizing n with
  | nil =>
      refine ⟨n, ?_, fun _ => rfl⟩
      unfold digitsOf
      rw [List.takeWhile_nil]
      exact Prod.ext rfl (Prod.ext (decide_eq_false (Nat.not_lt.mpr hn)).symm rfl)
  | cons c s ih =>
      unfold digitsOf
      cases hc : isDigitOf base c with
      | false =>
          have hstop : ¬isDigitOf base c = true := by rw [hc]; decide
          rw [convert_nondigit hc, List.dropWhile_cons_of_neg hstop,
            List.takeWhile_cons_of_neg hstop]
          refine ⟨n, ?_, fun _ => rfl⟩
          exact Prod.ext rfl (Prod.ext (decide_eq_false (Nat.not_lt.mpr hn)).symm rfl)
      | true =>
          obtain ⟨digit, hlt, hdigit⟩ := isDigit_iff.mp hc
          have hvalue : valueFrom digitValue base n (c :: s.takeWhile (isDigitOf base)) =
              valueFrom digitValue base (base * n + digit) (digitsOf base s) := by
            rw [valueFrom_cons, hdigit]
            rfl
          rw [List.dropWhile_cons_of_pos hc, List.takeWhile_cons_of_pos hc, hvalue]
          have hquot : ULONG_MAX / base < n ↔ ULONG_MAX < base * n := by
            rw [Nat.div_lt_iff_lt_mul hbase, Nat.mul_comm]
          have hnext : convert base n false (c :: s) =
              if ULONG_MAX < base * n + digit then
                convert base (if ULONG_MAX / base < n then n else base * n) true s
              else convert base (base * n + digit) false s := by
            conv_lhs => unfold convert
            rw [hdigit]
            dsimp only
            rw [if_neg (Nat.not_le.mpr hlt)]
            by_cases hlarge : ULONG_MAX / base < n
            · have hmore := hquot.mp hlarge
              rw [if_pos (Or.inr hlarge), if_pos (by omega), if_pos hlarge]
            · have hless := mt hquot.mpr hlarge
              rw [if_neg (by simp [hlarge]), if_neg hlarge]
              by_cases hsum : ULONG_MAX - base * n < digit
              · rw [if_pos hsum, if_pos (by omega)]
              · rw [if_neg hsum, if_neg (by omega)]
          rw [hnext]
          by_cases hover : ULONG_MAX < base * n + digit
          · rw [if_pos hover]
            have hall := hover.trans_le
              (@le_valueFrom _ digitValue base (base * n + digit) (digitsOf base s) hbase)
            obtain ⟨r, hr⟩ := @convert_overflow base
              (if ULONG_MAX / base < n then n else base * n) s
            rw [hr, decide_eq_true hall]
            exact ⟨r, rfl, fun hle => absurd hle (Nat.not_le.mpr hall)⟩
          · rw [if_neg hover]
            exact ih (Nat.le_of_not_lt hover)

/-! ## The numbers in the names of partitions -/

theorem digitsFrom_none : digitsFrom base none s = none := by
  induction s with
  | nil => rfl
  | cons c s ih =>
      unfold digitsFrom
      split
      · rfl
      · split
        · rfl
        · exact ih

theorem digitsFrom_eq (hbase : 0 < base) (hn : n ≤ ULONG_MAX) :
    digitsFrom base (some n) s =
      if ULONG_MAX < valueFrom digitValue base n (digitsOf base s) then none
      else some (valueFrom digitValue base n (digitsOf base s)) := by
  induction s generalizing n with
  | nil => exact (if_neg (Nat.not_lt.mpr hn)).symm
  | cons c s ih =>
      unfold digitsOf
      cases hc : isDigitOf base c with
      | false =>
          rw [List.takeWhile_cons_of_neg (by rw [hc]; decide)]
          have hstop : digitsFrom base (some n) (c :: s) = some n := by
            unfold digitsFrom
            cases hdigit : digitValue c with
            | none => rfl
            | some digit =>
                have hle : base ≤ digit := by
                  by_contra hlt
                  rw [isDigitOf, isDigit_iff.mpr ⟨digit, Nat.lt_of_not_le hlt, hdigit⟩] at hc
                  cases hc
                exact if_pos hle
          rw [hstop]
          exact (if_neg (Nat.not_lt.mpr hn)).symm
      | true =>
          obtain ⟨digit, hlt, hdigit⟩ := isDigit_iff.mp hc
          have hvalue : valueFrom digitValue base n (c :: s.takeWhile (isDigitOf base)) =
              valueFrom digitValue base (base * n + digit) (digitsOf base s) := by
            rw [valueFrom_cons, hdigit]
            rfl
          have hnext : digitsFrom base (some n) (c :: s) =
              digitsFrom base (if base * n + digit < 2 ^ 32 then some (base * n + digit) else none)
                s := by
            conv_lhs => unfold digitsFrom
            rw [hdigit]
            exact if_neg (Nat.not_le.mpr hlt)
          rw [List.takeWhile_cons_of_pos hc, hvalue, hnext]
          by_cases hover : base * n + digit < 2 ^ 32
          · rw [if_pos hover]
            exact ih (Nat.le_pred_of_lt hover)
          · have hlarge : ULONG_MAX < base * n + digit := Nat.le_of_not_lt hover
            have hall := hlarge.trans_le
              (@le_valueFrom _ digitValue base (base * n + digit) (digitsOf base s) hbase)
            rw [if_neg hover, digitsFrom_none, if_pos hall]

end Parse

end LuojiOs
