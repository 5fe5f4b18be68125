import LuojiOs.Parse.Strtoul
import Mathlib.Data.List.TakeWhile

/-!
# Numbers as in ISO C

The grammar of the numbers that `strtoul` should read, a reader of that grammar, and the strings
that `strtoul` reads in another way.
-/

namespace LuojiOs

namespace Parse

open Mtd Numerals

variable {base : ℕ} {s u v p t : CString} {m n : ℕ} {negative : Bool} {c x : BitVec 8}

/-! ## The grammar -/

def isX (x : BitVec 8) : Bool := x = lowerX ∨ x = upperX

/-- The digits of a number of that base, its prefix included, and the number. -/
inductive Magnitude : ℕ → CString → ℕ → Prop
  | digits {base : ℕ} {c : BitVec 8} {p : CString} (hbase : base ≠ 0)
      (hp : ∀ d ∈ c :: p, isDigitOf base d = true) :
      Magnitude base (c :: p) (value digitValue base (c :: p))
  | decimal {c : BitVec 8} {p : CString} (hc : c ≠ zero)
      (hp : ∀ d ∈ c :: p, isDigitOf 10 d = true) : Magnitude 0 (c :: p) (value digitValue 10 (c :: p))
  | octal {p : CString} (hp : ∀ d ∈ p, isDigitOf 8 d = true) :
      Magnitude 0 (zero :: p) (value digitValue 8 p)
  | hexadecimal {base : ℕ} {x c : BitVec 8} {p : CString} (hbase : base = 0 ∨ base = 16)
      (hx : isX x = true) (hp : ∀ d ∈ c :: p, isDigitOf 16 d = true) :
      Magnitude base (zero :: x :: c :: p) (value digitValue 16 (c :: p))

/-- A sign, and whether it is a minus. -/
inductive Sign : CString → Bool → Prop
  | none : Sign [] false
  | plus : Sign [plus] false
  | minus : Sign [minus] true

/-- Blanks, a sign and digits. -/
inductive Number : ℕ → CString → Bool → ℕ → Prop
  | intro {base m : ℕ} {blanks sign p : CString} {negative : Bool}
      (hblanks : ∀ c ∈ blanks, isspace c = true) (hsign : Sign sign negative)
      (hp : Magnitude base p m) : Number base (blanks ++ (sign ++ p)) negative m

/-- The value of a number: `ULONG_MAX` if it is too large, else modulo `2 ^ 32`. -/
def valueOf (negative : Bool) (m : ℕ) : ℕ :=
  if ULONG_MAX < m then ULONG_MAX else if negative then (2 ^ 32 - m) % 2 ^ 32 else m

/-- What `strtoul` has to return, by the longest number at the beginning of the string. -/
inductive IsoResult (base : ℕ) (s : CString) : Strtoul → Prop
  | number {p t : CString} {negative : Bool} {m : ℕ} (hs : s = p ++ t)
      (hp : Number base p negative m)
      (hlongest : ∀ q u negative m, s = q ++ u → Number base q negative m → q.length ≤ p.length) :
      IsoResult base s ⟨valueOf negative m, decide (ULONG_MAX < m), t⟩
  | nothing (hs : ∀ p t negative m, s = p ++ t → ¬Number base p negative m) :
      IsoResult base s ⟨0, false, s⟩

/-! ## A reader -/

/-- The string behind the blanks and the sign. -/
def body (s : CString) : CString := (handleSign (s.dropWhile isspace)).2

def hasHexPrefix (base : ℕ) : CString → Bool
  | z :: x :: c :: _ => decide (base = 0 ∨ base = 16) && decide (z = zero) && isX x && isDigitOf 16 c
  | _ => false

/-- The base of digits without a prefix `0x`. -/
def plainBase (base : ℕ) (s : CString) : ℕ :=
  if base = 0 then if s.head? = some zero then 8 else 10 else base

/-- The longest digits at the beginning of a string: the number and the string behind them. -/
def readMagnitude (base : ℕ) (s : CString) : Option (ℕ × CString) :=
  if hasHexPrefix base s then
    some (value digitValue 16 (digitsOf 16 (s.drop 2)), (s.drop 2).dropWhile (isDigitOf 16))
  else if digitsOf (plainBase base s) s = [] then none
  else some (value digitValue (plainBase base s) (digitsOf (plainBase base s) s),
    s.dropWhile (isDigitOf (plainBase base s)))

def iso (base : ℕ) (s : CString) : Strtoul :=
  match readMagnitude base (body s) with
  | none => ⟨0, false, s⟩
  | some (m, t) =>
    ⟨valueOf (handleSign (s.dropWhile isspace)).1 m, decide (ULONG_MAX < m), t⟩

/-! ## The reader reads the grammar -/

theorem not_lead_of_isDigitOf (hc : isDigitOf base c = true) :
    isspace c = false ∧ c ≠ plus ∧ c ≠ minus := by
  obtain ⟨digit, -, hdigit⟩ := isDigit_iff.mp hc
  have hrange : 0x30 ≤ c.toNat := by
    by_contra hlow
    have hnone : digitValue c = none := by
      unfold digitValue isdigit
      rw [if_neg (by simp; omega), if_neg (by omega), if_neg (by omega)]
    rw [hnone] at hdigit
    cases hdigit
  refine ⟨?_, ?_, ?_⟩
  · exact decide_eq_false (by omega)
  · rintro rfl
    exact absurd hrange (by decide)
  · rintro rfl
    exact absurd hrange (by decide)

theorem isX_not_digit (hx : isX x = true) (hbase : base ≤ 16) : isDigitOf base x = false := by
  have hvalue : digitValue x = some 33 := by
    rcases of_decide_eq_true hx with rfl | rfl <;> rfl
  unfold isDigitOf isDigit
  rw [hvalue]
  exact decide_eq_false (by omega)

theorem Magnitude.head_digit (hp : Magnitude base p m) :
    ∃ c q b, p = c :: q ∧ isDigitOf b c = true := by
  cases hp with
  | digits hbase hp => exact ⟨_, _, _, rfl, hp _ List.mem_cons_self⟩
  | decimal hc hp => exact ⟨_, _, _, rfl, hp _ List.mem_cons_self⟩
  | octal hp => exact ⟨_, _, 8, rfl, rfl⟩
  | hexadecimal hbase hx hp => exact ⟨_, _, 8, rfl, rfl⟩

theorem plainBase_zero_cons (hc : c ≠ zero) : plainBase 0 (c :: s) = 10 := by
  have hhead : ¬(c :: s).head? = some zero := fun hs => hc (Option.some.inj hs)
  unfold plainBase
  rw [if_pos rfl, if_neg hhead]

theorem plainBase_le (hbase : base = 0 ∨ base = 16) : plainBase base s ≤ 16 := by
  unfold plainBase
  rcases hbase with rfl | rfl
  · split
    · split <;> decide
    · decide
  · exact Nat.le_refl 16

/-- The sign and the string behind it, for a string that begins with a number. -/
theorem handleSign_number {blanks sign : CString} (hblanks : ∀ c ∈ blanks, isspace c = true)
    (hsign : Sign sign negative) (hp : Magnitude base p m) :
    handleSign ((blanks ++ (sign ++ p) ++ t).dropWhile isspace) = (negative, p ++ t) := by
  obtain ⟨c, q, b, rfl, hc⟩ := hp.head_digit
  obtain ⟨hspace, hplus, hminus⟩ := not_lead_of_isDigitOf hc
  rw [List.append_assoc, List.dropWhile_append_of_pos hblanks]
  cases hsign with
  | none =>
      rw [List.nil_append, List.cons_append, List.dropWhile_cons_of_neg (by simp [hspace])]
      exact if_neg (not_or.mpr ⟨hplus, hminus⟩)
  | plus => rfl
  | minus => rfl

/-- The blanks and the sign of any string. -/
theorem exists_lead (s : CString) :
    ∃ blanks sign, s = blanks ++ (sign ++ body s) ∧ (∀ c ∈ blanks, isspace c = true) ∧
      Sign sign (handleSign (s.dropWhile isspace)).1 := by
  have hsplit : s = s.takeWhile isspace ++ s.dropWhile isspace :=
    List.takeWhile_append_dropWhile.symm
  have hblanks : ∀ c ∈ s.takeWhile isspace, isspace c = true :=
    fun c hc => List.mem_takeWhile_imp hc
  have hsign : ∃ sign, s.dropWhile isspace = sign ++ body s ∧
      Sign sign (handleSign (s.dropWhile isspace)).1 := by
    unfold body
    generalize s.dropWhile isspace = u
    cases u with
    | nil => exact ⟨[], rfl, Sign.none⟩
    | cons c u =>
        by_cases hplus : c = plus
        · subst hplus
          exact ⟨[plus], rfl, Sign.plus⟩
        by_cases hminus : c = minus
        · subst hminus
          exact ⟨[minus], rfl, Sign.minus⟩
        have hnone : handleSign (c :: u) = (false, c :: u) := if_neg (not_or.mpr ⟨hplus, hminus⟩)
        rw [hnone]
        exact ⟨[], rfl, Sign.none⟩
  obtain ⟨sign, hbody, hsign⟩ := hsign
  exact ⟨s.takeWhile isspace, sign, by rw [← hbody, ← hsplit], hblanks, hsign⟩

/-- Digits at the beginning of a string are among those that the reader takes. -/
theorem length_le_of_digits (hp : ∀ d ∈ p, isDigitOf base d = true) :
    p.length + ((p ++ t).dropWhile (isDigitOf base)).length ≤ (p ++ t).length := by
  rw [List.dropWhile_append_of_pos hp, List.length_append]
  exact Nat.add_le_add_left (List.length_dropWhile_le _ t) _

theorem digitsOf_append_dropWhile : digitsOf base s ++ s.dropWhile (isDigitOf base) = s :=
  List.takeWhile_append_dropWhile

theorem mem_digitsOf (hc : c ∈ digitsOf base s) : isDigitOf base c = true :=
  List.mem_takeWhile_imp hc

theorem digitsOf_cons (hc : isDigitOf base c = true) :
    digitsOf base (c :: s) = c :: digitsOf base s := List.takeWhile_cons_of_pos hc

theorem digitsOf_eq_nil_iff :
    digitsOf base s = [] ↔ ∀ c, s.head? = some c → isDigitOf base c = false := by
  cases s with
  | nil => exact iff_of_true rfl nofun
  | cons c s =>
      constructor
      · rintro hs _ ⟨⟩
        by_contra hc
        rw [digitsOf_cons (Bool.of_not_eq_false hc)] at hs
        cases hs
      · exact fun hs => List.takeWhile_cons_of_neg (by rw [hs c rfl]; decide)

theorem dropWhile_eq_self (hs : ∀ c, s.head? = some c → isDigitOf base c = false) :
    s.dropWhile (isDigitOf base) = s := by
  cases s with
  | nil => rfl
  | cons c s => exact List.dropWhile_cons_of_neg (by rw [hs c rfl]; decide)

theorem exists_of_digitsOf_ne_nil (hs : digitsOf base s ≠ []) :
    ∃ c t, s = c :: t ∧ isDigitOf base c = true := by
  cases s with
  | nil => exact absurd rfl hs
  | cons c t =>
      refine ⟨c, t, rfl, ?_⟩
      by_contra hc
      exact hs (List.takeWhile_cons_of_neg hc)

theorem hasHexPrefix_cons {z : BitVec 8} : hasHexPrefix base (z :: x :: c :: t) =
    (decide (base = 0 ∨ base = 16) && decide (z = zero) && isX x && isDigitOf 16 c) := rfl

theorem hasHexPrefix_iff :
    hasHexPrefix base s = true ↔ ∃ x c t, s = zero :: x :: c :: t ∧ (base = 0 ∨ base = 16) ∧
      isX x = true ∧ isDigitOf 16 c = true := by
  constructor
  · intro h
    rcases s with _ | ⟨z, _ | ⟨x, _ | ⟨c, t⟩⟩⟩
    · cases h
    · cases h
    · cases h
    · simp only [hasHexPrefix_cons, Bool.and_eq_true, decide_eq_true_eq] at h
      obtain ⟨⟨⟨hbase, rfl⟩, hx⟩, hc⟩ := h
      exact ⟨x, c, t, rfl, hbase, hx, hc⟩
  · rintro ⟨x, c, t, rfl, hbase, hx, hc⟩
    simp [hasHexPrefix_cons, hbase, hx, hc]

theorem not_digit_of_not_hex (hs : hasHexPrefix base (zero :: x :: c :: t) = false)
    (hbase : base = 0 ∨ base = 16) (hx : isX x = true) : isDigitOf 16 c = false := by
  by_contra hc
  have hhex := hasHexPrefix_iff.mpr ⟨x, c, t, rfl, hbase, hx, Bool.of_not_eq_false hc⟩
  rw [hs] at hhex
  cases hhex

theorem readMagnitude_hex (hx : isX x = true) (hbase : base = 0 ∨ base = 16)
    (hc : isDigitOf 16 c = true) :
    readMagnitude base (zero :: x :: c :: t) =
      some (value digitValue 16 (digitsOf 16 (c :: t)), (c :: t).dropWhile (isDigitOf 16)) :=
  if_pos (hasHexPrefix_iff.mpr ⟨x, c, t, rfl, hbase, hx, hc⟩)

theorem readMagnitude_plain (hs : hasHexPrefix base s = false)
    (hdigits : digitsOf (plainBase base s) s ≠ []) :
    readMagnitude base s = some (value digitValue (plainBase base s) (digitsOf (plainBase base s) s),
      s.dropWhile (isDigitOf (plainBase base s))) :=
  (if_neg (ne_true_of_eq_false hs)).trans (if_neg hdigits)

theorem readMagnitude_nil (hs : hasHexPrefix base s = false)
    (hdigits : digitsOf (plainBase base s) s = []) : readMagnitude base s = none :=
  (if_neg (ne_true_of_eq_false hs)).trans (if_pos hdigits)

theorem readMagnitude_none (hs : readMagnitude base s = none) :
    hasHexPrefix base s = false ∧ digitsOf (plainBase base s) s = [] := by
  unfold readMagnitude at hs
  split at hs
  · cases hs
  next hhex =>
  split at hs
  · next hdigits => exact ⟨by simpa using hhex, hdigits⟩
  · cases hs

/-- What the reader takes is a number. -/
theorem readMagnitude_sound (hs : readMagnitude base s = some (m, t)) :
    ∃ p, s = p ++ t ∧ Magnitude base p m := by
  cases hhex : hasHexPrefix base s with
  | true =>
      obtain ⟨x, c, r, rfl, hbase, hx, hc⟩ := hasHexPrefix_iff.mp hhex
      rw [readMagnitude_hex hx hbase hc] at hs
      obtain ⟨rfl, rfl⟩ := Prod.mk.inj (Option.some.inj hs)
      refine ⟨zero :: x :: digitsOf 16 (c :: r), ?_, ?_⟩
      · rw [List.cons_append, List.cons_append, digitsOf_append_dropWhile]
      · rw [digitsOf_cons hc]
        refine Magnitude.hexadecimal hbase hx fun d hd => ?_
        rw [← digitsOf_cons hc] at hd
        exact mem_digitsOf hd
  | false =>
      by_cases hdigits : digitsOf (plainBase base s) s = []
      · rw [readMagnitude_nil hhex hdigits] at hs
        cases hs
      rw [readMagnitude_plain hhex hdigits] at hs
      obtain ⟨rfl, rfl⟩ := Prod.mk.inj (Option.some.inj hs)
      refine ⟨_, digitsOf_append_dropWhile.symm, ?_⟩
      obtain ⟨c, r, rfl, hc⟩ := exists_of_digitsOf_ne_nil hdigits
      have hall : ∀ d ∈ c :: digitsOf (plainBase base (c :: r)) r,
          isDigitOf (plainBase base (c :: r)) d = true := by
        rw [← digitsOf_cons hc]
        exact fun d hd => mem_digitsOf hd
      rw [digitsOf_cons hc]
      by_cases hbase : base = 0
      · subst hbase
        by_cases hzero : c = zero
        · subst hzero
          have height : plainBase 0 (zero :: r) = 8 := rfl
          rw [height] at hall ⊢
          have hvalue : value digitValue 8 (zero :: digitsOf 8 r) =
              value digitValue 8 (digitsOf 8 r) := rfl
          rw [hvalue]
          exact Magnitude.octal fun d hd => hall d (List.mem_cons_of_mem _ hd)
        · have hten : plainBase 0 (c :: r) = 10 := plainBase_zero_cons hzero
          rw [hten] at hall ⊢
          exact Magnitude.decimal hzero hall
      · have hplain : plainBase base (c :: r) = base := if_neg hbase
        rw [hplain] at hall ⊢
        exact Magnitude.digits hbase hall

/-- The reader takes at least as much as any number at the beginning of the string. -/
theorem readMagnitude_longest (hp : Magnitude base p m) :
    ∃ n u, readMagnitude base (p ++ t) = some (n, u) ∧
      p.length + u.length ≤ (p ++ t).length := by
  cases hhex : hasHexPrefix base (p ++ t) with
  | true =>
      obtain ⟨x, c, r, hs, hbase, hx, hc⟩ := hasHexPrefix_iff.mp hhex
      rw [hs, readMagnitude_hex hx hbase hc]
      refine ⟨_, _, rfl, ?_⟩
      have hrest := List.length_dropWhile_le (isDigitOf 16) (c :: r)
      -- without the prefix there is one digit before the `x`
      have hone : ∀ {b : ℕ} {d : BitVec 8} {q : CString}, b ≤ 16 → p = d :: q →
          (∀ e ∈ q, isDigitOf b e = true) → p.length ≤ 1 := by
        intro b d q hb hp hq
        subst hp
        cases q with
        | nil => exact Nat.le_refl 1
        | cons e q =>
            have he : e = x := (List.cons.inj (List.cons.inj hs).2).1
            have hdigit := hq e List.mem_cons_self
            rw [he, isX_not_digit hx hb] at hdigit
            cases hdigit
      have hlength : (zero :: x :: c :: r).length = (c :: r).length + 2 := rfl
      cases hp with
      | digits hne hp =>
          have hle := hone (by omega) rfl fun e he => hp e (List.mem_cons_of_mem _ he)
          omega
      | decimal hne hp => exact absurd (List.cons.inj hs).1 hne
      | octal hp =>
          have hle := hone (b := 8) (by omega) rfl hp
          omega
      | hexadecimal _ _ hp =>
          obtain ⟨-, htail⟩ := List.cons.inj (List.cons.inj hs).2
          rw [← htail]
          have hle := length_le_of_digits (t := t) hp
          simp only [List.append_eq, List.length_append, List.length_cons, List.cons_append]
            at hle ⊢
          omega
  | false =>
      have hplain : ∃ b, plainBase base (p ++ t) = b ∧ (∀ d ∈ p, isDigitOf b d = true) ∧ p ≠ [] := by
        cases hp with
        | digits hne hp => exact ⟨base, if_neg hne, hp, List.cons_ne_nil _ _⟩
        | decimal hne hp => exact ⟨10, plainBase_zero_cons hne, hp, List.cons_ne_nil _ _⟩
        | octal hp =>
            refine ⟨8, rfl, fun d hd => ?_, List.cons_ne_nil _ _⟩
            rcases List.mem_cons.mp hd with rfl | hd
            · rfl
            · exact hp d hd
        | @hexadecimal _ x c q hbase hx hp =>
            have hdigit := not_digit_of_not_hex (t := q ++ t) hhex hbase hx
            rw [hp c List.mem_cons_self] at hdigit
            cases hdigit
      obtain ⟨b, hb, hdigits, hne⟩ := hplain
      have hsome : digitsOf (plainBase base (p ++ t)) (p ++ t) ≠ [] := by
        rw [hb]
        unfold digitsOf
        rw [List.takeWhile_append_of_pos hdigits]
        exact List.append_ne_nil_of_left_ne_nil hne _
      rw [readMagnitude_plain hhex hsome, hb]
      exact ⟨_, _, rfl, length_le_of_digits hdigits⟩

/-- Digits alone are read as one number. -/
theorem readMagnitude_digits (hne : p ≠ [])
    (hp : ∀ d ∈ p, isDigitOf (plainBase base p) d = true) :
    readMagnitude base p = some (value digitValue (plainBase base p) p, []) := by
  have hhex : hasHexPrefix base p = false := by
    by_contra hhex
    obtain ⟨x, c, t, rfl, hbase, hx, -⟩ := hasHexPrefix_iff.mp (Bool.of_not_eq_false hhex)
    have hdigit := hp x (List.mem_cons_of_mem _ List.mem_cons_self)
    rw [isX_not_digit hx (plainBase_le hbase)] at hdigit
    cases hdigit
  have hdigits : digitsOf (plainBase base p) p = p := List.takeWhile_eq_self_iff.mpr hp
  rw [readMagnitude_plain hhex (by rw [hdigits]; exact hne), hdigits,
    List.dropWhile_eq_nil_iff.mpr hp]

theorem readMagnitude_self (hp : Magnitude base p m) : readMagnitude base p = some (m, []) := by
  cases hp with
  | @digits _ c q hne hp =>
      have hplain : plainBase base (c :: q) = base := if_neg hne
      have hread := @readMagnitude_digits base (c :: q) (List.cons_ne_nil _ _) (by rwa [hplain])
      rwa [hplain] at hread
  | @decimal c q hne hp =>
      have hplain : plainBase 0 (c :: q) = 10 := plainBase_zero_cons hne
      have hread := @readMagnitude_digits 0 (c :: q) (List.cons_ne_nil _ _) (by rwa [hplain])
      rwa [hplain] at hread
  | @octal q hp =>
      have hall : ∀ d ∈ zero :: q, isDigitOf 8 d = true := by
        intro d hd
        rcases List.mem_cons.mp hd with rfl | hd
        · rfl
        · exact hp d hd
      exact @readMagnitude_digits 0 (zero :: q) (List.cons_ne_nil _ _) hall
  | @hexadecimal _ x c q hbase hx hp =>
      have hdigits : digitsOf 16 (c :: q) = c :: q := List.takeWhile_eq_self_iff.mpr hp
      rw [readMagnitude_hex hx hbase (hp c List.mem_cons_self), hdigits,
        List.dropWhile_eq_nil_iff.mpr hp]

theorem valueOf_zero : valueOf negative 0 = 0 := by cases negative <;> rfl

/-- A number at the beginning of a string is read, or a longer one. -/
theorem Number.read (hp : Number base p negative m) (t : CString) :
    (handleSign ((p ++ t).dropWhile isspace)).1 = negative ∧
      ∃ n u, readMagnitude base (body (p ++ t)) = some (n, u) ∧
        p.length + u.length ≤ (p ++ t).length := by
  obtain @⟨_, blanks, sign, q, _, hblanks, hsign, hq⟩ := hp
  have hlead := @handleSign_number base q t m negative blanks sign hblanks hsign hq
  have hbody : body (blanks ++ (sign ++ q) ++ t) = q ++ t := congrArg Prod.snd hlead
  obtain ⟨n, u, hread, hle⟩ := readMagnitude_longest (t := t) hq
  refine ⟨congrArg Prod.fst hlead, n, u, hbody ▸ hread, ?_⟩
  simp only [List.length_append] at hle ⊢
  omega

theorem Number.read_self (hp : Number base p negative m) :
    readMagnitude base (body p) = some (m, []) := by
  obtain @⟨_, blanks, sign, q, _, hblanks, hsign, hq⟩ := hp
  have hlead := @handleSign_number base q [] m negative blanks sign hblanks hsign hq
  rw [List.append_nil, List.append_nil] at hlead
  have hbody : body (blanks ++ (sign ++ q)) = q := congrArg Prod.snd hlead
  rw [hbody, readMagnitude_self hq]

/-- What is read is a number at the beginning of the string. -/
theorem exists_number (hread : readMagnitude base (body s) = some (m, t)) :
    ∃ p, s = p ++ t ∧ Number base p (handleSign (s.dropWhile isspace)).1 m := by
  obtain ⟨p, hsplit, hp⟩ := readMagnitude_sound hread
  obtain ⟨blanks, sign, hlead, hblanks, hsign⟩ := exists_lead s
  refine ⟨blanks ++ (sign ++ p), ?_, hblanks, hsign, hp⟩
  rw [List.append_assoc, List.append_assoc, ← hsplit]
  exact hlead

/-- ISO C leaves `strtoul` no choice. -/
theorem isoResult_iff {r : Strtoul} : IsoResult base s r ↔ r = iso base s := by
  unfold iso
  constructor
  · intro hr
    cases hr with
    | @number p t negative m hs hp hlongest =>
        subst hs
        obtain ⟨hsign, n, u, hread, hle⟩ := hp.read t
        obtain ⟨q, hsplit, hq⟩ := exists_number hread
        have hmore := hlongest q u _ n hsplit hq
        have hlength : p.length = q.length := by
          have htotal := congrArg List.length hsplit
          simp only [List.length_append] at htotal hle
          omega
        obtain ⟨rfl, rfl⟩ := List.append_inj hsplit hlength
        have hsame := hp.read_self.symm.trans hq.read_self
        obtain rfl : m = n := (Prod.mk.inj (Option.some.inj hsame)).1
        rw [hread, hsign]
    | nothing hs =>
        cases hread : readMagnitude base (body s) with
        | none => rfl
        | some read =>
            obtain ⟨m, t⟩ := read
            obtain ⟨p, hsplit, hp⟩ := exists_number hread
            exact absurd hp (hs p t _ m hsplit)
  · rintro rfl
    cases hread : readMagnitude base (body s) with
    | none =>
        refine IsoResult.nothing fun p t negative m hs hp => ?_
        subst hs
        obtain ⟨-, n, u, hsome, -⟩ := hp.read t
        rw [hsome] at hread
        cases hread
    | some read =>
        obtain ⟨m, t⟩ := read
        obtain ⟨p, hsplit, hp⟩ := exists_number hread
        refine IsoResult.number hsplit hp fun q v negative m' hs hq => ?_
        obtain ⟨-, n, u, hread', hle⟩ := hq.read v
        rw [← hs, hread] at hread'
        obtain ⟨rfl, rfl⟩ := Prod.mk.inj (Option.some.inj hread')
        rw [← hs, hsplit, List.length_append] at hle
        exact Nat.le_of_add_le_add_right hle

/-! ## Where `strtoul` reads another number -/

/-- The prefixes that mislead `strtoul`. -/
inductive BadPrefix (base : ℕ) : CString → Prop
  /-- It is passed over although no digit follows. -/
  | bare {x : BitVec 8} {t : CString} (hbase : base = 0 ∨ base = 16)
      (hx : x = lowerX ∨ base = 0 ∧ x = upperX)
      (ht : ∀ c, t.head? = some c → isDigitOf 16 c = false) : BadPrefix base (zero :: x :: t)
  /-- An upper-case `X` is not recognised if the base is given. -/
  | upper {c : BitVec 8} {t : CString} (hbase : base = 16) (hc : isDigitOf 16 c = true) :
      BadPrefix base (zero :: upperX :: c :: t)

/-- The strings that `strtoul` does not read as ISO C says. -/
inductive Misread (base : ℕ) (s : CString) : Prop
  /-- Without digits the end is behind the blanks and the sign. -/
  | noDigits (hbody : body s ≠ s)
      (hdigits : ∀ c, (body s).head? = some c → isDigitOf (plainBase base (body s)) c = false)
  | badPrefix (hbody : BadPrefix base (body s))

/-- The number that `strtoul` finds behind the sign, and the string behind it. -/
def readCode (base : ℕ) (s : CString) : ℕ × CString :=
  (value digitValue (handleBase base s).1 (digitsOf (handleBase base s).1 (handleBase base s).2),
    (handleBase base s).2.dropWhile (isDigitOf (handleBase base s).1))

theorem strtoul_eq (hbase : 0 < (handleBase base (body s)).1) :
    strtoul s base = ⟨valueOf (handleSign (s.dropWhile isspace)).1 (readCode base (body s)).1,
      decide (ULONG_MAX < (readCode base (body s)).1), (readCode base (body s)).2⟩ := by
  have hcode : strtoul s base =
      if (convert (handleBase base (body s)).1 0 false (handleBase base (body s)).2).2.1 then
        ⟨ULONG_MAX, true,
          (convert (handleBase base (body s)).1 0 false (handleBase base (body s)).2).2.2⟩
      else ⟨if (handleSign (s.dropWhile isspace)).1 then
          (2 ^ 32 - (convert (handleBase base (body s)).1 0 false (handleBase base (body s)).2).1) %
            2 ^ 32
        else (convert (handleBase base (body s)).1 0 false (handleBase base (body s)).2).1, false,
          (convert (handleBase base (body s)).1 0 false (handleBase base (body s)).2).2.2⟩ := rfl
  obtain ⟨r, hconvert, hr⟩ := @convert_eq _ 0 (handleBase base (body s)).2 hbase (Nat.zero_le _)
  rw [hcode, hconvert]
  unfold readCode valueOf value
  by_cases hlarge : ULONG_MAX < valueFrom digitValue (handleBase base (body s)).1 0
      (digitsOf (handleBase base (body s)).1 (handleBase base (body s)).2)
  · rw [decide_eq_true hlarge, if_pos rfl, if_pos hlarge]
  · rw [decide_eq_false hlarge, if_neg Bool.false_ne_true, if_neg hlarge,
      hr (Nat.le_of_not_lt hlarge)]

theorem handleBase_pos : 0 < (handleBase base s).1 := by
  unfold handleBase
  split
  · split
    · dsimp only
      split <;> exact Nat.zero_lt_succ _
    · exact Nat.zero_lt_succ _
  next hne =>
  split
  · dsimp only
    split <;> split <;> exact Nat.zero_lt_succ _
  · exact Nat.pos_of_ne_zero hne

theorem handleBase_plain (hs : s.head? ≠ some zero) :
    handleBase base s = (plainBase base s, s) := by
  unfold handleBase plainBase
  by_cases hbase : base = 0
  · simp only [if_pos hbase, if_neg hs]
  · rw [if_neg hbase, if_neg fun h => hs h.2, if_neg hbase]

/-- The prefix is recognised, whatever follows. -/
theorem handleBase_of_hex (hbase : base = 0 ∨ base = 16)
    (hx : x = lowerX ∨ base = 0 ∧ x = upperX) : handleBase base (zero :: x :: t) = (16, t) := by
  rcases hx with rfl | ⟨rfl, rfl⟩
  · rcases hbase with rfl | rfl <;> rfl
  · rfl

theorem handleBase_upper : handleBase 16 (zero :: upperX :: t) = (16, upperX :: t) := rfl

/-- A leading zero without a prefix. -/
theorem handleBase_zero
    (ht : ∀ x, t.head? = some x → (base = 0 ∨ base = 16) → x ≠ lowerX ∧ (base = 0 → x ≠ upperX)) :
    handleBase base (zero :: t) = (plainBase base (zero :: t), t) ∨
      handleBase base (zero :: t) = (plainBase base (zero :: t), zero :: t) := by
  by_cases hzero : base = 0
  · subst hzero
    left
    cases t with
    | nil => rfl
    | cons x t =>
        obtain ⟨hlower, hupper⟩ := ht x rfl (Or.inl rfl)
        have hneither : ¬(x = lowerX ∨ x = upperX) := not_or.mpr ⟨hlower, hupper rfl⟩
        simp [handleBase, plainBase, hneither]
  by_cases hhex : base = 16
  · subst hhex
    left
    cases t with
    | nil => rfl
    | cons x t =>
        obtain ⟨hlower, -⟩ := ht x rfl (Or.inr rfl)
        have hc : ¬(zero = 1 ∨ (0 : BitVec 8) = upperX) := by decide
        simp [handleBase, plainBase, hlower]
        decide
  · right
    simp [handleBase, plainBase, hzero, hhex]

theorem zero_isDigit (c : CString) : isDigitOf (plainBase base (zero :: c)) zero = true := by
  have hpos : 0 < plainBase base (zero :: c) := by
    unfold plainBase
    split
    · exact Nat.zero_lt_succ 7
    · next hne => exact Nat.pos_of_ne_zero hne
  exact isDigit_iff.mpr ⟨0, hpos, rfl⟩

theorem readCode_hex (hbase : base = 0 ∨ base = 16) (hx : x = lowerX ∨ base = 0 ∧ x = upperX) :
    readCode base (zero :: x :: t) =
      (value digitValue 16 (digitsOf 16 t), t.dropWhile (isDigitOf 16)) := by
  unfold readCode
  rw [handleBase_of_hex hbase hx]

/-- Unless a prefix is in the way, `strtoul` takes the digits that the reader takes. -/
theorem readCode_plain
    (hs : ∀ x t, s = zero :: x :: t → (base = 0 ∨ base = 16) → x ≠ lowerX ∧ (base = 0 → x ≠ upperX)) :
    readCode base s = (value digitValue (plainBase base s) (digitsOf (plainBase base s) s),
      s.dropWhile (isDigitOf (plainBase base s))) := by
  unfold readCode
  by_cases hzero : s.head? = some zero
  · obtain ⟨t, rfl⟩ : ∃ t, s = zero :: t := by
      cases s with
      | nil => cases hzero
      | cons c t => exact ⟨t, by rw [Option.some.inj hzero]⟩
    have htail : ∀ x, t.head? = some x → (base = 0 ∨ base = 16) →
        x ≠ lowerX ∧ (base = 0 → x ≠ upperX) := by
      intro x hx
      cases t with
      | nil => cases hx
      | cons y t =>
          obtain rfl := Option.some.inj hx
          exact hs y t rfl
    rcases handleBase_zero htail with heq | heq
    · rw [heq, digitsOf_cons (zero_isDigit t), List.dropWhile_cons_of_pos (zero_isDigit t)]
      dsimp only
      have hvalue : value digitValue (plainBase base (zero :: t))
          (zero :: digitsOf (plainBase base (zero :: t)) t) =
          value digitValue (plainBase base (zero :: t))
            (digitsOf (plainBase base (zero :: t)) t) := by
        unfold value
        rw [valueFrom_cons, Nat.mul_zero]
        rfl
      rw [hvalue]
    · rw [heq]
  · rw [handleBase_plain hzero]

theorem ne_dropWhile :
    x :: c :: t ≠ (c :: t).dropWhile (isDigitOf base) := by
  intro heq
  have hle := List.length_dropWhile_le (isDigitOf base) (c :: t)
  rw [← heq] at hle
  simp at hle

/-- `strtoul` takes the same digits as the reader, or ends elsewhere. -/
theorem readCode_of_readMagnitude (hread : readMagnitude base s = some (m, t)) :
    readCode base s = (m, t) ∧ ¬BadPrefix base s ∨
      (readCode base s).2 ≠ t ∧ BadPrefix base s := by
  cases hhex : hasHexPrefix base s with
  | true =>
      obtain ⟨x, c, r, rfl, hbase, hx, hc⟩ := hasHexPrefix_iff.mp hhex
      rw [readMagnitude_hex hx hbase hc] at hread
      obtain ⟨rfl, rfl⟩ := Prod.mk.inj (Option.some.inj hread)
      by_cases hknown : x = lowerX ∨ base = 0 ∧ x = upperX
      · refine Or.inl ⟨readCode_hex hbase hknown, fun hbad => ?_⟩
        cases hbad with
        | bare _ _ ht =>
            rw [ht c rfl] at hc
            cases hc
        | upper hbase' _ =>
            subst hbase'
            rcases hknown with hlower | ⟨hzero, -⟩
            · exact absurd hlower (by decide)
            · cases hzero
      · obtain ⟨hlower, hupper⟩ := not_or.mp hknown
        obtain rfl : x = upperX := (of_decide_eq_true hx).resolve_left hlower
        obtain rfl : base = 16 := hbase.resolve_left fun hzero => hupper ⟨hzero, rfl⟩
        refine Or.inr ⟨?_, BadPrefix.upper rfl hc⟩
        unfold readCode
        rw [handleBase_upper]
        dsimp only
        rw [List.dropWhile_cons_of_neg (by decide)]
        exact ne_dropWhile
  | false =>
      have hdigits : digitsOf (plainBase base s) s ≠ [] := by
        intro hdigits
        rw [readMagnitude_nil hhex hdigits] at hread
        cases hread
      rw [readMagnitude_plain hhex hdigits] at hread
      obtain ⟨rfl, rfl⟩ := Prod.mk.inj (Option.some.inj hread)
      by_cases hbare : ∃ x t, s = zero :: x :: t ∧ (base = 0 ∨ base = 16) ∧
          (x = lowerX ∨ base = 0 ∧ x = upperX)
      · obtain ⟨x, r, rfl, hbase, hknown⟩ := hbare
        have hx : isX x = true := decide_eq_true (hknown.imp id And.right)
        have hr : ∀ c, r.head? = some c → isDigitOf 16 c = false := by
          intro c hc
          cases r with
          | nil => cases hc
          | cons d r =>
              obtain rfl := Option.some.inj hc
              exact not_digit_of_not_hex hhex hbase hx
        refine Or.inr ⟨?_, BadPrefix.bare hbase hknown hr⟩
        have hstop : ¬isDigitOf (plainBase base (zero :: x :: r)) x = true := by
          rw [isX_not_digit hx (plainBase_le hbase)]
          exact Bool.false_ne_true
        rw [readCode_hex hbase hknown, dropWhile_eq_self hr,
          List.dropWhile_cons_of_pos (zero_isDigit _), List.dropWhile_cons_of_neg hstop]
        exact fun heq => absurd (congrArg List.length heq) (by simp)
      · refine Or.inl ⟨readCode_plain fun x t hs hbase => ?_, fun hbad => ?_⟩
        · exact ⟨fun hx => hbare ⟨x, t, hs, hbase, Or.inl hx⟩,
            fun hzero hx => hbare ⟨x, t, hs, hbase, Or.inr ⟨hzero, hx⟩⟩⟩
        · cases hbad with
          | bare hbase hx _ => exact hbare ⟨_, _, rfl, hbase, hx⟩
          | @upper c r hbase hc =>
              rw [not_digit_of_not_hex hhex (Or.inr hbase) (by decide)] at hc
              cases hc

/-- A string without digits does not begin with a zero. -/
theorem ne_zero_cons (hs : ∀ c, s.head? = some c → isDigitOf (plainBase base s) c = false) :
    s ≠ zero :: t := by
  rintro rfl
  have hfalse := hs zero rfl
  rw [zero_isDigit] at hfalse
  cases hfalse

theorem readMagnitude_eq_none_iff : readMagnitude base s = none ↔
    ∀ c, s.head? = some c → isDigitOf (plainBase base s) c = false := by
  constructor
  · exact fun hs => digitsOf_eq_nil_iff.mp (readMagnitude_none hs).2
  · intro hs
    have hhex : hasHexPrefix base s = false := by
      refine Bool.eq_false_iff.mpr fun hhex => ?_
      obtain ⟨x, c, r, heq, -⟩ := hasHexPrefix_iff.mp hhex
      exact ne_zero_cons hs heq
    exact readMagnitude_nil hhex (digitsOf_eq_nil_iff.mpr hs)

theorem BadPrefix.exists_cons (h : BadPrefix base s) : ∃ t, s = zero :: t := by
  cases h with
  | bare _ _ _ => exact ⟨_, rfl⟩
  | upper _ _ => exact ⟨_, rfl⟩

/-- `strtoul` returns what ISO C asks for, unless the string is one that it misreads. -/
theorem strtoul_iso_iff (base : ℕ) (s : CString) :
    IsoResult base s (strtoul s base) ↔ ¬Misread base s := by
  rw [isoResult_iff, strtoul_eq handleBase_pos]
  unfold iso
  cases hread : readMagnitude base (body s) with
  | none =>
      have hhead := readMagnitude_eq_none_iff.mp hread
      have hnull : value digitValue (plainBase base (body s)) [] = 0 := rfl
      rw [readCode_plain fun x t hs => absurd hs (ne_zero_cons hhead),
        digitsOf_eq_nil_iff.mpr hhead, dropWhile_eq_self hhead, hnull, valueOf_zero]
      constructor
      · intro heq hmisread
        cases hmisread with
        | noDigits hne _ => exact hne (Strtoul.mk.inj heq).2.2
        | badPrefix hbad =>
            obtain ⟨t, ht⟩ := hbad.exists_cons
            exact ne_zero_cons hhead ht
      · intro hmisread
        by_cases hsame : body s = s
        · rw [hsame]
          rfl
        · exact absurd (Misread.noDigits hsame hhead) hmisread
  | some read =>
      obtain ⟨m, t⟩ := read
      rcases readCode_of_readMagnitude hread with ⟨hcode, hgood⟩ | ⟨hcode, hbad⟩
      · rw [hcode]
        refine ⟨fun _ hmisread => ?_, fun _ => rfl⟩
        cases hmisread with
        | noDigits _ hhead =>
            -- the reader has found digits
            rw [readMagnitude_eq_none_iff.mpr hhead] at hread
            cases hread
        | badPrefix hbad => exact hgood hbad
      · exact ⟨fun heq => absurd (Strtoul.mk.inj heq).2.2 hcode,
          fun hmisread => absurd (Misread.badPrefix hbad) hmisread⟩

theorem handleSign_eq (s : CString) : handleSign s = (decide (s.head? = some minus),
    if s.head? = some plus ∨ decide (s.head? = some minus) = true then s.drop 1 else s) := by
  cases s with
  | nil => rfl
  | cons c s =>
      by_cases hplus : c = plus
      · subst hplus
        rfl
      by_cases hminus : c = minus
      · subst hminus
        rfl
      simp [handleSign, hplus, hminus]

theorem handleBase_of_zero (s : CString) : handleBase 0 s = if s.head? = some zero then
    if (s.drop 1).head? = some lowerX ∨ (s.drop 1).head? = some upperX then
      (16, (s.drop 1).drop 1) else (8, s.drop 1)
    else (10, s) := by
  rw [List.drop_one, List.drop_one]
  rfl

/-- The numbers in the names of partitions are those of `strtoul`. -/
theorem mtd_strtoul_eq (s : CString) : Mtd.strtoul s = (strtoul s 0).result := by
  have hcode : Mtd.strtoul s =
      (digitsFrom (handleBase 0 (body s)).1 (some 0) (handleBase 0 (body s)).2).elim (2 ^ 32 - 1)
        fun result =>
          if (handleSign (s.dropWhile isspace)).1 then (2 ^ 32 - result) % 2 ^ 32
          else result := by
    unfold body
    rw [handleBase_of_zero, handleSign_eq]
    unfold Mtd.strtoul
    dsimp only
    split
    next hnone =>
      refine Eq.symm ((congrArg (fun x : Option ℕ => x.elim _ _) ?_).trans (Option.elim_none _ _))
      exact hnone
    next hsome =>
      refine Eq.symm ((congrArg (fun x : Option ℕ => x.elim _ _) ?_).trans (Option.elim_some _ _ _))
      exact hsome
  rw [hcode, strtoul_eq handleBase_pos, digitsFrom_eq handleBase_pos (Nat.zero_le _)]
  unfold valueOf readCode value
  dsimp only
  by_cases hlarge : ULONG_MAX < valueFrom digitValue (handleBase 0 (body s)).1 0
      (digitsOf (handleBase 0 (body s)).1 (handleBase 0 (body s)).2)
  · simp only [if_pos hlarge, Option.elim_none]
    rfl
  · simp only [if_neg hlarge, Option.elim_some]

theorem strtoul_iso_counterexample :
    ¬IsoResult 16 [zero, upperX, 0x31, 0x46] (strtoul [zero, upperX, 0x31, 0x46] 16) := by
  rw [isoResult_iff]
  decide

end Parse

end LuojiOs
