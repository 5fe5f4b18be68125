import LuojiOs.Files.Table
import LuojiOs.Support.Calendar
import LuojiOs.Support.Masks

/-!
# The clock

`dateUpdata` writes a date to the two registers of the clock, `date` reads it from there,
and `gmmktime` counts the seconds since the beginning of the year 2000.
-/

namespace LuojiOs

namespace Clock

/-- The fields of `struct tm` that are read. -/
structure Tm where
  tmSec100ms : ℤ
  tmSec : ℤ
  tmMin : ℤ
  tmHour : ℤ
  tmMday : ℤ
  tmMon : ℤ
  tmYear : ℤ
  deriving DecidableEq, Repr

def SECS_PER_MIN : ℤ := 60

def SECS_PER_HOUR : ℤ := SECS_PER_MIN * 60

def SECS_PER_DAY : ℤ := SECS_PER_HOUR * 24

def monLengths : List (List ℤ) :=
  [[31, 28, 31, 30, 31, 30, 31, 31, 30, 31, 30, 31],
    [31, 29, 31, 30, 31, 30, 31, 31, 30, 31, 30, 31]]

def yearLengths : List ℤ := [365, 366]

def isleap (y : ℤ) : Bool := y.tmod 4 = 0 ∧ (y.tmod 100 ≠ 0 ∨ y.tmod 400 = 0)

def FROM_YEAR : ℤ := 2000

def TO_YEAR : ℤ := 2100

/-- A value added to a `time_t`, which has 32 bits. -/
def addSecs (secs : BitVec 32) (x : ℤ) : BitVec 32 := secs + BitVec.ofInt 32 x

def gmmktime (tm : Tm) : ℤ :=
  if tm.tmSec > 59 ∨ tm.tmMin > 59 ∨ tm.tmHour > 23 ∨ tm.tmMday > 31 ∨ tm.tmMon > 12 ∨
      tm.tmYear < FROM_YEAR then -1
  else
    let secs := BitVec.ofInt 32 tm.tmSec
    let secs := addSecs secs (tm.tmMin * SECS_PER_MIN)
    let secs := addSecs secs (tm.tmHour * SECS_PER_HOUR)
    let secs := addSecs secs ((tm.tmMday - 1) * SECS_PER_DAY)
    let secs := (List.range tm.tmMon.toNat).foldl (fun secs mn => addSecs secs
      ((monLengths.getD (isleap (tm.tmYear - 1900)).toNat []).getD mn 0 * SECS_PER_DAY)) secs
    let secs := (List.range (tm.tmYear - FROM_YEAR).toNat).foldl (fun secs (i : ℕ) => addSecs secs
      (yearLengths.getD (isleap (FROM_YEAR + i)).toNat 0 * SECS_PER_DAY)) secs
    secs.toInt

/-- What `date` takes from the words of the clock: the date that it prints, and the number of
seconds that it returns. -/
def date (v year : BitVec 32) : Tm × ℤ :=
  let tms : Tm :=
    { tmMon := ((v >>> 26) &&& 0x3f).toInt
      tmMday := ((v >>> 21) &&& 0x1f).toInt
      tmHour := ((v >>> 16) &&& 0x1f).toInt
      tmMin := ((v >>> 10) &&& 0x3f).toInt
      tmSec := ((v >>> 4) &&& 0x3f).toInt
      tmSec100ms := (v &&& 0xf).toInt
      tmYear := (year + BitVec.ofInt 32 FROM_YEAR).toInt }
  (tms, gmmktime tms)

/-- One argument of `dateUpdata`, as an `unsigned int`. -/
def readField (lo hi : ℤ) (error : CString) (arg : CString) : Except CString (BitVec 32) :=
  let x := BitVec.ofInt 32 (Filesys.atoi arg)
  if BitVec.ofInt 32 hi < x ∨ x < BitVec.ofInt 32 lo then .error error else .ok x

def readYear : CString → Except CString (BitVec 32) :=
  readField FROM_YEAR TO_YEAR (cstr "year error.\n")

def readMonth : CString → Except CString (BitVec 32) := readField 1 12 (cstr "month error.\n")

def readDay : CString → Except CString (BitVec 32) := readField 1 31 (cstr "day error.\n")

def readHour : CString → Except CString (BitVec 32) := readField 0 23 (cstr "hour error.\n")

def readMin : CString → Except CString (BitVec 32) := readField 0 59 (cstr "min error.\n")

def readSec : CString → Except CString (BitVec 32) := readField 0 59 (cstr "sec error.\n")

/-- The words for `REG_TOY_WRITE0` and `REG_TOY_WRITE1`. -/
def dateWords (year month day hour min sec : CString) :
    Except CString (BitVec 32 × BitVec 32) := do
  let year ← readYear year
  let month ← readMonth month
  let day ← readDay day
  let hour ← readHour hour
  let min ← readMin min
  let sec ← readSec sec
  return (sec <<< 4 ||| min <<< 10 ||| hour <<< 16 ||| day <<< 21 ||| (month - 1) <<< 26,
    year - BitVec.ofInt 32 FROM_YEAR)

/-- What a call of `dateUpdata` returns, prints, and writes to the clock. -/
structure Update where
  status : ℤ
  printed : CString
  words : Option (BitVec 32 × BitVec 32)

def dateUpdata : List CString → Update
  | _ :: year :: month :: day :: hour :: min :: sec :: _ =>
    match dateWords year month day hour min sec with
    | .error error => ⟨-1, error, none⟩
    | .ok words =>
      ⟨1, cstr "write date success:" ++ year ++ cstr "-" ++ month ++ cstr "-" ++ day ++ cstr " " ++
        hour ++ cstr ":" ++ min ++ cstr ":" ++ sec ++ cstr " .\n", some words⟩
  | _ => ⟨0, cstr "dateUpdata 2018 10 23 13 23 56\n ", none⟩

/-! ## Counting the seconds -/

open Calendar Finset

section Count

variable {d e : Stamp} {m n y : ℕ} {z x : ℤ}

/-- The date `d` in a `struct tm`. -/
def ofStamp (sec100ms : ℤ) (d : Stamp) : Tm :=
  ⟨sec100ms, d.second, d.minute, d.hour, d.day, d.month, d.year⟩

/-- The date has a count that fits into a `time_t`. -/
structure Countable (d : Stamp) : Prop where
  valid : d.Valid
  year : 2000 ≤ d.year
  fits : d.seconds 2000 < 2 ^ 31

/-- From March to December 2000 the 29th of February is left out. -/
def LeapDayMissed (d : Stamp) : Prop := d.year = 2000 ∧ 2 ≤ d.month

instance (d : Stamp) : Decidable (LeapDayMissed d) := inferInstanceAs (Decidable (_ ∧ _))

theorem addSecs_ofInt : addSecs (BitVec.ofInt 32 z) x = BitVec.ofInt 32 (z + x) :=
  (BitVec.ofInt_add z x).symm

/-- A loop that adds up days. -/
theorem foldl_addSecs {f : ℕ → ℕ} {g : ℕ → ℤ} (hg : ∀ k < n, g k = f k) :
    (List.range n).foldl (fun secs k => addSecs secs (g k * SECS_PER_DAY)) (BitVec.ofInt 32 z) =
      BitVec.ofInt 32 (z + ((∑ k ∈ range n, f k : ℕ) : ℤ) * 86400) := by
  induction n with
  | zero => simp
  | succ n ih =>
      have hday : SECS_PER_DAY = 86400 := rfl
      rw [List.range_succ, List.foldl_append, ih fun k hk => hg k (Nat.lt_succ_of_lt hk)]
      simp only [List.foldl_cons, List.foldl_nil]
      rw [addSecs_ofInt, hg n (Nat.lt_succ_self n), hday, sum_range_succ, Nat.cast_add, add_mul,
        add_assoc]

theorem isleap_natCast (y : ℕ) : isleap y = decide (IsLeap y) := by
  have hmod : ∀ k : ℤ, (y : ℤ).tmod k = y % k := fun k =>
    Int.tmod_eq_emod_of_nonneg (Int.natCast_nonneg y)
  unfold isleap
  rw [hmod, hmod, hmod]
  apply decide_eq_decide.mpr
  unfold IsLeap
  omega

/-- The test of the year less 1900 is right in this century, but not in its first year. -/
theorem isleap_sub (hy : 2000 ≤ y) (hlt : y < 2100) :
    isleap ((y : ℤ) - 1900) = decide (IsLeap y ∧ y ≠ 2000) := by
  have hcast : (y : ℤ) - 1900 = ((y - 1900 : ℕ) : ℤ) := by omega
  rw [hcast, isleap_natCast, decide_eq_decide]
  unfold IsLeap
  omega

theorem monLengths_eq : ∀ leap : Bool, ∀ m < 12,
    (monLengths.getD leap.toNat []).getD m 0 = (monthDays leap m : ℕ) := by
  decide

theorem yearLengths_eq (i : ℕ) :
    yearLengths.getD (isleap (FROM_YEAR + i)).toNat 0 = (daysInYear (2000 + i) : ℕ) := by
  have hcast : FROM_YEAR + (i : ℤ) = ((2000 + i : ℕ) : ℤ) := by
    rw [Nat.cast_add]
    rfl
  rw [hcast, isleap_natCast]
  unfold daysInYear
  by_cases hy : IsLeap (2000 + i)
  · rw [decide_eq_true hy, if_pos hy]
    rfl
  · rw [decide_eq_false hy, if_neg hy]
    rfl

/-- The days of the months before `m` with and without the 29th of February. -/
theorem sum_monthDays (m : ℕ) :
    ∑ k ∈ range m, monthDays true k = ∑ k ∈ range m, monthDays false k + if 2 ≤ m then 1 else 0 := by
  induction m with
  | zero => rfl
  | succ m ih =>
      have hmonth : monthDays true m = monthDays false m + if m = 1 then 1 else 0 := by
        by_cases hm : m = 1
        · subst hm
          rfl
        · unfold monthDays
          rw [if_neg hm, if_neg hm, if_neg hm, Nat.add_zero]
      rw [sum_range_succ, sum_range_succ, ih, hmonth]
      split_ifs <;> omega

theorem Countable.year_lt (h : Countable d) : d.year < 2100 := by
  have hyears := years_le_days 2000 d
  have hfits := h.fits
  unfold Stamp.seconds at hfits
  omega

/-- The months that `gmmktime` adds up. -/
theorem Countable.months (h : Countable d) :
    ((∑ k ∈ range d.month, monthDays (isleap ((d.year : ℤ) - 1900)) k : ℕ) : ℤ) =
      (∑ k ∈ range d.month, daysIn d.year k : ℕ) - if LeapDayMissed d then 1 else 0 := by
  rw [isleap_sub h.year h.year_lt]
  unfold daysIn
  by_cases hfirst : d.year = 2000
  · have hno : decide (IsLeap d.year ∧ d.year ≠ 2000) = false :=
      decide_eq_false fun hc => hc.2 hfirst
    have hyes : decide (IsLeap d.year) = true := decide_eq_true (by rw [hfirst]; decide)
    rw [hno, hyes, sum_monthDays d.month]
    by_cases hmonth : 2 ≤ d.month
    · have hmissed : LeapDayMissed d := ⟨hfirst, hmonth⟩
      simp [hmissed, hmonth]
    · have hmissed : ¬LeapDayMissed d := fun hc => hmonth hc.2
      simp [hmissed, hmonth]
  · have hsame : decide (IsLeap d.year ∧ d.year ≠ 2000) = decide (IsLeap d.year) :=
      decide_eq_decide.mpr (and_iff_left hfirst)
    have hmissed : ¬LeapDayMissed d := fun hc => hfirst hc.1
    rw [hsame, if_neg hmissed, sub_zero]

/-- What `gmmktime` returns for every date whose count fits. -/
theorem Countable.gmmktime_eq (h : Countable d) (x : ℤ) :
    gmmktime (ofStamp x d) = d.seconds 2000 - if LeapDayMissed d then 86400 else 0 := by
  obtain ⟨hmonth, hday, hhour, hminute, hsecond⟩ := h.valid
  have hyear := h.year
  have hfits := h.fits
  have hmonths := h.months
  have hlength : d.day ≤ 31 := hday.2.trans (monthDays_le _ _)
  have hguard : ¬((ofStamp x d).tmSec > 59 ∨ (ofStamp x d).tmMin > 59 ∨ (ofStamp x d).tmHour > 23 ∨
      (ofStamp x d).tmMday > 31 ∨ (ofStamp x d).tmMon > 12 ∨ (ofStamp x d).tmYear < FROM_YEAR) := by
    unfold ofStamp FROM_YEAR
    dsimp only
    omega
  have hyears : ((d.year : ℤ) - FROM_YEAR).toNat = d.year - 2000 := by
    unfold FROM_YEAR
    omega
  have hcount : (d.seconds 2000 : ℤ) =
      d.second + d.minute * 60 + d.hour * 3600 + ((d.day : ℤ) - 1) * 86400 +
        (∑ k ∈ range d.month, daysIn d.year k : ℕ) * 86400 +
          (∑ k ∈ range (d.year - 2000), daysInYear (2000 + k) : ℕ) * 86400 := by
    unfold Stamp.seconds Stamp.days Stamp.dayOfYear Stamp.secondOfDay
    have hone : ((d.day - 1 : ℕ) : ℤ) = d.day - 1 := by omega
    push_cast
    rw [hone]
    ring
  unfold gmmktime
  rw [if_neg hguard]
  dsimp only [ofStamp]
  rw [addSecs_ofInt, addSecs_ofInt, addSecs_ofInt, Int.toNat_natCast,
    foldl_addSecs (f := monthDays (isleap ((d.year : ℤ) - 1900)))
      fun k hk => monLengths_eq _ k (hk.trans hmonth),
    hyears, foldl_addSecs (f := fun k => daysInYear (2000 + k)) fun k _ => yearLengths_eq k,
    hmonths]
  have hmin : SECS_PER_MIN = 60 := rfl
  have hhr : SECS_PER_HOUR = 3600 := rfl
  have hdy : SECS_PER_DAY = 86400 := rfl
  rw [hmin, hhr, hdy]
  rw [BitVec.toInt_ofInt_eq_self (by decide)]
  · rw [hcount]
    split_ifs <;> ring
  · split_ifs <;> omega
  · split_ifs <;> omega

end Count

/-! ## The registers -/

section Registers

variable {v year month day hour min sec : BitVec 32} {arg error : CString}

theorem int32_range (z : ℤ) : -2147483648 ≤ Devfs.int32 z ∧ Devfs.int32 z < 2147483648 := by
  have hpos : 0 < 2 ^ 32 := by decide
  exact ⟨Int.le_bmod hpos, Int.bmod_lt hpos⟩

theorem atoi_range (s : CString) :
    -2147483648 ≤ Filesys.atoi s ∧ Filesys.atoi s < 2147483648 :=
  int32_range _

/-- An argument that is accepted is the number that it says. -/
theorem readField_ok (lo hi : ℕ) (hlo : lo ≤ hi) (hhi : hi < 2147483648)
    (h : readField lo hi error arg = .ok v) :
    Filesys.atoi arg = v.toNat ∧ lo ≤ v.toNat ∧ v.toNat ≤ hi := by
  obtain ⟨hge, hlt⟩ := atoi_range arg
  have hmin : (BitVec.ofInt 32 (lo : ℤ)).toNat = lo := by
    rw [BitVec.toNat_ofInt]
    omega
  have hmax : (BitVec.ofInt 32 (hi : ℤ)).toNat = hi := by
    rw [BitVec.toNat_ofInt]
    omega
  have hvalue := BitVec.toNat_ofInt (n := 32) (Filesys.atoi arg)
  unfold readField at h
  dsimp only at h
  generalize BitVec.ofInt 32 (Filesys.atoi arg) = x at hvalue h
  by_cases hout : BitVec.ofInt 32 (hi : ℤ) < x ∨ x < BitVec.ofInt 32 (lo : ℤ)
  · rw [if_pos hout] at h
    cases h
  · rw [if_neg hout] at h
    rw [BitVec.lt_def, BitVec.lt_def, hmin, hmax] at hout
    obtain rfl := Except.ok.inj h
    omega

/-- The word of the first register. -/
theorem toNat_word (hsec : sec.toNat < 60) (hmin : min.toNat < 60) (hhour : hour.toNat < 24)
    (hday : day.toNat < 32) (hmonth : month.toNat < 12) :
    (sec <<< 4 ||| min <<< 10 ||| hour <<< 16 ||| day <<< 21 ||| month <<< 26).toNat =
      sec.toNat * 2 ^ 4 + min.toNat * 2 ^ 10 + hour.toNat * 2 ^ 16 + day.toNat * 2 ^ 21 +
        month.toNat * 2 ^ 26 := by
  have hone : (sec <<< 4).toNat = sec.toNat * 2 ^ 4 := by
    rw [BitVec.toNat_shiftLeft, Nat.shiftLeft_eq]
    omega
  have htwo : (sec <<< 4 ||| min <<< 10).toNat = sec.toNat * 2 ^ 4 + min.toNat * 2 ^ 10 := by
    rw [Masks.toNat_or_shiftLeft (by omega) (by omega), hone]
  have hthree : (sec <<< 4 ||| min <<< 10 ||| hour <<< 16).toNat =
      sec.toNat * 2 ^ 4 + min.toNat * 2 ^ 10 + hour.toNat * 2 ^ 16 := by
    rw [Masks.toNat_or_shiftLeft (by omega) (by omega), htwo]
  have hfour : (sec <<< 4 ||| min <<< 10 ||| hour <<< 16 ||| day <<< 21).toNat =
      sec.toNat * 2 ^ 4 + min.toNat * 2 ^ 10 + hour.toNat * 2 ^ 16 + day.toNat * 2 ^ 21 := by
    rw [Masks.toNat_or_shiftLeft (by omega) (by omega), hthree]
  rw [Masks.toNat_or_shiftLeft (by omega) (by omega), hfour]

/-- A field of at most six bits, as `date` stores it in an `int`. -/
theorem toInt_field {m : BitVec 32} {k : ℕ} (v : BitVec 32) (i : ℕ) (hm : m.toNat = 2 ^ k - 1)
    (hk : k ≤ 6) : ((v >>> i) &&& m).toInt = (v.toNat / 2 ^ i % 2 ^ k : ℕ) := by
  have hpow : 2 ^ k ≤ 2 ^ 6 := Nat.pow_le_pow_right (by decide) hk
  have hlt := Nat.mod_lt (v.toNat / 2 ^ i) (Nat.two_pow_pos k)
  rw [← Masks.toNat_field v i hm] at hlt ⊢
  exact BitVec.toInt_eq_toNat_of_lt (by omega)

/-- The fields that `date` takes from the words. -/
theorem date_word {w : BitVec 32} (hsec : sec.toNat < 60) (hmin : min.toNat < 60)
    (hhour : hour.toNat < 24) (hday : day.toNat < 32) (hmonth : month.toNat < 12)
    (hyear : (w + BitVec.ofInt 32 FROM_YEAR).toNat < 2 ^ 31) :
    (date (sec <<< 4 ||| min <<< 10 ||| hour <<< 16 ||| day <<< 21 ||| month <<< 26) w).1 =
      ⟨0, sec.toNat, min.toNat, hour.toNat, day.toNat, month.toNat,
        (w + BitVec.ofInt 32 FROM_YEAR).toNat⟩ := by
  have hword := toNat_word hsec hmin hhour hday hmonth
  generalize sec <<< 4 ||| min <<< 10 ||| hour <<< 16 ||| day <<< 21 ||| month <<< 26 = v at hword
  have htenths : (v &&& 0xf).toInt = 0 := by
    have hfield := toInt_field v 0 (m := 0xf) (k := 4) rfl (by decide)
    rw [BitVec.ushiftRight_zero] at hfield
    rw [hfield]
    omega
  unfold date
  dsimp only
  rw [htenths, toInt_field v 4 (k := 6) rfl (by decide), toInt_field v 10 (k := 6) rfl (by decide),
    toInt_field v 16 (k := 5) rfl (by decide), toInt_field v 21 (k := 5) rfl (by decide),
    toInt_field v 26 (k := 6) rfl (by decide), BitVec.toInt_eq_toNat_of_lt (by omega),
    Tm.mk.injEq]
  omega

theorem ok_of_bind {α β : Type} {x : Except CString α} {f : α → Except CString β} {b : β}
    (h : x >>= f = .ok b) : ∃ a, x = .ok a ∧ f a = .ok b := by
  cases x with
  | error e => cases h
  | ok a => exact ⟨a, rfl, h⟩

/-- The words of a date that is accepted say this date. -/
theorem date_dateWords {ys mos ds hs mis ss : CString} {words : BitVec 32 × BitVec 32}
    (h : dateWords ys mos ds hs mis ss = .ok words) :
    (date words.1 words.2).1 = ⟨0, Filesys.atoi ss, Filesys.atoi mis, Filesys.atoi hs,
      Filesys.atoi ds, Filesys.atoi mos - 1, Filesys.atoi ys⟩ := by
  obtain ⟨year, hy, h⟩ := ok_of_bind h
  obtain ⟨month, hmo, h⟩ := ok_of_bind h
  obtain ⟨day, hd, h⟩ := ok_of_bind h
  obtain ⟨hour, hh, h⟩ := ok_of_bind h
  obtain ⟨min, hmi, h⟩ := ok_of_bind h
  obtain ⟨sec, hs, h⟩ := ok_of_bind h
  obtain rfl := Except.ok.inj h
  obtain ⟨hyear, hylo, hyhi⟩ := readField_ok 2000 2100 (by decide) (by decide) hy
  obtain ⟨hmonth, hmolo, hmohi⟩ := readField_ok 1 12 (by decide) (by decide) hmo
  obtain ⟨hday, -, hdhi⟩ := readField_ok 1 31 (by decide) (by decide) hd
  obtain ⟨hhour, -, hhhi⟩ := readField_ok 0 23 (by decide) (by decide) hh
  obtain ⟨hmin, -, hmihi⟩ := readField_ok 0 59 (by decide) (by decide) hmi
  obtain ⟨hsec, -, hshi⟩ := readField_ok 0 59 (by decide) (by decide) hs
  have hone : (1 : BitVec 32).toNat = 1 := rfl
  have hpred : (month - 1).toNat = month.toNat - 1 := by
    rw [BitVec.toNat_sub, hone]
    omega
  have hback : year - BitVec.ofInt 32 FROM_YEAR + BitVec.ofInt 32 FROM_YEAR = year :=
    BitVec.sub_add_cancel _ _
  dsimp only
  rw [date_word (by omega) (by omega) (by omega) (by omega) (by omega) (by rw [hback]; omega),
    hback, hpred, hsec, hmin, hhour, hday, hmonth, hyear, Tm.mk.injEq]
  omega

/-- Only a date that is accepted is written. -/
theorem dateUpdata_words {argv : List CString} {words : BitVec 32 × BitVec 32}
    (h : (dateUpdata argv).words = some words) :
    ∃ name ys mos ds hs mis ss rest, argv = name :: ys :: mos :: ds :: hs :: mis :: ss :: rest ∧
      dateWords ys mos ds hs mis ss = .ok words := by
  unfold dateUpdata at h
  split at h
  · next name ys mos ds hs mis ss rest =>
    refine ⟨name, ys, mos, ds, hs, mis, ss, rest, rfl, ?_⟩
    split at h
    · cases h
    · next written hwords =>
      obtain rfl := Option.some.inj h
      exact hwords
  · cases h

end Registers

/-- `gmmktime` counts right, except from March to December 2000, where the count is a day
short.  So it increases from any date to a later one, unless the later one is from these
months and the earlier one is not, and less than a day or one day lies between them.  The
clock gives back the dates that `dateUpdata` writes. -/
theorem gmmktime_exact_iff {d e : Stamp} (hd : Countable d) (he : Countable e) (x y : ℤ) :
    Stamp.next^[d.seconds 2000] (newYear 2000) = d ∧
    (gmmktime (ofStamp x d) = d.seconds 2000 ↔ ¬LeapDayMissed d) ∧
    (d.Before e → (gmmktime (ofStamp x d) < gmmktime (ofStamp y e) ↔
      ¬(LeapDayMissed e ∧ ¬LeapDayMissed d ∧ e.seconds 2000 ≤ d.seconds 2000 + 86400))) ∧
    ∀ argv words, (dateUpdata argv).words = some words →
      ∃ name ys mos ds hs mis ss rest, argv = name :: ys :: mos :: ds :: hs :: mis :: ss :: rest ∧
        (date words.1 words.2).1 = ⟨0, Filesys.atoi ss, Filesys.atoi mis, Filesys.atoi hs,
          Filesys.atoi ds, Filesys.atoi mos - 1, Filesys.atoi ys⟩ := by
  refine ⟨iterate_next_seconds hd.valid hd.year, ?_, ?_, ?_⟩
  · rw [hd.gmmktime_eq]
    split_ifs with hmissed
    · simp [hmissed]
    · simp [hmissed]
  · intro hbefore
    have hlt := seconds_lt hd.valid he.valid hd.year hbefore
    rw [hd.gmmktime_eq, he.gmmktime_eq]
    by_cases hmd : LeapDayMissed d
    · rw [if_pos hmd]
      have hnot : ¬(LeapDayMissed e ∧ ¬LeapDayMissed d ∧
          e.seconds 2000 ≤ d.seconds 2000 + 86400) := fun hc => hc.2.1 hmd
      simp only [hnot, not_false_eq_true, iff_true]
      split_ifs <;> omega
    · rw [if_neg hmd]
      by_cases hme : LeapDayMissed e
      · rw [if_pos hme]
        simp only [hme, hmd, not_false_eq_true, true_and]
        omega
      · rw [if_neg hme]
        simp only [hme, false_and, not_false_eq_true, iff_true]
        omega
  · intro argv words h
    obtain ⟨name, ys, mos, ds, hs, mis, ss, rest, hargv, hwords⟩ := dateUpdata_words h
    exact ⟨name, ys, mos, ds, hs, mis, ss, rest, hargv, date_dateWords hwords⟩

/-- The 1st of March 2000, and noon of the day before. -/
def firstOfMarch : Stamp := ⟨2000, 2, 1, 0, 0, 0⟩

def leapDay : Stamp := ⟨2000, 1, 29, 12, 0, 0⟩

theorem countable_firstOfMarch : Countable firstOfMarch where
  valid := ⟨by decide, by decide, by decide, by decide, by decide⟩
  year := by decide
  fits := by decide

theorem countable_leapDay : Countable leapDay where
  valid := ⟨by decide, by decide, by decide, by decide, by decide⟩
  year := by decide
  fits := by decide

theorem gmmktime_exact_leapDay : gmmktime (ofStamp 0 leapDay) = leapDay.seconds 2000 :=
  (gmmktime_exact_iff countable_leapDay countable_firstOfMarch 0 0).2.1.mpr (by decide)

/-- On the 1st of March 2000 a day is missing, and the count is less than at noon of the
29th of February. -/
theorem gmmktime_misses_leapDay :
    (Countable firstOfMarch ∧ gmmktime (ofStamp 0 firstOfMarch) ≠ firstOfMarch.seconds 2000) ∧
      Countable leapDay ∧ leapDay.Before firstOfMarch ∧
        gmmktime (ofStamp 0 firstOfMarch) < gmmktime (ofStamp 0 leapDay) := by
  refine ⟨⟨countable_firstOfMarch, by decide⟩, countable_leapDay, ?_, by decide +kernel⟩
  rw [Stamp.before_iff]
  decide

end Clock

end LuojiOs
