import Mathlib.Algebra.BigOperators.Group.Finset.Basic
import Mathlib.Algebra.Order.BigOperators.Group.Finset
import Mathlib.Algebra.Order.Ring.Nat
import Mathlib.Data.List.Basic
import Mathlib.Logic.Function.Iterate

/-!
# The Gregorian calendar

A stamp is a date with a time of day.  `next` goes on by one second, and `seconds` is the
number of seconds since the beginning of a year.  The stamps from there on are the iterates
of `next`, and their numbers are in the order of the stamps.
-/

namespace Calendar

open Finset

/-- A date with a time of day.  Months count from 0, days of a month from 1. -/
structure Stamp where
  year : ℕ
  month : ℕ
  day : ℕ
  hour : ℕ
  minute : ℕ
  second : ℕ
  deriving DecidableEq, Repr

def IsLeap (y : ℕ) : Prop := y % 4 = 0 ∧ (y % 100 ≠ 0 ∨ y % 400 = 0)

instance (y : ℕ) : Decidable (IsLeap y) := inferInstanceAs (Decidable (_ ∧ _))

/-- The days of a month, in a leap year or not. -/
def monthDays (leap : Bool) (m : ℕ) : ℕ :=
  if m = 1 then if leap then 29 else 28
  else if m = 3 ∨ m = 5 ∨ m = 8 ∨ m = 10 then 30 else 31

def daysIn (y m : ℕ) : ℕ := monthDays (IsLeap y) m

def daysInYear (y : ℕ) : ℕ := if IsLeap y then 366 else 365

/-- The first second of a year. -/
def newYear (y : ℕ) : Stamp := ⟨y, 0, 1, 0, 0, 0⟩

namespace Stamp

structure Valid (d : Stamp) : Prop where
  month : d.month < 12
  day : 1 ≤ d.day ∧ d.day ≤ daysIn d.year d.month
  hour : d.hour < 24
  minute : d.minute < 60
  second : d.second < 60

/-- One second later. -/
def next (d : Stamp) : Stamp :=
  if d.second + 1 < 60 then { d with second := d.second + 1 }
  else if d.minute + 1 < 60 then { d with minute := d.minute + 1, second := 0 }
  else if d.hour + 1 < 24 then { d with hour := d.hour + 1, minute := 0, second := 0 }
  else if d.day < daysIn d.year d.month then ⟨d.year, d.month, d.day + 1, 0, 0, 0⟩
  else if d.month + 1 < 12 then ⟨d.year, d.month + 1, 1, 0, 0, 0⟩
  else newYear (d.year + 1)

/-- The days of the year that have passed. -/
def dayOfYear (d : Stamp) : ℕ := ∑ m ∈ range d.month, daysIn d.year m + (d.day - 1)

/-- The days that have passed since the beginning of the year `y`. -/
def days (y : ℕ) (d : Stamp) : ℕ := ∑ k ∈ range (d.year - y), daysInYear (y + k) + d.dayOfYear

def secondOfDay (d : Stamp) : ℕ := d.hour * 3600 + d.minute * 60 + d.second

/-- The seconds that have passed since the beginning of the year `y`. -/
def seconds (y : ℕ) (d : Stamp) : ℕ := d.days y * 86400 + d.secondOfDay

/-- The fields of a stamp, the most significant one first. -/
def fields (d : Stamp) : List ℕ := [d.year, d.month, d.day, d.hour, d.minute, d.second]

/-- The order of the calendar. -/
def Before (d e : Stamp) : Prop := d.fields < e.fields

end Stamp

section

variable {d e : Stamp} {y n : ℕ}

theorem monthDays_pos (leap : Bool) (m : ℕ) : 28 ≤ monthDays leap m := by
  unfold monthDays
  split_ifs <;> omega

theorem monthDays_le (leap : Bool) (m : ℕ) : monthDays leap m ≤ 31 := by
  unfold monthDays
  split_ifs <;> omega

/-- The months make up the year. -/
theorem sum_daysIn (y : ℕ) : ∑ m ∈ range 12, daysIn y m = daysInYear y := by
  unfold daysInYear
  by_cases hy : IsLeap y
  · have hdays : daysIn y = monthDays true := by
      unfold daysIn
      rw [decide_eq_true hy]
    rw [if_pos hy, hdays]
    rfl
  · have hdays : daysIn y = monthDays false := by
      unfold daysIn
      rw [decide_eq_false hy]
    rw [if_neg hy, hdays]
    rfl

theorem one_le_daysIn (y m : ℕ) : 1 ≤ daysIn y m :=
  (by decide : 1 ≤ 28).trans (monthDays_pos _ m)

theorem secondOfDay_midnight (y m a : ℕ) : (Stamp.mk y m a 0 0 0).secondOfDay = 0 := by
  unfold Stamp.secondOfDay
  dsimp only

theorem newYear_valid (y : ℕ) : (newYear y).Valid where
  month := (by decide : 0 < 12)
  day := ⟨Nat.le_refl 1, one_le_daysIn y 0⟩
  hour := (by decide : 0 < 24)
  minute := (by decide : 0 < 60)
  second := (by decide : 0 < 60)

theorem seconds_newYear (y : ℕ) : (newYear y).seconds y = 0 := by
  have hzero : (newYear y).secondOfDay = 0 := secondOfDay_midnight y 0 1
  unfold Stamp.seconds Stamp.days Stamp.dayOfYear
  rw [hzero]
  simp [newYear]

/-! ## One second -/

theorem Stamp.Valid.next (h : d.Valid) : d.next.Valid := by
  have hzero : 0 < 60 := by decide
  unfold Stamp.next
  split_ifs with hsecond hminute hhour hday hmonth
  · exact ⟨h.month, h.day, h.hour, h.minute, hsecond⟩
  · exact ⟨h.month, h.day, h.hour, hminute, hzero⟩
  · exact ⟨h.month, h.day, hhour, hzero, hzero⟩
  · exact ⟨h.month, ⟨Nat.le_add_left 1 d.day, hday⟩, (by decide : 0 < 24), hzero, hzero⟩
  · exact ⟨hmonth, ⟨Nat.le_refl 1, one_le_daysIn _ _⟩, (by decide : 0 < 24), hzero, hzero⟩
  · exact newYear_valid _

theorem year_le_next (d : Stamp) : d.year ≤ d.next.year := by
  unfold Stamp.next newYear
  split_ifs
  all_goals simp

/-- A day later at midnight. -/
theorem days_next (h : d.Valid) (hy : y ≤ d.year) (hsecond : ¬d.second + 1 < 60)
    (hminute : ¬d.minute + 1 < 60) (hhour : ¬d.hour + 1 < 24) :
    d.next.days y = d.days y + 1 ∧ d.next.secondOfDay = 0 := by
  have hday := h.day
  have hmonth := h.month
  unfold Stamp.next
  rw [if_neg hsecond, if_neg hminute, if_neg hhour]
  by_cases hsame : d.day < daysIn d.year d.month
  · rw [if_pos hsame]
    refine ⟨?_, secondOfDay_midnight _ _ _⟩
    unfold Stamp.days Stamp.dayOfYear
    dsimp only
    omega
  · rw [if_neg hsame]
    by_cases hlast : d.month + 1 < 12
    · rw [if_pos hlast]
      refine ⟨?_, secondOfDay_midnight _ _ _⟩
      unfold Stamp.days Stamp.dayOfYear
      dsimp only
      rw [sum_range_succ (daysIn d.year)]
      omega
    · -- the day is the last one of December
      rw [if_neg hlast]
      refine ⟨?_, secondOfDay_midnight _ _ _⟩
      have hyears : d.year + 1 - y = (d.year - y) + 1 := by omega
      have hthis : y + (d.year - y) = d.year := by omega
      have hdecember : d.month = 11 := by omega
      have hyear := sum_daysIn d.year
      rw [sum_range_succ] at hyear
      unfold Stamp.days Stamp.dayOfYear newYear
      dsimp only
      rw [hdecember] at hday hsame ⊢
      rw [hyears, sum_range_succ, hthis, sum_range_zero]
      omega

theorem seconds_next (h : d.Valid) (hy : y ≤ d.year) : d.next.seconds y = d.seconds y + 1 := by
  have hs := h.second
  have hm := h.minute
  have hh := h.hour
  unfold Stamp.seconds
  by_cases hsecond : d.second + 1 < 60
  · unfold Stamp.next
    rw [if_pos hsecond]
    unfold Stamp.days Stamp.dayOfYear Stamp.secondOfDay
    dsimp only
    omega
  · by_cases hminute : d.minute + 1 < 60
    · unfold Stamp.next
      rw [if_neg hsecond, if_pos hminute]
      unfold Stamp.days Stamp.dayOfYear Stamp.secondOfDay
      dsimp only
      omega
    · by_cases hhour : d.hour + 1 < 24
      · unfold Stamp.next
        rw [if_neg hsecond, if_neg hminute, if_pos hhour]
        unfold Stamp.days Stamp.dayOfYear Stamp.secondOfDay
        dsimp only
        omega
      · obtain ⟨hdays, hzero⟩ := days_next h hy hsecond hminute hhour
        rw [hdays, hzero]
        unfold Stamp.secondOfDay
        omega

/-- The stamps after some seconds. -/
theorem iterate_next (y n : ℕ) :
    (Stamp.next^[n] (newYear y)).Valid ∧ y ≤ (Stamp.next^[n] (newYear y)).year ∧
      (Stamp.next^[n] (newYear y)).seconds y = n := by
  induction n with
  | zero => exact ⟨newYear_valid y, Nat.le_refl y, seconds_newYear y⟩
  | succ n ih =>
      obtain ⟨hvalid, hyear, hseconds⟩ := ih
      rw [Function.iterate_succ_apply']
      refine ⟨hvalid.next, hyear.trans (year_le_next _), ?_⟩
      rw [seconds_next hvalid hyear, hseconds]

/-! ## The order of the stamps -/

theorem Stamp.before_iff : d.Before e ↔ d.year < e.year ∨ d.year = e.year ∧
    (d.month < e.month ∨ d.month = e.month ∧ (d.day < e.day ∨ d.day = e.day ∧
      (d.hour < e.hour ∨ d.hour = e.hour ∧
        (d.minute < e.minute ∨ d.minute = e.minute ∧ d.second < e.second)))) := by
  unfold Stamp.Before Stamp.fields
  simp only [List.cons_lt_cons_iff, List.lt_irrefl, and_false, or_false]

theorem Stamp.eq_of_fields (h : d.fields = e.fields) : d = e := by
  unfold Stamp.fields at h
  cases d
  cases e
  simp_all

theorem secondOfDay_lt (h : d.Valid) : d.secondOfDay < 86400 := by
  have hs := h.second
  have hm := h.minute
  have hh := h.hour
  unfold Stamp.secondOfDay
  omega

/-- A day lies in its month, and in its year. -/
theorem dayOfYear_lt (h : d.Valid) {m : ℕ} (hm : d.month < m) :
    d.dayOfYear < ∑ i ∈ range m, daysIn d.year i := by
  have hday := h.day
  have hle : ∑ i ∈ range (d.month + 1), daysIn d.year i ≤ ∑ i ∈ range m, daysIn d.year i :=
    sum_le_sum_of_subset (range_mono hm)
  rw [sum_range_succ] at hle
  unfold Stamp.dayOfYear
  omega

theorem days_lt_of_year (h : d.Valid) (hy : y ≤ d.year) (hlt : d.year < e.year) :
    d.days y < e.days y := by
  have hday := dayOfYear_lt h h.month
  rw [sum_daysIn] at hday
  have hle : ∑ k ∈ range (d.year - y + 1), daysInYear (y + k) ≤
      ∑ k ∈ range (e.year - y), daysInYear (y + k) :=
    sum_le_sum_of_subset (range_mono (by omega))
  rw [sum_range_succ, show y + (d.year - y) = d.year by omega] at hle
  unfold Stamp.days
  omega

theorem days_lt_of_month (h : d.Valid) (hyear : d.year = e.year) (hlt : d.month < e.month) :
    d.days y < e.days y := by
  have hday := dayOfYear_lt h hlt
  rw [hyear] at hday
  unfold Stamp.days
  rw [hyear]
  unfold Stamp.dayOfYear at hday ⊢
  rw [hyear] at hday ⊢
  omega

theorem days_of_day (hyear : d.year = e.year) (hmonth : d.month = e.month) (hd : 1 ≤ d.day)
    (he : 1 ≤ e.day) : d.days y + e.day = e.days y + d.day := by
  unfold Stamp.days Stamp.dayOfYear
  rw [hyear, hmonth]
  omega

/-- The numbers of the stamps are in their order. -/
theorem seconds_lt (hd : d.Valid) (he : e.Valid) (hy : y ≤ d.year) (h : d.Before e) :
    d.seconds y < e.seconds y := by
  have hlast := secondOfDay_lt hd
  have hdays : d.days y < e.days y → d.seconds y < e.seconds y := by
    intro hlt
    unfold Stamp.seconds
    omega
  have htime := hd.minute
  have htime' := hd.second
  rcases Stamp.before_iff.mp h with hyear | ⟨hyear, hmonth | ⟨hmonth, hday⟩⟩
  · exact hdays (days_lt_of_year hd hy hyear)
  · exact hdays (days_lt_of_month hd hyear hmonth)
  · have hday' := days_of_day (y := y) hyear hmonth hd.day.1 he.day.1
    rcases hday with hday | ⟨hday, hrest⟩
    · exact hdays (by omega)
    · unfold Stamp.seconds Stamp.secondOfDay
      omega

/-- A stamp is reached after as many seconds as it has. -/
theorem iterate_next_seconds (hd : d.Valid) (hy : y ≤ d.year) :
    Stamp.next^[d.seconds y] (newYear y) = d := by
  obtain ⟨hvalid, hyear, hseconds⟩ := iterate_next y (d.seconds y)
  generalize Stamp.next^[d.seconds y] (newYear y) = e at hvalid hyear hseconds
  rcases lt_trichotomy e.fields d.fields with hbefore | heq | hafter
  · exact absurd (seconds_lt hvalid hd hyear hbefore) (by omega)
  · exact Stamp.eq_of_fields heq
  · exact absurd (seconds_lt hd hvalid hy hafter) (by omega)

/-- Years have at least 365 days. -/
theorem years_le_days (y : ℕ) (d : Stamp) : (d.year - y) * 365 ≤ d.days y := by
  have hle : ∑ k ∈ range (d.year - y), 365 ≤ ∑ k ∈ range (d.year - y), daysInYear (y + k) := by
    apply sum_le_sum
    intro k _
    unfold daysInYear
    split_ifs <;> omega
  rw [sum_const_nat fun _ _ => rfl, card_range] at hle
  exact hle.trans (Nat.le_add_right _ _)

end

end Calendar
