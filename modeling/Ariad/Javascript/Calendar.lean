import Mathlib.Algebra.BigOperators.Group.List.Basic
import Mathlib.Algebra.Order.Ring.Int

/-!
# Days and dates

The Gregorian calendar, continued in both directions, and the days since the first of January 1970 that `Date`
counts in.

* `isLeap`, `monthLength` — the calendar. Months are counted from zero.
* `dayFromYear`, `makeDay` — the day of a date, also of one that is out of its month.
* `yearFromDay`, `monthFromDay`, `dateFromDay` — the date of a day.
* `dates_of_day`, `day_of_dates` — they are inverse.
* `utc` — `Date.UTC`, and `getUTCDate`.
-/

namespace Ariad.Calendar

open Nat

/-! ## The calendar -/

def isLeap (year : ℤ) : Bool := year % 4 = 0 ∧ (year % 100 ≠ 0 ∨ year % 400 = 0)

/-- The length of a month, in a leap year or in another one. -/
def monthLength (leap : Bool) : ℕ → ℤ
  | 1 => if leap then 29 else 28
  | 3 | 5 | 8 | 10 => 30
  | _ => 31

/-- The days of a year before a month. -/
def monthStart (leap : Bool) (month : ℕ) : ℤ := ((List.range month).map (monthLength leap)).sum

def daysInYear (year : ℤ) : ℤ := if isLeap year then 366 else 365

variable {month : ℕ}

theorem monthStart_succ (leap : Bool) (month : ℕ) :
    monthStart leap (month + 1) = monthStart leap month + monthLength leap month := by
  simp [monthStart, List.range_succ]

theorem monthStart_twelve (year : ℤ) : monthStart (isLeap year) 12 = daysInYear year := by
  rw [daysInYear]
  cases isLeap year <;> rfl

theorem monthLength_pos (leap : Bool) (month : ℕ) : 28 ≤ monthLength leap month := by
  unfold monthLength
  split
  · split <;> decide
  all_goals decide

theorem monthStart_mono (leap : Bool) {m n : ℕ} (h : m ≤ n) : monthStart leap m ≤ monthStart leap n := by
  induction n, h using le_induction with
  | base => exact le_refl _
  | succ n _ ih =>
    have hpos := monthLength_pos leap n
    rw [monthStart_succ]
    omega

/-! ## The day of a date -/

def dayFromYear (year : ℤ) : ℤ :=
  365 * (year - 1970) + (year - 1969) / 4 - (year - 1901) / 100 + (year - 1601) / 400

theorem dayFromYear_succ (year : ℤ) : dayFromYear (year + 1) = dayFromYear year + daysInYear year := by
  rw [daysInYear, dayFromYear, dayFromYear]
  split
  · rename_i h
    have h := of_decide_eq_true h
    omega
  · rename_i h
    have h := of_decide_eq_false (Bool.eq_false_iff.mpr h)
    omega

/-- `MakeDay`: months and days out of range lead into other years and months. -/
def makeDay (year : ℤ) (month : ℕ) (date : ℤ) : ℤ :=
  dayFromYear (year + (month / 12 : ℕ)) + monthStart (isLeap (year + (month / 12 : ℕ))) (month % 12) + date - 1

/-! ## The date of a day -/

/-- The largest year that begins at the day or before it. -/
def yearFromDay (day : ℤ) : ℤ :=
  let year := 1970 + 400 * day / 146097
  if day < dayFromYear year then year - 1 else if dayFromYear (year + 1) ≤ day then year + 1 else year

def dayWithinYear (day : ℤ) : ℤ := day - dayFromYear (yearFromDay day)

/-- The number of months of the year that end at the day or before it. -/
def monthFromDay (day : ℤ) : ℕ :=
  (List.range 11).countP fun month => monthStart (isLeap (yearFromDay day)) (month + 1) ≤ dayWithinYear day

def dateFromDay (day : ℤ) : ℤ :=
  dayWithinYear day - monthStart (isLeap (yearFromDay day)) (monthFromDay day) + 1

/-- A day is in its year. -/
theorem yearFromDay_spec (day : ℤ) : dayFromYear (yearFromDay day) ≤ day ∧ day < dayFromYear (yearFromDay day + 1) := by
  rw [yearFromDay]
  have hbefore : dayFromYear (1970 + 400 * day / 146097 - 1) ≤ day := by
    rw [dayFromYear]
    omega
  have hafter : day < dayFromYear (1970 + 400 * day / 146097 + 1 + 1) := by
    rw [dayFromYear]
    omega
  split
  · rename_i h
    rw [sub_add_cancel]
    exact ⟨hbefore, h⟩
  split
  · rename_i h
    exact ⟨h, hafter⟩
  · rename_i h h'
    exact ⟨not_lt.mp h, not_le.mp h'⟩

theorem dayFromYear_mono {m n : ℤ} (h : m ≤ n) : dayFromYear m ≤ dayFromYear n := by
  induction n, h using Int.leInduction with
  | base => exact le_refl _
  | succ n _ ih =>
    have hpos : 0 ≤ daysInYear n := by
      rw [daysInYear]
      split <;> decide
    rw [dayFromYear_succ]
    omega

/-- A day is in one year. -/
theorem yearFromDay_eq {year day : ℤ} (h : dayFromYear year ≤ day) (h' : day < dayFromYear (year + 1)) :
    yearFromDay day = year := by
  obtain ⟨hle, hlt⟩ := yearFromDay_spec day
  refine le_antisymm (not_lt.mp fun hgt => ?_) (not_lt.mp fun hgt => ?_)
  iterate 2
    · have := dayFromYear_mono (Int.add_one_le_of_lt hgt)
      omega

theorem countP_monthStart {leap : Bool} {d : ℤ} (hmonth : month < 12) (h : monthStart leap month ≤ d)
    (h' : d < monthStart leap (month + 1)) : ((List.range 11).countP fun m => monthStart leap (m + 1) ≤ d) = month := by
  have hiff (m : ℕ) : monthStart leap (m + 1) ≤ d ↔ m < month := by
    constructor
    · intro hle
      by_contra hge
      have := monthStart_mono leap (Nat.add_le_add_right (not_lt.mp hge) 1)
      omega
    · exact fun hlt => le_trans (monthStart_mono leap hlt) h
  have hall : ∀ month < 12, ((List.range 11).countP fun m => m < month) = month := by decide
  simp only [hiff]
  exact hall month hmonth

/-- **The date of the day of a date.** -/
theorem dates_of_day {year date : ℤ} (hmonth : month < 12) (h : 1 ≤ date)
    (h' : date ≤ monthLength (isLeap year) month) :
    yearFromDay (makeDay year month date) = year ∧ monthFromDay (makeDay year month date) = month ∧
      dateFromDay (makeDay year month date) = date := by
  have hday : makeDay year month date = dayFromYear year + monthStart (isLeap year) month + date - 1 := by
    rw [makeDay, div_eq_of_lt hmonth, mod_eq_of_lt hmonth]
    simp
  have hstart : 0 ≤ monthStart (isLeap year) month := monthStart_mono _ (Nat.zero_le month)
  have hnext := monthStart_succ (isLeap year) month
  have hend := monthStart_mono (isLeap year) (show month + 1 ≤ 12 from hmonth)
  rw [monthStart_twelve] at hend
  have hyear : yearFromDay (makeDay year month date) = year := by
    apply yearFromDay_eq
    · omega
    · rw [dayFromYear_succ]
      omega
  have hwithin : dayWithinYear (makeDay year month date) = monthStart (isLeap year) month + date - 1 := by
    rw [dayWithinYear, hyear]
    omega
  have hmonthOf : monthFromDay (makeDay year month date) = month := by
    rw [monthFromDay, hyear, hwithin]
    exact countP_monthStart hmonth (by omega) (by omega)
  refine ⟨hyear, hmonthOf, ?_⟩
  rw [dateFromDay, hyear, hmonthOf, hwithin]
  omega

theorem exists_month {leap : Bool} {d : ℤ} (h : 0 ≤ d) (n : ℕ) (h' : d < monthStart leap n) :
    ∃ month < n, monthStart leap month ≤ d ∧ d < monthStart leap (month + 1) := by
  induction n with
  | zero => exact absurd h' (not_lt.mpr h)
  | succ n ih =>
    by_cases hn : d < monthStart leap n
    · obtain ⟨month, hmonth, hd⟩ := ih hn
      exact ⟨month, lt_succ_of_lt hmonth, hd⟩
    · exact ⟨n, lt_succ_self n, not_lt.mp hn, h'⟩

/-- **The day of the date of a day.** -/
theorem day_of_dates (day : ℤ) : monthFromDay day < 12 ∧ 1 ≤ dateFromDay day ∧
      dateFromDay day ≤ monthLength (isLeap (yearFromDay day)) (monthFromDay day) ∧
      makeDay (yearFromDay day) (monthFromDay day) (dateFromDay day) = day := by
  obtain ⟨hle, hlt⟩ := yearFromDay_spec day
  rw [dayFromYear_succ, ← monthStart_twelve] at hlt
  have hwithin : 0 ≤ dayWithinYear day := by
    rw [dayWithinYear]
    omega
  have hlast : dayWithinYear day < monthStart (isLeap (yearFromDay day)) 12 := by
    rw [dayWithinYear]
    omega
  obtain ⟨month, hmonth, hstart, hend⟩ := exists_month hwithin 12 hlast
  have hmonthOf : monthFromDay day = month := countP_monthStart hmonth hstart hend
  rw [monthStart_succ] at hend
  rw [makeDay, dateFromDay, hmonthOf, div_eq_of_lt hmonth, mod_eq_of_lt hmonth, cast_zero, add_zero]
  refine ⟨hmonth, by omega, by omega, ?_⟩
  rw [dayWithinYear]
  omega

theorem monthLength_le (leap : Bool) (month : ℕ) : monthLength leap month ≤ 31 := by
  unfold monthLength
  split
  · split <;> decide
  all_goals decide

/-- Day zero of a month is the last one of the month before. -/
theorem makeDay_zero (year : ℤ) (h : month < 12) :
    makeDay year (month + 1) 0 = makeDay year month (monthLength (isLeap year) month) := by
  rcases Nat.lt_or_ge (month + 1) 12 with hlt | hge
  · rw [makeDay, makeDay, div_eq_of_lt hlt, mod_eq_of_lt hlt, div_eq_of_lt h, mod_eq_of_lt h]
    simp only [cast_zero, add_zero]
    rw [monthStart_succ]
    omega
  · obtain rfl : month = 11 := by omega
    have htwelve := monthStart_twelve year
    rw [monthStart_succ] at htwelve
    have hnext := dayFromYear_succ year
    have hzero (leap : Bool) : monthStart leap 0 = 0 := rfl
    rw [makeDay, makeDay]
    simp only [Nat.reduceAdd, Nat.reduceDiv, Nat.reduceMod, cast_one, cast_zero, add_zero, hzero]
    omega

/-! ## Times -/

def msPerDay : ℤ := 86400000

/-- The year that `Date.UTC` takes a number for: those of two digits are of the twentieth century. -/
def makeFullYear (year : ℤ) : ℤ := if 0 ≤ year ∧ year ≤ 99 then 1900 + year else year

/-- `Date.UTC(year, month, date)`. -/
def utc (year : ℤ) (month : ℕ) (date : ℤ) : ℤ := makeDay (makeFullYear year) month date * msPerDay

/-- `new Date(time).getUTCDate()`. -/
def getUTCDate (time : ℤ) : ℤ := dateFromDay (time / msPerDay)

/-- `new Date(Date.UTC(year, month, 0)).getUTCDate()`, with the months counted from one. -/
theorem getUTCDate_utc_zero (year : ℤ) (h : month < 12) :
    getUTCDate (utc year (month + 1) 0) = monthLength (isLeap (makeFullYear year)) month := by
  have hpos := monthLength_pos (isLeap (makeFullYear year)) month
  rw [getUTCDate, utc, Int.mul_ediv_cancel _ (by decide), makeDay_zero _ h]
  exact (dates_of_day h (by omega) (le_refl _)).2.2

/-- The years of two digits are leap years as those of the twentieth century are, but for the first one. -/
theorem isLeap_makeFullYear {year : ℤ} : isLeap (makeFullYear year) = isLeap year ↔ year ≠ 0 := by
  rw [makeFullYear]
  split
  · rename_i h
    rw [isLeap, isLeap, decide_eq_decide]
    omega
  · rename_i h
    exact iff_of_true rfl fun hzero => h (by omega)

end Ariad.Calendar
