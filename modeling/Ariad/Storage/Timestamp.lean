import Ariad.Javascript.Calendar
import Ariad.Javascript.CodeUnits

/-!
# Timestamps

The time at which a generation was made, as a text with a time zone.

* `matchTimestamp` — the format.
* `assertCalendarValidTimestamp` — the check of the fields.
* `Timestamp.Real` — the fields are a date of the Gregorian calendar and a time.
* `timestamp_accepted_iff` — the check accepts these, but for one day.
* `toISOString` — the text of a time.
-/

namespace Ariad.Storage

open Calendar List

/-! ## The format -/

structure Timestamp where
  year : ℕ
  month : ℕ
  day : ℕ
  hour : ℕ
  minute : ℕ
  second : ℕ
  /-- Hours and minutes of the offset, none for `Z`. -/
  offset : Option (ℕ × ℕ)
  deriving DecidableEq

def isDigitUnit (u : UInt16) : Bool := 48 ≤ u && u ≤ 57

/-- `\d{n}` -/
def takeNumber : ℕ → JsString → ℕ → Option (ℕ × JsString)
  | 0, s, value => some (value, s)
  | _ + 1, [], _ => none
  | n + 1, u :: s, value => if isDigitUnit u then takeNumber n s (value * 10 + (u.toNat - 48)) else none

def takeChar (c : Char) : JsString → Option JsString
  | [] => none
  | u :: s => if u.toNat = c.toNat then some s else none

/-- `(\.\d+)?` -/
def takeFraction (s : JsString) : Option JsString :=
  match takeChar '.' s with
  | none => some s
  | some rest => if (rest.takeWhile isDigitUnit).length = 0 then none else some (rest.dropWhile isDigitUnit)

/-- `(Z|[+-]\d{2}:\d{2})$` -/
def takeOffset (s : JsString) : Option (Option (ℕ × ℕ)) :=
  if takeChar 'Z' s = some [] then some none
  else do
    let s ← (takeChar '+' s).orElse fun _ => takeChar '-' s
    let (hours, s) ← takeNumber 2 s 0
    let s ← takeChar ':' s
    let (minutes, s) ← takeNumber 2 s 0
    if s = [] then some (some (hours, minutes)) else none

/-- `ISO8601_WITH_TZ_REGEX.exec(value)`, with its groups as numbers. -/
def matchTimestamp (s : JsString) : Option Timestamp := do
  let (year, s) ← takeNumber 4 s 0
  let s ← takeChar '-' s
  let (month, s) ← takeNumber 2 s 0
  let s ← takeChar '-' s
  let (day, s) ← takeNumber 2 s 0
  let s ← takeChar 'T' s
  let (hour, s) ← takeNumber 2 s 0
  let s ← takeChar ':' s
  let (minute, s) ← takeNumber 2 s 0
  let s ← takeChar ':' s
  let (second, s) ← takeNumber 2 s 0
  let s ← takeFraction s
  let offset ← takeOffset s
  return { year, month, day, hour, minute, second, offset }

/-! ## The check -/

inductive TimestampError where
  | format
  | month (month : ℕ)
  | day (day year month : ℕ)
  | hour (hour : ℕ)
  | minute (minute : ℕ)
  | second (second : ℕ)
  | notParsed
  deriving DecidableEq

/-- The offset is one. -/
def Timestamp.offsetInRange (t : Timestamp) : Bool :=
  match t.offset with
  | none => true
  | some (hours, minutes) => hours ≤ 23 ∧ minutes ≤ 59

/-- `new Date(value)` is a date. A day that its month does not have is one of the month behind it. -/
def Timestamp.isParsed (t : Timestamp) : Bool :=
  1 ≤ t.month ∧ t.month ≤ 12 ∧ 1 ≤ t.day ∧ t.day ≤ 31 ∧
    (t.hour ≤ 23 ∧ t.minute ≤ 59 ∧ t.second ≤ 59 ∨ t.hour = 24 ∧ t.minute = 0 ∧ t.second = 0) ∧ t.offsetInRange

def assertCalendarValidTimestamp (value : JsString) : Except TimestampError Unit :=
  match matchTimestamp value with
  | none => .error .format
  | some t =>
    if t.month < 1 ∨ 12 < t.month then .error (.month t.month)
    else if t.day < 1 ∨ getUTCDate (utc t.year t.month 0) < t.day then .error (.day t.day t.year t.month)
    else if 23 < t.hour then .error (.hour t.hour)
    else if 59 < t.minute then .error (.minute t.minute)
    else if 59 < t.second then .error (.second t.second)
    else if t.isParsed = false then .error .notParsed
    else .ok ()

example : assertCalendarValidTimestamp (.ofText "2024-02-29T23:59:59.5+01:00".toList) = .ok () := by decide

example : assertCalendarValidTimestamp (.ofText "1900-02-29T00:00:00Z".toList) = .error (.day 29 1900 2) := by decide

/-! ## What is accepted -/

/-- A date of the Gregorian calendar, a time of the day and an offset. Leap seconds are none. -/
structure Timestamp.Real (t : Timestamp) : Prop where
  month_pos : 1 ≤ t.month
  month_le : t.month ≤ 12
  day_pos : 1 ≤ t.day
  day_le : t.day ≤ monthLength (isLeap t.year) (t.month - 1)
  hour_le : t.hour ≤ 23
  minute_le : t.minute ≤ 59
  second_le : t.second ≤ 59
  offset : t.offsetInRange = true

/-- The 29th of February of the year zero. -/
def Timestamp.isLeapDayOfYearZero (t : Timestamp) : Prop := t.year = 0 ∧ t.month = 2 ∧ t.day = 29

/-- The days that the check counts in a month. -/
theorem getUTCDate_monthLength (year : ℕ) {month : ℕ} (h : 1 ≤ month) (h' : month ≤ 12) :
    getUTCDate (utc year month 0) = monthLength (isLeap (makeFullYear year)) (month - 1) := by
  obtain ⟨m, rfl⟩ := Nat.exists_eq_add_of_le' h
  rw [getUTCDate_utc_zero _ (by omega), Nat.add_sub_cancel]

theorem monthLength_eq {leap : Bool} {month : ℕ} (h : month ≠ 1) : monthLength leap month = monthLength false month := by
  unfold monthLength
  split
  · exact absurd rfl h
  all_goals rfl

/-- The two calendars differ on one day. -/
theorem day_le_iff {t : Timestamp} (hmonth : 1 ≤ t.month) (hmonth' : t.month ≤ 12)
    (hday : t.day ≤ monthLength (isLeap t.year) (t.month - 1)) :
    t.day ≤ getUTCDate (utc t.year t.month 0) ↔ ¬t.isLeapDayOfYearZero := by
  rw [getUTCDate_monthLength _ hmonth hmonth', Timestamp.isLeapDayOfYearZero]
  by_cases hyear : t.year = 0
  · have hleap : isLeap ((0 : ℕ) : ℤ) = true := by decide
    have hfull : isLeap (makeFullYear ((0 : ℕ) : ℤ)) = false := by decide
    rw [hyear] at hday ⊢
    rw [hleap] at hday
    rw [hfull]
    by_cases hfebruary : t.month = 2
    · have hlong : monthLength true (2 - 1) = 29 := rfl
      have hshort : monthLength false (2 - 1) = 28 := rfl
      rw [hfebruary, hlong] at hday
      rw [hfebruary, hshort]
      omega
    · rw [monthLength_eq (by omega)] at hday
      exact iff_of_true hday fun h => hfebruary h.2.1
  · have hleap := isLeap_makeFullYear.mpr (Nat.cast_ne_zero.mpr hyear : (t.year : ℤ) ≠ 0)
    rw [hleap]
    exact iff_of_true hday fun h => hyear h.1

/-- No month is counted longer than it is. -/
theorem getUTCDate_le {year month : ℕ} (hmonth : 1 ≤ month) (hmonth' : month ≤ 12) :
    getUTCDate (utc year month 0) ≤ monthLength (isLeap year) (month - 1) := by
  rw [getUTCDate_monthLength _ hmonth hmonth']
  by_cases hyear : year = 0
  · have hfull : isLeap (makeFullYear ((0 : ℕ) : ℤ)) = false := by decide
    rw [hyear, hfull]
    by_cases hfebruary : month - 1 = 1
    · rw [hfebruary]
      decide
    · exact le_of_eq (monthLength_eq hfebruary).symm
  · rw [isLeap_makeFullYear.mpr (Nat.cast_ne_zero.mpr hyear : (year : ℤ) ≠ 0)]

/-- **The check accepts the dates and times, but for the leap day of the year zero.** -/
theorem assertCalendarValidTimestamp_iff (value : JsString) :
    assertCalendarValidTimestamp value = .ok () ↔
      ∃ t, matchTimestamp value = some t ∧ t.Real ∧ ¬t.isLeapDayOfYearZero := by
  rw [assertCalendarValidTimestamp]
  cases matchTimestamp value with
  | none => simp
  | some t =>
    have hsome : (∃ t', some t = some t' ∧ t'.Real ∧ ¬t'.isLeapDayOfYearZero) ↔ t.Real ∧ ¬t.isLeapDayOfYearZero := by
      simp
    rw [hsome]
    constructor
    · intro h
      dsimp only at h
      split at h
      · cases h
      rename_i hmonth
      split at h
      · cases h
      rename_i hday
      split at h
      · cases h
      rename_i hhour
      split at h
      · cases h
      rename_i hminute
      split at h
      · cases h
      rename_i hsecond
      split at h
      · cases h
      rename_i hparsed
      rw [not_or, not_lt, not_lt] at hmonth hday
      have hle := le_trans hday.2 (getUTCDate_le hmonth.1 hmonth.2)
      have hoffset : t.offsetInRange = true := by
        rw [Bool.not_eq_false] at hparsed
        exact (of_decide_eq_true hparsed).2.2.2.2.2
      exact ⟨⟨hmonth.1, hmonth.2, hday.1, hle, not_lt.mp hhour, not_lt.mp hminute, not_lt.mp hsecond, hoffset⟩,
        (day_le_iff hmonth.1 hmonth.2 hle).mp hday.2⟩
    · rintro ⟨hreal, hday⟩
      have hle := (day_le_iff hreal.month_pos hreal.month_le hreal.day_le).mpr hday
      have hlong := le_trans hreal.day_le (monthLength_le _ _)
      have hparsed : t.isParsed = true :=
        decide_eq_true ⟨hreal.month_pos, hreal.month_le, hreal.day_pos, by omega,
          .inl ⟨hreal.hour_le, hreal.minute_le, hreal.second_le⟩, hreal.offset⟩
      have hmonth := hreal.month_pos
      have hmonth' := hreal.month_le
      have hpos := hreal.day_pos
      have hhour := hreal.hour_le
      have hminute := hreal.minute_le
      have hsecond := hreal.second_le
      dsimp only
      rw [if_neg (by omega), if_neg (by omega), if_neg (by omega), if_neg (by omega), if_neg (by omega),
        if_neg (by simp [hparsed])]

/-! ## The text of a time -/

/-- The milliseconds that a `Date` can hold. -/
structure TimeValue where
  ms : ℤ
  le : -8640000000000000 ≤ ms ∧ ms ≤ 8640000000000000

/-- A number with at least so many digits. -/
def padded (width n : ℕ) : Text := (Nat.toDigits 10 n).leftpad width '0'

/-- A year of four digits, or with a sign and six. -/
def isoYear (year : ℤ) : Text :=
  if 0 ≤ year ∧ year ≤ 9999 then padded 4 year.natAbs
  else (if year < 0 then '-' else '+') :: padded 6 year.natAbs

def toISOString (time : TimeValue) : JsString :=
  let day := time.ms / msPerDay
  let ms := (time.ms % msPerDay).natAbs
  .ofText (isoYear (yearFromDay day) ++ '-' :: padded 2 (monthFromDay day + 1) ++ '-' :: padded 2 (dateFromDay day).natAbs ++
    'T' :: padded 2 (ms / 3600000) ++ ':' :: padded 2 (ms / 60000 % 60) ++ ':' :: padded 2 (ms / 1000 % 60) ++
    '.' :: padded 3 (ms % 1000) ++ ['Z'])

example : toISOString ⟨951782400000, by decide⟩ = .ofText "2000-02-29T00:00:00.000Z".toList := by decide

theorem length_padded_le {width k n : ℕ} (h : n < 10 ^ k) (hk : 1 ≤ k) : (padded width n).length ≤ max width k := by
  rw [padded, length_leftpad]
  exact max_le_max (le_refl _) ((Nat.length_toDigits_le_iff (by decide) hk).mpr h)

theorem length_isoYear_le {year : ℤ} (h : year.natAbs < 10 ^ 6) : (isoYear year).length ≤ 7 := by
  rw [isoYear]
  split
  · rename_i hfour
    exact le_trans (length_padded_le (show year.natAbs < 10 ^ 4 by omega) (by decide)) (by decide)
  · exact Nat.succ_le_succ (length_padded_le h (by decide))

/-- The years of the times that there are. -/
theorem year_lt (time : TimeValue) : (yearFromDay (time.ms / msPerDay)).natAbs < 10 ^ 6 := by
  obtain ⟨hle, hlt⟩ := yearFromDay_spec (time.ms / msPerDay)
  have hms := time.le
  rw [dayFromYear, msPerDay] at hle hlt
  rw [msPerDay]
  omega

theorem length_ofText_le (t : Text) : (JsString.ofText t).length ≤ 2 * t.length := by
  induction t with
  | nil => exact Nat.zero_le _
  | cons c t ih =>
    have hchar : (utf16 c).length ≤ 2 := by
      rw [utf16]
      split <;> simp
    rw [JsString.ofText, length_map] at ih ⊢
    rw [JsonText.length_units_cons, length_cons]
    omega

/-- The text of a time is short. -/
theorem length_toISOString_le (time : TimeValue) : (toISOString time).length ≤ 64 := by
  have hyear := length_isoYear_le (year_lt time)
  obtain ⟨hmonth, hday, hday', -⟩ := day_of_dates (time.ms / msPerDay)
  have hshort := monthLength_le (isLeap (yearFromDay (time.ms / msPerDay))) (monthFromDay (time.ms / msPerDay))
  have htime : (time.ms % msPerDay).natAbs < 86400000 := by
    rw [msPerDay]
    omega
  have htwo {n : ℕ} (h : n < 100) : (padded 2 n).length ≤ 2 := length_padded_le (k := 2) h (by decide)
  have hmonthText := htwo (show monthFromDay (time.ms / msPerDay) + 1 < 100 by omega)
  have hdayText := htwo (show (dateFromDay (time.ms / msPerDay)).natAbs < 100 by omega)
  have hhour := htwo (show (time.ms % msPerDay).natAbs / 3600000 < 100 by omega)
  have hminute := htwo (show (time.ms % msPerDay).natAbs / 60000 % 60 < 100 by omega)
  have hsecond := htwo (show (time.ms % msPerDay).natAbs / 1000 % 60 < 100 by omega)
  have hms : (padded 3 ((time.ms % msPerDay).natAbs % 1000)).length ≤ 3 :=
    length_padded_le (k := 3) (by omega) (by decide)
  refine le_trans (length_ofText_le _) ?_
  simp only [length_append, length_cons, length_nil]
  omega

end Ariad.Storage
