-- Instants in UTC and the proleptic Gregorian calendar: the day, year and month
-- of an instant, and the first instant of its hour, day and month.
import Mathlib

namespace Ecode.calendar

/-- An instant, in nanoseconds from 1970-01-01T00:00:00Z. -/
abbrev DateTime := Int

def SECOND : Int := 1000000000
def HOUR : Int := 3600 * SECOND
def DAY : Int := 24 * HOUR

/-! ## Days -/

/-- The days from 1970-01-01 to the instant's date. -/
def day_number (t : DateTime) : Int := t / DAY

/-- The days of the years before `year` of an era of 400 years that begins in March. -/
def days_before (year : Int) : Int := 365 * year + year / 4 - year / 100

/-- The days of the months before `month` of a year that begins in March. -/
def days_before_month (month : Int) : Int := (153 * month + 2) / 5

/-- A date, with January as month 1. -/
structure Date where
  year : Int
  month : Int
  day : Int
  deriving DecidableEq, Repr

/-- The number of the era a day is in. -/
def era_of (days : Int) : Int := (days + 719468) / 146097

/-- The day's place in its era. -/
def day_of_era (days : Int) : Int := (days + 719468) % 146097

/-- The year's place in its era: centuries of 36524 days, then four years of 1461 days, then
years of 365 days; the last of each has the leap day at its end. -/
def year_of_era (doe : Int) : Int :=
  let century := min 3 (doe / 36524)
  let doc := doe - 36524 * century
  let quad := doc / 1461
  100 * century + 4 * quad + min 3 ((doc - 1461 * quad) / 365)

/-- The year that began on the last first of March. -/
def march_year (days : Int) : Int := 400 * era_of days + year_of_era (day_of_era days)

/-- The days since the last first of March. -/
def day_of_year (days : Int) : Int := day_of_era days - days_before (year_of_era (day_of_era days))

/-- The month, with March as month 0. -/
def march_month (days : Int) : Int := (5 * day_of_year days + 2) / 153

/-- `Datelike::year`, `month` and `day` of a date. -/
def date_of (days : Int) : Date where
  year := if march_month days < 10 then march_year days else march_year days + 1
  month := if march_month days < 10 then march_month days + 3 else march_month days - 9
  day := day_of_year days - days_before_month (march_month days) + 1

/-- `NaiveDate::from_ymd_opt` of a date that exists, as its number of days. -/
def from_ymd (date : Date) : Int :=
  let year := if date.month ≤ 2 then date.year - 1 else date.year
  let month := if date.month ≤ 2 then date.month + 9 else date.month - 3
  146097 * (year / 400) + days_before (year % 400) + days_before_month month + date.day - 1 - 719468

theorem year_of_era_spec {doe : Int} (h : 0 ≤ doe) (h' : doe < 146097) :
    0 ≤ year_of_era doe ∧ year_of_era doe < 400 ∧ days_before (year_of_era doe) ≤ doe ∧
      doe ≤ days_before (year_of_era doe) + 365 := by
  unfold year_of_era days_before
  dsimp only
  generalize hc : min 3 (doe / 36524) = century
  generalize hd : doe - 36524 * century = doc
  have hcent : 0 ≤ century ∧ century ≤ 3 ∧ 0 ≤ doc ∧ doc ≤ 36524 := by omega
  generalize hq : doc / 1461 = quad
  generalize hy : min 3 ((doc - 1461 * quad) / 365) = year
  have hyear : 0 ≤ quad ∧ quad ≤ 24 ∧ 0 ≤ year ∧ year ≤ 3 ∧ 1461 * quad + 365 * year ≤ doc ∧
      doc ≤ 1461 * quad + 365 * year + 365 := by omega
  have hfour : (100 * century + 4 * quad + year) / 4 = 25 * century + quad := by omega
  have hhundred : (100 * century + 4 * quad + year) / 100 = century := by omega
  simp only [hfour, hhundred]
  omega

theorem day_of_era_bounds (days : Int) : 0 ≤ day_of_era days ∧ day_of_era days < 146097 := by
  unfold day_of_era
  omega

theorem day_of_year_bounds (days : Int) : 0 ≤ day_of_year days ∧ day_of_year days ≤ 365 := by
  obtain ⟨hlo, hhi⟩ := day_of_era_bounds days
  have hyear := year_of_era_spec hlo hhi
  unfold day_of_year
  omega

/-- The months and the days of a date are the ones of a calendar. -/
theorem date_of_bounds (days : Int) :
    1 ≤ (date_of days).month ∧ (date_of days).month ≤ 12 ∧ 1 ≤ (date_of days).day ∧
      (date_of days).day ≤ 31 := by
  have hrange := day_of_year_bounds days
  simp only [date_of, days_before_month, march_month]
  split_ifs <;> omega

theorem march_days (days : Int) :
    146097 * (march_year days / 400) + days_before (march_year days % 400) + day_of_year days =
      days + 719468 := by
  obtain ⟨hlo, hhi⟩ := day_of_era_bounds days
  obtain ⟨hyear, hyear', _⟩ := year_of_era_spec hlo hhi
  have hera : 146097 * era_of days + day_of_era days = days + 719468 := by
    unfold era_of day_of_era
    omega
  have hquot : march_year days / 400 = era_of days := by
    unfold march_year
    omega
  have hrem : march_year days % 400 = year_of_era (day_of_era days) := by
    unfold march_year
    omega
  rw [hquot, hrem]
  unfold day_of_year
  omega

/-- The date of a day is the date that the day is. -/
theorem from_ymd_date_of (days : Int) : from_ymd (date_of days) = days := by
  have hmarch := march_days days
  have hrange := day_of_year_bounds days
  have hmonth : 0 ≤ march_month days ∧ march_month days ≤ 11 := by
    unfold march_month
    omega
  unfold from_ymd date_of
  by_cases hten : march_month days < 10
  · have hlate : ¬ march_month days + 3 ≤ 2 := by omega
    simp only [hten, hlate, ↓reduceIte, add_sub_cancel_right]
    omega
  · have hearly : march_month days - 9 ≤ 2 := by omega
    simp only [hten, hearly, ↓reduceIte, add_sub_cancel_right, sub_add_cancel]
    omega

example : (date_of 19782).month = 2 ∧ (date_of 19782).day = 29 ∧ (date_of 19783).month = 3 := by
  decide

/-! ## Truncation -/

def truncate_to_hour (t : DateTime) : DateTime := t - t % HOUR

def truncate_to_day (t : DateTime) : DateTime := t - t % DAY

def truncate_to_month (t : DateTime) : DateTime :=
  DAY * from_ymd { date_of (day_number t) with day := 1 }

theorem hour_dvd_truncate_to_hour (t : DateTime) : HOUR ∣ truncate_to_hour t :=
  Int.dvd_self_sub_emod

theorem day_dvd_truncate_to_day (t : DateTime) : DAY ∣ truncate_to_day t :=
  Int.dvd_self_sub_emod

/-- The first instants of the months. -/
def MonthStart (t : DateTime) : Prop :=
  ∃ year month, 1 ≤ month ∧ month ≤ 12 ∧ t = DAY * from_ymd ⟨year, month, 1⟩

theorem truncate_to_month_start (t : DateTime) : MonthStart (truncate_to_month t) := by
  obtain ⟨hlo, hhi, _⟩ := date_of_bounds (day_number t)
  exact ⟨_, _, hlo, hhi, rfl⟩

/-- A month begins at most 31 days before any of its instants. -/
theorem truncate_to_month_le (t : DateTime) :
    truncate_to_month t ≤ t ∧ t < truncate_to_month t + 31 * DAY := by
  have hback := from_ymd_date_of (day_number t)
  obtain ⟨_, _, hlo, hhi⟩ := date_of_bounds (day_number t)
  have hfirst : from_ymd { date_of (day_number t) with day := 1 } =
      day_number t + 1 - (date_of (day_number t)).day := by
    unfold from_ymd at hback ⊢
    dsimp only at hback ⊢
    omega
  unfold truncate_to_month
  rw [hfirst]
  generalize (date_of (day_number t)).day = day at hlo hhi
  have hday : ∀ n : Int,
      DAY * (n / DAY + 1 - day) ≤ n ∧ n < DAY * (n / DAY + 1 - day) + 31 * DAY := by
    intro n
    unfold DAY HOUR SECOND
    omega
  exact hday t

end Ecode.calendar
