/-
The ISO calendar of Temporal (`render-js/src/runtime/builtins/temporal/iso.rs`).

`epoch_days` counts days from 1 January 1970 and `date_from_epoch_days` finds the date of a day; both let the year begin with
March and go by eras of 400 years. They are inverse to each other and keep the order (`days_and_dates`), and `iso_week` numbers
the weeks by their Thursdays.

Machine integers are integers: no sum of the fields of dates leaves 64 bits. Where the source narrows a number (`as i32`,
`as u8`), the narrowing is written out.
-/
import Mathlib.Tactic
import Render.Core.Calendar

namespace Render.Temporal

open Render.Core

/-! ## Dates -/

/-- `as i32` -/
def asI32 (n : ℤ) : ℤ := Int.bmod n (2 ^ 32)

/-- `as u8` -/
def asU8 (n : ℤ) : ℤ := n % 256

@[ext] structure IsoDate where
  year : ℤ
  month : ℤ
  day : ℤ
deriving DecidableEq, Repr

def isLeapYear (year : ℤ) : Bool := (year.tmod 4 = 0 && year.tmod 100 ≠ 0) || year.tmod 400 = 0

def daysInMonth (year month : ℤ) : ℤ :=
  if month ∈ [1, 3, 5, 7, 8, 10, 12] then 31
  else if month ∈ [4, 6, 9, 11] then 30
  else if isLeapYear year then 29
  else 28

def epochDays (date : IsoDate) : ℤ :=
  let year := date.year - if date.month ≤ 2 then 1 else 0
  let era := year / 400
  let yearOfEra := year - era * 400
  let shiftedMonth := (date.month + 9) % 12
  let dayOfYear := (153 * shiftedMonth + 2) / 5 + date.day - 1
  let dayOfEra := yearOfEra * 365 + yearOfEra / 4 - yearOfEra / 100 + dayOfYear
  era * 146097 + dayOfEra - 719468

def yearOfEra (dayOfEra : ℤ) : ℤ := (dayOfEra - dayOfEra / 1460 + dayOfEra / 36524 - dayOfEra / 146096) / 365

def dateFromEpochDays (days : ℤ) : IsoDate :=
  let shifted := days + 719468
  let era := shifted / 146097
  let dayOfEra := shifted - era * 146097
  let yearOfEra := yearOfEra dayOfEra
  let dayOfYear := dayOfEra - (365 * yearOfEra + yearOfEra / 4 - yearOfEra / 100)
  let shiftedMonth := (5 * dayOfYear + 2) / 153
  let day := dayOfYear - (153 * shiftedMonth + 2) / 5 + 1
  let month := if shiftedMonth < 10 then shiftedMonth + 3 else shiftedMonth - 9
  let year := yearOfEra + era * 400 + if month ≤ 2 then 1 else 0
  ⟨asI32 year, asU8 month, asU8 day⟩

def addDays (date : IsoDate) (days : ℤ) : IsoDate := dateFromEpochDays (epochDays date + days)

/-- Monday is 1 and Sunday is 7 -/
def dayOfWeek (date : IsoDate) : ℤ := asU8 ((epochDays date + 3) % 7 + 1)

def isoWeek (date : IsoDate) : ℤ × ℤ :=
  let thursday := dateFromEpochDays (epochDays date - dayOfWeek date + 4)
  let week := (epochDays thursday - epochDays ⟨thursday.year, 1, 1⟩).tdiv 7 + 1
  (thursday.year, asU8 week)

def isValidDate (year month day : ℤ) : Bool := 1 ≤ month && month ≤ 12 && 1 ≤ day && day ≤ daysInMonth year (asU8 month)

def clamp (n low high : ℤ) : ℤ := if n < low then low else if high < n then high else n

def regulateDate (year month day : ℤ) (constrain : Bool) : Option IsoDate :=
  if constrain then
    let month := clamp month 1 12
    some ⟨year, asU8 month, asU8 (clamp day 1 (daysInMonth year (asU8 month)))⟩
  else if isValidDate year month day then some ⟨year, asU8 month, asU8 day⟩
  else none

/-- the range of `PlainDate` -/
def dateWithinLimits (date : IsoDate) : Bool := -100000001 ≤ epochDays date && epochDays date ≤ 100000000

namespace IsoDate

/-- the order of the fields -/
def Before (date later : IsoDate) : Prop :=
  date.year < later.year ∨ date.year = later.year ∧
    (date.month < later.month ∨ date.month = later.month ∧ date.day < later.day)

instance (date later : IsoDate) : Decidable (date.Before later) := inferInstanceAs (Decidable (_ ∨ _))

/-- a day of the calendar whose year fits into the field -/
structure Exists (date : IsoDate) : Prop where
  valid : isValidDate date.year date.month date.day = true
  first : -2 ^ 31 ≤ date.year
  last : date.year < 2 ^ 31

/-- the day behind it -/
def next (date : IsoDate) : IsoDate :=
  if date.day < daysInMonth date.year date.month then ⟨date.year, date.month, date.day + 1⟩
  else if date.month < 12 then ⟨date.year, date.month + 1, 1⟩
  else ⟨date.year + 1, 1, 1⟩

end IsoDate

/-! ## Dates of the calendar -/

theorem isLeapYear_iff {year : ℤ} : isLeapYear year = true ↔ IsLeap year := by
  simp [isLeapYear, IsLeap, ← Int.dvd_iff_tmod_eq_zero]
  omega

theorem daysInMonth_eq {year month : ℤ} (h : 1 ≤ month) (h' : month ≤ 12) :
    daysInMonth year month = monthLength year month := by
  unfold daysInMonth monthLength
  simp only [isLeapYear_iff]
  interval_cases month <;> simp

theorem asU8_of_lt {n : ℤ} (h : 0 ≤ n) (h' : n < 256) : asU8 n = n := Int.emod_eq_of_lt h h'

theorem asI32_of_lt {n : ℤ} (h : -2 ^ 31 ≤ n) (h' : n < 2 ^ 31) : asI32 n = n := by
  refine Int.bmod_eq_of_le ?_ ?_ <;> norm_num <;> omega

theorem isValidDate_iff {year month day : ℤ} :
    isValidDate year month day = true ↔ (1 ≤ month ∧ month ≤ 12) ∧ 1 ≤ day ∧ day ≤ monthLength year month := by
  simp only [isValidDate, Bool.and_eq_true, decide_eq_true_eq, and_assoc]
  refine and_congr_right fun h => and_congr_right fun h' => and_congr_right fun _ => ?_
  rw [asU8_of_lt (by omega) (by omega), daysInMonth_eq h h']

namespace IsoDate

variable {date later : IsoDate}

/-- the date of the calendar with these fields -/
def toDate (date : IsoDate) (h : isValidDate date.year date.month date.day = true) : Date :=
  ⟨date.year, date.month, date.day, (isValidDate_iff.1 h).1, (isValidDate_iff.1 h).2⟩

/-- the fields of a date of the calendar -/
def ofDate (date : Date) : IsoDate := ⟨date.year, date.month, date.day⟩

theorem isValidDate_ofDate (date : Date) : isValidDate (ofDate date).year (ofDate date).month (ofDate date).day = true :=
  isValidDate_iff.2 ⟨date.month_range, date.day_range⟩

end IsoDate

theorem epochDays_eq (date : IsoDate) : epochDays date = civilDays date.year date.month date.day := by
  have hyear : (date.year - if date.month ≤ 2 then 1 else 0) = if date.month ≤ 2 then date.year - 1 else date.year := by
    split_ifs <;> ring
  unfold epochDays civilDays daysBeforeMarch daysBeforeMonth
  rw [hyear]
  generalize (if date.month ≤ 2 then date.year - 1 else date.year) = shifted
  dsimp only
  omega

/-! ## The date of a day -/

/--
The year of an era is found: c centuries, q fours of years and r years are over, and `day` days of the year. The last day of
a year is there in a leap year only.
-/
theorem yearOfEra_eq {c q r day : ℤ} (hc : 0 ≤ c) (hc' : c ≤ 3) (hq : 0 ≤ q) (hq' : q ≤ 24) (hr : 0 ≤ r) (hr' : r ≤ 3)
    (hday : 0 ≤ day) (hday' : day ≤ 365) (hleap : day = 365 → r = 3 ∧ (q < 24 ∨ c = 3)) :
    yearOfEra (36524 * c + 1461 * q + 365 * r + day) = 100 * c + 4 * q + r := by
  obtain ⟨n, hn⟩ : ∃ n, n = 36524 * c + 1461 * q + 365 * r + day := ⟨_, rfl⟩
  have hcentury : n / 36524 - n / 146096 = c := by
    by_cases hlast : n = 146096
    · rw [hlast]
      omega
    · have hcenturies : n / 36524 = c := by omega
      have hera : n / 146096 = 0 := by omega
      rw [hcenturies, hera, sub_zero]
  have hfour : n / 1460 = 25 * c + q + if 24 * c + q + 365 * r + day < 1460 then 0 else 1 := by
    split_ifs <;> omega
  have hsum : n - n / 1460 + n / 36524 - n / 146096 =
      365 * (100 * c + 4 * q + r) + (day - if 24 * c + q + 365 * r + day < 1460 then 0 else 1) := by
    rw [add_sub_assoc, hcentury, hfour, hn]
    ring
  rw [← hn, yearOfEra, hsum]
  split_ifs <;> omega

/-- the day in a year that begins with March, the first being 0; the last one is there in a leap year only -/
theorem dayOfYear_range (date : Date) : 0 ≤ daysBeforeMonth date.month + date.day - 1 ∧
    daysBeforeMonth date.month + date.day - 1 ≤ 365 ∧
    (daysBeforeMonth date.month + date.day - 1 = 365 → date.month = 2 ∧ IsLeap date.year) := by
  obtain ⟨year, month, day, ⟨hmonth, hmonth'⟩, hday⟩ := date
  dsimp only at hday ⊢
  unfold daysBeforeMonth
  by_cases hleap : IsLeap year <;> interval_cases month <;> norm_num [monthLength, hleap] at hday ⊢ <;> omega

/-- the month is found from the day in the year -/
theorem shiftedMonth_eq (date : Date) :
    (5 * (daysBeforeMonth date.month + date.day - 1) + 2) / 153 = (date.month + 9) % 12 := by
  have hlength := monthLength_le date.year date.month
  obtain ⟨year, month, day, ⟨hmonth, hmonth'⟩, hday⟩ := date
  dsimp only at hday hlength ⊢
  unfold daysBeforeMonth
  by_cases hleap : IsLeap year <;> interval_cases month <;> norm_num [monthLength, hleap] at hday ⊢ <;> omega

/-- a day of an era, by the year of the era and the day of the year -/
theorem yearOfEra_date {year day : ℤ} (hday : 0 ≤ day) (hday' : day ≤ 365) (hleap : day = 365 → IsLeap (year + 1)) :
    yearOfEra (365 * (year % 400) + year % 400 / 4 - year % 400 / 100 + day) = year % 400 := by
  have hsplit : 365 * (year % 400) + year % 400 / 4 - year % 400 / 100 + day =
      36524 * (year % 400 / 100) + 1461 * (year % 100 / 4) + 365 * (year % 4) + day := by omega
  have hyear : year % 400 = 100 * (year % 400 / 100) + 4 * (year % 100 / 4) + year % 4 := by omega
  rw [hsplit, yearOfEra_eq (by omega) (by omega) (by omega) (by omega) (by omega) (by omega) hday hday']
  · exact hyear.symm
  · intro hlast
    obtain ⟨hfour, hcentury⟩ := hleap hlast
    omega

/-- **The date of the number of a date.** -/
theorem dateFromEpochDays_civilDays (date : Date) :
    dateFromEpochDays (civilDays date.year date.month date.day) = ⟨asI32 date.year, date.month, date.day⟩ := by
  have hrange := dayOfYear_range date
  have hmonth := shiftedMonth_eq date
  obtain ⟨shifted, hshifted⟩ : ∃ shifted, shifted = if date.month ≤ 2 then date.year - 1 else date.year := ⟨_, rfl⟩
  obtain ⟨day, hday⟩ : ∃ day, day = daysBeforeMonth date.month + date.day - 1 := ⟨_, rfl⟩
  rw [← hday] at hrange hmonth
  have hleap : day = 365 → IsLeap (shifted + 1) := by
    intro hlast
    obtain ⟨hfebruary, hleap⟩ := hrange.2.2 hlast
    rw [hshifted, if_pos (by omega), sub_add_cancel]
    exact hleap
  have hdays : civilDays date.year date.month date.day + 719468 =
      365 * (shifted % 400) + shifted % 400 / 4 - shifted % 400 / 100 + day + 146097 * (shifted / 400) := by
    unfold civilDays daysBeforeMarch
    rw [← hshifted]
    omega
  have hera : (civilDays date.year date.month date.day + 719468) / 146097 = shifted / 400 := by
    rw [hdays, Int.add_mul_ediv_left _ _ (by norm_num), Int.ediv_eq_zero_of_lt (by omega), zero_add]
    have hlast := hleap
    unfold IsLeap at hlast
    omega
  have hdayOfEra : civilDays date.year date.month date.day + 719468 - shifted / 400 * 146097 =
      365 * (shifted % 400) + shifted % 400 / 4 - shifted % 400 / 100 + day := by
    rw [hdays]
    ring
  have hdayOfYear : 365 * (shifted % 400) + shifted % 400 / 4 - shifted % 400 / 100 + day -
      (365 * (shifted % 400) + shifted % 400 / 4 - shifted % 400 / 100) = day := by ring
  unfold dateFromEpochDays
  dsimp only
  rw [hera, hdayOfEra, yearOfEra_date hrange.1 hrange.2.1 hleap, hdayOfYear, hmonth]
  have hfound : (if (date.month + 9) % 12 < 10 then (date.month + 9) % 12 + 3 else (date.month + 9) % 12 - 9) = date.month := by
    have hrange := date.month_range
    split_ifs <;> omega
  have hdayFound : day - (153 * ((date.month + 9) % 12) + 2) / 5 + 1 = date.day := by
    rw [hday]
    unfold daysBeforeMonth
    ring
  have hyear : shifted % 400 + shifted / 400 * 400 + (if date.month ≤ 2 then 1 else 0) = date.year := by
    rw [hshifted]
    split_ifs <;> omega
  have hdayRange := date.day_range
  have hlength := monthLength_le date.year date.month
  have hmonthRange := date.month_range
  rw [hfound, hdayFound, hyear, asU8_of_lt (by omega) (by omega), asU8_of_lt (by omega) (by omega)]

/-- the date of a day -/
theorem dateFromEpochDays_eq (days : ℤ) :
    dateFromEpochDays days = ⟨asI32 (dateOf days).year, (dateOf days).month, (dateOf days).day⟩ := by
  have hcount := civilDays_countsDays.dateOf days
  rw [← dateFromEpochDays_civilDays, hcount]

/-! ## Days and dates -/

/-- the first day whose year fits into the field -/
def firstDay : ℤ := epochDays ⟨-2 ^ 31, 1, 1⟩

/-- the last day whose year fits into the field -/
def lastDay : ℤ := epochDays ⟨2 ^ 31 - 1, 12, 31⟩

theorem lastDay_succ : civilDays (2 ^ 31) 1 1 = lastDay + 1 := by
  have hend := civilDays_year (2 ^ 31 - 1)
  have hday := civilDays_day (2 ^ 31 - 1) 12 31
  rw [lastDay, epochDays_eq]
  norm_num [monthLength] at hend hday ⊢
  omega

section Days

variable {date later : IsoDate}

theorem dateFromEpochDays_epochDays (h : date.Exists) : dateFromEpochDays (epochDays date) = date := by
  have hfound := dateFromEpochDays_civilDays (date.toDate h.valid)
  rw [epochDays_eq]
  refine hfound.trans ?_
  ext <;> simp [IsoDate.toDate, asI32_of_lt h.first h.last]

theorem before_toDate (h : date.Exists) (h' : later.Exists) :
    date.Before later ↔ (date.toDate h.valid).Before (later.toDate h'.valid) := Iff.rfl

/-- **The order is kept.** -/
theorem epochDays_lt_iff (h : date.Exists) (h' : later.Exists) : epochDays date < epochDays later ↔ date.Before later := by
  rw [epochDays_eq, epochDays_eq, before_toDate h h']
  exact civilDays_lt_iff (date.toDate h.valid) (later.toDate h'.valid)

/-- a year fits into the field if its days are between the first and the last one -/
theorem year_fits {days : ℤ} (h : firstDay ≤ days) (h' : days ≤ lastDay) :
    -2 ^ 31 ≤ (dateOf days).year ∧ (dateOf days).year < 2 ^ 31 := by
  have hcount := civilDays_countsDays.dateOf days
  have hwithin := civilDays_within (dateOf days)
  have hlast := lastDay_succ
  rw [firstDay, epochDays_eq] at h
  constructor
  · by_contra hyear
    have hnew := civilDays_newYear (show (dateOf days).year + 1 ≤ -2 ^ 31 by omega)
    dsimp only at h
    omega
  · by_contra hyear
    have hnew := civilDays_newYear (show 2 ^ 31 ≤ (dateOf days).year by omega)
    omega

theorem exists_dateFromEpochDays {days : ℤ} (h : firstDay ≤ days) (h' : days ≤ lastDay) :
    (dateFromEpochDays days).Exists := by
  obtain ⟨hfirst, hlast⟩ := year_fits h h'
  rw [dateFromEpochDays_eq, asI32_of_lt hfirst hlast]
  exact ⟨IsoDate.isValidDate_ofDate (dateOf days), hfirst, hlast⟩

theorem epochDays_dateFromEpochDays {days : ℤ} (h : firstDay ≤ days) (h' : days ≤ lastDay) :
    epochDays (dateFromEpochDays days) = days := by
  obtain ⟨hfirst, hlast⟩ := year_fits h h'
  rw [dateFromEpochDays_eq, asI32_of_lt hfirst hlast, epochDays_eq]
  exact civilDays_countsDays.dateOf days

theorem epochDays_range (h : date.Exists) : firstDay ≤ epochDays date ∧ epochDays date ≤ lastDay := by
  have hwithin := civilDays_within (date.toDate h.valid)
  have hfirst := civilDays_newYear h.first
  have hlast := civilDays_newYear (show date.year + 1 ≤ 2 ^ 31 from h.last)
  rw [lastDay_succ] at hlast
  rw [firstDay, epochDays_eq, epochDays_eq]
  dsimp only [IsoDate.toDate] at hwithin ⊢
  omega

theorem next_eq (h : isValidDate date.year date.month date.day = true) :
    date.next = IsoDate.ofDate (date.toDate h).tomorrow := by
  have hmonth := (isValidDate_iff.1 h).1
  unfold IsoDate.next Date.tomorrow
  rw [daysInMonth_eq hmonth.1 hmonth.2]
  by_cases hday : (date.toDate h).day < monthLength (date.toDate h).year (date.toDate h).month
  · rw [dif_pos hday]
    exact if_pos hday
  · rw [dif_neg hday]
    refine (if_neg hday).trans ?_
    by_cases hdecember : (date.toDate h).month < 12
    · rw [dif_pos hdecember]
      exact if_pos hdecember
    · rw [dif_neg hdecember]
      exact if_neg hdecember

/-- the next day has the next number -/
theorem epochDays_next (h : date.Exists) : epochDays date.next = epochDays date + 1 := by
  rw [next_eq h.valid, epochDays_eq, epochDays_eq]
  exact civilDays_countsDays.tomorrow (date.toDate h.valid)

end Days

/-! ## Weeks -/

/-- the number of the Thursday of the week of a date -/
def thursdayOf (date : IsoDate) : ℤ := epochDays date - dayOfWeek date + 4

theorem dayOfWeek_eq (date : IsoDate) : dayOfWeek date = (epochDays date + 3) % 7 + 1 :=
  asU8_of_lt (by omega) (by omega)

/-- a Thursday is the Thursday of its week -/
theorem thursdayOf_range (date : IsoDate) : (thursdayOf date + 3) % 7 = 3 ∧ epochDays date - 3 ≤ thursdayOf date ∧
    thursdayOf date ≤ epochDays date + 3 := by
  unfold thursdayOf
  rw [dayOfWeek_eq]
  omega

/-- the weeks from the first Thursday of the year of a Thursday on -/
theorem isoWeek_eq {date thursday : IsoDate} (h : thursday.Exists) (hthursday : epochDays thursday = thursdayOf date) :
    isoWeek date = (thursday.year, (thursdayOf date - civilDays thursday.year 1 1) / 7 + 1) := by
  have hwithin := (civilDays_year_iff (thursday.toDate h.valid) thursday.year).1 rfl
  have hlength := civilDays_nextYear thursday.year
  have hdays : epochDays thursday = civilDays thursday.year thursday.month thursday.day := epochDays_eq thursday
  have hfound : dateFromEpochDays (epochDays date - dayOfWeek date + 4) = thursday := by
    rw [← thursdayOf, ← hthursday, dateFromEpochDays_epochDays h]
  unfold isoWeek
  dsimp only [IsoDate.toDate] at hwithin ⊢
  rw [hfound, epochDays_eq ⟨thursday.year, 1, 1⟩, hthursday]
  have hrange : 0 ≤ thursdayOf date - civilDays thursday.year 1 1 ∧ thursdayOf date - civilDays thursday.year 1 1 < 366 := by
    rw [← hthursday, hdays]
    split_ifs at hlength <;> omega
  rw [Int.tdiv_eq_ediv_of_nonneg hrange.1, asU8_of_lt (by omega) (by omega)]

section Weeks

variable {date : IsoDate} (h : date.Exists) (hfirst : -2 ^ 31 < date.year) (hlast : date.year < 2 ^ 31 - 1)

include h hfirst hlast

/-- a date whose year is not at an end of the field has room around it -/
theorem room : firstDay + 10 ≤ epochDays date ∧ epochDays date + 10 ≤ lastDay := by
  have hwithin := (civilDays_year_iff (date.toDate h.valid) date.year).1 rfl
  have hlow := civilDays_newYear (show -2 ^ 31 + 1 ≤ date.year by omega)
  have hhigh := civilDays_newYear (show date.year + 1 ≤ 2 ^ 31 - 1 by omega)
  have hfirstYear := civilDays_nextYear (-2 ^ 31)
  have hlastYear := civilDays_nextYear (2 ^ 31 - 1)
  have hend := lastDay_succ
  rw [firstDay, epochDays_eq, epochDays_eq]
  norm_num [IsoDate.toDate] at hwithin hlow hhigh hfirstYear hlastYear hend ⊢
  split_ifs at hfirstYear hlastYear <;> omega

/-- the Thursday of the week of a date -/
theorem exists_thursday : ∃ thursday : IsoDate, thursday.Exists ∧ epochDays thursday = thursdayOf date := by
  have hroom := room h hfirst hlast
  have hrange := thursdayOf_range date
  exact ⟨dateFromEpochDays (thursdayOf date), exists_dateFromEpochDays (by omega) (by omega),
    epochDays_dateFromEpochDays (by omega) (by omega)⟩

end Weeks

/-- the first Thursday of a year is one of its first seven days -/
theorem firstThursday_iff {thursday : IsoDate} (h : thursday.Exists) :
    (epochDays thursday - civilDays thursday.year 1 1) / 7 + 1 = 1 ↔ thursday.month = 1 ∧ thursday.day ≤ 7 := by
  have hwithin := civilDays_within (thursday.toDate h.valid)
  obtain ⟨hmonth, hday⟩ := isValidDate_iff.1 h.valid
  rw [epochDays_eq]
  dsimp only [IsoDate.toDate] at hwithin
  by_cases hjanuary : thursday.month = 1
  · rw [hjanuary] at hwithin ⊢
    unfold civilDays
    simp only [true_and]
    omega
  · have hlater : civilDays thursday.year 1 31 < civilDays thursday.year thursday.month thursday.day :=
      (civilDays_lt_iff ⟨thursday.year, 1, 31, Date.first_month_range, by norm_num [monthLength]⟩
        (thursday.toDate h.valid)).2 (.inr ⟨rfl, .inl (by dsimp only [IsoDate.toDate]; omega)⟩)
    have hlength : civilDays thursday.year 1 31 = civilDays thursday.year 1 1 + 30 := by
      unfold civilDays
      ring
    simp only [hjanuary, false_and, iff_false]
    omega

/-- the weeks of a year follow each other, and behind the last one comes week 1 of the next year -/
theorem isoWeek_next {date later thursday next : IsoDate} (h : thursday.Exists) (h' : next.Exists)
    (hthursday : epochDays thursday = thursdayOf date) (hnext : epochDays next = thursdayOf later)
    (hlater : thursdayOf later = thursdayOf date + 7) : isoWeek later =
      if next.year = thursday.year then (thursday.year, (isoWeek date).2 + 1) else (thursday.year + 1, 1) := by
  have hwithin := (civilDays_year_iff (thursday.toDate h.valid) thursday.year).1 rfl
  have hwithin' := (civilDays_year_iff (next.toDate h'.valid) next.year).1 rfl
  have hlength := civilDays_nextYear thursday.year
  have hlength' := civilDays_nextYear (thursday.year + 1)
  have hdays := epochDays_eq thursday
  have hdays' := epochDays_eq next
  rw [isoWeek_eq h hthursday, isoWeek_eq h' hnext]
  dsimp only [IsoDate.toDate] at hwithin hwithin' ⊢
  split_ifs with hyear
  · rw [hyear, hlater]
    congr 1
    omega
  · have hnew : next.year = thursday.year + 1 := by
      refine (civilDays_year_iff (next.toDate h'.valid) (thursday.year + 1)).2 ?_
      dsimp only [IsoDate.toDate]
      have hnotYear := mt (civilDays_year_iff (next.toDate h'.valid) thursday.year).2 hyear
      dsimp only [IsoDate.toDate] at hnotYear
      split_ifs at hlength hlength' <;> omega
    rw [hnew, hlater]
    congr 1
    have hnotYear := mt (civilDays_year_iff (next.toDate h'.valid) thursday.year).2 hyear
    dsimp only [IsoDate.toDate] at hnotYear
    rw [hnew] at hwithin'
    omega

/-! ## The calendar -/

/--
**Days and dates.** The dates and their numbers are in one-to-one correspondence and in the same order, the next day has the
next number and the next weekday. The number of a week is by its Thursday: it is a number of the year of the Thursday, 1 if
the Thursday is one of the first seven days of the year, and the weeks of a year follow each other.
-/
theorem days_and_dates :
    (∀ date : IsoDate, date.Exists → firstDay ≤ epochDays date ∧ epochDays date ≤ lastDay ∧
      dateFromEpochDays (epochDays date) = date) ∧
    (∀ days, firstDay ≤ days → days ≤ lastDay →
      (dateFromEpochDays days).Exists ∧ epochDays (dateFromEpochDays days) = days) ∧
    (∀ date later : IsoDate, date.Exists → later.Exists → (epochDays date < epochDays later ↔ date.Before later)) ∧
    (∀ date : IsoDate, date.Exists → epochDays date.next = epochDays date + 1 ∧ 1 ≤ dayOfWeek date ∧
      dayOfWeek date ≤ 7 ∧ dayOfWeek date.next = dayOfWeek date % 7 + 1) ∧
    (∀ date : IsoDate, date.Exists → -2 ^ 31 < date.year → date.year < 2 ^ 31 - 1 →
      ∃ thursday : IsoDate, thursday.Exists ∧ dayOfWeek thursday = 4 ∧
        epochDays thursday = epochDays date - dayOfWeek date + 4 ∧ (isoWeek date).1 = thursday.year ∧
        ((isoWeek date).2 = 1 ↔ thursday.month = 1 ∧ thursday.day ≤ 7) ∧
        isoWeek (addDays date 7) = if (addDays thursday 7).year = thursday.year then (thursday.year, (isoWeek date).2 + 1)
          else (thursday.year + 1, 1)) ∧
    ∀ date other : IsoDate, epochDays date - dayOfWeek date = epochDays other - dayOfWeek other →
      isoWeek date = isoWeek other := by
  refine ⟨fun date h => ⟨(epochDays_range h).1, (epochDays_range h).2, dateFromEpochDays_epochDays h⟩,
    fun days h h' => ⟨exists_dateFromEpochDays h h', epochDays_dateFromEpochDays h h'⟩,
    fun date later h h' => epochDays_lt_iff h h', fun date h => ?_, fun date h hfirst hlast => ?_, fun date other h => ?_⟩
  · have hnext := epochDays_next h
    rw [dayOfWeek_eq, dayOfWeek_eq]
    omega
  · obtain ⟨thursday, hexists, hthursday⟩ := exists_thursday h hfirst hlast
    have hroom := room h hfirst hlast
    have hrange := thursdayOf_range date
    have hdays : epochDays (addDays date 7) = epochDays date + 7 := epochDays_dateFromEpochDays (by omega) (by omega)
    have hdays' : epochDays (addDays thursday 7) = epochDays thursday + 7 :=
      epochDays_dateFromEpochDays (by omega) (by omega)
    have hlater : thursdayOf (addDays date 7) = thursdayOf date + 7 := by
      unfold thursdayOf
      rw [dayOfWeek_eq, dayOfWeek_eq]
      omega
    have hweek := isoWeek_eq hexists hthursday
    refine ⟨thursday, hexists, ?_, hthursday, by rw [hweek], ?_,
      isoWeek_next hexists (exists_dateFromEpochDays (by omega) (by omega)) hthursday (by omega) hlater⟩
    · rw [dayOfWeek_eq]
      omega
    · rw [hweek, ← hthursday]
      exact firstThursday_iff hexists
  · unfold isoWeek
    rw [h]

end Render.Temporal
