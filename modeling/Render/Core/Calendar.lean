/-
The Gregorian calendar, carried on in both directions. Nothing here is about this repository.

A date exists when its month has that day (`Date`). `Date.tomorrow` and `Date.yesterday` are the rules that one learns: the
months have their lengths, and February has 29 days in a leap year. `dateOf n` is the date n days after 1 January 1970, found by
counting days one by one.

`CountsDays f`: the function f gives 0 to 1 January 1970 and one more to each next date. Such a function gives to each date the
number of days by which it is counted (`CountsDays.dateOf`). `civilDays` is one: it lets the year begin with March, so that the
leap day is the last of its year. A later date has the greater number (`civilDays_lt_iff`).
-/
import Mathlib.Tactic

namespace Render.Core

/-- a year with a 29 February -/
def IsLeap (year : ℤ) : Prop := year % 4 = 0 ∧ (year % 100 ≠ 0 ∨ year % 400 = 0)

instance (year : ℤ) : Decidable (IsLeap year) := inferInstanceAs (Decidable (_ ∧ _))

/-- the number of days of a month -/
def monthLength (year month : ℤ) : ℤ :=
  if month = 2 then if IsLeap year then 29 else 28
  else if month = 4 ∨ month = 6 ∨ month = 9 ∨ month = 11 then 30
  else 31

theorem monthLength_pos (year month : ℤ) : 28 ≤ monthLength year month := by
  unfold monthLength
  split_ifs <;> norm_num

theorem monthLength_le (year month : ℤ) : monthLength year month ≤ 31 := by
  unfold monthLength
  split_ifs <;> norm_num

/-- a date that exists -/
@[ext] structure Date where
  year : ℤ
  month : ℤ
  day : ℤ
  month_range : 1 ≤ month ∧ month ≤ 12
  day_range : 1 ≤ day ∧ day ≤ monthLength year month

namespace Date

variable {date : Date}

theorem first_month_range : (1 : ℤ) ≤ 1 ∧ (1 : ℤ) ≤ 12 := ⟨by norm_num, by norm_num⟩

theorem last_month_range : (1 : ℤ) ≤ 12 ∧ (12 : ℤ) ≤ 12 := ⟨by norm_num, by norm_num⟩

theorem first_day_range (year month : ℤ) : (1 : ℤ) ≤ 1 ∧ 1 ≤ monthLength year month :=
  ⟨le_rfl, (by norm_num : (1 : ℤ) ≤ 28).trans (monthLength_pos year month)⟩

theorem last_day_range (year month : ℤ) : 1 ≤ monthLength year month ∧ monthLength year month ≤ monthLength year month :=
  ⟨(first_day_range year month).2, le_rfl⟩

theorem next_day_range (h : date.day < monthLength date.year date.month) :
    1 ≤ date.day + 1 ∧ date.day + 1 ≤ monthLength date.year date.month := by
  have hday := date.day_range
  omega

theorem previous_day_range (h : 1 < date.day) : 1 ≤ date.day - 1 ∧ date.day - 1 ≤ monthLength date.year date.month := by
  have hday := date.day_range
  omega

theorem next_month_range (h : date.month < 12) : 1 ≤ date.month + 1 ∧ date.month + 1 ≤ 12 := by
  have hmonth := date.month_range
  omega

theorem previous_month_range (h : 1 < date.month) : 1 ≤ date.month - 1 ∧ date.month - 1 ≤ 12 := by
  have hmonth := date.month_range
  omega

/-- 1 January 1970 -/
def epoch : Date := ⟨1970, 1, 1, first_month_range, first_day_range 1970 1⟩

def tomorrow (date : Date) : Date :=
  if h : date.day < monthLength date.year date.month then
    ⟨date.year, date.month, date.day + 1, date.month_range, next_day_range h⟩
  else if hm : date.month < 12 then ⟨date.year, date.month + 1, 1, next_month_range hm, first_day_range _ _⟩
  else ⟨date.year + 1, 1, 1, first_month_range, first_day_range _ _⟩

def yesterday (date : Date) : Date :=
  if h : 1 < date.day then ⟨date.year, date.month, date.day - 1, date.month_range, previous_day_range h⟩
  else if hm : 1 < date.month then
    ⟨date.year, date.month - 1, monthLength date.year (date.month - 1), previous_month_range hm, last_day_range _ _⟩
  else ⟨date.year - 1, 12, monthLength (date.year - 1) 12, last_month_range, last_day_range _ _⟩

/-- yesterday is the day before tomorrow's day -/
theorem tomorrow_yesterday (date : Date) : date.yesterday.tomorrow = date := by
  have hmonth := date.month_range
  have hday := date.day_range
  unfold yesterday
  split_ifs with h hm
  · rw [tomorrow, dif_pos (by dsimp only; omega)]
    ext <;> dsimp only
    omega
  · rw [tomorrow, dif_neg (by dsimp only; omega), dif_pos (by dsimp only; omega)]
    ext <;> dsimp only <;> omega
  · rw [tomorrow, dif_neg (by dsimp only; omega), dif_neg (by dsimp only; omega)]
    ext <;> dsimp only <;> omega

end Date

/-- the date so many days after 1 January 1970 -/
def dateOf : ℤ → Date
  | .ofNat n => Date.tomorrow^[n] Date.epoch
  | .negSucc n => Date.yesterday^[n + 1] Date.epoch

/-- a function that counts days from 1 January 1970 -/
structure CountsDays (f : Date → ℤ) : Prop where
  epoch : f Date.epoch = 0
  tomorrow : ∀ date, f date.tomorrow = f date + 1

namespace CountsDays

variable {f : Date → ℤ} (h : CountsDays f)

include h

theorem yesterday (date : Date) : f date.yesterday = f date - 1 := by
  have hnext := h.tomorrow date.yesterday
  rw [Date.tomorrow_yesterday] at hnext
  omega

/-- **Counting from the first day.** -/
theorem dateOf (n : ℤ) : f (dateOf n) = n := by
  have hforth : ∀ n : ℕ, f (Date.tomorrow^[n] Date.epoch) = n := by
    intro n
    induction n with
    | zero => exact h.epoch
    | succ n ih =>
      rw [Function.iterate_succ_apply', h.tomorrow, ih]
      norm_num
  have hback : ∀ n : ℕ, f (Date.yesterday^[n] Date.epoch) = -n := by
    intro n
    induction n with
    | zero => exact h.epoch
    | succ n ih =>
      rw [Function.iterate_succ_apply', h.yesterday, ih]
      push_cast
      ring
  cases n with
  | ofNat n => exact hforth n
  | negSucc n => exact (hback (n + 1)).trans (Int.negSucc_eq n).symm

end CountsDays

/-! ## Years that begin with March -/

/-- the days before a year that begins with March, from the same day of the year 0 -/
def daysBeforeMarch (year : ℤ) : ℤ := year * 365 + year / 4 - year / 100 + year / 400

/-- the days before a month, from the 1 March before it -/
def daysBeforeMonth (month : ℤ) : ℤ := (153 * ((month + 9) % 12) + 2) / 5

/-- the number of a day, 1 January 1970 being 0 -/
def civilDays (year month day : ℤ) : ℤ :=
  daysBeforeMarch (if month ≤ 2 then year - 1 else year) + daysBeforeMonth month + day - 719469

theorem daysBeforeMarch_succ (year : ℤ) :
    daysBeforeMarch year = daysBeforeMarch (year - 1) + if IsLeap year then 366 else 365 := by
  unfold daysBeforeMarch IsLeap
  split_ifs with hleap <;> omega

theorem daysBeforeMarch_lt {year later : ℤ} (h : year < later) : daysBeforeMarch year + 365 ≤ daysBeforeMarch later := by
  unfold daysBeforeMarch
  omega

theorem civilDays_day (year month day : ℤ) : civilDays year month (day + 1) = civilDays year month day + 1 := by
  unfold civilDays
  ring

/-- the day behind the last one of a month is the first of the next month -/
theorem civilDays_month {year month : ℤ} (h : 1 ≤ month) (h' : month < 12) :
    civilDays year (month + 1) 1 = civilDays year month (monthLength year month + 1) := by
  have hnext := daysBeforeMarch_succ year
  unfold civilDays daysBeforeMonth
  by_cases hleap : IsLeap year
  · rw [if_pos hleap] at hnext
    interval_cases month <;> norm_num [monthLength, hleap] <;> omega
  · rw [if_neg hleap] at hnext
    interval_cases month <;> norm_num [monthLength, hleap] <;> omega

theorem civilDays_year (year : ℤ) : civilDays (year + 1) 1 1 = civilDays year 12 (monthLength year 12 + 1) := by
  norm_num [civilDays, daysBeforeMonth, monthLength]
  omega

/-- **`civilDays` counts days.** -/
theorem civilDays_countsDays : CountsDays fun date => civilDays date.year date.month date.day where
  epoch := by decide
  tomorrow date := by
    have hday := date.day_range
    have hmonth := date.month_range
    unfold Date.tomorrow
    split_ifs with h hm
    · exact civilDays_day _ _ _
    · have hlast : date.day = monthLength date.year date.month := by omega
      rw [civilDays_month hmonth.1 hm, civilDays_day, hlast]
    · have hlast : date.day = monthLength date.year date.month := by omega
      have hyear : date.month = 12 := by omega
      rw [civilDays_year, civilDays_day, hlast, hyear]

/-! ## The order of dates -/

namespace Date

/-- the earlier date: the year decides, then the month, then the day -/
def Before (date later : Date) : Prop :=
  date.year < later.year ∨ date.year = later.year ∧
    (date.month < later.month ∨ date.month = later.month ∧ date.day < later.day)

theorem before_or (date later : Date) : date.Before later ∨ date = later ∨ later.Before date := by
  unfold Before
  rw [Date.ext_iff]
  omega

end Date

/-- the days of a year lie between its 1 January and the next one -/
theorem civilDays_within (date : Date) : civilDays date.year 1 1 ≤ civilDays date.year date.month date.day ∧
    civilDays date.year date.month date.day < civilDays (date.year + 1) 1 1 := by
  have hnext := daysBeforeMarch_succ date.year
  obtain ⟨year, month, day, ⟨hmonth, hmonth'⟩, hday⟩ := date
  dsimp only at hnext hday ⊢
  unfold civilDays daysBeforeMonth
  by_cases hleap : IsLeap year
  · rw [if_pos hleap] at hnext
    interval_cases month <;> norm_num [monthLength, hleap] at hday ⊢ <;> omega
  · rw [if_neg hleap] at hnext
    interval_cases month <;> norm_num [monthLength, hleap] at hday ⊢ <;> omega

theorem civilDays_newYear {year later : ℤ} (h : year ≤ later) : civilDays year 1 1 ≤ civilDays later 1 1 := by
  obtain rfl | hlt := h.eq_or_lt
  · exact le_rfl
  · have hgrow := daysBeforeMarch_lt (show year - 1 < later - 1 by omega)
    norm_num [civilDays]
    omega

/-- the year of a date is found from its number -/
theorem civilDays_year_iff (date : Date) (year : ℤ) : date.year = year ↔
    civilDays year 1 1 ≤ civilDays date.year date.month date.day ∧
      civilDays date.year date.month date.day < civilDays (year + 1) 1 1 := by
  have hwithin := civilDays_within date
  refine ⟨fun h => h ▸ hwithin, fun h => ?_⟩
  by_contra hyear
  obtain hlt | hlt : date.year + 1 ≤ year ∨ year + 1 ≤ date.year := by omega
  · have hnew := civilDays_newYear hlt
    omega
  · have hnew := civilDays_newYear hlt
    omega

/-- a year has 365 days or one more -/
theorem civilDays_nextYear (year : ℤ) :
    civilDays (year + 1) 1 1 = civilDays year 1 1 + if IsLeap year then 366 else 365 := by
  have hnext := daysBeforeMarch_succ year
  norm_num [civilDays]
  omega

/-- in one year the days of an earlier month come first -/
theorem civilDays_lt_of_month {date later : Date} (hyear : date.year = later.year) (h : date.month < later.month) :
    civilDays date.year date.month date.day < civilDays later.year later.month later.day := by
  have hnext := daysBeforeMarch_succ date.year
  obtain ⟨year, month, day, ⟨hmonth, hmonth'⟩, hday⟩ := date
  obtain ⟨year', month', day', ⟨hlater, hlater'⟩, hday'⟩ := later
  dsimp only at hyear h hnext hday hday' ⊢
  subst hyear
  unfold civilDays daysBeforeMonth
  have hfirst : 1 ≤ day' := hday'.1
  by_cases hleap : IsLeap year
  · rw [if_pos hleap] at hnext
    interval_cases month <;> norm_num [monthLength, hleap] at hday ⊢ <;> split_ifs <;> omega
  · rw [if_neg hleap] at hnext
    interval_cases month <;> norm_num [monthLength, hleap] at hday ⊢ <;> split_ifs <;> omega

theorem civilDays_lt {date later : Date} (h : date.Before later) :
    civilDays date.year date.month date.day < civilDays later.year later.month later.day := by
  obtain hyear | ⟨hyear, hmonth | ⟨hmonth, hday⟩⟩ := h
  · calc civilDays date.year date.month date.day < civilDays (date.year + 1) 1 1 := (civilDays_within date).2
      _ ≤ civilDays later.year 1 1 := civilDays_newYear (by omega)
      _ ≤ civilDays later.year later.month later.day := (civilDays_within later).1
  · exact civilDays_lt_of_month hyear hmonth
  · rw [hyear, hmonth]
    unfold civilDays
    omega

/-- **The later date has the greater number.** -/
theorem civilDays_lt_iff (date later : Date) :
    civilDays date.year date.month date.day < civilDays later.year later.month later.day ↔ date.Before later := by
  refine ⟨fun h => ?_, civilDays_lt⟩
  obtain hbefore | rfl | hbefore := date.before_or later
  · exact hbefore
  · exact absurd h (lt_irrefl _)
  · exact absurd (h.trans (civilDays_lt hbefore)) (lt_irrefl _)

theorem civilDays_injective {date date' : Date}
    (h : civilDays date.year date.month date.day = civilDays date'.year date'.month date'.day) : date = date' := by
  obtain hbefore | hsame | hbefore := date.before_or date'
  · exact absurd h (civilDays_lt hbefore).ne
  · exact hsame
  · exact absurd h (civilDays_lt hbefore).ne'

/-! ## Months counted through -/

/-- the number of days of a month, the months being counted through from January of the year 0 -/
def monthDays (month : ℤ) : ℤ := monthLength (month / 12) (month % 12 + 1)

/-- the number of the first day of a month -/
def monthStart (month : ℤ) : ℤ := civilDays (month / 12) (month % 12 + 1) 1

theorem monthDays_range (month : ℤ) : 28 ≤ monthDays month ∧ monthDays month ≤ 31 :=
  ⟨monthLength_pos _ _, monthLength_le _ _⟩

/-- behind a month comes the next one -/
theorem monthStart_succ (month : ℤ) : monthStart (month + 1) = monthStart month + monthDays month := by
  unfold monthStart monthDays
  by_cases hdecember : month % 12 = 11
  · have hyear : (month + 1) / 12 = month / 12 + 1 := by omega
    have hjanuary : (month + 1) % 12 = 0 := by omega
    have hnext := civilDays_year (month / 12)
    rw [hyear, hjanuary, hdecember]
    norm_num at hnext ⊢
    rw [hnext]
    unfold civilDays
    ring
  · have hyear : (month + 1) / 12 = month / 12 := by omega
    have hmonth : (month + 1) % 12 = month % 12 + 1 := by omega
    rw [hyear, hmonth, civilDays_month (by omega) (by omega)]
    unfold civilDays
    ring

theorem monthStart_le {month later : ℤ} (h : month ≤ later) : monthStart month + 28 * (later - month) ≤ monthStart later := by
  induction later, h using Int.leInduction with
  | base => simp
  | succ later _ ih =>
    have hnext := monthStart_succ later
    have hlength := (monthDays_range later).1
    linarith

end Render.Core
