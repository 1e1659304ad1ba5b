/-
Moving a date and the difference of two dates (`add_iso_date` and `difference_iso_date` in `temporal/iso.rs`).

A date is a month, the months being counted through, and a day in it; years and months move the month and cut the day off at
its end. The difference does so twice, first for the years and then, from the day that is left, for the months. Adding does so
once. They part when the first cut took 29 February to 28 February, and where a date on the way is out of range and the source
goes on from the date it came from (`difference_adds_back`).
-/
import Render.Temporal.Iso

namespace Render.Temporal

open Render.Core

/-! ## The functions -/

/-- `Unit` -/
inductive TemporalUnit where
  | year
  | month
  | week
  | day
  | hour
  | minute
  | second
  | millisecond
  | microsecond
  | nanosecond
deriving DecidableEq, Repr

/-- a checked operation on 64 bits -/
def checkedI64 (n : ℤ) : Option ℤ := if -2 ^ 63 ≤ n ∧ n < 2 ^ 63 then some n else none

def addIsoDate (date : IsoDate) (years months weeks days : ℤ) (constrain : Bool) : Option IsoDate :=
  let monthIndex := date.month - 1 + months
  let year := date.year + years + monthIndex / 12
  if 1000000 < |year| then none
  else do
    let month := monthIndex % 12 + 1
    let regulated ← regulateDate (asI32 year) month date.day constrain
    let totalDays ← checkedI64 (weeks * 7) >>= fun weekDays => checkedI64 (weekDays + days)
    if 400000000 < |totalDays| then none
    else
      let result := addDays regulated totalDays
      if dateWithinLimits result then some result else none

/-- -1, 0 or 1 -/
def candidateOrder (candidate target : IsoDate) : ℤ :=
  if candidate.Before target then -1 else if candidate = target then 0 else 1

/-- the candidate is beyond the target -/
def overshoots (sign : ℤ) (candidate target : IsoDate) : Bool := 0 < sign * candidateOrder candidate target

/-- the years from one to two, and the date they lead to -/
def yearsTo (one two : IsoDate) (sign : ℤ) : ℤ × IsoDate :=
  let years := two.year - one.year
  let intermediate := (addIsoDate one years 0 0 0 true).getD one
  if overshoots sign intermediate two then (years - sign, (addIsoDate one (years - sign) 0 0 0 true).getD one)
  else (years, intermediate)

/-- the months from the intermediate date to two, and the date they lead to -/
def monthsTo (intermediate two : IsoDate) (sign : ℤ) : ℤ × IsoDate :=
  let months := (two.year - intermediate.year) * 12 + two.month - intermediate.month
  let landed := (addIsoDate intermediate 0 months 0 0 true).getD intermediate
  if overshoots sign landed two then
    (months - sign, (addIsoDate intermediate 0 (months - sign) 0 0 true).getD intermediate)
  else (months, landed)

/-- the years, months, weeks and days -/
def differenceIsoDate (one two : IsoDate) (largest : TemporalUnit) : ℤ × ℤ × ℤ × ℤ :=
  if one = two then (0, 0, 0, 0)
  else
    let sign := if one.Before two then 1 else -1
    match largest with
    | .year | .month =>
      let (years, intermediate) := if largest = .year then yearsTo one two sign else (0, one)
      let (months, landed) := monthsTo intermediate two sign
      (years, months, 0, epochDays two - epochDays landed)
    | .week =>
      let days := epochDays two - epochDays one
      let weeks := days.tdiv 7
      (0, 0, weeks, days - weeks * 7)
    | _ => (0, 0, 0, epochDays two - epochDays one)

/-! ## Dates by their months -/

namespace IsoDate

/-- the month of a date, the months being counted through -/
def monthIndex (date : IsoDate) : ℤ := 12 * date.year + (date.month - 1)

/-- the day of the month, or the last day of the month -/
def atMonth (month day : ℤ) : IsoDate := ⟨month / 12, month % 12 + 1, min day (monthDays month)⟩

/-- a date of the calendar in the range of `PlainDate` -/
structure InRange (date : IsoDate) : Prop where
  valid : isValidDate date.year date.month date.day = true
  limits : dateWithinLimits date = true

end IsoDate

section Months

variable {date : IsoDate} {month day : ℤ}

open IsoDate

theorem dateWithinLimits_iff : dateWithinLimits date = true ↔ -100000001 ≤ epochDays date ∧ epochDays date ≤ 100000000 := by
  simp [dateWithinLimits]

/-- the years of the dates in range -/
theorem IsoDate.InRange.year_range (h : date.InRange) : -999999 ≤ date.year ∧ date.year ≤ 999999 := by
  have hwithin := civilDays_within (date.toDate h.valid)
  have hlimits := dateWithinLimits_iff.1 h.limits
  have hlowest : civilDays (-999999) 1 1 < -100000001 := by decide
  have hhighest : 100000000 < civilDays 1000000 1 1 := by decide
  rw [epochDays_eq] at hlimits
  dsimp only [IsoDate.toDate] at hwithin
  constructor
  · by_contra hyear
    have hnew := civilDays_newYear (show date.year + 1 ≤ -999999 by omega)
    omega
  · by_contra hyear
    have hnew := civilDays_newYear (show 1000000 ≤ date.year by omega)
    omega

theorem IsoDate.InRange.exists (h : date.InRange) : date.Exists := by
  have hyear := h.year_range
  exact ⟨h.valid, by omega, by omega⟩

/-- a million years are less than 400 million days -/
theorem epochDays_year (h : isValidDate date.year date.month date.day = true) (hlow : -1000000 ≤ date.year)
    (hhigh : date.year ≤ 1000000) : -400000000 ≤ epochDays date ∧ epochDays date ≤ 400000000 := by
  have hwithin := civilDays_within (date.toDate h)
  have hlowest : -400000000 < civilDays (-1000000) 1 1 := by decide
  have hhighest : civilDays 1000001 1 1 < 400000000 := by decide
  have hnew := civilDays_newYear hlow
  have hnew' := civilDays_newYear (show date.year + 1 ≤ 1000001 by omega)
  rw [epochDays_eq]
  dsimp only [IsoDate.toDate] at hwithin
  omega

/-- the days of 800 million days around have years that fit into the field -/
theorem firstDay_le : firstDay ≤ -800000000 ∧ 800000000 ≤ lastDay := by decide

theorem isValidDate_atMonth (month : ℤ) (hday : 1 ≤ day) :
    isValidDate (atMonth month day).year (atMonth month day).month (atMonth month day).day = true := by
  have hlength := (monthDays_range month).1
  refine isValidDate_iff.2 ⟨⟨?_, ?_⟩, ?_, min_le_right _ _⟩
  · dsimp only [atMonth]
    omega
  · dsimp only [atMonth]
    omega
  · exact le_min hday (by omega)

theorem epochDays_atMonth : epochDays (atMonth month day) = monthStart month + min day (monthDays month) - 1 := by
  rw [epochDays_eq]
  unfold atMonth monthStart civilDays
  ring

@[simp] theorem monthIndex_atMonth : (atMonth month day).monthIndex = month := by
  unfold monthIndex atMonth
  dsimp only
  omega

/-- a date is a day of its month -/
theorem atMonth_monthIndex (h : isValidDate date.year date.month date.day = true) : atMonth date.monthIndex date.day = date := by
  obtain ⟨hmonth, hday⟩ := isValidDate_iff.1 h
  have hyear : date.monthIndex / 12 = date.year := by
    unfold monthIndex
    omega
  have hrest : date.monthIndex % 12 + 1 = date.month := by
    unfold monthIndex
    omega
  have hlength : monthDays date.monthIndex = monthLength date.year date.month := by rw [monthDays, hyear, hrest]
  ext
  · exact hyear
  · exact hrest
  · exact (min_eq_left (hlength ▸ hday.2) : min date.day (monthDays date.monthIndex) = date.day)

theorem day_range (h : isValidDate date.year date.month date.day = true) :
    1 ≤ date.day ∧ date.day ≤ monthDays date.monthIndex := by
  have hfields := congrArg IsoDate.day (atMonth_monthIndex h)
  exact ⟨(isValidDate_iff.1 h).2.1, min_eq_left_iff.1 hfields⟩

/-- years, months and the day regulated -/
theorem regulateDate_atMonth (hyear : -1000000 ≤ month / 12) (hyear' : month / 12 ≤ 1000000) (hday : 1 ≤ day)
    (hday' : day ≤ 31) : regulateDate (asI32 (month / 12)) (month % 12 + 1) day true = some (atMonth month day) := by
  have hlength := monthDays_range month
  have hclamp : clamp (month % 12 + 1) 1 12 = month % 12 + 1 := by
    unfold clamp
    rw [if_neg (by omega), if_neg (by omega)]
  have hday : clamp day 1 (monthDays month) = min day (monthDays month) := by
    unfold clamp
    rw [if_neg (by omega)]
    split_ifs with hlong
    · exact (min_eq_right hlong.le).symm
    · exact (min_eq_left (by omega)).symm
  unfold regulateDate
  rw [if_pos rfl, asI32_of_lt (by omega) (by omega), hclamp]
  dsimp only
  rw [asU8_of_lt (by omega) (by omega),
    daysInMonth_eq (by omega) (by omega), ← monthDays, hday, asU8_of_lt (by omega) (by omega)]
  rfl

/-! ## Adding -/

theorem checkedI64_eq {n : ℤ} (h : -10 ^ 18 ≤ n) (h' : n ≤ 10 ^ 18) : checkedI64 n = some n :=
  if_pos ⟨by omega, by omega⟩

variable {years months weeks days : ℤ}

/-- the month is moved, the day is regulated, and then the days are counted on -/
theorem addIsoDate_eq (h : isValidDate date.year date.month date.day = true) (hweeks : |weeks| ≤ 10 ^ 9)
    (hdays : |days| ≤ 10 ^ 9) : addIsoDate date years months weeks days true =
      if 1000000 < |(date.monthIndex + 12 * years + months) / 12| ∨ 400000000 < |weeks * 7 + days| then none
      else
        let result := dateFromEpochDays
          (epochDays (atMonth (date.monthIndex + 12 * years + months) date.day) + (weeks * 7 + days))
        if dateWithinLimits result then some result else none := by
  have hday := (isValidDate_iff.1 h).2
  have hlength := monthLength_le date.year date.month
  have hyear : date.year + years + (date.month - 1 + months) / 12 = (date.monthIndex + 12 * years + months) / 12 := by
    unfold monthIndex
    omega
  have hmonth : (date.month - 1 + months) % 12 = (date.monthIndex + 12 * years + months) % 12 := by
    unfold monthIndex
    omega
  have hweekBounds := abs_le.1 hweeks
  have hdayBounds := abs_le.1 hdays
  unfold addIsoDate
  dsimp only
  rw [hyear, hmonth]
  by_cases hfar : 1000000 < |(date.monthIndex + 12 * years + months) / 12|
  · rw [if_pos hfar, if_pos (.inl hfar)]
  · have hyearBounds := abs_le.1 (not_lt.1 hfar)
    rw [if_neg hfar, regulateDate_atMonth hyearBounds.1 hyearBounds.2 hday.1 (hday.2.trans hlength),
      checkedI64_eq (by omega) (by omega)]
    simp only [Option.bind_eq_bind, Option.bind_some]
    rw [checkedI64_eq (by omega) (by omega)]
    simp only [Option.bind_some, hfar, false_or]
    rfl

/-- adding years and months alone -/
theorem addIsoDate_months (h : isValidDate date.year date.month date.day = true) :
    addIsoDate date years months 0 0 true =
      if dateWithinLimits (atMonth (date.monthIndex + 12 * years + months) date.day) then
        some (atMonth (date.monthIndex + 12 * years + months) date.day)
      else none := by
  have hvalid := isValidDate_atMonth (date.monthIndex + 12 * years + months) (isValidDate_iff.1 h).2.1
  rw [addIsoDate_eq h (by norm_num) (by norm_num)]
  by_cases hfar : 1000000 < |(date.monthIndex + 12 * years + months) / 12|
  · rw [if_pos (.inl hfar), if_neg]
    intro hlimits
    have hyear := IsoDate.InRange.year_range ⟨hvalid, hlimits⟩
    refine absurd hfar (not_lt.2 (abs_le.2 ?_))
    dsimp only [atMonth] at hyear
    omega
  · have hyear := abs_le.1 (not_lt.1 hfar)
    have hexists : (atMonth (date.monthIndex + 12 * years + months) date.day).Exists :=
      ⟨hvalid, by dsimp only [atMonth]; omega, by dsimp only [atMonth]; omega⟩
    rw [if_neg (by simp [hfar])]
    norm_num [dateFromEpochDays_epochDays hexists]

/-- the target of an addition -/
theorem addIsoDate_eq_some {target : IsoDate} (h : isValidDate date.year date.month date.day = true)
    (hweeks : |weeks| ≤ 10 ^ 9) (hdays : |days| ≤ 10 ^ 9) (htarget : target.InRange) :
    addIsoDate date years months weeks days true = some target ↔
      |(date.monthIndex + 12 * years + months) / 12| ≤ 1000000 ∧ |weeks * 7 + days| ≤ 400000000 ∧
        epochDays (atMonth (date.monthIndex + 12 * years + months) date.day) + (weeks * 7 + days) = epochDays target := by
  have hvalid := isValidDate_atMonth (date.monthIndex + 12 * years + months) (isValidDate_iff.1 h).2.1
  have hfirst := firstDay_le
  rw [addIsoDate_eq h hweeks hdays]
  dsimp only
  constructor
  · intro hsome
    split_ifs at hsome with hfar hlimits
    obtain ⟨hyear, hmany⟩ := not_or.1 hfar
    have hbounds := abs_le.1 (not_lt.1 hyear)
    have hmanyBounds := abs_le.1 (not_lt.1 hmany)
    have hrange := epochDays_year hvalid hbounds.1 hbounds.2
    refine ⟨not_lt.1 hyear, not_lt.1 hmany, ?_⟩
    rw [← Option.some.inj hsome, epochDays_dateFromEpochDays (by omega) (by omega)]
  · rintro ⟨hyear, hmany, hsum⟩
    rw [if_neg (not_or.2 ⟨not_lt.2 hyear, not_lt.2 hmany⟩), hsum, dateFromEpochDays_epochDays htarget.exists,
      if_pos htarget.limits]

/-- where an addition leads to -/
theorem epochDays_of_addIsoDate {target : IsoDate} (h : isValidDate date.year date.month date.day = true)
    (hweeks : |weeks| ≤ 10 ^ 9) (hdays : |days| ≤ 10 ^ 9)
    (hsome : addIsoDate date years months weeks days true = some target) : target.Exists ∧ epochDays target =
      epochDays (atMonth (date.monthIndex + 12 * years + months) date.day) + (weeks * 7 + days) := by
  have hvalid := isValidDate_atMonth (date.monthIndex + 12 * years + months) (isValidDate_iff.1 h).2.1
  have hfirst := firstDay_le
  rw [addIsoDate_eq h hweeks hdays] at hsome
  dsimp only at hsome
  split_ifs at hsome with hfar hlimits
  obtain ⟨hyear, hmany⟩ := not_or.1 hfar
  have hbounds := abs_le.1 (not_lt.1 hyear)
  have hmanyBounds := abs_le.1 (not_lt.1 hmany)
  have hrange := epochDays_year hvalid hbounds.1 hbounds.2
  rw [← Option.some.inj hsome]
  exact ⟨exists_dateFromEpochDays (by omega) (by omega), epochDays_dateFromEpochDays (by omega) (by omega)⟩

/-! ## Months and days -/

theorem epochDays_injective {other : IsoDate} (h : isValidDate date.year date.month date.day = true)
    (h' : isValidDate other.year other.month other.day = true) (hsame : epochDays date = epochDays other) : date = other := by
  rw [epochDays_eq, epochDays_eq] at hsame
  have hdate : date.toDate h = other.toDate h' := civilDays_injective hsame
  exact congrArg ofDate hdate

/-- a day of an earlier month is earlier -/
theorem epochDays_atMonth_lt (day : ℤ) {later day' : ℤ} (h : month < later) (hday : 1 ≤ day') :
    epochDays (atMonth month day) < epochDays (atMonth later day') := by
  have hnext := monthStart_succ month
  have hstart := monthStart_le (show month + 1 ≤ later by omega)
  have hlength := monthDays_range later
  have hmin : min day (monthDays month) ≤ monthDays month := min_le_right _ _
  have hmin' : 1 ≤ min day' (monthDays later) := le_min hday (by omega)
  rw [epochDays_atMonth, epochDays_atMonth]
  omega

theorem epochDays_atMonth_le (month : ℤ) {day' : ℤ} (h : day ≤ day') : epochDays (atMonth month day) ≤ epochDays (atMonth month day') := by
  have hmin : min day (monthDays month) ≤ min day' (monthDays month) := min_le_min_right _ h
  rw [epochDays_atMonth, epochDays_atMonth]
  omega

/-- a day of the month of a date -/
theorem month_of_between {later : IsoDate} (h : isValidDate date.year date.month date.day = true)
    (h' : isValidDate later.year later.month later.day = true) (hle : epochDays date ≤ epochDays later) :
    date.monthIndex ≤ later.monthIndex := by
  by_contra hmonth
  have hlt := epochDays_atMonth_lt later.day (not_le.1 hmonth) (day_range h).1
  rw [atMonth_monthIndex h, atMonth_monthIndex h'] at hlt
  omega

end Months

/-! ## Counting towards a date -/

section Count

open IsoDate

variable {one two intermediate : IsoDate} {sign step count : ℤ}

theorem overshoots_iff {candidate : IsoDate} (h : candidate.Exists) (htwo : two.Exists) (hsign : sign = 1 ∨ sign = -1) :
    overshoots sign candidate two = true ↔ 0 < sign * (epochDays candidate - epochDays two) := by
  have hlt := epochDays_lt_iff h htwo
  have hsame : candidate = two ↔ epochDays candidate = epochDays two :=
    ⟨congrArg _, epochDays_injective h.valid htwo.valid⟩
  unfold overshoots candidateOrder
  simp only [decide_eq_true_eq, ← hlt, hsame]
  obtain rfl | rfl := hsign <;> split_ifs <;> omega

/-- the date so many steps of months away -/
def stepped (date : IsoDate) (step count : ℤ) : IsoDate := atMonth (date.monthIndex + step * count) date.day

/--
`Counted intermediate two sign step count r`: r is what the count towards two comes to. It starts with `count` steps, and
steps back once if it has gone too far. A date out of range is taken for the one it came from.
-/
inductive Counted (intermediate two : IsoDate) (sign step count : ℤ) : ℤ × IsoDate → Prop
  | outOfRange : dateWithinLimits (stepped intermediate step count) = false →
      Counted intermediate two sign step count (count, intermediate)
  | exact : dateWithinLimits (stepped intermediate step count) = true →
      sign * (epochDays (stepped intermediate step count) - epochDays two) ≤ 0 →
      Counted intermediate two sign step count (count, stepped intermediate step count)
  | back : dateWithinLimits (stepped intermediate step count) = true →
      0 < sign * (epochDays (stepped intermediate step count) - epochDays two) → 1 ≤ sign * count →
      dateWithinLimits (stepped intermediate step (count - sign)) = true →
      sign * (epochDays (stepped intermediate step (count - sign)) - epochDays two) ≤ 0 →
      Counted intermediate two sign step count (count - sign, stepped intermediate step (count - sign))

theorem stepped_zero (h : isValidDate one.year one.month one.day = true) : stepped one step 0 = one := by
  unfold stepped
  rw [mul_zero, add_zero, atMonth_monthIndex h]

theorem isValidDate_stepped (h : isValidDate one.year one.month one.day = true) :
    isValidDate (stepped one step count).year (stepped one step count).month (stepped one step count).day = true :=
  isValidDate_atMonth _ (isValidDate_iff.1 h).2.1

theorem stepped_behind (h : isValidDate one.year one.month one.day = true) (hsign : sign = 1 ∨ sign = -1) (hstep : 1 ≤ step)
    (hcount : 0 ≤ sign * count) : 0 ≤ sign * (epochDays (stepped one step count) - epochDays one) := by
  have hday := (day_range h).1
  have hstart := atMonth_monthIndex h
  obtain rfl | hsome := eq_or_ne count 0
  · rw [stepped_zero h, sub_self, mul_zero]
  · obtain rfl | rfl := hsign
    · have hmany : 1 * 1 ≤ step * count := mul_le_mul hstep (by omega) (by omega) (by omega)
      have hlt := epochDays_atMonth_lt one.day (show one.monthIndex < one.monthIndex + step * count by omega) hday
      rw [hstart] at hlt
      unfold stepped
      omega
    · have hmany : 1 * 1 ≤ step * -count := mul_le_mul hstep (by omega) (by omega) (by omega)
      rw [mul_neg] at hmany
      have hlt := epochDays_atMonth_lt one.day (show one.monthIndex + step * count < one.monthIndex by omega) hday
      rw [hstart] at hlt
      unfold stepped
      omega

/-- a date between two dates in range is in range -/
theorem limits_of_between {date : IsoDate} (hone : one.InRange) (htwo : two.InRange) (hsign : sign = 1 ∨ sign = -1)
    (hbehind : 0 ≤ sign * (epochDays date - epochDays one)) (hbefore : sign * (epochDays date - epochDays two) ≤ 0) :
    dateWithinLimits date = true := by
  have hlow := dateWithinLimits_iff.1 hone.limits
  have hhigh := dateWithinLimits_iff.1 htwo.limits
  refine dateWithinLimits_iff.2 ?_
  obtain rfl | rfl := hsign <;> omega

theorem counted (step count : ℤ) (hone : intermediate.InRange) (htwo : two.InRange) (hsign : sign = 1 ∨ sign = -1) (hstep : 1 ≤ step)
    (hbefore : sign * (epochDays intermediate - epochDays two) ≤ 0) (hcount : 0 ≤ sign * count)
    (hnear : 1 ≤ sign * (two.monthIndex - (intermediate.monthIndex + step * (count - sign)))) :
    Counted intermediate two sign step count
      (let candidate := (if dateWithinLimits (stepped intermediate step count) then some (stepped intermediate step count)
          else none).getD intermediate
        if overshoots sign candidate two then
          (count - sign, (if dateWithinLimits (stepped intermediate step (count - sign)) then
            some (stepped intermediate step (count - sign)) else none).getD intermediate)
        else (count, candidate)) := by
  dsimp only
  by_cases hlimits : dateWithinLimits (stepped intermediate step count) = true
  · have hcandidate : (stepped intermediate step count).InRange := ⟨isValidDate_stepped hone.valid, hlimits⟩
    rw [if_pos hlimits, Option.getD_some]
    by_cases hbeyond : overshoots sign (stepped intermediate step count) two = true
    · have hfar := (overshoots_iff hcandidate.exists htwo.exists hsign).1 hbeyond
      have hsome : 1 ≤ sign * count := by
        by_contra hzero
        have hnone : count = 0 := by obtain rfl | rfl := hsign <;> omega
        rw [hnone, stepped_zero hone.valid] at hfar
        omega
      -- one step less lies in a month before that of two, and behind the start
      have hless : sign * (epochDays (stepped intermediate step (count - sign)) - epochDays two) ≤ 0 := by
        have hday := day_range htwo.valid
        have hday' := day_range hone.valid
        rw [← atMonth_monthIndex htwo.valid, stepped]
        obtain rfl | rfl := hsign
        · have hlt := epochDays_atMonth_lt intermediate.day
            (show intermediate.monthIndex + step * (count - 1) < two.monthIndex by omega) hday.1
          omega
        · have hlt := epochDays_atMonth_lt two.day
            (show two.monthIndex < intermediate.monthIndex + step * (count - -1) by omega) hday'.1
          omega
      have hbehind : 0 ≤ sign * (epochDays (stepped intermediate step (count - sign)) - epochDays intermediate) :=
        stepped_behind hone.valid hsign hstep (by obtain rfl | rfl := hsign <;> omega)
      have hlimits' := limits_of_between hone htwo hsign hbehind hless
      rw [if_pos hbeyond, if_pos hlimits', Option.getD_some]
      exact .back hlimits hfar hsome hlimits' hless
    · have hnot := mt (overshoots_iff hcandidate.exists htwo.exists hsign).2 hbeyond
      rw [if_neg hbeyond]
      exact .exact hlimits (not_lt.1 hnot)
  · have hnot := mt (overshoots_iff hone.exists htwo.exists hsign).1 (not_lt.2 hbefore)
    rw [if_neg hlimits, Option.getD_none, if_neg hnot]
    exact .outOfRange (Bool.not_eq_true _ ▸ hlimits)

theorem addIsoDate_years (h : isValidDate one.year one.month one.day = true) :
    addIsoDate one count 0 0 0 true =
      if dateWithinLimits (stepped one 12 count) then some (stepped one 12 count) else none := by
  rw [addIsoDate_months h, add_zero, stepped]

theorem addIsoDate_onlyMonths (h : isValidDate one.year one.month one.day = true) :
    addIsoDate one 0 count 0 0 true =
      if dateWithinLimits (stepped one 1 count) then some (stepped one 1 count) else none := by
  rw [addIsoDate_months h, mul_zero, add_zero, stepped, one_mul]

/-- the months of two dates in their order -/
theorem months_in_order (hone : one.InRange) (htwo : two.InRange) (hsign : sign = 1 ∨ sign = -1)
    (hbefore : sign * (epochDays one - epochDays two) ≤ 0) : 0 ≤ sign * (two.monthIndex - one.monthIndex) := by
  obtain rfl | rfl := hsign
  · have hmonth := month_of_between hone.valid htwo.valid (by omega)
    omega
  · have hmonth := month_of_between htwo.valid hone.valid (by omega)
    omega

theorem yearsTo_counted (hone : one.InRange) (htwo : two.InRange) (hsign : sign = 1 ∨ sign = -1)
    (hbefore : sign * (epochDays one - epochDays two) ≤ 0) :
    Counted one two sign 12 (two.year - one.year) (yearsTo one two sign) := by
  have hmonths := months_in_order hone htwo hsign hbefore
  have hmonth := (isValidDate_iff.1 hone.valid).1
  have hmonth' := (isValidDate_iff.1 htwo.valid).1
  have hcounted := counted 12 (two.year - one.year) hone htwo hsign (by norm_num) hbefore
    (by unfold monthIndex at hmonths; obtain rfl | rfl := hsign <;> omega)
    (by unfold monthIndex; obtain rfl | rfl := hsign <;> omega)
  unfold yearsTo
  simp only [addIsoDate_years hone.valid]
  exact hcounted

theorem monthsTo_counted (hone : one.InRange) (htwo : two.InRange) (hsign : sign = 1 ∨ sign = -1)
    (hbefore : sign * (epochDays one - epochDays two) ≤ 0) :
    Counted one two sign 1 (two.monthIndex - one.monthIndex) (monthsTo one two sign) := by
  have hmonths := months_in_order hone htwo hsign hbefore
  have hcount : (two.year - one.year) * 12 + two.month - one.month = two.monthIndex - one.monthIndex := by
    unfold monthIndex
    ring
  have hcounted := counted 1 (two.monthIndex - one.monthIndex) hone htwo hsign le_rfl hbefore hmonths
    (by obtain rfl | rfl := hsign <;> omega)
  unfold monthsTo
  simp only [hcount, addIsoDate_onlyMonths hone.valid]
  exact hcounted

/-- the count leads to a date in range, not beyond two, and one step more leads beyond it -/
structure Reached (intermediate two : IsoDate) (sign step count : ℤ) (landed : IsoDate) : Prop where
  landed_eq : landed = stepped intermediate step count
  inRange : landed.InRange
  before : sign * (epochDays landed - epochDays two) ≤ 0
  signed : 0 ≤ sign * count
  last : 0 < sign * (epochDays (stepped intermediate step (count + sign)) - epochDays two)

theorem Counted.cases {r : ℤ × IsoDate} (h : Counted intermediate two sign step count r) (hone : intermediate.InRange)
    (htwo : two.InRange) (hsign : sign = 1 ∨ sign = -1) (hcount : 0 ≤ sign * count)
    (hfar : 1 ≤ sign * (intermediate.monthIndex + step * (count + sign) - two.monthIndex)) :
    dateWithinLimits (stepped intermediate step count) = false ∧ r = (count, intermediate) ∨
      dateWithinLimits (stepped intermediate step count) = true ∧ Reached intermediate two sign step r.1 r.2 := by
  cases h with
  | outOfRange hlimits => exact .inl ⟨hlimits, rfl⟩
  | exact hlimits hbefore =>
    refine .inr ⟨hlimits, rfl, ⟨isValidDate_stepped hone.valid, hlimits⟩, hbefore, hcount, ?_⟩
    have hday := (day_range htwo.valid).1
    have hday' := (day_range hone.valid).1
    rw [← atMonth_monthIndex htwo.valid, stepped]
    dsimp only
    obtain rfl | rfl := hsign
    · have hlt := epochDays_atMonth_lt two.day
        (show two.monthIndex < intermediate.monthIndex + step * (count + 1) by omega) hday'
      omega
    · have hlt := epochDays_atMonth_lt intermediate.day
        (show intermediate.monthIndex + step * (count + -1) < two.monthIndex by omega) hday
      omega
  | back hlimits hbeyond hsome hlimits' hbefore =>
    refine .inr ⟨hlimits, rfl, ⟨isValidDate_stepped hone.valid, hlimits'⟩, hbefore, ?_, ?_⟩
    · dsimp only
      obtain rfl | rfl := hsign <;> omega
    · rw [sub_add_cancel]
      exact hbeyond

/-! ## What adding back asks for -/

/-- the sign of the way from one to two -/
def direction (one two : IsoDate) : ℤ := if one = two then 0 else if one.Before two then 1 else -1

/-- beyond two, on the way from one -/
def Beyond (one two date : IsoDate) : Prop := if one.Before two then two.Before date else date.Before two

/-- a component has the sign or is zero -/
def Signed (sign component : ℤ) : Prop := component = 0 ∨ 0 < sign * component

theorem signed_of {component : ℤ} (hsign : sign = 1 ∨ sign = -1) (h : 0 ≤ sign * component) : Signed sign component := by
  unfold Signed
  obtain rfl | rfl := hsign <;> omega

/--
Adding the difference gives back the target; its components have its sign; a date with one more of a component is beyond the
target, and so is one with one more of a component and none of the smaller ones, down to the unit that is asked for.
-/
structure AddsBack (one two : IsoDate) (largest : TemporalUnit) (years months weeks days : ℤ) : Prop where
  back : addIsoDate one years months weeks days true = some two
  signs : Signed (direction one two) years ∧ Signed (direction one two) months ∧ Signed (direction one two) weeks ∧
    Signed (direction one two) days
  more : one ≠ two → ∀ date,
    (addIsoDate one (years + direction one two) months weeks days true = some date ∨
      addIsoDate one years (months + direction one two) weeks days true = some date ∨
      addIsoDate one years months (weeks + direction one two) days true = some date ∨
      addIsoDate one years months weeks (days + direction one two) true = some date) → Beyond one two date
  moreYears : one ≠ two → largest = .year → ∀ date, addIsoDate one (years + direction one two) 0 0 0 true = some date →
    Beyond one two date
  moreMonths : one ≠ two → largest = .year ∨ largest = .month → ∀ date,
    addIsoDate one years (months + direction one two) 0 0 true = some date → Beyond one two date
  moreWeeks : one ≠ two → largest = .week → ∀ date,
    addIsoDate one 0 0 (weeks + direction one two) 0 true = some date → Beyond one two date

/-- the day of the month, or its last day, in this year and month -/
def cutOff (year month day : ℤ) : IsoDate := ⟨year, month, min day (daysInMonth year month)⟩

/-- the last day of February -/
def februaryEnd (year : ℤ) : IsoDate := cutOff year 2 29

/--
One is 29 February, and the years lead to 28 February of a year without a leap day; from there two is a month of 28 days or
more ahead, or it is 29 January or earlier.
-/
def LeapDayGap (one two : IsoDate) : Prop :=
  one.month = 2 ∧ one.day = 29 ∧ ∃ year, isLeapYear year = false ∧
    if one.Before two then one.year < year ∧ ¬two.Before ⟨year, 3, 28⟩ ∧ two.Before (februaryEnd (year + 1))
    else year < one.year ∧ ¬(⟨year, 1, 29⟩ : IsoDate).Before two ∧ (februaryEnd (year - 1)).Before two

/-- the dates that the years and the months alone lead to are in range, and no leap day is lost on the way -/
def FollowsOneCut (one two : IsoDate) : TemporalUnit → Prop
  | .year => dateWithinLimits (cutOff two.year one.month one.day) = true ∧
      dateWithinLimits (cutOff two.year two.month one.day) = true ∧ ¬LeapDayGap one two
  | .month => dateWithinLimits (cutOff two.year two.month one.day) = true
  | _ => True

theorem beyond_iff {date : IsoDate} (hone : one.Exists) (htwo : two.Exists) (h : date.Exists) (hne : one ≠ two) :
    Beyond one two date ↔ 0 < direction one two * (epochDays date - epochDays two) := by
  have hbefore := epochDays_lt_iff hone htwo
  have hlt := epochDays_lt_iff htwo h
  have hgt := epochDays_lt_iff h htwo
  unfold Beyond direction
  rw [if_neg hne]
  split_ifs with hdirection
  · rw [← hlt]
    omega
  · rw [← hgt]
    omega

theorem direction_cases (hone : one.Exists) (htwo : two.Exists) (hne : one ≠ two) :
    (direction one two = 1 ∨ direction one two = -1) ∧ direction one two * (epochDays one - epochDays two) < 0 := by
  have hbefore := epochDays_lt_iff hone htwo
  have hsame := mt (epochDays_injective hone.valid htwo.valid) hne
  unfold direction
  rw [if_neg hne]
  split_ifs with hdirection
  · have hlt := hbefore.2 hdirection
    omega
  · have hnot := mt hbefore.1 hdirection
    omega

/-- with one more of a component the days behind it are kept, and the date is beyond two -/
theorem more_of_back {years months weeks days : ℤ} (hone : one.InRange) (htwo : two.InRange) (hne : one ≠ two)
    (hweeks : |weeks| ≤ 5 * 10 ^ 8) (hdays : |days| ≤ 5 * 10 ^ 8)
    (hback : epochDays (atMonth (one.monthIndex + 12 * years + months) one.day) + (weeks * 7 + days) = epochDays two)
    {date : IsoDate} (h : addIsoDate one (years + direction one two) months weeks days true = some date ∨
      addIsoDate one years (months + direction one two) weeks days true = some date ∨
      addIsoDate one years months (weeks + direction one two) days true = some date ∨
      addIsoDate one years months weeks (days + direction one two) true = some date) : Beyond one two date := by
  obtain ⟨hsign, -⟩ := direction_cases hone.exists htwo.exists hne
  have hday := (day_range hone.valid).1
  have hweekBounds := abs_le.1 hweeks
  have hdayBounds := abs_le.1 hdays
  have hweeks' : |weeks + direction one two| ≤ 10 ^ 9 := abs_le.2 (by obtain h | h := hsign <;> rw [h] <;> omega)
  have hdays' : |days + direction one two| ≤ 10 ^ 9 := abs_le.2 (by obtain h | h := hsign <;> rw [h] <;> omega)
  have hweeks : |weeks| ≤ 10 ^ 9 := hweeks.trans (by norm_num)
  have hdays : |days| ≤ 10 ^ 9 := hdays.trans (by norm_num)
  obtain h | h | h | h := h
  · obtain ⟨hexists, hdate⟩ := epochDays_of_addIsoDate hone.valid hweeks hdays h
    rw [beyond_iff hone.exists htwo.exists hexists hne, hdate, ← hback]
    obtain hs | hs := hsign <;> rw [hs]
    · have hlt := epochDays_atMonth_lt one.day (show one.monthIndex + 12 * years + months <
        one.monthIndex + 12 * (years + 1) + months by omega) hday
      omega
    · have hlt := epochDays_atMonth_lt one.day (show one.monthIndex + 12 * (years + -1) + months <
        one.monthIndex + 12 * years + months by omega) hday
      omega
  · obtain ⟨hexists, hdate⟩ := epochDays_of_addIsoDate hone.valid hweeks hdays h
    rw [beyond_iff hone.exists htwo.exists hexists hne, hdate, ← hback]
    obtain hs | hs := hsign <;> rw [hs]
    · have hlt := epochDays_atMonth_lt one.day (show one.monthIndex + 12 * years + months <
        one.monthIndex + 12 * years + (months + 1) by omega) hday
      omega
    · have hlt := epochDays_atMonth_lt one.day (show one.monthIndex + 12 * years + (months + -1) <
        one.monthIndex + 12 * years + months by omega) hday
      omega
  · obtain ⟨hexists, hdate⟩ := epochDays_of_addIsoDate hone.valid hweeks' hdays h
    rw [beyond_iff hone.exists htwo.exists hexists hne, hdate, ← hback]
    obtain hs | hs := hsign <;> rw [hs] <;> omega
  · obtain ⟨hexists, hdate⟩ := epochDays_of_addIsoDate hone.valid hweeks hdays' h
    rw [beyond_iff hone.exists htwo.exists hexists hne, hdate, ← hback]
    obtain hs | hs := hsign <;> rw [hs] <;> omega

/-- counting on from the landing leads to two exactly if the years and months lead to the landing -/
theorem back_iff {years months : ℤ} {landed : IsoDate} (hone : one.InRange) (htwo : two.InRange) (hlanded : landed.InRange) :
    addIsoDate one years months 0 (epochDays two - epochDays landed) true = some two ↔
      atMonth (one.monthIndex + 12 * years + months) one.day = landed := by
  have hlow := dateWithinLimits_iff.1 htwo.limits
  have hhigh := dateWithinLimits_iff.1 hlanded.limits
  have hvalid := isValidDate_atMonth (one.monthIndex + 12 * years + months) (day_range hone.valid).1
  rw [addIsoDate_eq_some hone.valid (by norm_num) (abs_le.2 (by omega)) htwo]
  constructor
  · rintro ⟨-, -, hsum⟩
    exact epochDays_injective hvalid hlanded.valid (by omega)
  · intro hsame
    have hyear := hlanded.year_range
    refine ⟨?_, abs_le.2 (by omega), by rw [hsame]; omega⟩
    rw [← hsame] at hyear
    dsimp only [atMonth] at hyear
    exact abs_le.2 (by omega)

theorem cutOff_eq {year month day : ℤ} (hmonth : 1 ≤ month) (hmonth' : month ≤ 12) :
    cutOff year month day = atMonth (12 * year + (month - 1)) day := by
  have hyear : (12 * year + (month - 1)) / 12 = year := by omega
  have hrest : (12 * year + (month - 1)) % 12 + 1 = month := by omega
  unfold cutOff atMonth monthDays
  rw [hyear, hrest, daysInMonth_eq hmonth hmonth']

theorem cutOff_month (htwo : two.InRange) (day : ℤ) : cutOff two.year two.month day = atMonth two.monthIndex day :=
  cutOff_eq (isValidDate_iff.1 htwo.valid).1.1 (isValidDate_iff.1 htwo.valid).1.2

/-- the components of the difference of two dates -/
def AddsBackDifference (one two : IsoDate) (largest : TemporalUnit) : Prop :=
  AddsBack one two largest (differenceIsoDate one two largest).1 (differenceIsoDate one two largest).2.1
    (differenceIsoDate one two largest).2.2.1 (differenceIsoDate one two largest).2.2.2

/-- years, months and the days from the landing -/
theorem addsBack_of {largest : TemporalUnit} {years months : ℤ} {landed : IsoDate} (hone : one.InRange) (htwo : two.InRange)
    (hne : one ≠ two) (hlargest : largest ≠ .week) (hlanded : landed.InRange)
    (hsame : atMonth (one.monthIndex + 12 * years + months) one.day = landed) (hyears : 0 ≤ direction one two * years)
    (hmonths : 0 ≤ direction one two * months) (hbefore : direction one two * (epochDays landed - epochDays two) ≤ 0)
    (hmoreYears : largest = .year → 0 < direction one two *
      (epochDays (stepped one 12 (years + direction one two)) - epochDays two))
    (hmoreMonths : 0 < direction one two *
      (epochDays (atMonth (one.monthIndex + 12 * years + (months + direction one two)) one.day) - epochDays two)) :
    AddsBack one two largest years months 0 (epochDays two - epochDays landed) := by
  have hlow := dateWithinLimits_iff.1 htwo.limits
  have hhigh := dateWithinLimits_iff.1 hlanded.limits
  obtain ⟨hsign, -⟩ := direction_cases hone.exists htwo.exists hne
  refine ⟨(back_iff hone htwo hlanded).2 hsame, ⟨signed_of hsign hyears, signed_of hsign hmonths, .inl rfl,
    signed_of hsign ?_⟩, fun _ date hmore => ?_, fun _ hlargest date h => ?_, fun _ _ date h => ?_,
    fun _ h => absurd h hlargest⟩
  · have hflip : direction one two * (epochDays two - epochDays landed) =
        -(direction one two * (epochDays landed - epochDays two)) := by ring
    omega
  · exact more_of_back hone htwo hne (by norm_num) (abs_le.2 (by omega)) (by rw [hsame]; omega) hmore
  · obtain ⟨hexists, hdate⟩ := epochDays_of_addIsoDate hone.valid (by norm_num) (by norm_num) h
    rw [beyond_iff hone.exists htwo.exists hexists hne, hdate]
    simpa [stepped] using hmoreYears hlargest
  · obtain ⟨hexists, hdate⟩ := epochDays_of_addIsoDate hone.valid (by norm_num) (by norm_num) h
    rw [beyond_iff hone.exists htwo.exists hexists hne, hdate]
    simpa using hmoreMonths

/-! ## Months -/

theorem monthsTo_cases (hone : one.InRange) (htwo : two.InRange) (hsign : sign = 1 ∨ sign = -1)
    (hbefore : sign * (epochDays one - epochDays two) ≤ 0) :
    dateWithinLimits (atMonth two.monthIndex one.day) = false ∧
        monthsTo one two sign = (two.monthIndex - one.monthIndex, one) ∨
      dateWithinLimits (atMonth two.monthIndex one.day) = true ∧
        Reached one two sign 1 (monthsTo one two sign).1 (monthsTo one two sign).2 := by
  have htarget : stepped one 1 (two.monthIndex - one.monthIndex) = atMonth two.monthIndex one.day := by
    unfold stepped
    congr 1
    ring
  have hcases := (monthsTo_counted hone htwo hsign hbefore).cases hone htwo hsign (months_in_order hone htwo hsign hbefore)
    (by obtain rfl | rfl := hsign <;> omega)
  rwa [htarget] at hcases

theorem month_adds_back (hone : one.InRange) (htwo : two.InRange) (hne : one ≠ two) :
    AddsBackDifference one two .month ↔ FollowsOneCut one two .month := by
  obtain ⟨hsign, hbefore⟩ := direction_cases hone.exists htwo.exists hne
  have hdifference : differenceIsoDate one two .month = (0, (monthsTo one two (direction one two)).1, 0,
      epochDays two - epochDays (monthsTo one two (direction one two)).2) := by
    simp only [differenceIsoDate, direction, if_neg hne]
    rfl
  unfold AddsBackDifference FollowsOneCut
  rw [hdifference, cutOff_month htwo]
  dsimp only
  obtain ⟨hlimits, hcount⟩ | ⟨hlimits, hreached⟩ := monthsTo_cases hone htwo hsign hbefore.le
  · rw [hlimits, hcount]
    simp only [Bool.false_eq_true, iff_false]
    intro hback
    have hsame := congrArg monthIndex ((back_iff hone htwo hone).1 hback.back)
    rw [monthIndex_atMonth] at hsame
    have hmonth : two.monthIndex = one.monthIndex := by omega
    rw [hmonth, atMonth_monthIndex hone.valid, hone.limits] at hlimits
    exact Bool.noConfusion hlimits
  · simp only [hlimits, iff_true]
    refine addsBack_of hone htwo hne (by decide) hreached.inRange ?_ (by norm_num) hreached.signed hreached.before
      (by simp) ?_
    · rw [hreached.landed_eq, stepped, mul_zero, add_zero, one_mul]
    · have hlast := hreached.last
      rwa [stepped, one_mul, ← add_zero one.monthIndex, ← mul_zero (12 : ℤ)] at hlast

/-! ## Years -/

theorem yearsTo_cases (hone : one.InRange) (htwo : two.InRange) (hsign : sign = 1 ∨ sign = -1)
    (hbefore : sign * (epochDays one - epochDays two) ≤ 0) :
    dateWithinLimits (cutOff two.year one.month one.day) = false ∧ yearsTo one two sign = (two.year - one.year, one) ∨
      dateWithinLimits (cutOff two.year one.month one.day) = true ∧
        Reached one two sign 12 (yearsTo one two sign).1 (yearsTo one two sign).2 := by
  have hmonths := months_in_order hone htwo hsign hbefore
  have hmonth := (isValidDate_iff.1 hone.valid).1
  have hmonth' := (isValidDate_iff.1 htwo.valid).1
  have htarget : stepped one 12 (two.year - one.year) = cutOff two.year one.month one.day := by
    rw [cutOff_eq hmonth.1 hmonth.2, stepped]
    congr 1
    unfold monthIndex
    ring
  have hcases := (yearsTo_counted hone htwo hsign hbefore).cases hone htwo hsign
    (by unfold monthIndex at hmonths; obtain rfl | rfl := hsign <;> omega)
    (by unfold monthIndex; obtain rfl | rfl := hsign <;> omega)
  rwa [htarget] at hcases

/-- the day is kept by the years, or it was 29 February and is 28 February of a year without a leap day -/
theorem day_stepped (hone : one.InRange) (years : ℤ) : (stepped one 12 years).day = one.day ∨
    one.month = 2 ∧ one.day = 29 ∧ (stepped one 12 years).day = 28 ∧ isLeapYear (one.year + years) = false ∧
      stepped one 12 years = ⟨one.year + years, 2, 28⟩ := by
  obtain ⟨hmonth, hday⟩ := isValidDate_iff.1 hone.valid
  have hyear : (one.monthIndex + 12 * years) / 12 = one.year + years := by
    unfold monthIndex
    omega
  have hrest : (one.monthIndex + 12 * years) % 12 + 1 = one.month := by
    unfold monthIndex
    omega
  have hfields : stepped one 12 years = ⟨one.year + years, one.month, min one.day (monthLength (one.year + years) one.month)⟩ := by
    unfold stepped atMonth monthDays
    rw [hyear, hrest]
  rw [hfields]
  by_cases hkept : one.day ≤ monthLength (one.year + years) one.month
  · exact .inl (min_eq_left hkept)
  · have hleap : isLeapYear (one.year + years) = true ↔ _ := isLeapYear_iff
    unfold monthLength at hkept hday ⊢
    refine .inr ?_
    split_ifs at hkept hday ⊢ with hfebruary hnow hthen <;> try omega
    have hcut : min one.day 28 = 28 := min_eq_right (by omega)
    rw [hcut]
    exact ⟨hfebruary, by omega, rfl, by simpa using mt hleap.1 hnow, by rw [hfebruary]⟩

/-- the days 28 and 29 of a month are both in range or both out of it -/
theorem limits_29 {month : ℤ} : dateWithinLimits (atMonth month 28) = dateWithinLimits (atMonth month 29) := by
  have hlength := monthDays_range month
  have hfirst := firstDay_le
  have hnotEnd : ∀ days, (dateFromEpochDays days).day ≠ 29 → -800000000 ≤ days → days ≤ 800000000 → 29 ≤ monthDays month →
      epochDays (atMonth month 29) ≠ days := by
    intro days hday hlow hhigh hlong hsame
    have hexists : (dateFromEpochDays days).Exists := exists_dateFromEpochDays (by omega) (by omega)
    have hdate := epochDays_injective (isValidDate_atMonth _ (by norm_num)) hexists.valid
      (hsame.trans (epochDays_dateFromEpochDays (by omega) (by omega)).symm)
    exact hday (hdate ▸ min_eq_left hlong)
  by_cases hlong : 29 ≤ monthDays month
  · have hlast := hnotEnd 100000001 (by decide) (by norm_num) (by norm_num) hlong
    have hbegin := hnotEnd (-100000001) (by decide) (by norm_num) (by norm_num) hlong
    rw [epochDays_atMonth, min_eq_left hlong] at hlast hbegin
    rw [Bool.eq_iff_iff, dateWithinLimits_iff, dateWithinLimits_iff, epochDays_atMonth, epochDays_atMonth,
      min_eq_left hlong, min_eq_left (by omega)]
    omega
  · have hshort : monthDays month = 28 := by omega
    unfold atMonth
    rw [hshort]
    rfl

section LeapDay

variable {years : ℤ} (hfebruary : one.month = 2) (hday : one.day = 29)

include hfebruary hday

theorem stepped_february : stepped one 12 years = februaryEnd (one.year + years) := by
  rw [februaryEnd, cutOff_eq (by norm_num) (by norm_num), stepped, hday]
  congr 1
  unfold monthIndex
  rw [hfebruary]
  ring

/-- the years of a 29 February lead to the last February on the way -/
theorem reached_february (hone : one.InRange) (htwo : two.InRange) (hne : one ≠ two) {intermediate : IsoDate}
    (h : Reached one two (direction one two) 12 years intermediate) :
    if one.Before two then one.year ≤ one.year + years ∧ ¬two.Before (februaryEnd (one.year + years)) ∧
      two.Before (februaryEnd (one.year + years + 1))
    else one.year + years ≤ one.year ∧ ¬(februaryEnd (one.year + years)).Before two ∧
      (februaryEnd (one.year + years - 1)).Before two := by
  have hlanded := h.landed_eq.trans (stepped_february hfebruary hday)
  have hlast := h.last
  have hbefore := h.before
  have hsigned := h.signed
  have hyear := hlanded ▸ h.inRange.year_range
  have hexists : (februaryEnd (one.year + (years + direction one two))).Exists := by
    have hdirection := direction_cases hone.exists htwo.exists hne
    dsimp only [februaryEnd, cutOff] at hyear
    refine ⟨?_, ?_, ?_⟩
    · rw [← stepped_february hfebruary hday]
      exact isValidDate_stepped hone.valid
    · dsimp only [februaryEnd, cutOff]
      omega
    · dsimp only [februaryEnd, cutOff]
      omega
  have hfar := epochDays_lt_iff htwo.exists hexists
  have hfar' := epochDays_lt_iff hexists htwo.exists
  have hnear := epochDays_lt_iff htwo.exists h.inRange.exists
  have hnear' := epochDays_lt_iff h.inRange.exists htwo.exists
  rw [hlanded] at hbefore hnear hnear'
  rw [stepped_february hfebruary hday] at hlast
  unfold direction at hbefore hlast hsigned hfar hfar'
  rw [if_neg hne] at hbefore hlast hsigned hfar hfar'
  split_ifs at hbefore hlast hsigned hfar hfar' ⊢
  · rw [← add_assoc] at hlast hfar
    exact ⟨by omega, fun hlt => by have := hnear.2 hlt; omega, hfar.1 (by omega)⟩
  · rw [← add_assoc, ← sub_eq_add_neg] at hlast hfar'
    exact ⟨by omega, fun hlt => by have := hnear'.2 hlt; omega, hfar'.1 (by omega)⟩

/-- the year of the gap is the one that the years lead to -/
theorem leapDayGap_iff (hone : one.InRange) (htwo : two.InRange) (hne : one ≠ two) {intermediate : IsoDate}
    (h : Reached one two (direction one two) 12 years intermediate) :
    LeapDayGap one two ↔ isLeapYear (one.year + years) = false ∧
      if one.Before two then ¬two.Before ⟨one.year + years, 3, 28⟩
      else ¬(⟨one.year + years, 1, 29⟩ : IsoDate).Before two := by
  have hreached := reached_february hfebruary hday hone htwo hne h
  have hleap : isLeapYear one.year = true := by
    have hrange := (isValidDate_iff.1 hone.valid).2.2
    rw [hday, hfebruary, monthLength, if_pos rfl] at hrange
    split_ifs at hrange with hleap
    · exact isLeapYear_iff.2 hleap
    · norm_num at hrange
  have hother : isLeapYear (one.year + years) = false → one.year + years ≠ one.year := by
    intro hnot hsame
    rw [hsame, hleap] at hnot
    exact Bool.noConfusion hnot
  unfold LeapDayGap
  constructor
  · rintro ⟨-, -, year, hnot, hgap⟩
    have hyear : one.year + years = year := by
      by_contra hyear
      split_ifs at hreached hgap
      · obtain ⟨-, hbehind, hnext⟩ := hreached
        obtain ⟨-, hbehind', hnext'⟩ := hgap
        by_cases hsame : one.year + years = year + 1
        · exact hbehind (hsame ▸ hnext')
        · unfold Before at hbehind hnext hbehind' hnext'
          dsimp only [februaryEnd, cutOff] at hbehind hnext hbehind' hnext'
          omega
      · obtain ⟨-, hbehind, hnext⟩ := hreached
        obtain ⟨-, hbehind', hnext'⟩ := hgap
        by_cases hsame : one.year + years = year - 1
        · exact hbehind (hsame ▸ hnext')
        · unfold Before at hbehind hnext hbehind' hnext'
          dsimp only [februaryEnd, cutOff] at hbehind hnext hbehind' hnext'
          omega
    rw [hyear]
    refine ⟨hnot, ?_⟩
    split_ifs at hgap ⊢
    · exact hgap.2.1
    · exact hgap.2.1
  · rintro ⟨hnot, hgap⟩
    refine ⟨hfebruary, hday, one.year + years, hnot, ?_⟩
    have hyear := hother hnot
    split_ifs at hreached hgap ⊢
    · exact ⟨by omega, hgap, hreached.2.2⟩
    · exact ⟨by omega, hgap, hreached.2.2⟩

end LeapDay

theorem monthDays_28 {month : ℤ} (h : monthDays month = 28) : month % 12 = 1 := by
  unfold monthDays monthLength at h
  split_ifs at h <;> omega

/-- the month one day before its 29th day, and the month with it -/
theorem atMonth_28_29 {month : ℤ} : atMonth month 29 = atMonth month 28 ↔ monthDays month = 28 := by
  have hlength := monthDays_range month
  have hfields : atMonth month 29 = atMonth month 28 ↔ min 29 (monthDays month) = min 28 (monthDays month) :=
    ⟨congrArg IsoDate.day, fun hday => IsoDate.ext rfl rfl hday⟩
  rw [hfields]
  omega

theorem exists_atMonth (month : ℤ) {day : ℤ} (hday : 1 ≤ day) (hlow : -1000000 ≤ month / 12) (hhigh : month / 12 ≤ 1000000) :
    (atMonth month day).Exists :=
  ⟨isValidDate_atMonth _ hday, by dsimp only [atMonth]; omega, by dsimp only [atMonth]; omega⟩

section Lost

variable {years months : ℤ} {intermediate landed : IsoDate} (hone : one.InRange) (htwo : two.InRange) (hne : one ≠ two)
  (hfebruary : one.month = 2) (hday : one.day = 29) (hyears : Reached one two (direction one two) 12 years intermediate)
  (hleap : isLeapYear (one.year + years) = false)

include hfebruary hday hyears hleap

/-- the years lead to 28 February -/
theorem lost_stepped (count : ℤ) :
    stepped intermediate 1 count = atMonth (12 * (one.year + years) + 1 + count) 28 := by
  have hlast : daysInMonth (one.year + years) 2 = 28 := by
    rw [daysInMonth_eq (by norm_num) (by norm_num), monthLength, if_pos rfl, if_neg]
    rw [← isLeapYear_iff, hleap]
    exact Bool.false_ne_true
  have hintermediate := hyears.landed_eq.trans (stepped_february hfebruary hday)
  rw [hintermediate, stepped]
  unfold februaryEnd cutOff monthIndex
  rw [hlast, one_mul]
  rfl

include hone htwo hne

/-- the gap, in days -/
theorem lost_gap : LeapDayGap one two ↔
    if one.Before two then epochDays (atMonth (12 * (one.year + years) + 2) 28) ≤ epochDays two
    else epochDays two ≤ epochDays (atMonth (12 * (one.year + years)) 29) := by
  have hyear := hyears.landed_eq.trans (stepped_february hfebruary hday) ▸ hyears.inRange.year_range
  dsimp only [februaryEnd, cutOff] at hyear
  have hmarch : (⟨one.year + years, 3, 28⟩ : IsoDate) = atMonth (12 * (one.year + years) + 2) 28 :=
    (atMonth_monthIndex (isValidDate_iff.2 (by norm_num [monthLength]))).symm
  have hjanuary : (⟨one.year + years, 1, 29⟩ : IsoDate) = atMonth (12 * (one.year + years)) 29 := by
    rw [← add_zero (12 * (one.year + years))]
    exact (atMonth_monthIndex (isValidDate_iff.2 (by norm_num [monthLength]))).symm
  have hahead := epochDays_lt_iff htwo.exists
    (exists_atMonth (12 * (one.year + years) + 2) (show (1 : ℤ) ≤ 28 by norm_num) (by omega) (by omega))
  have hbehind := epochDays_lt_iff
    (exists_atMonth (12 * (one.year + years)) (show (1 : ℤ) ≤ 29 by norm_num) (by omega) (by omega)) htwo.exists
  rw [leapDayGap_iff hfebruary hday hone htwo hne hyears, hmarch, hjanuary, ← hahead, ← hbehind, not_lt, not_lt]
  exact and_iff_right hleap

variable (hmonths : Reached intermediate two (direction one two) 1 months landed)

include hmonths

/-- a year from the lost day on, the day would be kept or two is passed -/
theorem lost_monthDays (hmany : months ≠ 0) : monthDays (12 * (one.year + years) + 1 + months) ≠ 28 := by
  intro hshort
  have hstepped := lost_stepped hfebruary hday hyears hleap
  have hrest := monthDays_28 hshort
  have hbefore := hmonths.before
  have hsigned := hmonths.signed
  have hlast := hyears.last
  have hnext : stepped one 12 (years + direction one two) =
      atMonth (12 * (one.year + years) + 1 + 12 * direction one two) 29 := by
    rw [stepped, hday]
    congr 1
    unfold monthIndex
    rw [hfebruary]
    ring
  rw [hmonths.landed_eq, hstepped] at hbefore
  rw [hnext] at hlast
  obtain ⟨hsign, -⟩ := direction_cases hone.exists htwo.exists hne
  obtain hs | hs := hsign <;> rw [hs] at hbefore hsigned hlast
  · obtain hsame | hfar := (show 12 ≤ months by omega).eq_or_lt
    · rw [← hsame] at hshort hbefore
      rw [mul_one, atMonth_28_29.2 hshort] at hlast
      omega
    · have hlt := epochDays_atMonth_lt 29
        (show 12 * (one.year + years) + 1 + 12 * 1 < 12 * (one.year + years) + 1 + months by omega)
        (show (1 : ℤ) ≤ 28 by norm_num)
      omega
  · obtain hsame | hfar := (show months ≤ -12 by omega).eq_or_lt
    · rw [hsame] at hshort hbefore
      rw [show (12 : ℤ) * -1 = -12 by norm_num, atMonth_28_29.2 hshort] at hlast
      omega
    · have hlt := epochDays_atMonth_lt 28
        (show 12 * (one.year + years) + 1 + months < 12 * (one.year + years) + 1 + 12 * -1 by omega)
        (show (1 : ℤ) ≤ 29 by norm_num)
      omega

/-- the leap day is lost, and the months lead back to it -/
theorem lost_adds_back : AddsBack one two .year years months 0 (epochDays two - epochDays landed) ↔ ¬LeapDayGap one two := by
  obtain ⟨hsign, -⟩ := direction_cases hone.exists htwo.exists hne
  have hstepped := lost_stepped hfebruary hday hyears hleap
  have hmonth : one.monthIndex + 12 * years = 12 * (one.year + years) + 1 := by
    unfold monthIndex
    rw [hfebruary]
    ring
  have hsame : atMonth (one.monthIndex + 12 * years + months) one.day = landed ↔
      monthDays (12 * (one.year + years) + 1 + months) = 28 := by
    rw [hmonths.landed_eq, hstepped, hmonth, hday, atMonth_28_29]
  have hlast := hmonths.last
  have hbefore := hmonths.before
  have hsigned := hmonths.signed
  rw [hstepped] at hlast
  rw [hmonths.landed_eq, hstepped] at hbefore
  have hgap := lost_gap hone htwo hne hfebruary hday hyears hleap
  have hmany := lost_monthDays hone htwo hne hfebruary hday hyears hleap hmonths
  have hshort : monthDays (12 * (one.year + years) + 1 + 0) = 28 := by
    rw [← atMonth_28_29, add_zero, ← hmonth, ← hday, ← stepped, ← hyears.landed_eq]
    have hzero := hstepped 0
    rw [stepped_zero hyears.inRange.valid, add_zero, ← hmonth] at hzero
    exact hzero
  have hnoMonths : AddsBack one two .year years months 0 (epochDays two - epochDays landed) → months = 0 := by
    intro h
    by_contra hsome
    exact hmany hsome (hsame.1 ((back_iff hone htwo hmonths.inRange).1 h.back))
  have hadds : months = 0 → 0 < direction one two *
      (epochDays (atMonth (12 * (one.year + years) + 1 + direction one two) 29) - epochDays two) →
      AddsBack one two .year years months 0 (epochDays two - epochDays landed) := by
    intro hzero hmore
    refine addsBack_of hone htwo hne (by decide) hmonths.inRange (hsame.2 (hzero ▸ hshort)) hyears.signed hmonths.signed
      hmonths.before (fun _ => hyears.last) ?_
    rwa [hmonth, hday, hzero, zero_add]
  by_cases hahead : one.Before two
  · have hs : direction one two = 1 := by rw [direction, if_neg hne, if_pos hahead]
    rw [if_pos hahead] at hgap
    rw [hs] at hlast hbefore hsigned hadds
    rw [hgap]
    constructor
    · intro h hlong
      rw [hnoMonths h, zero_add, add_assoc] at hlast
      norm_num at hlast
      omega
    · intro hnear
      -- a month on lies beyond two, so there are no months
      have hzero : months = 0 := by
        by_contra hsome
        obtain hfirst | hfar := (show 1 ≤ months by omega).eq_or_lt
        · rw [← hfirst, add_assoc] at hbefore
          norm_num at hbefore
          omega
        · have hlt := epochDays_atMonth_lt 28
            (show 12 * (one.year + years) + 2 < 12 * (one.year + years) + 1 + months by omega) (show (1 : ℤ) ≤ 28 by norm_num)
          omega
      refine hadds hzero ?_
      have hle := epochDays_atMonth_le (12 * (one.year + years) + 1 + 1) (show (28 : ℤ) ≤ 29 by norm_num)
      rw [hzero, zero_add] at hlast
      omega
  · have hs : direction one two = -1 := by rw [direction, if_neg hne, if_neg hahead]
    have hjanuary : 12 * (one.year + years) + 1 + -1 = 12 * (one.year + years) := by omega
    rw [if_neg hahead] at hgap
    rw [hs] at hlast hbefore hsigned hadds
    rw [hgap]
    constructor
    · intro h hearly
      -- then two is 29 January, and a month less leads to it and not beyond
      have hzero := hnoMonths h
      rw [hzero, zero_add, hjanuary] at hlast
      have hnext : epochDays (atMonth (12 * (one.year + years)) 29) ≤ epochDays (atMonth (12 * (one.year + years)) 28) + 1 := by
        rw [epochDays_atMonth, epochDays_atMonth]
        omega
      have htarget := epochDays_injective htwo.valid (isValidDate_atMonth _ (by norm_num)) (show epochDays two =
        epochDays (atMonth (12 * (one.year + years)) 29) by omega)
      have hmore := h.moreMonths hne (.inl rfl) two
      rw [addIsoDate_months hone.valid, hmonth, hday, hzero, hs, zero_add, hjanuary, ← htarget, if_pos htwo.limits] at hmore
      have hbeyond := (beyond_iff hone.exists htwo.exists htwo.exists hne).1 (hmore rfl)
      rw [sub_self, mul_zero] at hbeyond
      exact lt_irrefl _ hbeyond
    · intro hlate
      have hle := epochDays_atMonth_le (12 * (one.year + years)) (show (28 : ℤ) ≤ 29 by norm_num)
      -- a month back lies before two, so there are no months
      have hzero : months = 0 := by
        by_contra hsome
        obtain hfirst | hfar := (show months ≤ -1 by omega).eq_or_lt
        · rw [hfirst, hjanuary] at hbefore
          omega
        · have hlt := epochDays_atMonth_lt 28
            (show 12 * (one.year + years) + 1 + months < 12 * (one.year + years) by omega) (show (1 : ℤ) ≤ 28 by norm_num)
          omega
      refine hadds hzero ?_
      rw [hjanuary]
      omega

end Lost

/-- the years reached, and the months out of range or reached -/
theorem reached_adds_back {years : ℤ} {intermediate : IsoDate} (hone : one.InRange) (htwo : two.InRange) (hne : one ≠ two)
    (hyears : Reached one two (direction one two) 12 years intermediate) :
    AddsBack one two .year years (monthsTo intermediate two (direction one two)).1 0
      (epochDays two - epochDays (monthsTo intermediate two (direction one two)).2) ↔
    dateWithinLimits (atMonth two.monthIndex one.day) = true ∧ ¬LeapDayGap one two := by
  obtain ⟨hsign, -⟩ := direction_cases hone.exists htwo.exists hne
  have hmonth : intermediate.monthIndex = one.monthIndex + 12 * years := by
    rw [hyears.landed_eq, stepped, monthIndex_atMonth]
  have hlimits : dateWithinLimits (atMonth two.monthIndex intermediate.day) =
      dateWithinLimits (atMonth two.monthIndex one.day) := by
    rw [hyears.landed_eq]
    obtain hkept | ⟨-, hday, hcut, -⟩ := day_stepped hone years
    · rw [hkept]
    · rw [hcut, hday, limits_29]
  obtain ⟨hout, hcount⟩ | ⟨hin, hmonths⟩ := monthsTo_cases hyears.inRange htwo hsign hyears.before
  · rw [hcount, ← hlimits, hout]
    simp only [Bool.false_eq_true, false_and, iff_false]
    intro h
    have hsame := congrArg monthIndex ((back_iff hone htwo hyears.inRange).1 h.back)
    rw [monthIndex_atMonth, ← hmonth, add_sub_cancel] at hsame
    rw [hsame, atMonth_monthIndex hyears.inRange.valid, hyears.inRange.limits] at hout
    exact Bool.noConfusion hout
  · rw [← hlimits, and_iff_right hin]
    obtain hkept | ⟨hfebruary, hday, -, hleap, -⟩ := day_stepped hone years
    · have hstepped : ∀ count, stepped intermediate 1 count =
          atMonth (one.monthIndex + 12 * years + count) one.day := by
        intro count
        rw [stepped, hmonth, hyears.landed_eq, hkept, one_mul]
      have hnoGap : ¬LeapDayGap one two := by
        intro hgap
        obtain ⟨hleap, -⟩ := (leapDayGap_iff hgap.1 hgap.2.1 hone htwo hne hyears).1 hgap
        have hshort := lost_stepped hgap.1 hgap.2.1 hyears hleap 0
        rw [stepped_zero hyears.inRange.valid, hyears.landed_eq] at hshort
        have hcut : (stepped one 12 years).day ≤ 28 := hshort ▸ min_le_left _ _
        rw [hkept, hgap.2.1] at hcut
        norm_num at hcut
      refine iff_of_true (addsBack_of hone htwo hne (by decide) hmonths.inRange ?_ hyears.signed hmonths.signed
        hmonths.before (fun _ => hyears.last) ?_) hnoGap
      · rw [hmonths.landed_eq, hstepped]
      · have hlast := hmonths.last
        rwa [hstepped] at hlast
    · exact lost_adds_back hone htwo hne hfebruary hday hyears hleap hmonths

/-- where the years lead out of range the months are counted a second time -/
theorem outOfRange_not_back (hone : one.InRange) (htwo : two.InRange) (hne : one ≠ two)
    (hout : dateWithinLimits (stepped one 12 (two.year - one.year)) = false) {days : ℤ}
    (hdays : days = epochDays two - epochDays (monthsTo one two (direction one two)).2) :
    addIsoDate one (two.year - one.year) (monthsTo one two (direction one two)).1 0 days true ≠ some two := by
  obtain ⟨hsign, hbefore⟩ := direction_cases hone.exists htwo.exists hne
  have hyears : two.year - one.year ≠ 0 := by
    intro hzero
    rw [hzero, stepped_zero hone.valid, hone.limits] at hout
    exact Bool.noConfusion hout
  have hinOrder := months_in_order hone htwo hsign hbefore.le
  have hmonth := (isValidDate_iff.1 hone.valid).1
  have hmonth' := (isValidDate_iff.1 htwo.valid).1
  intro hback
  rw [hdays] at hback
  obtain ⟨-, hcount⟩ | ⟨-, hmonths⟩ := monthsTo_cases hone htwo hsign hbefore.le
  · rw [hcount] at hback
    have hsame := congrArg monthIndex ((back_iff hone htwo hone).1 hback)
    rw [monthIndex_atMonth] at hsame
    unfold monthIndex at hsame hinOrder
    obtain hs | hs := hsign <;> rw [hs] at hinOrder <;> omega
  · have hsame := congrArg monthIndex ((back_iff hone htwo hmonths.inRange).1 hback)
    rw [monthIndex_atMonth, hmonths.landed_eq, stepped, monthIndex_atMonth] at hsame
    omega

theorem year_adds_back (hone : one.InRange) (htwo : two.InRange) (hne : one ≠ two) :
    AddsBackDifference one two .year ↔ FollowsOneCut one two .year := by
  obtain ⟨hsign, hbefore⟩ := direction_cases hone.exists htwo.exists hne
  have hdifference : differenceIsoDate one two .year =
      ((yearsTo one two (direction one two)).1,
        (monthsTo (yearsTo one two (direction one two)).2 two (direction one two)).1, 0,
        epochDays two - epochDays (monthsTo (yearsTo one two (direction one two)).2 two (direction one two)).2) := by
    simp only [differenceIsoDate, direction, if_neg hne]
    rfl
  unfold AddsBackDifference FollowsOneCut
  rw [hdifference, cutOff_month htwo]
  dsimp only
  obtain ⟨hout, hcount⟩ | ⟨hin, hyears⟩ := yearsTo_cases hone htwo hsign hbefore.le
  · have hmonth := (isValidDate_iff.1 hone.valid).1
    rw [hcount, hout]
    simp only [Bool.false_eq_true, false_and, iff_false]
    intro h
    refine outOfRange_not_back hone htwo hne ?_ rfl h.back
    rw [cutOff_eq hmonth.1 hmonth.2] at hout
    rw [stepped, ← hout]
    congr 2
    unfold monthIndex
    ring
  · rw [reached_adds_back hone htwo hne hyears, and_iff_right hin]

/-! ## Weeks and days -/

/-- weeks and days alone -/
theorem days_add_back {largest : TemporalUnit} {weeks days : ℤ} (hone : one.InRange) (htwo : two.InRange) (hne : one ≠ two)
    (hlargest : largest ≠ .year ∧ largest ≠ .month) (hsum : weeks * 7 + days = epochDays two - epochDays one)
    (hweeks : 0 ≤ direction one two * weeks) (hdays : 0 ≤ direction one two * days)
    (hmoreWeeks : largest = .week → direction one two * days < 7) : AddsBack one two largest 0 0 weeks days := by
  have hlow := dateWithinLimits_iff.1 htwo.limits
  have hhigh := dateWithinLimits_iff.1 hone.limits
  have hyear := hone.year_range
  have hmonth := (isValidDate_iff.1 hone.valid).1
  obtain ⟨hsign, hbefore⟩ := direction_cases hone.exists htwo.exists hne
  have hstart : atMonth (one.monthIndex + 12 * 0 + 0) one.day = one := by
    rw [mul_zero, add_zero, add_zero, atMonth_monthIndex hone.valid]
  have hback : epochDays (atMonth (one.monthIndex + 12 * 0 + 0) one.day) + (weeks * 7 + days) = epochDays two := by
    rw [hstart]
    omega
  have hbounds : |weeks| ≤ 5 * 10 ^ 8 ∧ |days| ≤ 5 * 10 ^ 8 := by
    rw [abs_le, abs_le]
    obtain hs | hs := hsign <;> rw [hs] at hweeks hdays hbefore <;> omega
  refine ⟨(addIsoDate_eq_some hone.valid (hbounds.1.trans (by norm_num)) (hbounds.2.trans (by norm_num)) htwo).2
      ⟨?_, abs_le.2 (by omega), hback⟩, ⟨.inl rfl, .inl rfl, signed_of hsign hweeks, signed_of hsign hdays⟩,
    fun _ date hmore => more_of_back hone htwo hne hbounds.1 hbounds.2 hback hmore, fun _ h => absurd h hlargest.1,
    fun _ h => absurd h (not_or.2 hlargest), fun _ h date hmore => ?_⟩
  · unfold monthIndex
    exact abs_le.2 (by omega)
  · have hweekBounds := abs_le.1 hbounds.1
    have hmoreDays := hmoreWeeks h
    obtain ⟨hexists, hdate⟩ := epochDays_of_addIsoDate hone.valid
      (abs_le.2 (by obtain h | h := hsign <;> rw [h] <;> omega)) (by norm_num) hmore
    rw [hstart] at hdate
    rw [beyond_iff hone.exists htwo.exists hexists hne, hdate]
    obtain hs | hs := hsign <;> rw [hs] at hmoreDays ⊢ <;> omega

theorem week_adds_back (hone : one.InRange) (htwo : two.InRange) (hne : one ≠ two) :
    AddsBackDifference one two .week := by
  obtain ⟨hsign, hbefore⟩ := direction_cases hone.exists htwo.exists hne
  unfold AddsBackDifference
  simp only [differenceIsoDate, if_neg hne]
  have hrest := Int.mul_tdiv_add_tmod (epochDays two - epochDays one) 7
  have hmod := Int.tmod_lt_of_pos (epochDays two - epochDays one) (show (0 : ℤ) < 7 by norm_num)
  have hmod' := Int.lt_tmod_of_pos (epochDays two - epochDays one) (show (0 : ℤ) < 7 by norm_num)
  obtain hs | hs := hsign
  · have hmod := Int.tmod_nonneg 7 (show 0 ≤ epochDays two - epochDays one by rw [hs] at hbefore; omega)
    refine days_add_back hone htwo hne (by decide) (by ring) ?_ ?_ fun _ => ?_ <;> rw [hs] at hbefore ⊢ <;> omega
  · have hflip := Int.tmod_nonneg 7 (show 0 ≤ -(epochDays two - epochDays one) by rw [hs] at hbefore; omega)
    rw [Int.neg_tmod] at hflip
    refine days_add_back hone htwo hne (by decide) (by ring) ?_ ?_ fun _ => ?_ <;> rw [hs] at hbefore ⊢ <;> omega

/-- the days alone -/
theorem day_adds_back (hone : one.InRange) (htwo : two.InRange) (hne : one ≠ two) {largest : TemporalUnit}
    (hlargest : largest ≠ .year ∧ largest ≠ .month ∧ largest ≠ .week) : AddsBackDifference one two largest := by
  obtain ⟨hsign, hbefore⟩ := direction_cases hone.exists htwo.exists hne
  have hdifference : differenceIsoDate one two largest = (0, 0, 0, epochDays two - epochDays one) := by
    unfold differenceIsoDate
    rw [if_neg hne]
    cases largest <;> simp_all
  unfold AddsBackDifference
  rw [hdifference]
  dsimp only
  refine days_add_back hone htwo hne ⟨hlargest.1, hlargest.2.1⟩ (by ring) (by norm_num) ?_ fun h => absurd h hlargest.2.2
  obtain hs | hs := hsign <;> rw [hs] at hbefore ⊢ <;> omega

/-- a date and itself -/
theorem same_adds_back (hone : one.InRange) (largest : TemporalUnit) :
    AddsBackDifference one one largest ∧ FollowsOneCut one one largest := by
  have hcut : cutOff one.year one.month one.day = one := by
    rw [cutOff_month hone, atMonth_monthIndex hone.valid]
  constructor
  · unfold AddsBackDifference
    simp only [differenceIsoDate, if_true]
    refine ⟨?_, ⟨.inl rfl, .inl rfl, .inl rfl, .inl rfl⟩, fun h => absurd rfl h, fun h => absurd rfl h,
      fun h => absurd rfl h, fun h => absurd rfl h⟩
    rw [addIsoDate_months hone.valid, mul_zero, add_zero, add_zero, atMonth_monthIndex hone.valid, if_pos hone.limits]
  · have hnoGap : ¬LeapDayGap one one := by
      rintro ⟨-, -, year, -, hgap⟩
      have hself : ¬one.Before one := by
        unfold Before
        omega
      rw [if_neg hself] at hgap
      exact hgap.2.1 (.inl hgap.1)
    cases largest <;> simp [FollowsOneCut, hcut, hone.limits, hnoGap]

/--
**The difference and the sum.** Adding the difference of two dates gives back the second date, its components have its sign
and none can be made greater, exactly if the years alone and the months alone lead to dates in range and the years lose no leap
day that the months would bring back.
-/
theorem difference_adds_back (hone : one.InRange) (htwo : two.InRange) (largest : TemporalUnit) :
    AddsBackDifference one two largest ↔ FollowsOneCut one two largest := by
  obtain rfl | hne := eq_or_ne one two
  · exact iff_of_true (same_adds_back hone largest).1 (same_adds_back hone largest).2
  · cases largest with
    | year => exact year_adds_back hone htwo hne
    | month => exact month_adds_back hone htwo hne
    | week => exact iff_of_true (week_adds_back hone htwo hne) trivial
    | day => exact iff_of_true (day_adds_back hone htwo hne (by decide)) trivial
    | hour => exact iff_of_true (day_adds_back hone htwo hne (by decide)) trivial
    | minute => exact iff_of_true (day_adds_back hone htwo hne (by decide)) trivial
    | second => exact iff_of_true (day_adds_back hone htwo hne (by decide)) trivial
    | millisecond => exact iff_of_true (day_adds_back hone htwo hne (by decide)) trivial
    | microsecond => exact iff_of_true (day_adds_back hone htwo hne (by decide)) trivial
    | nanosecond => exact iff_of_true (day_adds_back hone htwo hne (by decide)) trivial

/-- from the leap day to 31 December of the next leap year -/
theorem difference_adds_back_leapYears :
    AddsBackDifference ⟨2020, 2, 29⟩ ⟨2024, 12, 31⟩ .year ↔ FollowsOneCut ⟨2020, 2, 29⟩ ⟨2024, 12, 31⟩ .year :=
  difference_adds_back ⟨by decide, by decide⟩ ⟨by decide, by decide⟩ .year

/-- a year, a month and a day after 29 February 2020 it is 30 March 2021, the difference was that to 29 March -/
theorem difference_leapDay_not_back : ¬∀ one two : IsoDate, one.InRange → two.InRange → ∀ largest,
    AddsBackDifference one two largest := by
  intro h
  have hback := (h ⟨2020, 2, 29⟩ ⟨2021, 3, 29⟩ ⟨by decide, by decide⟩ ⟨by decide, by decide⟩ .year).back
  exact absurd hback (by decide)

end Count

/-! ## Days after days -/

section Days

variable {date mid : IsoDate} {a : ℤ}

open IsoDate

/-- days lead to the date they count to, if it is in range -/
theorem addIsoDate_days {target : IsoDate} (h : date.InRange) :
    addIsoDate date 0 0 0 a true = some target ↔ target.InRange ∧ epochDays target = epochDays date + a := by
  have hstart : atMonth (date.monthIndex + 12 * 0 + 0) date.day = date := by
    rw [mul_zero, add_zero, add_zero, atMonth_monthIndex h.valid]
  constructor
  · intro hsome
    have hlimits : |a| ≤ 10 ^ 9 ∧ dateWithinLimits target = true := by
      simp only [addIsoDate, checkedI64, Option.bind_eq_bind, Option.bind_eq_some_iff, Option.ite_none_left_eq_some,
        Option.ite_none_right_eq_some, Option.some.injEq] at hsome
      obtain ⟨-, _, -, total, ⟨_, hweeks, hdays⟩, hmany, hlimits, rfl⟩ := hsome
      exact ⟨abs_le.2 (by have := abs_le.1 (not_lt.1 hmany); omega), hlimits⟩
    obtain ⟨hexists, hsum⟩ := epochDays_of_addIsoDate h.valid (by norm_num) hlimits.1 hsome
    rw [hstart] at hsum
    exact ⟨⟨hexists.valid, hlimits.2⟩, by omega⟩
  · rintro ⟨htarget, hsum⟩
    have hfrom := dateWithinLimits_iff.1 h.limits
    have hto := dateWithinLimits_iff.1 htarget.limits
    have hyear := h.year_range
    have hmonth := (isValidDate_iff.1 h.valid).1
    refine (addIsoDate_eq_some h.valid (by norm_num) (abs_le.2 (by omega)) htarget).2 ⟨?_, abs_le.2 (by omega), by rw [hstart]; omega⟩
    unfold monthIndex
    exact abs_le.2 (by omega)

/-- **Days act on the dates.** After some days, the same days back lead to the date again, and more days lead where all the
days at once do. -/
theorem days_act (h : date.InRange) (hmid : addIsoDate date 0 0 0 a true = some mid) :
    addIsoDate mid 0 0 0 (-a) true = some date ∧
      ∀ b, addIsoDate mid 0 0 0 b true = addIsoDate date 0 0 0 (a + b) true := by
  obtain ⟨hrange, hsum⟩ := (addIsoDate_days h).1 hmid
  refine ⟨(addIsoDate_days hrange).2 ⟨h, by omega⟩, fun b => Option.ext fun target => ?_⟩
  rw [addIsoDate_days hrange, addIsoDate_days h, hsum, add_assoc]

theorem days_act_leap : addIsoDate ⟨2020, 3, 1⟩ 0 0 0 (-1) true = some ⟨2020, 2, 29⟩ :=
  (@days_act ⟨2020, 2, 29⟩ _ 1 ⟨by decide, by decide⟩ (by decide)).1

end Days

end Render.Temporal
