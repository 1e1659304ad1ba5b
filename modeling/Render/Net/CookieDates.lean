/-
Dates of cookies (`parse_cookie_date` in `cookie.rs`).

An instant is written in three ways: as an IMF-fixdate, as RFC 850 did, and as `asctime` does. All three are read back as the
instant (`parseCookieDate_renderings`): the weekday fills no field, every other part fills its own, and `days_from_civil` counts
the days of the calendar (`daysFromCivil_countsDays`).

On any text the parts compete for the fields, and `namedFields` says which win: the first part that is a time, the first other
one with one or two digits in front, the first month, and the first part left with two to four digits. The day is checked against
31 only, so a day past the end of its month is read as one of the next month (`parseCookieDate_iff`).
-/
import Mathlib.Tactic
import Render.Core.Calendar
import Render.Net.Cookie

namespace Render.Net

open Render.Core
open Chars

/-! ## Days -/

theorem daysFromCivil_eq (year month day : ℤ) : daysFromCivil year month day = civilDays year month day := by
  unfold daysFromCivil civilDays daysBeforeMarch daysBeforeMonth
  generalize (if month ≤ 2 then year - 1 else year) = shifted
  dsimp only
  omega

/-- **`days_from_civil` counts days.** -/
theorem daysFromCivil_countsDays : CountsDays fun date => daysFromCivil date.year date.month date.day := by
  simp only [daysFromCivil_eq]
  exact civilDays_countsDays

/-! ## Parts -/

/-- the parts of a text between delimiters -/
def dateTokens (value : Chars) : List Chars := (value.splitOnP isDateDelimiter).filter fun token => !token.isEmpty

/-- a part, without what is around it -/
structure IsWord (word : Chars) : Prop where
  nonempty : word ≠ []
  plain : ∀ c ∈ word, isDateDelimiter c = false

theorem IsWord.kept {word : Chars} (h : IsWord word) : (!word.isEmpty) = true := by
  rw [List.isEmpty_eq_false_iff.2 h.nonempty]
  rfl

theorem dateTokens_delimiter {c : Char} (h : isDateDelimiter c = true) (rest : Chars) : dateTokens (c :: rest) = dateTokens rest := by
  have hsplit := List.splitOnP_append_cons_of_forall_mem (show ∀ x ∈ ([] : Chars), isDateDelimiter x = false by rintro _ ⟨⟩) c h rest
  rw [dateTokens, show c :: rest = [] ++ c :: rest from rfl, hsplit]
  rfl

theorem dateTokens_word {word : Chars} (hword : IsWord word) {c : Char} (h : isDateDelimiter c = true) (rest : Chars) :
    dateTokens (word ++ c :: rest) = word :: dateTokens rest := by
  rw [dateTokens, List.splitOnP_append_cons_of_forall_mem hword.plain c h rest, List.filter_cons, if_pos hword.kept]
  rfl

theorem dateTokens_last {word : Chars} (hword : IsWord word) : dateTokens word = [word] := by
  rw [dateTokens, List.splitOnP_eq_singleton hword.plain, List.filter_cons, if_pos hword.kept]
  rfl

/-! ## Which part fills which field -/

def isTimeToken (token : Chars) : Bool := (parseTimeToken token).isSome

def dayOfToken (token : Chars) : Option ℤ := (leadingNumber token 1 2).map Prod.fst

def yearOfToken (token : Chars) : Option ℤ := (leadingNumber token 2 4).map Prod.fst

def isDayToken (token : Chars) : Bool := (dayOfToken token).isSome

/-- what the parts of a text add to fields: the first time, the first day among the others, the first month, and the first year
among the parts that are left -/
def DateFields.complete (fields : DateFields) (tokens : List Chars) : DateFields :=
  let others := if fields.time.isSome then tokens else tokens.eraseP isTimeToken
  let left := if fields.day.isSome then others else others.eraseP isDayToken
  { time := fields.time.or (tokens.findSome? parseTimeToken)
    day := fields.day.or (others.findSome? dayOfToken)
    month := fields.month.or (tokens.findSome? parseMonthToken)
    year := fields.year.or (left.findSome? yearOfToken) }

/-- the fields that a text names -/
def namedFields (value : Chars) : DateFields := DateFields.complete {} (dateTokens value)

theorem toLower_of_isDigit {c : Char} (h : c.isDigit = true) : c.toLower = c := by
  have hlow : ¬ (c.val ≥ 'A'.val ∧ c.val ≤ 'Z'.val) := by
    rintro ⟨hupper, -⟩
    have hbound : c.val ≤ '9'.val := by simpa [Char.isDigit] using (Bool.and_eq_true_iff.1 h).2
    exact absurd (UInt32.le_trans hupper hbound) (by decide)
  exact dif_neg hlow

theorem months_letters : ∀ name ∈ months, ∃ c rest, name.toAsciiLowercase = c :: rest ∧ c.isDigit = false := by
  have hall : (months.all fun name => (name.toAsciiLowercase.head?).any fun c => !c.isDigit) = true := by decide
  intro name hname
  obtain ⟨c, hhead, hletter⟩ := (Option.any_eq_true _ _).1 (List.all_eq_true.1 hall name hname)
  obtain ⟨rest, hrest⟩ := List.head?_eq_some_iff.1 hhead
  exact ⟨c, rest, hrest, by simpa using hletter⟩

/-- what starts like a month does not start with a digit -/
theorem leadingNumber_of_month {token : Chars} {index : ℤ} (h : parseMonthToken token = some index) {min max : ℕ} (hmin : 1 ≤ min) :
    leadingNumber token min max = none := by
  obtain ⟨i, hfind, -⟩ := Option.bind_eq_some_iff.1 h
  obtain ⟨hi, hsame, -⟩ := List.findIdx?_eq_some_iff_getElem.1 hfind
  obtain ⟨first, rest, hname, hletter⟩ := months_letters _ (List.getElem_mem hi)
  have hlower : Chars.toAsciiLowercase (token.take 3) = first :: rest := (of_decide_eq_true hsame).trans hname
  cases token with
  | nil => cases hlower
  | cons c tail =>
    have hfirst : c.toLower = first := (List.cons.inj hlower).1
    have hdigit : ¬ c.isDigit = true := by
      intro hdigit
      rw [toLower_of_isDigit hdigit] at hfirst
      rw [hfirst, hletter] at hdigit
      cases hdigit
    unfold leadingNumber
    rw [List.takeWhile_cons_of_neg hdigit]
    exact if_pos (Or.inl hmin)

theorem dayOfToken_of_month {token : Chars} {index : ℤ} (h : parseMonthToken token = some index) : dayOfToken token = none := by
  rw [dayOfToken, leadingNumber_of_month h le_rfl]
  rfl

theorem yearOfToken_of_month {token : Chars} {index : ℤ} (h : parseMonthToken token = some index) : yearOfToken token = none := by
  rw [yearOfToken, leadingNumber_of_month h (by decide)]
  rfl

theorem parseTimeToken_of_month {token : Chars} {index : ℤ} (h : parseMonthToken token = some index) :
    parseTimeToken token = none := by
  rw [parseTimeToken, leadingNumber_of_month h le_rfl]
  rfl

/-- a month fills only the month -/
theorem complete_fill_month (fields : DateFields) {token : Chars} {index : ℤ} (h : parseMonthToken token = some index)
    (rest : List Chars) : (fields.fill token).complete rest = fields.complete (token :: rest) := by
  have htime := parseTimeToken_of_month h
  have hday : leadingNumber token 1 2 = none := leadingNumber_of_month h le_rfl
  have hyear : leadingNumber token 2 4 = none := leadingNumber_of_month h (by decide)
  obtain ⟨time, day, month, year⟩ := fields
  cases time <;> cases day <;> cases month <;> cases year <;>
    simp [DateFields.fill, DateFields.complete, isTimeToken, isDayToken, dayOfToken, yearOfToken, h, htime, hday, hyear]

/-- one part -/
theorem complete_fill (fields : DateFields) (token : Chars) (rest : List Chars) :
    (fields.fill token).complete rest = fields.complete (token :: rest) := by
  cases hmonth : parseMonthToken token with
  | some index => exact complete_fill_month fields hmonth rest
  | none =>
    obtain ⟨time, day, month, year⟩ := fields
    cases htime : parseTimeToken token <;> cases hday : leadingNumber token 1 2 <;> cases hyear : leadingNumber token 2 4 <;>
      cases time <;> cases day <;> cases year <;>
      simp [DateFields.fill, DateFields.complete, isTimeToken, isDayToken, dayOfToken, yearOfToken, hmonth, htime, hday, hyear]

/-- **The fields are filled as the parts win them.** -/
theorem foldl_fill (tokens : List Chars) (fields : DateFields) : tokens.foldl DateFields.fill fields = fields.complete tokens := by
  induction tokens generalizing fields with
  | nil =>
    obtain ⟨time, day, month, year⟩ := fields
    simp [DateFields.complete]
  | cons token rest ih => rw [List.foldl_cons, ih, complete_fill]

/-! ## What is read -/

/-- the year that two digits stand for -/
def fullYear (year : ℤ) : ℤ :=
  if 70 ≤ year ∧ year ≤ 99 then year + 1900 else if 0 ≤ year ∧ year ≤ 69 then year + 2000 else year

/-- the checks on the fields of a date: the day is compared with 31 -/
def Admitted (time : ℤ × ℤ × ℤ) (day year : ℤ) : Prop :=
  1 ≤ day ∧ day ≤ 31 ∧ 1601 ≤ fullYear year ∧ time.1 ≤ 23 ∧ time.2.1 ≤ 59 ∧ time.2.2 ≤ 59

/-- the seconds since 1970 -/
def secondsOf (time : ℤ × ℤ × ℤ) (day month year : ℤ) : ℤ :=
  daysFromCivil (fullYear year) month day * 86400 + time.1 * 3600 + time.2.1 * 60 + time.2.2

/-- **What is read.** -/
theorem parseCookieDate_eq_some {value : Chars} {t : ℤ} : parseCookieDate value = some t ↔
    ∃ time day month year, namedFields value = ⟨some time, some day, some month, some year⟩ ∧ Admitted time day year ∧
      t = secondsOf time day month year := by
  have hfields : ((value.splitOnP isDateDelimiter).filter fun token => !token.isEmpty).foldl DateFields.fill {} = namedFields value :=
    foldl_fill _ _
  rw [parseCookieDate, hfields]
  cases hnamed : namedFields value with
  | mk time day month year =>
    cases time with
    | none => simp
    | some time =>
      cases day with
      | none => simp
      | some day =>
        cases month with
        | none => simp
        | some month =>
          cases year with
          | none => simp
          | some year =>
            obtain ⟨hour, minute, second⟩ := time
            have hchecks : ¬ (day < 1 ∨ 31 < day ∨ fullYear year < 1601 ∨ 23 < hour ∨ 59 < minute ∨ 59 < second) ↔
                Admitted (hour, minute, second) day year := by
              dsimp only [Admitted]
              omega
            change (if day < 1 ∨ 31 < day ∨ fullYear year < 1601 ∨ 23 < hour ∨ 59 < minute ∨ 59 < second then none
              else some (secondsOf (hour, minute, second) day month year)) = some t ↔ _
            constructor
            · intro h
              split_ifs at h with hbad
              exact ⟨_, _, _, _, rfl, hchecks.1 hbad, (Option.some.inj h).symm⟩
            · rintro ⟨_, _, _, _, hsame, hadmitted, rfl⟩
              cases hsame
              rw [if_neg (hchecks.2 hadmitted)]

theorem parseMonthToken_range {token : Chars} {index : ℤ} (h : parseMonthToken token = some index) : 1 ≤ index ∧ index ≤ 12 := by
  obtain ⟨i, hfind, hrest⟩ := Option.bind_eq_some_iff.1 h
  obtain ⟨hi, -, -⟩ := List.findIdx?_eq_some_iff_getElem.1 hfind
  have hlength : months.length = 12 := rfl
  split_ifs at hrest
  obtain rfl := Option.some.inj hrest
  omega

theorem namedFields_month {value : Chars} {month : ℤ} (h : (namedFields value).month = some month) : 1 ≤ month ∧ month ≤ 12 := by
  obtain ⟨token, -, htoken⟩ := List.exists_of_findSome?_eq_some h
  exact parseMonthToken_range htoken

/-- a text names a date -/
structure NamesDate (value : Chars) (date : Date) : Prop where
  day : (namedFields value).day = some date.day
  month : (namedFields value).month = some date.month
  year : (namedFields value).year.map fullYear = some date.year

/-- a text that would do as a date, but for a day behind the last one of its month: the 31st of a month with 30 days, the 30th or
31st of February, or the 29th of February in a year that is no leap year -/
def PastMonthEnd (value : Chars) : Prop :=
  ∃ time day month year, namedFields value = ⟨some time, some day, some month, some year⟩ ∧ Admitted time day year ∧
    monthLength (fullYear year) month < day

/-- **Only existing dates are read**, exactly when the day is not behind the end of its month. -/
theorem namesDate_iff (value : Chars) :
    (∀ t, parseCookieDate value = some t → ∃ date, NamesDate value date) ↔ ¬ PastMonthEnd value := by
  constructor
  · rintro h ⟨time, day, month, year, hnamed, hadmitted, hpast⟩
    obtain ⟨date, hday, hmonth, hyear⟩ := h _ (parseCookieDate_eq_some.2 ⟨time, day, month, year, hnamed, hadmitted, rfl⟩)
    rw [hnamed] at hday hmonth hyear
    have hrange := date.day_range.2
    rw [← Option.some.inj hday, ← Option.some.inj hmonth, ← Option.some.inj hyear] at hrange
    exact absurd hrange (not_le.2 hpast)
  · intro hwithin t ht
    obtain ⟨time, day, month, year, hnamed, hadmitted, -⟩ := parseCookieDate_eq_some.1 ht
    have hrange : 1 ≤ day ∧ day ≤ monthLength (fullYear year) month :=
      ⟨hadmitted.1, not_lt.1 fun hpast => hwithin ⟨time, day, month, year, hnamed, hadmitted, hpast⟩⟩
    have hmonth : 1 ≤ month ∧ month ≤ 12 := namedFields_month (by rw [hnamed])
    exact ⟨⟨fullYear year, month, day, hmonth, hrange⟩, by rw [hnamed], by rw [hnamed], by rw [hnamed]; rfl⟩

/-! ## How instants are written -/

/-- a number in decimal digits, with zeros in front up to a width -/
def decimal : ℕ → ℕ → Chars
  | 0, _ => []
  | width + 1, n => decimal width (n / 10) ++ [Nat.digitChar (n % 10)]

/-- the days of the week from 1 January 1970 on -/
def weekdays : List Chars :=
  ["Thursday", "Friday", "Saturday", "Sunday", "Monday", "Tuesday", "Wednesday"].map String.toList

def monthNames : List Chars :=
  ["Jan", "Feb", "Mar", "Apr", "May", "Jun", "Jul", "Aug", "Sep", "Oct", "Nov", "Dec"].map String.toList

section Instant

variable (t : ℤ)

/-- the date of an instant -/
def dateAt : Date := dateOf (t / 86400)

def weekdayAt : Chars := weekdays.getD (t / 86400 % 7).toNat []

def monthNameAt : Chars := monthNames.getD ((dateAt t).month - 1).toNat []

/-- the time of day, as hours, minutes and seconds -/
def clockAt : Chars :=
  decimal 2 (t % 86400 / 3600).toNat ++ ':' :: decimal 2 (t % 3600 / 60).toNat ++ ':' :: decimal 2 (t % 60).toNat

/-- `Sun, 06 Nov 1994 08:49:37 GMT` -/
def imfFixdate : Chars :=
  (weekdayAt t).take 3 ++ ", ".toList ++ decimal 2 (dateAt t).day.toNat ++ ' ' :: monthNameAt t ++
    ' ' :: decimal 4 (dateAt t).year.toNat ++ ' ' :: clockAt t ++ " GMT".toList

/-- `Sunday, 06-Nov-94 08:49:37 GMT` -/
def rfc850Date : Chars :=
  weekdayAt t ++ ", ".toList ++ decimal 2 (dateAt t).day.toNat ++ '-' :: monthNameAt t ++
    '-' :: decimal 2 ((dateAt t).year % 100).toNat ++ ' ' :: clockAt t ++ " GMT".toList

/-- `Sun Nov  6 08:49:37 1994` -/
def asctimeDate : Chars :=
  (weekdayAt t).take 3 ++ ' ' :: monthNameAt t ++
    ' ' :: (if (dateAt t).day < 10 then ' ' :: decimal 1 (dateAt t).day.toNat else decimal 2 (dateAt t).day.toNat) ++
    ' ' :: clockAt t ++ ' ' :: decimal 4 (dateAt t).year.toNat

end Instant

example : imfFixdate 2678461 = "Sun, 01 Feb 1970 00:01:01 GMT".toList := by decide +kernel

example : rfc850Date 2678461 = "Sunday, 01-Feb-70 00:01:01 GMT".toList := by decide +kernel

example : asctimeDate 2678461 = "Sun Feb  1 00:01:01 1970".toList := by decide +kernel

/-! ### Numbers -/

theorem mem_decimal {width n : ℕ} {c : Char} (h : c ∈ decimal width n) : ∃ k < 10, c = Nat.digitChar k := by
  induction width generalizing n with
  | zero => cases h
  | succ width ih =>
    rcases List.mem_append.1 h with h | h
    · exact ih h
    · exact ⟨n % 10, Nat.mod_lt n (by norm_num), List.mem_singleton.1 h⟩

theorem isDigit_of_mem_decimal {width n : ℕ} {c : Char} (h : c ∈ decimal width n) : c.isDigit = true := by
  obtain ⟨k, hk, rfl⟩ := mem_decimal h
  have hall : ∀ k < 10, (Nat.digitChar k).isDigit = true := by decide
  exact hall k hk

theorem length_decimal (width n : ℕ) : (decimal width n).length = width := by
  induction width generalizing n with
  | zero => rfl
  | succ width ih => rw [decimal, List.length_append, ih, List.length_singleton]

theorem isWord_decimal (width n : ℕ) : IsWord (decimal (width + 1) n) where
  nonempty := by
    intro hnil
    have hlength := length_decimal (width + 1) n
    rw [hnil] at hlength
    cases hlength
  plain c hc := by
    obtain ⟨k, hk, rfl⟩ := mem_decimal hc
    have hall : ∀ k < 10, isDateDelimiter (Nat.digitChar k) = false := by decide
    exact hall k hk

theorem digits_decimal {width n : ℕ} (h : n < 10 ^ (width + 1)) : digits (decimal (width + 1) n) = some n := by
  have hvalue : ∀ k < 10, (Nat.digitChar k).toNat - '0'.toNat = k := by decide
  have hfold : ∀ width n : ℕ, (decimal width n).foldl (fun n c => n * 10 + (c.toNat - '0'.toNat)) 0 = n % 10 ^ width := by
    intro width
    induction width with
    | zero => intro n; rw [Nat.pow_zero, Nat.mod_one]; rfl
    | succ width ih =>
      intro n
      rw [decimal, List.foldl_append, ih]
      have hlast := hvalue (n % 10) (Nat.mod_lt n (by norm_num))
      calc n / 10 % 10 ^ width * 10 + ((Nat.digitChar (n % 10)).toNat - '0'.toNat)
          = n % 10 + 10 * (n / 10 % 10 ^ width) := by rw [hlast]; ring
        _ = n % (10 * 10 ^ width) := (Nat.mod_mul).symm
        _ = n % 10 ^ (width + 1) := by rw [Nat.pow_succ, Nat.mul_comm]
  cases hdecimal : decimal (width + 1) n with
  | nil => exact absurd hdecimal (isWord_decimal width n).nonempty
  | cons c rest =>
    have hall : (c :: rest).all Char.isDigit = true := by
      rw [← hdecimal]
      exact List.all_eq_true.2 fun c hc => isDigit_of_mem_decimal hc
    rw [digits, if_pos hall, ← hdecimal, hfold, Nat.mod_eq_of_lt h]
    exact List.cons_ne_nil c rest

theorem takeWhile_decimal (width n : ℕ) {rest : Chars} (hrest : ∀ c ∈ rest.head?, c.isDigit = false) :
    (decimal width n ++ rest).takeWhile Char.isDigit = decimal width n := by
  rw [List.takeWhile_append_of_pos fun c hc => isDigit_of_mem_decimal hc]
  cases rest with
  | nil => exact List.append_nil _
  | cons c rest =>
    have hstop := hrest c rfl
    rw [List.takeWhile_cons_of_neg (by rw [hstop]; exact Bool.false_ne_true), List.append_nil]

theorem leadingNumber_decimal {width n min max : ℕ} {rest : Chars} (hrest : ∀ c ∈ rest.head?, c.isDigit = false)
    (h : n < 10 ^ (width + 1)) (hmin : min ≤ width + 1) (hmax : width + 1 ≤ max) :
    leadingNumber (decimal (width + 1) n ++ rest) min max = some ((n : ℤ), rest) := by
  have hrange : ¬ (width + 1 < min ∨ max < width + 1) := by omega
  rw [leadingNumber, takeWhile_decimal _ _ hrest, length_decimal]
  rw [if_neg hrange, digits_decimal h, List.drop_left' (length_decimal _ _)]
  rfl

/-! ### The parts of an instant -/

/-- a part that fills no field -/
structure Inert (token : Chars) : Prop where
  word : IsWord token
  time : parseTimeToken token = none
  day : dayOfToken token = none
  month : parseMonthToken token = none
  year : yearOfToken token = none

theorem isWord_iff (token : Chars) : (token ≠ [] ∧ (token.all fun c => !isDateDelimiter c) = true) ↔ IsWord token := by
  simp only [List.all_eq_true, Bool.not_eq_true']
  exact ⟨fun h => ⟨h.1, h.2⟩, fun h => ⟨h.nonempty, h.plain⟩⟩

instance (token : Chars) : Decidable (IsWord token) := decidable_of_iff _ (isWord_iff token)

theorem inert_iff (token : Chars) : (IsWord token ∧ parseTimeToken token = none ∧ dayOfToken token = none ∧
    parseMonthToken token = none ∧ yearOfToken token = none) ↔ Inert token := by
  constructor
  · rintro ⟨hword, htime, hday, hmonth, hyear⟩
    exact ⟨hword, htime, hday, hmonth, hyear⟩
  · intro h
    exact ⟨h.word, h.time, h.day, h.month, h.year⟩

instance (token : Chars) : Decidable (Inert token) := decidable_of_iff _ (inert_iff token)

/-- what the parser makes of the names that dates are written with -/
theorem names_computed : (∀ name ∈ weekdays, Inert name ∧ Inert (name.take 3)) ∧ Inert "GMT".toList ∧
    ∀ i < 12, IsWord (monthNames.getD i []) ∧ parseMonthToken (monthNames.getD i []) = some ((i : ℤ) + 1) := by
  decide +kernel

theorem inert_weekdays (name : Chars) (h : name ∈ weekdays) : Inert name ∧ Inert (name.take 3) := names_computed.1 name h

theorem inert_gmt : Inert "GMT".toList := names_computed.2.1

theorem weekdayAt_mem (t : ℤ) : weekdayAt t ∈ weekdays := by
  have hall : ∀ i < 7, weekdays.getD i [] ∈ weekdays := by decide
  exact hall _ (by omega)

theorem monthNameAt_spec (t : ℤ) : IsWord (monthNameAt t) ∧ parseMonthToken (monthNameAt t) = some (dateAt t).month := by
  obtain ⟨hfirst, hlast⟩ := (dateAt t).month_range
  obtain ⟨hword, hmonth⟩ := names_computed.2.2 ((dateAt t).month - 1).toNat (by omega)
  refine ⟨hword, ?_⟩
  have hindex : (((dateAt t).month - 1).toNat : ℤ) + 1 = (dateAt t).month := by omega
  rw [monthNameAt, hmonth, hindex]

theorem leadingNumber_rest {text rest : Chars} {min max : ℕ} {n : ℤ} (h : leadingNumber text min max = some (n, rest)) :
    rest = text.drop (text.takeWhile Char.isDigit).length := by
  rw [leadingNumber] at h
  split_ifs at h
  obtain ⟨m, -, hpair⟩ := Option.map_eq_some_iff.1 h
  exact (Prod.mk.inj hpair).2.symm

/-- a number without more is no time -/
theorem parseTimeToken_decimal (width n : ℕ) : parseTimeToken (decimal width n) = none := by
  cases hlead : leadingNumber (decimal width n) 1 2 with
  | none =>
    rw [parseTimeToken, hlead]
    rfl
  | some part =>
    obtain ⟨number, rest⟩ := part
    have hwhole : (decimal width n ++ []).takeWhile Char.isDigit = decimal width n :=
      takeWhile_decimal width n (by rintro _ ⟨⟩)
    rw [List.append_nil] at hwhole
    obtain rfl : rest = [] := by
      rw [leadingNumber_rest hlead, hwhole, List.drop_length]
    rw [parseTimeToken, hlead]
    rfl

theorem leadingNumber_whole {width n min max : ℕ} (h : n < 10 ^ (width + 1)) (hmin : min ≤ width + 1) (hmax : width + 1 ≤ max) :
    leadingNumber (decimal (width + 1) n) min max = some ((n : ℤ), []) := by
  have hlead : leadingNumber (decimal (width + 1) n ++ []) min max = some ((n : ℤ), []) :=
    leadingNumber_decimal (by rintro _ ⟨⟩) h hmin hmax
  rwa [List.append_nil] at hlead

theorem dayOfToken_decimal (width : ℕ) {n : ℕ} (h : n < 10 ^ (width + 1)) (hwidth : width + 1 ≤ 2) :
    dayOfToken (decimal (width + 1) n) = some (n : ℤ) := by
  rw [dayOfToken, leadingNumber_whole h (by omega) hwidth]
  rfl

theorem yearOfToken_decimal (width : ℕ) {n : ℕ} (h : n < 10 ^ (width + 1)) (hwidth : 2 ≤ width + 1) (hwidth' : width + 1 ≤ 4) :
    yearOfToken (decimal (width + 1) n) = some (n : ℤ) := by
  rw [yearOfToken, leadingNumber_whole h hwidth hwidth']
  rfl

/-- what starts with digits is no month -/
theorem parseMonthToken_of_leading {token : Chars} {part : ℤ × Chars} {min max : ℕ} (hmin : 1 ≤ min)
    (h : leadingNumber token min max = some part) : parseMonthToken token = none := by
  cases hmonth : parseMonthToken token with
  | none => rfl
  | some index =>
    rw [leadingNumber_of_month hmonth hmin] at h
    cases h

theorem parseMonthToken_decimal (width : ℕ) {n : ℕ} (h : n < 10 ^ (width + 1)) : parseMonthToken (decimal (width + 1) n) = none :=
  parseMonthToken_of_leading (Nat.le_add_left 1 width) (leadingNumber_whole h le_rfl le_rfl)

section Instant

variable (t : ℤ)

/-- the time of day -/
def timeAt : ℤ × ℤ × ℤ := (t % 86400 / 3600, t % 3600 / 60, t % 60)

theorem isWord_clockAt : IsWord (clockAt t) where
  nonempty := by simp [clockAt]
  plain c hc := by
    simp only [clockAt, List.append_assoc, List.cons_append, List.mem_append, List.mem_cons] at hc
    rcases hc with hc | rfl | hc | rfl | hc
    · exact (isWord_decimal 1 _).plain c hc
    · decide
    · exact (isWord_decimal 1 _).plain c hc
    · decide
    · exact (isWord_decimal 1 _).plain c hc

theorem parseTimeToken_clockAt : parseTimeToken (clockAt t) = some (timeAt t) := by
  have hcolon : ∀ (rest : Chars), ∀ c ∈ (':' :: rest).head?, c.isDigit = false := by
    rintro rest c ⟨⟩
    decide
  have hlead : ∀ (n : ℕ) (rest : Chars), n < 10 ^ 2 →
      leadingNumber (decimal 2 n ++ ':' :: rest) 1 2 = some ((n : ℤ), ':' :: rest) := fun n rest hn =>
    leadingNumber_decimal (hcolon rest) hn (by norm_num) le_rfl
  have hhour := hlead (t % 86400 / 3600).toNat (decimal 2 (t % 3600 / 60).toNat ++ ':' :: decimal 2 (t % 60).toNat) (by omega)
  have hminute := hlead (t % 3600 / 60).toNat (decimal 2 (t % 60).toNat) (by omega)
  have hsecond : leadingNumber (decimal 2 (t % 60).toNat) 1 2 = some (((t % 60).toNat : ℤ), []) :=
    leadingNumber_whole (by norm_num; omega) (by norm_num) le_rfl
  have hstrip : ∀ rest : Chars, Chars.stripPrefix (':' :: rest) [':'] = some rest := fun rest => rfl
  have hcast : ∀ n : ℤ, 0 ≤ n → ((n.toNat : ℕ) : ℤ) = n := fun n hn => Int.toNat_of_nonneg hn
  rw [parseTimeToken, clockAt, List.append_assoc, List.cons_append, hhour, Option.bind_eq_bind, Option.bind_some]
  dsimp only
  rw [hstrip, Option.bind_eq_bind, Option.bind_some, hminute, Option.bind_some]
  dsimp only
  rw [hstrip, Option.bind_some, hsecond, Option.bind_some, timeAt, hcast _ (by omega), hcast _ (by omega), hcast _ (by omega)]
  rfl

theorem tokens_imfFixdate : dateTokens (imfFixdate t) =
    [(weekdayAt t).take 3, decimal 2 (dateAt t).day.toNat, monthNameAt t, decimal 4 (dateAt t).year.toNat, clockAt t, "GMT".toList] := by
  have hday := (inert_weekdays _ (weekdayAt_mem t)).2.word
  unfold imfFixdate
  rw [show ", ".toList = [',', ' '] from rfl, show " GMT".toList = ' ' :: "GMT".toList from rfl]
  simp only [List.append_assoc, List.cons_append, List.nil_append]
  rw [dateTokens_word hday rfl, dateTokens_delimiter rfl, dateTokens_word (isWord_decimal 1 _) rfl,
    dateTokens_word (monthNameAt_spec t).1 rfl, dateTokens_word (isWord_decimal 3 _) rfl,
    dateTokens_word (isWord_clockAt t) rfl, dateTokens_last inert_gmt.word]

theorem tokens_rfc850Date : dateTokens (rfc850Date t) =
    [weekdayAt t, decimal 2 (dateAt t).day.toNat, monthNameAt t, decimal 2 ((dateAt t).year % 100).toNat, clockAt t, "GMT".toList] := by
  have hday := (inert_weekdays _ (weekdayAt_mem t)).1.word
  unfold rfc850Date
  rw [show ", ".toList = [',', ' '] from rfl, show " GMT".toList = ' ' :: "GMT".toList from rfl]
  simp only [List.append_assoc, List.cons_append, List.nil_append]
  rw [dateTokens_word hday rfl, dateTokens_delimiter rfl, dateTokens_word (isWord_decimal 1 _) rfl,
    dateTokens_word (monthNameAt_spec t).1 rfl, dateTokens_word (isWord_decimal 1 _) rfl,
    dateTokens_word (isWord_clockAt t) rfl, dateTokens_last inert_gmt.word]

/-- the day as `asctime` writes it -/
def shortDay : Chars :=
  if (dateAt t).day < 10 then decimal 1 (dateAt t).day.toNat else decimal 2 (dateAt t).day.toNat

theorem tokens_asctimeDate : dateTokens (asctimeDate t) =
    [(weekdayAt t).take 3, monthNameAt t, shortDay t, clockAt t, decimal 4 (dateAt t).year.toNat] := by
  have hday := (inert_weekdays _ (weekdayAt_mem t)).2.word
  unfold asctimeDate shortDay
  simp only [List.append_assoc, List.cons_append]
  rw [dateTokens_word hday rfl, dateTokens_word (monthNameAt_spec t).1 rfl]
  split_ifs
  · rw [List.cons_append, dateTokens_delimiter rfl, dateTokens_word (isWord_decimal 0 _) rfl, dateTokens_word (isWord_clockAt t) rfl,
      dateTokens_last (isWord_decimal 3 _)]
  · rw [dateTokens_word (isWord_decimal 1 _) rfl, dateTokens_word (isWord_clockAt t) rfl, dateTokens_last (isWord_decimal 3 _)]

end Instant

/-! ## Reading instants back -/

section Order

variable {weekday day month year clock last : Chars} {time : ℤ × ℤ × ℤ} {dayNumber monthNumber yearNumber : ℤ}
  (hweekday : Inert weekday) (htime : parseTimeToken day = none) (hday : dayOfToken day = some dayNumber)
  (hplain : parseMonthToken day = none) (hmonth : parseMonthToken month = some monthNumber)
  (hyear : parseTimeToken year = none) (hyearNumber : yearOfToken year = some yearNumber)
  (hclock : parseTimeToken clock = some time)

include hweekday htime hday hplain hmonth hyear hyearNumber hclock

theorem complete_dayFirst : DateFields.complete {} [weekday, day, month, year, clock, last] =
    ⟨some time, some dayNumber, some monthNumber, some yearNumber⟩ := by
  have hmonthTime := parseTimeToken_of_month hmonth
  have hmonthDay := dayOfToken_of_month hmonth
  have hmonthYear := yearOfToken_of_month hmonth
  simp [DateFields.complete, isTimeToken, isDayToken, hweekday.time, hweekday.day, hweekday.month, hweekday.year, htime, hday,
    hplain, hmonth, hyear, hyearNumber, hclock, hmonthTime, hmonthYear]

omit hplain hyear in
theorem complete_monthFirst : DateFields.complete {} [weekday, month, day, clock, year] =
    ⟨some time, some dayNumber, some monthNumber, some yearNumber⟩ := by
  have hmonthTime := parseTimeToken_of_month hmonth
  have hmonthDay := dayOfToken_of_month hmonth
  have hmonthYear := yearOfToken_of_month hmonth
  simp [DateFields.complete, isTimeToken, isDayToken, hweekday.time, hweekday.day, hweekday.month, hweekday.year, htime, hday,
    hmonth, hyearNumber, hclock, hmonthTime, hmonthDay, hmonthYear]

end Order

section Instant

variable {t : ℤ}

/-- the fields of an instant are read as the instant -/
theorem parseCookieDate_of_named {value : Chars} (year : ℤ) (hnamed : namedFields value =
    ⟨some (timeAt t), some (dateAt t).day, some (dateAt t).month, some year⟩) (hyear : fullYear year = (dateAt t).year)
    (hfirst : 1601 ≤ (dateAt t).year) : parseCookieDate value = some t := by
  have hday := (dateAt t).day_range
  have hlength := monthLength_le (dateAt t).year (dateAt t).month
  have hdays : daysFromCivil (dateAt t).year (dateAt t).month (dateAt t).day = t / 86400 :=
    daysFromCivil_countsDays.dateOf (t / 86400)
  refine parseCookieDate_eq_some.2 ⟨_, _, _, _, hnamed, ?_, ?_⟩
  · refine ⟨hday.1, hday.2.trans hlength, hyear ▸ hfirst, ?_, ?_, ?_⟩ <;> dsimp only [timeAt] <;> omega
  · rw [secondsOf, hyear, hdays]
    dsimp only [timeAt]
    omega

theorem fullYear_long {year : ℤ} (h : 1601 ≤ year) : fullYear year = year := by
  unfold fullYear
  split_ifs <;> omega

theorem fullYear_short {year : ℤ} (h : 1970 ≤ year) (h' : year ≤ 2069) : fullYear (year % 100) = year := by
  unfold fullYear
  split_ifs <;> omega

theorem dayOfToken_dateAt : dayOfToken (decimal 2 (dateAt t).day.toNat) = some (dateAt t).day := by
  have hday := (dateAt t).day_range
  have hlength := monthLength_le (dateAt t).year (dateAt t).month
  rw [dayOfToken_decimal 1 (by norm_num; omega) le_rfl, Int.toNat_of_nonneg (by omega)]

theorem parseMonthToken_dateAt : parseMonthToken (decimal 2 (dateAt t).day.toNat) = none := by
  have hday := (dateAt t).day_range
  have hlength := monthLength_le (dateAt t).year (dateAt t).month
  exact parseMonthToken_decimal 1 (by norm_num; omega)

theorem yearOfToken_dateAt (h : 0 ≤ (dateAt t).year) (h' : (dateAt t).year ≤ 9999) :
    yearOfToken (decimal 4 (dateAt t).year.toNat) = some (dateAt t).year := by
  rw [yearOfToken_decimal 3 (by norm_num; omega) (by norm_num) le_rfl, Int.toNat_of_nonneg h]

/-- **An IMF-fixdate is read as its instant.** -/
theorem parseCookieDate_imfFixdate (h : 1601 ≤ (dateAt t).year) (h' : (dateAt t).year ≤ 9999) :
    parseCookieDate (imfFixdate t) = some t := by
  refine parseCookieDate_of_named (dateAt t).year ?_ (fullYear_long h) h
  rw [namedFields, tokens_imfFixdate]
  exact complete_dayFirst (inert_weekdays _ (weekdayAt_mem t)).2 (parseTimeToken_decimal 2 _) dayOfToken_dateAt
    parseMonthToken_dateAt (monthNameAt_spec t).2 (parseTimeToken_decimal 4 _) (yearOfToken_dateAt (by omega) h')
    (parseTimeToken_clockAt t)

/-- **So is a date as RFC 850 wrote it**, in the hundred years that its two digits stand for. -/
theorem parseCookieDate_rfc850Date (h : 1970 ≤ (dateAt t).year) (h' : (dateAt t).year ≤ 2069) :
    parseCookieDate (rfc850Date t) = some t := by
  have hyear : yearOfToken (decimal 2 ((dateAt t).year % 100).toNat) = some ((dateAt t).year % 100) := by
    rw [yearOfToken_decimal 1 (by norm_num; omega) le_rfl (by norm_num), Int.toNat_of_nonneg (by omega)]
  refine parseCookieDate_of_named ((dateAt t).year % 100) ?_ (fullYear_short h h') (by omega)
  rw [namedFields, tokens_rfc850Date]
  exact complete_dayFirst (inert_weekdays _ (weekdayAt_mem t)).1 (parseTimeToken_decimal 2 _) dayOfToken_dateAt
    parseMonthToken_dateAt (monthNameAt_spec t).2 (parseTimeToken_decimal 2 _) hyear (parseTimeToken_clockAt t)

/-- **And so is a date of `asctime`.** -/
theorem parseCookieDate_asctimeDate (h : 1601 ≤ (dateAt t).year) (h' : (dateAt t).year ≤ 9999) :
    parseCookieDate (asctimeDate t) = some t := by
  have hshort : parseTimeToken (shortDay t) = none ∧ dayOfToken (shortDay t) = some (dateAt t).day := by
    have hday := (dateAt t).day_range
    unfold shortDay
    split_ifs
    · refine ⟨parseTimeToken_decimal 1 _, ?_⟩
      rw [dayOfToken_decimal 0 (by norm_num; omega) (by norm_num), Int.toNat_of_nonneg (by omega)]
    · exact ⟨parseTimeToken_decimal 2 _, dayOfToken_dateAt⟩
  refine parseCookieDate_of_named (dateAt t).year ?_ (fullYear_long h) h
  rw [namedFields, tokens_asctimeDate]
  exact complete_monthFirst (inert_weekdays _ (weekdayAt_mem t)).2 hshort.1 hshort.2 (monthNameAt_spec t).2
    (yearOfToken_dateAt (by omega) h') (parseTimeToken_clockAt t)

end Instant

/-- **The dates of cookies.** Every instant of the years 1601 to 9999 is read back from its IMF-fixdate and from its `asctime`
form, and those of 1970 to 2069 from the form of RFC 850. A text is read only as a date that exists, exactly when its day is
not behind the end of its month. -/
theorem parseCookieDate_iff (value : Chars) :
    (∀ t, 1601 ≤ (dateAt t).year → (dateAt t).year ≤ 9999 →
      parseCookieDate (imfFixdate t) = some t ∧ parseCookieDate (asctimeDate t) = some t) ∧
    (∀ t, 1970 ≤ (dateAt t).year → (dateAt t).year ≤ 2069 → parseCookieDate (rfc850Date t) = some t) ∧
    ((∀ t, parseCookieDate value = some t → ∃ date, NamesDate value date) ↔ ¬ PastMonthEnd value) :=
  ⟨fun _ h h' => ⟨parseCookieDate_imfFixdate h h', parseCookieDate_asctimeDate h h'⟩,
    fun _ h h' => parseCookieDate_rfc850Date h h', namesDate_iff value⟩

/-- an instant of February 1970, and a text that is no date -/
theorem parseCookieDate_iff_sample : parseCookieDate (imfFixdate 2678461) = some 2678461 ∧
    parseCookieDate (rfc850Date 2678461) = some 2678461 ∧
    ∀ t, parseCookieDate "yesterday".toList = some t → ∃ date, NamesDate "yesterday".toList date := by
  obtain ⟨hlong, hshort, hexists⟩ := parseCookieDate_iff "yesterday".toList
  refine ⟨(hlong 2678461 (by decide +kernel) (by decide +kernel)).1, hshort 2678461 (by decide +kernel) (by decide +kernel), ?_⟩
  have hnone : (namedFields "yesterday".toList).time = none := by decide +kernel
  refine hexists.2 ?_
  rintro ⟨time, day, month, year, hnamed, -⟩
  rw [hnamed] at hnone
  cases hnone

/-- the 31st of April is read, as the first of May -/
theorem parseCookieDate_april : ¬ ∀ value t, parseCookieDate value = some t → ∃ date, NamesDate value date := by
  intro h
  have hread : parseCookieDate "Wed, 31 Apr 2024 00:00:00 GMT".toList = some 1714521600 := by decide +kernel
  have hnamed : (namedFields "Wed, 31 Apr 2024 00:00:00 GMT".toList).day = some 31 ∧
      (namedFields "Wed, 31 Apr 2024 00:00:00 GMT".toList).month = some 4 := by decide +kernel
  obtain ⟨date, hday, hmonth, -⟩ := h _ _ hread
  rw [hnamed.1, Option.some.injEq] at hday
  rw [hnamed.2, Option.some.injEq] at hmonth
  have hrange := date.day_range.2
  rw [← hday, ← hmonth, monthLength] at hrange
  norm_num at hrange

end Render.Net
