/-
How dates, times, instants and durations are written, and that they are read back (`temporal/format.rs`, and
`instant_from_text` and `duration_from_string`).

Each number is written with a fixed width, or up to a character that is not a digit, so the parsers find it again. A fraction is
written without its last zeros, and reading pads it with them (`texts_read_back`).
-/
import Mathlib.Data.List.DropRight
import Render.Temporal.Duration
import Render.Temporal.DurationText

namespace Render.Temporal

open Render.Net Render.Core

/-! ## Writing -/

/-- how many digits of a second are written -/
inductive Precision where
  | auto
  | minute
  | digits (count : ℕ)
deriving DecidableEq, Repr

/-- a number with zeros in front up to a width -/
def padded (width n : ℕ) : Chars := List.replicate (width - (Nat.toDigits 10 n).length) '0' ++ Nat.toDigits 10 n

def yearText (year : ℤ) : Chars :=
  if 0 ≤ year ∧ year ≤ 9999 then padded 4 year.toNat else (if year < 0 then '-' else '+') :: padded 6 year.natAbs

def dateText (date : IsoDate) : Chars :=
  yearText date.year ++ '-' :: padded 2 date.month.toNat ++ '-' :: padded 2 date.day.toNat

def fractionText (subSecond : ℕ) (precision : Precision) : Chars :=
  match precision with
  | .minute | .digits 0 => []
  | .digits count => '.' :: (padded 9 subSecond).take count
  | .auto =>
    let trimmed := (padded 9 subSecond).rdropWhile (· = '0')
    if trimmed = [] then [] else '.' :: trimmed

def timeText (time : IsoTime) (precision : Precision) : Chars :=
  let text := padded 2 time.hour ++ ':' :: padded 2 time.minute
  if precision = .minute then text
  else
    text ++ ':' :: padded 2 time.second ++
      fractionText (time.millisecond * 1000000 + time.microsecond * 1000 + time.nanosecond) precision

/-- the time of day, `nanos` into a day -/
def timeFromNanos (nanos : ℤ) : IsoTime :=
  let ofHour := nanos % 3600000000000
  let ofMinute := ofHour % 60000000000
  let ofSecond := ofMinute % 1000000000
  let ofMillisecond := ofSecond % 1000000
  { hour := (nanos / 3600000000000).toNat
    minute := (ofHour / 60000000000).toNat
    second := (ofMinute / 1000000000).toNat
    millisecond := (ofSecond / 1000000).toNat
    microsecond := (ofMillisecond / 1000).toNat
    nanosecond := (ofMillisecond % 1000).toNat }

/-- `time_nanos` of a time of day -/
def IsoTime.nanos (time : IsoTime) : ℤ :=
  time.hour * 3600000000000 + time.minute * 60000000000 + time.second * 1000000000 + time.millisecond * 1000000 +
    time.microsecond * 1000 + time.nanosecond

/-- `datetime_from_epoch_nanos` -/
def datetimeFromEpochNanos (nanos : ℤ) : IsoDate × IsoTime :=
  (dateFromEpochDays (nanos / nanosPerDay), timeFromNanos (nanos % nanosPerDay))

/-- `datetime_epoch_nanos` -/
def datetimeEpochNanos (date : IsoDate) (time : IsoTime) : ℤ := epochDays date * nanosPerDay + time.nanos

/-- an instant read in UTC -/
def instantText (epochNanos : ℤ) (precision : Precision) : Chars :=
  let (date, time) := datetimeFromEpochNanos epochNanos
  dateText date ++ 'T' :: timeText time precision ++ ['Z']

/-- a component that is not zero -/
def componentText (value : ℕ) (designator : Char) : Chars :=
  if value ≠ 0 then Nat.toDigits 10 value ++ [designator] else []

/-- the years to days of a duration text -/
def datePart (fields : List ℕ) : Chars :=
  componentText (fields.getD 0 0) 'Y' ++ componentText (fields.getD 1 0) 'M' ++ componentText (fields.getD 2 0) 'W' ++
    componentText (fields.getD 3 0) 'D'

/-- the seconds and smaller fields in nanoseconds -/
def subSecondNanos (fields : List ℕ) : ℕ :=
  fields.getD 6 0 * 1000000000 + fields.getD 7 0 * 1000000 + fields.getD 8 0 * 1000 + fields.getD 9 0

/-- the hours to seconds of a duration text -/
def timePart (fields : List ℕ) (precision : Precision) : Chars :=
  let wholeSeconds := subSecondNanos fields / 1000000000
  let fractionNanos := subSecondNanos fields % 1000000000
  let showSeconds := precision ≠ .minute ∧ (wholeSeconds ≠ 0 ∨ fractionNanos ≠ 0 ∨ precision ≠ .auto)
  componentText (fields.getD 4 0) 'H' ++ componentText (fields.getD 5 0) 'M' ++
    if showSeconds then Nat.toDigits 10 wholeSeconds ++ fractionText fractionNanos precision ++ ['S'] else []

/-- the text of ten fields without signs -/
def durationText (fields : List ℕ) (negative : Bool) (precision : Precision) : Chars :=
  if datePart fields = [] ∧ timePart fields precision = [] then "PT0S".toList
  else
    (if negative then ['-'] else []) ++ 'P' :: datePart fields ++
      if timePart fields precision = [] then [] else 'T' :: timePart fields precision

/-! ## Reading -/

/-- `instant_within_limits` -/
def instantWithinLimits (nanos : ℤ) : Bool := |nanos| ≤ 100000000 * nanosPerDay

/-- the instant that a text names, or the text of the RangeError -/
def instantFromText (text : Chars) : Except String ℤ :=
  match parseInstant text with
  | none => .error "invalid ISO instant string"
  | some parsed =>
    if parsed.calendar.any (· ≠ "iso8601".toList) then .error "only the iso8601 calendar is supported"
    else
      match parsed.time with
      | none => .error "an instant needs a time"
      | some time =>
        if !isValidDate parsed.date.year parsed.date.month parsed.date.day then .error "the instant's date does not exist"
        else
          let nanos := datetimeEpochNanos parsed.date time - parsed.offset.getD 0
          if !instantWithinLimits nanos then .error "Temporal.Instant is outside the representable range"
          else .ok nanos

/-- the loop that carries a fraction into the smaller fields -/
def carryInto : List ℕ → List ℤ → ℤ → List ℤ
  | [], exact, _ => exact
  | slot :: slots, exact, rest =>
    let nanos := fieldNanos.getD slot 1
    carryInto slots (exact.modify slot (· + rest / nanos)) (rest % nanos)

/-- one turn of the loop of `duration_from_string` -/
def takeSlot (exact : List ℤ) (slot : ℕ × Option Component) : Except String (List ℤ) :=
  match slot with
  | (_, none) => .ok exact
  | (index, some component) =>
    let exact := exact.set index component.whole
    if component.fraction = [] then .ok exact
    else if index < 4 then .error "only a time component may have a fraction"
    else
      let rest := number component.fraction * fieldNanos.getD index 0 / 10 ^ component.fraction.length
      .ok (carryInto (List.range' (index + 1) (9 - index)) exact rest)

/-- the slots of `duration_from_string` -/
def slots (parsed : ParsedDuration) : List (ℕ × Option Component) :=
  [(0, parsed.years), (1, parsed.months), (2, parsed.weeks), (3, parsed.days), (4, parsed.hours), (5, parsed.minutes),
    (6, parsed.seconds)]

def durationFromString (parsed : ParsedDuration) : Except String DurationRecord := do
  let exact ← (slots parsed).foldlM takeSlot (List.replicate 10 0)
  let sign : ℤ := if parsed.negative then -1 else 1
  let fields := exact.map fun value => asF64 (sign * value)
  if isValid fields then .ok (.fromArray fields) else .error outOfRange

example : durationText [1, 0, 0, 2, 3, 0, 0, 0, 0, 0] true .auto = "-P1Y2DT3H".toList := by decide

example : timeText ⟨1, 2, 3, 500, 0, 0⟩ .auto = "01:02:03.5".toList := by decide

/-! ## Numbers -/

section Numbers

variable {text rest digits : Chars} {width n : ℕ}

private theorem number_loop (text : Chars) (start : ℕ) :
    text.foldl (fun value c => value * 10 + (c.toNat - '0'.toNat)) start = start * 10 ^ text.length + number text := by
  induction text generalizing start with
  | nil => simp [number]
  | cons c text ih =>
    have hone : number (c :: text) = (c.toNat - '0'.toNat) * 10 ^ text.length + number text := by
      unfold number
      rw [List.foldl_cons, ih, zero_mul, zero_add]
      rfl
    rw [List.foldl_cons, ih, hone, List.length_cons]
    ring

theorem number_append (text rest : Chars) : number (text ++ rest) = number text * 10 ^ rest.length + number rest := by
  unfold number
  rw [List.foldl_append, number_loop]
  rfl

theorem number_replicate (width : ℕ) : number (List.replicate width '0') = 0 := by
  induction width with
  | zero => rfl
  | succ width ih =>
    rw [List.replicate_succ', number_append, ih]
    rfl

theorem number_toDigits (n : ℕ) : number (Nat.toDigits 10 n) = n := by
  have hvalue : Nat.ofDigitChars 10 (Nat.toDigits 10 n) 0 = n := Nat.ofDigitChars_ten_toDigits
  rw [Nat.ofDigitChars_eq_foldl] at hvalue
  simpa only [number, Nat.mul_comm] using hvalue

theorem isDigits_toDigits (n : ℕ) : IsDigits (Nat.toDigits 10 n) :=
  ⟨Nat.toDigits_ne_nil, fun _ hc => Nat.isDigit_of_mem_toDigits (by decide) (by decide) hc⟩

theorem number_padded (width n : ℕ) : number (padded width n) = n := by
  rw [padded, number_append, number_replicate, zero_mul, zero_add, number_toDigits]

theorem isDigits_padded (width n : ℕ) : IsDigits (padded width n) := by
  constructor
  · exact fun hnil => Nat.toDigits_ne_nil (List.append_eq_nil_iff.1 hnil).2
  · intro c hc
    obtain hc | hc := List.mem_append.1 hc
    · rw [List.eq_of_mem_replicate hc]
      rfl
    · exact (isDigits_toDigits n).2 c hc

theorem length_padded (hwidth : 0 < width) (h : n < 10 ^ width) : (padded width n).length = width := by
  have hlength := (Nat.length_toDigits_le_iff (by decide : 1 < 10) hwidth).2 h
  rw [padded, List.length_append, List.length_replicate]
  omega

/-- a number is read back by its width -/
theorem digits_padded (hwidth : 0 < width) (h : n < 10 ^ width) (rest : Chars) :
    Cursor.digits width (padded width n ++ rest) = some (n, rest) := by
  have hlength := length_padded hwidth h
  have hdigits : (padded width n).all Char.isDigit = true := List.all_eq_true.2 (isDigits_padded width n).2
  unfold Cursor.digits
  rw [List.take_left' hlength, List.drop_left' hlength, if_pos ⟨hlength, hdigits⟩, number_padded]

/-! ## Fractions -/

/-- a fraction without its last zeros -/
def trimmed (n : ℕ) : Chars := (padded 9 n).rdropWhile (· = '0')

theorem trimmed_append (n : ℕ) : ∃ zeros, trimmed n ++ List.replicate zeros '0' = padded 9 n := by
  refine ⟨((padded 9 n).rtakeWhile (· = '0')).length, ?_⟩
  have hzeros : (padded 9 n).rtakeWhile (· = '0') = List.replicate ((padded 9 n).rtakeWhile (· = '0')).length '0' := by
    refine List.eq_replicate_length.2 fun c hc => ?_
    simpa using List.mem_rtakeWhile_imp hc
  rw [← hzeros]
  exact List.rdropWhile_append_rtakeWhile

/-- a fraction, padded to nine places -/
theorem fractionNanos_append {zeros : ℕ} (h : (digits ++ List.replicate zeros '0').length = 9) :
    Cursor.fractionNanos digits = number (digits ++ List.replicate zeros '0') := by
  have hplaces : ∀ count, count ≤ 9 → (List.range count).foldl
      (fun value index => value * 10 + (digits[index]?.elim 0 fun c => c.toNat - '0'.toNat)) 0 =
      number ((digits ++ List.replicate zeros '0').take count) := by
    intro count hcount
    induction count with
    | zero => rfl
    | succ count ih =>
      have hindex : count < (digits ++ List.replicate zeros '0').length := by omega
      have hdigit : (digits[count]?.elim 0 fun c => c.toNat - '0'.toNat) =
          (digits ++ List.replicate zeros '0')[count].toNat - '0'.toNat := by
        by_cases hinside : count < digits.length
        · rw [List.getElem?_eq_getElem hinside, List.getElem_append_left hinside]
          rfl
        · rw [List.getElem?_eq_none (by omega), List.getElem_append_right (by omega), List.getElem_replicate]
          rfl
      rw [List.range_succ, List.foldl_append, ih (by omega), List.take_succ_eq_append_getElem hindex, number_append,
        List.foldl_cons, List.foldl_nil, hdigit]
      simp [number]
  have hall := hplaces 9 le_rfl
  rw [List.take_of_length_le (by omega)] at hall
  exact hall

/-- what is written behind the point is read back -/
theorem fractionNanos_trimmed (h : n < 10 ^ 9) : Cursor.fractionNanos (trimmed n) = n := by
  obtain ⟨zeros, happend⟩ := trimmed_append n
  rw [fractionNanos_append (by rw [happend, length_padded (by norm_num) h]), happend, number_padded]

theorem isDigits_trimmed (hne : trimmed n ≠ []) : IsDigits (trimmed n) := by
  obtain ⟨zeros, happend⟩ := trimmed_append n
  exact ⟨hne, fun c hc => (isDigits_padded 9 n).2 c (happend ▸ List.mem_append_left _ hc)⟩

theorem length_trimmed (h : n < 10 ^ 9) : (trimmed n).length ≤ 9 := by
  obtain ⟨zeros, happend⟩ := trimmed_append n
  have hlength := congrArg List.length happend
  rw [List.length_append, length_padded (by norm_num) h] at hlength
  omega

/-- the digits behind the point are as many billionths -/
theorem number_trimmed (h : n < 10 ^ 9) : number (trimmed n) * 1000000000 / 10 ^ (trimmed n).length = n := by
  obtain ⟨zeros, happend⟩ := trimmed_append n
  have hlength := congrArg List.length happend
  have hvalue := congrArg number happend
  rw [number_append, number_replicate, number_padded, List.length_replicate, add_zero] at hvalue
  rw [List.length_append, List.length_replicate, length_padded (by norm_num) h] at hlength
  have hbillion : (1000000000 : ℕ) = 10 ^ zeros * 10 ^ (trimmed n).length := by
    rw [← pow_add, add_comm, hlength]
    rfl
  rw [hbillion, ← mul_assoc, hvalue, Nat.mul_div_cancel _ (by positivity)]

/-- there is nothing behind the point of a whole number -/
theorem trimmed_eq_nil_iff (h : n < 10 ^ 9) : trimmed n = [] ↔ n = 0 := by
  constructor
  · intro hnil
    have hvalue := number_trimmed h
    rw [hnil] at hvalue
    exact hvalue.symm
  · rintro rfl
    rfl

theorem fractionText_auto (n : ℕ) : fractionText n .auto = if trimmed n = [] then [] else '.' :: trimmed n := rfl

end Numbers

/-! ## Dates and times -/

section DateTimes

variable {date : IsoDate} {time : IsoTime} {rest : Chars} {year : ℤ}

open Cursor

theorem sign_not_digit {c : Char} (h : c.isDigit = true) : ¬(c = '+' ∨ c = '-') := by
  rintro (rfl | rfl) <;> revert h <;> decide

/-- a year of four digits, or a sign and six -/
theorem parseYear_yearText (hlow : -999999 ≤ year) (hhigh : year ≤ 999999) :
    parseYear (yearText year ++ rest) = some (year, rest) := by
  unfold yearText
  split_ifs with hfour hneg
  · obtain ⟨c, digits, hdigits⟩ := List.exists_cons_of_ne_nil (isDigits_padded 4 year.toNat).1
    have hdigit : c.isDigit = true := (isDigits_padded 4 year.toNat).2 c (hdigits ▸ List.mem_cons_self ..)
    have hread := digits_padded (show 0 < 4 by norm_num) (show year.toNat < 10 ^ 4 by omega) rest
    have hyear : (year.toNat : ℤ) = year := by omega
    rw [hdigits, List.cons_append] at hread ⊢
    unfold parseYear
    dsimp only
    rw [if_neg (sign_not_digit hdigit), hread]
    simp [hyear]
  · have hread := digits_padded (show 0 < 6 by norm_num) (show year.natAbs < 10 ^ 6 by omega) rest
    have hyear : -|year| = year := by rw [abs_of_neg hneg, neg_neg]
    have hnonzero : ¬('-' = '-' ∧ year.natAbs = 0) := fun h => by omega
    rw [List.cons_append]
    unfold parseYear
    dsimp only
    rw [if_pos (.inr rfl), hread]
    simp [hyear, hneg.ne]
  · have hread := digits_padded (show 0 < 6 by norm_num) (show year.natAbs < 10 ^ 6 by omega) rest
    have hyear : |year| = year := abs_of_nonneg (not_lt.1 hneg)
    rw [List.cons_append]
    unfold parseYear
    dsimp only
    rw [if_pos (.inl rfl), hread]
    simp [hyear]

theorem parseDate_dateText (h : isValidDate date.year date.month date.day = true) (hlow : -999999 ≤ date.year)
    (hhigh : date.year ≤ 999999) : parseDate (dateText date ++ rest) = some (date, rest) := by
  obtain ⟨⟨hmonth, hmonth'⟩, hday, hday'⟩ := isValidDate_iff.1 h
  have hlength := monthLength_le date.year date.month
  have hreadMonth := digits_padded (show 0 < 2 by norm_num) (show date.month.toNat < 10 ^ 2 by omega)
    ('-' :: padded 2 date.day.toNat ++ rest)
  have hreadDay := digits_padded (show 0 < 2 by norm_num) (show date.day.toNat < 10 ^ 2 by omega) rest
  have hsplit : dateText date ++ rest = yearText date.year ++ ('-' :: (padded 2 date.month.toNat ++
      ('-' :: padded 2 date.day.toNat ++ rest))) := by simp [dateText]
  have hfields : (date.month.toNat : ℤ) = date.month ∧ (date.day.toNat : ℤ) = date.day := by omega
  have hranges : 1 ≤ date.month.toNat ∧ date.month.toNat ≤ 12 ∧ 1 ≤ date.day.toNat ∧ date.day.toNat ≤ 31 := by omega
  have heat : ∀ behind, eatOneOf ['-'] ('-' :: behind) = some behind := fun behind => eatOneOf_cons (List.mem_singleton_self _)
  unfold parseDate
  rw [hsplit, parseYear_yearText hlow hhigh]
  simp only [Option.bind_eq_bind, Option.bind_some, heat, Option.getD_some, Option.isSome_some, if_true]
  rw [hreadMonth]
  simp only [Option.bind_some, List.cons_append, heat]
  rw [hreadDay, Option.bind_some, if_pos hranges]
  simp only [hfields.1, hfields.2]

/-- a time of day -/
structure IsoTime.Valid (time : IsoTime) : Prop where
  clock : time.hour < 24 ∧ time.minute < 60 ∧ time.second < 60
  fraction : time.millisecond < 1000 ∧ time.microsecond < 1000 ∧ time.nanosecond < 1000

/-- no part of a time follows -/
def EndsTime (rest : Chars) : Prop := ∀ c ∈ rest.head?, c.isDigit = false ∧ c ∉ ['.', ',']

/-- the minutes, the seconds and a fraction -/
theorem parseMinutes_text {minute second nanos : ℕ} (hminute : minute < 100) (hsecond : second < 100) (hnanos : nanos < 10 ^ 9)
    (hrest : EndsTime rest) : parseMinutes (':' :: (padded 2 minute ++ (':' :: (padded 2 second ++
      (fractionText nanos .auto ++ rest))))) = some ((minute, second, nanos), rest) := by
  have heat : ∀ behind, eatOneOf [':'] (':' :: behind) = some behind := fun behind => eatOneOf_cons (List.mem_singleton_self _)
  unfold parseMinutes
  simp only [heat, Option.isSome_some, true_or, if_true, Option.getD_some]
  rw [digits_padded (by norm_num) hminute]
  simp only [Option.bind_eq_bind, Option.bind_some, heat]
  rw [digits_padded (by norm_num) hsecond]
  simp only [Option.bind_some]
  rw [fractionText_auto]
  split_ifs with hnil
  · have hnone : eatOneOf ['.', ','] rest = none := eatOneOf_none fun c hc => (hrest c hc).2
    rw [List.nil_append, hnone, (trimmed_eq_nil_iff hnanos).1 hnil]
  · have hsome : eatOneOf ['.', ','] ('.' :: trimmed nanos ++ rest) = some (trimmed nanos ++ rest) :=
      eatOneOf_cons (List.mem_cons_self ..)
    rw [hsome]
    dsimp only
    rw [fractionDigits_append (isDigits_trimmed hnil) (length_trimmed hnanos) fun c hc => (hrest c hc).1]
    simp only [Option.bind_some, fractionNanos_trimmed hnanos]

theorem parseTime_timeText (h : time.Valid) (hrest : EndsTime rest) :
    parseTime (timeText time .auto ++ rest) = some (time, rest) := by
  obtain ⟨⟨hhour, hminute, hsecond⟩, hmilli, hmicro, hnano⟩ := h
  have hsub : time.millisecond * 1000000 + time.microsecond * 1000 + time.nanosecond < 10 ^ 9 := by omega
  generalize hnanos : time.millisecond * 1000000 + time.microsecond * 1000 + time.nanosecond = nanos at hsub
  have hsplit : timeText time .auto ++ rest = padded 2 time.hour ++ (':' :: (padded 2 time.minute ++ (':' ::
      (padded 2 time.second ++ (fractionText nanos .auto ++ rest))))) := by
    rw [← hnanos]
    simp [timeText]
  unfold parseTime
  rw [hsplit, digits_padded (by norm_num) (show time.hour < 10 ^ 2 by omega)]
  simp only [Option.bind_eq_bind, Option.bind_some]
  rw [parseMinutes_text (by omega) (by omega) hsub hrest]
  simp only [Option.bind_some]
  rw [if_neg (by omega), min_eq_left (by omega)]
  have hfields : nanos / 1000000 = time.millisecond ∧ nanos / 1000 % 1000 = time.microsecond ∧
      nanos % 1000 = time.nanosecond := by omega
  rw [hfields.1, hfields.2.1, hfields.2.2]

theorem parseAnnotations_nil : parseAnnotations [] = some ((none, false), []) := rfl

/-- a date and a time are read back -/
theorem parseDateTime_text (h : isValidDate date.year date.month date.day = true) (hlow : -999999 ≤ date.year)
    (hhigh : date.year ≤ 999999) (htime : time.Valid) : parseDateTime (dateText date ++ 'T' :: timeText time .auto) =
      some ⟨date, some time, none, false, none, false⟩ := by
  have htimeText : parseTime (timeText time .auto ++ []) = _ := parseTime_timeText htime (by rintro c ⟨⟩)
  rw [List.append_nil] at htimeText
  have heat : eatOneOf ['T', 't', ' '] ('T' :: timeText time .auto) = some (timeText time .auto) :=
    eatOneOf_cons (List.mem_cons_self ..)
  unfold parseDateTime
  rw [parseDate_dateText h hlow hhigh]
  simp only [Option.bind_eq_bind, Option.bind_some, heat, htimeText, true_or, if_true, parseAnnotations_nil]

/-- an instant is read in UTC -/
theorem parseInstant_text (h : isValidDate date.year date.month date.day = true) (hlow : -999999 ≤ date.year)
    (hhigh : date.year ≤ 999999) (htime : time.Valid) : parseInstant (dateText date ++ 'T' :: timeText time .auto ++ ['Z']) =
      some ⟨date, some time, some 0, true, none, false⟩ := by
  have htimeText : parseTime (timeText time .auto ++ ['Z']) = _ := parseTime_timeText htime (by rintro c ⟨⟩; decide)
  have heat : eatOneOf ['T', 't', ' '] ('T' :: (timeText time .auto ++ ['Z'])) = some (timeText time .auto ++ ['Z']) :=
    eatOneOf_cons (List.mem_cons_self ..)
  have hoffset : parseOffset ['Z'] = some ((0, true), []) := rfl
  have hnotEnd : ¬(['Z'] = [] ∨ ['Z'].head? = some '[') := by decide
  unfold parseInstant parseDateTime
  rw [List.append_assoc, List.cons_append, parseDate_dateText h hlow hhigh]
  simp only [Option.bind_eq_bind, Option.bind_some, heat, htimeText, if_neg hnotEnd, hoffset, parseAnnotations_nil, if_true,
    Option.isSome_some, and_self]

end DateTimes

/-! ## Instants -/

section Instants

variable {nanos : ℤ}

theorem timeFromNanos_valid (h : 0 ≤ nanos) (h' : nanos < nanosPerDay) :
    (timeFromNanos nanos).Valid ∧ (timeFromNanos nanos).nanos = nanos := by
  unfold nanosPerDay at h'
  have hparts : ∀ rest size : ℤ, 0 ≤ rest → 0 < size → ((rest / size).toNat : ℤ) * size + rest % size = rest ∧
      0 ≤ rest % size ∧ rest % size < size := by
    intro rest size hrest hsize
    have hsplit := Int.mul_ediv_add_emod rest size
    rw [Int.toNat_of_nonneg (Int.ediv_nonneg hrest hsize.le)]
    exact ⟨by linear_combination hsplit, Int.emod_nonneg rest hsize.ne', Int.emod_lt_of_pos rest hsize⟩
  -- each part is a quotient, and the next one is taken from its rest
  obtain ⟨hhour, hofHour, hofHour'⟩ := hparts nanos 3600000000000 h (by norm_num)
  obtain ⟨hminute, hofMinute, hofMinute'⟩ := hparts _ 60000000000 hofHour (by norm_num)
  obtain ⟨hsecond, hofSecond, hofSecond'⟩ := hparts _ 1000000000 hofMinute (by norm_num)
  obtain ⟨hmilli, hofMilli, hofMilli'⟩ := hparts _ 1000000 hofSecond (by norm_num)
  obtain ⟨hmicro, hofMicro, hofMicro'⟩ := hparts _ 1000 hofMilli (by norm_num)
  have hnano := Int.toNat_of_nonneg hofMicro
  refine ⟨⟨⟨?_, ?_, ?_⟩, ?_, ?_, ?_⟩, ?_⟩ <;> simp only [timeFromNanos, IsoTime.nanos] <;> linarith

/-- an instant is read back -/
theorem instantFromText_instantText (h : instantWithinLimits nanos = true) :
    instantFromText (instantText nanos .auto) = .ok nanos := by
  have hlimit := abs_le.1 (of_decide_eq_true h)
  have hrest := Int.emod_nonneg nanos (show nanosPerDay ≠ 0 by decide)
  have hrest' := Int.emod_lt_of_pos nanos (show 0 < nanosPerDay by decide)
  have hsplit := Int.mul_ediv_add_emod nanos nanosPerDay
  have hdays : -100000000 ≤ nanos / nanosPerDay ∧ nanos / nanosPerDay ≤ 100000000 := by
    unfold nanosPerDay at *
    omega
  have hfirst := firstDay_le
  have hexists : (dateFromEpochDays (nanos / nanosPerDay)).Exists := exists_dateFromEpochDays (by omega) (by omega)
  have hepoch : epochDays (dateFromEpochDays (nanos / nanosPerDay)) = nanos / nanosPerDay :=
    epochDays_dateFromEpochDays (by omega) (by omega)
  have hrange := IsoDate.InRange.year_range ⟨hexists.valid, dateWithinLimits_iff.2 (by omega)⟩
  obtain ⟨htime, hnanos⟩ := timeFromNanos_valid hrest hrest'
  have hparse := parseInstant_text hexists.valid hrange.1 hrange.2 htime
  have htext : instantText nanos .auto = dateText (dateFromEpochDays (nanos / nanosPerDay)) ++
      'T' :: timeText (timeFromNanos (nanos % nanosPerDay)) .auto ++ ['Z'] := rfl
  have hlocal : datetimeEpochNanos (dateFromEpochDays (nanos / nanosPerDay)) (timeFromNanos (nanos % nanosPerDay)) -
      (some (0 : ℤ)).getD 0 = nanos := by
    rw [datetimeEpochNanos, hepoch, hnanos, Option.getD_some]
    linear_combination hsplit
  unfold instantFromText
  rw [htext, hparse]
  simp only [Option.any_none, Bool.false_eq_true, if_false, hexists.valid, Bool.not_true, hlocal, h]

end Instants

/-! ## Durations -/

section Durations

open Designator

/-- a component that is written if it is not zero -/
def nonzeroComponent (value : ℕ) (designator : Designator) : List Written :=
  if value ≠ 0 then [⟨designator, Nat.toDigits 10 value, none, designator.letter⟩] else []

/-- whole seconds and billionths -/
def secondsComponent (whole fraction : ℕ) : Written :=
  ⟨.seconds, Nat.toDigits 10 whole, if trimmed fraction = [] then none else some ('.', trimmed fraction), 'S'⟩

variable (fields : List ℕ)

def dateComponents : List Written :=
  nonzeroComponent (fields.getD 0 0) .years ++ nonzeroComponent (fields.getD 1 0) .months ++
    nonzeroComponent (fields.getD 2 0) .weeks ++ nonzeroComponent (fields.getD 3 0) .days

def timeComponents : List Written :=
  nonzeroComponent (fields.getD 4 0) .hours ++ nonzeroComponent (fields.getD 5 0) .minutes ++
    if subSecondNanos fields ≠ 0 then
      [secondsComponent (subSecondNanos fields / 1000000000) (subSecondNanos fields % 1000000000)]
    else []

/-- the text that `duration_text` writes, by its components -/
def writtenDuration (negative : Bool) : WrittenDuration :=
  if dateComponents fields = [] ∧ timeComponents fields = [] then ⟨none, 'P', [], some ('T', [secondsComponent 0 0])⟩
  else
    ⟨if negative then some '-' else none, 'P', dateComponents fields,
      if timeComponents fields = [] then none else some ('T', timeComponents fields)⟩

variable {fields}

theorem spelled_append (components others : List Written) :
    spelled (components ++ others) = spelled components ++ spelled others := List.flatMap_append

theorem spelled_nonzeroComponent (value : ℕ) (designator : Designator) :
    spelled (nonzeroComponent value designator) = componentText value designator.letter := by
  unfold nonzeroComponent componentText
  split_ifs <;> simp [spelled, Written.spelling]

theorem spelled_dateComponents : spelled (dateComponents fields) = datePart fields := by
  unfold dateComponents datePart
  rw [spelled_append, spelled_append, spelled_append, spelled_nonzeroComponent, spelled_nonzeroComponent,
    spelled_nonzeroComponent, spelled_nonzeroComponent]
  rfl

theorem spelled_secondsComponent (whole fraction : ℕ) : spelled [secondsComponent whole fraction] =
    Nat.toDigits 10 whole ++ fractionText fraction .auto ++ ['S'] := by
  rw [fractionText_auto]
  unfold secondsComponent
  split_ifs <;> simp [spelled, Written.spelling]

theorem spelled_timeComponents : spelled (timeComponents fields) = timePart fields .auto := by
  have hshow : (subSecondNanos fields / 1000000000 ≠ 0 ∨ subSecondNanos fields % 1000000000 ≠ 0) ↔
      subSecondNanos fields ≠ 0 := by omega
  unfold timeComponents timePart
  rw [spelled_append, spelled_append, spelled_nonzeroComponent, spelled_nonzeroComponent]
  simp only [ne_eq, reduceCtorEq, not_false_eq_true, true_and, not_true_eq_false, or_false]
  simp only [← ne_eq, hshow]
  split_ifs
  · rw [spelled_secondsComponent]
    rfl
  · rfl

theorem toUpper_letter (designator : Designator) : designator.letter.toUpper = designator.letter := by cases designator <;> decide

theorem mem_nonzeroComponent {value : ℕ} {designator : Designator} {component : Written}
    (h : component ∈ nonzeroComponent value designator) : component.WellFormed ∧ component.designator = designator ∧
      component.fraction = none ∧ number component.whole = value := by
  unfold nonzeroComponent at h
  split_ifs at h
  · obtain rfl := List.mem_singleton.1 h
    exact ⟨⟨isDigits_toDigits value, by rintro _ _ ⟨⟩, toUpper_letter designator⟩, rfl, rfl, number_toDigits value⟩
  · cases h

theorem wellFormed_secondsComponent {whole fraction : ℕ} (h : fraction < 10 ^ 9) :
    (secondsComponent whole fraction).WellFormed := by
  refine ⟨isDigits_toDigits whole, ?_, rfl⟩
  intro separator digits hfraction
  unfold secondsComponent at hfraction
  dsimp only at hfraction
  split_ifs at hfraction with hnil
  obtain ⟨rfl, rfl⟩ := Prod.mk.inj (Option.some.inj hfraction)
  exact ⟨.inl rfl, isDigits_trimmed hnil, length_trimmed h⟩

/-- a component of the date is one of its four -/
theorem mem_dateComponents {component : Written} (h : component ∈ dateComponents fields) : component.WellFormed ∧
    component.designator.isTime = false ∧ component.fraction = none ∧
    ∃ index < 4, number component.whole = fields.getD index 0 := by
  simp only [dateComponents, List.mem_append] at h
  obtain ((h | h) | h) | h := h
  · obtain ⟨hwell, hdesignator, hnone, hvalue⟩ := mem_nonzeroComponent h
    exact ⟨hwell, by rw [hdesignator]; rfl, hnone, 0, by norm_num, hvalue⟩
  · obtain ⟨hwell, hdesignator, hnone, hvalue⟩ := mem_nonzeroComponent h
    exact ⟨hwell, by rw [hdesignator]; rfl, hnone, 1, by norm_num, hvalue⟩
  · obtain ⟨hwell, hdesignator, hnone, hvalue⟩ := mem_nonzeroComponent h
    exact ⟨hwell, by rw [hdesignator]; rfl, hnone, 2, by norm_num, hvalue⟩
  · obtain ⟨hwell, hdesignator, hnone, hvalue⟩ := mem_nonzeroComponent h
    exact ⟨hwell, by rw [hdesignator]; rfl, hnone, 3, by norm_num, hvalue⟩

/-- a component of hours or minutes -/
theorem mem_clockComponents {component : Written}
    (h : component ∈ nonzeroComponent (fields.getD 4 0) .hours ++ nonzeroComponent (fields.getD 5 0) .minutes) :
    component.WellFormed ∧ component.designator.isTime = true ∧ component.fraction = none ∧
      (number component.whole = fields.getD 4 0 ∨ number component.whole = fields.getD 5 0) := by
  obtain h | h := List.mem_append.1 h
  · obtain ⟨hwell, hdesignator, hnone, hvalue⟩ := mem_nonzeroComponent h
    exact ⟨hwell, by rw [hdesignator]; rfl, hnone, .inl hvalue⟩
  · obtain ⟨hwell, hdesignator, hnone, hvalue⟩ := mem_nonzeroComponent h
    exact ⟨hwell, by rw [hdesignator]; rfl, hnone, .inr hvalue⟩

theorem mem_timeComponents {component : Written} (h : component ∈ timeComponents fields) : component.WellFormed ∧
    component.designator.isTime = true ∧ (number component.whole = fields.getD 4 0 ∨
      number component.whole = fields.getD 5 0 ∨ number component.whole = subSecondNanos fields / 1000000000) := by
  obtain h | h := List.mem_append.1 h
  · obtain ⟨hwell, htime, -, hvalue⟩ := mem_clockComponents h
    exact ⟨hwell, htime, hvalue.imp_right .inl⟩
  · split_ifs at h
    · obtain rfl := List.mem_singleton.1 h
      exact ⟨wellFormed_secondsComponent (by omega), rfl, .inr (.inr (number_toDigits _))⟩
    · cases h

theorem fraction_timeComponents {component : Written} (h : component ∈ (timeComponents fields).dropLast) :
    component.fraction = none := by
  unfold timeComponents at h
  split_ifs at h
  · rw [List.dropLast_concat] at h
    exact (mem_clockComponents h).2.2.1
  · rw [List.append_nil] at h
    exact (mem_clockComponents (List.mem_of_mem_dropLast h)).2.2.1

theorem spelled_eq_nil {components : List Written} (h : ∀ component ∈ components, component.WellFormed) :
    spelled components = [] ↔ components = [] := by
  cases components with
  | nil => exact iff_of_true rfl rfl
  | cons component components =>
    obtain ⟨c, rest, hspelling, -⟩ := (h component (List.mem_cons_self ..)).head
    rw [spelled_cons, hspelling]
    simp

theorem datePart_eq_nil : datePart fields = [] ↔ dateComponents fields = [] := by
  rw [← spelled_dateComponents, spelled_eq_nil fun component hmem => (mem_dateComponents hmem).1]

theorem timePart_eq_nil : timePart fields .auto = [] ↔ timeComponents fields = [] := by
  rw [← spelled_timeComponents, spelled_eq_nil fun component hmem => (mem_timeComponents hmem).1]

/-- the text is that of the components -/
theorem text_writtenDuration (negative : Bool) : durationText fields negative .auto = (writtenDuration fields negative).text := by
  unfold durationText writtenDuration
  simp only [datePart_eq_nil, timePart_eq_nil]
  split_ifs with hzero
  · rfl
  all_goals simp [WrittenDuration.text, spelled_dateComponents, spelled_timeComponents]

/-- the time components of a written duration -/
theorem timeComponents_eq (sign : Option Char) : WrittenDuration.timeComponents ⟨sign, 'P', dateComponents fields,
    if timeComponents fields = [] then none else some ('T', timeComponents fields)⟩ = timeComponents fields := by
  unfold WrittenDuration.timeComponents
  dsimp only
  split_ifs with hnil
  · exact hnil.symm
  · rfl

theorem loose_components {sign : Option Char} (hsign : ∀ c, sign = some c → c = '+' ∨ c = '-')
    (hsome : ¬(dateComponents fields = [] ∧ timeComponents fields = [])) : WrittenDuration.Loose ⟨sign, 'P',
      dateComponents fields, if timeComponents fields = [] then none else some ('T', timeComponents fields)⟩ := by
  refine ⟨hsign, .inl rfl, ?_, ?_, fun component hmem => ?_, ?_, ?_, ?_⟩
  · intro c components htime
    dsimp only at htime
    split_ifs at htime with hnil
    obtain ⟨rfl, rfl⟩ := Prod.mk.inj (Option.some.inj htime)
    exact ⟨.inl rfl, hnil⟩
  · rw [WrittenDuration.components, timeComponents_eq]
    intro component hmem
    obtain hmem | hmem := List.mem_append.1 hmem
    · exact (mem_dateComponents hmem).1
    · exact (mem_timeComponents hmem).1
  · obtain ⟨-, hdate, hnone, -⟩ := mem_dateComponents hmem
    exact ⟨hdate, hnone⟩
  · rw [timeComponents_eq]
    exact fun component hmem => (mem_timeComponents hmem).2.1
  · rw [timeComponents_eq]
    exact fun component hmem => fraction_timeComponents hmem
  · rw [WrittenDuration.components, timeComponents_eq]
    exact fun hnil => hsome (List.append_eq_nil_iff.1 hnil)

/-- the text is that of the zero seconds, or that of the components -/
theorem writtenDuration_cases (fields : List ℕ) (negative : Bool) :
    (dateComponents fields = [] ∧ timeComponents fields = []) ∧
      writtenDuration fields negative = ⟨none, 'P', [], some ('T', [secondsComponent 0 0])⟩ ∨
    ¬(dateComponents fields = [] ∧ timeComponents fields = []) ∧
      writtenDuration fields negative = ⟨if negative then some '-' else none, 'P', dateComponents fields,
        if timeComponents fields = [] then none else some ('T', timeComponents fields)⟩ := by
  by_cases hnone : dateComponents fields = [] ∧ timeComponents fields = []
  · exact .inl ⟨hnone, if_pos hnone⟩
  · exact .inr ⟨hnone, if_neg hnone⟩

theorem loose_writtenDuration (negative : Bool) : (writtenDuration fields negative).Loose := by
  have hzero : (secondsComponent 0 0).WellFormed := wellFormed_secondsComponent (by norm_num)
  obtain ⟨-, hwritten⟩ | ⟨hsome, hwritten⟩ := writtenDuration_cases fields negative <;> rw [hwritten]
  · exact ⟨by simp, .inl rfl, by simp, by simpa [WrittenDuration.components, WrittenDuration.timeComponents] using hzero,
      by simp, by simp [WrittenDuration.timeComponents, secondsComponent, Designator.isTime, Designator.rank],
      by simp [WrittenDuration.timeComponents], by simp [WrittenDuration.components, WrittenDuration.timeComponents]⟩
  · refine loose_components (fun c hc => ?_) hsome
    split_ifs at hc
    exact .inr (Option.some.inj hc).symm

/-- the numbers of the text fit if the fields do -/
theorem fits_writtenDuration (negative : Bool) (h : ∀ index < 6, fields.getD index 0 < 2 ^ 127)
    (hseconds : subSecondNanos fields / 1000000000 < 2 ^ 127) : (writtenDuration fields negative).Fits := by
  unfold WrittenDuration.Fits
  obtain ⟨-, hwritten⟩ | ⟨-, hwritten⟩ := writtenDuration_cases fields negative <;> rw [hwritten]
  · intro component hmem
    obtain rfl : component = secondsComponent 0 0 := by
      simpa [WrittenDuration.components, WrittenDuration.timeComponents] using hmem
    decide
  · rw [WrittenDuration.components, timeComponents_eq]
    intro component hmem
    obtain hmem | hmem := List.mem_append.1 hmem
    · obtain ⟨-, -, -, index, hindex, hvalue⟩ := mem_dateComponents hmem
      rw [hvalue]
      exact h index (by omega)
    · obtain ⟨-, -, hvalue | hvalue | hvalue⟩ := mem_timeComponents hmem <;> rw [hvalue]
      · exact h 4 (by norm_num)
      · exact h 5 (by norm_num)
      · exact hseconds

/-! ### What is read back -/

/-- a component of a number that is not zero -/
def nonzero (value : ℕ) : Option Component := if value ≠ 0 then some ⟨value, []⟩ else none

theorem nonzeroComponent_eq_nil {value : ℕ} {designator : Designator} : nonzeroComponent value designator = [] ↔ value = 0 := by
  by_cases h : value = 0 <;> simp [nonzeroComponent, h]

/-- setting the component of a number that is not zero -/
theorem get_nonzeroComponent (parsed : ParsedDuration) (value : ℕ) (designator other : Designator) :
    ((nonzeroComponent value designator).foldl
      (fun parsed component => parsed.set component.designator component.component) parsed).get other =
      if designator = other then (nonzero value).or (parsed.get other) else parsed.get other := by
  unfold nonzeroComponent nonzero
  split_ifs with hvalue hsame hsame
  · simp [Written.component, Written.fractionText, number_toDigits, get_set, hsame]
  · simp [get_set, hsame]
  · rfl
  · rfl

theorem component_secondsComponent (whole fraction : ℕ) :
    (secondsComponent whole fraction).component = ⟨whole, trimmed fraction⟩ := by
  unfold secondsComponent Written.component Written.fractionText
  split_ifs with hnil <;> simp [number_toDigits, hnil]

/-- the components that are read back -/
structure ReadBack (fields : List ℕ) (negative : Bool) (parsed : ParsedDuration) : Prop where
  years : parsed.years = nonzero (fields.getD 0 0)
  months : parsed.months = nonzero (fields.getD 1 0)
  weeks : parsed.weeks = nonzero (fields.getD 2 0)
  days : parsed.days = nonzero (fields.getD 3 0)
  hours : parsed.hours = nonzero (fields.getD 4 0)
  minutes : parsed.minutes = nonzero (fields.getD 5 0)
  seconds : parsed.seconds = some ⟨(subSecondNanos fields / 1000000000 : ℕ), trimmed (subSecondNanos fields % 1000000000)⟩ ∨
    parsed.seconds = none ∧ subSecondNanos fields = 0
  negative : parsed.negative = negative ∨ (∀ index < 6, fields.getD index 0 = 0) ∧ subSecondNanos fields = 0

/-- the component of a designator in the written text -/
def readComponent (fields : List ℕ) : Designator → Option Component
  | .years => nonzero (fields.getD 0 0)
  | .months => nonzero (fields.getD 1 0)
  | .weeks => nonzero (fields.getD 2 0)
  | .days => nonzero (fields.getD 3 0)
  | .hours => nonzero (fields.getD 4 0)
  | .minutes => nonzero (fields.getD 5 0)
  | .seconds =>
    if subSecondNanos fields ≠ 0 then
      some (secondsComponent (subSecondNanos fields / 1000000000) (subSecondNanos fields % 1000000000)).component
    else none

theorem readBack_writtenDuration (negative : Bool) : ReadBack fields negative (writtenDuration fields negative).result := by
  unfold WrittenDuration.result
  obtain ⟨⟨hdate, htime⟩, hwritten⟩ | ⟨-, hwritten⟩ := writtenDuration_cases fields negative <;> rw [hwritten]
  · have hzero : (∀ index < 6, fields.getD index 0 = 0) ∧ subSecondNanos fields = 0 := by
      simp only [dateComponents, timeComponents, List.append_eq_nil_iff, nonzeroComponent_eq_nil] at hdate htime
      obtain ⟨⟨⟨hyears, hmonths⟩, hweeks⟩, hdays⟩ := hdate
      obtain ⟨⟨hhours, hminutes⟩, hseconds⟩ := htime
      refine ⟨fun index hindex => ?_, ?_⟩
      · interval_cases index <;> assumption
      · by_contra hsome
        rw [if_pos hsome] at hseconds
        cases hseconds
    have hnone : ∀ index < 6, none = nonzero (fields.getD index 0) := fun index hindex => by rw [hzero.1 index hindex]; rfl
    refine ⟨hnone 0 (by norm_num), hnone 1 (by norm_num), hnone 2 (by norm_num), hnone 3 (by norm_num), hnone 4 (by norm_num),
      hnone 5 (by norm_num), .inl ?_, .inr hzero⟩
    rw [hzero.2]
    exact congrArg some (component_secondsComponent 0 0)
  · rw [WrittenDuration.components, timeComponents_eq]
    have hget : ∀ sign designator, ((dateComponents fields ++ timeComponents fields).foldl
        (fun (parsed : ParsedDuration) component => parsed.set component.designator component.component)
        { ParsedDuration.default with negative := sign }).get designator =
        readComponent fields designator := by
      intro sign designator
      unfold dateComponents timeComponents
      simp only [List.foldl_append]
      by_cases hseconds : subSecondNanos fields ≠ 0
      · rw [if_pos hseconds, List.foldl_cons, List.foldl_nil, get_set]
        simp only [get_nonzeroComponent, get_default]
        cases designator <;> simp [readComponent, secondsComponent, hseconds]
      · rw [if_neg hseconds, List.foldl_nil]
        simp only [get_nonzeroComponent, get_default]
        cases designator <;> simp [readComponent, hseconds]
    refine ⟨hget _ .years, hget _ .months, hget _ .weeks, hget _ .days, hget _ .hours, hget _ .minutes, ?_, ?_⟩
    · by_cases hseconds : subSecondNanos fields ≠ 0
      · refine .inl ((hget _ .seconds).trans ?_)
        simp only [readComponent, if_pos hseconds, component_secondsComponent]
      · exact .inr ⟨(hget _ .seconds).trans (if_neg hseconds), not_not.1 hseconds⟩
    · refine .inl ((negative_foldl ..).trans ?_)
      cases negative <;> rfl

/-- a number is set in its slot -/
theorem takeSlot_nonzero {exact : List ℤ} {index : ℕ} (h : exact[index]? = some 0) (value : ℕ) :
    takeSlot exact (index, nonzero value) = .ok (exact.set index value) := by
  by_cases hzero : value = 0
  · obtain ⟨hindex, hget⟩ := List.getElem?_eq_some_iff.1 h
    have hsame : exact.set index ((0 : ℕ) : ℤ) = exact := by
      rw [Nat.cast_zero, ← hget, List.set_getElem_self]
    rw [hzero, hsame]
    rfl
  · unfold nonzero
    rw [if_pos hzero]
    rfl

/-- the seconds are set in their slot, and the fraction is carried into the next three -/
theorem takeSlot_seconds (years months weeks days hours minutes : ℤ) (whole : ℕ) {fraction : ℕ} (h : fraction < 10 ^ 9) :
    takeSlot [years, months, weeks, days, hours, minutes, 0, 0, 0, 0] (6, some ⟨whole, trimmed fraction⟩) =
      .ok [years, months, weeks, days, hours, minutes, whole, (fraction / 1000000 : ℕ), (fraction / 1000 % 1000 : ℕ),
        (fraction % 1000 : ℕ)] := by
  have hcarry : (number (trimmed fraction) : ℤ) * 1000000000 / 10 ^ (trimmed fraction).length = fraction := by
    exact_mod_cast number_trimmed h
  have hparts : (fraction : ℤ) % 1000000 / 1000 = (fraction / 1000 % 1000 : ℕ) ∧
      (fraction : ℤ) % 1000000 % 1000 = (fraction % 1000 : ℕ) := by omega
  have hslots : List.range' (6 + 1) (9 - 6) = [7, 8, 9] := rfl
  unfold takeSlot
  dsimp only
  split_ifs with hnil
  · rw [(trimmed_eq_nil_iff h).1 hnil]
    rfl
  · omega
  · rw [hslots, show fieldNanos.getD 6 0 = 1000000000 from rfl, hcarry]
    simp [carryInto, fieldNanos, hparts.1, hparts.2]

/-- ten fields with whole seconds, and what is left of them in the smaller fields -/
def balancedFields (fields : List ℕ) : List ℤ :=
  [(fields.getD 0 0 : ℕ), (fields.getD 1 0 : ℕ), (fields.getD 2 0 : ℕ), (fields.getD 3 0 : ℕ), (fields.getD 4 0 : ℕ),
    (fields.getD 5 0 : ℕ), (subSecondNanos fields / 1000000000 : ℕ), (subSecondNanos fields % 1000000000 / 1000000 : ℕ),
    (subSecondNanos fields % 1000000000 / 1000 % 1000 : ℕ), (subSecondNanos fields % 1000000000 % 1000 : ℕ)]

theorem foldlM_takeSlot {exact next : List ℤ} {slot : ℕ × Option Component} (h : takeSlot exact slot = .ok next)
    (slots : List (ℕ × Option Component)) : (slot :: slots).foldlM takeSlot exact = slots.foldlM takeSlot next := by
  rw [List.foldlM_cons, h]
  rfl

/-- the fields that are read back -/
theorem slots_readBack {negative : Bool} {parsed : ParsedDuration} (h : ReadBack fields negative parsed) :
    (slots parsed).foldlM takeSlot (List.replicate 10 0) = .ok (balancedFields fields) := by
  unfold slots
  rw [h.years, h.months, h.weeks, h.days, h.hours, h.minutes]
  rw [foldlM_takeSlot (takeSlot_nonzero rfl _), foldlM_takeSlot (takeSlot_nonzero rfl _),
    foldlM_takeSlot (takeSlot_nonzero rfl _), foldlM_takeSlot (takeSlot_nonzero rfl _),
    foldlM_takeSlot (takeSlot_nonzero rfl _), foldlM_takeSlot (takeSlot_nonzero rfl _)]
  obtain hseconds | ⟨hseconds, hzero⟩ := h.seconds
  · rw [hseconds]
    exact foldlM_takeSlot (takeSlot_seconds _ _ _ _ _ _ _ (by omega)) []
  · rw [hseconds, balancedFields, hzero]
    rfl

/-- the seconds and smaller fields in nanoseconds -/
def DurationRecord.secondNanos (record : DurationRecord) : ℤ :=
  record.seconds * 1000000000 + record.milliseconds * 1000000 + record.microseconds * 1000 + record.nanoseconds

/-- the fields with the sign, the seconds and smaller fields being balanced -/
def signedRecord (sign : ℤ) (fields : List ℕ) : DurationRecord where
  years := sign * (fields.getD 0 0 : ℕ)
  months := sign * (fields.getD 1 0 : ℕ)
  weeks := sign * (fields.getD 2 0 : ℕ)
  days := sign * (fields.getD 3 0 : ℕ)
  hours := sign * (fields.getD 4 0 : ℕ)
  minutes := sign * (fields.getD 5 0 : ℕ)
  seconds := sign * (subSecondNanos fields / 1000000000 : ℕ)
  milliseconds := sign * (subSecondNanos fields % 1000000000 / 1000000 : ℕ)
  microseconds := sign * (subSecondNanos fields % 1000000000 / 1000 % 1000 : ℕ)
  nanoseconds := sign * (subSecondNanos fields % 1000000000 % 1000 : ℕ)

/-- the sign of a record whose fields have a sign -/
theorem sign_of_signedBy {record : DurationRecord} {sign : ℤ} (hsign : sign = 1 ∨ sign = -1) (h : record.SignedBy sign) :
    record.sign = if ∀ value ∈ record.toArray, value = 0 then 0 else sign := by
  unfold DurationRecord.sign
  cases hfind : record.toArray.find? (· ≠ 0) with
  | none =>
    have hzero : ∀ value ∈ record.toArray, value = 0 := by simpa using hfind
    rw [if_pos hzero]
  | some value =>
    have hmem := List.mem_of_find?_eq_some hfind
    have hne : value ≠ 0 := by simpa using List.find?_some hfind
    have hvalue := h value hmem
    rw [if_neg fun hzero => hne (hzero value hmem)]
    dsimp only
    obtain rfl | rfl := hsign
    · rw [if_neg (by omega)]
    · rw [if_pos (by omega)]

/-- the absolute fields of a record -/
def magnitudes (record : DurationRecord) : List ℕ := record.toArray.map Int.natAbs

section Magnitudes

variable {record : DurationRecord} {sign : ℤ} (hsign : sign = 1 ∨ sign = -1) (hsigned : record.SignedBy sign)

include hsign

theorem mul_natAbs_of_signed {n : ℤ} (h : 0 ≤ sign * n) : sign * n.natAbs = n := by obtain rfl | rfl := hsign <;> omega

include hsigned

/-- the seconds and smaller fields without the sign -/
theorem subSecondNanos_magnitudes : sign * (subSecondNanos (magnitudes record) : ℤ) = record.secondNanos := by
  obtain ⟨-, -, -, -, hseconds, hmillis, hmicros, hnanos⟩ := DurationRecord.signedBy_iff.1 hsigned
  have hsub : subSecondNanos (magnitudes record) = record.seconds.natAbs * 1000000000 +
      record.milliseconds.natAbs * 1000000 + record.microseconds.natAbs * 1000 + record.nanoseconds.natAbs := rfl
  rw [hsub, DurationRecord.secondNanos]
  obtain rfl | rfl := hsign <;> omega

omit hsign hsigned in
/-- the fields of the record before the sign -/
theorem toArray_signedRecord (fields : List ℕ) : (signedRecord sign fields).toArray =
    (balancedFields fields).map (sign * ·) := rfl

/-- the fields are those of the record, and so is the total of the seconds -/
theorem signedRecord_magnitudes : (signedRecord sign (magnitudes record)).years = record.years ∧
    (signedRecord sign (magnitudes record)).months = record.months ∧
    (signedRecord sign (magnitudes record)).weeks = record.weeks ∧
    (signedRecord sign (magnitudes record)).days = record.days ∧
    (signedRecord sign (magnitudes record)).hours = record.hours ∧
    (signedRecord sign (magnitudes record)).minutes = record.minutes ∧
    (signedRecord sign (magnitudes record)).secondNanos = record.secondNanos := by
  obtain ⟨⟨hyears, hmonths, hweeks⟩, hdays, hhours, hminutes, -⟩ := DurationRecord.signedBy_iff.1 hsigned
  refine ⟨mul_natAbs_of_signed hsign hyears, mul_natAbs_of_signed hsign hmonths, mul_natAbs_of_signed hsign hweeks,
    mul_natAbs_of_signed hsign hdays, mul_natAbs_of_signed hsign hhours, mul_natAbs_of_signed hsign hminutes, ?_⟩
  rw [← subSecondNanos_magnitudes hsign hsigned]
  generalize hsub : subSecondNanos (magnitudes record) = nanos
  have hsplit : (nanos : ℤ) = (nanos / 1000000000 : ℕ) * 1000000000 + (nanos % 1000000000 / 1000000 : ℕ) * 1000000 +
      (nanos % 1000000000 / 1000 % 1000 : ℕ) * 1000 + (nanos % 1000000000 % 1000 : ℕ) := by omega
  unfold DurationRecord.secondNanos signedRecord
  rw [hsub]
  conv_rhs => rw [hsplit]
  ring

theorem signedBy_signedRecord : (signedRecord sign (magnitudes record)).SignedBy sign := by
  have hsquare : ∀ n : ℕ, 0 ≤ sign * (sign * (n : ℤ)) := fun n => by obtain rfl | rfl := hsign <;> omega
  rw [DurationRecord.signedBy_iff]
  exact ⟨⟨hsquare _, hsquare _, hsquare _⟩, hsquare _, hsquare _, hsquare _, hsquare _, hsquare _, hsquare _, hsquare _⟩

theorem total_signedRecord : (signedRecord sign (magnitudes record)).total = record.total := by
  obtain ⟨-, -, -, hdays, hhours, hminutes, hseconds⟩ := signedRecord_magnitudes hsign hsigned
  unfold DurationRecord.secondNanos at hseconds
  rw [DurationRecord.total_eq, DurationRecord.total_eq, hdays, hhours, hminutes]
  linear_combination hseconds

theorem valid_signedRecord (h : record.Valid) : (signedRecord sign (magnitudes record)).Valid := by
  obtain ⟨hyears, hmonths, hweeks, -⟩ := signedRecord_magnitudes hsign hsigned
  refine ⟨?_, ?_, by rw [total_signedRecord hsign hsigned]; exact h.inLimit⟩
  · have hrecord := signedBy_signedRecord hsign hsigned
    obtain rfl | rfl := hsign
    · exact .inl hrecord
    · exact .inr hrecord
  · rw [hyears, hmonths, hweeks]
    exact h.calendarFields

/-- the fields are Numbers -/
theorem lt_of_mem_signedRecord (h : record.Valid) {value : ℤ}
    (hmem : value ∈ (signedRecord sign (magnitudes record)).toArray) : |value| < 2 ^ 53 := by
  have hvalid := valid_signedRecord hsign hsigned h
  obtain ⟨hcalendar, hrest⟩ := DurationRecord.signedBy_iff.1 (signedBy_signedRecord hsign hsigned)
  obtain ⟨hyears, hmonths, hweeks⟩ := hvalid.calendarFields
  have htotal := abs_lt.1 hvalid.inLimit
  have hsmall : |(signedRecord sign (magnitudes record)).milliseconds| < 1000 ∧
      |(signedRecord sign (magnitudes record)).microseconds| < 1000 ∧
      |(signedRecord sign (magnitudes record)).nanoseconds| < 1000 := by
    unfold signedRecord
    simp only [abs_lt]
    obtain rfl | rfl := hsign <;> omega
  rw [DurationRecord.total_eq, totalLimit] at htotal
  generalize signedRecord sign (magnitudes record) = balanced at *
  simp only [abs_lt] at hyears hmonths hweeks hsmall ⊢
  simp only [DurationRecord.toArray, List.mem_cons, List.not_mem_nil, or_false] at hmem
  obtain rfl | rfl := hsign <;> obtain rfl | rfl | rfl | rfl | rfl | rfl | rfl | rfl | rfl | rfl := hmem <;> omega

omit hsigned in
/-- the fields are zero if the seconds come to nothing and the larger fields are zero -/
theorem zero_iff {other : DurationRecord} (h : other.SignedBy sign) : (∀ value ∈ other.toArray, value = 0) ↔
    other.years = 0 ∧ other.months = 0 ∧ other.weeks = 0 ∧ other.days = 0 ∧ other.hours = 0 ∧ other.minutes = 0 ∧
      other.secondNanos = 0 := by
  obtain ⟨-, -, -, -, hseconds, hmillis, hmicros, hnanos⟩ := DurationRecord.signedBy_iff.1 h
  simp only [DurationRecord.toArray, List.forall_mem_cons, List.not_mem_nil, false_implies, implies_true, and_true,
    DurationRecord.secondNanos]
  obtain rfl | rfl := hsign <;> omega

/-- the sign of the record is kept -/
theorem sign_signedRecord : (signedRecord sign (magnitudes record)).sign = record.sign := by
  have hrecord := signedBy_signedRecord hsign hsigned
  obtain ⟨hyears, hmonths, hweeks, hdays, hhours, hminutes, hseconds⟩ := signedRecord_magnitudes hsign hsigned
  have hzero : (∀ value ∈ (signedRecord sign (magnitudes record)).toArray, value = 0) ↔ ∀ value ∈ record.toArray, value = 0 := by
    rw [zero_iff hsign hrecord, zero_iff hsign hsigned, hyears, hmonths, hweeks, hdays, hhours, hminutes, hseconds]
  rw [sign_of_signedBy hsign hrecord, sign_of_signedBy hsign hsigned]
  simp only [hzero]

end Magnitudes

/-- the sign and the larger fields are the same, and so are the seconds and smaller fields together -/
structure SameUpToSeconds (result record : DurationRecord) : Prop where
  sign : result.sign = record.sign
  years : result.years = record.years
  months : result.months = record.months
  weeks : result.weeks = record.weeks
  days : result.days = record.days
  hours : result.hours = record.hours
  minutes : result.minutes = record.minutes
  seconds : result.secondNanos = record.secondNanos

/-- a valid duration is read back -/
theorem duration_read_back {record : DurationRecord} (h : record.Valid) {negative : Bool}
    (hsigned : record.SignedBy (if negative then -1 else 1)) : ∃ parsed result,
      parseDuration (durationText (magnitudes record) negative .auto) = some parsed ∧
      durationFromString parsed = .ok result ∧ SameUpToSeconds result record := by
  classical
  have hsign : (if negative then -1 else 1 : ℤ) = 1 ∨ (if negative then -1 else 1 : ℤ) = -1 := by cases negative <;> simp
  obtain ⟨hyears, hmonths, hweeks, hdays, hhours, hminutes, hseconds⟩ := signedRecord_magnitudes hsign hsigned
  have hback : ReadBack (magnitudes record) negative _ := readBack_writtenDuration negative
  have hlt : ∀ value ∈ balancedFields (magnitudes record), |(if negative then -1 else 1 : ℤ) * value| < 2 ^ 53 := by
    intro value hmem
    refine lt_of_mem_signedRecord hsign hsigned h ?_
    rw [toArray_signedRecord]
    exact List.mem_map_of_mem hmem
  have hnat : ∀ n : ℕ, |(if negative then -1 else 1 : ℤ) * n| < 2 ^ 53 → n < 2 ^ 127 := by
    intro n hn
    rw [abs_lt] at hn
    obtain hs | hs := hsign <;> rw [hs] at hn <;> omega
  have hfits : (writtenDuration (magnitudes record) negative).Fits := by
    refine fits_writtenDuration negative (fun index hindex => hnat _ (hlt _ ?_)) (hnat _ (hlt _ (by simp [balancedFields])))
    interval_cases index <;> simp [balancedFields]
  have hfields : (balancedFields (magnitudes record)).map (fun value =>
      asF64 ((if (writtenDuration (magnitudes record) negative).result.negative then -1 else 1 : ℤ) * value)) =
      (signedRecord (if negative then -1 else 1) (magnitudes record)).toArray := by
    rw [toArray_signedRecord]
    refine List.map_congr_left fun value hmem => ?_
    -- the sign is that of the record, or there is nothing but zeros
    have hsame : (if (writtenDuration (magnitudes record) negative).result.negative then -1 else 1 : ℤ) * value =
        (if negative then -1 else 1) * value := by
      obtain hnegative | ⟨hzero, hnanos⟩ := hback.negative
      · rw [hnegative]
      · have hvalue : value = 0 := by
          rw [balancedFields, hnanos, hzero 0 (by norm_num), hzero 1 (by norm_num), hzero 2 (by norm_num),
            hzero 3 (by norm_num), hzero 4 (by norm_num), hzero 5 (by norm_num)] at hmem
          simpa using hmem
        rw [hvalue, mul_zero, mul_zero]
    rw [hsame, asF64_of_lt (hlt value hmem)]
  have hvalid := isValid_iff.2 (valid_signedRecord hsign hsigned h)
  refine ⟨(writtenDuration (magnitudes record) negative).result,
    signedRecord (if negative then -1 else 1) (magnitudes record), ?_, ?_,
    sign_signedRecord hsign hsigned, hyears, hmonths, hweeks, hdays, hhours, hminutes, hseconds⟩
  · rw [text_writtenDuration, parseDuration_text (loose_writtenDuration negative), if_pos hfits]
  · have hrun : durationFromString (writtenDuration (magnitudes record) negative).result =
        ((slots (writtenDuration (magnitudes record) negative).result).foldlM takeSlot (List.replicate 10 0) >>= fun exact =>
          let fields := exact.map fun value =>
            asF64 ((if (writtenDuration (magnitudes record) negative).result.negative then -1 else 1 : ℤ) * value)
          if isValid fields then .ok (.fromArray fields) else .error outOfRange) := rfl
    rw [hrun, slots_readBack hback]
    change (if isValid ((balancedFields (magnitudes record)).map _) then _ else _) = _
    rw [hfields, if_pos hvalid, fromArray_toArray]

end Durations

/--
**Texts are read back.** The text of a date in range and a time of day is read as this date and time without an offset, the
text of an instant names the instant, and the text of a duration gives its sign and larger fields and the same seconds.
-/
theorem texts_read_back :
    (∀ date : IsoDate, date.InRange → ∀ time : IsoTime, time.Valid →
      parseDateTime (dateText date ++ 'T' :: timeText time .auto) = some ⟨date, some time, none, false, none, false⟩) ∧
    (∀ nanos, instantWithinLimits nanos = true → instantFromText (instantText nanos .auto) = .ok nanos) ∧
    ∀ (record : DurationRecord) (negative : Bool), isValid record.toArray = true →
      record.SignedBy (if negative then -1 else 1) → ∃ parsed result,
        parseDuration (durationText (record.toArray.map Int.natAbs) negative .auto) = some parsed ∧
        durationFromString parsed = .ok result ∧ SameUpToSeconds result record := by
  refine ⟨fun date h time htime => ?_, fun nanos h => instantFromText_instantText h,
    fun record negative h hsigned => duration_read_back (isValid_iff.1 h) hsigned⟩
  exact parseDateTime_text h.valid h.year_range.1 h.year_range.2 htime

end Render.Temporal
