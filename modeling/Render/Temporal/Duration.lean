/-
Durations (`temporal/duration.rs`): the ten fields, their validity, the balancing of a time, adding and comparing.

Adding sums the days and the times apart and carries whole days out of the time alone. What is left of the time may then have
the other sign than the days, and the record is refused (`add_totals`).
-/
import Render.Temporal.Difference

namespace Render.Temporal

/-! ## The functions -/

/-- the ten fields; each is a Number that is an integer -/
@[ext] structure DurationRecord where
  years : ℤ
  months : ℤ
  weeks : ℤ
  days : ℤ
  hours : ℤ
  minutes : ℤ
  seconds : ℤ
  milliseconds : ℤ
  microseconds : ℤ
  nanoseconds : ℤ
deriving DecidableEq, Repr

/-- `NANOS_PER_DAY` -/
def nanosPerDay : ℤ := 86400000000000

/-- `FIELD_NANOS` -/
def fieldNanos : List ℤ :=
  [0, 0, 0, nanosPerDay, 3600000000000, 60000000000, 1000000000, 1000000, 1000, 1]

/-- a checked operation on 128 bits -/
def checkedI128 (n : ℤ) : Option ℤ := if -2 ^ 127 ≤ n ∧ n < 2 ^ 127 then some n else none

/-- the low 64 bits -/
def asI64 (n : ℤ) : ℤ := (n + 2 ^ 63) % 2 ^ 64 - 2 ^ 63

/-- the nearest Number, the even one of two: an integer beyond 2^53 keeps its first 53 bits -/
def asF64 (n : ℤ) : ℤ :=
  let unit := 2 ^ (n.natAbs.log2 - 52)
  let floor := n.natAbs / unit
  let rest := n.natAbs % unit
  let nearest := if unit < 2 * rest ∨ unit = 2 * rest ∧ floor % 2 = 1 then floor + 1 else floor
  n.sign * (nearest * unit : ℕ)

namespace TemporalUnit

/-- the derived order, from the largest unit to the smallest -/
def rank : TemporalUnit → ℕ
  | .year => 0
  | .month => 1
  | .week => 2
  | .day => 3
  | .hour => 4
  | .minute => 5
  | .second => 6
  | .millisecond => 7
  | .microsecond => 8
  | .nanosecond => 9

/-- the length of the unit in nanoseconds, where it is fixed -/
def nanos : TemporalUnit → Option ℤ
  | .day => some nanosPerDay
  | .hour => some 3600000000000
  | .minute => some 60000000000
  | .second => some 1000000000
  | .millisecond => some 1000000
  | .microsecond => some 1000
  | .nanosecond => some 1
  | .year | .month | .week => none

end TemporalUnit

namespace DurationRecord

def toArray (record : DurationRecord) : List ℤ :=
  [record.years, record.months, record.weeks, record.days, record.hours, record.minutes, record.seconds,
    record.milliseconds, record.microseconds, record.nanoseconds]

def fromArray (values : List ℤ) : DurationRecord where
  years := values.getD 0 0
  months := values.getD 1 0
  weeks := values.getD 2 0
  days := values.getD 3 0
  hours := values.getD 4 0
  minutes := values.getD 5 0
  seconds := values.getD 6 0
  milliseconds := values.getD 7 0
  microseconds := values.getD 8 0
  nanoseconds := values.getD 9 0

/-- the sign of the first field that is not zero -/
def sign (record : DurationRecord) : ℤ :=
  match record.toArray.find? (· ≠ 0) with
  | some value => if value < 0 then -1 else 1
  | none => 0

/-- the hours and smaller fields in nanoseconds -/
def timeNanos (record : DurationRecord) : ℤ :=
  (((record.toArray.zip fieldNanos).drop 4).map fun (value, nanos) => value * nanos).sum

def negated (record : DurationRecord) : DurationRecord := fromArray (record.toArray.map (0 - ·))

end DurationRecord

/-- one turn of the loop of `is_valid` -/
def addProduct (total : ℤ) (field : ℤ × ℤ) : Option ℤ := do
  let product ← checkedI128 (field.1 * field.2)
  checkedI128 (total + product)

/-- the sum of the fields with a fixed length, on 128 bits -/
def checkedTotal (fields : List (ℤ × ℤ)) : Option ℤ := fields.foldlM addProduct 0

/-- the Number 1e30 -/
def numberE30 : ℤ := 1000000000000000019884624838656

/-- the limit of the total of a duration in nanoseconds -/
def totalLimit : ℤ := 2 ^ 53 * 1000000000

def isValid (fields : List ℤ) : Bool :=
  !(fields.any (0 < ·) && fields.any (· < 0)) && !(fields.take 3).any (2 ^ 32 ≤ |·|) && !fields.any (numberE30 ≤ |·|) &&
    match checkedTotal ((fields.zip fieldNanos).drop 3) with
    | some total => |total| < totalLimit
    | none => false

/-- the units of `balance_time` -/
def balanceChain : List TemporalUnit := [.day, .hour, .minute, .second, .millisecond, .microsecond, .nanosecond]

/-- the loop of `balance_time` over the units that are left -/
def balanceLoop (sign : ℤ) : List TemporalUnit → ℤ → List ℤ
  | [], _ => []
  | unit :: units, rest =>
    let size := unit.nanos.getD 1
    sign * (rest / size) :: balanceLoop sign units (rest % size)

def balanceTime (total : ℤ) (largest : TemporalUnit) : List ℤ :=
  let start := (balanceChain.findIdx? fun unit => largest.rank ≤ unit.rank).getD 0
  let sign := if total < 0 then -1 else 1
  List.replicate start 0 ++ balanceLoop sign (balanceChain.drop start) |total|

/-- a field that has no fixed length is not zero -/
def DurationRecord.calendar (record : DurationRecord) : Bool := record.years ≠ 0 || record.months ≠ 0 || record.weeks ≠ 0

/-- `NEEDS_RELATIVE_TO` -/
def needsRelativeTo : String := "a relativeTo is required for years, months, weeks or calendar rounding"

/-- `OUT_OF_RANGE` -/
def outOfRange : String := "duration fields are out of range"

/-- the sum, or the text of the RangeError -/
def addDurations (first second : DurationRecord) : Except String DurationRecord :=
  if first.calendar || second.calendar then .error needsRelativeTo
  else
    let days := first.days + second.days
    let parts := balanceTime (first.timeNanos + second.timeNanos) .day
    let exact := [0, 0, 0, days + parts.getD 0 0] ++ parts.drop 1
    let fields := exact.map asF64
    if isValid fields then .ok (.fromArray fields) else .error "duration result is out of range"

def order (one two : ℤ) : ℤ := if one < two then -1 else if one = two then 0 else 1

/-- the end of a duration that starts at midnight of a date, counted from there -/
def endFrom (relative : IsoDate) (record : DurationRecord) : Except String ℤ :=
  match addIsoDate relative (asI64 record.years) (asI64 record.months) (asI64 record.weeks) (asI64 record.days) true with
  | some date => .ok (epochDays date * nanosPerDay + record.timeNanos - epochDays relative * nanosPerDay)
  | none => .error outOfRange

def compareDurations (one two : DurationRecord) (relativeTo : Option IsoDate) : Except String ℤ :=
  if !one.calendar && !two.calendar then
    .ok (order (one.days * nanosPerDay + one.timeNanos) (two.days * nanosPerDay + two.timeNanos))
  else
    match relativeTo with
    | none => .error needsRelativeTo
    | some relative => do
      let first ← endFrom relative one
      let second ← endFrom relative two
      return order first second

/-! ## Numbers and checked sums -/

/-- an integer below 2^53 is a Number -/
theorem asF64_of_lt {n : ℤ} (h : |n| < 2 ^ 53) : asF64 n = n := by
  have hbits : n.natAbs.log2 - 52 = 0 := by
    obtain hzero | hpos := Nat.eq_zero_or_pos n.natAbs
    · rw [hzero]
      rfl
    · have hbounds := abs_lt.1 h
      have hlog : n.natAbs.log2 < 53 := (Nat.log2_lt (by omega)).2 (by omega)
      omega
  unfold asF64
  dsimp only
  rw [hbits]
  norm_num [Nat.mod_one]
  exact Int.sign_mul_abs n

theorem checkedI128_eq_some {n m : ℤ} (h : checkedI128 n = some m) : m = n := by
  unfold checkedI128 at h
  split_ifs at h
  exact (Option.some.inj h).symm

theorem checkedI128_of_lt {n : ℤ} (h : |n| < 2 ^ 127) : checkedI128 n = some n := if_pos (by have := abs_lt.1 h; omega)

/-- the sum of the fields with their lengths -/
def lengths (fields : List (ℤ × ℤ)) : ℤ := (fields.map fun (value, nanos) => value * nanos).sum

theorem lengths_cons (field : ℤ × ℤ) (fields : List (ℤ × ℤ)) :
    lengths (field :: fields) = field.1 * field.2 + lengths fields := by
  simp [lengths]

section Sums

variable {fields : List (ℤ × ℤ)} {sign start total : ℤ}

theorem addProduct_eq_some {field : ℤ × ℤ} (h : addProduct start field = some total) : total = start + field.1 * field.2 := by
  obtain ⟨product, hproduct, htotal⟩ := Option.bind_eq_some_iff.1 h
  rw [checkedI128_eq_some htotal, checkedI128_eq_some hproduct]

private theorem checkedTotal_loop (h : fields.foldlM addProduct start = some total) : total = start + lengths fields := by
  induction fields generalizing start with
  | nil => simpa [lengths, eq_comm] using h
  | cons field fields ih =>
    rw [List.foldlM_cons] at h
    obtain ⟨next, hnext, hrest⟩ := Option.bind_eq_some_iff.1 h
    rw [ih hrest, addProduct_eq_some hnext, lengths_cons]
    ring

theorem checkedTotal_eq_some (h : checkedTotal fields = some total) : total = lengths fields := by
  rw [checkedTotal_loop h, zero_add]

theorem lengths_signed (h : ∀ field ∈ fields, 0 ≤ sign * (field.1 * field.2)) : 0 ≤ sign * lengths fields := by
  induction fields with
  | nil => simp [lengths]
  | cons field fields ih =>
    have hfield := h field (List.mem_cons_self ..)
    have hfields := ih fun other hmem => h other (List.mem_cons_of_mem _ hmem)
    rw [lengths_cons, mul_add]
    omega

private theorem checkedTotal_loop_of (hsign : sign = 1 ∨ sign = -1)
    (h : ∀ field ∈ fields, 0 ≤ sign * (field.1 * field.2)) (hstart : 0 ≤ sign * start)
    (hlimit : sign * (start + lengths fields) < 2 ^ 127) : fields.foldlM addProduct start = some (start + lengths fields) := by
  induction fields generalizing start with
  | nil => simp [lengths]
  | cons field fields ih =>
    have hfield := h field (List.mem_cons_self ..)
    have hrest : ∀ other ∈ fields, 0 ≤ sign * (other.1 * other.2) := fun other hmem => h other (List.mem_cons_of_mem _ hmem)
    have hfields := lengths_signed hrest
    rw [lengths_cons, ← add_assoc] at hlimit ⊢
    -- neither the product nor the sum leaves the range, the end of the sum being within it
    have hbounds : |field.1 * field.2| < 2 ^ 127 ∧ |start + field.1 * field.2| < 2 ^ 127 := by
      rw [abs_lt, abs_lt]
      obtain rfl | rfl := hsign <;> omega
    have hnext : addProduct start field = some (start + field.1 * field.2) := by
      unfold addProduct
      rw [checkedI128_of_lt hbounds.1]
      exact checkedI128_of_lt hbounds.2
    rw [List.foldlM_cons, hnext]
    exact ih hrest (by obtain rfl | rfl := hsign <;> omega) hlimit

/-- fields of one sign are summed up exactly if the sum is in range -/
theorem checkedTotal_of (hsign : sign = 1 ∨ sign = -1) (h : ∀ field ∈ fields, 0 ≤ sign * (field.1 * field.2))
    (hlimit : |lengths fields| < 2 ^ 127) : checkedTotal fields = some (lengths fields) := by
  have hbounds := abs_lt.1 hlimit
  have htotal : fields.foldlM addProduct 0 = some (0 + lengths fields) :=
    checkedTotal_loop_of hsign h (by norm_num) (by obtain rfl | rfl := hsign <;> omega)
  rwa [zero_add] at htotal

end Sums

/-! ## Valid records -/

namespace DurationRecord

variable {record : DurationRecord}

/-- the days and the time in nanoseconds -/
def total (record : DurationRecord) : ℤ := record.days * nanosPerDay + record.timeNanos

theorem timeNanos_eq : record.timeNanos = record.hours * 3600000000000 + record.minutes * 60000000000 +
    record.seconds * 1000000000 + record.milliseconds * 1000000 + record.microseconds * 1000 + record.nanoseconds := by
  simp [timeNanos, toArray, fieldNanos]
  ring

/-- every field is zero or has the sign -/
def SignedBy (sign : ℤ) (record : DurationRecord) : Prop := ∀ value ∈ record.toArray, 0 ≤ sign * value

/-- what `is_valid` comes to -/
structure Valid (record : DurationRecord) : Prop where
  signed : record.SignedBy 1 ∨ record.SignedBy (-1)
  calendarFields : |record.years| < 2 ^ 32 ∧ |record.months| < 2 ^ 32 ∧ |record.weeks| < 2 ^ 32
  inLimit : |record.total| < totalLimit

theorem signedBy_iff {sign : ℤ} : record.SignedBy sign ↔ (0 ≤ sign * record.years ∧ 0 ≤ sign * record.months ∧
    0 ≤ sign * record.weeks) ∧ 0 ≤ sign * record.days ∧ 0 ≤ sign * record.hours ∧ 0 ≤ sign * record.minutes ∧
    0 ≤ sign * record.seconds ∧ 0 ≤ sign * record.milliseconds ∧ 0 ≤ sign * record.microseconds ∧
    0 ≤ sign * record.nanoseconds := by
  simp [SignedBy, toArray, and_assoc]

theorem lengths_toArray : lengths ((record.toArray.zip fieldNanos).drop 3) = record.total := by
  simp [lengths, toArray, fieldNanos, total, timeNanos]

theorem total_eq : record.total = record.days * 86400000000000 + record.hours * 3600000000000 +
    record.minutes * 60000000000 + record.seconds * 1000000000 + record.milliseconds * 1000000 +
    record.microseconds * 1000 + record.nanoseconds := by
  rw [total, timeNanos_eq, nanosPerDay]
  ring

theorem Valid.sign (h : record.Valid) : ∃ sign : ℤ, (sign = 1 ∨ sign = -1) ∧ record.SignedBy sign := by
  obtain hsigned | hsigned := h.signed
  · exact ⟨1, .inl rfl, hsigned⟩
  · exact ⟨-1, .inr rfl, hsigned⟩

/-- no field is beyond the limit of the total -/
theorem Valid.field_lt (h : record.Valid) {value : ℤ} (hmem : value ∈ record.toArray) : |value| < totalLimit := by
  obtain ⟨sign, hsign, hsigned⟩ := h.sign
  obtain ⟨hcalendar, hrest⟩ := signedBy_iff.1 hsigned
  obtain ⟨hyears, hmonths, hweeks⟩ := h.calendarFields
  have htotal := abs_lt.1 h.inLimit
  rw [total_eq, totalLimit] at htotal
  rw [abs_lt] at hyears hmonths hweeks
  rw [abs_lt, totalLimit]
  simp only [toArray, List.mem_cons, List.not_mem_nil, or_false] at hmem
  obtain rfl | rfl := hsign <;> obtain rfl | rfl | rfl | rfl | rfl | rfl | rfl | rfl | rfl | rfl := hmem <;> omega

end DurationRecord

theorem isValid_iff {record : DurationRecord} : isValid record.toArray = true ↔ record.Valid := by
  have hsigns : (!(record.toArray.any (0 < ·) && record.toArray.any (· < 0))) = true ↔
      record.SignedBy 1 ∨ record.SignedBy (-1) := by
    simp only [Bool.not_eq_true', Bool.and_eq_false_iff, List.any_eq_false, decide_eq_true_eq, not_lt]
    unfold DurationRecord.SignedBy
    constructor
    · rintro (h | h)
      · exact .inr fun value hmem => by have := h value hmem; omega
      · exact .inl fun value hmem => by have := h value hmem; omega
    · rintro (h | h)
      · exact .inr fun value hmem => by have := h value hmem; omega
      · exact .inl fun value hmem => by have := h value hmem; omega
  unfold isValid
  rw [Bool.and_eq_true, Bool.and_eq_true, Bool.and_eq_true, hsigns]
  constructor
  · rintro ⟨⟨⟨hsigned, hcalendar⟩, -⟩, htotal⟩
    cases hsum : checkedTotal ((record.toArray.zip fieldNanos).drop 3) with
    | none => simp [hsum] at htotal
    | some total =>
      rw [hsum] at htotal
      rw [checkedTotal_eq_some hsum, DurationRecord.lengths_toArray] at htotal
      exact ⟨hsigned, by simpa [DurationRecord.toArray] using hcalendar, by simpa using htotal⟩
  · intro h
    obtain ⟨sign, hsign, hsigned⟩ := h.sign
    obtain ⟨hcalendar, hrest⟩ := DurationRecord.signedBy_iff.1 hsigned
    have hbounds := abs_lt.1 h.inLimit
    have htotal : record.total = _ := DurationRecord.total_eq
    have hsum : checkedTotal ((record.toArray.zip fieldNanos).drop 3) = some record.total := by
      rw [← DurationRecord.lengths_toArray]
      refine checkedTotal_of hsign ?_ (by rw [DurationRecord.lengths_toArray]; exact h.inLimit.trans (by decide))
      simp only [DurationRecord.toArray, fieldNanos, nanosPerDay]
      obtain rfl | rfl := hsign <;> simp <;> omega
    rw [hsum]
    refine ⟨⟨⟨h.signed, ?_⟩, ?_⟩, by simpa using h.inLimit⟩
    · simpa [DurationRecord.toArray] using h.calendarFields
    · rw [Bool.not_eq_true', List.any_eq_false]
      intro value hmem
      rw [decide_eq_true_eq, not_le]
      exact (h.field_lt hmem).trans (by decide)

/-! ## Balancing -/

section Balance

variable {sign rest : ℤ}

/-- the values in their units, in nanoseconds -/
def inUnits (values : List ℤ) (units : List TemporalUnit) : ℤ :=
  (List.zipWith (fun value unit => value * unit.nanos.getD 1) values units).sum

/-- nothing is left behind the nanoseconds -/
theorem balanceLoop_inUnits (sign : ℤ) (units : List TemporalUnit) (rest : ℤ) :
    inUnits (balanceLoop sign (units ++ [.nanosecond]) rest) (units ++ [.nanosecond]) = sign * rest := by
  induction units generalizing rest with
  | nil => simp [inUnits, balanceLoop, TemporalUnit.nanos]
  | cons unit units ih =>
    have hrest := ih (rest % unit.nanos.getD 1)
    unfold inUnits at hrest ⊢
    rw [List.cons_append, balanceLoop, List.zipWith_cons_cons, List.sum_cons, hrest]
    linear_combination sign * Int.mul_ediv_add_emod rest (unit.nanos.getD 1)

theorem nanos_pos (unit : TemporalUnit) : 0 < unit.nanos.getD 1 := by cases unit <;> decide

/-- the parts have the sign, and none is more than what was there -/
theorem mem_balanceLoop (hsign : sign = 1 ∨ sign = -1) {units : List TemporalUnit} (hrest : 0 ≤ rest) {part : ℤ}
    (h : part ∈ balanceLoop sign units rest) : 0 ≤ sign * part ∧ |part| ≤ rest := by
  induction units generalizing rest with
  | nil => simp [balanceLoop] at h
  | cons unit units ih =>
    have hsize := nanos_pos unit
    obtain rfl | hmem := List.mem_cons.1 h
    · have hquotient : 0 ≤ rest / unit.nanos.getD 1 := Int.ediv_nonneg hrest hsize.le
      have hle : rest / unit.nanos.getD 1 ≤ rest := Int.ediv_le_self _ hrest
      rw [abs_le]
      obtain rfl | rfl := hsign <;> omega
    · have hquotient := mul_nonneg hsize.le (Int.ediv_nonneg hrest hsize.le)
      have hless : rest % unit.nanos.getD 1 ≤ rest := by
        have hsplit := Int.mul_ediv_add_emod rest (unit.nanos.getD 1)
        omega
      obtain ⟨hsigned, hle⟩ := ih (Int.emod_nonneg _ hsize.ne') hmem
      exact ⟨hsigned, hle.trans hless⟩

end Balance

/-- the units below the day -/
def timeUnits : List TemporalUnit := [.hour, .minute, .second, .millisecond, .microsecond, .nanosecond]

/-- a time shorter than a day in hours and smaller units -/
def timeParts (time : ℤ) : List ℤ := balanceLoop (if time < 0 then -1 else 1) timeUnits |time|

/-- a record of days and the parts of a time -/
def ofDaysAndTime (days time : ℤ) : DurationRecord := .fromArray ([0, 0, 0, days] ++ timeParts time)

section DaysAndTime

variable {days time : ℤ}

theorem sign_cases (time : ℤ) : ((if time < 0 then -1 else 1 : ℤ) = 1 ∨ (if time < 0 then -1 else 1 : ℤ) = -1) ∧
    (if time < 0 then -1 else 1 : ℤ) * |time| = time := by
  split_ifs with h
  · exact ⟨.inr rfl, by rw [abs_of_neg h, neg_one_mul, neg_neg]⟩
  · exact ⟨.inl rfl, by rw [abs_of_nonneg (not_lt.1 h), one_mul]⟩

theorem toArray_ofDaysAndTime : (ofDaysAndTime days time).toArray = [0, 0, 0, days] ++ timeParts time := rfl

theorem timeNanos_ofDaysAndTime : (ofDaysAndTime days time).timeNanos = time := by
  have hparts := balanceLoop_inUnits (if time < 0 then -1 else 1) [.hour, .minute, .second, .millisecond, .microsecond] |time|
  rw [(sign_cases time).2] at hparts
  exact hparts

theorem total_ofDaysAndTime : (ofDaysAndTime days time).total = days * nanosPerDay + time := by
  rw [DurationRecord.total, timeNanos_ofDaysAndTime]
  rfl

theorem calendar_ofDaysAndTime : (ofDaysAndTime days time).calendar = false := rfl

/-- the days and the time have opposite signs -/
def Opposed (days time : ℤ) : Prop := days < 0 ∧ 0 < time ∨ 0 < days ∧ time < 0

/-- the record has one sign unless the days and the time are opposed -/
theorem signed_ofDaysAndTime : ((ofDaysAndTime days time).SignedBy 1 ∨ (ofDaysAndTime days time).SignedBy (-1)) ↔
    ¬Opposed days time := by
  have hparts : ∀ part ∈ timeParts time, 0 ≤ (if time < 0 then -1 else 1 : ℤ) * part ∧ |part| ≤ |time| := fun part hmem =>
    mem_balanceLoop (sign_cases time).1 (abs_nonneg time) hmem
  have hmembers : ∀ sign : ℤ, (ofDaysAndTime days time).SignedBy sign ↔
      0 ≤ sign * days ∧ ∀ part ∈ timeParts time, 0 ≤ sign * part := by
    intro sign
    unfold DurationRecord.SignedBy
    rw [toArray_ofDaysAndTime]
    simp
  have htime : ∀ sign : ℤ, (ofDaysAndTime days time).SignedBy sign → 0 ≤ sign * time := by
    intro sign h
    obtain ⟨-, -, hrest⟩ := DurationRecord.signedBy_iff.1 h
    have htotal : (ofDaysAndTime days time).timeNanos = _ := DurationRecord.timeNanos_eq
    rw [timeNanos_ofDaysAndTime] at htotal
    rw [htotal]
    nlinarith
  constructor
  · rintro (h | h) hopposed
    · have hnanos := htime 1 h
      have hdays := ((hmembers 1).1 h).1
      unfold Opposed at hopposed
      omega
    · have hnanos := htime (-1) h
      have hdays := ((hmembers (-1)).1 h).1
      unfold Opposed at hopposed
      omega
  · intro hopposed
    unfold Opposed at hopposed
    by_cases hzero : time = 0
    · have hnone : ∀ part ∈ timeParts time, part = 0 := by
        intro part hmem
        have hle := (hparts part hmem).2
        rw [hzero, abs_zero] at hle
        exact abs_eq_zero.1 (le_antisymm hle (abs_nonneg part))
      obtain hdays | hdays := le_total 0 days
      · exact .inl ((hmembers 1).2 ⟨by omega, fun part hmem => by rw [hnone part hmem, mul_zero]⟩)
      · exact .inr ((hmembers (-1)).2 ⟨by omega, fun part hmem => by rw [hnone part hmem, mul_zero]⟩)
    · by_cases hneg : time < 0
      · rw [if_pos hneg] at hparts
        exact .inr ((hmembers (-1)).2 ⟨by omega, fun part hmem => (hparts part hmem).1⟩)
      · rw [if_neg hneg] at hparts
        exact .inl ((hmembers 1).2 ⟨by omega, fun part hmem => (hparts part hmem).1⟩)

end DaysAndTime

/-! ## Adding -/

section Adding

open DurationRecord

variable {first second record : DurationRecord}

/-- the days and the time that two sums come to, whole days being carried out of the time -/
def carried (days time : ℤ) : DurationRecord := ofDaysAndTime (days + time.tdiv nanosPerDay) (time.tmod nanosPerDay)

/-- the carried days and the rest of the time do not have opposite signs -/
def CarriesCleanly (days time : ℤ) : Prop := ¬Opposed (days + time.tdiv nanosPerDay) (time.tmod nanosPerDay)

theorem total_carried (days time : ℤ) : (carried days time).total = days * nanosPerDay + time := by
  have hsplit := Int.mul_tdiv_add_tmod time nanosPerDay
  rw [carried, total_ofDaysAndTime]
  linear_combination hsplit

/-- the days and the time of a valid record -/
theorem DurationRecord.Valid.bounds (h : record.Valid) :
    |record.days| * nanosPerDay < totalLimit ∧ |record.timeNanos| < totalLimit := by
  obtain ⟨sign, hsign, hsigned⟩ := h.sign
  obtain ⟨-, hrest⟩ := signedBy_iff.1 hsigned
  have hlimit := abs_lt.1 h.inLimit
  have htime : record.timeNanos = _ := timeNanos_eq
  rw [total_eq, totalLimit] at hlimit
  rw [abs_lt, htime, totalLimit, nanosPerDay]
  have hdays := abs_cases record.days
  obtain rfl | rfl := hsign <;> omega

theorem tdiv_carried (time : ℤ) : time.tdiv nanosPerDay = (if time < 0 then -1 else 1) * (|time| / nanosPerDay) ∧
    time.tmod nanosPerDay = (if time < 0 then -1 else 1) * (|time| % nanosPerDay) := by
  split_ifs with h
  · rw [abs_of_neg h, neg_one_mul, neg_one_mul, ← Int.tdiv_eq_ediv_of_nonneg (by omega), Int.neg_tdiv, neg_neg,
      ← Int.tmod_eq_emod_of_nonneg (by omega), Int.neg_tmod, neg_neg]
    exact ⟨rfl, rfl⟩
  · rw [abs_of_nonneg (not_lt.1 h), one_mul, one_mul, Int.tdiv_eq_ediv_of_nonneg (not_lt.1 h),
      Int.tmod_eq_emod_of_nonneg (not_lt.1 h)]
    exact ⟨rfl, rfl⟩

theorem tmod_bounds (time : ℤ) : |time.tmod nanosPerDay| < nanosPerDay := by
  have hlow := Int.lt_tmod_of_pos time (show 0 < nanosPerDay by decide)
  have hhigh := Int.tmod_lt_of_pos time (show 0 < nanosPerDay by decide)
  exact abs_lt.2 ⟨hlow, hhigh⟩

theorem balanceLoop_zero (sign sign' : ℤ) (units : List TemporalUnit) :
    balanceLoop sign units 0 = balanceLoop sign' units 0 := by
  induction units with
  | nil => rfl
  | cons unit units ih =>
    unfold balanceLoop
    dsimp only
    rw [Int.zero_ediv, Int.zero_emod, mul_zero, mul_zero, ih]

/-- the time balanced up to days -/
theorem balanceTime_day (time : ℤ) :
    balanceTime time .day = time.tdiv nanosPerDay :: timeParts (time.tmod nanosPerDay) := by
  obtain ⟨hquotient, hrest⟩ := tdiv_carried time
  have hbalance : balanceTime time .day = (if time < 0 then -1 else 1) * (|time| / nanosPerDay) ::
      balanceLoop (if time < 0 then -1 else 1) timeUnits (|time| % nanosPerDay) := rfl
  have hnonneg : 0 ≤ |time| % nanosPerDay := Int.emod_nonneg _ (by decide)
  rw [hbalance, ← hquotient]
  congr 1
  unfold timeParts
  rw [hrest]
  obtain hzero | hpos := hnonneg.eq_or_lt
  · rw [← hzero, mul_zero, abs_zero]
    exact balanceLoop_zero ..
  · split_ifs with hneg hsame hsame
    · rw [neg_one_mul, abs_neg, abs_of_pos hpos]
    · omega
    · omega
    · rw [one_mul, abs_of_pos hpos]

/-- nothing is rounded on the way into the fields -/
theorem map_asF64_carried {days time : ℤ} (hdays : |days| < 2 ^ 53) (htime : |time| < 2 ^ 53) :
    ([0, 0, 0, days] ++ timeParts time).map asF64 = (ofDaysAndTime days time).toArray := by
  rw [toArray_ofDaysAndTime]
  refine Eq.trans (List.map_congr_left fun value hmem => ?_) (List.map_id _)
  refine asF64_of_lt ?_
  obtain hmem | hmem := List.mem_append.1 hmem
  · simp only [List.mem_cons, List.not_mem_nil, or_false] at hmem
    obtain rfl | rfl | rfl | rfl := hmem
    · norm_num
    · norm_num
    · norm_num
    · exact hdays
  · exact (mem_balanceLoop (sign_cases time).1 (abs_nonneg time) hmem).2.trans_lt htime

theorem fromArray_toArray (record : DurationRecord) : fromArray record.toArray = record := rfl

/-- the record of the carried days and time is valid exactly if the signs agree and the total is in range -/
theorem isValid_carried {days time : ℤ} : isValid (carried days time).toArray = true ↔
    CarriesCleanly days time ∧ |days * nanosPerDay + time| < totalLimit := by
  rw [isValid_iff]
  constructor
  · intro h
    exact ⟨signed_ofDaysAndTime.1 h.signed, total_carried days time ▸ h.inLimit⟩
  · rintro ⟨hclean, hlimit⟩
    refine ⟨signed_ofDaysAndTime.2 hclean, ?_, ?_⟩
    · change |0| < 2 ^ 32 ∧ |0| < 2 ^ 32 ∧ |0| < 2 ^ 32
      norm_num
    · rwa [total_carried]

theorem addDurations_eq (hfirst : first.Valid) (hsecond : second.Valid) (hcalendar : first.calendar = false)
    (hcalendar' : second.calendar = false) : addDurations first second =
      if isValid (carried (first.days + second.days) (first.timeNanos + second.timeNanos)).toArray then
        .ok (carried (first.days + second.days) (first.timeNanos + second.timeNanos))
      else .error "duration result is out of range" := by
  have hbounds := hfirst.bounds
  have hbounds' := hsecond.bounds
  have hrest := tmod_bounds (first.timeNanos + second.timeNanos)
  have hsplit := Int.mul_tdiv_add_tmod (first.timeNanos + second.timeNanos) nanosPerDay
  simp only [abs_lt, totalLimit, nanosPerDay] at hbounds hbounds' hrest hsplit
  have hdays := abs_cases first.days
  have hdays' := abs_cases second.days
  unfold addDurations
  rw [hcalendar, hcalendar', Bool.or_self, if_neg Bool.false_ne_true, balanceTime_day]
  simp only [List.getD_cons_zero, List.drop_one, List.tail_cons]
  rw [map_asF64_carried (abs_lt.2 (by unfold nanosPerDay; omega)) (abs_lt.2 (by unfold nanosPerDay; omega)), fromArray_toArray]
  rfl

theorem addDurations_ok (hfirst : first.Valid) (hsecond : second.Valid) (hcalendar : first.calendar = false)
    (hcalendar' : second.calendar = false) {result : DurationRecord} : addDurations first second = .ok result ↔
      (CarriesCleanly (first.days + second.days) (first.timeNanos + second.timeNanos) ∧
        |first.total + second.total| < totalLimit) ∧
      carried (first.days + second.days) (first.timeNanos + second.timeNanos) = result := by
  have hsum : first.total + second.total =
      (first.days + second.days) * nanosPerDay + (first.timeNanos + second.timeNanos) := by
    unfold total
    ring
  rw [hsum, ← isValid_carried, addDurations_eq hfirst hsecond hcalendar hcalendar']
  split_ifs with hvalid
  · rw [Except.ok.injEq, and_iff_right hvalid]
  · simp [hvalid]

theorem total_negated : record.negated.total = -record.total := by
  rw [total_eq, total_eq]
  change (0 - record.days) * 86400000000000 + (0 - record.hours) * 3600000000000 + (0 - record.minutes) * 60000000000 +
    (0 - record.seconds) * 1000000000 + (0 - record.milliseconds) * 1000000 + (0 - record.microseconds) * 1000 +
    (0 - record.nanoseconds) = _
  ring

theorem days_negated : record.negated.days = -record.days := zero_sub record.days

theorem timeNanos_negated : record.negated.timeNanos = -record.timeNanos := by
  have htotal : record.negated.total = _ := total_negated
  rw [total, total, days_negated] at htotal
  linear_combination htotal

theorem calendar_negated : record.negated.calendar = record.calendar := by
  have hzero : ∀ n : ℤ, decide (0 - n ≠ 0) = decide (n ≠ 0) := fun n => decide_eq_decide.2 (by omega)
  change (decide (0 - record.years ≠ 0) || decide (0 - record.months ≠ 0) || decide (0 - record.weeks ≠ 0)) = _
  rw [hzero, hzero, hzero]
  rfl

theorem DurationRecord.Valid.negated (h : record.Valid) : record.negated.Valid := by
  have hsigned : ∀ sign, record.SignedBy sign → record.negated.SignedBy (-sign) := by
    intro sign hsigned value hmem
    obtain ⟨field, hfield, rfl⟩ := List.mem_map.1 (show value ∈ record.toArray.map (0 - ·) from hmem)
    have hsign := hsigned field hfield
    rwa [zero_sub, neg_mul_neg]
  refine ⟨?_, ?_, by rw [total_negated, abs_neg]; exact h.inLimit⟩
  · obtain h | h := h.signed
    · exact .inr (hsigned 1 h)
    · exact .inl (by have := hsigned (-1) h; rwa [neg_neg] at this)
  · change |0 - record.years| < 2 ^ 32 ∧ |0 - record.months| < 2 ^ 32 ∧ |0 - record.weeks| < 2 ^ 32
    rw [zero_sub, zero_sub, zero_sub, abs_neg, abs_neg, abs_neg]
    exact h.calendarFields

/-- days and a time of one sign, the time shorter than a day, are the quotient and the rest of the total -/
theorem quotient_of_total {days time : ℤ} (hsame : ¬Opposed days time) (hshort : |time| < nanosPerDay) :
    days = (days * nanosPerDay + time).tdiv nanosPerDay ∧ time = (days * nanosPerDay + time).tmod nanosPerDay := by
  have hsplit := Int.mul_tdiv_add_tmod (days * nanosPerDay + time) nanosPerDay
  have hrest := abs_lt.1 (tmod_bounds (days * nanosPerDay + time))
  have htime := abs_lt.1 hshort
  unfold Opposed at hsame
  obtain hnonneg | hneg := le_total 0 (days * nanosPerDay + time)
  · have hmod := Int.tmod_nonneg nanosPerDay hnonneg
    unfold nanosPerDay at *
    omega
  · have hmod := Int.tmod_nonneg nanosPerDay (show 0 ≤ -(days * nanosPerDay + time) by omega)
    rw [Int.neg_tmod] at hmod
    unfold nanosPerDay at *
    omega

/-- `order` is the sign of the difference -/
theorem order_eq (one two : ℤ) : order one two = (one - two).sign := by
  unfold order
  split_ifs with hlt hsame
  · exact (Int.sign_eq_neg_one_of_neg (by omega)).symm
  · rw [hsame, sub_self, Int.sign_zero]
  · exact (Int.sign_eq_one_of_pos (by omega)).symm

theorem compareDurations_eq {other : DurationRecord} (hcalendar : record.calendar = false) (hcalendar' : other.calendar = false)
    (relativeTo : Option IsoDate) : compareDurations record other relativeTo = .ok (record.total - other.total).sign := by
  unfold compareDurations
  rw [hcalendar, hcalendar', order_eq]
  rfl

/--
The sum is there exactly if the totals add up within the limit; it is valid and has that total, subtracting leads back to the
first total, and comparing it goes by the total.
-/
structure AddsTotals (first second : DurationRecord) : Prop where
  succeeds : (∃ result, addDurations first second = .ok result) ↔ |first.total + second.total| < totalLimit
  result : ∀ result, addDurations first second = .ok result →
    isValid result.toArray = true ∧ result.calendar = false ∧ result.total = first.total + second.total ∧
    (∃ difference, addDurations result second.negated = .ok difference ∧ difference.total = first.total) ∧
    ∀ other, isValid other.toArray = true → other.calendar = false → ∀ relativeTo,
      compareDurations result other relativeTo = .ok (result.total - other.total).sign ∧
      compareDurations other result relativeTo = .ok (other.total - result.total).sign

/-- the fields of a clean sum are the quotient and the rest of its total -/
theorem carried_parts {days time : ℤ} (hclean : CarriesCleanly days time) :
    (carried days time).days = (days * nanosPerDay + time).tdiv nanosPerDay ∧
    (carried days time).timeNanos = (days * nanosPerDay + time).tmod nanosPerDay := by
  have hparts := quotient_of_total hclean (tmod_bounds time)
  have htotal : (days + time.tdiv nanosPerDay) * nanosPerDay + time.tmod nanosPerDay = days * nanosPerDay + time := by
    linear_combination Int.mul_tdiv_add_tmod time nanosPerDay
  rw [htotal] at hparts
  rw [carried, timeNanos_ofDaysAndTime]
  exact hparts

/-- subtracting leads back exactly if the difference of the parts is clean -/
theorem subtract_iff {result : DurationRecord} (hfirst : first.Valid) (hsecond : second.Valid) (hresult : result.Valid)
    (hcalendar : result.calendar = false) (hcalendar' : second.calendar = false)
    (htotal : result.total = first.total + second.total) :
    (∃ difference, addDurations result second.negated = .ok difference ∧ difference.total = first.total) ↔
      CarriesCleanly (result.days - second.days) (result.timeNanos - second.timeNanos) := by
  have hback : result.total + second.negated.total = first.total := by
    rw [total_negated, htotal, add_neg_cancel_right]
  have hok := fun difference => @addDurations_ok _ _ hresult hsecond.negated hcalendar
    (by rw [calendar_negated, hcalendar']) difference
  simp only [hok, days_negated, timeNanos_negated, ← sub_eq_add_neg]
  constructor
  · rintro ⟨difference, ⟨⟨hclean, -⟩, -⟩, -⟩
    exact hclean
  · intro hclean
    refine ⟨_, ⟨⟨hclean, hback ▸ hfirst.inLimit⟩, rfl⟩, ?_⟩
    rw [total_carried]
    unfold total at htotal ⊢
    linear_combination htotal

/--
**Adding durations.** The sum of two durations of days and time has the sum of the totals exactly if the total is out of range,
or the carried days and the rest of the time do not have opposite signs, neither on the way there nor back.
-/
theorem add_totals (hfirst : isValid first.toArray = true) (hsecond : isValid second.toArray = true)
    (hcalendar : first.calendar = false) (hcalendar' : second.calendar = false) : AddsTotals first second ↔
      (|first.total + second.total| < totalLimit →
        CarriesCleanly (first.days + second.days) (first.timeNanos + second.timeNanos) ∧
        CarriesCleanly ((first.total + second.total).tdiv nanosPerDay - second.days)
          ((first.total + second.total).tmod nanosPerDay - second.timeNanos)) := by
  have hfirst := isValid_iff.1 hfirst
  have hsecond := isValid_iff.1 hsecond
  have hok := fun result => @addDurations_ok _ _ hfirst hsecond hcalendar hcalendar' result
  have hsum : first.total + second.total =
      (first.days + second.days) * nanosPerDay + (first.timeNanos + second.timeNanos) := by
    unfold total
    ring
  -- a clean sum within the limit is a valid record with the total, and its parts are those of the total
  have hcarried : CarriesCleanly (first.days + second.days) (first.timeNanos + second.timeNanos) →
      |first.total + second.total| < totalLimit → ∀ result, addDurations first second = .ok result →
      (result.Valid ∧ result.calendar = false ∧ result.total = first.total + second.total) ∧
      ((∃ difference, addDurations result second.negated = .ok difference ∧ difference.total = first.total) ↔
        CarriesCleanly ((first.total + second.total).tdiv nanosPerDay - second.days)
          ((first.total + second.total).tmod nanosPerDay - second.timeNanos)) := by
    intro hclean hlimit result hresult
    have hrecord := ((hok result).1 hresult).2
    have hparts := carried_parts hclean
    have htotal := total_carried (first.days + second.days) (first.timeNanos + second.timeNanos)
    rw [hrecord, ← hsum] at hparts htotal
    have hvalid : result.Valid := by
      rw [← isValid_iff, ← hrecord, isValid_carried, ← hsum]
      exact ⟨hclean, hlimit⟩
    have hnone : result.calendar = false := hrecord ▸ calendar_ofDaysAndTime
    rw [subtract_iff hfirst hsecond hvalid hnone hcalendar' htotal, hparts.1, hparts.2]
    exact ⟨⟨hvalid, hnone, htotal⟩, Iff.rfl⟩
  constructor
  · intro h hlimit
    obtain ⟨result, hresult⟩ := h.succeeds.2 hlimit
    have hclean := ((hok result).1 hresult).1.1
    exact ⟨hclean, (hcarried hclean hlimit result hresult).2.1 (h.result result hresult).2.2.2.1⟩
  · intro h
    refine ⟨⟨fun ⟨result, hresult⟩ => ((hok result).1 hresult).1.2, fun hlimit => ⟨_, (hok _).2 ⟨⟨(h hlimit).1, hlimit⟩, rfl⟩⟩⟩,
      fun result hresult => ?_⟩
    obtain ⟨⟨hclean, hlimit⟩, -⟩ := (hok result).1 hresult
    obtain ⟨⟨hvalid, hnone, htotal⟩, hback⟩ := hcarried hclean hlimit result hresult
    exact ⟨isValid_iff.2 hvalid, hnone, htotal, hback.2 (h hlimit).2, fun other _ hother relativeTo =>
      ⟨compareDurations_eq hnone hother relativeTo, compareDurations_eq hother hnone relativeTo⟩⟩

/-- a day and an hour less -/
def oneDay : DurationRecord := ⟨0, 0, 0, 1, 0, 0, 0, 0, 0, 0⟩

def hourBack : DurationRecord := ⟨0, 0, 0, 0, -1, 0, 0, 0, 0, 0⟩

/-- a day and a day add up -/
theorem add_totals_days : AddsTotals oneDay oneDay ↔ (|oneDay.total + oneDay.total| < totalLimit →
    CarriesCleanly (oneDay.days + oneDay.days) (oneDay.timeNanos + oneDay.timeNanos) ∧
    CarriesCleanly ((oneDay.total + oneDay.total).tdiv nanosPerDay - oneDay.days)
      ((oneDay.total + oneDay.total).tmod nanosPerDay - oneDay.timeNanos)) :=
  add_totals (by decide) (by decide) rfl rfl

/-- a day and minus one hour are 23 hours, but their sum is refused -/
theorem day_and_hourBack_refused : ¬∀ first second : DurationRecord, isValid first.toArray = true →
    isValid second.toArray = true → first.calendar = false → second.calendar = false → AddsTotals first second := by
  intro h
  have hadds := h oneDay hourBack (by decide) (by decide) rfl rfl
  obtain ⟨result, hresult⟩ := hadds.succeeds.2 (by decide)
  have hrefused : addDurations oneDay hourBack = .error "duration result is out of range" := by decide
  rw [hrefused] at hresult
  cases hresult

end Adding

end Render.Temporal
