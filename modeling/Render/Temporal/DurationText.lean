/-
Duration texts (`parse_duration` in `temporal/parse.rs`).

The parser is a loop over the components. Its flags keep the date components before the `T` and the time components behind it, and a
fraction at the end. The order of the components and their repetition are not looked at, and a number has to fit into 128 bits
(`duration_texts`).
-/
import Render.Temporal.Parse

namespace Render.Temporal

open Render.Net Cursor

/-! ## The parser -/

/-- a number of a duration text: its integer part and the digits of its fraction -/
structure Component where
  whole : ℤ
  fraction : Chars
deriving DecidableEq, Repr

structure ParsedDuration where
  negative : Bool
  years : Option Component
  months : Option Component
  weeks : Option Component
  days : Option Component
  hours : Option Component
  minutes : Option Component
  seconds : Option Component
deriving DecidableEq, Repr

/-- the state of the loop, with the text that is left -/
structure DurationState where
  rest : Chars
  parsed : ParsedDuration
  any : Bool
  inTime : Bool
  timeSeen : Bool

/-- `parse::<i128>` of digits -/
def parseI128 (digits : Chars) : Option ℤ := if number digits < 2 ^ 127 then some (number digits) else none

/-- the component of the designator; a time component is noted -/
def setComponent (state : DurationState) (designator : Char) (value : Component) : Option DurationState :=
  match state.inTime, designator.toUpper with
  | false, 'Y' => some { state with parsed.years := some value }
  | false, 'M' => some { state with parsed.months := some value }
  | false, 'W' => some { state with parsed.weeks := some value }
  | false, 'D' => some { state with parsed.days := some value }
  | true, 'H' => some { state with timeSeen := true, parsed.hours := some value }
  | true, 'M' => some { state with timeSeen := true, parsed.minutes := some value }
  | true, 'S' => some { state with timeSeen := true, parsed.seconds := some value }
  | _, _ => none

/-- the digits behind a separator, none if there is no separator -/
def optionalFraction (text : Chars) : Option (Chars × Chars) :=
  match eatOneOf ['.', ','] text with
  | some rest => fractionDigits rest
  | none => some ([], text)

/-- a component from its digits on -/
def durationComponent (state : DurationState) : Option DurationState := do
  let (digits, rest) ← digitRun state.rest
  let (fraction, rest) ← optionalFraction rest
  let designator ← rest.head?
  let rest := rest.tail
  let whole ← parseI128 digits
  let state ← setComponent state designator ⟨whole, fraction⟩
  if fraction ≠ [] ∧ (!state.inTime ∨ peekIsDigit rest) then none else some { state with rest, any := true }

/-- one turn of the loop -/
def durationStep (state : DurationState) : Option DurationState :=
  match eatOneOf ['T', 't'] state.rest with
  | some rest => if state.inTime then none else some { state with rest, inTime := true }
  | none => durationComponent state

/-- the loop; each turn takes a character at least -/
def durationLoop : ℕ → DurationState → Option DurationState
  | 0, state => some state
  | fuel + 1, state => if state.rest = [] then some state else durationStep state >>= durationLoop fuel

def ParsedDuration.default : ParsedDuration := ⟨false, none, none, none, none, none, none, none⟩

def parseDuration (text : Chars) : Option ParsedDuration := do
  let signed := eatOneOf ['+', '-'] text
  let negative := signed.isSome && text.head? = some '-'
  let rest ← eatOneOf ['P', 'p'] (signed.getD text)
  let state ← durationLoop rest.length ⟨rest, { ParsedDuration.default with negative }, false, false, false⟩
  if state.inTime ∧ !state.timeSeen then none
  else if state.any then some state.parsed
  else none

/-! ## The grammar -/

/-- the designators in their order -/
inductive Designator where
  | years
  | months
  | weeks
  | days
  | hours
  | minutes
  | seconds
deriving DecidableEq, Repr

namespace Designator

def letter : Designator → Char
  | .years => 'Y'
  | .months => 'M'
  | .weeks => 'W'
  | .days => 'D'
  | .hours => 'H'
  | .minutes => 'M'
  | .seconds => 'S'

def rank : Designator → ℕ
  | .years => 0
  | .months => 1
  | .weeks => 2
  | .days => 3
  | .hours => 4
  | .minutes => 5
  | .seconds => 6

/-- the designators behind the `T` -/
def isTime (designator : Designator) : Bool := 4 ≤ designator.rank

end Designator

/-- the component of a designator -/
def ParsedDuration.get (parsed : ParsedDuration) : Designator → Option Component
  | .years => parsed.years
  | .months => parsed.months
  | .weeks => parsed.weeks
  | .days => parsed.days
  | .hours => parsed.hours
  | .minutes => parsed.minutes
  | .seconds => parsed.seconds

def ParsedDuration.set (parsed : ParsedDuration) (designator : Designator) (value : Component) : ParsedDuration :=
  match designator with
  | .years => { parsed with years := some value }
  | .months => { parsed with months := some value }
  | .weeks => { parsed with weeks := some value }
  | .days => { parsed with days := some value }
  | .hours => { parsed with hours := some value }
  | .minutes => { parsed with minutes := some value }
  | .seconds => { parsed with seconds := some value }

/-- one or more digits -/
def IsDigits (text : Chars) : Prop := text ≠ [] ∧ ∀ c ∈ text, c.isDigit = true

/-- a component as it is written: digits, a separator and the digits of a fraction if there is one, and a letter -/
structure Written where
  designator : Designator
  whole : Chars
  fraction : Option (Char × Chars)
  letter : Char

namespace Written

def spelling (component : Written) : Chars :=
  component.whole ++ component.fraction.elim [] (fun (separator, digits) => separator :: digits) ++ [component.letter]

def fractionText (component : Written) : Chars := component.fraction.elim [] (·.2)

/-- what is written: the number and the digits of the fraction -/
def component (component : Written) : Component := ⟨number component.whole, component.fractionText⟩

structure WellFormed (component : Written) : Prop where
  whole : IsDigits component.whole
  fraction : ∀ separator digits, component.fraction = some (separator, digits) →
    (separator = '.' ∨ separator = ',') ∧ IsDigits digits ∧ digits.length ≤ 9
  letter : component.letter.toUpper = component.designator.letter

end Written

/-- the text of components -/
def spelled (components : List Written) : Chars := components.flatMap Written.spelling

/-- a duration as it is written; the time is there if there is a `T` -/
structure WrittenDuration where
  sign : Option Char
  mark : Char
  date : List Written
  time : Option (Char × List Written)

namespace WrittenDuration

variable (written : WrittenDuration)

def timeComponents : List Written := written.time.elim [] (·.2)

def components : List Written := written.date ++ written.timeComponents

def text : Chars :=
  written.sign.toList ++ [written.mark] ++ spelled written.date ++
    written.time.elim [] fun (mark, components) => mark :: spelled components

/--
A sign, a `P`, date components without a fraction and, behind a `T`, one or more time components of which only the last has a
fraction; there is a component.
-/
structure Loose : Prop where
  sign : ∀ c, written.sign = some c → c = '+' ∨ c = '-'
  mark : written.mark = 'P' ∨ written.mark = 'p'
  timeMark : ∀ c components, written.time = some (c, components) → (c = 'T' ∨ c = 't') ∧ components ≠ []
  wellFormed : ∀ component ∈ written.components, component.WellFormed
  dates : ∀ component ∈ written.date, component.designator.isTime = false ∧ component.fraction = none
  times : ∀ component ∈ written.timeComponents, component.designator.isTime = true
  fractions : ∀ component ∈ written.timeComponents.dropLast, component.fraction = none
  nonempty : written.components ≠ []

/-- the components in their order, and none twice -/
def Ordered : Prop := (written.components.map fun component => component.designator.rank).Pairwise (· < ·)

/-- the numbers fit into 128 bits -/
def Fits : Prop := ∀ component ∈ written.components, number component.whole < 2 ^ 127

/-- a text of the grammar -/
structure Grammatical : Prop where
  loose : written.Loose
  ordered : written.Ordered

end WrittenDuration

/-! ## Reading digits -/

section Digits

variable {text rest digits : Chars}

theorem digitRun_append (h : IsDigits digits) (hrest : ∀ c ∈ rest.head?, c.isDigit = false) :
    digitRun (digits ++ rest) = some (digits, rest) := by
  have htake : rest.takeWhile Char.isDigit = [] ∧ rest.dropWhile Char.isDigit = rest := by
    cases rest with
    | nil => exact ⟨rfl, rfl⟩
    | cons c rest =>
      have hc := hrest c rfl
      exact ⟨List.takeWhile_cons_of_neg (by simp [hc]), List.dropWhile_cons_of_neg (by simp [hc])⟩
  unfold digitRun
  rw [List.takeWhile_append_of_pos h.2, List.dropWhile_append_of_pos h.2, htake.1, htake.2, List.append_nil, if_neg h.1]

theorem digitRun_eq_some (h : digitRun text = some (digits, rest)) :
    text = digits ++ rest ∧ IsDigits digits ∧ ∀ c ∈ rest.head?, c.isDigit = false := by
  unfold digitRun at h
  split_ifs at h with hne
  obtain ⟨rfl, rfl⟩ := Prod.mk.inj (Option.some.inj h)
  refine ⟨List.takeWhile_append_dropWhile.symm, ⟨hne, List.all_eq_true.1 List.all_takeWhile⟩, fun c hc => ?_⟩
  have hhead := List.head?_dropWhile_not Char.isDigit text
  rw [Option.mem_def.1 hc] at hhead
  simpa using hhead

theorem fractionDigits_append (h : IsDigits digits) (hlength : digits.length ≤ 9)
    (hrest : ∀ c ∈ rest.head?, c.isDigit = false) : fractionDigits (digits ++ rest) = some (digits, rest) := by
  unfold fractionDigits
  rw [digitRun_append h hrest]
  exact if_pos hlength

theorem fractionDigits_eq_some (h : fractionDigits text = some (digits, rest)) :
    text = digits ++ rest ∧ IsDigits digits ∧ digits.length ≤ 9 ∧ ∀ c ∈ rest.head?, c.isDigit = false := by
  obtain ⟨⟨run, behind⟩, hrun, hsome⟩ := Option.bind_eq_some_iff.1 h
  dsimp only at hsome
  split_ifs at hsome with hlength
  obtain ⟨rfl, rfl⟩ := Prod.mk.inj (Option.some.inj hsome)
  obtain ⟨htext, hdigits, hrest⟩ := digitRun_eq_some hrun
  exact ⟨htext, hdigits, hlength, hrest⟩

theorem eatOneOf_eq_some {options : List Char} (h : eatOneOf options text = some rest) :
    ∃ c ∈ options, text = c :: rest := by
  cases text with
  | nil => simp [eatOneOf] at h
  | cons c behind =>
    simp only [eatOneOf] at h
    split_ifs at h with hc
    exact ⟨c, hc, by rw [Option.some.inj h]⟩

theorem eatOneOf_cons {options : List Char} {c : Char} (h : c ∈ options) : eatOneOf options (c :: rest) = some rest := if_pos h

theorem eatOneOf_none {options : List Char} (h : ∀ c ∈ text.head?, c ∉ options) : eatOneOf options text = none := by
  cases text with
  | nil => rfl
  | cons c behind => exact if_neg (h c rfl)

end Digits

/-- the letters of designators are neither digits nor separators -/
theorem letter_ne {designator : Designator} {letter : Char} (h : letter.toUpper = designator.letter) :
    letter.isDigit = false ∧ letter ∉ ['.', ','] := by
  constructor
  · by_contra hdigit
    rw [Bool.not_eq_false] at hdigit
    have hupper : letter.toUpper = letter := by
      unfold Char.toUpper
      rw [dif_neg]
      simp only [Char.isDigit, Bool.and_eq_true, decide_eq_true_eq] at hdigit
      intro hlower
      exact absurd (UInt32.le_trans hlower.1 hdigit.2) (by decide)
    rw [hupper.symm.trans h] at hdigit
    cases designator <;> revert hdigit <;> decide
  · simp only [List.mem_cons, List.not_mem_nil, or_false, not_or]
    constructor <;> rintro rfl <;> cases designator <;> revert h <;> decide

/-! ## One component -/

namespace DurationState

/-- the components having been read -/
def advanced (state : DurationState) (components : List Written) (rest : Chars) : DurationState where
  rest := rest
  parsed := components.foldl (fun parsed component => parsed.set component.designator component.component) state.parsed
  any := state.any || components ≠ []
  inTime := state.inTime
  timeSeen := state.timeSeen || state.inTime && components ≠ []

end DurationState

section Component

variable {state next : DurationState} {component : Written} {more : Chars}

theorem setComponent_eq {designator : Designator} {letter : Char} {value : Component}
    (htime : designator.isTime = state.inTime) (h : letter.toUpper = designator.letter) :
    setComponent state letter value = some { state with
      parsed := state.parsed.set designator value, timeSeen := state.timeSeen || state.inTime } := by
  obtain ⟨rest, parsed, any, inTime, timeSeen⟩ := state
  dsimp only at htime
  subst htime
  unfold setComponent
  dsimp only
  rw [h]
  cases designator <;> simp [Designator.isTime, Designator.rank, Designator.letter, ParsedDuration.set]

theorem setComponent_eq_some {letter : Char} {value : Component} (h : setComponent state letter value = some next) :
    ∃ designator : Designator, designator.isTime = state.inTime ∧ letter.toUpper = designator.letter := by
  unfold setComponent at h
  split at h
  · exact ⟨.years, by simp_all [Designator.isTime, Designator.rank], by assumption⟩
  · exact ⟨.months, by simp_all [Designator.isTime, Designator.rank], by assumption⟩
  · exact ⟨.weeks, by simp_all [Designator.isTime, Designator.rank], by assumption⟩
  · exact ⟨.days, by simp_all [Designator.isTime, Designator.rank], by assumption⟩
  · exact ⟨.hours, by simp_all [Designator.isTime, Designator.rank], by assumption⟩
  · exact ⟨.minutes, by simp_all [Designator.isTime, Designator.rank], by assumption⟩
  · exact ⟨.seconds, by simp_all [Designator.isTime, Designator.rank], by assumption⟩
  · cases h

/-- a fraction is behind a time component, and no digit follows it -/
def FractionAllowed (state : DurationState) (component : Written) (more : Chars) : Prop :=
  component.fraction = none ∨ state.inTime = true ∧ peekIsDigit more = false

/-- the digits, the separator and the letter of a component are found one behind the other -/
theorem durationComponent_spelling (hwell : component.WellFormed) (htime : component.designator.isTime = state.inTime)
    (hallowed : FractionAllowed state component more) (hrest : state.rest = component.spelling ++ more) :
    durationComponent state =
      if number component.whole < 2 ^ 127 then some (state.advanced [component] more) else none := by
  obtain ⟨designator, whole, fraction, letter⟩ := component
  obtain ⟨hwhole, hfraction, hletter⟩ := hwell
  obtain ⟨hdigit, hseparator⟩ := letter_ne hletter
  dsimp only at hwhole hfraction hletter htime hallowed hrest
  have hletterHead : ∀ c ∈ (letter :: more).head?, c.isDigit = false := by
    rintro c ⟨⟩
    exact hdigit
  have hallowed : ¬((Written.fractionText ⟨designator, whole, fraction, letter⟩) ≠ [] ∧
      ((!state.inTime) = true ∨ peekIsDigit more = true)) := by
    rintro ⟨hsome, hforbidden⟩
    obtain hnone | ⟨hin, hmore⟩ := hallowed
    · exact hsome (by rw [Written.fractionText, show fraction = none from hnone]; rfl)
    · simp [hin, hmore] at hforbidden
  -- what is read behind the digits of the integer part
  have hread : ∀ behind, behind = fraction.elim [] (fun (separator, digits) => separator :: digits) ++ letter :: more →
      (∀ c ∈ behind.head?, c.isDigit = false) ∧ optionalFraction behind =
        some (Written.fractionText ⟨designator, whole, fraction, letter⟩, letter :: more) := by
    rintro _ rfl
    cases fraction with
    | none =>
      have heat : eatOneOf ['.', ','] (letter :: more) = none := eatOneOf_none (by rintro c ⟨⟩; exact hseparator)
      exact ⟨hletterHead, by simp only [Option.elim, List.nil_append, optionalFraction, heat]; rfl⟩
    | some part =>
      obtain ⟨separator, digits⟩ := part
      obtain ⟨hkind, hdigits, hlength⟩ := hfraction separator digits rfl
      have hmem : separator ∈ ['.', ','] := by simpa using hkind
      refine ⟨?_, ?_⟩
      · rintro c ⟨⟩
        obtain rfl | rfl := hkind <;> rfl
      · simp only [Option.elim, List.cons_append, optionalFraction, eatOneOf_cons hmem]
        exact fractionDigits_append hdigits hlength hletterHead
  obtain ⟨hhead, hread⟩ := hread _ rfl
  have hsplit : state.rest =
      whole ++ (fraction.elim [] (fun (separator, digits) => separator :: digits) ++ letter :: more) := by
    rw [hrest]
    simp [Written.spelling]
  unfold durationComponent
  rw [hsplit, digitRun_append hwhole hhead]
  simp only [Option.bind_eq_bind, Option.bind_some]
  rw [hread]
  simp only [Option.bind_some, List.head?_cons, List.tail_cons, parseI128]
  split_ifs with hfits
  · rw [Option.bind_some, setComponent_eq htime hletter, Option.bind_some]
    refine (if_neg hallowed).trans ?_
    simp [DurationState.advanced, Written.component]
  · rfl

/-- a component that has been read was written there -/
theorem durationComponent_eq_some (h : durationComponent state = some next) :
    ∃ component : Written, component.WellFormed ∧ component.designator.isTime = state.inTime ∧
      FractionAllowed state component next.rest ∧ state.rest = component.spelling ++ next.rest ∧
      number component.whole < 2 ^ 127 ∧ next = state.advanced [component] next.rest := by
  obtain ⟨⟨whole, behind⟩, hrun, h⟩ := Option.bind_eq_some_iff.1 h
  obtain ⟨⟨digits, rest⟩, hfraction, h⟩ := Option.bind_eq_some_iff.1 h
  obtain ⟨letter, hletter, h⟩ := Option.bind_eq_some_iff.1 h
  obtain ⟨value, hvalue, h⟩ := Option.bind_eq_some_iff.1 h
  obtain ⟨set, hset, h⟩ := Option.bind_eq_some_iff.1 h
  obtain ⟨hdigits, hwhole, -⟩ := digitRun_eq_some hrun
  obtain ⟨designator, htime, hupper⟩ := setComponent_eq_some hset
  rw [setComponent_eq htime hupper] at hset
  rw [← Option.some.inj hset] at h
  have hrest : rest = letter :: rest.tail := List.eq_cons_of_mem_head? hletter
  have hvalue : number whole < 2 ^ 127 ∧ value = number whole := by
    unfold parseI128 at hvalue
    split_ifs at hvalue with hfits
    exact ⟨hfits, (Option.some.inj hvalue).symm⟩
  split_ifs at h with hforbidden
  have hnext := (Option.some.inj h).symm
  have hallowed : digits = [] ∨ state.inTime = true ∧ peekIsDigit rest.tail = false := by
    by_contra hnot
    simp only [not_or, not_and, Bool.not_eq_false] at hnot
    refine hforbidden ⟨hnot.1, ?_⟩
    cases hin : state.inTime with
    | false => exact .inl rfl
    | true => exact .inr (hnot.2 hin)
  unfold optionalFraction at hfraction
  split at hfraction
  · -- a separator and the digits of a fraction
    rename_i behind' heat
    obtain ⟨separator, hseparator, hbehind⟩ := eatOneOf_eq_some heat
    obtain ⟨htext, hpart, hlength, -⟩ := fractionDigits_eq_some hfraction
    refine ⟨⟨designator, whole, some (separator, digits), letter⟩, ⟨hwhole, ?_, hupper⟩, htime, ?_, ?_, hvalue.1, ?_⟩
    · rintro _ _ ⟨⟩
      exact ⟨by simpa using hseparator, hpart, hlength⟩
    · rw [hnext]
      exact .inr (hallowed.resolve_left hpart.1)
    · rw [hnext, hdigits, hbehind, htext, hrest]
      simp [Written.spelling]
    · rw [hnext, hvalue.2]
      simp [DurationState.advanced, Written.component, Written.fractionText]
  · -- no fraction
    obtain ⟨rfl, rfl⟩ := Prod.mk.inj (Option.some.inj hfraction)
    refine ⟨⟨designator, whole, none, letter⟩, ⟨hwhole, ?_, hupper⟩, htime, .inl rfl, ?_, hvalue.1, ?_⟩
    · rintro _ _ ⟨⟩
    · rw [hnext, hdigits, hrest]
      simp [Written.spelling]
    · rw [hnext, hvalue.2]
      simp [DurationState.advanced, Written.component, Written.fractionText]

end Component

/-! ## Many components -/

section Loop

variable {state next : DurationState} {components : List Written} {more : Chars} {fuel : ℕ}

theorem Written.WellFormed.head {component : Written} (h : component.WellFormed) :
    ∃ c rest, component.spelling = c :: rest ∧ c.isDigit = true := by
  obtain ⟨c, digits, hdigits⟩ := List.exists_cons_of_ne_nil h.whole.1
  have hdigit := h.whole.2 c (hdigits ▸ List.mem_cons_self ..)
  unfold Written.spelling
  rw [hdigits]
  exact ⟨c, _, rfl, hdigit⟩

theorem not_timeMark {c : Char} (h : c.isDigit = true) : c ∉ ['T', 't'] := by
  simp only [List.mem_cons, List.not_mem_nil, or_false, not_or]
  constructor <;> rintro rfl <;> revert h <;> decide

/-- a component does not begin with a `T` -/
theorem durationStep_spelling {component : Written} (hwell : component.WellFormed)
    (hrest : state.rest = component.spelling ++ more) : durationStep state = durationComponent state := by
  obtain ⟨c, digits, hspelling, hdigit⟩ := hwell.head
  have heat : eatOneOf ['T', 't'] state.rest = none := by
    refine eatOneOf_none ?_
    rw [hrest, hspelling]
    rintro _ ⟨⟩
    exact not_timeMark hdigit
  unfold durationStep
  rw [heat]

@[simp] theorem advanced_nil : state.advanced [] state.rest = state := by simp [DurationState.advanced]

@[simp] theorem advanced_cons (component : Written) (rest more : Chars) :
    (state.advanced [component] rest).advanced components more = state.advanced (component :: components) more := by
  cases hin : state.inTime <;> simp [DurationState.advanced, hin]

@[simp] theorem rest_advanced : (state.advanced components more).rest = more := rfl

@[simp] theorem inTime_advanced : (state.advanced components more).inTime = state.inTime := rfl

theorem spelled_cons (component : Written) (components : List Written) :
    spelled (component :: components) = component.spelling ++ spelled components := List.flatMap_cons

/-- the loop goes through components that are written one behind the other, up to a number that does not fit -/
theorem durationLoop_spelled (state : DurationState) (hwell : ∀ component ∈ components, component.WellFormed)
    (htime : ∀ component ∈ components, component.designator.isTime = state.inTime)
    (hallowed : ∀ before component after, components = before ++ component :: after →
      FractionAllowed state component (spelled after ++ more))
    (hrest : state.rest = spelled components ++ more) (hfuel : (spelled components ++ more).length ≤ fuel) :
    ∃ fuel', more.length ≤ fuel' ∧ durationLoop fuel state =
      if ∀ component ∈ components, number component.whole < 2 ^ 127 then durationLoop fuel' (state.advanced components more)
      else none := by
  induction components generalizing state fuel with
  | nil =>
    have hsame : state.rest = more := hrest
    refine ⟨fuel, hfuel, ?_⟩
    rw [if_pos (by simp), ← hsame, advanced_nil]
  | cons component components ih =>
    have hone := hwell component (List.mem_cons_self ..)
    have hsplit : state.rest = component.spelling ++ (spelled components ++ more) := by
      rw [hrest, spelled_cons, List.append_assoc]
    obtain ⟨c, digits, hspelling, -⟩ := hone.head
    have hne : state.rest ≠ [] := by
      rw [hsplit, hspelling]
      simp
    have hlonger : (spelled components ++ more).length < fuel := by
      rw [spelled_cons, hspelling] at hfuel
      simp only [List.cons_append, List.length_cons, List.length_append] at hfuel ⊢
      omega
    obtain ⟨fuel, rfl⟩ : ∃ less, fuel = less + 1 := ⟨fuel - 1, by omega⟩
    have hstep := durationComponent_spelling hone (htime component (List.mem_cons_self ..))
      (hallowed [] component components rfl) hsplit
    have hloop : durationLoop (fuel + 1) state = durationStep state >>= durationLoop fuel := if_neg hne
    rw [hloop, durationStep_spelling hone hsplit, hstep]
    obtain ⟨fuel', hfuel', hrun⟩ := @ih fuel (state.advanced [component] (spelled components ++ more))
      (fun other hmem => hwell other (List.mem_cons_of_mem _ hmem))
      (fun other hmem => htime other (List.mem_cons_of_mem _ hmem))
      (fun before other after hsame => hallowed (component :: before) other after (by rw [hsame]; rfl)) rfl (by omega)
    refine ⟨fuel', hfuel', ?_⟩
    by_cases hfits : number component.whole < 2 ^ 127
    · rw [if_pos hfits, Option.bind_eq_bind, Option.bind_some, hrun, advanced_cons]
      simp only [List.forall_mem_cons, hfits, true_and]
    · rw [if_neg hfits, if_neg fun h => hfits (h component (List.mem_cons_self ..))]
      rfl

/-- components behind the `T`: well formed, their numbers fit, and only the last has a fraction -/
structure TimePart (components : List Written) : Prop where
  wellFormed : ∀ component ∈ components, component.WellFormed
  times : ∀ component ∈ components, component.designator.isTime = true
  fits : ∀ component ∈ components, number component.whole < 2 ^ 127
  fractions : ∀ component ∈ components.dropLast, component.fraction = none

/-- components before the `T`: well formed and without fractions, their numbers fit -/
structure DatePart (components : List Written) : Prop where
  wellFormed : ∀ component ∈ components, component.WellFormed
  dates : ∀ component ∈ components, component.designator.isTime = false ∧ component.fraction = none
  fits : ∀ component ∈ components, number component.whole < 2 ^ 127

theorem TimePart.nil : TimePart [] := ⟨by simp, by simp, by simp, by simp⟩

theorem DatePart.nil : DatePart [] := ⟨by simp, by simp, by simp⟩

/-- a component with a fraction is not followed by another one -/
theorem TimePart.cons {component : Written} (h : TimePart components) (hwell : component.WellFormed)
    (htime : component.designator.isTime = true) (hfits : number component.whole < 2 ^ 127)
    (hallowed : component.fraction = none ∨ peekIsDigit (spelled components) = false) : TimePart (component :: components) where
  wellFormed := List.forall_mem_cons.2 ⟨hwell, h.wellFormed⟩
  times := List.forall_mem_cons.2 ⟨htime, h.times⟩
  fits := List.forall_mem_cons.2 ⟨hfits, h.fits⟩
  fractions := by
    cases components with
    | nil => simp
    | cons after components =>
      rw [List.dropLast_cons_cons, List.forall_mem_cons]
      refine ⟨hallowed.resolve_right ?_, h.fractions⟩
      obtain ⟨c, digits, hspelling, hdigit⟩ := (h.wellFormed after (List.mem_cons_self ..)).head
      rw [spelled_cons, hspelling]
      simp [peekIsDigit, hdigit]

theorem DatePart.cons {component : Written} (h : DatePart components) (hwell : component.WellFormed)
    (hdate : component.designator.isTime = false) (hnone : component.fraction = none)
    (hfits : number component.whole < 2 ^ 127) : DatePart (component :: components) where
  wellFormed := List.forall_mem_cons.2 ⟨hwell, h.wellFormed⟩
  dates := List.forall_mem_cons.2 ⟨⟨hdate, hnone⟩, h.dates⟩
  fits := List.forall_mem_cons.2 ⟨hfits, h.fits⟩

/-- a turn of the loop takes a `T`, or a component -/
theorem durationStep_eq_some (h : durationStep state = some next) :
    (∃ mark, (mark = 'T' ∨ mark = 't') ∧ state.inTime = false ∧ state.rest = mark :: next.rest ∧
      next = { state with rest := next.rest, inTime := true }) ∨
    ∃ component : Written, component.WellFormed ∧ component.designator.isTime = state.inTime ∧
      FractionAllowed state component next.rest ∧ state.rest = component.spelling ++ next.rest ∧
      number component.whole < 2 ^ 127 ∧ next = state.advanced [component] next.rest := by
  unfold durationStep at h
  split at h
  · rename_i rest heat
    obtain ⟨mark, hmark, hrest⟩ := eatOneOf_eq_some heat
    split_ifs at h with hin
    have hnext := (Option.some.inj h).symm
    refine .inl ⟨mark, by simpa using hmark, by simpa using hin, ?_, ?_⟩
    · rw [hrest, hnext]
    · rw [hnext]
  · exact .inr (durationComponent_eq_some h)

theorem durationStep_shorter (h : durationStep state = some next) : next.rest.length < state.rest.length := by
  obtain ⟨mark, -, -, hrest, -⟩ | ⟨component, hwell, -, -, hrest, -, -⟩ := durationStep_eq_some h
  · rw [hrest]
    simp
  · obtain ⟨c, digits, hspelling, -⟩ := hwell.head
    rw [hrest, hspelling]
    simp

/-- the loop takes turns until nothing is left -/
theorem durationLoop_eq_some (hfuel : state.rest.length ≤ fuel) (h : durationLoop fuel state = some next) :
    state.rest = [] ∧ state = next ∨ ∃ middle fuel', durationStep state = some middle ∧ fuel' < fuel ∧
      middle.rest.length ≤ fuel' ∧ durationLoop fuel' middle = some next := by
  cases fuel with
  | zero => exact .inl ⟨List.length_eq_zero_iff.1 (by omega), Option.some.inj h⟩
  | succ fuel =>
    rw [durationLoop] at h
    split_ifs at h with hnil
    · exact .inl ⟨hnil, Option.some.inj h⟩
    · obtain ⟨middle, hstep, hloop⟩ := Option.bind_eq_some_iff.1 h
      have hshorter := durationStep_shorter hstep
      exact .inr ⟨middle, fuel, hstep, by omega, by omega, hloop⟩

/-- what a loop behind the `T` has gone through -/
theorem durationLoop_time (hin : state.inTime = true) (hfuel : state.rest.length ≤ fuel)
    (h : durationLoop fuel state = some next) : ∃ components, TimePart components ∧ state.rest = spelled components ∧
      next = state.advanced components [] := by
  induction fuel using Nat.strong_induction_on generalizing state with
  | _ fuel ih =>
    obtain ⟨hnil, rfl⟩ | ⟨middle, fuel', hstep, hless, hfuel', hloop⟩ := durationLoop_eq_some hfuel h
    · exact ⟨[], .nil, hnil, by rw [← hnil, advanced_nil]⟩
    · obtain ⟨-, -, hout, -⟩ | ⟨component, hwell, htime, hallowed, hrest, hfits, hmiddle⟩ := durationStep_eq_some hstep
      · rw [hin] at hout
        cases hout
      · have hinMiddle : middle.inTime = true := by rw [hmiddle, inTime_advanced, hin]
        obtain ⟨components, hpart, hspelled, hnext⟩ := ih fuel' hless hinMiddle hfuel' hloop
        rw [hspelled] at hallowed
        refine ⟨component :: components, hpart.cons hwell (htime.trans hin) hfits (hallowed.imp_right (·.2)), ?_, ?_⟩
        · rw [hrest, hspelled, spelled_cons]
        · rw [hnext, hmiddle, advanced_cons]

/-- what a loop before the `T` has gone through -/
theorem durationLoop_date (hout : state.inTime = false) (hfuel : state.rest.length ≤ fuel)
    (h : durationLoop fuel state = some next) : ∃ components, DatePart components ∧
      (state.rest = spelled components ∧ next = state.advanced components [] ∨
      ∃ mark times, (mark = 'T' ∨ mark = 't') ∧ TimePart times ∧ state.rest = spelled components ++ mark :: spelled times ∧
        next = { state.advanced components [] with inTime := true }.advanced times []) := by
  induction fuel using Nat.strong_induction_on generalizing state with
  | _ fuel ih =>
    obtain ⟨hnil, rfl⟩ | ⟨middle, fuel', hstep, hless, hfuel', hloop⟩ := durationLoop_eq_some hfuel h
    · exact ⟨[], .nil, .inl ⟨hnil, by rw [← hnil, advanced_nil]⟩⟩
    · obtain ⟨mark, hmark, -, hrest, hmiddle⟩ | ⟨component, hwell, hdate, hallowed, hrest, hfits, hmiddle⟩ :=
        durationStep_eq_some hstep
      · have hinMiddle : middle.inTime = true := by rw [hmiddle]
        obtain ⟨times, hpart, hspelled, hnext⟩ := durationLoop_time hinMiddle hfuel' hloop
        refine ⟨[], .nil, .inr ⟨mark, times, hmark, hpart, ?_, ?_⟩⟩
        · rw [hrest, hspelled]
          rfl
        · rw [hnext, hmiddle]
          simp [DurationState.advanced]
      · have houtMiddle : middle.inTime = false := by rw [hmiddle, inTime_advanced, hout]
        have hnone : component.fraction = none := hallowed.resolve_right (by simp [hout])
        obtain ⟨components, hpart, hends⟩ := ih fuel' hless houtMiddle hfuel' hloop
        refine ⟨component :: components, hpart.cons hwell (hdate.trans hout) hnone hfits, ?_⟩
        obtain ⟨hspelled, hnext⟩ | ⟨mark, times, hmark, htimes, hspelled, hnext⟩ := hends
        · refine .inl ⟨?_, ?_⟩
          · rw [hrest, hspelled, spelled_cons]
          · rw [hnext, hmiddle, advanced_cons]
        · refine .inr ⟨mark, times, hmark, htimes, ?_, ?_⟩
          · rw [hrest, hspelled, spelled_cons, List.append_assoc]
          · rw [hnext, hmiddle, advanced_cons]

end Loop

/-! ## Whole texts -/

namespace WrittenDuration

variable (written : WrittenDuration)

/-- the components are set one after the other -/
def result : ParsedDuration :=
  written.components.foldl (fun parsed component => parsed.set component.designator component.component)
    { ParsedDuration.default with negative := decide (written.sign = some '-') }

end WrittenDuration

section Texts

variable {written : WrittenDuration} {text : Chars} {parsed : ParsedDuration}

/-- the text behind the mark `P` -/
def WrittenDuration.body (written : WrittenDuration) : Chars :=
  spelled written.date ++ written.time.elim [] fun (mark, components) => mark :: spelled components

/-- the state behind the mark `P` -/
def startState (negative : Bool) (rest : Chars) : DurationState :=
  ⟨rest, { ParsedDuration.default with negative }, false, false, false⟩

/-- what is made of the state at the end -/
def finish (state : DurationState) : Option ParsedDuration :=
  if state.inTime ∧ !state.timeSeen then none else if state.any then some state.parsed else none

theorem parseDuration_body (hsign : ∀ c, written.sign = some c → c = '+' ∨ c = '-')
    (hmark : written.mark = 'P' ∨ written.mark = 'p') : parseDuration written.text =
      (durationLoop written.body.length (startState (decide (written.sign = some '-')) written.body) >>= finish) := by
  have hmem : written.mark ∈ ['P', 'p'] := by simpa using hmark
  have htext : written.text = written.sign.toList ++ written.mark :: written.body := by
    simp [WrittenDuration.text, WrittenDuration.body]
  rw [htext]
  cases hsome : written.sign with
  | none =>
    have heat : eatOneOf ['+', '-'] (written.mark :: written.body) = none := by
      refine eatOneOf_none ?_
      rintro _ ⟨⟩
      obtain h | h := hmark <;> rw [h] <;> decide
    unfold parseDuration
    simp only [Option.toList, List.nil_append, heat, Option.getD_none, eatOneOf_cons hmem]
    rfl
  | some c =>
    have hplus : c ∈ ['+', '-'] := by simpa using hsign c hsome
    unfold parseDuration
    simp only [Option.toList, List.cons_append, List.nil_append, eatOneOf_cons hplus, Option.getD_some, eatOneOf_cons hmem]
    rfl

theorem durationLoop_nil {state : DurationState} (h : state.rest = []) (fuel : ℕ) : durationLoop fuel state = some state := by
  cases fuel with
  | zero => rfl
  | succ fuel => exact if_pos h

theorem finish_advanced (state : DurationState) {components : List Written} (htime : state.inTime = true → components ≠ [])
    (hany : state.any = true ∨ components ≠ []) :
    finish (state.advanced components []) = some (state.advanced components []).parsed := by
  unfold finish
  rw [if_neg, if_pos]
  · simpa [DurationState.advanced] using hany
  · rintro ⟨hin, hseen⟩
    simp only [DurationState.advanced] at hin hseen
    simp [hin, htime hin] at hseen

/-- a text of components is accepted exactly if its numbers fit, and the components are set one after the other -/
theorem parseDuration_text (h : written.Loose) [Decidable written.Fits] :
    parseDuration written.text = if written.Fits then some written.result else none := by
  rw [parseDuration_body h.sign h.mark]
  obtain ⟨sign, mark, date, time⟩ := written
  have hdates := h.dates
  have hnonempty := h.nonempty
  have hwellDate : ∀ component ∈ date, component.WellFormed := fun component hmem =>
    h.wellFormed component (List.mem_append_left _ hmem)
  have hallowedDate : ∀ state more before component after, date = before ++ component :: after →
      FractionAllowed state component (spelled after ++ more) := fun state more before component after hsame =>
    .inl (hdates component (by rw [hsame]; simp)).2
  cases time with
  | none =>
    have hcomponents : WrittenDuration.components ⟨sign, mark, date, none⟩ = date := List.append_nil date
    rw [hcomponents] at hnonempty
    obtain ⟨fuel, -, hrun⟩ := durationLoop_spelled (startState (decide (sign = some '-')) (spelled date ++ []))
      hwellDate (fun component hmem => (hdates component hmem).1) (hallowedDate _ _) rfl le_rfl
    have hbody : WrittenDuration.body ⟨sign, mark, date, none⟩ = spelled date ++ [] := rfl
    rw [hbody, hrun, durationLoop_nil rfl]
    unfold WrittenDuration.Fits WrittenDuration.result
    simp only [hcomponents]
    split_ifs
    · exact finish_advanced (startState _ _) (by simp [startState]) (.inr hnonempty)
    · rfl
  | some part =>
    obtain ⟨timeMark, times⟩ := part
    obtain ⟨htimeMark, hsome⟩ := h.timeMark timeMark times rfl
    have hcomponents : WrittenDuration.components ⟨sign, mark, date, some (timeMark, times)⟩ = date ++ times := rfl
    have hwellTimes : ∀ component ∈ times, component.WellFormed := fun component hmem =>
      h.wellFormed component (List.mem_append_right _ hmem)
    obtain ⟨fuel, hfuel, hrun⟩ := durationLoop_spelled
      (startState (decide (sign = some '-')) (spelled date ++ timeMark :: spelled times))
      hwellDate (fun component hmem => (hdates component hmem).1) (hallowedDate _ _) rfl le_rfl
    have hbody : WrittenDuration.body ⟨sign, mark, date, some (timeMark, times)⟩ =
      spelled date ++ timeMark :: spelled times := rfl
    rw [hbody, hrun]
    obtain ⟨fuel, rfl⟩ : ∃ less, fuel = less + 1 := ⟨fuel - 1, by rw [List.length_cons] at hfuel; omega⟩
    -- behind the `T`
    have hmem : timeMark ∈ ['T', 't'] := by simpa using htimeMark
    generalize hmiddle : (startState (decide (sign = some '-')) (spelled date ++ timeMark :: spelled times)).advanced date
      (timeMark :: spelled times) = middle
    have hrest : middle.rest = timeMark :: spelled times := by rw [← hmiddle]; rfl
    have hout : middle.inTime = false := by rw [← hmiddle]; rfl
    have hstep : durationStep middle = some { middle with rest := spelled times, inTime := true } := by
      unfold durationStep
      rw [hrest, eatOneOf_cons hmem]
      simp [hout]
    have hallowedTimes : ∀ before component after, times = before ++ component :: after →
        FractionAllowed { middle with rest := spelled times, inTime := true } component (spelled after ++ []) := by
      intro before component after hsame
      cases after with
      | nil => exact .inr ⟨rfl, rfl⟩
      | cons next after =>
        refine .inl (h.fractions component ?_)
        have hlast : times.dropLast = before ++ component :: (next :: after).dropLast := by
          rw [hsame, List.dropLast_append_of_ne_nil (List.cons_ne_nil _ _), List.dropLast_cons_cons]
        exact hlast ▸ List.mem_append_right _ (List.mem_cons_self ..)
    obtain ⟨fuel', -, hrunTimes⟩ := durationLoop_spelled { middle with rest := spelled times, inTime := true }
      hwellTimes h.times hallowedTimes (List.append_nil _).symm (show (spelled times ++ []).length ≤ fuel by
        rw [List.append_nil]
        rw [List.length_cons] at hfuel
        omega)
    have hloop : durationLoop (fuel + 1) middle =
        durationLoop fuel { middle with rest := spelled times, inTime := true } := by
      rw [durationLoop, if_neg (by simp [hrest]), hstep]
      rfl
    have hfinish := finish_advanced { middle with rest := spelled times, inTime := true } (fun _ => hsome) (.inr hsome)
    rw [hloop, hrunTimes, durationLoop_nil rfl]
    unfold WrittenDuration.Fits WrittenDuration.result
    simp only [hcomponents, List.forall_mem_append, List.foldl_append]
    by_cases hfitsDate : ∀ component ∈ date, number component.whole < 2 ^ 127
    · by_cases hfitsTimes : ∀ component ∈ times, number component.whole < 2 ^ 127
      · rw [if_pos hfitsDate, if_pos hfitsTimes, if_pos ⟨hfitsDate, hfitsTimes⟩]
        refine hfinish.trans ?_
        rw [← hmiddle]
        rfl
      · rw [if_pos hfitsDate, if_neg hfitsTimes, if_neg fun hboth => hfitsTimes hboth.2]
        rfl
    · rw [if_neg hfitsDate, if_neg fun hboth => hfitsDate hboth.1]
      rfl

/-- an accepted text consists of components -/
theorem parseDuration_eq_some (h : parseDuration text = some parsed) :
    ∃ written : WrittenDuration, written.Loose ∧ text = written.text := by
  obtain ⟨body, hmark, hrun⟩ := Option.bind_eq_some_iff.1 h
  obtain ⟨state, hloop, hfinish⟩ := Option.bind_eq_some_iff.1 hrun
  obtain ⟨mark, hmark, hbody⟩ := eatOneOf_eq_some hmark
  have hmark : mark = 'P' ∨ mark = 'p' := by simpa using hmark
  -- the sign that is written, if any
  have hsign : ∃ sign : Option Char, (∀ c, sign = some c → c = '+' ∨ c = '-') ∧ text = sign.toList ++ mark :: body := by
    cases heat : eatOneOf ['+', '-'] text with
    | none =>
      rw [heat] at hbody
      exact ⟨none, by simp, hbody⟩
    | some rest =>
      rw [heat] at hbody
      obtain ⟨c, hc, htext⟩ := eatOneOf_eq_some heat
      refine ⟨some c, ?_, ?_⟩
      · rintro _ ⟨⟩
        simpa using hc
      · rw [htext, show rest = mark :: body from hbody]
        rfl
  obtain ⟨sign, hsign, htext⟩ := hsign
  obtain ⟨components, hdate, hends⟩ := durationLoop_date rfl (le_refl body.length) hloop
  split_ifs at hfinish with hseen hany
  obtain ⟨hspelled, hstate⟩ | ⟨timeMark, times, htimeMark, htimes, hspelled, hstate⟩ := hends
  · refine ⟨⟨sign, mark, components, none⟩, ⟨hsign, hmark, ?_, ?_, hdate.dates, ?_, ?_, ?_⟩, ?_⟩
    · rintro _ _ ⟨⟩
    · simpa [WrittenDuration.components, WrittenDuration.timeComponents] using hdate.wellFormed
    · simp [WrittenDuration.timeComponents]
    · simp [WrittenDuration.timeComponents]
    · rw [hstate] at hany
      simpa [WrittenDuration.components, WrittenDuration.timeComponents, DurationState.advanced] using hany
    · rw [htext, show body = spelled components from hspelled]
      simp [WrittenDuration.text]
  · refine ⟨⟨sign, mark, components, some (timeMark, times)⟩, ⟨hsign, hmark, ?_, ?_, hdate.dates, htimes.times,
      htimes.fractions, ?_⟩, ?_⟩
    · rintro _ _ ⟨⟩
      refine ⟨htimeMark, fun hnone => hseen ?_⟩
      rw [hstate, hnone]
      simp [DurationState.advanced]
    · exact List.forall_mem_append.2 ⟨hdate.wellFormed, htimes.wellFormed⟩
    · rw [hstate] at hany
      simp only [DurationState.advanced, Bool.false_or, Bool.or_eq_true, decide_eq_true_eq] at hany
      exact fun hnil => hany.elim (fun hsome => hsome (List.append_eq_nil_iff.1 hnil).1)
        fun hsome => hsome (List.append_eq_nil_iff.1 hnil).2
    · rw [htext, show body = spelled components ++ timeMark :: spelled times from hspelled]
      simp [WrittenDuration.text]

/-! ## The letters of a text -/

/-- the letters, in upper case -/
def letters (text : Chars) : List Char := (text.filter Char.isAlpha).map Char.toUpper

theorem letters_append (text more : Chars) : letters (text ++ more) = letters text ++ letters more := by
  simp [letters]

theorem not_isAlpha_of_isDigit {c : Char} (h : c.isDigit = true) : c.isAlpha = false := by
  have hdigit : 48 ≤ c.val.toNat ∧ c.val.toNat ≤ 57 := by
    simpa [Char.isDigit, UInt32.le_iff_toNat_le] using h
  refine Bool.eq_false_iff.2 fun halpha => ?_
  rcases Bool.or_eq_true_iff.1 (show (c.isUpper || c.isLower) = true from halpha) with hupper | hlower
  · have hrange : 65 ≤ c.val ∧ c.val ≤ 90 := of_decide_eq_true hupper
    simp only [UInt32.le_iff_toNat_le] at hrange
    exact absurd (hdigit.2.trans_lt (by decide)) (Nat.not_lt.2 hrange.1)
  · have hrange : 97 ≤ c.val ∧ c.val ≤ 122 := (Bool.and_eq_true_iff.1 hlower).imp of_decide_eq_true of_decide_eq_true
    simp only [UInt32.le_iff_toNat_le] at hrange
    exact absurd (hdigit.2.trans_lt (by decide)) (Nat.not_lt.2 hrange.1)

theorem letters_digits {digits : Chars} (h : IsDigits digits) : letters digits = [] := by
  unfold letters
  rw [List.filter_eq_nil_iff.2 fun c hc => by simp [not_isAlpha_of_isDigit (h.2 c hc)], List.map_nil]

theorem isAlpha_letter {designator : Designator} {letter : Char} (h : letter.toUpper = designator.letter) :
    letter.isAlpha = true := by
  by_cases hlower : letter.isLower = true
  · exact Bool.or_eq_true_iff.2 (.inr hlower)
  · have hupper : letter.toUpper = letter := by
      unfold Char.toUpper
      rw [dif_neg]
      exact fun hrange => hlower (Bool.and_eq_true_iff.2 ⟨decide_eq_true hrange.1, decide_eq_true hrange.2⟩)
    rw [hupper.symm.trans h]
    cases designator <;> decide

theorem letters_spelling {component : Written} (h : component.WellFormed) :
    letters component.spelling = [component.designator.letter] := by
  obtain ⟨designator, whole, fraction, letter⟩ := component
  have hletter : letters [letter] = [designator.letter] := by
    have hupper : letter.toUpper = designator.letter := h.letter
    simp [letters, isAlpha_letter hupper, hupper]
  unfold Written.spelling
  rw [letters_append, letters_append, letters_digits h.whole, hletter]
  cases fraction with
  | none => rfl
  | some part =>
    obtain ⟨separator, digits⟩ := part
    obtain ⟨hseparator, hdigits, -⟩ := h.fraction separator digits rfl
    have hsplit : letters (separator :: digits) = letters [separator] ++ letters digits := letters_append [separator] digits
    have hnone : letters [separator] = [] := by obtain rfl | rfl := hseparator <;> decide
    simp [hsplit, hnone, letters_digits hdigits]

theorem letters_spelled {components : List Written} (h : ∀ component ∈ components, component.WellFormed) :
    letters (spelled components) = components.map fun component => component.designator.letter := by
  induction components with
  | nil => rfl
  | cons component components ih =>
    obtain ⟨hone, hrest⟩ := List.forall_mem_cons.1 h
    rw [spelled_cons, letters_append, letters_spelling hone, ih hrest]
    rfl

/-- the letters of a text of components -/
theorem letters_text (h : written.Loose) : letters written.text =
    'P' :: ((written.date.map fun component => component.designator.letter) ++
      written.time.elim [] fun part => 'T' :: part.2.map fun component => component.designator.letter) := by
  have hdate : ∀ component ∈ written.date, component.WellFormed := fun component hmem =>
    h.wellFormed component (List.mem_append_left _ hmem)
  have htimes : ∀ component ∈ written.timeComponents, component.WellFormed := fun component hmem =>
    h.wellFormed component (List.mem_append_right _ hmem)
  have hsign : letters written.sign.toList = [] := by
    cases hsome : written.sign with
    | none => rfl
    | some c => obtain rfl | rfl := h.sign c hsome <;> decide
  have hmark : letters [written.mark] = ['P'] := by
    obtain hmark | hmark := h.mark <;> rw [hmark] <;> decide
  unfold WrittenDuration.text
  rw [letters_append, letters_append, letters_append, hsign, hmark, letters_spelled hdate]
  cases htime : written.time with
  | none => simp [letters]
  | some part =>
    obtain ⟨mark, times⟩ := part
    have hsplit : letters (mark :: spelled times) = letters [mark] ++ letters (spelled times) := letters_append [mark] _
    have hcomponents : written.timeComponents = times := by rw [WrittenDuration.timeComponents, htime]; rfl
    have hupper : letters [mark] = ['T'] := by obtain rfl | rfl := (h.timeMark mark times htime).1 <;> decide
    rw [hcomponents] at htimes
    simp [hsplit, hupper, letters_spelled htimes]

/-- the letters up to the `T` are those of the date, the others those of the time -/
theorem letters_split (h : written.Loose) :
    (written.date.map fun component => component.designator.letter) = (letters written.text).tail.takeWhile (· ≠ 'T') ∧
    (written.timeComponents.map fun component => component.designator.letter) =
      ((letters written.text).tail.dropWhile (· ≠ 'T')).tail := by
  have hdate : ∀ c ∈ written.date.map (fun component => component.designator.letter), decide (c ≠ 'T') = true := by
    intro c hmem
    obtain ⟨component, -, rfl⟩ := List.mem_map.1 hmem
    cases component.designator <;> decide
  rw [letters_text h, List.tail_cons, List.takeWhile_append_of_pos hdate, List.dropWhile_append_of_pos hdate]
  unfold WrittenDuration.timeComponents
  cases written.time <;> simp

/-- the designator of a letter, before and behind the `T` -/
def Designator.ofLetter (isTime : Bool) (letter : Char) : Designator :=
  if isTime then if letter = 'H' then .hours else if letter = 'M' then .minutes else .seconds
  else if letter = 'Y' then .years else if letter = 'M' then .months else if letter = 'W' then .weeks else .days

theorem Designator.ofLetter_letter (designator : Designator) :
    Designator.ofLetter designator.isTime designator.letter = designator := by
  cases designator <;> decide

theorem designators_of_letters {components : List Written} {isTime : Bool}
    (h : ∀ component ∈ components, component.designator.isTime = isTime) : components.map (·.designator) =
      (components.map fun component => component.designator.letter).map (Designator.ofLetter isTime) := by
  rw [List.map_map]
  exact List.map_congr_left fun component hmem => by
    rw [Function.comp_apply, ← h component hmem, Designator.ofLetter_letter]

/-- a text names its designators -/
theorem designators_eq {written' : WrittenDuration} (h : written.Loose) (h' : written'.Loose)
    (hsame : written.text = written'.text) :
    written.components.map (·.designator) = written'.components.map (·.designator) := by
  unfold WrittenDuration.components
  rw [List.map_append, List.map_append, designators_of_letters fun component hmem => (h.dates component hmem).1,
    designators_of_letters fun component hmem => (h'.dates component hmem).1, designators_of_letters h.times,
    designators_of_letters h'.times, (letters_split h).1, (letters_split h).2, (letters_split h').1, (letters_split h').2, hsame]

/-! ## What is accepted -/

theorem get_set (parsed : ParsedDuration) (designator other : Designator) (value : Component) :
    (parsed.set designator value).get other = if designator = other then some value else parsed.get other := by
  cases designator <;> cases other <;> rfl

theorem get_default (negative : Bool) (designator : Designator) :
    ({ ParsedDuration.default with negative } : ParsedDuration).get designator = none := by
  cases designator <;> rfl

/-- components that are set one after the other -/
theorem get_foldl {components : List Written} (h : (components.map fun component => component.designator.rank).Pairwise (· < ·))
    (parsed : ParsedDuration) (designator : Designator) :
    (components.foldl (fun parsed component => parsed.set component.designator component.component) parsed).get designator =
      ((components.find? (·.designator = designator)).map Written.component).or (parsed.get designator) := by
  induction components generalizing parsed with
  | nil => rfl
  | cons component components ih =>
    obtain ⟨hfirst, hrest⟩ := List.pairwise_cons.1 h
    rw [List.foldl_cons, ih hrest, get_set]
    by_cases hsame : component.designator = designator
    · have hnone : components.find? (·.designator = designator) = none := by
        rw [List.find?_eq_none]
        intro other hmem hother
        rw [decide_eq_true_eq] at hother
        have hlt : component.designator.rank < other.designator.rank := hfirst _ (List.mem_map_of_mem hmem)
        rw [hother, hsame] at hlt
        exact lt_irrefl _ hlt
      rw [hnone, if_pos hsame, List.find?_cons_of_pos (by simpa using hsame)]
      rfl
    · rw [if_neg hsame, List.find?_cons_of_neg (by simpa using hsame)]

theorem negative_foldl (components : List Written) (parsed : ParsedDuration) :
    (components.foldl (fun parsed component => parsed.set component.designator component.component) parsed).negative =
      parsed.negative := by
  induction components generalizing parsed with
  | nil => rfl
  | cons component components ih =>
    rw [List.foldl_cons, ih]
    cases component.designator <;> rfl

/--
The parser accepts the text exactly if it is one of the grammar, and then its sign and the number of each designator are those
that are written.
-/
structure ReadsGrammar (text : Chars) : Prop where
  accepts : (∃ parsed, parseDuration text = some parsed) ↔ ∃ written : WrittenDuration, written.Grammatical ∧ text = written.text
  reads : ∀ parsed, parseDuration text = some parsed → ∀ written : WrittenDuration, written.Grammatical → text = written.text →
    parsed.negative = decide (written.sign = some '-') ∧ ∀ designator, parsed.get designator =
      (written.components.find? (·.designator = designator)).map Written.component

/--
**Duration texts.** The parser accepts the texts of the grammar, and reads what is written, exactly where the numbers of a text
of components fit into 128 bits if and only if the components are in their order and none is there twice.
-/
theorem duration_texts (text : Chars) : ReadsGrammar text ↔
    ∀ written : WrittenDuration, written.Loose → text = written.text → (written.Ordered ↔ written.Fits) := by
  classical
  have hparse : ∀ written : WrittenDuration, written.Loose → parseDuration written.text =
      if written.Fits then some written.result else none := fun written h => parseDuration_text h
  have haccepts : ∀ written : WrittenDuration, written.Loose → text = written.text →
      ((∃ parsed, parseDuration text = some parsed) ↔ written.Fits) := by
    rintro written h rfl
    rw [hparse written h]
    split_ifs with hfits <;> simp [hfits]
  constructor
  · intro h written hloose htext
    rw [← haccepts written hloose htext, h.accepts]
    constructor
    · exact fun hordered => ⟨written, ⟨hloose, hordered⟩, htext⟩
    · rintro ⟨other, ⟨hother, hordered⟩, hsame⟩
      have hdesignators := congrArg (List.map Designator.rank) (designators_eq hloose hother (htext.symm.trans hsame))
      rw [List.map_map, List.map_map] at hdesignators
      unfold WrittenDuration.Ordered at hordered ⊢
      exact hdesignators.symm ▸ hordered
  · intro h
    refine ⟨⟨?_, ?_⟩, ?_⟩
    · rintro ⟨parsed, hparsed⟩
      obtain ⟨written, hloose, htext⟩ := parseDuration_eq_some hparsed
      exact ⟨written, ⟨hloose, (h written hloose htext).2 ((haccepts written hloose htext).1 ⟨parsed, hparsed⟩)⟩, htext⟩
    · rintro ⟨written, ⟨hloose, hordered⟩, htext⟩
      exact (haccepts written hloose htext).2 ((h written hloose htext).1 hordered)
    · rintro parsed hparsed written ⟨hloose, hordered⟩ rfl
      rw [hparse written hloose] at hparsed
      split_ifs at hparsed
      rw [← Option.some.inj hparsed]
      refine ⟨negative_foldl .., fun designator => (get_foldl hordered ..).trans ?_⟩
      rw [get_default, Option.or_none]

/-- a day and a year behind it -/
def dayAndYear : WrittenDuration := ⟨none, 'P', [⟨.days, ['1'], none, 'D'⟩, ⟨.years, ['1'], none, 'Y'⟩], none⟩

/-- the year behind the day is accepted -/
theorem duration_texts_order : ¬∀ text, ReadsGrammar text := by
  intro h
  obtain ⟨written, ⟨hloose, hordered⟩, htext⟩ := (h "P1D1Y".toList).accepts.1 ⟨_, show parseDuration "P1D1Y".toList = some
    ⟨false, some ⟨1, []⟩, none, none, some ⟨1, []⟩, none, none, none⟩ by decide⟩
  have hwell : ∀ component ∈ dayAndYear.components, component.WellFormed := by
    intro component hmem
    obtain rfl | rfl : component = ⟨.days, ['1'], none, 'D'⟩ ∨ component = ⟨.years, ['1'], none, 'Y'⟩ := by
      simpa [dayAndYear, WrittenDuration.components, WrittenDuration.timeComponents] using hmem
    · exact ⟨by simp [IsDigits], by simp, by decide⟩
    · exact ⟨by simp [IsDigits], by simp, by decide⟩
  have hdayAndYear : dayAndYear.Loose := ⟨by simp [dayAndYear], .inl rfl, by simp [dayAndYear], hwell,
    by simp [dayAndYear, Designator.isTime, Designator.rank], by simp [dayAndYear, WrittenDuration.timeComponents],
    by simp [dayAndYear, WrittenDuration.timeComponents], by simp [dayAndYear, WrittenDuration.components]⟩
  have hdesignators := congrArg (List.map Designator.rank) (designators_eq hloose hdayAndYear (htext.symm.trans rfl))
  rw [List.map_map] at hdesignators
  unfold WrittenDuration.Ordered at hordered
  have hranks : (written.components.map fun component => component.designator.rank) = [3, 0] := hdesignators
  rw [hranks] at hordered
  exact absurd hordered (by decide)

end Texts

end Render.Temporal
