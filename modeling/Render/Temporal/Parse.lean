/-
The texts of Temporal (`temporal/parse.rs`): the cursor and the parsers of dates, times, offsets, annotations and durations.

A cursor is the text that is left. What the parsers look for is ASCII, so the characters of the text stand for its octets.
-/
import Render.Net.Text
import Render.Temporal.Iso

namespace Render.Temporal

open Render.Net

/-! ## The cursor -/

/-- the number that digits spell -/
def number (digits : Chars) : ℕ := digits.foldl (fun value c => value * 10 + (c.toNat - '0'.toNat)) 0

namespace Cursor

/-- `eat_one_of`: the text behind the character, if it is one of these -/
def eatOneOf (options : List Char) : Chars → Option Chars
  | [] => none
  | c :: rest => if c ∈ options then some rest else none

/-- exactly `count` digits -/
def digits (count : ℕ) (text : Chars) : Option (ℕ × Chars) :=
  if (text.take count).length = count ∧ (text.take count).all Char.isDigit then
    some (number (text.take count), text.drop count)
  else none

/-- one or more digits -/
def digitRun (text : Chars) : Option (Chars × Chars) :=
  if text.takeWhile Char.isDigit = [] then none
  else some (text.takeWhile Char.isDigit, text.dropWhile Char.isDigit)

/-- one to nine digits -/
def fractionDigits (text : Chars) : Option (Chars × Chars) := do
  let (digits, rest) ← digitRun text
  if digits.length ≤ 9 then some (digits, rest) else none

/-- the nanoseconds of a fraction, which is padded to nine places -/
def fractionNanos (digits : Chars) : ℕ :=
  (List.range 9).foldl (fun value index => value * 10 + (digits[index]?.elim 0 fun c => c.toNat - '0'.toNat)) 0

def peekIsDigit (text : Chars) : Bool := text.head?.any Char.isDigit

end Cursor

open Cursor

/-! ## Dates and times -/

/-- a time of day -/
@[ext] structure IsoTime where
  hour : ℕ
  minute : ℕ
  second : ℕ
  millisecond : ℕ
  microsecond : ℕ
  nanosecond : ℕ
deriving DecidableEq, Repr

/-- the fields of a text with a date or a time -/
structure ParsedDateTime where
  date : IsoDate
  time : Option IsoTime
  offset : Option ℤ
  utc : Bool
  calendar : Option Chars
  timeZone : Bool
deriving DecidableEq, Repr

def parseYear (text : Chars) : Option (ℤ × Chars) :=
  match text with
  | [] => none
  | c :: rest =>
    if c = '+' ∨ c = '-' then do
      let (magnitude, rest) ← digits 6 rest
      if c = '-' ∧ magnitude = 0 then none else some (if c = '-' then -(magnitude : ℤ) else magnitude, rest)
    else do
      let (year, rest) ← digits 4 text
      some ((year : ℤ), rest)

def parseDate (text : Chars) : Option (IsoDate × Chars) := do
  let (year, rest) ← parseYear text
  let dashed := eatOneOf ['-'] rest
  let (month, rest) ← digits 2 (dashed.getD rest)
  let rest ← if dashed.isSome then eatOneOf ['-'] rest else some rest
  let (day, rest) ← digits 2 rest
  if 1 ≤ month ∧ month ≤ 12 ∧ 1 ≤ day ∧ day ≤ 31 then some (⟨year, month, day⟩, rest) else none

/-- the minutes, seconds and nanoseconds behind the hours: `[:MM[:SS[.fraction]]]` or `[MM[SS[.fraction]]]` -/
def parseMinutes (text : Chars) : Option ((ℕ × ℕ × ℕ) × Chars) :=
  let colon := eatOneOf [':'] text
  if colon.isSome ∨ peekIsDigit text then do
    let (minute, rest) ← digits 2 (colon.getD text)
    let second := if colon.isSome then eatOneOf [':'] rest else if peekIsDigit rest then some rest else none
    match second with
    | none => some ((minute, 0, 0), rest)
    | some rest =>
      let (second, rest) ← digits 2 rest
      match eatOneOf ['.', ','] rest with
      | none => some ((minute, second, 0), rest)
      | some rest =>
        let (fraction, rest) ← fractionDigits rest
        some ((minute, second, fractionNanos fraction), rest)
  else some ((0, 0, 0), text)

/-- a second of 60 is folded to 59 -/
def parseTime (text : Chars) : Option (IsoTime × Chars) := do
  let (hour, rest) ← digits 2 text
  let ((minute, second, nanos), rest) ← parseMinutes rest
  if 23 < hour ∨ 59 < minute ∨ 60 < second then none
  else some (⟨hour, minute, min second 59, nanos / 1000000, nanos / 1000 % 1000, nanos % 1000⟩, rest)

/-- `Z`, or a sign, hours and minutes: the nanoseconds, and whether it was `Z` -/
def parseOffset (text : Chars) : Option ((ℤ × Bool) × Chars) :=
  match text with
  | [] => none
  | c :: rest =>
    if c = 'Z' ∨ c = 'z' then some ((0, true), rest)
    else if c = '+' ∨ c = '-' then do
      let (hours, rest) ← digits 2 rest
      if 23 < hours then none
      else
        let ((minutes, seconds, nanos), rest) ← parseMinutes rest
        if 59 < minutes ∨ 59 < seconds then none
        else
          let total := hours * 3600000000000 + minutes * 60000000000 + seconds * 1000000000 + nanos
          some (((if c = '+' then 1 else -1) * (total : ℤ), false), rest)
    else none

/-! ## Annotations -/

def isAnnotationKey (key : Chars) : Bool :=
  match key with
  | [] => false
  | first :: rest => (first.isLower || first = '_') && rest.all fun c => c.isLower || c.isDigit || c = '-' || c = '_'

/-- `split` at a character -/
def splitAt (separator : Char) : Chars → List Chars
  | [] => [[]]
  | c :: rest =>
    if c = separator then [] :: splitAt separator rest
    else
      match splitAt separator rest with
      | part :: parts => (c :: part) :: parts
      | [] => [[c]]

/-- runs of letters and digits, joined by `-` -/
def isAnnotationValue (value : Chars) : Bool :=
  value ≠ [] && (splitAt '-' value).all fun part => part ≠ [] && part.all Char.isAlphanum

/-- an offset of hours and minutes, or a zone name -/
def isTimeZoneAnnotationText (body : Chars) : Bool :=
  match body with
  | [] => false
  | first :: rest =>
    if first = '+' ∨ first = '-' then
      let digits := rest.filter (· ≠ ':')
      digits.length = 4 && digits.all Char.isDigit && number (digits.take 2) ≤ 23 && number (digits.drop 2) ≤ 59 &&
        (body.length = 5 || body.length = 6 && body[3]? = some ':')
    else if first.isAlpha then
      body.all fun c => c.isAlphanum || c = '/' || c = '_' || c = '-' || c = '+' || c = '.'
    else false

/-- what has been read of the annotations: each calendar with its criticality, and whether there was a time zone -/
structure Annotations where
  calendars : List (Chars × Bool)
  timeZone : Bool

/-- one bracket, the opening one having been eaten -/
def annotation (read : Annotations) (text : Chars) : Option (Annotations × Chars) := do
  let critical := (eatOneOf ['!'] text).isSome
  let rest := (eatOneOf ['!'] text).getD text
  let body := rest.takeWhile fun c => c ≠ '=' ∧ c ≠ ']'
  let rest := rest.dropWhile fun c => c ≠ '=' ∧ c ≠ ']'
  let (read, rest) ← match eatOneOf ['='] rest with
    | some rest =>
      let value := rest.takeWhile (· ≠ ']')
      let rest := rest.dropWhile (· ≠ ']')
      if !isAnnotationKey body || !isAnnotationValue value then none
      else if body = "u-ca".toList then some ({ read with calendars := read.calendars ++ [(value, critical)] }, rest)
      else if critical then none
      else some (read, rest)
    | none =>
      if read.timeZone || !isTimeZoneAnnotationText body then none else some ({ read with timeZone := true }, rest)
  let rest ← eatOneOf [']'] rest
  some (read, rest)

/-- the loop over the brackets; each takes a character at least -/
def annotationLoop : ℕ → Annotations → Chars → Option (Annotations × Chars)
  | 0, read, text => some (read, text)
  | fuel + 1, read, text =>
    match eatOneOf ['['] text with
    | none => some (read, text)
    | some rest => do
      let (read, rest) ← annotation read rest
      annotationLoop fuel read rest

/-- the calendar and whether there is a time zone; repeated calendars agree, and a critical one is not repeated -/
def parseAnnotations (text : Chars) : Option ((Option Chars × Bool) × Chars) := do
  let (read, rest) ← annotationLoop text.length ⟨[], false⟩ text
  match read.calendars with
  | [] => some ((none, read.timeZone), rest)
  | (first, _) :: others =>
    if read.calendars.any (·.2) ∧ 1 < read.calendars.length then none
    else if others.any (·.1 ≠ first) then none
    else some ((some first, read.timeZone), rest)

/-- a complete text of a date and, behind `T` or a space, a time -/
def parseDateTime (text : Chars) : Option ParsedDateTime := do
  let (date, rest) ← parseDate text
  let (time, offset, utc, rest) ← match eatOneOf ['T', 't', ' '] rest with
    | none => some (none, none, false, rest)
    | some rest => do
      let (time, rest) ← parseTime rest
      if rest = [] ∨ rest.head? = some '[' then some (some time, none, false, rest)
      else
        let ((offset, utc), rest) ← parseOffset rest
        some (some time, some offset, utc, rest)
  let ((calendar, timeZone), rest) ← parseAnnotations rest
  if rest = [] then some { date, time, offset, utc, calendar, timeZone } else none

/-- an instant has a time and an offset -/
def parseInstant (text : Chars) : Option ParsedDateTime := do
  let parsed ← parseDateTime text
  if parsed.time.isSome ∧ parsed.offset.isSome then some parsed else none

end Render.Temporal
