/-
Times, texts and messages of `render-net` (`render-net/src/transport.rs`) that its users share.

A time of the standard library is a number of nanoseconds within the bounds that the library gives it: a `Duration` has 64
bits of seconds, a `SystemTime` 64 signed bits of seconds around the Unix epoch, an `Instant` as many on a clock of its own.

`Url` is a type of another package. What is used of it is a parameter: the text of a URL and the parser (`UrlText`).
-/
import Render.Core.Integers
import Render.Net.Text

namespace Render.Net

open Render.Core

/-! ## Times -/

/-- nanoseconds in a second -/
def nanosPerSec : ℕ := 10 ^ 9

/-- `Duration::MAX` -/
def durationMax : ℕ := (2 ^ 64 - 1) * nanosPerSec + (nanosPerSec - 1)

/-- the greatest number of seconds of a clock, and the nanoseconds behind it -/
def clockMax : ℕ := (2 ^ 63 - 1) * nanosPerSec + (nanosPerSec - 1)

structure Duration where
  nanos : ℕ
  le : nanos ≤ durationMax
deriving DecidableEq

structure SystemTime where
  /-- since the Unix epoch -/
  nanos : ℤ
  le : nanos ≤ clockMax
deriving DecidableEq

structure Instant where
  nanos : ℕ
  le : nanos ≤ clockMax
deriving DecidableEq

@[ext] theorem Duration.ext {a b : Duration} (h : a.nanos = b.nanos) : a = b := by
  cases a
  cases b
  cases h
  rfl

@[ext] theorem SystemTime.ext {a b : SystemTime} (h : a.nanos = b.nanos) : a = b := by
  cases a
  cases b
  cases h
  rfl

/-- `from_secs`; more seconds than there are do not occur -/
def Duration.ofSecs (seconds : ℕ) : Duration := ⟨min (seconds * nanosPerSec) durationMax, min_le_right _ _⟩

def Duration.asSecs (d : Duration) : ℕ := d.nanos / nanosPerSec

def Duration.subsecNanos (d : Duration) : ℕ := d.nanos % nanosPerSec

theorem Duration.asSecs_lt (d : Duration) : d.asSecs < 2 ^ 64 := by
  have hle := d.le
  rw [asSecs, Nat.div_lt_iff_lt_mul (by decide)]
  simp only [durationMax, nanosPerSec] at hle ⊢
  omega

theorem Duration.subsecNanos_lt (d : Duration) : d.subsecNanos < 256 ^ 4 := (Nat.mod_lt _ (by decide)).trans (by decide)

/-- `checked_add` -/
def Instant.checkedAdd (t : Instant) (nanos : ℕ) : Option Instant :=
  if h : t.nanos + nanos ≤ clockMax then some ⟨t.nanos + nanos, h⟩ else none

/-- `UNIX_EPOCH.checked_add` -/
def epochCheckedAdd (d : Duration) : Option SystemTime :=
  if h : (d.nanos : ℤ) ≤ clockMax then some ⟨d.nanos, h⟩ else none

theorem zero_le_clockMax : (0 : ℤ) ≤ clockMax := by decide

/-- `UNIX_EPOCH` -/
def SystemTime.unixEpoch : SystemTime := ⟨0, zero_le_clockMax⟩

/-- `duration_since`, in nanoseconds; `none` when the other time is later -/
def SystemTime.since (t earlier : SystemTime) : Option ℕ :=
  if earlier.nanos ≤ t.nanos then some (t.nanos - earlier.nanos).toNat else none

/-! ## Texts -/

/-- `as_bytes` of a text -/
def utf8 (text : String) : Octets := text.toByteArray.data.toList

/-- `String::from_utf8` -/
def fromUtf8 (octets : Octets) : Option String := String.fromUTF8? ⟨octets.toArray⟩

theorem fromUtf8_eq_some {octets : Octets} {text : String} : fromUtf8 octets = some text ↔ utf8 text = octets := by
  rw [fromUtf8, String.fromUTF8?]
  constructor
  · intro h
    split_ifs at h
    cases h
    rfl
  · intro h
    subst h
    exact dif_pos text.isValidUTF8

theorem fromUtf8_utf8 (text : String) : fromUtf8 (utf8 text) = some text := fromUtf8_eq_some.2 rfl

/-- what is used of `Url`: its text, and the parser -/
structure UrlText (Url : Type) where
  asStr : Url → String
  parse : String → Option Url

/-! ## Messages -/

abbrev HttpStatus := UInt16

structure Header where
  name : String
  value : Octets
deriving DecidableEq

structure ContentType where
  mediaType : String
  charset : Option String
deriving DecidableEq

structure RedirectResponse (Url : Type) where
  url : Url
  status : HttpStatus
  headers : List Header
deriving DecidableEq

structure FetchResponse (Url : Type) where
  requestedUrl : Url
  finalUrl : Url
  redirectChain : List Url
  redirects : List (RedirectResponse Url)
  status : HttpStatus
  headers : List Header
  contentType : Option ContentType
  body : Octets
deriving DecidableEq

/-- what is used of `Url` for a fetch: the scheme, and the text of the URL without its fragment -/
structure UrlParts (Url : Type) where
  scheme : Url → String
  fetchUrl : Url → String

inductive HttpMethod where
  | get
  | post
  | put
  | delete
  | head
  | options
  | patch
deriving DecidableEq

inductive ByteRange where
  | from_ (start : ℕ)
  | inclusive (start stop : ℕ)
  | suffix (length : ℕ)
deriving DecidableEq

structure CacheValidators where
  etag : Option String
  lastModified : Option String
deriving DecidableEq

structure FetchRequest (Url : Type) where
  url : Url
  method : HttpMethod := .get
  headers : List (String × String) := []
  body : Option Octets := none
  accept : Option String := none
  cookie : Option String := none
  byteRange : Option ByteRange := none
  cacheValidators : Option CacheValidators := none
deriving DecidableEq

/-- `eq_ignore_ascii_case` of texts -/
def eqIgnoreAsciiCase (a b : String) : Bool := Chars.eqIgnoreAsciiCase a.toList b.toList

/-- `header_text`: the first field of the name, if it is UTF-8 -/
def headerText (headers : List Header) (name : String) : Option String :=
  (headers.find? fun header => eqIgnoreAsciiCase header.name name).bind fun header => fromUtf8 header.value

namespace CacheValidators

def isEmpty (v : CacheValidators) : Bool := v.etag.isNone && v.lastModified.isNone

def fromHeaders (headers : List Header) : CacheValidators :=
  ⟨headerText headers "etag", headerText headers "last-modified"⟩

end CacheValidators

/-- `with_cache_validators` -/
def FetchRequest.withCacheValidators {Url : Type} (request : FetchRequest Url) (validators : CacheValidators) :
    FetchRequest Url := { request with cacheValidators := if validators.isEmpty then none else some validators }

end Render.Net
