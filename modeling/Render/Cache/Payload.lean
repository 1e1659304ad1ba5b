/-
The payload of a disk cache record (`render-browser/src/cache/payload.rs`): a response with the wall clock time at which it was
stored and the time for which it is fresh.

The writer is the octets written so far. The reader is a scan; what it counts as copied are the octets that become texts
and bodies and the elements that go into vectors.
-/
import Render.Core.Comp
import Render.Core.Scan
import Render.Net.Types

namespace Render.Cache

open Render.Core Render.Net

def magic : Octets := [82, 78, 80, 65, 89, 48, 48, 49]
def maxPayloadBytes : ℕ := 64 * 1024 * 1024
def maxStringBytes : ℕ := 1024 * 1024
def maxHeaders : ℕ := 1024
def maxRedirects : ℕ := 64
def maxBodyBytes : ℕ := 32 * 1024 * 1024

inductive DiskCachePayloadError where
  | invalidFormat
  | invalidUtf8
  | invalidUrl
  | invalidTime
  | truncated
  | trailingBytes
  | tooLarge
deriving DecidableEq

structure DiskCachePayload (Url : Type) where
  response : FetchResponse Url
  storedAt : SystemTime
  freshness : Duration
deriving DecidableEq

/-! ## The writer -/

/-- the octets written so far -/
abbrev Writer := Octets

namespace Writer

variable {Url : Type} (text : UrlText Url) (w : Writer)

def finish : Except DiskCachePayloadError Octets := if w.length ≤ maxPayloadBytes then .ok w else .error .tooLarge

def reserve (additional : ℕ) : Except DiskCachePayloadError Unit := refuse (w.length + additional > maxPayloadBytes) .tooLarge

def bytes (value : Octets) : Except DiskCachePayloadError Writer := do
  w.reserve value.length
  return w ++ value

/-- `u16`, `u32` and `u64`, by their width in octets -/
def number (width n : ℕ) : Writer := w ++ toLe width n

def len (length : ℕ) : Except DiskCachePayloadError Writer := do
  refuse (length ≥ 2 ^ 32) .tooLarge
  return w.number 4 length

def bytesLimited (value : Octets) (limit : ℕ) : Except DiskCachePayloadError Writer := do
  refuse (value.length > limit) .tooLarge
  let w ← w.len value.length
  w.bytes value

def string (value : String) : Except DiskCachePayloadError Writer := do
  refuse ((utf8 value).length > maxStringBytes) .tooLarge
  let w ← w.len (utf8 value).length
  w.bytes (utf8 value)

def url (value : Url) : Except DiskCachePayloadError Writer := w.string (text.asStr value)

/-- a vector: its length, within the limit, and its elements -/
def list {α : Type} (limit : ℕ) (element : Writer → α → Except DiskCachePayloadError Writer) (values : List α) :
    Except DiskCachePayloadError Writer := do
  refuse (values.length > limit) .tooLarge
  let w ← w.len values.length
  values.foldlM element w

def urls (values : List Url) : Except DiskCachePayloadError Writer := w.list maxRedirects (url text) values

def header (value : Header) : Except DiskCachePayloadError Writer := do
  let w ← w.string value.name
  w.bytesLimited value.value maxStringBytes

def headers (values : List Header) : Except DiskCachePayloadError Writer := w.list maxHeaders header values

def redirect (value : RedirectResponse Url) : Except DiskCachePayloadError Writer := do
  let w ← w.url text value.url
  (w.number 2 value.status.toNat).headers value.headers

def redirects (values : List (RedirectResponse Url)) : Except DiskCachePayloadError Writer :=
  w.list maxRedirects (redirect text) values

/-- an octet that says whether there is a value, and the value -/
def option {α : Type} (element : Writer → α → Except DiskCachePayloadError Writer) :
    Option α → Except DiskCachePayloadError Writer
  | some value => do
    let w ← w.bytes [1]
    element w value
  | none => w.bytes [0]

def contentTypeBody (value : ContentType) : Except DiskCachePayloadError Writer := do
  let w ← w.string value.mediaType
  w.option string value.charset

def contentType (value : Option ContentType) : Except DiskCachePayloadError Writer := w.option contentTypeBody value

end Writer

/-! ## The reader -/

namespace Reader

abbrev Read := Scan DiskCachePayloadError

variable {Url : Type} (text : UrlText Url)

open Scan

def bytes (length : ℕ) : Read Octets := take length .truncated

/-- `u16`, `u32` and `u64`, by their width in octets -/
def number (width : ℕ) : Read ℕ := Scan.number width .truncated

def len (limit : ℕ) : Read ℕ := do
  let length ← number 4
  check (refuse (length > limit) .tooLarge)
  return length

def bytesLimited (limit : ℕ) : Read Octets := do
  let length ← len limit
  bytes length >>= copy

def utf8Text (octets : Octets) : Except DiskCachePayloadError String :=
  match fromUtf8 octets with
  | some value => .ok value
  | none => .error .invalidUtf8

def parseUrl (value : String) : Except DiskCachePayloadError Url :=
  match text.parse value with
  | some url => .ok url
  | none => .error .invalidUrl

def string : Read String := do
  let octets ← bytesLimited maxStringBytes
  check (utf8Text octets)

def url : Read Url := do
  let value ← string
  check (parseUrl text value)

def list {α : Type} (limit : ℕ) (element : Read α) : Read (List α) := do
  let count ← len limit
  times element count

def urls : Read (List Url) := list maxRedirects (url text)

def header : Read Header := do
  let name ← string
  let value ← bytesLimited maxStringBytes
  return ⟨name, value⟩

def headers : Read (List Header) := list maxHeaders header

def redirect : Read (RedirectResponse Url) := do
  let url ← url text
  let status ← number 2
  let headers ← headers
  return ⟨url, UInt16.ofNat status, headers⟩

def redirects : Read (List (RedirectResponse Url)) := list maxRedirects (redirect text)

/-- an octet that says whether there is a value, and the value -/
def option {α : Type} (element : Read α) : Read (Option α) := do
  let tag ← bytes 1
  if tag = [0] then return none
  else if tag = [1] then do
    let value ← element
    return some value
  else check (.error .invalidFormat)

def contentTypeBody : Read ContentType := do
  let mediaType ← string
  let charset ← option string
  return ⟨mediaType, charset⟩

def contentType : Read (Option ContentType) := option contentTypeBody

def finish : Read Unit := fun c => (if c.offset = c.octets.length then .ok () else .error .trailingBytes, c)

end Reader

/-- `duration_parts` -/
def durationParts (seconds nanos : ℕ) : Except DiskCachePayloadError Duration :=
  if h : nanos < nanosPerSec ∧ seconds < 2 ^ 64 then
    .ok ⟨seconds * nanosPerSec + nanos, by
      obtain ⟨hnanos, hseconds⟩ := h
      exact Nat.add_le_add (Nat.mul_le_mul_right _ (Nat.le_sub_one_of_lt hseconds)) (Nat.le_sub_one_of_lt hnanos)⟩
  else .error .invalidTime

namespace DiskCachePayload

variable {Url : Type} (text : UrlText Url)

/-- the time since the epoch, in nanoseconds -/
def sinceEpoch (t : SystemTime) : Except DiskCachePayloadError ℕ :=
  match t.since .unixEpoch with
  | some stored => .ok stored
  | none => .error .invalidTime

def writeResponse (response : FetchResponse Url) (w : Writer) : Except DiskCachePayloadError Writer := do
  let w ← w.url text response.requestedUrl
  let w ← w.url text response.finalUrl
  let w ← w.urls text response.redirectChain
  let w ← w.redirects text response.redirects
  let w := w.number 2 response.status.toNat
  let w ← w.headers response.headers
  let w ← w.contentType response.contentType
  w.bytesLimited response.body maxBodyBytes

def encode (p : DiskCachePayload Url) : Except DiskCachePayloadError Octets := do
  let stored ← sinceEpoch p.storedAt
  let w ← Writer.bytes [] magic
  let w := (w.number 8 (stored / nanosPerSec)).number 4 (stored % nanosPerSec)
  let w := (w.number 8 p.freshness.asSecs).number 4 p.freshness.subsecNanos
  let w ← writeResponse text p.response w
  w.finish

/-- a time as `encode` writes it -/
def readDuration : Reader.Read Duration := do
  let seconds ← Reader.number 8
  let nanos ← Reader.number 4
  Scan.check (durationParts seconds nanos)

def storedTime (stored : Duration) : Except DiskCachePayloadError SystemTime :=
  match epochCheckedAdd stored with
  | some storedAt => .ok storedAt
  | none => .error .invalidTime

def readMagic : Reader.Read Unit := do
  let start ← Reader.bytes magic.length
  Scan.check (refuse (start ≠ magic) .invalidFormat)

/-- the fields of the response -/
def readResponse : Reader.Read (FetchResponse Url) := do
  let requestedUrl ← Reader.url text
  let finalUrl ← Reader.url text
  let redirectChain ← Reader.urls text
  let redirects ← Reader.redirects text
  let status ← Reader.number 2
  let headers ← Reader.headers
  let contentType ← Reader.contentType
  let body ← Reader.bytesLimited maxBodyBytes
  return ⟨requestedUrl, finalUrl, redirectChain, redirects, UInt16.ofNat status, headers, contentType, body⟩

/-- the fields of a payload -/
def readFields : Reader.Read (DiskCachePayload Url) := do
  readMagic
  let stored ← readDuration
  let storedAt ← Scan.check (storedTime stored)
  let freshness ← readDuration
  let response ← readResponse text
  return ⟨response, storedAt, freshness⟩

/-- `decode` without the limit on all octets -/
def read : Reader.Read (DiskCachePayload Url) := do
  let p ← readFields text
  Reader.finish
  return p

/-- `decode`, and where its reader stops -/
def decodeRun (octets : Octets) : Except DiskCachePayloadError (DiskCachePayload Url) × Cursor :=
  if octets.length > maxPayloadBytes then (.error .tooLarge, ⟨octets, 0, 0⟩) else read text ⟨octets, 0, 0⟩

def decode (octets : Octets) : Except DiskCachePayloadError (DiskCachePayload Url) := (decodeRun text octets).1

/-- `fresh_until` -/
def freshUntil (p : DiskCachePayload Url) (now : Instant) (wallNow : SystemTime) : Option Instant :=
  if p.freshness.nanos = 0 then none
  else
    let age := (wallNow.since p.storedAt).getD 0
    if age ≤ p.freshness.nanos then now.checkedAdd (p.freshness.nanos - age) else none

end DiskCachePayload

end Render.Cache
