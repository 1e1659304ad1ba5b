/-
The HTTP cache of the browser (`render-browser/src/cache.rs`).

The entries are a `HashMap` of buckets, whose order of iteration is not known: it is a parameter (`MapOrder`) of what depends
on it, the choice of an entry to evict among those used at the same time. The access clock and the epoch stop at `u64::MAX`.
The sizes of bodies are numbers without a bound; in the source they are bodies in memory, so that their sum is a `usize`.
-/
import Render.Core.Assoc
import Render.Net.Types
import Mathlib.Data.List.Sort
import Mathlib.Data.String.Basic

namespace Render.Cache

open Render.Core Render.Net

def u64Max : ℕ := 2 ^ 64 - 1

structure HttpCacheConfig where
  maxEntries : ℕ
  maxBytes : ℕ
  maxEntryBytes : ℕ

abbrev CacheEpoch := ℕ

inductive CacheSkipReason where
  | unsupportedScheme
  | nonGetMethod
  | requestHasCookie
  | requestHasByteRange
  | responseStatus (status : HttpStatus)
  | redirected
  | responseSetsCookie
  | vary
  | noStore
  | private_
  | noCache
  | noExplicitFreshness
  | invalidMaxAge
  | notFresh
  | entryTooLarge
  | capacityDisabled
  | staleEpoch
  | timeOverflow
deriving DecidableEq

/-! ## Requests -/

section Requests

variable {Url : Type} (parts : UrlParts Url)

def requestSkipReason (request : FetchRequest Url) : Option CacheSkipReason :=
  if parts.scheme request.url ≠ "http" ∧ parts.scheme request.url ≠ "https" then some .unsupportedScheme
  else if request.method ≠ .get then some .nonGetMethod
  else if request.cookie.isSome then some .requestHasCookie
  else if request.byteRange.isSome then some .requestHasByteRange
  else none

def sameFetchUrl (left right : Url) : Bool := parts.fetchUrl left = parts.fetchUrl right

structure CacheKey where
  fetchUrl : String
  accept : Option String
deriving DecidableEq

def CacheKey.fromRequest (request : FetchRequest Url) : CacheKey := ⟨parts.fetchUrl request.url, request.accept⟩

end Requests

/-! ## Fields -/

/-- optional whitespace -/
def isOws (c : Char) : Bool := c = ' ' || c = '\t'

def isHttpToken (value : Chars) : Bool :=
  !value.isEmpty && value.all fun c =>
    c.isAlphanum || "!#$%&'*+-.^_`|~".toList.contains c

/-- one field name of a `Vary` field goes to the names before it -/
def varyName (names : List String) (field : Chars) : Option (List String) :=
  let field := field.trimMatches isOws
  if field = [] then some names
  else if field = ['*'] then none
  else if ¬ isHttpToken field then none
  else
    let name := String.ofList field.toAsciiLowercase
    if names.contains name then some names else some (names ++ [name])

def varyHeader (names : List String) (header : Header) : Option (List String) :=
  if ¬ eqIgnoreAsciiCase header.name "vary" then some names
  else do
    let value ← fromUtf8 header.value
    (value.toList.splitOn ',').foldlM varyName names

/-- `vary_selectors` -/
def varySelectors (headers : List Header) : Option (List String) :=
  (headers.foldlM varyHeader []).map fun names => names.insertionSort (· ≤ ·)

/-- the loop of `normalize_field_value`: whether it is in quotes, whether it skips whitespace after a comma, and what it
has so far -/
def normalizeLoop : Chars → Bool → Bool → Chars → Chars
  | [], _, _, normalized => normalized
  | [c], inQuotes, skipping, normalized =>
    if skipping && isOws c then normalized
    else if c = ',' && !inQuotes then (normalized.reverse.dropWhile isOws).reverse ++ [',']
    else normalized ++ [c]
  | c :: next :: rest, inQuotes, skipping, normalized =>
    if skipping && isOws c then normalizeLoop (next :: rest) inQuotes true normalized
    else if c = '"' then normalizeLoop (next :: rest) (!inQuotes) false (normalized ++ [c])
    else if c = '\\' && inQuotes then normalizeLoop rest inQuotes false (normalized ++ [c, next])
    else if c = ',' && !inQuotes then
      normalizeLoop (next :: rest) inQuotes true ((normalized.reverse.dropWhile isOws).reverse ++ [','])
    else normalizeLoop (next :: rest) inQuotes false (normalized ++ [c])

/-- `normalize_field_value` -/
def normalizeFieldValue (value : String) : Chars := normalizeLoop (Chars.trimMatches isOws value.toList) false false []

/-- `request_header_value` -/
def requestHeaderValue {Url : Type} (request : FetchRequest Url) (name : String) : Option String :=
  let values := (request.headers.filter fun header => eqIgnoreAsciiCase header.1 name).map Prod.snd
  let values := if values.isEmpty && eqIgnoreAsciiCase name "accept" then request.accept.toList else values
  if values.isEmpty then none else some (String.ofList (Chars.join ',' (values.map normalizeFieldValue)))

/-- the names of a `Vary`, each with its value in the request -/
structure VaryVariant where
  selectors : List (String × Option String)
deriving DecidableEq

def VaryVariant.fromRequest {Url : Type} (request : FetchRequest Url) (headers : List Header) : Option VaryVariant :=
  (varySelectors headers).map fun names => ⟨names.map fun name => (name, requestHeaderValue request name)⟩

def VaryVariant.matches_ {Url : Type} (variant : VaryVariant) (request : FetchRequest Url) : Bool :=
  variant.selectors.all fun selector => requestHeaderValue request selector.1 = selector.2

def hasHeader (headers : List Header) (name : String) : Bool := headers.any fun header => eqIgnoreAsciiCase header.name name

/-- the fields of a 304 that say something about its own message -/
def isKept (name : String) : Bool :=
  ["content-length", "content-type", "content-encoding", "content-range", "transfer-encoding"].contains
    (String.ofList (Chars.toAsciiLowercase name.toList))

def mergeHeader (merged : List Header) (replacement : Header) : List Header :=
  if isKept replacement.name then merged
  else
    let insertAt := merged.findIdx? fun header => eqIgnoreAsciiCase header.name replacement.name
    let others := merged.filter fun header => !eqIgnoreAsciiCase header.name replacement.name
    match insertAt with
    | some index => others.insertIdx index replacement
    | none => others ++ [replacement]

/-- `merge_headers` -/
def mergeHeaders (previous update : List Header) : List Header := update.foldl mergeHeader previous

/-- the `charset` parameter among those behind a media type -/
def charsetParameter (parameter : Chars) : Option String := do
  let (name, value) ← Chars.splitOnce '=' parameter
  if Chars.eqIgnoreAsciiCase (Chars.trim name) "charset".toList then
    some (String.ofList (Chars.toAsciiLowercase ((Chars.trim value).trimMatches (· = '"'))))
  else none

/-- `parse_content_type` -/
def parseContentType (value : String) : Option ContentType :=
  match value.toList.splitOn ';' with
  | [] => none
  | first :: parameters =>
    let mediaType := Chars.toAsciiLowercase (Chars.trim first)
    if mediaType.isEmpty || !mediaType.contains '/' then none
    else some ⟨String.ofList mediaType, parameters.findSome? charsetParameter⟩

/-! ## The policy -/

inductive CachePolicy where
  | store (freshness : Duration)
  | skip (reason : CacheSkipReason)
deriving DecidableEq

/-- one directive of a `Cache-Control` field, after the `max-age` of those before it -/
def cacheDirective (maxAge : Option Duration) (directive : Chars) : Except CacheSkipReason (Option Duration) :=
  let directive := Chars.trim directive
  if directive.isEmpty then .ok maxAge
  else
    let (name, value) :=
      match Chars.splitOnce '=' directive with
      | some (name, value) => (Chars.trim name, some (Chars.trim value))
      | none => (directive, none)
    if Chars.eqIgnoreAsciiCase name "no-store".toList then .error .noStore
    else if Chars.eqIgnoreAsciiCase name "private".toList then .error .private_
    else if Chars.eqIgnoreAsciiCase name "no-cache".toList then .error .noCache
    else if ¬ Chars.eqIgnoreAsciiCase name "max-age".toList then .ok maxAge
    else
      match value.bind fun value => Chars.parseU64 (Chars.trimMatches (· = '"') value) with
      | none => .error .invalidMaxAge
      | some seconds =>
        let freshness := Duration.ofSecs seconds
        if maxAge.any fun existing => existing ≠ freshness then .error .invalidMaxAge else .ok (some freshness)

def cacheControlHeader (maxAge : Option Duration) (header : Header) : Except CacheSkipReason (Option Duration) :=
  if ¬ eqIgnoreAsciiCase header.name "cache-control" then .ok maxAge
  else
    match fromUtf8 header.value with
    | none => .error .invalidMaxAge
    | some value => (value.toList.splitOn ',').foldlM cacheDirective maxAge

/-- `cache_control_policy` -/
def cacheControlPolicy (headers : List Header) : CachePolicy :=
  match headers.foldlM cacheControlHeader none with
  | .error reason => .skip reason
  | .ok none => .skip .noExplicitFreshness
  | .ok (some freshness) => if freshness.nanos = 0 then .skip .notFresh else .store freshness

section Policy

variable {Url : Type} (parts : UrlParts Url)

/-- the response is for another URL than the request -/
def isRedirected (request : FetchRequest Url) (response : FetchResponse Url) : Bool :=
  !sameFetchUrl parts request.url response.requestedUrl || !sameFetchUrl parts request.url response.finalUrl ||
    !response.redirects.isEmpty || response.redirectChain.length > 1

/-- `cache_policy` -/
def cachePolicy (request : FetchRequest Url) (response : FetchResponse Url) : CachePolicy :=
  match requestSkipReason parts request with
  | some reason => .skip reason
  | none =>
    if response.status ≠ 200 then .skip (.responseStatus response.status)
    else if isRedirected parts request response then .skip .redirected
    else if hasHeader response.headers "set-cookie" then .skip .responseSetsCookie
    else if (varySelectors response.headers).isNone then .skip .vary
    else cacheControlPolicy response.headers

end Policy

/-! ## The cache -/

structure CacheEntry (Url : Type) where
  response : FetchResponse Url
  variant : VaryVariant
  freshUntil : Instant
  responseBytes : ℕ
  lastUsed : ℕ
deriving DecidableEq

structure HttpCache (Url : Type) where
  config : HttpCacheConfig
  entries : Assoc CacheKey (List (CacheEntry Url))
  memoryBytes : ℕ
  accessClock : ℕ
  epoch : CacheEpoch

/-- an order in which the buckets of a map are visited -/
structure MapOrder (Url : Type) where
  order : HttpCache Url → List (CacheKey × List (CacheEntry Url))
  perm : ∀ c, (order c).Perm c.entries.entries

/-- the key of `max_by_key`: the deadline, and the last use under one deadline -/
def CacheEntry.recency {Url : Type} (entry : CacheEntry Url) : ℕ ×ₗ ℕ := toLex (entry.freshUntil.nanos, entry.lastUsed)

/-- the index of the accepted entry with the latest deadline -/
def latestIndex {Url : Type} (accept : CacheEntry Url → Bool) (entries : List (CacheEntry Url)) : Option ℕ :=
  (lastMax (fun entry => entry.1.recency) (entries.zipIdx.filter fun entry => accept entry.1)).map Prod.snd

def CacheEntry.isFresh {Url : Type} (entry : CacheEntry Url) (request : FetchRequest Url) (now : Instant) : Bool :=
  now.nanos < entry.freshUntil.nanos && entry.variant.matches_ request

def CacheEntry.isStale {Url : Type} (entry : CacheEntry Url) (request : FetchRequest Url) (now : Instant) : Bool :=
  now.nanos ≥ entry.freshUntil.nanos && entry.variant.matches_ request

/-- `fresh_entry_index` -/
def freshEntryIndex {Url : Type} (entries : List (CacheEntry Url)) (request : FetchRequest Url) (now : Instant) : Option ℕ :=
  latestIndex (fun entry => entry.isFresh request now) entries

/-- `stale_entry_index` -/
def staleEntryIndex {Url : Type} (entries : List (CacheEntry Url)) (request : FetchRequest Url) (now : Instant) : Option ℕ :=
  latestIndex (fun entry => entry.isStale request now) entries

namespace HttpCache

variable {Url : Type} (parts : UrlParts Url) (order : MapOrder Url) (c : HttpCache Url)

def new (config : HttpCacheConfig) : HttpCache Url := ⟨config, .empty, 0, 0, 0⟩

/-- all entries, bucket by bucket -/
def all : List (CacheEntry Url) := c.entries.flat

def entryCount : ℕ := (c.entries.entries.map fun bucket => bucket.2.length).sum

/-- `next_access`, with the clock that it returns -/
def nextAccess : ℕ × HttpCache Url :=
  let accessClock := min (c.accessClock + 1) u64Max
  (accessClock, { c with accessClock })

def bucket (key : CacheKey) : Option (List (CacheEntry Url)) := c.entries.get key

/-- the entry is used now -/
def touch (key : CacheKey) (index : ℕ) : Option (FetchResponse Url) × HttpCache Url :=
  let (lastUsed, c) := c.nextAccess
  match c.bucket key with
  | none => (none, c)
  | some entries =>
    match entries[index]? with
    | none => (none, c)
    | some entry =>
      (some entry.response, { c with entries := c.entries.set key (entries.set index { entry with lastUsed }) })

/-- `lookup`: the response of a hit -/
def lookup (request : FetchRequest Url) (now : Instant) : Option (FetchResponse Url) × HttpCache Url :=
  if (requestSkipReason parts request).isSome || request.cacheValidators.isSome then (none, c)
  else
    let key := CacheKey.fromRequest parts request
    match (c.bucket key).bind fun entries => freshEntryIndex entries request now with
    | none => (none, c)
    | some index => c.touch key index

/-- `stale_response` -/
def staleResponse (request : FetchRequest Url) (now : Instant) : Option (FetchResponse Url) × HttpCache Url :=
  if (requestSkipReason parts request).isSome then (none, c)
  else
    let key := CacheKey.fromRequest parts request
    match (c.bucket key).bind fun entries => staleEntryIndex entries request now with
    | none => (none, c)
    | some index => c.touch key index

/-- `revalidation_request` -/
def revalidationRequest (request : FetchRequest Url) (now : Instant) : Option (FetchRequest Url) × HttpCache Url :=
  match c.staleResponse parts request now with
  | (none, c) => (none, c)
  | (some stale, c) =>
    let validators := CacheValidators.fromHeaders stale.headers
    if validators.isEmpty then (none, c) else (some (request.withCacheValidators validators), c)

/-- `remove_bucket_entry` -/
def removeBucketEntry (key : CacheKey) (index : ℕ) : HttpCache Url :=
  match c.bucket key with
  | none => c
  | some entries =>
    match entries[index]? with
    | none => c
    | some removed =>
      let rest := entries.eraseIdx index
      { c with
        entries := if rest.isEmpty then c.entries.erase key else c.entries.set key rest
        memoryBytes := c.memoryBytes - removed.responseBytes }

/-- where the entries are, in the order in which they are visited -/
def places : List (CacheEntry Url × CacheKey × ℕ) :=
  (order.order c).flatMap fun bucket => bucket.2.zipIdx.map fun entry => (entry.1, bucket.1, entry.2)

def overLimits : Bool := c.entryCount > c.config.maxEntries || c.memoryBytes > c.config.maxBytes

/-- the loop of `evict_to_limits`, with a turn for each entry -/
def evictLoop : ℕ → HttpCache Url → HttpCache Url
  | 0, c => c
  | turns + 1, c =>
    if c.overLimits then
      match (c.places order).argmin fun place => place.1.lastUsed with
      | none => c
      | some (_, key, index) => evictLoop turns (c.removeBucketEntry key index)
    else c

def evictToLimits : HttpCache Url := evictLoop order c.entryCount c

/-- the entries of a bucket without the one of a variant, and the bytes in memory without its own -/
def withoutVariant (key : CacheKey) (variant : VaryVariant) : List (CacheEntry Url) × ℕ :=
  match c.bucket key with
  | none => ([], c.memoryBytes)
  | some entries =>
    match entries.findIdx? fun existing => existing.variant = variant with
    | none => (entries, c.memoryBytes)
    | some index => (entries.eraseIdx index, c.memoryBytes - (entries[index]?.map CacheEntry.responseBytes).getD 0)

/-- `insert_entry` without the eviction -/
def putEntry (key : CacheKey) (entry : CacheEntry Url) : HttpCache Url :=
  { c with
    entries := c.entries.set key ((c.withoutVariant key entry.variant).1 ++ [entry])
    memoryBytes := (c.withoutVariant key entry.variant).2 + entry.responseBytes }

/-- `insert_entry` -/
def insertEntry (key : CacheKey) (entry : CacheEntry Url) : HttpCache Url := evictToLimits order (c.putEntry key entry)

/-- an entry that is made now, and the cache after it was -/
def makeEntry (response : FetchResponse Url) (variant : VaryVariant) (freshUntil : Instant) : CacheEntry Url × HttpCache Url :=
  let (lastUsed, c) := c.nextAccess
  (⟨response, variant, freshUntil, response.body.length, lastUsed⟩, c)

/-- the response of a cached one and a 304 -/
def mergedResponse (previous response : FetchResponse Url) : FetchResponse Url :=
  let headers := mergeHeaders previous.headers response.headers
  { previous with status := 200, contentType := (headerText headers "content-type").bind parseContentType, headers }

/-- the 304 is an answer that may be merged -/
def acceptsNotModified (request : FetchRequest Url) (response : FetchResponse Url) (submittedEpoch : CacheEpoch) : Bool :=
  submittedEpoch = c.epoch && response.status = 304 && (requestSkipReason parts request).isNone &&
    !isRedirected parts request response

/-- the entry that a request would revalidate, and its index -/
def staleEntry (request : FetchRequest Url) (now : Instant) : Option (CacheEntry Url × ℕ) := do
  let entries ← c.bucket (CacheKey.fromRequest parts request)
  let index ← staleEntryIndex entries request now
  let entry ← entries[index]?
  return (entry, index)

/-- what `merge_not_modified` returns, the index of the entry that it is made from, and the variant and the deadline of the
entry that replaces this one, if one does -/
def mergeable (request : FetchRequest Url) (response : FetchResponse Url) (now : Instant) (submittedEpoch : CacheEpoch) :
    Option (FetchResponse Url × ℕ × Option (VaryVariant × Instant)) :=
  if ¬ c.acceptsNotModified parts request response submittedEpoch then none
  else
    match c.staleEntry parts request now with
    | none => none
    | some (previous, index) =>
      let merged := mergedResponse previous.response response
      match VaryVariant.fromRequest request merged.headers, cachePolicy parts request merged with
      | none, _ => some (merged, index, none)
      | some _, .skip _ => some (merged, index, none)
      | some variant, .store freshness =>
        (now.checkedAdd freshness.nanos).map fun freshUntil => (merged, index, some (variant, freshUntil))

/-- `merge_not_modified` -/
def mergeNotModified (request : FetchRequest Url) (response : FetchResponse Url) (now : Instant)
    (submittedEpoch : CacheEpoch) : Option (FetchResponse Url) × HttpCache Url :=
  let key := CacheKey.fromRequest parts request
  match c.mergeable parts request response now submittedEpoch with
  | none => (none, c)
  | some (merged, index, none) => (some merged, c.removeBucketEntry key index)
  | some (merged, index, some (variant, freshUntil)) =>
    let (entry, c) := c.makeEntry merged variant freshUntil
    (some merged, (c.removeBucketEntry key index).insertEntry order key entry)

/-- the entry that `store` would make, its variant and its deadline, or why there is none -/
def storable (request : FetchRequest Url) (response : FetchResponse Url) (now : Instant) (submittedEpoch : CacheEpoch) :
    Except CacheSkipReason (VaryVariant × Instant) :=
  if submittedEpoch ≠ c.epoch then .error .staleEpoch
  else
    match cachePolicy parts request response, VaryVariant.fromRequest request response.headers with
    | .skip reason, _ => .error reason
    | .store _, none => .error .vary
    | .store freshness, some variant =>
      if c.config.maxEntries = 0 ∨ c.config.maxBytes = 0 then .error .capacityDisabled
      else if response.body.length > c.config.maxEntryBytes ∨ response.body.length > c.config.maxBytes then
        .error .entryTooLarge
      else
        match now.checkedAdd freshness.nanos with
        | none => .error .timeOverflow
        | some freshUntil => .ok (variant, freshUntil)

/-- `store`: the reason why the response was skipped, if it was -/
def store (request : FetchRequest Url) (response : FetchResponse Url) (now : Instant) (submittedEpoch : CacheEpoch) :
    Option CacheSkipReason × HttpCache Url :=
  match c.storable parts request response now submittedEpoch with
  | .error reason => (some reason, c)
  | .ok (variant, freshUntil) =>
    let (entry, c) := c.makeEntry response variant freshUntil
    (none, c.insertEntry order (CacheKey.fromRequest parts request) entry)

/-- `clear` -/
def clear : HttpCache Url :=
  { c with epoch := min (c.epoch + 1) u64Max, entries := .empty, memoryBytes := 0 }

end HttpCache

/-! ## Runs -/

/-- a call of the cache; a transfer carries the epoch of the moment at which it started, a number of calls -/
inductive CacheCall (Url : Type) where
  | lookup (request : FetchRequest Url) (now : Instant)
  | staleResponse (request : FetchRequest Url) (now : Instant)
  | revalidationRequest (request : FetchRequest Url) (now : Instant)
  | mergeNotModified (order : MapOrder Url) (request : FetchRequest Url) (response : FetchResponse Url) (now : Instant)
      (started : ℕ)
  | store (order : MapOrder Url) (request : FetchRequest Url) (response : FetchResponse Url) (now : Instant) (started : ℕ)
  | clear

def CacheCall.isClear {Url : Type} : CacheCall Url → Bool
  | .clear => true
  | _ => false

/-- a cache in use -/
structure Session (Url : Type) where
  cache : HttpCache Url
  /-- the epoch before each call so far -/
  epochs : List CacheEpoch

/-- what a call puts into the cache -/
structure Insertion (Url : Type) where
  request : FetchRequest Url
  response : FetchResponse Url
  now : Instant
  started : ℕ
  variant : VaryVariant
  freshUntil : Instant

namespace Session

variable {Url : Type} (parts : UrlParts Url) (s : Session Url)

def start (config : HttpCacheConfig) : Session Url := ⟨.new config, []⟩

/-- the epoch that a transfer carries -/
def epochAt (started : ℕ) : CacheEpoch := s.epochs.getD started s.cache.epoch

/-- the cache after a call -/
def call : CacheCall Url → HttpCache Url
  | .lookup request now => (s.cache.lookup parts request now).2
  | .staleResponse request now => (s.cache.staleResponse parts request now).2
  | .revalidationRequest request now => (s.cache.revalidationRequest parts request now).2
  | .mergeNotModified order request response now started =>
    (s.cache.mergeNotModified parts order request response now (s.epochAt started)).2
  | .store order request response now started => (s.cache.store parts order request response now (s.epochAt started)).2
  | .clear => s.cache.clear

def step (call : CacheCall Url) : Session Url := ⟨s.call parts call, s.epochs ++ [s.cache.epoch]⟩

def run (calls : List (CacheCall Url)) : Session Url := calls.foldl (step parts) s

/-- the entry that a call makes -/
def inserts : CacheCall Url → Option (Insertion Url)
  | .store _ request response now started =>
    match s.cache.storable parts request response now (s.epochAt started) with
    | .ok (variant, freshUntil) => some ⟨request, response, now, started, variant, freshUntil⟩
    | .error _ => none
  | .mergeNotModified _ request response now started =>
    match s.cache.mergeable parts request response now (s.epochAt started) with
    | some (merged, _, some (variant, freshUntil)) => some ⟨request, merged, now, started, variant, freshUntil⟩
    | _ => none
  | _ => none

variable {parts s}

theorem run_append (calls later : List (CacheCall Url)) : s.run parts (calls ++ later) = (s.run parts calls).run parts later :=
  List.foldl_append

theorem run_cons (call : CacheCall Url) (calls : List (CacheCall Url)) :
    s.run parts (call :: calls) = (s.step parts call).run parts calls := rfl

theorem run_concat (calls : List (CacheCall Url)) (last : CacheCall Url) :
    s.run parts (calls ++ [last]) = (s.run parts calls).step parts last := run_append _ _

end Session

/-! ## Small requests and responses -/

/-- URLs are their own texts -/
def plainParts : UrlParts String := ⟨fun _ => "http", id⟩

def plainRequest (url : String) : FetchRequest String := { url }

def plainResponse (status : HttpStatus) (url : String) (fields : List (String × String)) (body : Octets) :
    FetchResponse String where
  requestedUrl := url
  finalUrl := url
  redirectChain := [url]
  redirects := []
  status := status
  headers := fields.map fun field => ⟨field.1, utf8 field.2⟩
  contentType := none
  body := body

/-- the buckets in the order in which they are kept -/
def plainOrder : MapOrder String := ⟨fun c => c.entries.entries, fun _ => List.Perm.refl _⟩

/-- a number of seconds after the start of the clock -/
def second (n : ℕ) : Instant := ⟨min (n * nanosPerSec) clockMax, min_le_right _ _⟩

end Render.Cache
