/-
Cookies (`render-net/src/cookie.rs`): which fields a jar stores, which of them it sends, and the text of a store.

Of `Url` only the fields are used that `UrlFields` names. The time is a parameter, as in `set_cookie_at` and
`cookie_header_at`. The limits and the messages of rejections are modelled; the counters of a jar are not.
-/
import Mathlib.Data.Char
import Mathlib.Data.List.Lex
import Render.Core.SortedMap
import Render.Net.Types

namespace Render.Net

open Render.Core

/-- what is used of `Url` for cookies and redirects -/
structure UrlFields (Url : Type) where
  scheme : Url → Chars
  hostStr : Url → Option Chars
  portOrKnownDefault : Url → Option ℕ
  path : Url → Chars

namespace Chars

/-- `strip_prefix` -/
def stripPrefix (t pre : Chars) : Option Chars := if pre.isPrefixOf t then some (t.drop pre.length) else none

/-- `strip_suffix` -/
def stripSuffix (t suf : Chars) : Option Chars := if suf.isSuffixOf t then some (t.take (t.length - suf.length)) else none

/-- `parse::<i64>` -/
def parseI64 (t : Chars) : Option ℤ := do
  let n ← match t with
    | '+' :: rest => (digits rest).map Int.ofNat
    | '-' :: rest => (digits rest).map fun n : ℕ => -(n : ℤ)
    | _ => (digits t).map Int.ofNat
  if -2 ^ 63 ≤ n ∧ n < 2 ^ 63 then some n else none

/-- `to_string` of an `i64` -/
def ofI64 (n : ℤ) : Chars := if n < 0 then '-' :: Nat.toDigits 10 n.natAbs else Nat.toDigits 10 n.natAbs

/-- the carriage return at the end of a line goes -/
def chomp (line : Chars) : Chars := if line.getLast? = some '\r' then line.dropLast else line

/-- `lines`: a line ends with a line feed, which may have a carriage return before it -/
def lines (t : Chars) : List Chars :=
  let parts := t.splitOn '\n'
  let ended := parts.dropLast.map chomp
  match parts.getLast? with
  | none | some [] => ended
  | some last => ended ++ [last]

end Chars

open Chars

/-! ## Cookies -/

structure CookieLimits where
  maxCookies : ℕ := 4096
  maxCookieBytes : ℕ := 4096

inductive SameSite
  | strict
  | lax
  | none
  deriving DecidableEq

structure Cookie where
  name : Chars
  value : Chars
  domain : Chars
  path : Chars
  hostOnly : Bool
  secure : Bool
  httpOnly : Bool
  sameSite : Option SameSite
  expiresAt : Option ℤ
  deriving DecidableEq

inductive CookieRejection
  | invalidOrigin
  | invalidName
  | invalidDomain
  | publicSuffixLikeDomain
  | insecureSameSiteNone
  | sizeLimit
  | capacityLimit
  deriving DecidableEq

structure CookieIssue where
  rejection : CookieRejection
  message : String
  deriving DecidableEq

/-- the marks that a name does not hold -/
def nameSeparators : List Char :=
  ['(', ')', '<', '>', '@', ',', ';', ':', '\\', '"', '/', '[', ']', '?', '=', '\x7b', '\x7d']

/-- `valid_cookie_name` -/
def validCookieName (name : Chars) : Bool :=
  !name.isEmpty && name.all fun c =>
    decide (0x20 < c.toNat) && decide (c.toNat < 0x7f) && !nameSeparators.contains c

/-- `domain_matches` -/
def domainMatches (host domain : Chars) : Bool :=
  host = domain || (host.stripSuffix domain).any fun pre => pre.getLast? = some '.'

/-- `default_path` -/
def defaultPath (path : Chars) : Chars :=
  if path.head? ≠ some '/' || path = ['/'] then ['/']
  else
    -- up to the last slash
    let before := (path.reverse.dropWhile (· ≠ '/')).tail.reverse
    if before.isEmpty then ['/'] else before

/-- `normalized_request_path` -/
def normalizedRequestPath (path : Chars) : Chars := if path.isEmpty then ['/'] else path

/-- `path_matches` -/
def pathMatches (request cookie : Chars) : Bool :=
  request = cookie || (request.stripPrefix cookie).any fun suf => cookie.getLast? = some '/' || suf.head? = some '/'

/-- `parse_same_site` -/
def parseSameSite (value : Chars) : Option SameSite :=
  if value.eqIgnoreAsciiCase "strict".toList then some .strict
  else if value.eqIgnoreAsciiCase "lax".toList then some .lax
  else if value.eqIgnoreAsciiCase "none".toList then some .none
  else none

/-! ## Dates -/

/-- `leading_number`: a run of digits within bounds of its length, and what follows it -/
def leadingNumber (text : Chars) (min max : ℕ) : Option (ℤ × Chars) :=
  let run := text.takeWhile Char.isDigit
  if run.length < min ∨ max < run.length then none else (digits run).map fun n => (n, text.drop run.length)

/-- `parse_time_token` -/
def parseTimeToken (token : Chars) : Option (ℤ × ℤ × ℤ) := do
  let (hour, rest) ← leadingNumber token 1 2
  let rest ← rest.stripPrefix [':']
  let (minute, rest) ← leadingNumber rest 1 2
  let rest ← rest.stripPrefix [':']
  let (second, _) ← leadingNumber rest 1 2
  pure (hour, minute, second)

def months : List Chars :=
  ["jan", "feb", "mar", "apr", "may", "jun", "jul", "aug", "sep", "oct", "nov", "dec"].map String.toList

/-- `parse_month_token` -/
def parseMonthToken (token : Chars) : Option ℤ := do
  let index ← months.findIdx? fun name => Chars.eqIgnoreAsciiCase (token.take 3) name
  if ((token.drop 3).head?).any Char.isAlpha then none else some (index + 1)

/-- `is_delimiter` -/
def isDateDelimiter (c : Char) : Bool :=
  c = '\t' || (' ' ≤ c && c ≤ '/') || (';' ≤ c && c ≤ '@') || ('[' ≤ c && c ≤ '\x60') || ('\x7b' ≤ c && c ≤ '~')

/-- `days_from_civil` -/
def daysFromCivil (year month day : ℤ) : ℤ :=
  let year := if month ≤ 2 then year - 1 else year
  let era := year / 400
  let yearOfEra := year - era * 400
  let monthFromMarch := (month + 9) % 12
  let dayOfYear := (153 * monthFromMarch + 2) / 5 + day - 1
  let dayOfEra := yearOfEra * 365 + yearOfEra / 4 - yearOfEra / 100 + dayOfYear
  era * 146097 + dayOfEra - 719468

/-- the fields of a date -/
structure DateFields where
  time : Option (ℤ × ℤ × ℤ) := none
  day : Option ℤ := none
  month : Option ℤ := none
  year : Option ℤ := none

/-- a token fills the first field that it matches and that is still empty -/
def DateFields.fill (fields : DateFields) (token : Chars) : DateFields :=
  match if fields.time.isNone then parseTimeToken token else none with
  | some time => { fields with time := some time }
  | none =>
    match if fields.day.isNone then leadingNumber token 1 2 else none with
    | some (number, _) => { fields with day := some number }
    | none =>
      match if fields.month.isNone then parseMonthToken token else none with
      | some index => { fields with month := some index }
      | none =>
        match if fields.year.isNone then leadingNumber token 2 4 else none with
        | some (number, _) => { fields with year := some number }
        | none => fields

/-- `parse_cookie_date`: seconds since 1970 -/
def parseCookieDate (value : Chars) : Option ℤ := do
  let fields := ((value.splitOnP isDateDelimiter).filter fun token => !token.isEmpty).foldl DateFields.fill {}
  let (hour, minute, second) ← fields.time
  let day ← fields.day
  let month ← fields.month
  let year ← fields.year
  let year := if 70 ≤ year ∧ year ≤ 99 then year + 1900 else if 0 ≤ year ∧ year ≤ 69 then year + 2000 else year
  if day < 1 ∨ 31 < day ∨ year < 1601 ∨ 23 < hour ∨ 59 < minute ∨ 59 < second then none
  else some (daysFromCivil year month day * 86400 + hour * 3600 + minute * 60 + second)

/-! ## Set-Cookie -/

/-- `ParsedCookie` -/
structure ParsedCookie where
  cookie : Cookie
  remove : Bool
  maxAge : Option ℤ
  expires : Option ℤ

/-- `apply_domain` -/
def ParsedCookie.applyDomain (parsed : ParsedCookie) (host value : Chars) : Except CookieIssue ParsedCookie :=
  let candidate := Chars.toAsciiLowercase (value.trim.dropWhile (· = '.'))
  if candidate.isEmpty || !domainMatches host candidate then
    .error ⟨.invalidDomain, "cookie Domain does not match origin"⟩
  else if !candidate.contains '.' && candidate ≠ host then
    .error ⟨.publicSuffixLikeDomain, "cookie Domain is too broad"⟩
  else .ok { parsed with cookie := { parsed.cookie with domain := candidate, hostOnly := false } }

/-- `apply_attribute` -/
def ParsedCookie.applyAttribute (parsed : ParsedCookie) (host text : Chars) : Except CookieIssue ParsedCookie :=
  let text := text.trim
  let (key, value) := (text.splitOnce '=').getD (text, [])
  if key.eqIgnoreAsciiCase "domain".toList then parsed.applyDomain host value
  else if key.eqIgnoreAsciiCase "path".toList && value.head? = some '/' then
    .ok { parsed with cookie := { parsed.cookie with path := value } }
  else if key.eqIgnoreAsciiCase "secure".toList then .ok { parsed with cookie := { parsed.cookie with secure := true } }
  else if key.eqIgnoreAsciiCase "httponly".toList then
    .ok { parsed with cookie := { parsed.cookie with httpOnly := true } }
  else if key.eqIgnoreAsciiCase "samesite".toList then
    .ok { parsed with cookie := { parsed.cookie with sameSite := (parseSameSite value).or parsed.cookie.sameSite } }
  else if key.eqIgnoreAsciiCase "max-age".toList then .ok { parsed with maxAge := value.trim.parseI64.or parsed.maxAge }
  else if key.eqIgnoreAsciiCase "expires".toList then .ok { parsed with expires := parseCookieDate value }
  else .ok parsed

/-- the expiry of a cookie: `Max-Age` wins over `Expires`, and one that is not positive expires at once -/
def ParsedCookie.expiry (parsed : ParsedCookie) (now : ℤ) : Option ℤ :=
  match parsed.maxAge, parsed.expires with
  | some seconds, _ => some (if seconds ≤ 0 then -2 ^ 63 else max (-2 ^ 63) (min (now + seconds) (2 ^ 63 - 1)))
  | none, at_ => at_

section Jar

variable {Url : Type} (fields : UrlFields Url)

/-- the cookie of a name and a value without attributes -/
def ParsedCookie.plain (origin : Url) (host name value : Chars) : ParsedCookie where
  cookie :=
    { name, value, domain := host, path := defaultPath (fields.path origin), hostOnly := true, secure := false,
      httpOnly := false, sameSite := none, expiresAt := none }
  remove := false
  maxAge := none
  expires := none

/-- what `parse` does once it has read all attributes -/
def ParsedCookie.finish (parsed : ParsedCookie) (now : ℤ) : Except CookieIssue ParsedCookie :=
  if parsed.cookie.sameSite = some .none && !parsed.cookie.secure then
    .error ⟨.insecureSameSiteNone, "SameSite=None requires Secure"⟩
  else
    match parsed.expiry now with
    | some time =>
      if time ≤ now then .ok { parsed with remove := true }
      else .ok { parsed with cookie := { parsed.cookie with expiresAt := some time } }
    | none => .ok { parsed with cookie := { parsed.cookie with expiresAt := none } }

/-- `ParsedCookie::parse` -/
def ParsedCookie.parse (origin : Url) (field : Chars) (byteLimit : ℕ) (now : ℤ) : Except CookieIssue ParsedCookie :=
  match (fields.hostStr origin).map Chars.toAsciiLowercase with
  | none => .error ⟨.invalidOrigin, "cookie origin has no host"⟩
  | some host =>
    let parts := field.splitOn ';'
    let pair : Chars := parts.headD []
    if byteLimit < byteLen pair then .error ⟨.sizeLimit, "cookie exceeds byte limit"⟩
    else
      match pair.splitOnce '=' with
      | none => .error ⟨.invalidName, "cookie has no name/value separator"⟩
      | some (name, value) =>
        if !validCookieName name.trim then .error ⟨.invalidName, "cookie name is invalid"⟩
        else do
          let parsed ← parts.tail.foldlM (fun parsed text => parsed.applyAttribute host text)
            (ParsedCookie.plain fields origin host name.trim value.trim)
          parsed.finish now

/-- the key of a cookie: domain, path and name, which are compared in this order -/
def Cookie.key (cookie : Cookie) : List Chars := [cookie.domain, cookie.path, cookie.name]

structure CookieJar where
  cookies : SortedMap (List Chars) Cookie
  limits : CookieLimits

/-- `with_limits` -/
def CookieJar.withLimits (limits : CookieLimits) : CookieJar := ⟨.empty, limits⟩

/-- `set_cookie_at` -/
def CookieJar.setCookieAt (jar : CookieJar) (origin : Url) (field : Chars) (now : ℤ) : Except CookieIssue Unit × CookieJar :=
  match ParsedCookie.parse fields origin field jar.limits.maxCookieBytes now with
  | .error issue => (.error issue, jar)
  | .ok parsed =>
    let key := parsed.cookie.key
    if parsed.remove then (.ok (), { jar with cookies := jar.cookies.erase key })
    else if !jar.cookies.contains key && jar.limits.maxCookies ≤ jar.cookies.size then
      (.error ⟨.capacityLimit, "cookie jar capacity reached"⟩, jar)
    else (.ok (), { jar with cookies := jar.cookies.insert key parsed.cookie })

/-- whether a cookie is live at a time -/
def Cookie.isLive (cookie : Cookie) (now : ℤ) : Bool := cookie.expiresAt.all (now < ·)

/-- whether a cookie is sent to a host -/
def Cookie.sentTo (cookie : Cookie) (host : Chars) : Bool :=
  if cookie.hostOnly then cookie.domain = host else domainMatches host cookie.domain

/-- the cookies for a URL, longer paths first -/
def CookieJar.matching (jar : CookieJar) (url : Url) (host : Chars) (now : ℤ) : List Cookie :=
  let secureTransport := fields.scheme url = "https".toList
  let requestPath := normalizedRequestPath (fields.path url)
  (jar.cookies.values.filter fun cookie =>
    cookie.isLive now && (!cookie.secure || secureTransport) && cookie.sentTo host &&
      pathMatches requestPath cookie.path).mergeSort fun left right =>
        decide (byteLen right.path < byteLen left.path ∨
          (byteLen left.path = byteLen right.path ∧ left.name ≤ right.name))

/-- `name=value` -/
def Cookie.pair (cookie : Cookie) : Chars := cookie.name ++ '=' :: cookie.value

/-- texts with a separator between them -/
def joinWith (separator : Chars) (texts : List Chars) : Chars := separator.intercalate texts

/-- `cookie_header_at` -/
def CookieJar.cookieHeaderAt (jar : CookieJar) (url : Url) (now : ℤ) : Option Chars := do
  let host ← (fields.hostStr url).map Chars.toAsciiLowercase
  let matching := jar.matching fields url host now
  if matching.isEmpty then none else some (joinWith "; ".toList (matching.map Cookie.pair))

end Jar

/-- `purge_expired` -/
def CookieJar.purgeExpired (jar : CookieJar) (now : ℤ) : CookieJar :=
  { jar with cookies := jar.cookies.retain fun _ cookie => cookie.isLive now }

/-! ## The store -/

def storeHeader : Chars := "# rENDER cookie store v1".toList

def flag (value : Bool) : Chars := if value then ['1'] else ['0']

def parseFlag (text : Chars) : Option Bool :=
  if text = ['1'] then some true else if text = ['0'] then some false else none

/-- `escape_field` -/
def escapeField (text : Chars) : Chars :=
  text.flatMap fun c =>
    match c with
    | '\\' => ['\\', '\\']
    | '\t' => ['\\', 't']
    | '\n' => ['\\', 'n']
    | '\r' => ['\\', 'r']
    | other => [other]

/-- `unescape_field` -/
def unescapeField : Chars → Option Chars
  | [] => some []
  | '\\' :: '\\' :: rest => (unescapeField rest).map ('\\' :: ·)
  | '\\' :: 't' :: rest => (unescapeField rest).map ('\t' :: ·)
  | '\\' :: 'n' :: rest => (unescapeField rest).map ('\n' :: ·)
  | '\\' :: 'r' :: rest => (unescapeField rest).map ('\r' :: ·)
  | '\\' :: _ => none
  | c :: rest => (unescapeField rest).map (c :: ·)

def sameSiteField : Option SameSite → Chars
  | none => ['-']
  | some .strict => "strict".toList
  | some .lax => "lax".toList
  | some .none => "none".toList

def parseSameSiteField (text : Chars) : Option (Option SameSite) :=
  if text = ['-'] then some none
  else if text = "strict".toList then some (some .strict)
  else if text = "lax".toList then some (some .lax)
  else if text = "none".toList then some (some .none)
  else none

/-- the fields of a persistent cookie in the store -/
def Cookie.storeFields (cookie : Cookie) (expiry : ℤ) : List Chars :=
  [escapeField cookie.name, escapeField cookie.value, escapeField cookie.domain, escapeField cookie.path,
    flag cookie.hostOnly, flag cookie.secure, flag cookie.httpOnly, sameSiteField cookie.sameSite, ofI64 expiry]

/-- `to_store_text`: the cookies that expire after now, one a line -/
def CookieJar.toStoreText (jar : CookieJar) (now : ℤ) : Chars :=
  storeHeader ++ '\n' :: jar.cookies.values.flatMap fun cookie =>
    match cookie.expiresAt.filter (now < ·) with
    | none => []
    | some expiry => joinWith ['\t'] (cookie.storeFields expiry) ++ ['\n']

/-- `parse_store_line` -/
def parseStoreLine (line : Chars) : Option Cookie :=
  match line.splitOn '\t' with
  | [name, value, domain, path, hostOnly, secure, httpOnly, sameSite, expiresAt] => do
    let name ← unescapeField name
    if !validCookieName name then none
    else
      some
        { name
          value := ← unescapeField value
          domain := ← unescapeField domain
          path := ← unescapeField path
          hostOnly := ← parseFlag hostOnly
          secure := ← parseFlag secure
          httpOnly := ← parseFlag httpOnly
          sameSite := ← parseSameSiteField sameSite
          expiresAt := some (← parseI64 expiresAt) }
  | _ => none

/-- the lines of a store are loaded until the jar is full; a malformed line, or a cookie that is over, is skipped -/
def CookieJar.loadLines (now : ℤ) : List Chars → CookieJar → ℕ → ℕ × CookieJar
  | [], jar, loaded => (loaded, jar)
  | line :: rest, jar, loaded =>
    match parseStoreLine line with
    | none => loadLines now rest jar loaded
    | some cookie =>
      if cookie.expiresAt.all (· ≤ now) then loadLines now rest jar loaded
      else if !jar.cookies.contains cookie.key && jar.limits.maxCookies ≤ jar.cookies.size then (loaded, jar)
      else loadLines now rest { jar with cookies := jar.cookies.insert cookie.key cookie } (loaded + 1)

/-- `load_store_text` -/
def CookieJar.loadStoreText (jar : CookieJar) (text : Chars) (now : ℤ) : ℕ × CookieJar :=
  match text.lines with
  | [] => (0, jar)
  | first :: rest => if first ≠ storeHeader then (0, jar) else loadLines now rest jar 0

end Render.Net
