/-
The redirect loop of a fetch (`HttpTransport::fetch_transfer` of `render-net/src/transport.rs`).

What goes out is modelled, hop by hop: the method, the URL, the body and the headers that `send_hop` gets. What comes in is a
parameter, a reply for every hop: whether the token is cancelled, the clocks, and the response or the failure. The loop ends
where it has a response to read; reading it sends nothing. Nor does a `data` URL.
-/
import Render.Net.CookieRules

namespace Render.Net

open Render.Core

/-! ## Requests -/

namespace HttpMethod

def asStr : HttpMethod → String
  | get => "GET"
  | post => "POST"
  | put => "PUT"
  | delete => "DELETE"
  | head => "HEAD"
  | options => "OPTIONS"
  | patch => "PATCH"

/-- `allows_body` -/
def allowsBody : HttpMethod → Bool
  | get | head => false
  | _ => true

end HttpMethod

/-- `header_value` -/
def ByteRange.headerValue : ByteRange → String
  | from_ start => "bytes=" ++ toString start ++ "-"
  | inclusive start stop => "bytes=" ++ toString start ++ "-" ++ toString stop
  | suffix length => "bytes=-" ++ toString length

inductive FetchPhase
  | request
  | queued
  | dns
  | tcpConnect
  | tlsHandshake
  | requestSend
  | responseHeaders
  | bodyTransfer
  deriving DecidableEq

/-- the failures of the loop; ε are those of a hop -/
inductive FetchError (ε : Type)
  | cancelled
  | unsupportedScheme (scheme : Chars)
  | invalidUrl (message : String)
  | timeout
  | redirectLimitExceeded (limit : ℕ)
  | reservedHeader (name : String)
  | invalidRequest (message : String)
  | failed (phase : FetchPhase) (elapsed : ℕ) (source : FetchError ε)
  | ofHop (e : ε)

structure FetchConfig where
  redirectLimit : ℕ
  /-- in nanoseconds -/
  timeout : ℕ

/-- what is used of `Url` by the loop -/
structure UrlOps (Url : Type) extends UrlFields Url where
  join : Url → Chars → Except String Url

/-- `RESERVED_HEADERS` -/
def reservedHeaders : List String := ["host", "content-length", "transfer-encoding", "connection", "cookie"]

/-- whether a name is reserved -/
def isReserved (name : String) : Bool := reservedHeaders.any fun reserved => reserved.toList = Chars.toAsciiLowercase name.toList

section Loop

variable {Url ε : Type}

/-- `validate_request` -/
def validateRequest (request : FetchRequest Url) : Except (FetchError ε) Unit :=
  if request.body.isSome && !request.method.allowsBody then
    .error (.invalidRequest (request.method.asStr ++ " requests cannot carry a body"))
  else
    match request.headers.find? fun header => isReserved header.1 with
    | some header => .error (.reservedHeader header.1)
    | none => .ok ()

variable (ops : UrlOps Url)

/-- `validate_scheme` -/
def validateScheme (url : Url) : Except (FetchError ε) Unit :=
  if ops.scheme url = "http".toList || ops.scheme url = "https".toList then .ok ()
  else .error (.unsupportedScheme (ops.scheme url))

/-- `same_origin` -/
def sameOrigin (left right : Url) : Bool :=
  Chars.eqIgnoreAsciiCase (ops.scheme left) (ops.scheme right) &&
    (match ops.hostStr left, ops.hostStr right with
      | some left, some right => Chars.eqIgnoreAsciiCase left right
      | _, _ => false) &&
    ops.portOrKnownDefault left = ops.portOrKnownDefault right

/-- `is_redirect_status` -/
def isRedirectStatus (status : HttpStatus) : Bool := [301, 302, 303, 307, 308].contains status

/-- whether a redirect turns the method into `GET` -/
def rewritesMethod (status : HttpStatus) (method : HttpMethod) : Bool :=
  if status = 301 || status = 302 then method = .post
  else if status = 303 then method = .post || method = .put
  else false

/-! ## Cookies of a chain -/

/-- the name of a pair in a `Cookie` header -/
def pairName (pair : Chars) : Chars :=
  match pair.splitOnce '=' with
  | some (name, _) => name.trim
  | none => pair

/-- `combined_cookie_header` -/
def combinedCookieHeader : Option Chars → Option Chars → Option Chars
  | caller, none => caller
  | none, some hop => some hop
  | some caller, some hop =>
    let hopNames := (hop.splitOn ';').filterMap fun pair => (Chars.splitOnce '=' pair).map fun parts => parts.1.trim
    let retained := (((caller.splitOn ';').map Chars.trim).filter fun pair => !pair.isEmpty).filter fun pair =>
      !hopNames.contains (pairName pair)
    if retained.isEmpty then some hop else some (joinWith "; ".toList retained ++ "; ".toList ++ hop)

/-- one field of `absorb_hop_set_cookies`: only what is named `Set-Cookie` and is UTF-8 -/
def absorbHeader (fields : UrlFields Url) (origin : Url) (jar : CookieJar) (header : Header) (now : ℤ) : CookieJar :=
  if eqIgnoreAsciiCase header.name "set-cookie" then
    match fromUtf8 header.value with
    | some value => (jar.setCookieAt fields origin value.toList now).2
    | none => jar
  else jar

/-- `absorb_hop_set_cookies`; each field is stored at a time of its own -/
def absorbHopSetCookies (fields : UrlFields Url) (origin : Url) (times : ℕ → ℤ) (jar : CookieJar)
    (headers : List Header) : CookieJar :=
  headers.zipIdx.foldl (fun jar entry => absorbHeader fields origin jar entry.1 (times entry.2)) jar

/-! ## Hops -/

/-- what a hop sends -/
structure Hop (Url : Type) where
  method : HttpMethod
  url : Url
  body : Option Octets
  headers : List (String × String)

/-- what the loop meets at a hop -/
structure HopReply (ε : Type) where
  cancelledBefore : Bool
  cancelledAfter : Bool
  /-- the time at which the `Cookie` header is made -/
  sendTime : ℤ
  /-- the times at which the fields are absorbed -/
  absorbTimes : ℕ → ℤ
  /-- since the start of the loop, in nanoseconds -/
  elapsed : ℕ
  response : Except ε (HttpStatus × List Header)

/-- the variables of the loop -/
structure ChainState (Url : Type) where
  currentUrl : Url
  currentMethod : HttpMethod
  hopBody : Option Octets
  redirectChain : List Url
  redirects : List (RedirectResponse Url)
  redirectCount : ℕ
  hopCookies : CookieJar

def ChainState.start (request : FetchRequest Url) : ChainState Url where
  currentUrl := request.url
  currentMethod := request.method
  hopBody := request.body
  redirectChain := [request.url]
  redirects := []
  redirectCount := 0
  hopCookies := .withLimits {}

/-- `managed`: a field that the transport sets, unless the caller set it -/
def managed (headers : List (String × String)) (name value : String) : List (String × String) :=
  if headers.any fun header => eqIgnoreAsciiCase header.1 name then headers else headers ++ [(name, value)]

/-- `managed` for a value there may be -/
def managedSome (headers : List (String × String)) (name : String) (value : Option String) : List (String × String) :=
  match value with
  | some value => managed headers name value
  | none => headers

/-- the fields of the client that every hop carries -/
def clientHeaders : List (String × String) :=
  [("Sec-CH-UA", "\"Not_A Brand\";v=\"8\", \"Chromium\";v=\"120\", \"Google Chrome\";v=\"120\""),
    ("Sec-CH-UA-Mobile", "?0"), ("Sec-CH-UA-Platform", "\"Windows\""), ("Accept-Language", "zh-CN,zh;q=0.9,en;q=0.8")]

namespace ChainState

variable (state : ChainState Url) (request : FetchRequest Url)

/-- the caller's `Cookie`, on a hop to the origin of the request -/
def callerCookie : Option Chars :=
  if sameOrigin ops state.currentUrl request.url then request.cookie.map String.toList else none

/-- the `Cookie` of a hop -/
def cookie (now : ℤ) : Option Chars :=
  combinedCookieHeader (state.callerCookie ops request) (state.hopCookies.cookieHeaderAt ops.toUrlFields state.currentUrl now)

/-- the validators of a hop -/
def validators : Option CacheValidators :=
  if state.redirectCount = 0 && sameOrigin ops state.currentUrl request.url then request.cacheValidators else none

/-- the headers of a hop: the caller's first, then those of the transport -/
def hopHeaders (now : ℤ) : List (String × String) :=
  let headers := managedSome request.headers "Accept" request.accept
  let headers := clientHeaders.foldl (fun headers field => managed headers field.1 field.2) headers
  let headers := managedSome headers "Cookie" ((state.cookie ops request now).map String.ofList)
  let headers := managedSome headers "Range" (request.byteRange.map ByteRange.headerValue)
  let headers := managedSome headers "If-None-Match" ((state.validators ops request).bind CacheValidators.etag)
  managedSome headers "If-Modified-Since" ((state.validators ops request).bind CacheValidators.lastModified)

/-- what a hop sends -/
def hop (now : ℤ) : Hop Url where
  method := state.currentMethod
  url := state.currentUrl
  body := state.hopBody
  headers := state.hopHeaders ops request now

end ChainState

/-- how the loop goes on behind a hop -/
inductive Answered (Url ε : Type)
  | failed (error : FetchError ε)
  /-- a response that remains to be read -/
  | arrived (status : HttpStatus) (headers : List Header)
  | redirected (next : ChainState Url)

variable (config : FetchConfig)

/-- the variables once a redirect to a URL is followed -/
def ChainState.redirectedTo (state : ChainState Url) (reply : HopReply ε) (status : HttpStatus) (headers : List Header)
    (next : Url) : ChainState Url :=
  let rewritten := rewritesMethod status state.currentMethod
  { currentUrl := next
    currentMethod := if rewritten then .get else state.currentMethod
    hopBody := if rewritten then none else state.hopBody
    redirectChain := state.redirectChain ++ [next]
    redirects := state.redirects ++ [⟨state.currentUrl, status, headers⟩]
    redirectCount := state.redirectCount + 1
    hopCookies := absorbHopSetCookies ops.toUrlFields state.currentUrl reply.absorbTimes state.hopCookies headers }

/-- where a response redirects to; `none` for one that is not followed -/
def redirectLocation (status : HttpStatus) (headers : List Header) : Option String :=
  if isRedirectStatus status && decide (0 < config.redirectLimit) then headerText headers "location" else none

/-- what the loop does with a reply -/
def ChainState.answered (state : ChainState Url) (reply : HopReply ε) : Answered Url ε :=
  match reply.response with
  | .error e => .failed (.ofHop e)
  | .ok (status, headers) =>
    if reply.cancelledAfter then .failed .cancelled
    else
      match redirectLocation config status headers with
      | none => .arrived status headers
      | some location =>
        if config.redirectLimit ≤ state.redirectCount then .failed (.redirectLimitExceeded config.redirectLimit)
        else if config.timeout ≤ reply.elapsed then .failed (.failed .responseHeaders reply.elapsed .timeout)
        else
          match ops.join state.currentUrl (Chars.trim location.toList) with
          | .error message => .failed (.invalidUrl message)
          | .ok next =>
            match validateScheme (ε := ε) ops next with
            | .error error => .failed error
            | .ok () => .redirected (state.redirectedTo ops reply status headers next)

theorem ChainState.answered_redirected {state next : ChainState Url} {reply : HopReply ε}
    (h : state.answered ops config reply = .redirected next) :
    state.redirectCount < config.redirectLimit ∧
      ∃ status headers url, reply.response = .ok (status, headers) ∧
        next = state.redirectedTo ops reply status headers url := by
  simp only [ChainState.answered] at h
  split at h
  · cases h
  · rename_i status headers hresponse
    by_cases hcancelled : reply.cancelledAfter = true
    · rw [if_pos hcancelled] at h
      cases h
    rw [if_neg hcancelled] at h
    cases hlocation : redirectLocation config status headers with
    | none =>
      rw [hlocation] at h
      cases h
    | some location =>
      simp only [hlocation] at h
      by_cases hlimit : config.redirectLimit ≤ state.redirectCount
      · rw [if_pos hlimit] at h
        cases h
      rw [if_neg hlimit] at h
      split at h
      · cases h
      · split at h
        · cases h
        · rename_i url hjoin
          split at h
          · cases h
          · cases h
            exact ⟨not_le.1 hlimit, status, headers, url, hresponse, rfl⟩

/-- a hop as it was sent, and the redirects that led to it -/
structure SentHop (Url : Type) where
  redirects : List (RedirectResponse Url)
  hop : Hop Url

/-- how a fetch ends, before its response is read -/
inductive Fetched (Url ε : Type)
  | failed (error : FetchError ε)
  /-- a `data` URL, which is decoded -/
  | data
  | arrived (status : HttpStatus) (headers : List Header) (state : ChainState Url)

/-- the loop of `fetch_transfer`: the hops that it sends, and how it ends -/
def followRedirects (request : FetchRequest Url) (replies : ℕ → HopReply ε) (state : ChainState Url) :
    List (SentHop Url) × Fetched Url ε :=
  let reply := replies state.redirectCount
  if reply.cancelledBefore then ([], .failed .cancelled)
  else
    let sent : SentHop Url := ⟨state.redirects, state.hop ops request reply.sendTime⟩
    match h : state.answered ops config reply with
    | .failed error => ([sent], .failed error)
    | .arrived status headers => ([sent], .arrived status headers state)
    | .redirected next =>
      have : config.redirectLimit - next.redirectCount < config.redirectLimit - state.redirectCount := by
        obtain ⟨hless, status, headers, url, -, rfl⟩ := ChainState.answered_redirected ops config h
        exact Nat.sub_lt_sub_left hless (Nat.lt_succ_self _)
      let rest := followRedirects request replies next
      (sent :: rest.1, rest.2)
  termination_by config.redirectLimit - state.redirectCount

/-- `fetch_transfer` -/
def fetchTransfer (request : FetchRequest Url) (replies : ℕ → HopReply ε) (cancelled : Bool) :
    List (SentHop Url) × Fetched Url ε :=
  match validateRequest request with
  | .error error => ([], .failed error)
  | .ok () =>
    if ops.scheme request.url = "data".toList then ([], .data)
    else
      match validateScheme ops request.url with
      | .error error => ([], .failed error)
      | .ok () => if cancelled then ([], .failed .cancelled) else followRedirects ops config request replies (.start request)

end Loop

end Render.Net
