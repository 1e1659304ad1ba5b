/-
What a chain of redirects carries, for any request and any replies.

The state of the loop keeps an invariant: its jar holds only cookies that the redirects so far set, and the body and the method
are those of the request until a redirect rewrites the method.

- `fetchTransfer_scope`: at most `redirectLimit` redirects are followed; a hop to another origin gets no `Cookie` but those that
  the chain set for its host, and is the same whatever `Cookie` and validators the caller gave; the body goes out only before a
  rewrite. The caller's own headers go out on every hop.
- `authorization_crosses_origins`: so an `Authorization` header of the caller does reach another origin.
-/
import Render.Net.CookieRuns
import Render.Net.Redirects

namespace Render.Net

open Render.Core

variable {Url ε : Type}

/-! ## Cookies that a chain sets -/

/-- a redirect of the chain set the field -/
def SetInChain (redirects : List (RedirectResponse Url)) (record : SetRecord Url) : Prop :=
  ∃ redirect ∈ redirects, record.origin = redirect.url ∧ ∃ header ∈ redirect.headers,
    eqIgnoreAsciiCase header.name "set-cookie" = true ∧ ∃ text, fromUtf8 header.value = some text ∧
      record.field = text.toList

theorem mem_absorbHeader {fields : UrlFields Url} {origin : Url} {jar : CookieJar} {header : Header} {now : ℤ}
    {cookie : Cookie} (h : cookie ∈ (absorbHeader fields origin jar header now).cookies.values) :
    cookie ∈ jar.cookies.values ∨ ∃ record : SetRecord Url, record.origin = origin ∧ record.Stored fields cookie ∧
      eqIgnoreAsciiCase header.name "set-cookie" = true ∧ ∃ text, fromUtf8 header.value = some text ∧
        record.field = text.toList := by
  rw [absorbHeader] at h
  split_ifs at h with hname
  · split at h
    · rename_i text htext
      rcases mem_setCookieAt h with hmem | hstored
      · exact .inl hmem
      · exact .inr ⟨_, rfl, hstored, hname, text, htext, rfl⟩
    · exact .inl h
  · exact .inl h

/-- absorbing the fields of a redirect adds only cookies that it set -/
theorem mem_absorbHopSetCookies {fields : UrlFields Url} {origin : Url} {times : ℕ → ℤ} {jar : CookieJar}
    {headers : List Header} {cookie : Cookie}
    (h : cookie ∈ (absorbHopSetCookies fields origin times jar headers).cookies.values) :
    cookie ∈ jar.cookies.values ∨ ∃ record : SetRecord Url, record.origin = origin ∧ record.Stored fields cookie ∧
      ∃ header ∈ headers, eqIgnoreAsciiCase header.name "set-cookie" = true ∧
        ∃ text, fromUtf8 header.value = some text ∧ record.field = text.toList := by
  have hfold : ∀ entries : List (Header × ℕ), (∀ entry ∈ entries, entry.1 ∈ headers) → ∀ jar : CookieJar,
      cookie ∈ (entries.foldl (fun jar entry => absorbHeader fields origin jar entry.1 (times entry.2)) jar).cookies.values →
      cookie ∈ jar.cookies.values ∨ ∃ record : SetRecord Url, record.origin = origin ∧ record.Stored fields cookie ∧
        ∃ header ∈ headers, eqIgnoreAsciiCase header.name "set-cookie" = true ∧
          ∃ text, fromUtf8 header.value = some text ∧ record.field = text.toList := by
    intro entries
    induction entries with
    | nil => exact fun _ _ hmem => .inl hmem
    | cons entry rest ih =>
      intro hsub jar hmem
      rcases ih (fun other hother => hsub other (List.mem_cons_of_mem _ hother)) _ hmem with hmem | hset
      · rcases mem_absorbHeader hmem with hmem | ⟨record, horigin, hstored, hname, htext⟩
        · exact .inl hmem
        · exact .inr ⟨record, horigin, hstored, entry.1, hsub entry List.mem_cons_self, hname, htext⟩
      · exact .inr hset
  refine hfold headers.zipIdx ?_ jar h
  intro entry hmem
  exact List.fst_mem_of_mem_zipIdx hmem

/-! ## The invariant of the loop -/

/-- no redirect of the chain rewrites the method of the request -/
def Unrewritten (request : FetchRequest Url) (redirects : List (RedirectResponse Url)) : Prop :=
  ∀ redirect ∈ redirects, rewritesMethod redirect.status request.method = false

theorem rewritesMethod_get (status : HttpStatus) : rewritesMethod status .get = false := by
  simp [rewritesMethod]

structure ChainState.Inv (ops : UrlOps Url) (config : FetchConfig) (request : FetchRequest Url) (state : ChainState Url) :
    Prop where
  count : state.redirects.length = state.redirectCount
  within : state.redirectCount ≤ config.redirectLimit
  kept : Unrewritten request state.redirects → state.currentMethod = request.method ∧ state.hopBody = request.body
  dropped : ¬Unrewritten request state.redirects → state.currentMethod = .get ∧ state.hopBody = none
  cookies : ∀ cookie ∈ state.hopCookies.cookies.values, ∃ record : SetRecord Url,
    SetInChain state.redirects record ∧ record.Stored ops.toUrlFields cookie

section Invariant

variable {ops : UrlOps Url} {config : FetchConfig} {request : FetchRequest Url} {state next : ChainState Url}
  {reply : HopReply ε}

theorem ChainState.Inv.start : (ChainState.start request).Inv ops config request where
  count := rfl
  within := Nat.zero_le _
  kept := fun _ => ⟨rfl, rfl⟩
  dropped := fun hrewritten => absurd (fun redirect hmem => absurd hmem List.not_mem_nil) hrewritten
  cookies := by
    intro cookie hmem
    cases hmem

theorem SetInChain.mono {redirects : List (RedirectResponse Url)} {record : SetRecord Url}
    (h : SetInChain redirects record) (later : List (RedirectResponse Url)) : SetInChain (redirects ++ later) record := by
  obtain ⟨redirect, hmem, hset⟩ := h
  exact ⟨redirect, List.mem_append_left _ hmem, hset⟩

theorem ChainState.Inv.redirected (hinv : state.Inv ops config request)
    (h : state.answered ops config reply = .redirected next) : next.Inv ops config request := by
  obtain ⟨hless, status, headers, url, hresponse, rfl⟩ := ChainState.answered_redirected ops config h
  have hlast : Unrewritten request (state.redirects ++ [⟨state.currentUrl, status, headers⟩]) ↔
      Unrewritten request state.redirects ∧ rewritesMethod status request.method = false := by
    simp only [Unrewritten, List.forall_mem_append, List.forall_mem_singleton]
  refine ⟨?_, hless, ?_, ?_, ?_⟩
  · simp only [ChainState.redirectedTo, List.length_append, List.length_singleton, hinv.count]
  · intro hunrewritten
    obtain ⟨hbefore, hstatus⟩ := hlast.1 hunrewritten
    obtain ⟨hmethod, hbody⟩ := hinv.kept hbefore
    simp only [ChainState.redirectedTo, hmethod, hstatus, Bool.false_eq_true, if_false, hbody, and_self]
  · intro hrewritten
    by_cases hbefore : Unrewritten request state.redirects
    · have hstatus : rewritesMethod status request.method = true :=
        Bool.eq_true_of_not_eq_false fun hfalse => hrewritten (hlast.2 ⟨hbefore, hfalse⟩)
      simp only [ChainState.redirectedTo, (hinv.kept hbefore).1, hstatus, if_true, and_self]
    · obtain ⟨hmethod, hbody⟩ := hinv.dropped hbefore
      simp only [ChainState.redirectedTo, hmethod, rewritesMethod_get, Bool.false_eq_true, if_false, hbody, and_self]
  · intro cookie hmem
    rcases mem_absorbHopSetCookies hmem with hmem | ⟨record, horigin, hstored, header, hheader, hset⟩
    · obtain ⟨record, hset, hstored⟩ := hinv.cookies cookie hmem
      exact ⟨record, hset.mono _, hstored⟩
    · exact ⟨record, ⟨_, List.mem_append_right _ List.mem_cons_self, horigin, header, hheader, hset⟩, hstored⟩

/-! ## The headers of a hop -/

theorem mem_managed {headers : List (String × String)} {name value : String} {header : String × String}
    (h : header ∈ managed headers name value) : header ∈ headers ∨ header = (name, value) := by
  rw [managed] at h
  split_ifs at h
  · exact .inl h
  · rcases List.mem_append.1 h with hmem | hmem
    · exact .inl hmem
    · exact .inr (List.mem_singleton.1 hmem)

theorem mem_managedSome {headers : List (String × String)} {name : String} {value : Option String}
    {header : String × String} (h : header ∈ managedSome headers name value) :
    header ∈ headers ∨ header.1 = name ∧ value = some header.2 := by
  cases value with
  | none => exact .inl h
  | some value =>
    rcases mem_managed h with hmem | rfl
    · exact .inl hmem
    · exact .inr ⟨rfl, rfl⟩

theorem prefix_managed (headers : List (String × String)) (name value : String) : headers <+: managed headers name value := by
  rw [managed]
  split_ifs
  · exact List.prefix_rfl
  · exact List.prefix_append _ _

theorem prefix_managedSome (headers : List (String × String)) (name : String) (value : Option String) :
    headers <+: managedSome headers name value := by
  cases value with
  | none => exact List.prefix_rfl
  | some value => exact prefix_managed headers name value

theorem mem_managedAll (fields : List (String × String)) {headers : List (String × String)} {header : String × String}
    (h : header ∈ fields.foldl (fun headers field => managed headers field.1 field.2) headers) :
    header ∈ headers ∨ header ∈ fields := by
  induction fields generalizing headers with
  | nil => exact .inl h
  | cons field rest ih =>
    rcases ih h with hmem | hmem
    · rcases mem_managed hmem with hmem | rfl
      · exact .inl hmem
      · exact .inr List.mem_cons_self
    · exact .inr (List.mem_cons_of_mem _ hmem)

theorem prefix_managedAll (fields headers : List (String × String)) :
    headers <+: fields.foldl (fun headers field => managed headers field.1 field.2) headers := by
  induction fields generalizing headers with
  | nil => exact List.prefix_rfl
  | cons field rest ih => exact (prefix_managed headers field.1 field.2).trans (ih _)

/-- the caller's own headers go out on every hop -/
theorem prefix_hopHeaders (now : ℤ) : request.headers <+: state.hopHeaders ops request now :=
  ((((((prefix_managedSome _ _ _).trans (prefix_managedAll _ _)).trans (prefix_managedSome _ _ _)).trans
    (prefix_managedSome _ _ _)).trans (prefix_managedSome _ _ _))).trans (prefix_managedSome _ _ _)

/-- a header that is named `Cookie` -/
def isCookieName (name : String) : Bool := eqIgnoreAsciiCase name "cookie"

theorem isReserved_of_isCookieName {name : String} (h : isCookieName name = true) : isReserved name = true := by
  rw [isCookieName, eqIgnoreAsciiCase, Chars.eqIgnoreAsciiCase, decide_eq_true_eq] at h
  have hlower : Chars.toAsciiLowercase "cookie".toList = "cookie".toList := by decide
  rw [isReserved, List.any_eq_true]
  exact ⟨"cookie", by simp [reservedHeaders], decide_eq_true (hlower.symm.trans h.symm)⟩

theorem validateRequest_ok (h : validateRequest (ε := ε) request = .ok ()) :
    ∀ header ∈ request.headers, isCookieName header.1 = false := by
  intro header hmem
  rw [Bool.eq_false_iff]
  intro hcookie
  rw [validateRequest] at h
  split_ifs at h
  split at h
  · cases h
  · rename_i hnone
    exact List.find?_eq_none.1 hnone header hmem (isReserved_of_isCookieName hcookie)

/-- the only `Cookie` of a hop is the one that the transport makes -/
theorem mem_hopHeaders_cookie (hvalid : ∀ header ∈ request.headers, isCookieName header.1 = false) {now : ℤ}
    {header : String × String} (hmem : header ∈ state.hopHeaders ops request now) (hcookie : isCookieName header.1 = true) :
    state.cookie ops request now = some header.2.toList := by
  have hother : ∀ {name : String} {value : Option String}, isCookieName name = false →
      ¬(header.1 = name ∧ value = some header.2) := by
    rintro name value hname ⟨rfl, -⟩
    exact absurd hcookie (hname ▸ Bool.false_ne_true)
  have hclient : ∀ field ∈ clientHeaders, isCookieName field.1 = false := by decide
  rw [ChainState.hopHeaders] at hmem
  have h := (mem_managedSome hmem).resolve_right (hother (by decide))
  have h := (mem_managedSome h).resolve_right (hother (by decide))
  have h := (mem_managedSome h).resolve_right (hother (by decide))
  rcases mem_managedSome h with h | ⟨-, hvalue⟩
  · rcases mem_managedAll _ h with h | h
    · rcases mem_managedSome h with h | h
      · exact absurd hcookie (hvalid header h ▸ Bool.false_ne_true)
      · exact absurd h (hother (by decide))
    · exact absurd hcookie (hclient header h ▸ Bool.false_ne_true)
  · obtain ⟨cookie, hcookie, heq⟩ := Option.map_eq_some_iff.1 hvalue
    rw [hcookie, ← heq, String.toList_ofList]

/-- on a hop to another origin only the chain sets the `Cookie` -/
theorem cookie_of_cross (hcross : sameOrigin ops state.currentUrl request.url = false) (now : ℤ) :
    state.cookie ops request now = state.hopCookies.cookieHeaderAt ops.toUrlFields state.currentUrl now := by
  rw [ChainState.cookie, ChainState.callerCookie, hcross, if_neg Bool.false_ne_true]
  cases state.hopCookies.cookieHeaderAt ops.toUrlFields state.currentUrl now <;> rfl

/-- the request with another `Cookie` and other validators -/
def FetchRequest.withCredentials (request : FetchRequest Url) (cookie : Option String)
    (validators : Option CacheValidators) : FetchRequest Url :=
  { request with cookie := cookie, cacheValidators := validators }

/-- a hop to another origin does not depend on the caller's `Cookie` and validators -/
theorem hop_withCredentials (hcross : sameOrigin ops state.currentUrl request.url = false) (cookie : Option String)
    (validators : Option CacheValidators) (now : ℤ) :
    state.hop ops (request.withCredentials cookie validators) now = state.hop ops request now := by
  have hvalidators : ∀ other : FetchRequest Url, other.url = request.url → state.validators ops other = none := by
    intro other hurl
    rw [ChainState.validators, hurl, hcross, Bool.and_false, if_neg Bool.false_ne_true]
  have hcookie : state.cookie ops (request.withCredentials cookie validators) now = state.cookie ops request now := by
    have hother : sameOrigin ops state.currentUrl (request.withCredentials cookie validators).url = false := hcross
    rw [cookie_of_cross hcross now, cookie_of_cross hother now]
  simp only [ChainState.hop, ChainState.hopHeaders, hcookie, hvalidators request rfl,
    hvalidators (request.withCredentials cookie validators) rfl]
  rfl

end Invariant

/-! ## Chains -/

/-- what a hop may carry -/
structure SentHop.InScope (ops : UrlOps Url) (config : FetchConfig) (request : FetchRequest Url) (sent : SentHop Url) : Prop where
  within : sent.redirects.length ≤ config.redirectLimit
  callers : request.headers <+: sent.hop.headers
  cookies : sameOrigin ops sent.hop.url request.url = false → ∀ header ∈ sent.hop.headers, isCookieName header.1 = true →
    ∃ (host : Chars) (now : ℤ) (cookies : List Cookie), ops.cookieHost sent.hop.url = some host ∧
      header.2.toList = joinWith "; ".toList (cookies.map Cookie.pair) ∧ ∀ cookie ∈ cookies, ∃ record : SetRecord Url,
        SetInChain sent.redirects record ∧ SentRightly ops.toUrlFields record sent.hop.url host now cookie
  body : ∀ body, sent.hop.body = some body → request.body = some body ∧ Unrewritten request sent.redirects

section Chain

variable {ops : UrlOps Url} {config : FetchConfig} {request : FetchRequest Url}

theorem inScope_of_inv {state : ChainState Url} (hinv : state.Inv ops config request)
    (hvalid : ∀ header ∈ request.headers, isCookieName header.1 = false) (now : ℤ) :
    (⟨state.redirects, state.hop ops request now⟩ : SentHop Url).InScope ops config request where
  within := hinv.count.trans_le hinv.within
  callers := prefix_hopHeaders now
  cookies := by
    intro hcross header hmem hname
    have hcookie := mem_hopHeaders_cookie hvalid hmem hname
    rw [cookie_of_cross hcross] at hcookie
    obtain ⟨host, hhost, hpairs⟩ := cookieHeaderAt_eq_some hcookie
    refine ⟨host, now, _, hhost, hpairs, ?_⟩
    intro cookie hmatch
    obtain ⟨record, hset, hstored⟩ := hinv.cookies cookie (mem_matching.1 hmatch).1
    exact ⟨record, hset, sentRightly_of_matching hstored hmatch⟩
  body := by
    intro body hbody
    by_cases hunrewritten : Unrewritten request state.redirects
    · exact ⟨(hinv.kept hunrewritten).2.symm.trans hbody, hunrewritten⟩
    · cases (hinv.dropped hunrewritten).2.symm.trans hbody

/-- one round of the loop -/
theorem followRedirects_eq (replies : ℕ → HopReply ε) (state : ChainState Url) :
    followRedirects ops config request replies state =
      if (replies state.redirectCount).cancelledBefore then ([], .failed .cancelled)
      else
        match state.answered ops config (replies state.redirectCount) with
        | .failed error =>
          ([⟨state.redirects, state.hop ops request (replies state.redirectCount).sendTime⟩], .failed error)
        | .arrived status headers =>
          ([⟨state.redirects, state.hop ops request (replies state.redirectCount).sendTime⟩],
            .arrived status headers state)
        | .redirected next =>
          (⟨state.redirects, state.hop ops request (replies state.redirectCount).sendTime⟩ ::
            (followRedirects ops config request replies next).1, (followRedirects ops config request replies next).2) := by
  rw [followRedirects]
  split
  · rfl
  · split <;> rename_i heq <;> simp only [heq]

/-- what holds of a state if it holds of the states that a redirect leads to -/
theorem ChainState.induction (ops : UrlOps Url) (config : FetchConfig) (ε : Type) {motive : ChainState Url → Prop}
    (hstep : ∀ state, (∀ (reply : HopReply ε) next, state.answered ops config reply = .redirected next → motive next) →
      motive state) (state : ChainState Url) : motive state := by
  induction hleft : config.redirectLimit - state.redirectCount using Nat.strong_induction_on generalizing state with
  | _ left ih =>
    refine hstep state fun reply next hanswered => ?_
    obtain ⟨hless, status, headers, url, -, rfl⟩ := ChainState.answered_redirected ops config hanswered
    refine ih _ ?_ _ rfl
    rw [← hleft]
    exact Nat.sub_lt_sub_left hless (Nat.lt_succ_self _)

/-- a property of the states of the loop holds of every hop that it sends -/
theorem forall_mem_followRedirects {P : SentHop Url → Prop} {Inv : ChainState Url → Prop} {replies : ℕ → HopReply ε}
    (hsent : ∀ state, Inv state → ∀ now, P ⟨state.redirects, state.hop ops request now⟩)
    (hnext : ∀ state reply next, Inv state → ChainState.answered (ε := ε) ops config state reply = .redirected next → Inv next)
    (state : ChainState Url) : Inv state → ∀ sent ∈ (followRedirects ops config request replies state).1, P sent := by
  induction state using ChainState.induction ops config ε with
  | hstep state ih =>
    intro hinv sent hmem
    rw [followRedirects_eq] at hmem
    split at hmem
    · cases hmem
    · split at hmem
      · obtain rfl := List.mem_singleton.1 hmem
        exact hsent state hinv _
      · obtain rfl := List.mem_singleton.1 hmem
        exact hsent state hinv _
      · rename_i next hanswered
        rcases List.mem_cons.1 hmem with rfl | hmem
        · exact hsent state hinv _
        · exact ih _ next hanswered (hnext state _ next hinv hanswered) sent hmem

/-- the hops that are left are at most the redirects that are left, and one -/
theorem length_followRedirects {replies : ℕ → HopReply ε} (state : ChainState Url) :
    (followRedirects ops config request replies state).1.length ≤ config.redirectLimit - state.redirectCount + 1 := by
  induction state using ChainState.induction ops config ε with
  | hstep state ih =>
    rw [followRedirects_eq]
    split
    · exact Nat.zero_le _
    · split
      · exact Nat.le_add_left 1 _
      · exact Nat.le_add_left 1 _
      · rename_i next hanswered
        have hrest := ih _ next hanswered
        obtain ⟨hless, status, headers, url, -, rfl⟩ := ChainState.answered_redirected ops config hanswered
        simp only [ChainState.redirectedTo, List.length_cons] at hrest ⊢
        omega

/-- two hops of the same chain, which differ on the origin of the request at most -/
def SameBut (ops : UrlOps Url) (origin : Url) (left right : SentHop Url) : Prop :=
  left.redirects = right.redirects ∧ left.hop.url = right.hop.url ∧ left.hop.method = right.hop.method ∧
    left.hop.body = right.hop.body ∧ (sameOrigin ops left.hop.url origin = false → left = right)

/-- the caller's `Cookie` and validators change nothing but hops to the origin of the request -/
theorem followRedirects_withCredentials {replies : ℕ → HopReply ε} (cookie : Option String)
    (validators : Option CacheValidators) (state : ChainState Url) :
    List.Forall₂ (SameBut ops request.url) (followRedirects ops config request replies state).1
        (followRedirects ops config (request.withCredentials cookie validators) replies state).1 ∧
      (followRedirects ops config request replies state).2 =
        (followRedirects ops config (request.withCredentials cookie validators) replies state).2 := by
  induction state using ChainState.induction ops config ε with
  | hstep state ih =>
    have hsame : ∀ now, SameBut ops request.url ⟨state.redirects, state.hop ops request now⟩
        ⟨state.redirects, state.hop ops (request.withCredentials cookie validators) now⟩ := by
      intro now
      refine ⟨rfl, rfl, rfl, rfl, fun hcross => ?_⟩
      rw [hop_withCredentials hcross]
    rw [followRedirects_eq, followRedirects_eq]
    split
    · exact ⟨List.Forall₂.nil, rfl⟩
    · split
      · exact ⟨List.Forall₂.cons (hsame _) List.Forall₂.nil, rfl⟩
      · exact ⟨List.Forall₂.cons (hsame _) List.Forall₂.nil, rfl⟩
      · rename_i next hanswered
        obtain ⟨hrest, hend⟩ := ih _ next hanswered
        exact ⟨List.Forall₂.cons (hsame _) hrest, hend⟩

/-- a fetch sends nothing, or what the loop sends; the caller's `Cookie` and validators do not decide which -/
theorem fetchTransfer_cases (ops : UrlOps Url) (config : FetchConfig) (request : FetchRequest Url)
    (replies : ℕ → HopReply ε) (cancelled : Bool) :
    (∀ cookie validators,
        (fetchTransfer ops config (request.withCredentials cookie validators) replies cancelled).1 = []) ∨
      (validateRequest (ε := ε) request = .ok () ∧ ∀ cookie validators,
        (fetchTransfer ops config (request.withCredentials cookie validators) replies cancelled).1 =
          (followRedirects ops config (request.withCredentials cookie validators) replies (.start request)).1) := by
  have hvalidate : ∀ cookie validators, validateRequest (ε := ε) (request.withCredentials cookie validators) =
      validateRequest (ε := ε) request := fun _ _ => rfl
  have hurl : ∀ cookie validators, (request.withCredentials cookie validators).url = request.url := fun _ _ => rfl
  simp only [fetchTransfer, hvalidate, hurl]
  cases hvalid : validateRequest (ε := ε) request with
  | error error => exact .inl fun _ _ => rfl
  | ok =>
    by_cases hdata : ops.scheme request.url = "data".toList
    · simp only [if_pos hdata]
      exact .inl fun _ _ => trivial
    simp only [if_neg hdata]
    cases validateScheme (ε := ε) ops request.url with
    | error error => exact .inl fun _ _ => rfl
    | ok =>
      cases cancelled with
      | true => exact .inl fun _ _ => rfl
      | false => exact .inr ⟨trivial, fun _ _ => rfl⟩

/-- **Redirects keep the caller's credentials.** For any request and any replies: at most `redirectLimit` redirects are
followed, every hop is in scope, and with any other `Cookie` and validators of the caller the same hops go out, but for those
to the origin of the request -/
theorem fetchTransfer_scope (ops : UrlOps Url) (config : FetchConfig) (request : FetchRequest Url)
    (replies : ℕ → HopReply ε) (cancelled : Bool) :
    (fetchTransfer ops config request replies cancelled).1.length ≤ config.redirectLimit + 1 ∧
      (∀ sent ∈ (fetchTransfer ops config request replies cancelled).1, sent.InScope ops config request) ∧
      ∀ cookie validators, List.Forall₂ (SameBut ops request.url) (fetchTransfer ops config request replies cancelled).1
        (fetchTransfer ops config (request.withCredentials cookie validators) replies cancelled).1 := by
  have hself : request.withCredentials request.cookie request.cacheValidators = request := rfl
  rcases fetchTransfer_cases ops config request replies cancelled with hnone | ⟨hvalid, hsent⟩
  · have hempty := hself ▸ hnone request.cookie request.cacheValidators
    rw [hempty]
    refine ⟨Nat.zero_le _, fun sent hmem => absurd hmem List.not_mem_nil, fun cookie validators => ?_⟩
    rw [hnone]
    exact List.Forall₂.nil
  · have hloop := hself ▸ hsent request.cookie request.cacheValidators
    rw [hloop]
    refine ⟨length_followRedirects (.start request), ?_, fun cookie validators => ?_⟩
    · refine forall_mem_followRedirects (fun state (hinv : ChainState.Inv ops config request state) now => ?_) ?_ _ .start
      · exact inScope_of_inv hinv (validateRequest_ok hvalid) now
      · exact fun state reply next hinv hanswered => hinv.redirected hanswered
    · rw [hsent]
      exact (followRedirects_withCredentials cookie validators _).1

end Chain

/-! ## An `Authorization` header -/

/-- the fields and the parser of example URLs: a location is the host of an `http` URL -/
def siteOps : UrlOps Site := { siteFields with join := fun _ location => .ok ⟨"http".toList, location, "/".toList⟩ }

/-- a reply that redirects to a host at first, and then none -/
def redirectOnce (host : String) (n : ℕ) : HopReply Unit where
  cancelledBefore := false
  cancelledAfter := false
  sendTime := 0
  absorbTimes := fun _ => 0
  elapsed := 0
  response := if n = 0 then .ok (302, [⟨"location", utf8 host⟩]) else .error ()

/-- the caller's `Authorization` goes where a redirect leads -/
theorem authorization_crosses_origins :
    ¬ ∀ (config : FetchConfig) (request : FetchRequest Site) (replies : ℕ → HopReply Unit),
      ∀ sent ∈ (fetchTransfer siteOps config request replies false).1,
        sameOrigin siteOps sent.hop.url request.url = false →
          ∀ header ∈ request.headers, eqIgnoreAsciiCase header.1 "authorization" = true → header ∉ sent.hop.headers := by
  intro hclaim
  have hsent : ∃ sent ∈ (fetchTransfer siteOps ⟨5, 1⟩ { url := siteOf "a.test", headers := [("Authorization", "secret")] }
      (redirectOnce "b.test") false).1, sameOrigin siteOps sent.hop.url (siteOf "a.test") = false ∧
        ("Authorization", "secret") ∈ sent.hop.headers := by decide +kernel
  obtain ⟨sent, hmem, hcross, hheader⟩ := hsent
  exact hclaim _ _ _ sent hmem hcross _ List.mem_cons_self (by decide) hheader

end Render.Net
