/-
What an accepted `Set-Cookie` field and a match at a request say: the rules of `cookie.rs` read as relations of hosts, domains
and paths.

The last `Domain` attribute of a field decides the scope of its cookie. With none, the cookie belongs to the host alone.
-/
import Render.Net.Cookie

namespace Render.Net

open Render.Core
open Chars

/-! ## Hosts and paths -/

/-- a host that is the domain, or lies below it -/
def HostWithin (host domain : Chars) : Prop := host = domain ∨ ∃ before, host = before ++ '.' :: domain

theorem domainMatches_iff {host domain : Chars} : domainMatches host domain = true ↔ HostWithin host domain := by
  rw [domainMatches, Bool.or_eq_true, decide_eq_true_eq, HostWithin]
  refine or_congr_right ?_
  rw [Option.any_eq_true, stripSuffix]
  constructor
  · rintro ⟨before, hstrip, hdot⟩
    split_ifs at hstrip with hsuffix
    obtain ⟨pre, rfl⟩ := List.isSuffixOf_iff_suffix.1 hsuffix
    rw [List.length_append, Nat.add_sub_cancel, List.take_left, Option.some.injEq] at hstrip
    subst hstrip
    obtain ⟨front, rfl⟩ := List.getLast?_eq_some_iff.1 (of_decide_eq_true hdot)
    exact ⟨front, by rw [List.append_assoc, List.singleton_append]⟩
  · rintro ⟨front, rfl⟩
    have happend : front ++ '.' :: domain = (front ++ ['.']) ++ domain := by
      rw [List.append_assoc, List.singleton_append]
    rw [happend]
    refine ⟨front ++ ['.'], ?_, ?_⟩
    · rw [if_pos (List.isSuffixOf_iff_suffix.2 (List.suffix_append _ _)), List.length_append, Nat.add_sub_cancel,
        List.take_left]
    · rw [List.getLast?_concat, decide_eq_true_eq]

/-- a path that is the request path, or a prefix of it that ends at a slash -/
def PathWithin (request path : Chars) : Prop :=
  request = path ∨ ∃ rest, request = path ++ rest ∧ (path.getLast? = some '/' ∨ rest.head? = some '/')

theorem pathMatches_iff {request path : Chars} : pathMatches request path = true ↔ PathWithin request path := by
  rw [pathMatches, Bool.or_eq_true, decide_eq_true_eq, PathWithin]
  refine or_congr_right ?_
  rw [Option.any_eq_true, stripPrefix]
  simp only [Bool.or_eq_true, decide_eq_true_eq]
  constructor
  · rintro ⟨rest, hstrip, hslash⟩
    split_ifs at hstrip with hpre
    obtain ⟨suf, rfl⟩ := List.isPrefixOf_iff_prefix.1 hpre
    rw [List.drop_left, Option.some.injEq] at hstrip
    subst hstrip
    exact ⟨suf, rfl, hslash⟩
  · rintro ⟨rest, rfl, hslash⟩
    refine ⟨rest, ?_, hslash⟩
    rw [if_pos (List.isPrefixOf_iff_prefix.2 (List.prefix_append _ _)), List.drop_left]

/-! ## The scope of a cookie -/

/-- what a `Domain` attribute names; `none` for any other attribute -/
def domainOf (text : Chars) : Option Chars :=
  let text := text.trim
  let (key, value) := (text.splitOnce '=').getD (text, [])
  if key.eqIgnoreAsciiCase "domain".toList then some (Chars.toAsciiLowercase (value.trim.dropWhile (· = '.'))) else none

/-- the last domain that is named, or the one from before -/
def lastDomain (texts : List Chars) (before : Option Chars) : Option Chars :=
  texts.foldl (fun seen text => (domainOf text).or seen) before

/-- what the last `Domain` attribute of a field names -/
def domainAttribute (field : Chars) : Option Chars := lastDomain (field.splitOn ';').tail none

/-- the scope of a cookie that a host sets: itself, or a domain around it -/
def ScopedTo (cookie : Cookie) (host : Chars) : Option Chars → Prop
  | none => cookie.hostOnly = true ∧ cookie.domain = host
  | some domain => cookie.hostOnly = false ∧ cookie.domain = domain ∧ HostWithin host domain

theorem applyDomain_ok {parsed parsed' : ParsedCookie} {host value : Chars}
    (h : parsed.applyDomain host value = .ok parsed') :
    ScopedTo parsed'.cookie host (some (Chars.toAsciiLowercase (value.trim.dropWhile (· = '.')))) := by
  simp only [ParsedCookie.applyDomain] at h
  split_ifs at h with hmatch hbroad
  cases h
  simp only [Bool.or_eq_true, Bool.not_eq_true', not_or, Bool.not_eq_false] at hmatch
  exact ⟨rfl, rfl, domainMatches_iff.1 hmatch.2⟩

/-- an attribute that is no `Domain` leaves the scope -/
theorem applyAttribute_ok {parsed parsed' : ParsedCookie} {host text : Chars} {seen : Option Chars}
    (hscope : ScopedTo parsed.cookie host seen) (h : parsed.applyAttribute host text = .ok parsed') :
    ScopedTo parsed'.cookie host ((domainOf text).or seen) := by
  simp only [ParsedCookie.applyAttribute] at h
  simp only [domainOf]
  split_ifs at h ⊢ with hdomain
  · exact applyDomain_ok h
  all_goals
    cases h
    cases seen <;> exact hscope

theorem applyAttributes_ok {host : Chars} (texts : List Chars) {parsed parsed' : ParsedCookie} {seen : Option Chars}
    (hscope : ScopedTo parsed.cookie host seen)
    (h : texts.foldlM (fun parsed text => ParsedCookie.applyAttribute parsed host text) parsed = .ok parsed') :
    ScopedTo parsed'.cookie host (lastDomain texts seen) := by
  induction texts generalizing parsed seen with
  | nil =>
    cases h
    exact hscope
  | cons text rest ih =>
    rw [List.foldlM_cons] at h
    cases hfirst : parsed.applyAttribute host text with
    | error issue =>
      rw [hfirst] at h
      cases h
    | ok next =>
      rw [hfirst] at h
      exact ih (applyAttribute_ok hscope hfirst) h

theorem finish_ok {parsed parsed' : ParsedCookie} {now : ℤ} (h : parsed.finish now = .ok parsed') :
    parsed'.cookie.hostOnly = parsed.cookie.hostOnly ∧ parsed'.cookie.domain = parsed.cookie.domain := by
  simp only [ParsedCookie.finish] at h
  split at h
  · cases h
  · split at h
    · split_ifs at h <;> (cases h; exact ⟨rfl, rfl⟩)
    · cases h
      exact ⟨rfl, rfl⟩

variable {Url : Type} {fields : UrlFields Url}

/-- the host of a URL, as cookies compare it -/
def UrlFields.cookieHost (fields : UrlFields Url) (url : Url) : Option Chars := (fields.hostStr url).map Chars.toAsciiLowercase

/-- **The scope of an accepted cookie.** It is what the last `Domain` attribute names, which covers the host that sets it -/
theorem parse_scoped {origin : Url} {field : Chars} {byteLimit : ℕ} {now : ℤ} {parsed : ParsedCookie}
    (h : ParsedCookie.parse fields origin field byteLimit now = .ok parsed) :
    ∃ host, fields.cookieHost origin = some host ∧ ScopedTo parsed.cookie host (domainAttribute field) := by
  rw [ParsedCookie.parse] at h
  cases hhost : (fields.hostStr origin).map Chars.toAsciiLowercase with
  | none =>
    rw [hhost] at h
    cases h
  | some host =>
    simp only [hhost] at h
    split_ifs at h with hsize
    split at h
    · cases h
    · rename_i name value hpair
      split_ifs at h with hname
      cases hread : (field.splitOn ';').tail.foldlM (fun parsed text => ParsedCookie.applyAttribute parsed host text)
          (ParsedCookie.plain fields origin host (trim name) (trim value)) with
      | error issue =>
        rw [hread] at h
        cases h
      | ok read =>
        rw [hread] at h
        obtain ⟨honly, hdomain⟩ := finish_ok h
        have hstart : ScopedTo (ParsedCookie.plain fields origin host (trim name) (trim value)).cookie host none :=
          ⟨rfl, rfl⟩
        have hscope : ScopedTo read.cookie host (lastDomain (field.splitOn ';').tail none) :=
          applyAttributes_ok _ hstart hread
        refine ⟨host, hhost, ?_⟩
        rw [domainAttribute]
        cases hlast : lastDomain (field.splitOn ';').tail none with
        | none =>
          rw [hlast] at hscope
          exact ⟨honly.trans hscope.1, hdomain.trans hscope.2⟩
        | some domain =>
          rw [hlast] at hscope
          exact ⟨honly.trans hscope.1, hdomain.trans hscope.2.1, hscope.2.2⟩

/-! ## What is sent -/

theorem mem_matching {jar : CookieJar} {url : Url} {host : Chars} {now : ℤ} {cookie : Cookie} :
    cookie ∈ jar.matching fields url host now ↔
      cookie ∈ jar.cookies.values ∧ cookie.isLive now = true ∧
        (cookie.secure = true → fields.scheme url = "https".toList) ∧ cookie.sentTo host = true ∧
        PathWithin (normalizedRequestPath (fields.path url)) cookie.path := by
  rw [CookieJar.matching, List.mem_mergeSort, List.mem_filter, ← pathMatches_iff]
  refine and_congr_right fun _ => ?_
  cases cookie.secure <;> simp [and_assoc]

/-- a scoped cookie goes to the host that set it, or to hosts within its domain -/
theorem sentTo_scoped {cookie : Cookie} {host setter : Chars} {domain : Option Chars}
    (hscope : ScopedTo cookie setter domain) (hsent : cookie.sentTo host = true) :
    (domain = none → host = setter) ∧
      ∀ name, domain = some name → HostWithin host name ∧ HostWithin setter name := by
  cases domain with
  | none =>
    obtain ⟨honly, rfl⟩ := hscope
    rw [Cookie.sentTo, if_pos honly, decide_eq_true_eq] at hsent
    refine ⟨fun _ => hsent.symm, ?_⟩
    intro name hname
    cases hname
  | some domain =>
    obtain ⟨honly, rfl, hwithin⟩ := hscope
    rw [Cookie.sentTo, honly, if_neg Bool.false_ne_true] at hsent
    constructor
    · intro hnone
      cases hnone
    · intro name hname
      cases hname
      exact ⟨domainMatches_iff.1 hsent, hwithin⟩

/-- a header spells the cookies that match -/
theorem cookieHeaderAt_eq_some {jar : CookieJar} {url : Url} {now : ℤ} {header : Chars}
    (h : jar.cookieHeaderAt fields url now = some header) :
    ∃ host, fields.cookieHost url = some host ∧
      header = joinWith "; ".toList ((jar.matching fields url host now).map Cookie.pair) := by
  rw [CookieJar.cookieHeaderAt] at h
  obtain ⟨host, hhost, hsome⟩ := Option.bind_eq_some_iff.1 h
  simp only at hsome
  split_ifs at hsome with hempty
  exact ⟨host, hhost, (Option.some.inj hsome).symm⟩

end Render.Net
