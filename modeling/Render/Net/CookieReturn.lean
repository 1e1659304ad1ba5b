/-
A cookie comes back to the URL that set it.

The default path of a URL, the domain rule of a `Set-Cookie` field and the matching of a request are written apart in
`cookie.rs`. They agree: the default path is the request path or a prefix of it that ends at a slash (`pathWithin_defaultPath`),
and the domain that is accepted covers the host. So a field without a `Path` that is accepted as a live cookie is in the header
of the next request for the same URL (`set_then_sent`). Of the parser of URLs it is used that a URL with a host has a path that
is empty or begins with a slash (`RootedPaths`).
-/
import Mathlib.Tactic
import Render.Net.CookieRuns

namespace Render.Net

open Render.Core
open Chars

variable {Url : Type} {fields : UrlFields Url} {parsed parsed' : ParsedCookie} {host text : Chars} {now : ℤ}

/-! ## Paths -/

/-- the path of a URL with a host is empty, or begins with a slash -/
def RootedPaths (fields : UrlFields Url) : Prop :=
  ∀ url, (fields.hostStr url).isSome = true → fields.path url = [] ∨ (fields.path url).head? = some '/'

/-- a path up to its last slash, and the rest -/
theorem split_lastSlash (path : Chars) (hslash : '/' ∈ path) :
    ∃ rest, path = (path.reverse.dropWhile (· ≠ '/')).tail.reverse ++ '/' :: rest := by
  have hsplit := List.takeWhile_append_dropWhile (p := (· ≠ '/')) (l := path.reverse)
  cases hdrop : path.reverse.dropWhile (· ≠ '/') with
  | nil =>
    rw [hdrop, List.append_nil] at hsplit
    have hmem : '/' ∈ path.reverse.takeWhile (· ≠ '/') := by
      rw [hsplit]
      exact List.mem_reverse.2 hslash
    have hne := List.all_takeWhile (p := (· ≠ '/')) (l := path.reverse)
    rw [List.all_eq_true] at hne
    specialize hne _ hmem
    simp at hne
  | cons c rest =>
    have hhead : c = '/' := by
      have hstop := List.head?_dropWhile_not (· ≠ '/') path.reverse
      rw [hdrop] at hstop
      simpa using hstop
    refine ⟨(path.reverse.takeWhile (· ≠ '/')).reverse, ?_⟩
    rw [hdrop, hhead] at hsplit
    calc path = path.reverse.reverse := (List.reverse_reverse path).symm
      _ = (path.reverse.takeWhile (· ≠ '/') ++ '/' :: rest).reverse := by rw [hsplit]
      _ = _ := by simp

/-- **A path matches its default path.** -/
theorem pathWithin_defaultPath {path : Chars} (h : path = [] ∨ path.head? = some '/') :
    PathWithin (normalizedRequestPath path) (defaultPath path) := by
  rcases h with rfl | hslash
  · exact Or.inl rfl
  · obtain ⟨below, rfl⟩ := List.head?_eq_some_iff.1 hslash
    have hroot : PathWithin ('/' :: below) ['/'] := Or.inr ⟨below, rfl, Or.inl rfl⟩
    unfold normalizedRequestPath defaultPath
    simp only [List.isEmpty_cons, Bool.false_eq_true, if_false]
    split_ifs with hone hnone
    · exact hroot
    · exact hroot
    · obtain ⟨rest, hsplit⟩ := split_lastSlash ('/' :: below) List.mem_cons_self
      exact Or.inr ⟨'/' :: rest, hsplit, Or.inr rfl⟩

/-! ## What the attributes leave -/

/-- the name of an attribute -/
def attributeKey (text : Chars) : Chars := ((text.trim.splitOnce '=').getD (text.trim, [])).1

def IsAttribute (name : String) (text : Chars) : Prop := (attributeKey text).eqIgnoreAsciiCase name.toList = true

instance {name : String} : Decidable (IsAttribute name text) := inferInstanceAs (Decidable (_ = true))

/-- a field has an attribute -/
def HasAttribute (name : String) (field : Chars) : Prop := ∃ text ∈ (field.splitOn ';').tail, IsAttribute name text

instance {name : String} {field : Chars} : Decidable (HasAttribute name field) :=
  inferInstanceAs (Decidable (∃ text ∈ (field.splitOn ';').tail, IsAttribute name text))

/-- what attributes other than `Path` and, without a `Secure`, all attributes leave of a cookie -/
structure Kept (cookie cookie' : Cookie) (secure : Prop) : Prop where
  name : cookie'.name = cookie.name
  value : cookie'.value = cookie.value
  path : cookie'.path = cookie.path
  secure : cookie'.secure = true → cookie.secure = true ∨ secure

theorem applyAttribute_kept (hpath : ¬ IsAttribute "path" text) (h : parsed.applyAttribute host text = .ok parsed') :
    Kept parsed.cookie parsed'.cookie (IsAttribute "secure" text) := by
  have hsame : Kept parsed.cookie parsed.cookie (IsAttribute "secure" text) := ⟨rfl, rfl, rfl, Or.inl⟩
  unfold IsAttribute attributeKey at hpath hsame ⊢
  simp only [ParsedCookie.applyAttribute, ParsedCookie.applyDomain] at h
  split_ifs at h with hdomain hnone hbroad hpath' hsecure
  · cases h
    exact ⟨rfl, rfl, rfl, Or.inl⟩
  · exact absurd (Bool.and_eq_true_iff.1 hpath').1 hpath
  · cases h
    exact ⟨rfl, rfl, rfl, fun _ => Or.inr hsecure⟩
  all_goals
    cases h
    exact ⟨rfl, rfl, rfl, Or.inl⟩

theorem applyAttributes_kept {texts : List Chars} (hpath : ∀ text ∈ texts, ¬ IsAttribute "path" text)
    (h : texts.foldlM (fun parsed text => ParsedCookie.applyAttribute parsed host text) parsed = .ok parsed') :
    Kept parsed.cookie parsed'.cookie (∃ text ∈ texts, IsAttribute "secure" text) := by
  induction texts generalizing parsed with
  | nil =>
    cases h
    exact ⟨rfl, rfl, rfl, Or.inl⟩
  | cons text rest ih =>
    rw [List.foldlM_cons] at h
    cases hfirst : parsed.applyAttribute host text with
    | error issue =>
      rw [hfirst] at h
      cases h
    | ok next =>
      rw [hfirst] at h
      obtain ⟨hname, hvalue, hsame, hsecure⟩ := applyAttribute_kept (hpath text List.mem_cons_self) hfirst
      obtain ⟨hname', hvalue', hsame', hsecure'⟩ := ih (fun t ht => hpath t (List.mem_cons_of_mem text ht)) h
      refine ⟨hname'.trans hname, hvalue'.trans hvalue, hsame'.trans hsame, fun h' => ?_⟩
      rcases hsecure' h' with hnext | ⟨t, ht, hkey⟩
      · exact (hsecure hnext).imp_right fun hkey => ⟨text, List.mem_cons_self, hkey⟩
      · exact Or.inr ⟨t, List.mem_cons_of_mem text ht, hkey⟩

theorem finish_kept (h : parsed.finish now = .ok parsed') : Kept parsed.cookie parsed'.cookie False := by
  simp only [ParsedCookie.finish] at h
  split at h
  · cases h
  · split at h
    · split_ifs at h <;> (cases h; exact ⟨rfl, rfl, rfl, Or.inl⟩)
    · cases h
      exact ⟨rfl, rfl, rfl, Or.inl⟩

/-- **What a field without a `Path` makes.** -/
theorem parse_kept {origin : Url} {field name value : Chars} {byteLimit : ℕ}
    (hpair : Chars.splitOnce '=' ((field.splitOn ';').headD []) = some (name, value)) (hpath : ¬ HasAttribute "path" field)
    (h : ParsedCookie.parse fields origin field byteLimit now = .ok parsed) :
    parsed.cookie.name = name.trim ∧ parsed.cookie.value = value.trim ∧
      parsed.cookie.path = defaultPath (fields.path origin) ∧
      (parsed.cookie.secure = true → HasAttribute "secure" field) := by
  rw [ParsedCookie.parse] at h
  cases hhost : (fields.hostStr origin).map Chars.toAsciiLowercase with
  | none =>
    rw [hhost] at h
    cases h
  | some host =>
    simp only [hhost, hpair] at h
    split_ifs at h with hsize hname
    cases hread : (field.splitOn ';').tail.foldlM (fun parsed text => ParsedCookie.applyAttribute parsed host text)
        (ParsedCookie.plain fields origin host (trim name) (trim value)) with
    | error issue =>
      rw [hread] at h
      cases h
    | ok read =>
      rw [hread] at h
      obtain ⟨hname', hvalue', hpath', hsecure'⟩ := finish_kept h
      obtain ⟨hname'', hvalue'', hpath'', hsecure''⟩ :=
        applyAttributes_kept (fun text htext hkey => hpath ⟨text, htext, hkey⟩) hread
      refine ⟨hname'.trans hname'', hvalue'.trans hvalue'', hpath'.trans hpath'', fun hsecure => ?_⟩
      rcases hsecure' hsecure with hread' | hfalse
      · rcases hsecure'' hread' with hplain | hkey
        · cases hplain
        · exact hkey
      · exact hfalse.elim

/-! ## The next request -/

/-- a cookie goes to the host that set it -/
theorem sentTo_setter {cookie : Cookie} {domain : Option Chars} (hscope : ScopedTo cookie host domain) :
    cookie.sentTo host = true := by
  cases domain with
  | none => rw [Cookie.sentTo, if_pos hscope.1, hscope.2, decide_eq_true_eq]
  | some domain =>
    rw [Cookie.sentTo, if_neg (by rw [hscope.1]; exact Bool.false_ne_true), hscope.2.1]
    exact domainMatches_iff.2 hscope.2.2

/-- **A cookie comes back to its URL.** For every jar with room, every URL with a host and every field without a `Path` that
is accepted as a live cookie, over `https` if the field has a `Secure`: the path of the URL matches its default path, the
domain of the cookie covers the host, and the header for the same URL, at any time before the expiry, has the pair. -/
theorem set_then_sent (hrooted : RootedPaths fields) {jar : CookieJar} {origin : Url} {field name value : Chars}
    (hroom : jar.cookies.size < jar.limits.maxCookies)
    (hpair : Chars.splitOnce '=' ((field.splitOn ';').headD []) = some (name, value)) (hpath : ¬ HasAttribute "path" field)
    (hsecure : HasAttribute "secure" field → fields.scheme origin = "https".toList)
    (hparse : ParsedCookie.parse fields origin field jar.limits.maxCookieBytes now = .ok parsed)
    (hlive : parsed.remove = false) {later : ℤ} (hlater : ∀ expiry, parsed.cookie.expiresAt = some expiry → later < expiry) :
    ∃ host pairs, fields.cookieHost origin = some host ∧
      (jar.setCookieAt fields origin field now).1 = .ok () ∧
      PathWithin (normalizedRequestPath (fields.path origin)) (defaultPath (fields.path origin)) ∧
      HostWithin host parsed.cookie.domain ∧
      (jar.setCookieAt fields origin field now).2.cookieHeaderAt fields origin later =
        some (joinWith "; ".toList pairs) ∧ name.trim ++ '=' :: value.trim ∈ pairs := by
  obtain ⟨host, hhost, hscope⟩ := parse_scoped hparse
  obtain ⟨hname, hvalue, hdefault, hkey⟩ := parse_kept hpair hpath hparse
  have hisSome : (fields.hostStr origin).isSome = true := by
    rw [← Option.isSome_map (f := Chars.toAsciiLowercase)]
    exact Option.isSome_iff_exists.2 ⟨host, hhost⟩
  have hpathWithin := pathWithin_defaultPath (hrooted origin hisSome)
  have hwithin : HostWithin host parsed.cookie.domain := by
    cases hattribute : domainAttribute field with
    | none =>
      rw [hattribute] at hscope
      exact Or.inl hscope.2.symm
    | some domain =>
      rw [hattribute] at hscope
      rw [hscope.2.1]
      exact hscope.2.2
  have hset : jar.setCookieAt fields origin field now =
      (.ok (), { jar with cookies := jar.cookies.insert parsed.cookie.key parsed.cookie }) := by
    simp only [CookieJar.setCookieAt, hparse, hlive, Bool.false_eq_true, if_false]
    rw [if_neg]
    simp [Nat.not_le.2 hroom]
  have hmem : parsed.cookie ∈ (CookieJar.mk (jar.cookies.insert parsed.cookie.key parsed.cookie) jar.limits).matching
      fields origin host later := by
    refine mem_matching.2 ⟨List.mem_map.2 ⟨_, SortedMap.mem_insert.2 (Or.inl rfl), rfl⟩, ?_,
      fun hsecure' => hsecure (hkey hsecure'), sentTo_setter hscope, ?_⟩
    · cases hexpiry : parsed.cookie.expiresAt with
      | none => rw [Cookie.isLive, hexpiry]; rfl
      | some expiry =>
        rw [Cookie.isLive, hexpiry]
        simpa using hlater expiry hexpiry
    · rw [hdefault]
      exact hpathWithin
  refine ⟨host, ((CookieJar.mk (jar.cookies.insert parsed.cookie.key parsed.cookie) jar.limits).matching fields origin host
    later).map Cookie.pair, hhost, by rw [hset], hpathWithin, hwithin, ?_, ?_⟩
  · rw [hset, CookieJar.cookieHeaderAt, ← UrlFields.cookieHost, hhost, Option.bind_eq_bind, Option.bind_some]
    simp only [List.isEmpty_iff]
    exact if_neg (List.ne_nil_of_mem hmem)
  · refine List.mem_map.2 ⟨parsed.cookie, hmem, ?_⟩
    rw [Cookie.pair, hname, hvalue]

/-- example URLs, with their paths below the root -/
def rootedSites : UrlFields Site := ⟨Site.scheme, fun site => some site.host, fun _ => none, fun site => '/' :: site.path⟩

/-- an example URL with a path of two segments -/
def nestedSite : Site := ⟨"https".toList, "News.example.org".toList, "world/today".toList⟩

theorem rootedSites_rooted : RootedPaths rootedSites := fun _ _ => Or.inr rfl

/-- a field with a domain and a lifetime -/
theorem set_then_sent_domain : ∃ host pairs, rootedSites.cookieHost nestedSite = some host ∧
    ((CookieJar.withLimits {}).setCookieAt rootedSites nestedSite
      "id=7; Domain=Example.org; Max-Age=9; Secure".toList 100).1 = .ok () ∧
    ((CookieJar.withLimits {}).setCookieAt rootedSites nestedSite
      "id=7; Domain=Example.org; Max-Age=9; Secure".toList 100).2.cookieHeaderAt rootedSites nestedSite 108 =
        some (joinWith "; ".toList pairs) ∧ "id=7".toList ∈ pairs := by
  obtain ⟨parsed, hparse, hlive, hexpires⟩ : ∃ parsed, ParsedCookie.parse rootedSites nestedSite
      "id=7; Domain=Example.org; Max-Age=9; Secure".toList 4096 100 = .ok parsed ∧ parsed.remove = false ∧
        parsed.cookie.expiresAt = some 109 := ⟨_, rfl, rfl, rfl⟩
  have hlater : ∀ expiry, parsed.cookie.expiresAt = some expiry → (108 : ℤ) < expiry := by
    intro expiry hexpiry
    rw [hexpires] at hexpiry
    obtain rfl := Option.some.inj hexpiry
    decide
  have hroom : (CookieJar.withLimits {}).cookies.size < (CookieJar.withLimits {}).limits.maxCookies := by decide
  have hpair : Chars.splitOnce '=' (("id=7; Domain=Example.org; Max-Age=9; Secure".toList.splitOn ';').headD []) =
      some ("id".toList, "7".toList) := by decide +kernel
  obtain ⟨host, pairs, hhost, haccepted, _, _, hheader, hmem⟩ :=
    set_then_sent rootedSites_rooted hroom hpair (by decide +kernel) (fun _ => rfl) hparse hlive hlater
  exact ⟨host, pairs, hhost, haccepted, hheader, hmem⟩

end Render.Net
