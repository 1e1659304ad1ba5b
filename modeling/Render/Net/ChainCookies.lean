/-
The cookies of a redirect chain against the caller's jar (`render-net/src/transport.rs`).

A chain keeps a jar of its own and merges the header of that jar into the caller's header by the names of the pairs. The
caller's jar would look at the key of a cookie, which is its domain, its path and its name, and at the URL of the hop.
`Agree` says when the two come to the same pairs, and `chain_pairs` that they do then.
-/
import Render.Core.Comp
import Render.Net.CookieReturn
import Render.Net.RedirectScope

namespace Render.Net

open Render.Core
open Chars

variable {Url ε : Type}

/-! ## Pairs of a header -/

/-- a cookie whose pair can be read in a header -/
structure Cookie.Plain (cookie : Cookie) : Prop where
  name : validCookieName cookie.name = true
  semicolon : ';' ∉ cookie.value
  trimmed : cookie.value.trim = cookie.value

/-- the pairs of a `Cookie` header -/
def headerPairs : Option Chars → List Chars
  | none => []
  | some header => (header.splitOn ';').map Chars.trim

/-- the header that spells cookies -/
def headerOf (cookies : List Cookie) : Option Chars :=
  if cookies.isEmpty then none else some (joinWith "; ".toList (cookies.map Cookie.pair))

theorem isWhitespace_name {name : Chars} (h : validCookieName name = true) : ∀ c ∈ name, isWhitespace c = false := by
  intro c hmem
  rw [validCookieName, Bool.and_eq_true, List.all_eq_true] at h
  have hbounds := h.2 c hmem
  simp only [Bool.and_eq_true, decide_eq_true_eq] at hbounds
  simp only [isWhitespace, decide_eq_false_iff_not]
  omega

theorem separator_name {name : Chars} (h : validCookieName name = true) {c : Char} (hc : nameSeparators.contains c = true) :
    c ∉ name := by
  intro hmem
  rw [validCookieName, Bool.and_eq_true, List.all_eq_true] at h
  have hbounds := h.2 c hmem
  rw [hc, Bool.not_true, Bool.and_false] at hbounds
  cases hbounds

/-! ### White space -/

theorem dropWhile_eq_self {t : Chars} (h : ∀ c, t.head? = some c → isWhitespace c = false) : t.dropWhile isWhitespace = t := by
  cases t with
  | nil => rfl
  | cons c t => rw [List.dropWhile_cons_of_neg (by simp [h c rfl])]

theorem trim_eq_self {t : Chars} (hhead : ∀ c, t.head? = some c → isWhitespace c = false)
    (hlast : ∀ c, t.getLast? = some c → isWhitespace c = false) : t.trim = t := by
  rw [trim, trimMatches, dropWhile_eq_self hhead, dropWhile_eq_self (by simpa using hlast), List.reverse_reverse]

theorem head?_trim {t : Chars} {c : Char} (h : t.trim.head? = some c) : isWhitespace c = false := by
  have hprefix : t.trim <+: t.dropWhile isWhitespace := by
    have hsuffix := List.reverse_prefix.2 (List.dropWhile_suffix isWhitespace (l := (t.dropWhile isWhitespace).reverse))
    rwa [List.reverse_reverse] at hsuffix
  have hhead := List.head?_dropWhile_not isWhitespace t
  obtain ⟨rest, hrest⟩ := hprefix
  rw [← hrest, List.head?_append, h] at hhead
  simpa using hhead

theorem getLast?_trim {t : Chars} {c : Char} (h : t.trim.getLast? = some c) : isWhitespace c = false := by
  rw [trim, trimMatches, List.getLast?_reverse] at h
  have hhead := List.head?_dropWhile_not isWhitespace (t.dropWhile isWhitespace).reverse
  rw [h] at hhead
  simpa using hhead

theorem trim_trim (t : Chars) : t.trim.trim = t.trim := trim_eq_self (fun _ => head?_trim) fun _ => getLast?_trim

/-! ### The pairs of plain cookies -/

section Plain

variable {cookie : Cookie} {cookies : List Cookie}

theorem Cookie.Plain.pair_semicolon (h : cookie.Plain) : ';' ∉ cookie.pair := by
  have hname := separator_name h.name (c := ';') (by decide)
  simp [Cookie.pair, hname, h.semicolon]

theorem Cookie.Plain.pair_trim (h : cookie.Plain) : cookie.pair.trim = cookie.pair := by
  have hname := isWhitespace_name h.name
  refine trim_eq_self (fun c hc => ?_) fun c hc => ?_
  · cases hfirst : cookie.name with
    | nil =>
      have hempty := h.name
      rw [hfirst] at hempty
      cases hempty
    | cons first rest =>
      rw [Cookie.pair, hfirst] at hc
      obtain rfl : first = c := Option.some.inj hc
      exact hname first (hfirst ▸ List.mem_cons_self)
  · rw [Cookie.pair, List.getLast?_append, List.getLast?_cons] at hc
    cases hlast : cookie.value.getLast? with
    | none =>
      rw [hlast] at hc
      obtain rfl : '=' = c := by simpa using hc
      decide
    | some last =>
      rw [hlast] at hc
      obtain rfl : last = c := by simpa using hc
      exact getLast?_trim (h.trimmed.symm ▸ hlast)

theorem Cookie.Plain.pair_split (h : cookie.Plain) {before : Chars} (hbefore : '=' ∉ before) :
    Chars.splitOnce '=' (before ++ cookie.pair) = some (before ++ cookie.name, cookie.value) := by
  have hname := List.not_mem_append hbefore (separator_name h.name (c := '=') (by decide))
  rw [Cookie.pair, ← List.append_assoc]
  generalize before ++ cookie.name = name at hname
  induction name with
  | nil => rfl
  | cons c name ih =>
    rw [List.mem_cons, not_or] at hname
    rw [List.cons_append, Chars.splitOnce, if_neg (Ne.symm hname.1), ih hname.2]
    rfl

theorem Cookie.Plain.name_trim (h : cookie.Plain) : cookie.name.trim = cookie.name :=
  trim_eq_self (fun c hc => isWhitespace_name h.name c (List.mem_of_mem_head? hc))
    fun c hc => isWhitespace_name h.name c (List.mem_of_getLast? hc)

theorem trim_space (t : Chars) : Chars.trim (' ' :: t) = t.trim := by
  rw [trim, trimMatches, List.dropWhile_cons_of_pos (by decide)]
  rfl

/-- the pieces of a header: behind the first, each begins with a space -/
theorem splitOn_join (h : ∀ other ∈ cookie :: cookies, other.Plain) :
    (joinWith "; ".toList ((cookie :: cookies).map Cookie.pair)).splitOn ';' =
      cookie.pair :: cookies.map fun other => ' ' :: other.pair := by
  induction cookies generalizing cookie with
  | nil =>
    rw [List.map_singleton, joinWith, List.intercalate_singleton]
    exact List.splitOn_eq_singleton (h cookie List.mem_cons_self).pair_semicolon
  | cons next rest ih =>
    obtain ⟨hfirst, hrest⟩ := List.forall_mem_cons.1 h
    have hjoin : joinWith "; ".toList ((cookie :: next :: rest).map Cookie.pair) =
        cookie.pair ++ ';' :: ' ' :: joinWith "; ".toList ((next :: rest).map Cookie.pair) := by
      simp [joinWith, List.intercalate_cons_cons]
    rw [hjoin, List.splitOn_append_cons_self_of_not_mem hfirst.pair_semicolon, List.splitOn_cons_eq_if_modifyHead, ih hrest]
    rfl

theorem headerPairs_headerOf (h : ∀ other ∈ cookies, other.Plain) :
    headerPairs (headerOf cookies) = cookies.map Cookie.pair := by
  cases cookies with
  | nil => rfl
  | cons cookie cookies =>
    obtain ⟨hfirst, hrest⟩ := List.forall_mem_cons.1 h
    rw [headerOf, List.isEmpty_cons, if_neg Bool.false_ne_true, headerPairs, splitOn_join h, List.map_cons, List.map_map,
      hfirst.pair_trim, List.map_cons]
    refine congrArg _ (List.map_congr_left fun other hmem => ?_)
    rw [Function.comp_apply, trim_space, (hrest other hmem).pair_trim]

theorem headerOf_eq_some (hne : cookies ≠ []) : headerOf cookies = some (joinWith "; ".toList (cookies.map Cookie.pair)) := by
  rw [headerOf, List.isEmpty_eq_false_iff.2 hne, if_neg Bool.false_ne_true]

theorem joinWith_append {separator : Chars} {left right : List Chars} (hleft : left ≠ []) (hright : right ≠ []) :
    joinWith separator left ++ separator ++ joinWith separator right = joinWith separator (left ++ right) := by
  induction left with
  | nil => exact absurd rfl hleft
  | cons first left ih =>
    cases left with
    | nil =>
      obtain ⟨next, later, rfl⟩ := List.exists_cons_of_ne_nil hright
      simp [joinWith, List.intercalate_cons_cons]
    | cons second left =>
      have := ih (List.cons_ne_nil _ _)
      simp only [joinWith, List.cons_append, List.intercalate_cons_cons, List.append_assoc] at this ⊢
      rw [this]

/-- the names that a header sets -/
theorem hopNames (h : ∀ other ∈ cookies, other.Plain) (hne : cookies ≠ []) :
    (((joinWith "; ".toList (cookies.map Cookie.pair)).splitOn ';').filterMap fun pair =>
      (Chars.splitOnce '=' pair).map fun parts => parts.1.trim) = cookies.map Cookie.name := by
  obtain ⟨cookie, rest, rfl⟩ := List.exists_cons_of_ne_nil hne
  obtain ⟨hfirst, hrest⟩ := List.forall_mem_cons.1 h
  have hsplit := hfirst.pair_split List.not_mem_nil
  rw [List.nil_append] at hsplit
  rw [splitOn_join h, List.filterMap_cons, hsplit, List.filterMap_map, List.map_cons]
  simp only [Option.map_some, List.nil_append, hfirst.name_trim]
  have hnames : rest.map Cookie.name = rest.filterMap (some ∘ Cookie.name) := by rw [List.filterMap_eq_map]
  rw [hnames]
  refine congrArg _ (List.filterMap_congr fun other hmem => ?_)
  have hother := hrest other hmem
  have hsplit : Chars.splitOnce '=' ([' '] ++ other.pair) = some ([' '] ++ other.name, other.value) :=
    hother.pair_split (by decide)
  rw [List.singleton_append] at hsplit
  rw [Function.comp_apply, hsplit]
  simp only [Option.map_some, List.singleton_append, trim_space, hother.name_trim, Function.comp_apply]

/-- a merged header has the pairs of the caller whose names the chain does not set, and those of the chain -/
theorem combinedCookieHeader_pairs {caller chain : List Cookie} (hcaller : ∀ other ∈ caller, other.Plain)
    (hchain : ∀ other ∈ chain, other.Plain) :
    headerPairs (combinedCookieHeader (headerOf caller) (headerOf chain)) =
      ((caller.filter fun cookie => !(chain.map Cookie.name).contains cookie.name) ++ chain).map Cookie.pair := by
  have hkept : ∀ other ∈ (caller.filter fun cookie => !(chain.map Cookie.name).contains cookie.name) ++ chain, other.Plain :=
    fun other hmem => (List.mem_append.1 hmem).elim (fun h => hcaller other (List.mem_filter.1 h).1) (hchain other)
  rw [← headerPairs_headerOf hkept]
  congr 1
  rcases eq_or_ne chain [] with rfl | hchainne
  · simp [headerOf, combinedCookieHeader]
  rcases eq_or_ne caller [] with rfl | hcallerne
  · rw [List.filter_nil, List.nil_append, headerOf_eq_some hchainne]
    rfl
  have hretained : ((((joinWith "; ".toList (caller.map Cookie.pair)).splitOn ';').map Chars.trim).filter fun pair =>
      !pair.isEmpty).filter (fun pair => !(chain.map Cookie.name).contains (pairName pair)) =
      (caller.filter fun cookie => !(chain.map Cookie.name).contains cookie.name).map Cookie.pair := by
    have hpairs := headerPairs_headerOf hcaller
    rw [headerOf_eq_some hcallerne, headerPairs] at hpairs
    have hfull : (caller.map Cookie.pair).filter (fun pair => !pair.isEmpty) = caller.map Cookie.pair :=
      List.filter_eq_self.2 (by simp [Cookie.pair])
    rw [hpairs, hfull, List.filter_map]
    refine congrArg _ (List.filter_congr fun other hmem => ?_)
    have hother := hcaller other hmem
    have hsplit := hother.pair_split List.not_mem_nil
    rw [List.nil_append] at hsplit
    rw [Function.comp_apply, pairName, hsplit]
    simp only [List.nil_append, hother.name_trim]
  rw [headerOf_eq_some hcallerne, headerOf_eq_some hchainne]
  simp only [combinedCookieHeader, hopNames hchain hchainne, hretained]
  rcases eq_or_ne (caller.filter fun cookie => !(chain.map Cookie.name).contains cookie.name) [] with hnone | hsome
  · rw [hnone, List.nil_append, headerOf_eq_some hchainne]
    rfl
  · rw [headerOf_eq_some (by simp [hchainne]), List.map_append, ← joinWith_append (by simpa using hsome) (by simpa using hchainne)]
    rw [List.isEmpty_eq_false_iff.2 (by simpa using hsome), if_neg Bool.false_ne_true]

end Plain

/-! ## The jars along a chain -/

/-- the caller's jar as it would absorb the fields of a chain, the jar of the chain, and the keys that the chain sets or
deletes -/
structure Jars where
  caller : CookieJar
  chain : CookieJar
  touched : List (List Chars)

section Jars

variable (fields : UrlFields Url) (origin : Url)

/-- a `Set-Cookie` field, taken by both jars -/
def Jars.set (jars : Jars) (field : Chars) (now : ℤ) : Jars where
  caller := (jars.caller.setCookieAt fields origin field now).2
  chain := (jars.chain.setCookieAt fields origin field now).2
  touched := match (jars.chain.setCookieAt fields origin field now).1,
      ParsedCookie.parse fields origin field jars.chain.limits.maxCookieBytes now with
    | .ok (), .ok parsed => parsed.cookie.key :: jars.touched
    | _, _ => jars.touched

/-- the field is stored by both jars, or refused by both -/
def Jars.Alike (jars : Jars) (field : Chars) (now : ℤ) : Prop :=
  (jars.caller.setCookieAt fields origin field now).1 = .ok () ↔ (jars.chain.setCookieAt fields origin field now).1 = .ok ()

/-- a field of a redirect -/
def Jars.absorb (jars : Jars) (header : Header) (now : ℤ) : Jars :=
  if eqIgnoreAsciiCase header.name "set-cookie" then
    match fromUtf8 header.value with
    | some value => jars.set fields origin value.toList now
    | none => jars
  else jars

/-- the fields of a redirect, each at a time of its own -/
def Jars.absorbAll (times : ℕ → ℤ) (jars : Jars) (headers : List (Header × ℕ)) : Jars :=
  headers.foldl (fun jars entry => jars.absorb fields origin entry.1 (times entry.2)) jars

/-- every `Set-Cookie` field among them is stored or refused alike -/
def Jars.AllAlike (times : ℕ → ℤ) : Jars → List (Header × ℕ) → Prop
  | _, [] => True
  | jars, entry :: headers =>
    (∀ value, eqIgnoreAsciiCase entry.1.name "set-cookie" = true → fromUtf8 entry.1.value = some value →
      jars.Alike fields origin value.toList (times entry.2)) ∧
      AllAlike times (jars.absorb fields origin entry.1 (times entry.2)) headers

theorem absorb_jars (jars : Jars) (header : Header) (now : ℤ) :
    (jars.absorb fields origin header now).caller = absorbHeader fields origin jars.caller header now ∧
      (jars.absorb fields origin header now).chain = absorbHeader fields origin jars.chain header now := by
  rw [Jars.absorb, absorbHeader, absorbHeader]
  split_ifs
  · cases fromUtf8 header.value <;> exact ⟨rfl, rfl⟩
  · exact ⟨rfl, rfl⟩

theorem absorbAll_jars (times : ℕ → ℤ) (headers : List (Header × ℕ)) (jars : Jars) :
    (jars.absorbAll fields origin times headers).caller =
        headers.foldl (fun jar entry => absorbHeader fields origin jar entry.1 (times entry.2)) jars.caller ∧
      (jars.absorbAll fields origin times headers).chain =
        headers.foldl (fun jar entry => absorbHeader fields origin jar entry.1 (times entry.2)) jars.chain := by
  induction headers generalizing jars with
  | nil => exact ⟨rfl, rfl⟩
  | cons entry headers ih =>
    obtain ⟨hcaller, hchain⟩ := absorb_jars fields origin jars entry.1 (times entry.2)
    simp only [List.foldl_cons, ← hcaller, ← hchain]
    exact ih _

end Jars

section Invariant

variable {fields : UrlFields Url} {origin : Url} {jars : Jars} {jar : CookieJar}

/-- how the two jars are related to the caller's jar before the chain -/
structure Jars.Inv (jar : CookieJar) (jars : Jars) : Prop where
  lookup : ∀ key, jars.caller.cookies.get key = if key ∈ jars.touched then jars.chain.cookies.get key else jar.cookies.get key
  apart : ∀ key, key ∉ jars.touched → jars.chain.cookies.get key = none
  plain : ∀ cookie ∈ jars.chain.cookies.values, cookie.Plain

theorem Jars.Inv.start (jar : CookieJar) : Jars.Inv jar ⟨jar, .withLimits {}, []⟩ where
  lookup key := by rw [if_neg List.not_mem_nil]
  apart key _ := rfl
  plain cookie h := absurd h List.not_mem_nil

/-- the limit only decides whether a field is read -/
theorem parse_limit {field : Chars} {limit limit' : ℕ} {now : ℤ} {parsed parsed' : ParsedCookie}
    (h : ParsedCookie.parse fields origin field limit now = .ok parsed)
    (h' : ParsedCookie.parse fields origin field limit' now = .ok parsed') : parsed = parsed' := by
  rw [ParsedCookie.parse] at h h'
  cases hhost : (fields.hostStr origin).map Chars.toAsciiLowercase with
  | none =>
    rw [hhost] at h
    cases h
  | some host =>
    simp only [hhost] at h h'
    split_ifs at h h'
    exact Except.ok.inj (h.symm.trans h')

theorem applyAttributes_pair {host : Chars} {texts : List Chars} {parsed parsed' : ParsedCookie}
    (h : texts.foldlM (fun parsed text => ParsedCookie.applyAttribute parsed host text) parsed = .ok parsed') :
    parsed'.cookie.name = parsed.cookie.name ∧ parsed'.cookie.value = parsed.cookie.value := by
  induction texts generalizing parsed with
  | nil =>
    cases h
    exact ⟨rfl, rfl⟩
  | cons text texts ih =>
    rw [List.foldlM_cons] at h
    obtain ⟨next, hnext, h⟩ := bind_eq_ok.1 h
    obtain ⟨hname, hvalue⟩ := ih h
    rw [hname, hvalue]
    simp only [ParsedCookie.applyAttribute, ParsedCookie.applyDomain] at hnext
    split_ifs at hnext
    all_goals
      cases hnext
      exact ⟨rfl, rfl⟩

theorem parse_plain {field : Chars} {limit : ℕ} {now : ℤ} {parsed : ParsedCookie}
    (h : ParsedCookie.parse fields origin field limit now = .ok parsed) : parsed.cookie.Plain := by
  rw [ParsedCookie.parse] at h
  split at h
  · cases h
  · simp only at h
    split_ifs at h
    split at h
    · cases h
    · rename_i name value hpair
      split_ifs at h with hvalid
      obtain ⟨read, hread, hfinish⟩ := bind_eq_ok.1 h
      have hkept := finish_kept hfinish
      obtain ⟨hname, hvalue⟩ := applyAttributes_pair hread
      refine ⟨?_, ?_, ?_⟩
      · rw [hkept.name, hname]
        exact (by simpa using hvalid : validCookieName name.trim = true)
      · rw [hkept.value, hvalue]
        intro hmem
        have hmem : ';' ∈ value := (List.dropWhile_sublist _).mem
          (List.mem_reverse.1 ((List.dropWhile_sublist _).mem (List.mem_reverse.1 hmem)))
        have hpiece := mem_of_splitOnce hpair hmem
        rw [Chars.head_splitOn] at hpiece
        exact absurd (List.all_eq_true.1 List.all_takeWhile _ hpiece) (by decide)
      · rw [hkept.value, hvalue]
        exact trim_trim value

theorem setCookieAt_ok {field : Chars} {now : ℤ} (h : (jar.setCookieAt fields origin field now).1 = .ok ()) :
    ∃ parsed, ParsedCookie.parse fields origin field jar.limits.maxCookieBytes now = .ok parsed ∧
      (jar.setCookieAt fields origin field now).2.cookies =
        if parsed.remove then jar.cookies.erase parsed.cookie.key else jar.cookies.insert parsed.cookie.key parsed.cookie := by
  rw [CookieJar.setCookieAt] at h ⊢
  split at h
  · cases h
  · rename_i parsed hparsed
    refine ⟨parsed, hparsed, ?_⟩
    simp only at h ⊢
    split_ifs at h ⊢ <;> rfl

theorem setCookieAt_refused {field : Chars} {now : ℤ} (h : (jar.setCookieAt fields origin field now).1 ≠ .ok ()) :
    (jar.setCookieAt fields origin field now).2 = jar := by
  rw [CookieJar.setCookieAt] at h ⊢
  split at h
  · rfl
  · simp only at h ⊢
    split_ifs at h ⊢
    · exact absurd rfl h
    · rfl
    · exact absurd rfl h

theorem mem_values {cookie : Cookie} : cookie ∈ jar.cookies.values ↔ ∃ key, jar.cookies.get key = some cookie := by
  simp [SortedMap.values, SortedMap.get_eq_some]

theorem Jars.Inv.set {field : Chars} {now : ℤ} (hinv : jars.Inv jar) (halike : jars.Alike fields origin field now) :
    (jars.set fields origin field now).Inv jar := by
  by_cases hok : (jars.chain.setCookieAt fields origin field now).1 = .ok ()
  · obtain ⟨parsed, hparsed, hchain⟩ := setCookieAt_ok hok
    obtain ⟨parsed', hparsed', hcaller⟩ := setCookieAt_ok (halike.2 hok)
    obtain rfl := parse_limit hparsed hparsed'
    have htouched : (jars.set fields origin field now).touched = parsed.cookie.key :: jars.touched := by
      simp only [Jars.set, hok, hparsed]
    have hget : ∀ map : SortedMap (List Chars) Cookie, ∀ key, (if parsed.remove then map.erase parsed.cookie.key
        else map.insert parsed.cookie.key parsed.cookie).get key = if key = parsed.cookie.key then
          (if parsed.remove then none else some parsed.cookie) else map.get key := by
      intro map key
      split_ifs with hremove hkey hkey
      · rw [hkey, SortedMap.get_erase_self]
      · rw [SortedMap.get_erase_ne hkey]
      · rw [hkey, SortedMap.get_insert_self]
      · rw [SortedMap.get_insert_ne hkey]
    refine ⟨fun key => ?_, fun key hkey => ?_, fun cookie hmem => ?_⟩
    · rw [htouched, Jars.set, hcaller, hchain, hget, hget, hinv.lookup key]
      by_cases hkey : key = parsed.cookie.key
      · subst hkey
        simp only [List.mem_cons_self, if_true]
      · simp only [hkey, if_false, List.mem_cons, false_or]
    · rw [htouched, List.mem_cons, not_or] at hkey
      rw [Jars.set, hchain, hget, if_neg hkey.1]
      exact hinv.apart key hkey.2
    · obtain ⟨key, hkey⟩ := mem_values.1 hmem
      rw [Jars.set, hchain, hget] at hkey
      split_ifs at hkey
      · exact Option.some.inj hkey ▸ parse_plain hparsed
      · exact hinv.plain cookie (mem_values.2 ⟨key, hkey⟩)
  · have hsame : jars.set fields origin field now = jars := by
      have hrefused := setCookieAt_refused (mt halike.1 hok)
      have hrefused' := setCookieAt_refused hok
      rw [Jars.set, hrefused, hrefused']
      cases hresult : (jars.chain.setCookieAt fields origin field now).1 with
      | error issue => rfl
      | ok => exact absurd hresult hok
    rwa [hsame]

theorem Jars.Inv.absorb {header : Header} {now : ℤ} (hinv : jars.Inv jar)
    (halike : ∀ value, eqIgnoreAsciiCase header.name "set-cookie" = true → fromUtf8 header.value = some value →
      jars.Alike fields origin value.toList now) : (jars.absorb fields origin header now).Inv jar := by
  rw [Jars.absorb]
  split_ifs with hname
  · split
    · rename_i value hvalue
      exact hinv.set (halike value hname hvalue)
    · exact hinv
  · exact hinv

theorem Jars.Inv.absorbAll {times : ℕ → ℤ} {headers : List (Header × ℕ)} (hinv : jars.Inv jar)
    (halike : jars.AllAlike fields origin times headers) : (jars.absorbAll fields origin times headers).Inv jar := by
  induction headers generalizing jars with
  | nil => exact hinv
  | cons entry headers ih => exact ih (hinv.absorb halike.1) halike.2

end Invariant

/-! ## The hops of a chain -/

/-- whether a cookie goes out to a URL on a host -/
def Cookie.sends (fields : UrlFields Url) (url : Url) (host : Chars) (now : ℤ) (cookie : Cookie) : Bool :=
  cookie.isLive now && (!cookie.secure || fields.scheme url = "https".toList) && cookie.sentTo host &&
    pathMatches (normalizedRequestPath (fields.path url)) cookie.path

theorem matching_perm (fields : UrlFields Url) (jar : CookieJar) (url : Url) (host : Chars) (now : ℤ) :
    (jar.matching fields url host now).Perm
      ((jar.cookies.entries.filter fun entry => entry.2.sends fields url host now).map Prod.snd) := by
  refine (List.mergeSort_perm _ _).trans ?_
  rw [SortedMap.values, List.filter_map]
  rfl

theorem cookieHeaderAt_headerOf {fields : UrlFields Url} (jar : CookieJar) {url : Url} {host : Chars} (now : ℤ)
    (hhost : fields.cookieHost url = some host) :
    jar.cookieHeaderAt fields url now = headerOf (jar.matching fields url host now) := by
  rw [UrlFields.cookieHost] at hhost
  rw [CookieJar.cookieHeaderAt, hhost]
  rfl

/-- the states that a chain comes to by redirects whose fields are stored or refused alike, with the jars there -/
inductive Chain (ops : UrlOps Url) (config : FetchConfig) (request : FetchRequest Url) (jar : CookieJar) :
    Jars → ChainState Url → Prop
  | start : Chain ops config request jar ⟨jar, .withLimits {}, []⟩ (.start request)
  | redirect {jars : Jars} {state next : ChainState Url} {reply : HopReply ε} {status : HttpStatus} {headers : List Header}
      (h : Chain ops config request jar jars state) (hresponse : reply.response = .ok (status, headers))
      (hnext : state.answered ops config reply = .redirected next)
      (halike : jars.AllAlike ops.toUrlFields state.currentUrl reply.absorbTimes headers.zipIdx) :
      Chain ops config request jar
        (jars.absorbAll ops.toUrlFields state.currentUrl reply.absorbTimes headers.zipIdx) next

/-- of the caller's cookies, those that the request sent and whose names no cookie of the chain has on the hop are those that
match the hop and that no redirect has set or deleted -/
def Agree (fields : UrlFields Url) (jar : CookieJar) (jars : Jars) (request hop : Url) (sent now : ℤ) : Prop :=
  ∀ key cookie, jar.cookies.get key = some cookie → ∀ host host', fields.cookieHost request = some host →
    fields.cookieHost hop = some host' →
      ((cookie.sends fields request host sent = true ∧ cookie.name ∉ (jars.chain.matching fields hop host' now).map Cookie.name) ↔
        (key ∉ jars.touched ∧ cookie.sends fields hop host' now = true))

section Chain

variable {ops : UrlOps Url} {config : FetchConfig} {request : FetchRequest Url} {jar : CookieJar} {jars : Jars}
  {state : ChainState Url}

theorem Chain.inv (h : Chain (ε := ε) ops config request jar jars state) : jars.Inv jar ∧ state.hopCookies = jars.chain := by
  induction h with
  | start => exact ⟨.start jar, rfl⟩
  | @redirect jars state next reply status headers h hresponse hnext halike ih =>
    refine ⟨ih.1.absorbAll halike, ?_⟩
    obtain ⟨-, status', headers', url, hresponse', rfl⟩ := ChainState.answered_redirected ops config hnext
    obtain ⟨rfl, rfl⟩ : status = status' ∧ headers = headers' := by simpa using hresponse.symm.trans hresponse'
    rw [(absorbAll_jars _ _ _ _ _).2, ← ih.2]
    rfl

theorem sameOrigin_hosts {left right : Url} (h : sameOrigin ops left right = true) :
    (∃ host, ops.cookieHost left = some host) ∧ ∃ host, ops.cookieHost right = some host := by
  rw [sameOrigin, Bool.and_eq_true, Bool.and_eq_true] at h
  have hhosts := h.1.2
  split at hhosts
  · rename_i left' right' hleft hright
    exact ⟨⟨_, by rw [UrlFields.cookieHost, hleft]; rfl⟩, ⟨_, by rw [UrlFields.cookieHost, hright]; rfl⟩⟩
  · cases hhosts

theorem entries_nodup (jar : CookieJar) : jar.cookies.entries.Nodup := .of_map Prod.fst jar.cookies.keys_nodup

/-- **The cookies of a hop.** On the origin of the request a hop carries the pairs of the caller's jar, had it absorbed what
the redirects set, as long as the two agree there -/
theorem chain_pairs {profile : Profile Url} (hreach : profile.Reachable ops.toUrlFields) {sent now : ℤ}
    (hcookie : request.cookie.map String.toList = profile.jar.cookieHeaderAt ops.toUrlFields request.url sent)
    (hrun : Chain (ε := ε) ops config request profile.jar jars state)
    (hsame : sameOrigin ops state.currentUrl request.url = true)
    (hagree : Agree ops.toUrlFields profile.jar jars request.url state.currentUrl sent now) :
    (headerPairs (state.cookie ops request now)).Perm
      (headerPairs (jars.caller.cookieHeaderAt ops.toUrlFields state.currentUrl now)) := by
  obtain ⟨hinv, hjar⟩ := hrun.inv
  obtain ⟨⟨host', hhost'⟩, ⟨host, hhost⟩⟩ := sameOrigin_hosts hsame
  have hplain : ∀ cookie ∈ profile.jar.cookies.values, cookie.Plain := fun cookie hmem => by
    obtain ⟨record, -, parsed, hparsed, rfl⟩ := (Profile.Inv.of_reachable hreach).jar cookie hmem
    exact parse_plain hparsed
  have hcaller : ∀ cookie ∈ jars.caller.cookies.values, cookie.Plain := fun cookie hmem => by
    obtain ⟨key, hkey⟩ := mem_values.1 hmem
    rw [hinv.lookup] at hkey
    split_ifs at hkey
    · exact hinv.plain cookie (mem_values.2 ⟨key, hkey⟩)
    · exact hplain cookie (mem_values.2 ⟨key, hkey⟩)
  have hmatching : ∀ jar : CookieJar, (∀ cookie ∈ jar.cookies.values, cookie.Plain) → ∀ url host now,
      ∀ cookie ∈ jar.matching ops.toUrlFields url host now, cookie.Plain :=
    fun jar h url host now cookie hmem => h cookie (mem_matching.1 hmem).1
  rw [ChainState.cookie, ChainState.callerCookie, hsame, if_pos rfl, hcookie, hjar, cookieHeaderAt_headerOf _ _ hhost,
    cookieHeaderAt_headerOf _ _ hhost', cookieHeaderAt_headerOf _ _ hhost',
    combinedCookieHeader_pairs (hmatching _ hplain _ _ _) (hmatching _ hinv.plain _ _ _),
    headerPairs_headerOf (hmatching _ hcaller _ _ _)]
  refine List.Perm.map _ ?_
  refine (((matching_perm _ profile.jar _ _ _).filter _).append (matching_perm _ jars.chain _ _ _)).trans ?_
  refine List.Perm.trans ?_ (matching_perm _ jars.caller _ _ _).symm
  rw [List.filter_map, ← List.map_append]
  refine List.Perm.map _ ?_
  -- both sides list each entry once, so it is enough that they list the same entries
  have hkeys : ∀ entry ∈ profile.jar.cookies.entries, entry.2.sends ops.toUrlFields request.url host sent = true →
      entry.2.name ∉ (jars.chain.matching ops.toUrlFields state.currentUrl host' now).map Cookie.name → entry.1 ∉ jars.touched :=
    fun entry hmem hsends hname => ((hagree entry.1 entry.2 (SortedMap.get_eq_some.2 hmem) host host' hhost hhost').1
      ⟨hsends, hname⟩).1
  have hchain : ∀ entry ∈ jars.chain.cookies.entries, entry.1 ∈ jars.touched := fun entry hmem => by
    by_contra htouched
    have hnone := hinv.apart entry.1 htouched
    rw [SortedMap.get_eq_some.2 hmem] at hnone
    cases hnone
  refine (List.perm_ext_iff_of_nodup ?_ ((entries_nodup jars.caller).filter _)).2 fun entry => ?_
  · refine ((((entries_nodup profile.jar).filter _).filter _).append ((entries_nodup jars.chain).filter _)) ?_
    intro entry hmem hmem'
    obtain ⟨hmem, hname⟩ := List.mem_filter.1 hmem
    obtain ⟨hmem, hsends⟩ := List.mem_filter.1 hmem
    exact hkeys entry hmem hsends (by simpa using hname) (hchain entry (List.mem_filter.1 hmem').1)
  · obtain ⟨key, cookie⟩ := entry
    simp only [List.mem_append, List.mem_filter, Function.comp_apply, Bool.not_eq_true', List.contains_eq_mem,
      decide_eq_false_iff_not, ← SortedMap.get_eq_some, hinv.lookup key]
    by_cases htouched : key ∈ jars.touched
    · simp only [htouched, if_true]
      refine or_iff_right ?_
      rintro ⟨⟨hget, hsends⟩, hname⟩
      exact hkeys (key, cookie) (SortedMap.get_eq_some.1 hget) hsends hname htouched
    · simp only [htouched, if_false, hinv.apart key htouched, reduceCtorEq, false_and, or_false, and_assoc]
      refine and_congr_right fun hget => (hagree key cookie hget host host' hhost hhost').trans ?_
      exact and_iff_right htouched

end Chain

/-! ## A cookie that is replaced, and one that is deleted -/

/-- the fields of a redirect to the same host, with a `Set-Cookie` field -/
def setting (field : String) : List Header := [⟨"location", utf8 "a.test"⟩, ⟨"set-cookie", utf8 field⟩]

/-- a reply that redirects with such fields at first, and then none -/
def redirectSetting (field : String) (n : ℕ) : HopReply Unit :=
  { redirectOnce "a.test" n with response := if n = 0 then .ok (302, setting field) else .error () }

/-- the jar that a host has set a cookie in -/
def returned : CookieJar := (absorbed (siteOf "a.test") "id=7".toList).jar

/-- a request with that cookie -/
def returning : FetchRequest Site := { url := siteOf "a.test", cookie := some "id=7" }

/-- the jars behind a redirect that replaces the cookie -/
def replaced : Jars :=
  Jars.absorbAll siteFields returning.url (fun _ => 0) ⟨returned, .withLimits {}, []⟩ (setting "id=8").zipIdx

theorem chain_pairs_replaced :
    (headerPairs (((ChainState.start returning).redirectedTo siteOps (redirectSetting "id=8" 0) 302 (setting "id=8")
      (siteOf "a.test")).cookie siteOps returning 0)).Perm
      (headerPairs (replaced.caller.cookieHeaderAt siteFields (siteOf "a.test") 0)) := by
  have hcookie : returning.cookie.map String.toList = returned.cookieHeaderAt siteFields returning.url 0 := by decide +kernel
  have hresponse : (redirectSetting "id=8" 0).response = .ok (302, setting "id=8") := rfl
  have hnext : (ChainState.start returning).answered siteOps ⟨5, 1⟩ (redirectSetting "id=8" 0) =
      .redirected ((ChainState.start returning).redirectedTo siteOps (redirectSetting "id=8" 0) 302 (setting "id=8")
        (siteOf "a.test")) := rfl
  have halike : Jars.AllAlike siteFields returning.url (fun _ => 0) ⟨returned, .withLimits {}, []⟩ (setting "id=8").zipIdx := by
    refine ⟨fun value hname _ => absurd hname (by decide), fun value _ hvalue => ?_, trivial⟩
    obtain rfl : "id=8" = value :=
      Option.some.inj ((by decide +kernel : fromUtf8 (utf8 "id=8") = some "id=8").symm.trans hvalue)
    exact iff_of_true rfl rfl
  have hrun := Chain.redirect Chain.start hresponse hnext halike
  have hreach : Profile.Reachable siteFields (absorbed (siteOf "a.test") "id=7".toList) := .step (.set _ _ _) (.start {})
  refine chain_pairs hreach hcookie hrun (by decide +kernel) ?_
  intro key cookie hget host host' hhost hhost'
  obtain rfl : "a.test".toList = host := Option.some.inj hhost
  obtain rfl : "a.test".toList = host' := Option.some.inj hhost'
  -- the only cookie has the name and the key of the one that the redirect sets
  have hall : ∀ entry ∈ returned.cookies.entries, entry.1 ∈ replaced.touched ∧
      entry.2.name ∈ (replaced.chain.matching siteFields (siteOf "a.test") "a.test".toList 0).map Cookie.name := by
    decide +kernel
  obtain ⟨htouched, hname⟩ := hall (key, cookie) (SortedMap.get_eq_some.1 hget)
  exact iff_of_false (fun h => h.2 hname) fun h => h.1 htouched

/-- a logout redirect deletes the cookie, and the next hop sends it -/
theorem deleted_cookie_sent :
    returned.cookieHeaderAt siteFields returning.url 0 = some "id=7".toList ∧
    (absorbHopSetCookies siteFields returning.url (fun _ => 0) returned
      (setting "id=; Max-Age=0")).cookieHeaderAt siteFields returning.url 0 = none ∧
    ∃ sent ∈ (fetchTransfer siteOps ⟨5, 1⟩ returning (redirectSetting "id=; Max-Age=0") false).1,
      sent.redirects.length = 1 ∧ ("Cookie", "id=7") ∈ sent.hop.headers := by
  decide +kernel

end Render.Net
