/-
What a cross-origin page may read of a response (`render-browser/src/cors.rs`).

Header values are octets that `String::from_utf8_lossy` reads as text. Two checks decide whether the page may read the
response at all: `response_allows`, and `response_allows_credentials` for a request that carried cookies. The first asks
for a single `Access-Control-Allow-Origin` line, the second is content with one line among several. `exposed_headers` then
picks the header lines the page sees. It knows a safelist and what the server lists, and no name that stays hidden
whatever the server lists.
-/
import Render.Net.Types

namespace Render.Net

open Render.Core

/-! ## `String::from_utf8_lossy` -/

/-- a sequence that has begun: its bits so far, how many octets are to come, and the bounds of the next one -/
structure Sequence where
  code : ℕ
  needed : ℕ
  low : ℕ
  high : ℕ

/-- the octet that begins a sequence, or is a character, or is neither -/
def Sequence.start (octet : ℕ) : Chars × Option Sequence :=
  if octet < 0x80 then ([Char.ofNat octet], none)
  else if 0xC2 ≤ octet ∧ octet ≤ 0xDF then ([], some ⟨octet - 0xC0, 1, 0x80, 0xBF⟩)
  else if 0xE0 ≤ octet ∧ octet ≤ 0xEF then
    ([], some ⟨octet - 0xE0, 2, if octet = 0xE0 then 0xA0 else 0x80, if octet = 0xED then 0x9F else 0xBF⟩)
  else if 0xF0 ≤ octet ∧ octet ≤ 0xF4 then
    ([], some ⟨octet - 0xF0, 3, if octet = 0xF0 then 0x90 else 0x80, if octet = 0xF4 then 0x8F else 0xBF⟩)
  else (['\uFFFD'], none)

/-- one octet: an octet out of bounds ends its sequence in U+FFFD and begins anew -/
def Sequence.next : Option Sequence → ℕ → Chars × Option Sequence
  | none, octet => start octet
  | some s, octet =>
    if s.low ≤ octet ∧ octet ≤ s.high then
      let code := s.code * 64 + (octet - 0x80)
      if s.needed = 1 then ([Char.ofNat code], none) else ([], some ⟨code, s.needed - 1, 0x80, 0xBF⟩)
    else ('\uFFFD' :: (start octet).1, (start octet).2)

def lossyLoop : Option Sequence → Octets → Chars
  | none, [] => []
  | some _, [] => ['\uFFFD']
  | pending, octet :: rest =>
    (Sequence.next pending octet.toNat).1 ++ lossyLoop (Sequence.next pending octet.toNat).2 rest

/-- `String::from_utf8_lossy` -/
def fromUtf8Lossy (octets : Octets) : Chars := lossyLoop none octets

-- a sequence that breaks off is one U+FFFD
example : fromUtf8Lossy [0x61, 0xE2, 0x82, 0x62, 0xFF, 0xC3, 0xA9] = ['a', '\uFFFD', 'b', '\uFFFD', 'é'] := by decide

namespace Cors

/-! ## The source -/

/-- `String::from_utf8_lossy(&header.value).trim()` -/
def valueText (header : Header) : Chars := (fromUtf8Lossy header.value).trim

/-- the lines of a name -/
def lines (headers : List Header) (name : String) : List Header := headers.filter (eqIgnoreAsciiCase ·.name name)

/-- `allows_origin` -/
def allowsOrigin (headers : List Header) (origin : Chars) : Bool :=
  match (lines headers "access-control-allow-origin").map valueText with
  | [value] => value = ['*'] || value = origin
  | _ => false

/-- `response_allows` -/
def responseAllows (headers : List Header) (origin : Chars) : Bool := allowsOrigin headers origin

/-- `response_allows_credentials` -/
def responseAllowsCredentials (headers : List Header) (origin : Chars) : Bool :=
  (headers.any fun header =>
    eqIgnoreAsciiCase header.name "access-control-allow-origin" && decide (valueText header = origin)) &&
  headers.any fun header =>
    eqIgnoreAsciiCase header.name "access-control-allow-credentials" && decide (valueText header = "true".toList)

/-- the candidates of a comma-separated list, over all its lines -/
def candidates (headers : List Header) (listName : String) : List Chars :=
  (lines headers listName).flatMap fun header => ((fromUtf8Lossy header.value).splitOn ',').map Chars.trim

/-- the loop of `list_allows`: `none` as soon as a candidate is the item, else whether one was the wildcard -/
def listLoop (same : Chars → Bool) : List Chars → Bool → Option Bool
  | [], wildcard => some wildcard
  | candidate :: rest, wildcard =>
    if candidate = ['*'] then listLoop same rest true
    else if same candidate then none
    else listLoop same rest wildcard

/-- `list_allows` -/
def listAllows (headers : List Header) (listName : String) (item : Chars) (caseInsensitive : Bool) : Bool :=
  let same := fun candidate : Chars =>
    if caseInsensitive then candidate.eqIgnoreAsciiCase item else decide (candidate = item)
  match listLoop same (candidates headers listName) false with
  | none => true
  | some wildcard => wildcard && !(caseInsensitive && item.eqIgnoreAsciiCase "authorization".toList)

/-- `is_safelisted_response_header` -/
def isSafelistedResponseHeader (name : String) : Bool :=
  ["cache-control", "content-language", "content-length", "content-type", "expires", "last-modified", "pragma"].any
    fun safe => Chars.toAsciiLowercase name.toList = safe.toList

/-- `exposed_headers` -/
def exposedHeaders (headers : List Header) (crossOrigin : Bool) : List (String × Chars) :=
  (headers.filter fun header =>
    !crossOrigin || isSafelistedResponseHeader header.name ||
      listAllows headers "access-control-expose-headers" header.name.toList true).map
    fun header => (header.name, fromUtf8Lossy header.value)

/-! ## The two checks -/

/-- the values of a name, a line each -/
def values (headers : List Header) (name : String) : List Chars := (lines headers name).map valueText

/-- the value of a name as Fetch combines its lines -/
def combined (headers : List Header) (name : String) : Option Chars :=
  if values headers name = [] then none else some ([',', ' '].intercalate (values headers name))

theorem any_line {headers : List Header} {name : String} {value : Chars} :
    (headers.any fun header => eqIgnoreAsciiCase header.name name && decide (valueText header = value)) = true ↔
      value ∈ values headers name := by
  simp only [values, lines, List.any_eq_true, Bool.and_eq_true, decide_eq_true_eq, List.mem_map, List.mem_filter, and_assoc]

theorem responseAllowsCredentials_iff {headers : List Header} {origin : Chars} :
    responseAllowsCredentials headers origin = true ↔ origin ∈ values headers "access-control-allow-origin" ∧
      "true".toList ∈ values headers "access-control-allow-credentials" := by
  rw [responseAllowsCredentials, Bool.and_eq_true, any_line, any_line]

theorem responseAllows_iff {headers : List Header} {origin : Chars} :
    responseAllows headers origin = true ↔ ∃ value, values headers "access-control-allow-origin" = [value] ∧
      (value = ['*'] ∨ value = origin) := by
  rw [responseAllows, allowsOrigin, ← values]
  split
  · next value hvalue => simp [hvalue]
  · next hmany =>
    simp only [Bool.false_eq_true, false_iff, not_exists, not_and]
    exact fun value hvalue => absurd hvalue (hmany value)

theorem combined_single {headers : List Header} {name : String} {value : Chars} (h : values headers name = [value]) :
    combined headers name = some value := by
  rw [combined, h, if_neg (List.cons_ne_nil _ _), List.intercalate_singleton]

def line (name value : String) : Header := ⟨name, utf8 value⟩

theorem listLoop_eq_none {same : Chars → Bool} {candidates : List Chars} {wildcard : Bool} :
    listLoop same candidates wildcard = none ↔ ∃ candidate ∈ candidates, candidate ≠ ['*'] ∧ same candidate = true := by
  induction candidates generalizing wildcard with
  | nil => simp [listLoop]
  | cons candidate rest ih =>
    rw [listLoop]
    split_ifs with hstar hsame
    · simp [ih, hstar]
    · simp [hstar, hsame]
    · simp [ih, hsame]

theorem listLoop_eq_some {same : Chars → Bool} {candidates : List Chars} {wildcard found : Bool}
    (h : listLoop same candidates wildcard = some found) :
    found = true ↔ wildcard = true ∨ ['*'] ∈ candidates := by
  induction candidates generalizing wildcard with
  | nil =>
    cases h
    simp
  | cons candidate rest ih =>
    rw [listLoop] at h
    split_ifs at h with hstar hsame
    · simp [ih h, hstar]
    · simp [ih h, Ne.symm hstar]

/-- `list_allows` for header names: the list has the name, or a wildcard that covers it -/
theorem listAllows_iff {headers : List Header} {listName : String} {item : Chars} :
    listAllows headers listName item true = true ↔
      (∃ candidate ∈ candidates headers listName, candidate ≠ ['*'] ∧ candidate.eqIgnoreAsciiCase item = true) ∨
      (['*'] ∈ candidates headers listName ∧ item.eqIgnoreAsciiCase "authorization".toList = false) := by
  simp only [listAllows, Bool.true_and, if_true]
  cases hloop : listLoop (fun candidate => candidate.eqIgnoreAsciiCase item) (candidates headers listName) false with
  | none =>
    have hnamed := listLoop_eq_none.1 hloop
    simp only [true_iff]
    exact .inl hnamed
  | some found =>
    have hfound := listLoop_eq_some hloop
    have hunnamed : ¬ ∃ candidate ∈ candidates headers listName, candidate ≠ ['*'] ∧
        candidate.eqIgnoreAsciiCase item = true := fun hnamed => by
      rw [listLoop_eq_none.2 hnamed] at hloop
      cases hloop
    simp only [Bool.false_eq_true, false_or] at hfound
    simp [hunnamed, hfound]

/-- a name that Fetch never lets a page read -/
def isSetCookie (name : Chars) : Bool :=
  name.eqIgnoreAsciiCase "set-cookie".toList || name.eqIgnoreAsciiCase "set-cookie2".toList

/-- the list of names that the server exposes -/
abbrev exposeList (headers : List Header) : List Chars := candidates headers "access-control-expose-headers"

theorem isSetCookie_lowercase {name : Chars} (h : isSetCookie name = true) :
    name.toAsciiLowercase = "set-cookie".toList ∨ name.toAsciiLowercase = "set-cookie2".toList := by
  rw [isSetCookie, Bool.or_eq_true, Chars.eqIgnoreAsciiCase, Chars.eqIgnoreAsciiCase, decide_eq_true_eq,
    decide_eq_true_eq] at h
  exact h

theorem isSetCookie_congr {left right : Chars} (h : left.eqIgnoreAsciiCase right = true) :
    isSetCookie left = isSetCookie right := by
  rw [Chars.eqIgnoreAsciiCase, decide_eq_true_eq] at h
  simp only [isSetCookie, Chars.eqIgnoreAsciiCase, h]

/-- such a name is not safelisted, and the wildcard covers it -/
theorem setCookie_unlisted {name : String} (h : isSetCookie name.toList = true) :
    isSafelistedResponseHeader name = false ∧ Chars.eqIgnoreAsciiCase name.toList "authorization".toList = false ∧
      Chars.eqIgnoreAsciiCase ['*'] name.toList = false := by
  rw [isSafelistedResponseHeader, Chars.eqIgnoreAsciiCase, Chars.eqIgnoreAsciiCase]
  rcases isSetCookie_lowercase h with hname | hname
  · rw [hname]
    decide
  · rw [hname]
    decide

/-- a Set-Cookie line passes the filter exactly when the list has its name or the wildcard -/
theorem setCookie_allowed {headers : List Header} {name : String} (h : isSetCookie name.toList = true) :
    (isSafelistedResponseHeader name || listAllows headers "access-control-expose-headers" name.toList true) = true ↔
      ['*'] ∈ exposeList headers ∨ ∃ candidate ∈ exposeList headers, candidate.eqIgnoreAsciiCase name.toList = true := by
  obtain ⟨hsafe, hauthorization, hstar⟩ := setCookie_unlisted h
  rw [hsafe, Bool.false_or, listAllows_iff]
  constructor
  · rintro (⟨candidate, hmem, -, hsame⟩ | ⟨hwildcard, -⟩)
    · exact .inr ⟨candidate, hmem, hsame⟩
    · exact .inl hwildcard
  · rintro (hwildcard | ⟨candidate, hmem, hsame⟩)
    · exact .inr ⟨hwildcard, hauthorization⟩
    · refine .inl ⟨candidate, hmem, ?_, hsame⟩
      rintro rfl
      rw [hstar] at hsame
      cases hsame

/-- no candidate is the wildcard or a Set-Cookie name -/
def ListsNoSetCookie (headers : List Header) : Prop :=
  ∀ candidate ∈ exposeList headers, candidate ≠ ['*'] ∧ isSetCookie candidate = false

theorem setCookie_refused {headers : List Header} (h : ListsNoSetCookie headers) {name : String}
    (hname : isSetCookie name.toList = true) :
    (isSafelistedResponseHeader name || listAllows headers "access-control-expose-headers" name.toList true) = false := by
  rw [Bool.eq_false_iff]
  intro hallowed
  rcases (setCookie_allowed hname).1 hallowed with hwildcard | ⟨candidate, hmem, hsame⟩
  · exact (h _ hwildcard).1 rfl
  · have hnone := (h candidate hmem).2
    rw [isSetCookie_congr hsame, hname] at hnone
    cases hnone

/-- the response without its Set-Cookie lines -/
def withoutCookies (headers : List Header) : List Header := headers.filter fun header => !isSetCookie header.name.toList

theorem lines_withoutCookies {headers : List Header} {name : String} (h : isSetCookie name.toList = false) :
    lines (withoutCookies headers) name = lines headers name := by
  rw [lines, withoutCookies, List.filter_filter, lines]
  refine List.filter_congr fun header _ => ?_
  cases hname : eqIgnoreAsciiCase header.name name with
  | false => rfl
  | true =>
    rw [isSetCookie_congr hname, h]
    rfl

/-- what the server lists is read from the other lines -/
theorem exposeList_withoutCookies (headers : List Header) : exposeList (withoutCookies headers) = exposeList headers := by
  rw [exposeList, candidates, lines_withoutCookies (by decide), ← candidates]

theorem listAllows_withoutCookies (headers : List Header) (item : Chars) :
    listAllows (withoutCookies headers) "access-control-expose-headers" item true =
      listAllows headers "access-control-expose-headers" item true := by
  rw [listAllows, listAllows, ← exposeList, ← exposeList, exposeList_withoutCookies]

/-- where the list has no Set-Cookie name and no wildcard, the page sees what it would see without those lines -/
theorem exposedHeaders_withoutCookies {headers : List Header} (h : ListsNoSetCookie headers) :
    exposedHeaders headers true = exposedHeaders (withoutCookies headers) true := by
  simp only [exposedHeaders, listAllows_withoutCookies, Bool.not_true, Bool.false_or]
  rw [withoutCookies, List.filter_filter]
  congr 1
  refine List.filter_congr fun header _ => ?_
  cases hname : isSetCookie header.name.toList with
  | false => simp
  | true =>
    rw [setCookie_refused h hname]
    rfl

/-- **What stays hidden.** A page sees a Set-Cookie line exactly when the server lists its name or the wildcard. Where it
lists neither, the page sees no such line, and cannot tell two responses apart that differ in such lines only. -/
theorem set_cookie_exposed_iff (headers : List Header) :
    (∀ header ∈ headers, isSetCookie header.name.toList = true →
      ((header.name, fromUtf8Lossy header.value) ∈ exposedHeaders headers true ↔ ['*'] ∈ exposeList headers ∨
        ∃ candidate ∈ exposeList headers, candidate.eqIgnoreAsciiCase header.name.toList = true)) ∧
    (ListsNoSetCookie headers →
      (∀ pair ∈ exposedHeaders headers true, isSetCookie pair.1.toList = false) ∧
      ∀ other, withoutCookies other = withoutCookies headers → exposedHeaders other true = exposedHeaders headers true) := by
  refine ⟨fun header hmem hname => ?_, fun hlists => ⟨fun pair hpair => ?_, fun other hother => ?_⟩⟩
  · rw [← setCookie_allowed hname]
    simp only [exposedHeaders, Bool.not_true, Bool.false_or, List.mem_map, List.mem_filter, Prod.mk.injEq]
    constructor
    · rintro ⟨other, ⟨-, hallowed⟩, hsame, -⟩
      rwa [hsame] at hallowed
    · exact fun hallowed => ⟨header, ⟨hmem, hallowed⟩, rfl, rfl⟩
  · rw [exposedHeaders_withoutCookies hlists, exposedHeaders, List.mem_map] at hpair
    obtain ⟨header, hheader, rfl⟩ := hpair
    have hkept := (List.mem_filter.1 (List.mem_of_mem_filter hheader)).2
    simpa using hkept
  · have hsame : exposeList other = exposeList headers := by
      rw [← exposeList_withoutCookies, hother, exposeList_withoutCookies]
    have hlists' : ListsNoSetCookie other := by
      rw [ListsNoSetCookie, hsame]
      exact hlists
    rw [exposedHeaders_withoutCookies hlists', hother, ← exposedHeaders_withoutCookies hlists]

/-- a server that lists the name, or the wildcard, hands the cookie to the page -/
theorem set_cookie_listed : ¬ ∀ headers : List Header,
    (∀ pair ∈ exposedHeaders headers true, isSetCookie pair.1.toList = false) ∧
      ∀ other, withoutCookies other = withoutCookies headers → exposedHeaders other true = exposedHeaders headers true := by
  intro hall
  have hhidden := (hall [line "Set-Cookie" "id=1", line "Access-Control-Expose-Headers" "*"]).1
  exact absurd (hhidden ("Set-Cookie", "id=1".toList) (by decide)) (by decide)

end Cors

end Render.Net
