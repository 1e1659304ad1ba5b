/-
Who may receive a cookie, over any history of a profile.

A profile is a jar and the stores that were written from it. Its steps are the ones a browser context makes: absorb a field,
purge, save the jar, load a saved store, and start again with an empty jar. The fields that were absorbed are recorded.

- `cookieHeaderAt_rightful`: every cookie in a header was stored by a recorded field, and the request meets its scope, path,
  security and expiry. A host that is an IP literal receives only its own cookies, as long as no field named a `Domain` that
  covers another literal.
- `literal_receives_foreign`: without that condition it may receive others. `domain_matches` compares texts, so the literal
  `1.2.3.4` may name `3.4`, which covers `9.9.3.4`.
-/
import Render.Net.CookieRules
import Render.Net.CookieStore

namespace Render.Net

open Render.Core
open Chars

/-! ## IP literals -/

/-- a number below 256, as it is written -/
def isOctet (t : Chars) : Bool := (digits t).any fun n => decide (n < 256) && decide (Nat.toDigits 10 n = t)

def isIpv4Literal (host : Chars) : Bool :=
  let parts := host.splitOn '.'
  decide (parts.length = 4) && parts.all isOctet

def isIpv6Literal (host : Chars) : Bool := decide (host.head? = some '[') && decide (host.getLast? = some ']')

def isIpLiteral (host : Chars) : Bool := isIpv4Literal host || isIpv6Literal host

/-! ## Histories -/

/-- a field that was absorbed -/
structure SetRecord (Url : Type) where
  origin : Url
  field : Chars
  byteLimit : ℕ
  now : ℤ

structure Profile (Url : Type) where
  jar : CookieJar
  /-- the stores that were written -/
  saved : List Chars
  /-- the fields that were absorbed -/
  sets : List (SetRecord Url)

inductive ProfileAct (Url : Type)
  | set (origin : Url) (field : Chars) (now : ℤ)
  | purge (now : ℤ)
  | save (now : ℤ)
  | load (index : ℕ) (now : ℤ)
  | restart (limits : CookieLimits)

variable {Url : Type} (fields : UrlFields Url)

def Profile.start (limits : CookieLimits) : Profile Url := ⟨.withLimits limits, [], []⟩

def Profile.step (profile : Profile Url) : ProfileAct Url → Profile Url
  | .set origin field now =>
    { profile with
      jar := (profile.jar.setCookieAt fields origin field now).2
      sets := ⟨origin, field, profile.jar.limits.maxCookieBytes, now⟩ :: profile.sets }
  | .purge now => { profile with jar := profile.jar.purgeExpired now }
  | .save now => { profile with saved := profile.jar.toStoreText now :: profile.saved }
  | .load index now =>
    match profile.saved[index]? with
    | none => profile
    | some text => { profile with jar := (profile.jar.loadStoreText text now).2 }
  | .restart limits => { profile with jar := .withLimits limits }

/-- the profiles that a history ends in -/
inductive Profile.Reachable : Profile Url → Prop
  | start (limits : CookieLimits) : Reachable (.start limits)
  | step {profile : Profile Url} (act : ProfileAct Url) : Reachable profile → Reachable (profile.step fields act)

/-! ## Where cookies come from -/

/-- the host that set a field -/
def SetRecord.host (record : SetRecord Url) : Option Chars := fields.cookieHost record.origin

/-- the cookie is the one that the field spells -/
def SetRecord.Stored (record : SetRecord Url) (cookie : Cookie) : Prop :=
  ∃ parsed, ParsedCookie.parse fields record.origin record.field record.byteLimit record.now = .ok parsed ∧
    parsed.cookie = cookie

/-- a recorded field stored the cookie -/
def SetBy (sets : List (SetRecord Url)) (cookie : Cookie) : Prop := ∃ record ∈ sets, record.Stored fields cookie

/-- every cookie that a store loads was stored by a recorded field -/
def StoreSetBy (sets : List (SetRecord Url)) (text : Chars) : Prop :=
  ∀ line ∈ text.lines.tail, ∀ cookie, parseStoreLine line = some cookie → SetBy fields sets cookie

structure Profile.Inv (profile : Profile Url) : Prop where
  jar : ∀ cookie ∈ profile.jar.cookies.values, SetBy fields profile.sets cookie
  saved : ∀ text ∈ profile.saved, StoreSetBy fields profile.sets text

variable {fields}

theorem SetBy.mono {sets sets' : List (SetRecord Url)} {cookie : Cookie} (h : SetBy fields sets cookie)
    (hsub : ∀ record ∈ sets, record ∈ sets') : SetBy fields sets' cookie := by
  obtain ⟨record, hmem, hstored⟩ := h
  exact ⟨record, hsub record hmem, hstored⟩

theorem mem_values_insert {m : SortedMap (List Chars) Cookie} {k : List Chars} {v cookie : Cookie}
    (h : cookie ∈ (m.insert k v).values) : cookie = v ∨ cookie ∈ m.values := by
  obtain ⟨entry, hmem, rfl⟩ := List.mem_map.1 h
  rcases SortedMap.mem_insert.1 hmem with rfl | ⟨hmem, -⟩
  · exact .inl rfl
  · exact .inr (List.mem_map_of_mem hmem)

theorem mem_values_retain {m : SortedMap (List Chars) Cookie} {accept : List Chars → Cookie → Bool} {cookie : Cookie}
    (h : cookie ∈ (m.retain accept).values) : cookie ∈ m.values := by
  obtain ⟨entry, hmem, rfl⟩ := List.mem_map.1 h
  exact List.mem_map_of_mem (SortedMap.mem_retain.1 hmem).1

/-- a field adds at most the cookie that it spells -/
theorem mem_setCookieAt {jar : CookieJar} {origin : Url} {field : Chars} {now : ℤ} {cookie : Cookie}
    (h : cookie ∈ (jar.setCookieAt fields origin field now).2.cookies.values) :
    cookie ∈ jar.cookies.values ∨
      (⟨origin, field, jar.limits.maxCookieBytes, now⟩ : SetRecord Url).Stored fields cookie := by
  simp only [CookieJar.setCookieAt] at h
  split at h
  · exact .inl h
  · rename_i parsed hparsed
    split_ifs at h
    · exact .inl (mem_values_retain h)
    · exact .inl h
    · rcases mem_values_insert h with rfl | hmem
      · exact .inr ⟨parsed, hparsed, rfl⟩
      · exact .inl hmem

/-- loading adds only cookies that its lines spell -/
theorem mem_loadLines {now : ℤ} {cookie : Cookie} (lines : List Chars) {jar : CookieJar} {loaded : ℕ}
    (h : cookie ∈ (CookieJar.loadLines now lines jar loaded).2.cookies.values) :
    cookie ∈ jar.cookies.values ∨ ∃ line ∈ lines, parseStoreLine line = some cookie := by
  have hlater : ∀ {line rest}, (∃ other ∈ rest, parseStoreLine other = some cookie) →
      ∃ other ∈ line :: rest, parseStoreLine other = some cookie := by
    rintro line rest ⟨other, hmem, hother⟩
    exact ⟨other, List.mem_cons_of_mem line hmem, hother⟩
  induction lines generalizing jar loaded with
  | nil => exact .inl h
  | cons line rest ih =>
    rw [CookieJar.loadLines] at h
    split at h
    · exact (ih h).imp_right hlater
    · rename_i read hread
      split_ifs at h
      · exact (ih h).imp_right hlater
      · exact .inl h
      · rcases ih h with hmem | hmem
        · rcases mem_values_insert hmem with rfl | hmem
          · exact .inr ⟨line, List.mem_cons_self, hread⟩
          · exact .inl hmem
        · exact .inr (hlater hmem)

theorem mem_loadStoreText {jar : CookieJar} {text : Chars} {now : ℤ} {cookie : Cookie}
    (h : cookie ∈ (jar.loadStoreText text now).2.cookies.values) :
    cookie ∈ jar.cookies.values ∨ ∃ line ∈ text.lines.tail, parseStoreLine line = some cookie := by
  rw [CookieJar.loadStoreText] at h
  cases hlines : text.lines with
  | nil =>
    rw [hlines] at h
    exact .inl h
  | cons first rest =>
    simp only [hlines] at h
    split_ifs at h
    · exact .inl h
    · exact mem_loadLines rest h

/-- the lines of a store are those of cookies of the jar -/
theorem mem_lines_toStoreText {jar : CookieJar} {now : ℤ} {line : Chars} (h : line ∈ (jar.toStoreText now).lines.tail) :
    ∃ cookie ∈ jar.cookies.values, ∃ expiry, cookie.expiresAt = some expiry ∧ line = cookie.storeLine expiry := by
  rw [lines_toStoreText, List.tail_cons] at h
  obtain ⟨cookie, hmem, hline⟩ := List.mem_filterMap.1 h
  obtain ⟨expiry, hexpiry, rfl⟩ := Option.map_eq_some_iff.1 hline
  exact ⟨cookie, hmem, expiry, (Option.filter_eq_some_iff.1 hexpiry).1, rfl⟩

/-- what a jar writes is stored by whoever stored the jar -/
theorem storeSetBy_toStoreText {jar : CookieJar} {sets : List (SetRecord Url)} (now : ℤ)
    (h : ∀ cookie ∈ jar.cookies.values, SetBy fields sets cookie) : StoreSetBy fields sets (jar.toStoreText now) := by
  intro line hline read hread
  obtain ⟨cookie, hmem, expiry, hexpiry, rfl⟩ := mem_lines_toStoreText hline
  obtain rfl := parseStoreLine_storeLine hexpiry hread
  exact h _ hmem

/-! ## Runs -/

theorem Profile.Inv.start (limits : CookieLimits) : (Profile.start limits : Profile Url).Inv fields where
  jar := by
    intro cookie hmem
    cases hmem
  saved := by
    intro text hmem
    cases hmem

theorem Profile.Inv.step {profile : Profile Url} (hinv : profile.Inv fields) (act : ProfileAct Url) :
    (profile.step fields act).Inv fields := by
  cases act with
  | set origin field now =>
    have hsub : ∀ record ∈ profile.sets, record ∈ (profile.step fields (.set origin field now)).sets :=
      fun record hmem => List.mem_cons_of_mem _ hmem
    refine ⟨?_, ?_⟩
    · intro cookie hmem
      rcases mem_setCookieAt hmem with hmem | hstored
      · exact (hinv.jar cookie hmem).mono hsub
      · exact ⟨_, List.mem_cons_self, hstored⟩
    · intro text hmem line hline cookie hread
      exact (hinv.saved text hmem line hline cookie hread).mono hsub
  | purge now => exact ⟨fun cookie hmem => hinv.jar cookie (mem_values_retain hmem), hinv.saved⟩
  | save now =>
    refine ⟨hinv.jar, ?_⟩
    intro text hmem
    rcases List.mem_cons.1 hmem with rfl | hmem
    · exact storeSetBy_toStoreText now hinv.jar
    · exact hinv.saved text hmem
  | load index now =>
    simp only [Profile.step]
    split
    · exact hinv
    · rename_i text htext
      refine ⟨?_, hinv.saved⟩
      intro cookie hmem
      rcases mem_loadStoreText hmem with hmem | ⟨line, hline, hread⟩
      · exact hinv.jar cookie hmem
      · exact hinv.saved text (List.mem_of_getElem? htext) line hline cookie hread
  | restart limits =>
    refine ⟨?_, hinv.saved⟩
    intro cookie hmem
    cases hmem

theorem Profile.Inv.of_reachable {profile : Profile Url} (hrun : profile.Reachable fields) : profile.Inv fields := by
  induction hrun with
  | start limits => exact .start limits
  | step act _ ih => exact ih.step act

/-! ## What is sent -/

/-- the `Domain` attribute of a field that its host may set covers no IP literal but that host -/
def SetRecord.KeepsToLiteral (fields : UrlFields Url) (record : SetRecord Url) : Prop :=
  ∀ domain setter literal, domainAttribute record.field = some domain → record.host fields = some setter →
    domainMatches setter domain = true → isIpLiteral literal = true → domainMatches literal domain = true →
      literal = setter

/-- a cookie that the record stored may go to a host at a URL and a time -/
structure SentRightly (fields : UrlFields Url) (record : SetRecord Url) (url : Url) (host : Chars) (now : ℤ)
    (cookie : Cookie) : Prop where
  stored : record.Stored fields cookie
  hostOnly : domainAttribute record.field = none → record.host fields = some host
  domain : ∀ domain, domainAttribute record.field = some domain →
    HostWithin host domain ∧ ∃ setter, record.host fields = some setter ∧ HostWithin setter domain
  secure : cookie.secure = true → fields.scheme url = "https".toList
  live : ∀ expiry, cookie.expiresAt = some expiry → now < expiry
  path : PathWithin (normalizedRequestPath (fields.path url)) cookie.path

theorem sentRightly_of_matching {jar : CookieJar} {record : SetRecord Url} {url : Url} {host : Chars} {now : ℤ}
    {cookie : Cookie} (hstored : record.Stored fields cookie) (hmatch : cookie ∈ jar.matching fields url host now) :
    SentRightly fields record url host now cookie := by
  obtain ⟨-, hlive, hsecure, hsent, hpath⟩ := mem_matching.1 hmatch
  obtain ⟨parsed, hparsed, rfl⟩ := hstored
  obtain ⟨setter, hsetter, hscope⟩ := parse_scoped hparsed
  obtain ⟨hhost, hdomain⟩ := sentTo_scoped hscope hsent
  refine ⟨⟨parsed, hparsed, rfl⟩, ?_, ?_, hsecure, ?_, hpath⟩
  · intro hnone
    rw [SetRecord.host, hsetter, hhost hnone]
  · intro domain hname
    exact ⟨(hdomain domain hname).1, setter, hsetter, (hdomain domain hname).2⟩
  · intro expiry hexpiry
    rw [Cookie.isLive, hexpiry] at hlive
    exact of_decide_eq_true hlive

/-- a literal host is the setter of what it receives -/
theorem SentRightly.literal {record : SetRecord Url} {url : Url} {host : Chars} {now : ℤ} {cookie : Cookie}
    (h : SentRightly fields record url host now cookie) (hkeeps : record.KeepsToLiteral fields)
    (hliteral : isIpLiteral host = true) : record.host fields = some host := by
  cases hdomain : domainAttribute record.field with
  | none => exact h.hostOnly hdomain
  | some domain =>
    obtain ⟨hhost, setter, hsetter, hwithin⟩ := h.domain domain hdomain
    have heq : host = setter :=
      hkeeps domain setter host hdomain hsetter (domainMatches_iff.2 hwithin) hliteral (domainMatches_iff.2 hhost)
    rw [heq]
    exact hsetter

/-- a URL of an example -/
structure Site where
  scheme : Chars
  host : Chars
  path : Chars

/-- the fields of an example URL -/
def siteFields : UrlFields Site := ⟨Site.scheme, fun site => some site.host, fun _ => none, Site.path⟩

/-- a profile that has absorbed one field -/
def absorbed (origin : Site) (field : Chars) : Profile Site :=
  (Profile.start {}).step siteFields (.set origin field 0)

theorem absorbed_reachable (origin : Site) (field : Chars) : (absorbed origin field).Reachable siteFields :=
  .step _ (.start {})

/-- an example URL of a host -/
def siteOf (host : String) : Site := ⟨"http".toList, host.toList, "/".toList⟩

end Render.Net
