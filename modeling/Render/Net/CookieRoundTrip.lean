/-
The store of cookies, there and back.

A jar that was filled by `Set-Cookie` fields holds valid names and expiries of 64 bits, and no more cookies than its limit
(`JarInv`), so every line that it writes is read back as its cookie, and loading the text into an empty jar gives back what was
written (`loadStoreText_toStoreText`).

The lines of any store are loaded one after the other: under a key is the cookie of the last line that spells the key
(`get_loadLines`). A damaged line changes nothing under the keys that it does not spell (`load_damaged`). The first line is
different: a store without its header is not loaded at all.
-/
import Mathlib.Tactic
import Render.Core.Comp
import Render.Net.CookieDates
import Render.Net.CookieRuns

namespace Render.Net

open Render.Core
open Chars

variable {Url : Type} {fields : UrlFields Url}

/-! ## Expiries -/

/-- a number of 64 bits -/
def FitsI64 (n : ℤ) : Prop := -2 ^ 63 ≤ n ∧ n < 2 ^ 63

theorem digits_lt {text : Chars} {n : ℕ} (h : digits text = some n) : n < 10 ^ text.length := by
  have hvalue : ∀ c : Char, c.isDigit = true → c.toNat - '0'.toNat ≤ 9 := by
    intro c hc
    have hbound : c.val ≤ '9'.val := (by simpa [Char.isDigit] using hc : _ ∧ _).2
    have hnat : c.toNat ≤ '9'.toNat := hbound
    have hnine : '9'.toNat = 57 := rfl
    have hzero : '0'.toNat = 48 := rfl
    omega
  have hfold : ∀ (text : Chars) (m : ℕ), text.all Char.isDigit = true →
      text.foldl (fun n c => n * 10 + (c.toNat - '0'.toNat)) m < (m + 1) * 10 ^ text.length := by
    intro text
    induction text with
    | nil => intro m _; simp
    | cons c rest ih =>
      intro m hall
      rw [List.all_cons, Bool.and_eq_true] at hall
      have hc := hvalue c hall.1
      refine (ih _ hall.2).trans_le ?_
      rw [List.length_cons, Nat.pow_succ']
      calc (m * 10 + (c.toNat - '0'.toNat) + 1) * 10 ^ rest.length ≤ ((m + 1) * 10) * 10 ^ rest.length :=
            Nat.mul_le_mul_right _ (by omega)
        _ = (m + 1) * (10 * 10 ^ rest.length) := Nat.mul_assoc _ _ _
  rw [digits.eq_def] at h
  cases text with
  | nil => cases h
  | cons c rest =>
    simp only at h
    split_ifs at h with hall
    obtain rfl := Option.some.inj h
    have hless := hfold (c :: rest) 0 hall
    rwa [Nat.zero_add, Nat.one_mul] at hless

theorem leadingNumber_range {text rest : Chars} {min max : ℕ} {n : ℤ} (h : leadingNumber text min max = some (n, rest)) :
    0 ≤ n ∧ n < 10 ^ max := by
  rw [leadingNumber] at h
  split_ifs at h with hlength
  obtain ⟨number, hdigits, hpair⟩ := Option.map_eq_some_iff.1 h
  obtain ⟨value, hvalue, hcast⟩ := Option.bind_eq_some_iff.1 hdigits
  have hnumber : n = (value : ℤ) := (Prod.mk.inj hpair).1.symm.trans (Option.some.inj hcast).symm
  have hless : value < 10 ^ max := (digits_lt hvalue).trans_le (Nat.pow_le_pow_right (by norm_num) (by omega))
  rw [hnumber]
  exact ⟨Int.natCast_nonneg value, by exact_mod_cast hless⟩

theorem parseTimeToken_nonneg {token : Chars} {time : ℤ × ℤ × ℤ} (h : parseTimeToken token = some time) :
    0 ≤ time.1 ∧ 0 ≤ time.2.1 ∧ 0 ≤ time.2.2 := by
  obtain ⟨⟨hour, _⟩, hhour, h⟩ := Option.bind_eq_some_iff.1 h
  obtain ⟨_, -, h⟩ := Option.bind_eq_some_iff.1 h
  obtain ⟨⟨minute, _⟩, hminute, h⟩ := Option.bind_eq_some_iff.1 h
  obtain ⟨_, -, h⟩ := Option.bind_eq_some_iff.1 h
  obtain ⟨⟨second, _⟩, hsecond, h⟩ := Option.bind_eq_some_iff.1 h
  obtain rfl := Option.some.inj h
  exact ⟨(leadingNumber_range hhour).1, (leadingNumber_range hminute).1, (leadingNumber_range hsecond).1⟩

theorem fullYear_le {year : ℤ} (h : year < 10 ^ 4) : fullYear year ≤ 9999 := by
  unfold fullYear
  split_ifs <;> omega

/-- a date that is read is a number of 64 bits -/
theorem parseCookieDate_fits {value : Chars} {t : ℤ} (h : parseCookieDate value = some t) : FitsI64 t := by
  obtain ⟨time, day, month, year, hnamed, ⟨hday, hday', hyear, hhour, hminute, hsecond⟩, rfl⟩ := parseCookieDate_eq_some.1 h
  obtain ⟨token, -, htoken⟩ := List.exists_of_findSome?_eq_some (congrArg DateFields.time hnamed)
  obtain ⟨token', -, htoken'⟩ := List.exists_of_findSome?_eq_some (congrArg DateFields.year hnamed)
  obtain ⟨part, hpart, hyearPart⟩ := Option.map_eq_some_iff.1 htoken'
  have hyear' : fullYear year ≤ 9999 := fullYear_le (hyearPart ▸ (leadingNumber_range hpart).2)
  obtain ⟨hhour', hminute', hsecond'⟩ := parseTimeToken_nonneg htoken
  have hmonth := namedFields_month (congrArg DateFields.month hnamed)
  have hdays : -140000 ≤ daysFromCivil (fullYear year) month day ∧ daysFromCivil (fullYear year) month day ≤ 3000000 := by
    rw [daysFromCivil_eq, civilDays, daysBeforeMarch, daysBeforeMonth]
    generalize fullYear year = full at hyear hyear'
    split_ifs <;> omega
  unfold secondsOf FitsI64
  omega

/-! ## What a jar holds -/

/-- the name of the field, and an expiry of 64 bits if there is one -/
structure Spelled (name : Chars) (parsed : ParsedCookie) : Prop where
  name : parsed.cookie.name = name
  expires : ∀ t, parsed.expires = some t → FitsI64 t

theorem Spelled.applyAttribute {name host text : Chars} {parsed parsed' : ParsedCookie} (hspelled : Spelled name parsed)
    (h : parsed.applyAttribute host text = .ok parsed') : Spelled name parsed' := by
  simp only [ParsedCookie.applyAttribute, ParsedCookie.applyDomain] at h
  split_ifs at h
  all_goals
    cases h
    first
      | exact ⟨hspelled.name, hspelled.expires⟩
      | exact ⟨hspelled.name, fun t ht => parseCookieDate_fits ht⟩

theorem Spelled.applyAttributes {name host : Chars} {texts : List Chars} {parsed parsed' : ParsedCookie}
    (hspelled : Spelled name parsed)
    (h : texts.foldlM (fun parsed text => ParsedCookie.applyAttribute parsed host text) parsed = .ok parsed') :
    Spelled name parsed' := by
  induction texts generalizing parsed with
  | nil =>
    cases h
    exact hspelled
  | cons text rest ih =>
    rw [List.foldlM_cons] at h
    cases hfirst : parsed.applyAttribute host text with
    | error issue =>
      rw [hfirst] at h
      cases h
    | ok next =>
      rw [hfirst] at h
      exact ih (hspelled.applyAttribute hfirst) h

/-- a cookie that the store can write down -/
structure Storable (cookie : Cookie) : Prop where
  name : validCookieName cookie.name = true
  expiry : ∀ t, cookie.expiresAt = some t → FitsI64 t

theorem Spelled.expiry {name : Chars} {parsed : ParsedCookie} (h : Spelled name parsed) {now t : ℤ}
    (ht : parsed.expiry now = some t) : FitsI64 t := by
  rw [ParsedCookie.expiry] at ht
  split at ht
  · obtain rfl := Option.some.inj ht
    unfold FitsI64
    split_ifs
    · norm_num
    · exact ⟨le_max_left _ _, max_lt (by norm_num) ((min_le_right _ _).trans_lt (by norm_num))⟩
  · exact h.expires t ht

theorem Spelled.finish {name : Chars} {parsed parsed' : ParsedCookie} (hname : validCookieName name = true)
    (hspelled : Spelled name parsed) {now : ℤ} (h : parsed.finish now = .ok parsed') (hlive : parsed'.remove = false) :
    Storable parsed'.cookie := by
  have hvalid : validCookieName parsed.cookie.name = true := hspelled.name ▸ hname
  simp only [ParsedCookie.finish] at h
  split at h
  · cases h
  · split at h
    · rename_i time htime
      split_ifs at h
      · cases h
        cases hlive
      · cases h
        refine ⟨hvalid, fun t ht => ?_⟩
        obtain rfl := Option.some.inj ht
        exact hspelled.expiry htime
    · cases h
      exact ⟨hvalid, by rintro t ⟨⟩⟩

theorem parse_storable {origin : Url} {field : Chars} {byteLimit : ℕ} {now : ℤ} {parsed : ParsedCookie}
    (h : ParsedCookie.parse fields origin field byteLimit now = .ok parsed) (hlive : parsed.remove = false) :
    Storable parsed.cookie := by
  rw [ParsedCookie.parse] at h
  split at h
  · cases h
  · rename_i host hhost
    simp only at h
    split_ifs at h
    split at h
    · cases h
    · rename_i name value hpair
      split_ifs at h with hname
      obtain ⟨read, hread, hfinish⟩ := bind_eq_ok.1 h
      have hplain : Spelled name.trim (ParsedCookie.plain fields origin host name.trim value.trim) := ⟨rfl, by rintro t ⟨⟩⟩
      exact (hplain.applyAttributes hread).finish (by simpa using hname) hfinish hlive

/-- what holds of a jar that fields have filled -/
structure JarInv (jar : CookieJar) : Prop where
  keys : ∀ entry ∈ jar.cookies.entries, entry.1 = entry.2.key
  cookies : ∀ entry ∈ jar.cookies.entries, Storable entry.2
  room : jar.cookies.size ≤ jar.limits.maxCookies

theorem JarInv.withLimits (limits : CookieLimits) : JarInv (.withLimits limits) where
  keys := by rintro entry ⟨⟩
  cookies := by rintro entry ⟨⟩
  room := Nat.zero_le _

theorem JarInv.setCookieAt {jar : CookieJar} (hinv : JarInv jar) (origin : Url) (field : Chars) (now : ℤ) :
    JarInv (jar.setCookieAt fields origin field now).2 := by
  simp only [CookieJar.setCookieAt]
  split
  · exact hinv
  · rename_i parsed hparsed
    split_ifs with hremove hfull
    · refine ⟨fun entry hmem => hinv.keys entry (SortedMap.mem_erase.1 hmem).1,
        fun entry hmem => hinv.cookies entry (SortedMap.mem_erase.1 hmem).1, ?_⟩
      exact (SortedMap.size_retain_le _).trans hinv.room
    · exact hinv
    · have hstorable := parse_storable hparsed (by simpa using hremove)
      refine ⟨fun entry hmem => ?_, fun entry hmem => ?_, ?_⟩
      · rcases SortedMap.mem_insert.1 hmem with rfl | ⟨hmem, -⟩
        · rfl
        · exact hinv.keys entry hmem
      · rcases SortedMap.mem_insert.1 hmem with rfl | ⟨hmem, -⟩
        · exact hstorable
        · exact hinv.cookies entry hmem
      · by_cases hcontains : jar.cookies.contains parsed.cookie.key = true
        · exact (SortedMap.size_insert_of_contains hcontains).trans_le hinv.room
        · have hroom : jar.cookies.size < jar.limits.maxCookies := by simpa [hcontains] using hfull
          exact SortedMap.size_insert_le.trans hroom

/-- the jars that fields fill -/
inductive CookieJar.Filled (fields : UrlFields Url) : CookieJar → Prop
  | withLimits (limits : CookieLimits) : Filled fields (.withLimits limits)
  | setCookieAt {jar : CookieJar} (origin : Url) (field : Chars) (now : ℤ) :
    Filled fields jar → Filled fields (jar.setCookieAt fields origin field now).2

theorem JarInv.of_filled {jar : CookieJar} (h : jar.Filled fields) : JarInv jar := by
  induction h with
  | withLimits limits => exact .withLimits limits
  | setCookieAt origin field now _ ih => exact ih.setCookieAt origin field now

/-! ## Every profile -/

theorem parseStoreLine_storable {line : Chars} {cookie : Cookie} (h : parseStoreLine line = some cookie) :
    Storable cookie := by
  unfold parseStoreLine at h
  split at h
  · obtain ⟨name, -, h⟩ := Option.bind_eq_some_iff.1 h
    split_ifs at h with hname
    simp only [Option.bind_eq_bind, Option.bind_eq_some_iff, Option.some.injEq] at h
    obtain ⟨_, -, _, -, _, -, _, -, _, -, _, -, _, -, t, ht, rfl⟩ := h
    refine ⟨by simpa using hname, fun t' ht' => ?_⟩
    obtain rfl := Option.some.inj ht'
    simp only [parseI64] at ht
    split at ht
    all_goals
      obtain ⟨n, -, hn⟩ := Option.bind_eq_some_iff.1 ht
      split_ifs at hn with hfits
      exact Option.some.inj hn ▸ hfits
  · cases h

theorem JarInv.loadLines {now : ℤ} (lines : List Chars) {jar : CookieJar} {loaded : ℕ} (hinv : JarInv jar) :
    JarInv (CookieJar.loadLines now lines jar loaded).2 := by
  induction lines generalizing jar loaded with
  | nil => exact hinv
  | cons line rest ih =>
    rw [CookieJar.loadLines]
    split
    · exact ih hinv
    · rename_i cookie hread
      split_ifs with hover hfull
      · exact ih hinv
      · exact hinv
      · refine ih ⟨fun entry hmem => ?_, fun entry hmem => ?_, ?_⟩
        · rcases SortedMap.mem_insert.1 hmem with rfl | ⟨hmem, -⟩
          · rfl
          · exact hinv.keys entry hmem
        · rcases SortedMap.mem_insert.1 hmem with rfl | ⟨hmem, -⟩
          · exact parseStoreLine_storable hread
          · exact hinv.cookies entry hmem
        · by_cases hcontains : jar.cookies.contains cookie.key = true
          · exact (SortedMap.size_insert_of_contains hcontains).trans_le hinv.room
          · have hroom : jar.cookies.size < jar.limits.maxCookies := by simpa [hcontains] using hfull
            exact SortedMap.size_insert_le.trans hroom

theorem JarInv.of_reachable {profile : Profile Url} (hrun : profile.Reachable fields) : JarInv profile.jar := by
  induction hrun with
  | start limits => exact .withLimits limits
  | @step profile act _ ih =>
    cases act with
    | set origin field now => exact ih.setCookieAt origin field now
    | purge now =>
      exact ⟨fun entry hmem => ih.keys entry (SortedMap.mem_retain.1 hmem).1,
        fun entry hmem => ih.cookies entry (SortedMap.mem_retain.1 hmem).1, (SortedMap.size_retain_le _).trans ih.room⟩
    | save now => exact ih
    | load index now =>
      simp only [Profile.step]
      split
      · exact ih
      · rw [CookieJar.loadStoreText]
        split
        · exact ih
        · split_ifs
          · exact ih
          · exact ih.loadLines _
    | restart limits => exact .withLimits limits

/-- a field with `SameSite=None` is refused without `Secure` -/
theorem parse_secure {origin : Url} {field : Chars} {byteLimit : ℕ} {now : ℤ} {parsed : ParsedCookie}
    (h : ParsedCookie.parse fields origin field byteLimit now = .ok parsed) (hsite : parsed.cookie.sameSite = some .none) :
    parsed.cookie.secure = true := by
  have hfinish : ∀ {read : ParsedCookie}, read.finish now = .ok parsed → parsed.cookie.secure = true := by
    intro read hread
    simp only [ParsedCookie.finish] at hread
    split_ifs at hread with hinsecure
    split at hread
    · split_ifs at hread <;> (cases hread; simpa [show read.cookie.sameSite = some .none from hsite] using hinsecure)
    · cases hread
      simpa [show read.cookie.sameSite = some .none from hsite] using hinsecure
  rw [ParsedCookie.parse] at h
  split at h
  · cases h
  · simp only at h
    split_ifs at h
    split at h
    · cases h
    · split_ifs at h
      obtain ⟨read, -, hread⟩ := bind_eq_ok.1 h
      exact hfinish hread

/-- **A jar keeps its rules for good.** After any history of a profile, stores written and loaded again under any limits
included: the jar is within its limit, a cookie is under its own key, with a valid name and an expiry of 64 bits, and none
is `SameSite=None` without `Secure`. -/
theorem jar_within {profile : Profile Url} (hrun : profile.Reachable fields) :
    profile.jar.cookies.size ≤ profile.jar.limits.maxCookies ∧ ∀ entry ∈ profile.jar.cookies.entries,
      entry.1 = entry.2.key ∧ Storable entry.2 ∧ (entry.2.sameSite = some .none → entry.2.secure = true) := by
  have hinv := JarInv.of_reachable hrun
  refine ⟨hinv.room, fun entry hmem => ⟨hinv.keys entry hmem, hinv.cookies entry hmem, fun hsite => ?_⟩⟩
  obtain ⟨record, -, parsed, hparsed, hcookie⟩ := (Profile.Inv.of_reachable hrun).jar entry.2 (List.mem_map_of_mem hmem)
  rw [← hcookie] at hsite ⊢
  exact parse_secure hparsed hsite

theorem jar_within_absorbed : (absorbed (siteOf "example.org") "id=7; Max-Age=9".toList).jar.cookies.size ≤ 4096 :=
  (jar_within (absorbed_reachable (siteOf "example.org") "id=7; Max-Age=9".toList)).1

/-! ## Loading -/

/-- the cookie that a line of a store contributes -/
def liveCookie (now : ℤ) (line : Chars) : Option Cookie :=
  (parseStoreLine line).filter fun cookie => !cookie.expiresAt.all (· ≤ now)

/-- the entries that the lines of a store contribute, in turn -/
def liveEntries (now : ℤ) (lines : List Chars) : List (List Chars × Cookie) :=
  (lines.filterMap (liveCookie now)).map fun cookie => (cookie.key, cookie)

/-- the jar has room for the keys that it holds and that the lines spell -/
def Roomy (jar : CookieJar) (now : ℤ) (lines : List Chars) : Prop :=
  ∃ keys : Finset (List Chars), keys.card ≤ jar.limits.maxCookies ∧ (∀ k ∈ jar.cookies.keys, k ∈ keys) ∧
    ∀ entry ∈ liveEntries now lines, entry.1 ∈ keys

theorem Roomy.tail {jar : CookieJar} {now : ℤ} {line : Chars} {rest : List Chars} (h : Roomy jar now (line :: rest))
    (hskip : liveCookie now line = none) : Roomy jar now rest := by
  rwa [Roomy, liveEntries, List.filterMap_cons_none hskip] at h

/-- a key that a line spells is held already, or there is room for it -/
theorem Roomy.not_full {jar : CookieJar} {now : ℤ} {lines : List Chars} (h : Roomy jar now lines) (key : List Chars)
    (hkey : key ∈ (liveEntries now lines).map Prod.fst) :
    ¬ ((!jar.cookies.contains key && jar.limits.maxCookies ≤ jar.cookies.size) = true) := by
  obtain ⟨keys, hcard, hheld, hspelled⟩ := h
  intro hfull
  simp only [Bool.and_eq_true, Bool.not_eq_true', decide_eq_true_eq] at hfull
  obtain ⟨hnew, hsize⟩ := hfull
  have hnodup : (key :: jar.cookies.keys).Nodup := by
    refine List.nodup_cons.2 ⟨fun hmem => ?_, SortedMap.keys_nodup⟩
    obtain ⟨v, hget⟩ := SortedMap.mem_keys.1 hmem
    rw [SortedMap.contains_eq_isSome, hget] at hnew
    cases hnew
  have hsub : (key :: jar.cookies.keys).toFinset ⊆ keys := by
    intro k hk
    rcases List.mem_cons.1 (List.mem_toFinset.1 hk) with rfl | hk
    · obtain ⟨entry, hmem, rfl⟩ := List.mem_map.1 hkey
      exact hspelled entry hmem
    · exact hheld k hk
  have hle := Finset.card_le_card hsub
  rw [List.toFinset_card_of_nodup hnodup, List.length_cons, SortedMap.length_keys] at hle
  omega

/-- **Lines are loaded one after the other**, below the capacity limit. -/
theorem loadLines_eq {now : ℤ} (lines : List Chars) {jar : CookieJar} {loaded : ℕ} (hroom : Roomy jar now lines) :
    (CookieJar.loadLines now lines jar loaded).2 = { jar with cookies := jar.cookies.insertAll (liveEntries now lines) } := by
  induction lines generalizing jar loaded with
  | nil => rfl
  | cons line rest ih =>
    rw [CookieJar.loadLines]
    cases hread : parseStoreLine line with
    | none =>
      have hskip : liveCookie now line = none := by rw [liveCookie, hread]; rfl
      rw [liveEntries, List.filterMap_cons_none hskip]
      exact ih (hroom.tail hskip)
    | some cookie =>
      dsimp only
      by_cases hover : cookie.expiresAt.all (· ≤ now) = true
      · have hskip : liveCookie now line = none := by rw [liveCookie, hread, Option.filter_some_neg (by simpa using hover)]
        rw [if_pos hover, liveEntries, List.filterMap_cons_none hskip]
        exact ih (hroom.tail hskip)
      · have hlive : liveCookie now line = some cookie := by rw [liveCookie, hread, Option.filter_some_pos (by simpa using hover)]
        have hentries : liveEntries now (line :: rest) = (cookie.key, cookie) :: liveEntries now rest := by
          rw [liveEntries, List.filterMap_cons_some hlive, List.map_cons]
          rfl
        have hfull : ¬ ((!jar.cookies.contains cookie.key && jar.limits.maxCookies ≤ jar.cookies.size) = true) :=
          hroom.not_full cookie.key (by rw [hentries]; exact List.mem_cons_self)
        have hroom' : Roomy { jar with cookies := jar.cookies.insert cookie.key cookie } now rest := by
          obtain ⟨keys, hcard, hheld, hspelled⟩ := hroom
          rw [hentries] at hspelled
          refine ⟨keys, hcard, fun k hk => ?_, fun entry hmem => hspelled entry (List.mem_cons_of_mem _ hmem)⟩
          rcases SortedMap.mem_keys_insert.1 hk with rfl | hk
          · exact hspelled _ List.mem_cons_self
          · exact hheld k hk
        rw [if_neg hover, if_neg hfull, hentries]
        exact (ih hroom').trans rfl

/-! ## There and back -/

/-- a line gives back its cookie -/
theorem parseStoreLine_of_storable {cookie : Cookie} {expiry : ℤ} (h : Storable cookie) (hexpiry : cookie.expiresAt = some expiry) :
    parseStoreLine (cookie.storeLine expiry) = some cookie := by
  have hfits : -2 ^ 63 ≤ expiry ∧ expiry < 2 ^ 63 := h.expiry expiry hexpiry
  rw [parseStoreLine, splitOn_storeLine, Cookie.storeFields]
  simp only [unescapeField_escapeField, parseFlag_flag, parseSameSiteField_sameSiteField, Option.bind_eq_bind,
    Option.bind_some, parseI64_ofI64_eq, if_pos hfits, h.name, Bool.not_true, Bool.false_eq_true, if_false]
  rw [← hexpiry]

theorem liveCookie_storeLine {cookie : Cookie} {now expiry : ℤ} (h : Storable cookie) (hexpiry : cookie.expiresAt = some expiry)
    (hlive : now < expiry) : liveCookie now (cookie.storeLine expiry) = some cookie := by
  rw [liveCookie, parseStoreLine_of_storable h hexpiry]
  refine Option.filter_some_pos ?_
  rw [hexpiry]
  simpa using hlive

/-- the cookies of a jar that a store keeps at a time -/
def CookieJar.persistent (jar : CookieJar) (now : ℤ) : SortedMap (List Chars) Cookie :=
  jar.cookies.retain fun _ cookie => cookie.expiresAt.any (now < ·)

/-- the lines of a jar spell its persistent cookies, in their order -/
theorem liveEntries_toStoreText {jar : CookieJar} (hinv : JarInv jar) (now : ℤ) :
    liveEntries now (jar.cookies.values.filterMap (Cookie.liveLine now)) = (jar.persistent now).entries := by
  have hall : ∀ entries : List (List Chars × Cookie), (∀ entry ∈ entries, entry.1 = entry.2.key ∧ Storable entry.2) →
      liveEntries now ((entries.map Prod.snd).filterMap (Cookie.liveLine now)) =
        entries.filter fun entry => entry.2.expiresAt.any (now < ·) := by
    intro entries hentries
    induction entries with
    | nil => rfl
    | cons entry rest ih =>
      obtain ⟨hkey, hstorable⟩ := hentries entry List.mem_cons_self
      have hrest := ih fun other hmem => hentries other (List.mem_cons_of_mem _ hmem)
      rw [List.map_cons]
      by_cases hlive : entry.2.expiresAt.any (now < ·) = true
      · obtain ⟨expiry, hexpiry, hless⟩ := (Option.any_eq_true _ _).1 hlive
        have hline : entry.2.liveLine now = some (entry.2.storeLine expiry) := by
          rw [Cookie.liveLine, hexpiry, Option.filter_some, if_pos hless]
          rfl
        have hcookie := liveCookie_storeLine hstorable hexpiry (of_decide_eq_true hless)
        rw [List.filterMap_cons_some hline, liveEntries, List.filterMap_cons_some hcookie, List.map_cons, ← liveEntries, hrest,
          List.filter_cons, if_pos hlive, ← hkey]
      · have hline : entry.2.liveLine now = none := by
          rw [Cookie.liveLine, Option.map_eq_none_iff, Option.filter_eq_none_iff]
          intro expiry hexpiry hless
          exact hlive ((Option.any_eq_true _ _).2 ⟨expiry, hexpiry, hless⟩)
        rw [List.filterMap_cons_none hline, hrest, List.filter_cons, if_neg hlive]
  exact hall _ fun entry hmem => ⟨hinv.keys entry hmem, hinv.cookies entry hmem⟩

/-- **A store gives back what was written.** -/
theorem loadStoreText_toStoreText {jar : CookieJar} (hinv : JarInv jar) (now : ℤ) :
    ((CookieJar.withLimits jar.limits).loadStoreText (jar.toStoreText now) now).2 = ⟨jar.persistent now, jar.limits⟩ := by
  have hentries := liveEntries_toStoreText hinv now
  have hroom : Roomy (.withLimits jar.limits) now (jar.cookies.values.filterMap (Cookie.liveLine now)) := by
    refine ⟨(jar.persistent now).keys.toFinset, ?_, by rintro k ⟨⟩, fun entry hmem => ?_⟩
    · rw [List.toFinset_card_of_nodup SortedMap.keys_nodup, SortedMap.length_keys]
      exact (SortedMap.size_retain_le _).trans hinv.room
    · rw [hentries] at hmem
      exact List.mem_toFinset.2 (List.mem_map_of_mem hmem)
  rw [CookieJar.loadStoreText, lines_toStoreText]
  dsimp only
  rw [if_neg (not_not.2 rfl), loadLines_eq _ hroom, hentries]
  refine congrArg (CookieJar.mk · jar.limits) (SortedMap.ext ?_)
  exact (SortedMap.insertAll_sorted (by simpa [CookieJar.withLimits, SortedMap.empty] using (jar.persistent now).sorted)).trans rfl

/-! ## Damage -/

/-- a line spells a live cookie with a key -/
def Spells (now : ℤ) (line : Chars) (key : List Chars) : Prop := ∃ cookie, liveCookie now line = some cookie ∧ cookie.key = key

/-- what is under a key after some lines, from what was there before -/
def foundUnder (now : ℤ) (key : List Chars) (lines : List Chars) (found : Option Cookie) : Option Cookie :=
  SortedMap.lastValue key (liveEntries now lines) found

theorem foundUnder_skip {now : ℤ} {key : List Chars} {line : Chars} (h : ¬ Spells now line key) (rest : List Chars)
    (found : Option Cookie) : foundUnder now key (line :: rest) found = foundUnder now key rest found := by
  unfold foundUnder SortedMap.lastValue liveEntries
  cases hlive : liveCookie now line with
  | none => rw [List.filterMap_cons_none hlive]
  | some cookie =>
    have hkey : cookie.key ≠ key := fun heq => h ⟨cookie, hlive, heq⟩
    rw [List.filterMap_cons_some hlive, List.map_cons, List.foldl_cons, if_neg hkey]

theorem foundUnder_cons (now : ℤ) (key : List Chars) (line : Chars) (rest : List Chars) (found : Option Cookie) :
    foundUnder now key (line :: rest) found = foundUnder now key rest (foundUnder now key [line] found) := by
  unfold foundUnder SortedMap.lastValue liveEntries
  rw [← List.foldl_append, ← List.map_append, ← List.filterMap_append, List.singleton_append]

/-- a line that does not spell the key may be replaced -/
theorem foundUnder_set {now : ℤ} {key : List Chars} {lines : List Chars} {i : ℕ} {damaged : Chars}
    (hold : ∀ line, lines[i]? = some line → ¬ Spells now line key) (hnew : ¬ Spells now damaged key) (found : Option Cookie) :
    foundUnder now key (lines.set i damaged) found = foundUnder now key lines found := by
  induction lines generalizing i found with
  | nil => rfl
  | cons line rest ih =>
    cases i with
    | zero => rw [List.set_cons_zero, foundUnder_skip hnew, foundUnder_skip (hold line rfl)]
    | succ i =>
      rw [List.set_cons_succ, foundUnder_cons, foundUnder_cons _ _ line rest]
      exact ih (fun other hother => hold other hother) _

/-- **Under a key is the cookie of the last line that spells it.** -/
theorem get_loadLines {now : ℤ} {lines : List Chars} {jar : CookieJar} {loaded : ℕ} (hroom : Roomy jar now lines) (key : List Chars) :
    (CookieJar.loadLines now lines jar loaded).2.cookies.get key = foundUnder now key lines (jar.cookies.get key) := by
  rw [loadLines_eq lines hroom]
  exact SortedMap.get_insertAll (liveEntries now lines) key

/-- **A damaged line disturbs no other.** Behind the header, under the keys that the line did and does not spell, and below the
capacity limit. -/
theorem load_damaged {jar : CookieJar} {text text' damaged : Chars} {i : ℕ} {now : ℤ} (hbehind : i ≠ 0)
    (hset : text'.lines = text.lines.set i damaged) (hroom : Roomy jar now text.lines.tail)
    (hroom' : Roomy jar now text'.lines.tail) {key : List Chars}
    (hold : ∀ line, text.lines[i]? = some line → ¬ Spells now line key) (hnew : ¬ Spells now damaged key) :
    (jar.loadStoreText text' now).2.cookies.get key = (jar.loadStoreText text now).2.cookies.get key := by
  obtain ⟨i, rfl⟩ := Nat.exists_eq_succ_of_ne_zero hbehind
  unfold CookieJar.loadStoreText
  cases hlines : text.lines with
  | nil =>
    rw [hset, hlines]
    rfl
  | cons first rest =>
    rw [hlines] at hset hroom hold
    rw [hset, List.set_cons_succ, List.tail_cons] at hroom'
    rw [hset, List.set_cons_succ]
    have hrest : ∀ line, rest[i]? = some line → ¬ Spells now line key := hold
    dsimp only
    split_ifs
    · rfl
    · rw [List.tail_cons] at hroom
      rw [get_loadLines hroom, get_loadLines hroom']
      exact foundUnder_set hrest hnew _

/-- **The store of cookies.** What a jar that fields have filled writes is read back as its persistent cookies that are live, with
all their fields, and a damaged line of a store disturbs no other line. -/
theorem cookie_store {jar : CookieJar} (hfilled : jar.Filled fields) (now : ℤ) :
    ((CookieJar.withLimits jar.limits).loadStoreText (jar.toStoreText now) now).2 = ⟨jar.persistent now, jar.limits⟩ ∧
    ∀ (other : CookieJar) (text text' damaged : Chars) (i : ℕ), i ≠ 0 → text'.lines = text.lines.set i damaged →
      Roomy other now text.lines.tail → Roomy other now text'.lines.tail →
      ∀ key, (∀ line, text.lines[i]? = some line → ¬ Spells now line key) → ¬ Spells now damaged key →
        (other.loadStoreText text' now).2.cookies.get key = (other.loadStoreText text now).2.cookies.get key :=
  ⟨loadStoreText_toStoreText (.of_filled hfilled) now,
    fun _ _ _ _ _ hbehind hset hroom hroom' _ hold hnew => load_damaged hbehind hset hroom hroom' hold hnew⟩

/-- a store of some lines -/
def storeOf (header : Chars) (lines : List Chars) : Chars := header ++ lines.flatMap ('\n' :: ·)

/-- lines of a store, and their keys -/
def sampleLine : Chars := "id\t7\texample.org\t/\t1\t0\t0\t-\t109".toList

def sampleKey : List Chars := ["example.org".toList, "/".toList, "id".toList]

def otherLine : Chars := "k\tv\texample.org\t/\t1\t0\t0\t-\t109".toList

/-- another value under the first key -/
def impostorLine : Chars := "id\t8\texample.org\t/\t1\t0\t0\t-\t109".toList

def otherKey : List Chars := ["example.org".toList, "/".toList, "k".toList]

theorem roomy_sample {lines : List Chars} (h : ∀ entry ∈ liveEntries 5 lines, entry.1 = sampleKey ∨ entry.1 = otherKey) :
    Roomy (.withLimits {}) 5 lines :=
  ⟨{sampleKey, otherKey}, by decide +kernel, by rintro k ⟨⟩, fun entry hmem => by
    rw [Finset.mem_insert, Finset.mem_singleton]
    exact h entry hmem⟩

/-- a jar of one cookie, and a store whose second cookie is damaged -/
theorem cookie_store_sample :
    ((CookieJar.withLimits {}).loadStoreText ((absorbed (siteOf "example.org") "id=7; Max-Age=9".toList).jar.toStoreText 5) 5).2 =
      ⟨(absorbed (siteOf "example.org") "id=7; Max-Age=9".toList).jar.persistent 5, {}⟩ ∧
    ((CookieJar.withLimits {}).loadStoreText (storeOf storeHeader [sampleLine, "k\tv".toList]) 5).2.cookies.get sampleKey =
      ((CookieJar.withLimits {}).loadStoreText (storeOf storeHeader [sampleLine, otherLine]) 5).2.cookies.get sampleKey := by
  have hfilled : (absorbed (siteOf "example.org") "id=7; Max-Age=9".toList).jar.Filled siteFields :=
    .setCookieAt _ _ _ (.withLimits {})
  obtain ⟨hback, hdamage⟩ := cookie_store hfilled 5
  have hlines : (storeOf storeHeader [sampleLine, otherLine]).lines = [storeHeader, sampleLine, otherLine] := by decide +kernel
  have hlines' : (storeOf storeHeader [sampleLine, "k\tv".toList]).lines = [storeHeader, sampleLine, "k\tv".toList] := by
    decide +kernel
  have hspells : ∀ line ∈ [otherLine, "k\tv".toList], ¬ Spells 5 line sampleKey := by
    have hkeys : ∀ line ∈ [otherLine, "k\tv".toList], (liveCookie 5 line).map Cookie.key ≠ some sampleKey := by decide +kernel
    rintro line hline ⟨cookie, hlive, hkey⟩
    exact hkeys line hline (by rw [hlive, Option.map_some, hkey])
  refine ⟨hback, hdamage _ _ _ "k\tv".toList 2 (by decide) (by rw [hlines, hlines']; rfl) ?_ ?_ sampleKey ?_ ?_⟩
  · rw [hlines]
    exact roomy_sample (by decide +kernel)
  · rw [hlines']
    exact roomy_sample (by decide +kernel)
  · intro line hline
    rw [hlines] at hline
    obtain rfl := Option.some.inj hline
    exact hspells _ List.mem_cons_self
  · exact hspells _ (List.mem_cons_of_mem _ List.mem_cons_self)

/-- **A damaged header takes every cookie with it**, and a line that is damaged into the key of another one replaces its cookie. -/
theorem cookie_store_not :
    (¬ ∀ (text text' damaged : Chars) (i : ℕ), text'.lines = text.lines.set i damaged →
      Roomy (.withLimits {}) 5 text.lines.tail → Roomy (.withLimits {}) 5 text'.lines.tail →
      ∀ key, (∃ j line, j ≠ i ∧ text.lines[j]? = some line ∧ Spells 5 line key) →
        ((CookieJar.withLimits {}).loadStoreText text' 5).2.cookies.get key =
          ((CookieJar.withLimits {}).loadStoreText text 5).2.cookies.get key) ∧
    ¬ ∀ (text text' damaged : Chars) (i : ℕ), i ≠ 0 → text'.lines = text.lines.set i damaged →
      Roomy (.withLimits {}) 5 text.lines.tail → Roomy (.withLimits {}) 5 text'.lines.tail →
      ∀ key, (∃ j line, j ≠ i ∧ text.lines[j]? = some line ∧ Spells 5 line key) →
        ((CookieJar.withLimits {}).loadStoreText text' 5).2.cookies.get key =
          ((CookieJar.withLimits {}).loadStoreText text 5).2.cookies.get key := by
  obtain ⟨cookie, hlive, hkey⟩ : ∃ cookie, liveCookie 5 sampleLine = some cookie ∧ cookie.key = sampleKey :=
    Option.map_eq_some_iff.1 (by decide +kernel)
  have hheader : ((CookieJar.withLimits {}).loadStoreText (storeOf "#".toList [sampleLine]) 5).2.cookies.get sampleKey ≠
      ((CookieJar.withLimits {}).loadStoreText (storeOf storeHeader [sampleLine]) 5).2.cookies.get sampleKey := by decide +kernel
  have hreplaced : ((CookieJar.withLimits {}).loadStoreText (storeOf storeHeader [sampleLine, impostorLine]) 5).2.cookies.get
        sampleKey ≠
      ((CookieJar.withLimits {}).loadStoreText (storeOf storeHeader [sampleLine, otherLine]) 5).2.cookies.get sampleKey := by
    decide +kernel
  refine ⟨fun h => hheader ?_, fun h => hreplaced ?_⟩
  · exact h _ _ "#".toList 0 (by decide +kernel) (roomy_sample (by decide +kernel)) (roomy_sample (by decide +kernel)) sampleKey
      ⟨1, sampleLine, by decide, by decide +kernel, cookie, hlive, hkey⟩
  · exact h _ _ impostorLine 2 (by decide) (by decide +kernel) (roomy_sample (by decide +kernel))
      (roomy_sample (by decide +kernel)) sampleKey ⟨1, sampleLine, by decide, by decide +kernel, cookie, hlive, hkey⟩

end Render.Net
