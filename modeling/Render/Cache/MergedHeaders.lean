/-
The header list of a merged response (`merge_headers` of `render-browser/src/cache.rs`).

Each line of the 304 replaces the stored lines of its name, and with them the lines of the 304 that came before it. So of
several lines of one name only the last is left: the merged list has the lines of the 304 exactly when no name that is not
excluded comes twice in it (`merge_headers_iff`). Then a `no-store` in any `Cache-Control` line makes the entry leave the
cache. With two such lines the first is lost, and the entry stays (`merge_headers_not`).
-/
import Render.Cache.Revalidation
import Render.Core.Assoc

namespace Render.Cache

open Render.Core Render.Net HttpCache

variable {Url : Type} {parts : UrlParts Url} {c : HttpCache Url} {previous update : List Header} {header : Header}

/-! ## Names -/

/-- the name of a field, whatever its case -/
def fieldName (header : Header) : Chars := Chars.toAsciiLowercase header.name.toList

theorem eqIgnoreAsciiCase_iff {a b : String} :
    eqIgnoreAsciiCase a b = true ↔ Chars.toAsciiLowercase a.toList = Chars.toAsciiLowercase b.toList := by
  rw [eqIgnoreAsciiCase, Chars.eqIgnoreAsciiCase, decide_eq_true_eq]

theorem eqIgnoreAsciiCase_eq (header : Header) (name : String) :
    eqIgnoreAsciiCase header.name name = decide (fieldName header = Chars.toAsciiLowercase name.toList) := rfl

theorem isKept_eq {a b : Header} (h : fieldName a = fieldName b) : isKept a.name = isKept b.name := by
  unfold isKept
  rw [show Chars.toAsciiLowercase a.name.toList = Chars.toAsciiLowercase b.name.toList from h]

/-- the lines of a 304 that are merged -/
def replacements (update : List Header) : List Header := update.filter fun header => !isKept header.name

/-- a line of the 304 replaces by its name -/
theorem mergeHeader_eq (merged : List Header) (replacement : Header) : mergeHeader merged replacement =
    if isKept replacement.name then merged else replaceKey fieldName merged replacement := by
  unfold mergeHeader replaceKey
  split_ifs with hkept
  · rfl
  · simp only [eqIgnoreAsciiCase_eq, decide_not]
    rfl

theorem mergeHeaders_eq (previous update : List Header) :
    mergeHeaders previous update = (replacements update).foldl (replaceKey fieldName) previous := by
  unfold mergeHeaders replacements
  rw [List.foldl_filter]
  congr 1
  funext merged replacement
  rw [mergeHeader_eq]
  cases isKept replacement.name <;> rfl

/-! ## The lines of the 304 -/

/-- every field of the update that is not excluded has exactly its lines there, and the other stored lines are as they were -/
structure MergedByName (previous update merged : List Header) : Prop where
  replaced : ∀ line ∈ update, isKept line.name = false →
    merged.filter (fun header => eqIgnoreAsciiCase header.name line.name) =
      update.filter fun header => eqIgnoreAsciiCase header.name line.name
  others : merged.filter (fun header => isKept header.name || !hasHeader update header.name) =
    previous.filter fun header => isKept header.name || !hasHeader update header.name

/-- no name comes twice among the lines that are merged -/
def NamesOnce (update : List Header) : Prop :=
  update.Pairwise fun a b => isKept a.name = false → eqIgnoreAsciiCase a.name b.name = false

/-- the lines that are merged, of the name of one of them -/
theorem replacements_filter {line : Header} (hline : isKept line.name = false) (update : List Header) :
    (replacements update).filter (fun header => fieldName header = fieldName line) =
      update.filter fun header => fieldName header = fieldName line := by
  rw [replacements, List.filter_filter]
  refine List.filter_congr fun header _ => ?_
  by_cases hname : fieldName header = fieldName line
  · simp [hname, isKept_eq hname, hline]
  · simp [hname]

theorem namesOnce_iff : NamesOnce update ↔ (replacements update).Pairwise fun a b => fieldName a ≠ fieldName b := by
  unfold NamesOnce replacements
  rw [List.pairwise_filter]
  refine List.Pairwise.iff fun a b => ?_
  rw [eqIgnoreAsciiCase_eq, decide_eq_false_iff_not, Bool.not_eq_eq_eq_not, Bool.not_true]
  change (isKept a.name = false → ¬ fieldName a = fieldName b) ↔ _
  constructor
  · intro h ha _
    exact h ha
  · intro h ha hname
    exact h ha (by rw [← isKept_eq hname, ha]; rfl) hname

/-- the lines of other names stay, whatever the 304 is -/
theorem mergeHeaders_others (previous update : List Header) :
    (mergeHeaders previous update).filter (fun header => isKept header.name || !hasHeader update header.name) =
      previous.filter fun header => isKept header.name || !hasHeader update header.name := by
  rw [mergeHeaders_eq]
  refine filter_foldl_other fieldName (fun line hline header hname => ?_) previous
  obtain ⟨hmem, hkept⟩ := List.mem_filter.1 hline
  have hhas : hasHeader update header.name = true :=
    List.any_eq_true.2 ⟨line, hmem, eqIgnoreAsciiCase_iff.2 hname.symm⟩
  rw [isKept_eq hname, hhas]
  simpa using hkept

theorem mergedByName_iff (previous update : List Header) :
    MergedByName previous update (mergeHeaders previous update) ↔ NamesOnce update := by
  rw [namesOnce_iff, ← foldl_replaceKey_iff fieldName _ previous, ← mergeHeaders_eq]
  constructor
  · intro h line hline
    obtain ⟨hmem, hkept⟩ := List.mem_filter.1 hline
    rw [replacements_filter (by simpa using hkept)]
    exact h.replaced line hmem (by simpa using hkept)
  · intro h
    refine ⟨fun line hmem hkept => ?_, mergeHeaders_others previous update⟩
    have hline : line ∈ replacements update := List.mem_filter.2 ⟨hmem, by rw [hkept]; rfl⟩
    exact (h line hline).trans (replacements_filter hkept update)

/-! ## A line that forbids to store -/

/-- the name of a directive -/
def directiveName (directive : Chars) : Chars :=
  let directive := Chars.trim directive
  match Chars.splitOnce '=' directive with
  | some (name, _) => Chars.trim name
  | none => directive

/-- a `Cache-Control` line with the directive `no-store` -/
def SaysNoStore (header : Header) : Prop :=
  eqIgnoreAsciiCase header.name "cache-control" = true ∧ ∃ value, fromUtf8 header.value = some value ∧
    ∃ directive ∈ value.toList.splitOn ',', Chars.eqIgnoreAsciiCase (directiveName directive) "no-store".toList = true

theorem cacheDirective_noStore {directive : Chars}
    (h : Chars.eqIgnoreAsciiCase (directiveName directive) "no-store".toList = true) (maxAge : Option Duration) :
    cacheDirective maxAge directive = .error .noStore := by
  unfold cacheDirective
  unfold directiveName at h
  simp only at h ⊢
  cases hsplit : Chars.splitOnce '=' (Chars.trim directive) with
  | none =>
    simp only [hsplit] at h ⊢
    split_ifs with hempty
    · rw [List.isEmpty_iff.1 hempty] at h
      cases h
    · rfl
  | some parts =>
    obtain ⟨name, value⟩ := parts
    simp only [hsplit] at h ⊢
    split_ifs with hempty
    · rw [List.isEmpty_iff.1 hempty] at hsplit
      cases hsplit
    · rfl

/-- a step that fails from every state makes the whole fail -/
theorem foldlM_error {ε α σ : Type} {f : σ → α → Except ε σ} {l : List α} {x : α} (hx : x ∈ l)
    (h : ∀ s, ∃ e, f s x = .error e) (s : σ) : ∃ e, l.foldlM f s = .error e := by
  induction l generalizing s with
  | nil => cases hx
  | cons y l ih =>
    rw [List.foldlM_cons]
    cases hy : f s y with
    | error e => exact ⟨e, rfl⟩
    | ok s' =>
      rcases List.mem_cons.1 hx with rfl | hmem
      · obtain ⟨e, he⟩ := h s
        rw [hy] at he
        cases he
      · exact ih hmem s'

theorem cacheControlPolicy_noStore {headers : List Header} (hmem : header ∈ headers) (h : SaysNoStore header) :
    ∃ reason, cacheControlPolicy headers = .skip reason := by
  obtain ⟨hname, value, hvalue, directive, hdirective, hno⟩ := h
  have hline : ∀ maxAge, ∃ reason, cacheControlHeader maxAge header = .error reason := by
    intro maxAge
    rw [cacheControlHeader, if_neg (by simpa using hname), hvalue]
    exact foldlM_error hdirective (fun maxAge => ⟨_, cacheDirective_noStore hno maxAge⟩) maxAge
  obtain ⟨reason, hreason⟩ := foldlM_error hmem hline none
  exact ⟨reason, by rw [cacheControlPolicy, hreason]⟩

theorem cachePolicy_noStore {request : FetchRequest Url} {response : FetchResponse Url} (hmem : header ∈ response.headers)
    (h : SaysNoStore header) : ∃ reason, cachePolicy parts request response = .skip reason := by
  rw [cachePolicy]
  split
  · exact ⟨_, rfl⟩
  · split_ifs
    · exact ⟨_, rfl⟩
    · exact ⟨_, rfl⟩
    · exact ⟨_, rfl⟩
    · exact ⟨_, rfl⟩
    · exact cacheControlPolicy_noStore hmem h

/-- a merged response that may not be stored makes its entry leave the cache -/
theorem shrunk_of_skip {order : MapOrder Url} {request : FetchRequest Url} {response merged : FetchResponse Url}
    {now : Instant} {submitted : CacheEpoch} {source : CacheEntry Url} {index : ℕ}
    (hstale : c.staleEntry parts request now = some (source, index))
    (hmerge : (c.mergeNotModified parts order request response now submitted).1 = some merged)
    (hskip : ∃ reason, cachePolicy parts request (mergedResponse source.response response) = .skip reason) :
    Shrunk c (c.mergeNotModified parts order request response now submitted).2 [source] := by
  obtain ⟨reason, hreason⟩ := hskip
  obtain ⟨entries, hbucket, hentry, -, -⟩ := staleEntry_eq_some hstale
  have hmergeable : c.mergeable parts request response now submitted =
      some (mergedResponse source.response response, index, none) := by
    rw [mergeNotModified] at hmerge
    rw [mergeable] at hmerge ⊢
    split_ifs at hmerge ⊢ with haccepts
    · rw [hstale]
      dsimp only
      rw [hreason]
      cases VaryVariant.fromRequest request (mergedResponse source.response response).headers <;> rfl
  rw [mergeNotModified, hmergeable]
  exact shrunk_removeBucketEntry hbucket hentry

theorem isKept_cacheControl : isKept "cache-control" = false := by decide +kernel

/-- merging puts every field of the 304 in place of the stored one, and a `no-store` makes the entry leave the cache -/
def MergesFaithfully (parts : UrlParts Url) (previous update : List Header) : Prop :=
  MergedByName previous update (mergeHeaders previous update) ∧
    ∀ (c : HttpCache Url) (order : MapOrder Url) (request : FetchRequest Url) (response merged : FetchResponse Url)
      (now : Instant) (submitted : CacheEpoch) (source : CacheEntry Url) (index : ℕ),
      c.staleEntry parts request now = some (source, index) → source.response.headers = previous →
      response.headers = update →
      (c.mergeNotModified parts order request response now submitted).1 = some merged →
      (∃ header ∈ update, SaysNoStore header) →
        Shrunk c (c.mergeNotModified parts order request response now submitted).2 [source]

/-- **Merged headers.** For all stored lines and all lines of a 304 the merged list has, for each field of the 304 that is
not excluded, exactly the lines of the 304, and every other stored line is unchanged, and then a `no-store` of the 304 makes
the entry leave the cache: if and only if no name that is not excluded comes twice in the 304. -/
theorem merge_headers_iff (parts : UrlParts Url) (previous update : List Header) :
    MergesFaithfully parts previous update ↔ NamesOnce update := by
  constructor
  · intro h
    exact (mergedByName_iff previous update).1 h.1
  · intro h
    have hmerged := (mergedByName_iff previous update).2 h
    refine ⟨hmerged, ?_⟩
    rintro c order request response merged now submitted source index hstale rfl rfl hmerge ⟨header, hmem, hno⟩
    refine shrunk_of_skip hstale hmerge (cachePolicy_noStore ?_ hno)
    have hkept : isKept header.name = false :=
      (isKept_eq (b := ⟨"cache-control", []⟩) (eqIgnoreAsciiCase_iff.1 hno.1)).trans isKept_cacheControl
    have hline : header ∈ response.headers.filter fun line => eqIgnoreAsciiCase line.name header.name :=
      List.mem_filter.2 ⟨hmem, eqIgnoreAsciiCase_iff.2 rfl⟩
    rw [← hmerged.replaced header hmem hkept] at hline
    exact (List.mem_filter.1 hline).1

/-! ## Two lines of one name -/

/-- a 304 whose first line forbids to store -/
def forbidding : FetchResponse String :=
  plainResponse 304 "a" [("cache-control", "no-store"), ("cache-control", "max-age=60")] []

theorem saysNoStore_forbidding : ∃ header ∈ forbidding.headers, SaysNoStore header := by
  refine ⟨⟨"cache-control", utf8 "no-store"⟩, List.mem_cons_self, by decide +kernel, "no-store", fromUtf8_utf8 _,
    "no-store".toList, by decide +kernel, by decide +kernel⟩

theorem merge_forbidding : (holding tagged (second 60) 1).mergeNotModified plainParts plainOrder (plainRequest "a") forbidding
    (second 60) 0 = (some tagged, holding tagged (second 120) 2) := by
  have hstale : (holding tagged (second 60) 1).staleEntry plainParts (plainRequest "a") (second 60) =
      some (⟨tagged, ⟨[]⟩, second 60, 1, 1⟩, 0) := rfl
  -- the first line is lost, so that nothing has changed
  have hmerged : mergedResponse tagged forbidding = tagged := by decide +kernel
  have hvariant : VaryVariant.fromRequest (plainRequest "a") tagged.headers = some ⟨[]⟩ := by decide +kernel
  have hpolicy : cachePolicy plainParts (plainRequest "a") tagged = .store (.ofSecs 60) :=
    policy_plain rfl policy_tagged (by decide +kernel) (by decide +kernel)
  have hadd : (second 60).checkedAdd (Duration.ofSecs 60).nanos = some (second 120) := by decide +kernel
  have hmergeable : (holding tagged (second 60) 1).mergeable plainParts (plainRequest "a") forbidding (second 60) 0 =
      some (tagged, 0, some (⟨[]⟩, second 120)) := by
    rw [mergeable, if_neg (by decide +kernel), hstale]
    simp only [hmerged, hvariant, hpolicy, hadd, Option.map_some]
  rw [mergeNotModified, hmergeable]
  rfl

/-- the entry that the 304 forbids to store is still in the cache -/
theorem merge_headers_not : ¬ ∀ previous update, MergesFaithfully plainParts previous update := by
  intro h
  have hshrunk := (h tagged.headers forbidding.headers).2 (holding tagged (second 60) 1) plainOrder (plainRequest "a")
    forbidding tagged (second 60) 0 ⟨tagged, ⟨[]⟩, second 60, 1, 1⟩ 0 rfl rfl rfl (by rw [merge_forbidding])
    saysNoStore_forbidding
  rw [merge_forbidding] at hshrunk
  have hlength := hshrunk.all.length_eq
  cases hlength

end Render.Cache
