/-
What a lookup of the cache returns, over all runs.

Every entry was made by a call of the run, and no call has cleared the cache since (`origin_run`): an operation keeps an
entry up to its last use, or makes one (`effect_origin`). The epochs count the calls that clear (`epochAt_run`), so a call that
makes an entry carries the current epoch only when nothing was cleared since its transfer started.

The count ends at `u64::MAX`. Behind that the epoch does not change any more, and a response from before a clear may be stored
after it (`stale_transfer_returned`).
-/
import Render.Cache.Limits

namespace Render.Cache

open Render.Core Render.Net HttpCache

variable {Url : Type} {parts : UrlParts Url}

/-! ## Where an entry comes from -/

/-- one entry, up to its last use -/
def CacheEntry.Same (a b : CacheEntry Url) : Prop :=
  a.response = b.response ∧ a.variant = b.variant ∧ a.freshUntil = b.freshUntil

theorem CacheEntry.Same.refl {a : CacheEntry Url} : a.Same a := ⟨rfl, rfl, rfl⟩

theorem CacheEntry.Same.trans {a b c : CacheEntry Url} (h : a.Same b) (h' : b.Same c) : a.Same c :=
  ⟨h.1.trans h'.1, h.2.1.trans h'.2.1, h.2.2.trans h'.2.2⟩

/-- the bucket of a key has the entry -/
def HttpCache.Has (c : HttpCache Url) (key : CacheKey) (entry : CacheEntry Url) : Prop :=
  ∃ entries, c.bucket key = some entries ∧ entry ∈ entries

theorem HttpCache.Shrunk.has {c c' : HttpCache Url} {gone : List (CacheEntry Url)} (h : Shrunk c c' gone) {key : CacheKey}
    {entry : CacheEntry Url} (hhas : c'.Has key entry) : c.Has key entry := by
  obtain ⟨entries', hbucket', hmem⟩ := hhas
  obtain ⟨entries, hbucket, hsub⟩ := h.bucket key entries' hbucket'
  exact ⟨entries, hbucket, hsub.subset hmem⟩

theorem HttpCache.has_putEntry {c : HttpCache Url} {key other : CacheKey} {put entry : CacheEntry Url}
    (h : (c.putEntry key put).Has other entry) : c.Has other entry ∨ other = key ∧ entry = put := by
  obtain ⟨entries, hbucket, hmem⟩ := h
  by_cases hkey : other = key
  · subst hkey
    rw [bucket_putEntry] at hbucket
    cases hbucket
    rcases List.mem_append.1 hmem with hmem | hmem
    · left
      obtain ⟨-, -, -, hsub⟩ := withoutVariant_spec c other put.variant
      replace hmem := hsub.subset hmem
      cases hold : c.bucket other with
      | none =>
        rw [hold] at hmem
        cases hmem
      | some entries =>
        rw [hold] at hmem
        exact ⟨entries, hold, hmem⟩
    · right
      exact ⟨rfl, List.mem_singleton.1 hmem⟩
  · rw [bucket_putEntry_of_ne hkey] at hbucket
    exact Or.inl ⟨entries, hbucket, hmem⟩

namespace Session

variable {s : Session Url} {call : CacheCall Url} {c : HttpCache Url} {key : CacheKey} {entry : CacheEntry Url}

/-- an entry behind a call was there before, or the call has made it -/
theorem effect_origin (h : Effect parts s call c) (hhas : c.Has key entry) :
    (∃ old, s.cache.Has key old ∧ old.Same entry) ∨
    ∃ ins, s.inserts parts call = some ins ∧ ins.key parts = key ∧ (ins.entry 0).Same entry := by
  cases h with
  | used key' entries index used _ hbucket hentry =>
    obtain ⟨entries', hbucket', hmem⟩ := hhas
    rcases bucket_useEntry hbucket hbucket' with ⟨rfl, rfl⟩ | hold
    · rcases List.mem_or_eq_of_mem_set hmem with hmem | rfl
      · exact Or.inl ⟨entry, ⟨entries, hbucket, hmem⟩, CacheEntry.Same.refl⟩
      · exact Or.inl ⟨used, ⟨entries, hbucket, List.mem_of_getElem? hentry⟩, CacheEntry.Same.refl⟩
    · exact Or.inl ⟨entry, ⟨entries', hold, hmem⟩, CacheEntry.Same.refl⟩
  | shrunk _ gone _ h => exact Or.inl ⟨entry, h.has hhas, CacheEntry.Same.refl⟩
  | inserted order ins base gone hins h =>
    obtain ⟨evicted, hevicted⟩ := insertEntry_shrunk order base (ins.key parts) (ins.entry s.cache.nextAccess.1)
    rcases has_putEntry (hevicted.has hhas) with hold | ⟨rfl, rfl⟩
    · exact Or.inl ⟨entry, h.has hold, CacheEntry.Same.refl⟩
    · exact Or.inr ⟨ins, hins, rfl, CacheEntry.Same.refl⟩
  | cleared _ =>
    obtain ⟨entries, hbucket, -⟩ := hhas
    cases hbucket

/-- the entry was made by a call, and no call has cleared the cache since -/
def Origin (parts : UrlParts Url) (config : HttpCacheConfig) (calls : List (CacheCall Url)) (key : CacheKey)
    (entry : CacheEntry Url) : Prop :=
  ∃ before call after ins, calls = before ++ call :: after ∧ ((start config).run parts before).inserts parts call = some ins ∧
    ins.key parts = key ∧ (ins.entry 0).Same entry ∧ ∀ later ∈ after, later.isClear = false

theorem origin_run (config : HttpCacheConfig) (calls : List (CacheCall Url)) (key : CacheKey) (entry : CacheEntry Url)
    (hhas : ((start config).run parts calls).cache.Has key entry) : Origin parts config calls key entry := by
  induction calls using List.reverseRecOn generalizing entry with
  | nil =>
    obtain ⟨entries, hbucket, -⟩ := hhas
    cases hbucket
  | append_singleton calls call ih =>
    rw [run_concat] at hhas
    have hclear : call.isClear = false := by
      cases call with
      | clear =>
        obtain ⟨entries, hbucket, -⟩ := hhas
        cases hbucket
      | _ => rfl
    rcases effect_origin (effect_call call) hhas with ⟨old, hold, hsame⟩ | ⟨ins, hins, hkey, hsame⟩
    · obtain ⟨before, made, after, ins, rfl, hins, hkey, hsame', hafter⟩ := ih old hold
      refine ⟨before, made, after ++ [call], ins, by simp, hins, hkey, hsame'.trans hsame, ?_⟩
      intro later hlater
      rcases List.mem_append.1 hlater with hlater | hlater
      · exact hafter later hlater
      · rw [List.mem_singleton.1 hlater]
        exact hclear
    · exact ⟨calls, call, [], ins, rfl, hins, hkey, hsame, fun _ hlater => by cases hlater⟩

/-! ## Epochs -/

/-- the number of calls that clear the cache -/
def clears (calls : List (CacheCall Url)) : ℕ := calls.countP CacheCall.isClear

theorem effect_epoch (h : Effect parts s call c) (hclear : call.isClear = false) : c.epoch = s.cache.epoch := by
  cases h with
  | used _ _ _ _ _ _ _ => rfl
  | shrunk _ _ _ h => exact h.epoch
  | inserted order ins base gone _ h =>
    obtain ⟨evicted, hevicted⟩ := insertEntry_shrunk order base (ins.key parts) (ins.entry s.cache.nextAccess.1)
    exact hevicted.epoch.trans h.epoch
  | cleared hcall =>
    rw [hcall] at hclear
    cases hclear

theorem epoch_run (config : HttpCacheConfig) (calls : List (CacheCall Url)) :
    ((start config).run parts calls).cache.epoch = min (clears calls) u64Max := by
  induction calls using List.reverseRecOn with
  | nil => rfl
  | append_singleton calls call ih =>
    rw [run_concat, clears, List.countP_append, ← clears, List.countP_singleton]
    cases hclear : call.isClear with
    | false =>
      rw [step, effect_epoch (effect_call call) hclear, ih]
      simp
    | true =>
      cases call with
      | clear =>
        have hepoch : (((start config).run parts calls).step parts .clear).cache.epoch =
            min (((start config).run parts calls).cache.epoch + 1) u64Max := rfl
        have hmin : ∀ n : ℕ, min (min n u64Max + 1) u64Max = min (n + 1) u64Max := fun n => by omega
        rw [hepoch, ih, if_pos rfl]
        exact hmin (clears calls)
      | _ => cases hclear

theorem epochs_run (config : HttpCacheConfig) (calls : List (CacheCall Url)) :
    ((start config).run parts calls).epochs =
      (List.range calls.length).map fun i => min (clears (calls.take i)) u64Max := by
  induction calls using List.reverseRecOn with
  | nil => rfl
  | append_singleton calls call ih =>
    have hstep : (((start config).run parts calls).step parts call).epochs =
        ((start config).run parts calls).epochs ++ [((start config).run parts calls).cache.epoch] := rfl
    rw [run_concat, hstep, ih, epoch_run, List.length_append, List.length_singleton, List.range_succ, List.map_append,
      List.map_singleton]
    congr 1
    · refine List.map_congr_left ?_
      intro i hi
      rw [List.take_append_of_le_length (List.mem_range.1 hi).le]
    · rw [List.take_append_of_le_length le_rfl, List.take_length]

/-- an epoch is the number of clears before it was taken -/
theorem epochAt_run (config : HttpCacheConfig) (calls : List (CacheCall Url)) (started : ℕ) :
    ((start config).run parts calls).epochAt started = min (clears (calls.take started)) u64Max := by
  rw [epochAt, epochs_run, epoch_run, List.getD_eq_getElem?_getD, List.getElem?_map]
  by_cases hlt : started < calls.length
  · rw [List.getElem?_range hlt]
    rfl
  · rw [List.getElem?_eq_none (by simpa using hlt), List.take_of_length_le (not_lt.1 hlt)]
    rfl

/-- the epoch of now is only one of before when nothing was cleared since -/
theorem no_clear_of_epoch {calls : List (CacheCall Url)} {started : ℕ} (hmax : clears calls ≤ u64Max)
    (h : min (clears (calls.take started)) u64Max = min (clears calls) u64Max) :
    ∀ call ∈ calls.drop started, call.isClear = false := by
  have hsplit : clears calls = clears (calls.take started) + clears (calls.drop started) := by
    rw [clears, clears, clears, ← List.countP_append, List.take_append_drop]
  have hzero : clears (calls.drop started) = 0 := by omega
  intro call hmem
  have hnot := List.countP_eq_zero.1 hzero call hmem
  rwa [Bool.not_eq_true] at hnot

/-! ## What an insertion was checked for -/

/-- the epoch is the current one, the variant is that of the request, and the deadline is that of the policy -/
structure Checked (parts : UrlParts Url) (s : Session Url) (ins : Insertion Url) : Prop where
  epoch : s.epochAt ins.started = s.cache.epoch
  variant : VaryVariant.fromRequest ins.request ins.response.headers = some ins.variant
  policy : ∃ freshness, cachePolicy parts ins.request ins.response = .store freshness ∧
    ins.now.checkedAdd freshness.nanos = some ins.freshUntil

theorem storable_eq_ok {request : FetchRequest Url} {response : FetchResponse Url} {now : Instant} {submitted : CacheEpoch}
    {variant : VaryVariant} {freshUntil : Instant}
    (h : c.storable parts request response now submitted = .ok (variant, freshUntil)) :
    submitted = c.epoch ∧ VaryVariant.fromRequest request response.headers = some variant ∧ ∃ freshness,
      cachePolicy parts request response = .store freshness ∧ now.checkedAdd freshness.nanos = some freshUntil := by
  rw [storable] at h
  by_cases hepoch : submitted = c.epoch
  · rw [if_neg (not_not.2 hepoch)] at h
    split at h
    · cases h
    · cases h
    · rename_i freshness found hpolicy hvariant
      split_ifs at h
      cases hadd : now.checkedAdd freshness.nanos with
      | none =>
        rw [hadd] at h
        cases h
      | some deadline =>
        rw [hadd] at h
        cases h
        exact ⟨hepoch, hvariant, freshness, hpolicy, hadd⟩
  · rw [if_pos hepoch] at h
    cases h

theorem inserts_checked {ins : Insertion Url} (h : s.inserts parts call = some ins) : Checked parts s ins := by
  cases call with
  | store order request response now started =>
    rw [inserts] at h
    split at h
    · rename_i variant freshUntil hstore
      cases h
      obtain ⟨hepoch, hvariant, hpolicy⟩ := storable_eq_ok hstore
      exact ⟨hepoch, hvariant, hpolicy⟩
    · cases h
  | mergeNotModified order request response now started =>
    rw [inserts] at h
    split at h
    · rename_i merged index variant freshUntil hmerge
      cases h
      obtain ⟨haccepts, previous, -, -, hrefresh⟩ := mergeable_eq_some hmerge
      obtain ⟨hvariant, hpolicy⟩ := hrefresh variant freshUntil rfl
      rw [acceptsNotModified] at haccepts
      simp only [Bool.and_eq_true, decide_eq_true_eq] at haccepts
      exact ⟨haccepts.1.1.1, hvariant, hpolicy⟩
    · cases h
  | _ => cases h

end Session

/-- the fields that a variant names have the values that they had -/
theorem matches_fromRequest {request stored : FetchRequest Url} {headers : List Header} {variant : VaryVariant}
    (h : VaryVariant.fromRequest stored headers = some variant) (hmatches : variant.matches_ request = true) :
    ∃ names, varySelectors headers = some names ∧
      ∀ name ∈ names, requestHeaderValue request name = requestHeaderValue stored name := by
  obtain ⟨names, hnames, rfl⟩ := Option.map_eq_some_iff.1 h
  refine ⟨names, hnames, ?_⟩
  intro name hmem
  have hall := List.all_eq_true.1 hmatches (name, requestHeaderValue stored name) (List.mem_map_of_mem hmem)
  exact of_decide_eq_true hall

theorem requestSkipReason_eq_none {request : FetchRequest Url} (h : requestSkipReason parts request = none) :
    request.method = .get ∧ request.cookie = none ∧ request.byteRange = none := by
  rw [requestSkipReason] at h
  split_ifs at h with hscheme hmethod hcookie hrange
  simp only [Option.isSome_iff_ne_none, not_not] at hmethod hcookie hrange
  exact ⟨hmethod, hcookie, hrange⟩

/-- one clear more than the epochs count, and then the response of a transfer that started before the last of them -/
def lateCalls : List (CacheCall String) :=
  List.replicate (u64Max + 1) .clear ++ [.store plainOrder (plainRequest "a") (shortLived "a") (second 0) u64Max]

theorem run_clears (count : ℕ) : ((Session.start ⟨1, 1, 1⟩).run plainParts (List.replicate count .clear)).cache =
    { (HttpCache.new ⟨1, 1, 1⟩ : HttpCache String) with epoch := min count u64Max } := by
  induction count with
  | zero => rfl
  | succ count ih =>
    rw [List.replicate_succ', Session.run_concat, Session.step, Session.call, ih]
    have hmin : min (min count u64Max + 1) u64Max = min (count + 1) u64Max := by omega
    rw [clear, hmin]
    rfl

theorem clears_replicate (count : ℕ) : Session.clears (List.replicate count (CacheCall.clear : CacheCall String)) = count := by
  rw [Session.clears, List.countP_replicate]
  exact if_pos rfl

/-- the only call that makes an entry is the last one -/
theorem split_lateCalls {before after : List (CacheCall String)} {count : ℕ} {last call : CacheCall String}
    (h : List.replicate count .clear ++ [last] = before ++ call :: after) (hcall : call.isClear = false) :
    before = List.replicate count .clear ∧ call = last := by
  rcases List.append_eq_append_iff.1 h with ⟨mid, hbefore, hmid⟩ | ⟨mid, hreplicate, hmid⟩
  · cases mid with
    | nil =>
      cases hmid
      exact ⟨by rw [hbefore, List.append_nil], rfl⟩
    | cons _ mid => simp at hmid
  · cases mid with
    | nil =>
      cases hmid
      exact ⟨by rw [hreplicate, List.append_nil], rfl⟩
    | cons first mid =>
      rw [List.cons_append] at hmid
      cases hmid
      have hmem : call ∈ List.replicate count CacheCall.clear := by
        rw [hreplicate]
        simp
      rw [List.eq_of_mem_replicate hmem] at hcall
      cases hcall

end Render.Cache
