/-
The cache stays within its limits, over all runs.

After any calls the bytes in memory are those of the bodies of the entries (`Accounted`), nothing is over a limit, and a call
that makes an entry leaves it in the cache (`runs_within`).

The entry stays because it was used after all others. This holds below the end of the access clock. At its end all entries
are used at the same time, and the eviction may take the entry that has just been put (`newest_evicted`).
-/
import Render.Cache.Contents

namespace Render.Cache

open Render.Core Render.Net HttpCache

variable {Url : Type} {parts : UrlParts Url}

/-! ## One call -/

namespace HttpCache

variable {order : MapOrder Url} {c : HttpCache Url} {key : CacheKey} {entry : CacheEntry Url} {entries : List (CacheEntry Url)}
  {index : ℕ}

theorem clock_le_nextAccess (hle : c.accessClock ≤ u64Max) : c.accessClock ≤ c.nextAccess.1 := le_min (Nat.le_succ _) hle

theorem nextAccess_le : c.nextAccess.1 ≤ u64Max := min_le_right _ _

theorem clock_lt_nextAccess (hlt : c.accessClock < u64Max) : c.accessClock < c.nextAccess.1 := lt_min (Nat.lt_succ_self _) hlt

theorem set_perm (hentry : entries[index]? = some entry) (entry' : CacheEntry Url) :
    (entries.set index entry').Perm (entry' :: entries.eraseIdx index) := by
  obtain ⟨hlt, -⟩ := List.getElem?_eq_some_iff.1 hentry
  have hget : (entries.set index entry')[index]? = some entry' := List.getElem?_set_self hlt
  have hperm := eraseIdx_perm hget
  rwa [List.eraseIdx_set_eq] at hperm

theorem map_variant_set (hentry : entries[index]? = some entry) (lastUsed : ℕ) :
    (entries.set index { entry with lastUsed }).map CacheEntry.variant = entries.map CacheEntry.variant := by
  obtain ⟨hlt, rfl⟩ := List.getElem?_eq_some_iff.1 hentry
  rw [List.map_set, ← List.getElem_map CacheEntry.variant (h := by simpa using hlt), List.set_getElem_self]

/-- the entry that is used, and the others -/
theorem useEntry_perm (hbucket : c.bucket key = some entries) (hentry : entries[index]? = some entry) :
    ∃ rest, c.all.Perm (entry :: rest) ∧
      (c.useEntry key entries index entry).all.Perm ({ entry with lastUsed := c.nextAccess.1 } :: rest) := by
  refine ⟨entries.eraseIdx index ++ (c.entries.erase key).flat, ?_, ?_⟩
  · exact (all_perm hbucket).trans ((eraseIdx_perm hentry).append_right _)
  · have heq : (c.useEntry key entries index entry).all =
        entries.set index { entry with lastUsed := c.nextAccess.1 } ++ (c.entries.erase key).flat := Assoc.flat_set
    rw [heq]
    exact (set_perm hentry _).append_right _

/-- a bucket after an entry of one was used -/
theorem bucket_useEntry {other : CacheKey} {entries' : List (CacheEntry Url)}
    (hbucket : c.bucket key = some entries) (hget : (c.useEntry key entries index entry).bucket other = some entries') :
    other = key ∧ entries' = entries.set index { entry with lastUsed := c.nextAccess.1 } ∨
      c.bucket other = some entries' := by
  by_cases hother : other = key
  · subst hother
    cases Assoc.get_set.symm.trans hget
    exact Or.inl ⟨rfl, rfl⟩
  · exact Or.inr ((Assoc.get_set_of_ne hother).symm.trans hget)

theorem Accounted.useEntry (hacc : Accounted c) (hclock : c.accessClock ≤ u64Max) (hbucket : c.bucket key = some entries)
    (hentry : entries[index]? = some entry) : Accounted (c.useEntry key entries index entry) := by
  obtain ⟨rest, hperm, hused⟩ := useEntry_perm hbucket hentry
  refine ⟨?_, ?_, ?_, ?_, ?_⟩
  · calc (c.useEntry key entries index entry).memoryBytes = bytesOf c.all := hacc.bytes
      _ = bytesOf (entry :: rest) := bytesOf_perm hperm
      _ = bytesOf ({ entry with lastUsed := c.nextAccess.1 } :: rest) := rfl
      _ = bytesOf (c.useEntry key entries index entry).all := (bytesOf_perm hused).symm
  · intro other hmem
    cases hused.mem_iff.1 hmem with
    | head => exact hacc.sizes entry (hperm.mem_iff.2 List.mem_cons_self)
    | tail _ hmem => exact hacc.sizes other (hperm.mem_iff.2 (List.mem_cons_of_mem _ hmem))
  · intro other hget
    rcases bucket_useEntry hbucket hget with ⟨-, hnil⟩ | hget
    · rw [eq_comm, List.set_eq_nil_iff] at hnil
      rw [hnil] at hbucket
      exact hacc.nonempty key hbucket
    · exact hacc.nonempty other hget
  · intro other entries' hget
    rcases bucket_useEntry hbucket hget with ⟨-, rfl⟩ | hget
    · rw [map_variant_set hentry]
      exact hacc.variants key entries hbucket
    · exact hacc.variants other entries' hget
  · intro other hmem
    cases hused.mem_iff.1 hmem with
    | head => exact le_rfl
    | tail _ hmem =>
      exact (hacc.used other (hperm.mem_iff.2 (List.mem_cons_of_mem _ hmem))).trans (clock_le_nextAccess hclock)

theorem Accounted.nextAccess (hacc : Accounted c) (hclock : c.accessClock ≤ u64Max) : Accounted c.nextAccess.2 :=
  ⟨hacc.bytes, hacc.sizes, hacc.nonempty, hacc.variants,
    fun entry hmem => (hacc.used entry hmem).trans (clock_le_nextAccess hclock)⟩

theorem accounted_clear : Accounted c.clear where
  bytes := rfl
  sizes := fun _ hmem => by cases hmem
  nonempty := fun _ hget => by cases hget
  variants := fun _ _ hget => by cases hget
  used := fun _ hmem => by cases hmem

theorem overLimits_eq_false : c.overLimits = false ↔ c.entryCount ≤ c.config.maxEntries ∧ c.memoryBytes ≤ c.config.maxBytes := by
  simp [overLimits]

theorem insertEntry_shrunk (order : MapOrder Url) (c : HttpCache Url) (key : CacheKey) (entry : CacheEntry Url) :
    ∃ gone, Shrunk (c.putEntry key entry) (c.insertEntry order key entry) gone := evictLoop_shrunk _ _

/-- an insertion ends within the limits -/
theorem insertEntry_within (hacc : Accounted (c.putEntry key entry)) : (c.insertEntry order key entry).overLimits = false :=
  evictLoop_within _ _ hacc le_rfl

end HttpCache

/-! ## All calls -/

/-- the entries are accounted for and within the limits -/
structure Kept (config : HttpCacheConfig) (c : HttpCache Url) : Prop where
  accounted : Accounted c
  within : c.overLimits = false
  config : c.config = config
  clock : c.accessClock ≤ u64Max

namespace Session

variable {config : HttpCacheConfig} {s : Session Url} {call : CacheCall Url} {c : HttpCache Url}

theorem kept_used {key : CacheKey} {entries : List (CacheEntry Url)} {index : ℕ} {entry : CacheEntry Url}
    (hkept : Kept config s.cache) (hbucket : s.cache.bucket key = some entries) (hentry : entries[index]? = some entry) :
    Kept config (s.cache.useEntry key entries index entry) := by
  obtain ⟨rest, hperm, hused⟩ := useEntry_perm hbucket hentry
  refine ⟨hkept.accounted.useEntry hkept.clock hbucket hentry, ?_, hkept.config, nextAccess_le⟩
  have hcount : (s.cache.useEntry key entries index entry).entryCount = s.cache.entryCount := by
    rw [entryCount_eq, entryCount_eq, hused.length_eq, hperm.length_eq]
    rfl
  have hwithin := overLimits_eq_false.1 hkept.within
  rw [overLimits_eq_false, hcount]
  exact hwithin

theorem kept_shrunk {gone : List (CacheEntry Url)} (hkept : Kept config s.cache) (h : Shrunk s.cache c gone) :
    Kept config c := by
  refine ⟨hkept.accounted.shrunk h, ?_, h.config.trans hkept.config, h.clock.trans_le hkept.clock⟩
  have hwithin := overLimits_eq_false.1 hkept.within
  have hlen := h.all.length_eq
  rw [List.length_append] at hlen
  rw [entryCount_eq] at hwithin
  rw [overLimits_eq_false, entryCount_eq, h.config, h.bytes]
  omega

/-- the cache that an insertion evicts from -/
theorem accounted_inserted (parts : UrlParts Url) (ins : Insertion Url) {gone : List (CacheEntry Url)} (hkept : Kept config s.cache)
    (h : Shrunk s.cache.nextAccess.2 c gone) :
    Accounted (c.putEntry (ins.key parts) (ins.entry s.cache.nextAccess.1)) :=
  ((hkept.accounted.nextAccess hkept.clock).shrunk h).putEntry rfl h.clock.ge

theorem kept_inserted {order : MapOrder Url} {ins : Insertion Url} {gone : List (CacheEntry Url)} (hkept : Kept config s.cache)
    (h : Shrunk s.cache.nextAccess.2 c gone) :
    Kept config (c.insertEntry order (ins.key parts) (ins.entry s.cache.nextAccess.1)) := by
  have hacc := accounted_inserted parts ins hkept h
  obtain ⟨evicted, hevicted⟩ := insertEntry_shrunk order c (ins.key parts) (ins.entry s.cache.nextAccess.1)
  refine ⟨hacc.shrunk hevicted, insertEntry_within hacc, ?_, ?_⟩
  · exact hevicted.config.trans (h.config.trans hkept.config)
  · exact (hevicted.clock.trans h.clock).trans_le nextAccess_le

theorem kept_effect (hkept : Kept config s.cache) (h : Effect parts s call c) : Kept config c := by
  cases h with
  | used key entries index entry _ hbucket hentry => exact kept_used hkept hbucket hentry
  | shrunk _ gone _ h => exact kept_shrunk hkept h
  | inserted order ins base gone hins h => exact kept_inserted hkept h
  | cleared hcall =>
    refine ⟨accounted_clear, ?_, hkept.config, hkept.clock⟩
    rw [overLimits_eq_false]
    exact ⟨Nat.zero_le _, Nat.zero_le _⟩

theorem kept_start : Kept config (start config : Session Url).cache := by
  refine ⟨⟨rfl, ?_, ?_, ?_, ?_⟩, ?_, rfl, Nat.zero_le _⟩
  · exact fun _ hmem => by cases hmem
  · exact fun _ hget => by cases hget
  · exact fun _ _ hget => by cases hget
  · exact fun _ hmem => by cases hmem
  · rw [overLimits_eq_false]
    exact ⟨Nat.zero_le _, Nat.zero_le _⟩

theorem kept_run (calls : List (CacheCall Url)) : Kept config ((start config).run parts calls).cache := by
  induction calls using List.reverseRecOn with
  | nil => exact kept_start
  | append_singleton calls call ih =>
    rw [run_concat]
    exact kept_effect ih (effect_call call)

/-- below the end of the clock an entry that is put into a bucket stays there -/
theorem stays_inserted {order : MapOrder Url} {ins : Insertion Url} {gone : List (CacheEntry Url)} (hkept : Kept config s.cache)
    (hclock : s.cache.accessClock < u64Max) (h : Shrunk s.cache.nextAccess.2 c gone) (hone : 0 < config.maxEntries)
    (hfits : ins.response.body.length ≤ config.maxBytes) :
    ∃ entries, (c.insertEntry order (ins.key parts) (ins.entry s.cache.nextAccess.1)).bucket (ins.key parts) = some entries ∧
      ins.entry s.cache.nextAccess.1 ∈ entries := by
  have hconfig : c.config = config := h.config.trans hkept.config
  have hacc := accounted_inserted parts ins hkept h
  have hbefore : ∀ other ∈ c.all, other.lastUsed < (ins.entry s.cache.nextAccess.1).lastUsed := by
    intro other hmem
    have hused := hkept.accounted.used other (h.all.mem_iff.2 (List.mem_append_right _ hmem))
    exact hused.trans_lt (clock_lt_nextAccess hclock)
  have hnewest := evictLoop_newest order (c.putEntry (ins.key parts) (ins.entry s.cache.nextAccess.1)).entryCount _
    hacc (newest_putEntry hbefore) (hconfig.symm ▸ hone) (hconfig.symm ▸ hfits)
  obtain ⟨rest, hperm, -⟩ := hnewest
  obtain ⟨key, entries, hbucket, hmem⟩ := mem_all.1 (hperm.mem_iff.2 List.mem_cons_self)
  obtain ⟨evicted, hevicted⟩ := insertEntry_shrunk order c (ins.key parts) (ins.entry s.cache.nextAccess.1)
  obtain ⟨before, hput, hsub⟩ := hevicted.bucket key entries hbucket
  by_cases hkey : key = ins.key parts
  · subst hkey
    exact ⟨entries, hbucket, hmem⟩
  · -- the entry would have been in the cache before, where all entries were used earlier
    rw [bucket_putEntry_of_ne hkey] at hput
    have hlt := hbefore _ (mem_all.2 ⟨key, before, hput, hsub.subset hmem⟩)
    exact absurd hlt (lt_irrefl _)

theorem stays_effect {ins : Insertion Url} (hkept : Kept config s.cache) (hclock : s.cache.accessClock < u64Max)
    (hins : s.inserts parts call = some ins) (hone : 0 < config.maxEntries)
    (hfits : ins.response.body.length ≤ config.maxBytes) (h : Effect parts s call c) :
    ∃ entries, c.bucket (ins.key parts) = some entries ∧ ins.entry s.cache.nextAccess.1 ∈ entries := by
  cases h with
  | used _ _ _ _ hnone => cases hins.symm.trans hnone
  | shrunk _ _ hnone => cases hins.symm.trans hnone
  | inserted order ins' base gone hins' h =>
    cases hins.symm.trans hins'
    exact stays_inserted hkept hclock h hone hfits
  | cleared hcall =>
    rw [hcall] at hins
    cases hins

end Session

/-- **The limits.** After any calls the bytes in memory are those of the bodies, they and the number of entries are within
the limits, no bucket is empty or has two entries of one variant; and an entry that a call makes and that fits alone is in its
bucket after the call, if the access clock is not at its end before. -/
theorem runs_within (config : HttpCacheConfig) (calls : List (CacheCall Url)) :
    let s := (Session.start config).run parts calls
    s.cache.memoryBytes = (s.cache.all.map fun entry => entry.response.body.length).sum ∧
    s.cache.memoryBytes ≤ config.maxBytes ∧ s.cache.entryCount ≤ config.maxEntries ∧
    (∀ key, s.cache.bucket key ≠ some []) ∧
    (∀ key entries, s.cache.bucket key = some entries → (entries.map CacheEntry.variant).Nodup) ∧
    ∀ call ins, s.inserts parts call = some ins → s.cache.accessClock < u64Max → 0 < config.maxEntries →
      ins.response.body.length ≤ config.maxBytes →
      ∃ entries, (s.step parts call).cache.bucket (ins.key parts) = some entries ∧
        ins.entry (s.cache.accessClock + 1) ∈ entries := by
  have hkept : Kept config ((Session.start config).run parts calls).cache := Session.kept_run calls
  have hwithin := overLimits_eq_false.1 hkept.within
  rw [hkept.config] at hwithin
  refine ⟨?_, hwithin.2, hwithin.1, hkept.accounted.nonempty, hkept.accounted.variants, ?_⟩
  · rw [hkept.accounted.bytes, bytesOf, List.map_congr_left hkept.accounted.sizes]
  · intro call ins hins hclock hone hfits
    have hnext : ((Session.start config).run parts calls).cache.nextAccess.1 =
        ((Session.start config).run parts calls).cache.accessClock + 1 := min_eq_left hclock
    rw [← hnext]
    exact Session.stays_effect hkept hclock hins hone hfits (Session.effect_call call)

/-! ## The end of the access clock -/

/-- the policy of a small response is the one of its fields -/
theorem policy_plain {request : FetchRequest String} {fields : List (String × String)} {body : Octets} {freshness : Duration}
    (hskip : requestSkipReason plainParts request = none)
    (hcontrol : cacheControlPolicy (plainResponse 200 request.url fields body).headers = .store freshness)
    (hcookie : hasHeader (plainResponse 200 request.url fields body).headers "set-cookie" = false)
    (hvary : varySelectors (plainResponse 200 request.url fields body).headers = some []) :
    cachePolicy plainParts request (plainResponse 200 request.url fields body) = .store freshness := by
  have hdirect : isRedirected plainParts request (plainResponse 200 request.url fields body) = false := by
    simp [isRedirected, sameFetchUrl, plainParts, plainResponse]
  have hstatus : (plainResponse 200 request.url fields body).status = 200 := rfl
  simp [cachePolicy, hskip, hstatus, hdirect, hcookie, hvary, hcontrol]

/-- a small response is stored when its fields allow it -/
theorem storable_plain {c : HttpCache String} {url : String} {fields : List (String × String)} {body : Octets}
    {now freshUntil : Instant} {freshness : Duration}
    (hcontrol : cacheControlPolicy (plainResponse 200 url fields body).headers = .store freshness)
    (hcookie : hasHeader (plainResponse 200 url fields body).headers "set-cookie" = false)
    (hvary : varySelectors (plainResponse 200 url fields body).headers = some []) (hone : c.config.maxEntries ≠ 0)
    (hbytes : c.config.maxBytes ≠ 0) (hentry : body.length ≤ c.config.maxEntryBytes) (hall : body.length ≤ c.config.maxBytes)
    (hadd : now.checkedAdd freshness.nanos = some freshUntil) :
    c.storable plainParts (plainRequest url) (plainResponse 200 url fields body) now c.epoch = .ok (⟨[]⟩, freshUntil) := by
  have hpolicy : cachePolicy plainParts (plainRequest url) (plainResponse 200 url fields body) = .store freshness :=
    policy_plain rfl hcontrol hcookie hvary
  have hvariant : VaryVariant.fromRequest (plainRequest url) (plainResponse 200 url fields body).headers = some ⟨[]⟩ := by
    rw [VaryVariant.fromRequest, hvary]
    rfl
  have hbody : (plainResponse 200 url fields body).body = body := rfl
  simp [storable, hpolicy, hvariant, hbody, hone, hbytes, hentry, hall, hadd]

/-- a response that is fresh for a second -/
def shortLived (url : String) : FetchResponse String := plainResponse 200 url [("cache-control", "max-age=1")] []

theorem policy_shortLived (url : String) : cacheControlPolicy (shortLived url).headers = .store (.ofSecs 1) := by
  simp only [cacheControlPolicy, shortLived, plainResponse, List.map_cons, List.map_nil, List.foldlM_cons, List.foldlM_nil,
    cacheControlHeader, fromUtf8_utf8]
  decide +kernel

theorem storable_shortLived (c : HttpCache String) (hconfig : c.config = ⟨1, 1, 1⟩) (url : String) :
    c.storable plainParts (plainRequest url) (shortLived url) (second 0) c.epoch = .ok (⟨[]⟩, second 1) := by
  have hheaders : (shortLived url).headers = (shortLived "").headers := rfl
  have hcookie : hasHeader (shortLived url).headers "set-cookie" = false := by
    rw [hheaders]
    decide +kernel
  have hvary : varySelectors (shortLived url).headers = some [] := by
    rw [hheaders]
    decide +kernel
  have hadd : (second 0).checkedAdd (Duration.ofSecs 1).nanos = some (second 1) := by decide +kernel
  apply storable_plain (policy_shortLived url) hcookie hvary _ _ _ _ hadd
  · simp [hconfig]
  · simp [hconfig]
  · simp
  · simp

def shortEntry (url : String) (lastUsed : ℕ) : CacheEntry String := ⟨shortLived url, ⟨[]⟩, second 1, 0, lastUsed⟩

/-- a cache with room for one entry, after a number of accesses -/
def busy (accesses : ℕ) : HttpCache String :=
  ⟨⟨1, 1, 1⟩, ⟨[(⟨"a", none⟩, [shortEntry "a" accesses])], List.nodup_singleton _⟩, 0, accesses, 0⟩

theorem busy_lookup (accesses : ℕ) :
    ((busy accesses).lookup plainParts (plainRequest "a") (second 0)).2 = busy (min (accesses + 1) u64Max) := rfl

/-- the calls before the last one -/
def busyCalls (lookups : ℕ) : List (CacheCall String) :=
  .store plainOrder (plainRequest "a") (shortLived "a") (second 0) 0 ::
    List.replicate lookups (.lookup (plainRequest "a") (second 0))

theorem busy_start : ((HttpCache.new ⟨1, 1, 1⟩ : HttpCache String).store plainParts plainOrder (plainRequest "a")
    (shortLived "a") (second 0) 0).2 = busy 1 := by
  have hstore := storable_shortLived (.new ⟨1, 1, 1⟩) rfl "a"
  replace hstore : (HttpCache.new ⟨1, 1, 1⟩ : HttpCache String).storable plainParts (plainRequest "a") (shortLived "a")
    (second 0) 0 = .ok (⟨[]⟩, second 1) := hstore
  rw [store, hstore]
  rfl

/-- every lookup is a hit and moves the clock -/
theorem busyCalls_run (lookups : ℕ) : ∃ epochs, (Session.start ⟨1, 1, 1⟩).run plainParts (busyCalls lookups) =
    ⟨busy (min (lookups + 1) u64Max), 0 :: epochs⟩ := by
  induction lookups with
  | zero =>
    refine ⟨[], ?_⟩
    rw [Session.run, busyCalls, List.replicate_zero, List.foldl_cons, List.foldl_nil, Session.step, Session.call]
    exact congrArg (fun cache => Session.mk cache [0]) busy_start
  | succ lookups ih =>
    obtain ⟨epochs, hrun⟩ := ih
    refine ⟨epochs ++ [0], ?_⟩
    have hcalls : busyCalls (lookups + 1) = busyCalls lookups ++ [.lookup (plainRequest "a") (second 0)] := by
      rw [busyCalls, busyCalls, List.replicate_succ', List.cons_append]
    rw [hcalls, Session.run_concat, hrun, Session.step, Session.call, busy_lookup]
    have hmin : min (min (lookups + 1) u64Max + 1) u64Max = min (lookups + 1 + 1) u64Max := by omega
    rw [hmin]
    rfl

theorem busy_evicts : ((busy u64Max).insertEntry plainOrder ⟨"b", none⟩ (shortEntry "b" u64Max)).bucket ⟨"b", none⟩ = none := by
  rfl

/-- at the end of the clock an entry may be evicted as soon as it is put -/
theorem newest_evicted : ¬ ∀ (config : HttpCacheConfig) (calls : List (CacheCall String)) (call : CacheCall String)
    (ins : Insertion String),
    let s := (Session.start config).run plainParts calls
    s.inserts plainParts call = some ins → 0 < config.maxEntries → ins.response.body.length ≤ config.maxBytes →
      ∃ entries, (s.step plainParts call).cache.bucket (ins.key plainParts) = some entries ∧
        ∃ entry ∈ entries, entry.response = ins.response := by
  intro h
  obtain ⟨epochs, hrun⟩ := busyCalls_run u64Max
  have hclock : min (u64Max + 1) u64Max = u64Max := min_eq_right (Nat.le_succ _)
  rw [hclock] at hrun
  have hstorable := storable_shortLived (busy u64Max) rfl "b"
  have hafter : ((busy u64Max).store plainParts plainOrder (plainRequest "b") (shortLived "b") (second 0) 0).2.bucket
      ⟨"b", none⟩ = none := by
    replace hstorable : (busy u64Max).storable plainParts (plainRequest "b") (shortLived "b") (second 0) 0 =
      .ok (⟨[]⟩, second 1) := hstorable
    rw [store, hstorable]
    exact busy_evicts
  obtain ⟨entries, hbucket, -⟩ := h ⟨1, 1, 1⟩ (busyCalls u64Max)
    (.store plainOrder (plainRequest "b") (shortLived "b") (second 0) 0)
    ⟨plainRequest "b", shortLived "b", second 0, 0, ⟨[]⟩, second 1⟩ (by
      rw [hrun, Session.inserts]
      replace hstorable : (busy u64Max).storable plainParts (plainRequest "b") (shortLived "b") (second 0)
        ((Session.mk (busy u64Max) (0 :: epochs)).epochAt 0) = .ok (⟨[]⟩, second 1) := hstorable
      rw [hstorable]) Nat.one_pos (Nat.zero_le _)
  rw [hrun] at hbucket
  cases hafter.symm.trans hbucket

end Render.Cache
