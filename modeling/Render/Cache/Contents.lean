/-
What the operations of the cache do to its entries.

Removing and evicting only take entries away (`Shrunk`). Putting an entry takes at most one away, the one of its variant
(`putEntry_shrunk`). The search of a bucket finds the entry with the latest deadline among those that it accepts
(`latestIndex_eq_some`). `Accounted` is what holds of the entries between the operations, and each of them keeps it.
-/
import Render.Cache.HttpCache

namespace Render.Cache

open Render.Core Render.Net

variable {Url : Type}

/-! ## Searching a bucket -/

/-- the entry is the last of those with the latest deadline, and the latest use under it, among the accepted ones -/
def Latest (accept : CacheEntry Url → Bool) (entries : List (CacheEntry Url)) (entry : CacheEntry Url) : Prop :=
  ∃ before after, entries.filter accept = before ++ entry :: after ∧ (∀ other ∈ before, other.recency ≤ entry.recency) ∧
    ∀ other ∈ after, other.recency < entry.recency

theorem zipIdx_filter (accept : CacheEntry Url → Bool) (entries : List (CacheEntry Url)) :
    (entries.zipIdx.filter fun entry => accept entry.1).map Prod.fst = entries.filter accept := by
  rw [← List.zipIdx_map_fst 0 entries, List.filter_map]
  simp [Function.comp_def]

theorem latestIndex_eq_some {accept : CacheEntry Url → Bool} {entries : List (CacheEntry Url)} {index : ℕ}
    (h : latestIndex accept entries = some index) :
    ∃ entry, entries[index]? = some entry ∧ accept entry = true ∧ Latest accept entries entry := by
  obtain ⟨⟨entry, i⟩, hmax, rfl⟩ := Option.map_eq_some_iff.1 h
  have hmem := List.mem_filter.1 (lastMax_mem hmax)
  obtain ⟨before, after, hsplit, hbefore, hafter⟩ := lastMax_eq_some hmax
  have hget : entries[i]? = some entry := by simpa using List.mem_zipIdx_iff_getElem?.1 hmem.1
  refine ⟨entry, hget, hmem.2, before.map Prod.fst, after.map Prod.fst, ?_, ?_, ?_⟩
  · rw [← zipIdx_filter, hsplit, List.map_append, List.map_cons]
  · intro other hother
    obtain ⟨place, hplace, rfl⟩ := List.mem_map.1 hother
    exact hbefore place hplace
  · intro other hother
    obtain ⟨place, hplace, rfl⟩ := List.mem_map.1 hother
    exact hafter place hplace

namespace HttpCache

variable {parts : UrlParts Url} {order : MapOrder Url} {c c' : HttpCache Url} {key : CacheKey} {entry : CacheEntry Url}
  {entries : List (CacheEntry Url)} {index : ℕ}

theorem mem_all : entry ∈ c.all ↔ ∃ key entries, c.bucket key = some entries ∧ entry ∈ entries := Assoc.mem_flat

theorem entryCount_eq : c.entryCount = c.all.length := by
  rw [entryCount, all, Assoc.flat, List.length_flatMap]

/-- the entries up to their order -/
theorem all_perm (h : c.bucket key = some entries) : c.all.Perm (entries ++ (c.entries.erase key).flat) := Assoc.flat_perm h

/-- the bytes of the bodies of entries -/
def bytesOf (entries : List (CacheEntry Url)) : ℕ := (entries.map CacheEntry.responseBytes).sum

theorem bytesOf_append {a b : List (CacheEntry Url)} : bytesOf (a ++ b) = bytesOf a + bytesOf b := by
  rw [bytesOf, List.map_append, List.sum_append]
  rfl

theorem bytesOf_perm {a b : List (CacheEntry Url)} (h : a.Perm b) : bytesOf a = bytesOf b := (h.map _).sum_eq

/-! ## Taking entries away -/

/-- some entries are gone, and nothing else has changed -/
structure Shrunk (c c' : HttpCache Url) (gone : List (CacheEntry Url)) : Prop where
  all : c.all.Perm (gone ++ c'.all)
  bytes : c'.memoryBytes = c.memoryBytes - bytesOf gone
  bucket : ∀ key entries', c'.bucket key = some entries' → ∃ entries, c.bucket key = some entries ∧ entries'.Sublist entries
  nonempty : (∀ key, c.bucket key ≠ some []) → ∀ key, c'.bucket key ≠ some []
  config : c'.config = c.config
  clock : c'.accessClock = c.accessClock
  epoch : c'.epoch = c.epoch

theorem Shrunk.refl : Shrunk c c [] where
  all := List.Perm.refl _
  bytes := rfl
  bucket := fun _ entries h => ⟨entries, h, List.Sublist.refl _⟩
  nonempty := fun h => h
  config := rfl
  clock := rfl
  epoch := rfl

theorem Shrunk.trans {c'' : HttpCache Url} {gone gone' : List (CacheEntry Url)} (h : Shrunk c c' gone)
    (h' : Shrunk c' c'' gone') : Shrunk c c'' (gone ++ gone') where
  all := by
    rw [List.append_assoc]
    exact h.all.trans (h'.all.append_left gone)
  bytes := by
    rw [h'.bytes, h.bytes, bytesOf_append, Nat.sub_sub]
  bucket := by
    intro key entries'' hget
    obtain ⟨entries', hget', hsub'⟩ := h'.bucket key entries'' hget
    obtain ⟨entries, hget, hsub⟩ := h.bucket key entries' hget'
    exact ⟨entries, hget, hsub'.trans hsub⟩
  nonempty := fun hne => h'.nonempty (h.nonempty hne)
  config := h'.config.trans h.config
  clock := h'.clock.trans h.clock
  epoch := h'.epoch.trans h.epoch

theorem removeBucketEntry_eq (hbucket : c.bucket key = some entries) (hentry : entries[index]? = some entry) :
    c.removeBucketEntry key index =
      { c with
        entries := if (entries.eraseIdx index).isEmpty then c.entries.erase key else c.entries.set key (entries.eraseIdx index)
        memoryBytes := c.memoryBytes - entry.responseBytes } := by
  rw [removeBucketEntry, hbucket]
  simp only [hentry]

theorem eraseIdx_perm (hentry : entries[index]? = some entry) : entries.Perm (entry :: entries.eraseIdx index) := by
  obtain ⟨hlt, rfl⟩ := List.getElem?_eq_some_iff.1 hentry
  exact (List.getElem_cons_eraseIdx_perm hlt).symm

theorem shrunk_removeBucketEntry (hbucket : c.bucket key = some entries) (hentry : entries[index]? = some entry) :
    Shrunk c (c.removeBucketEntry key index) [entry] := by
  rw [removeBucketEntry_eq hbucket hentry]
  have hperm := (all_perm hbucket).trans ((eraseIdx_perm hentry).append_right _)
  by_cases hempty : entries.eraseIdx index = []
  · simp only [hempty, List.isEmpty_nil, if_true]
    rw [hempty] at hperm
    refine ⟨hperm, ?_, ?_, ?_, rfl, rfl, rfl⟩
    · simp [bytesOf]
    · intro k entries' hget
      by_cases hk : k = key
      · rw [hk] at hget
        exact absurd (hget.symm.trans Assoc.get_erase) (by simp)
      · rw [bucket] at hget
        exact ⟨entries', (Assoc.get_erase_of_ne hk).symm.trans hget, List.Sublist.refl _⟩
    · intro hne k hget
      by_cases hk : k = key
      · rw [hk] at hget
        exact absurd (hget.symm.trans Assoc.get_erase) (by simp)
      · exact hne k ((Assoc.get_erase_of_ne hk).symm.trans hget)
  · simp only [List.isEmpty_iff, hempty, if_false]
    refine ⟨?_, ?_, ?_, ?_, rfl, rfl, rfl⟩
    · exact hperm
    · simp [bytesOf]
    · intro k entries' hget
      by_cases hk : k = key
      · subst hk
        cases Assoc.get_set.symm.trans hget
        exact ⟨entries, hbucket, List.eraseIdx_sublist _ _⟩
      · exact ⟨entries', (Assoc.get_set_of_ne hk).symm.trans hget, List.Sublist.refl _⟩
    · intro hne k hget
      by_cases hk : k = key
      · subst hk
        exact hempty (Option.some.inj (Assoc.get_set.symm.trans hget))
      · exact hne k ((Assoc.get_set_of_ne hk).symm.trans hget)

/-! ## Accounts -/

/-- what holds of the entries between the operations -/
structure Accounted (c : HttpCache Url) : Prop where
  bytes : c.memoryBytes = bytesOf c.all
  sizes : ∀ entry ∈ c.all, entry.responseBytes = entry.response.body.length
  nonempty : ∀ key, c.bucket key ≠ some []
  variants : ∀ key entries, c.bucket key = some entries → (entries.map CacheEntry.variant).Nodup
  used : ∀ entry ∈ c.all, entry.lastUsed ≤ c.accessClock

theorem Accounted.shrunk {gone : List (CacheEntry Url)} (hacc : Accounted c) (h : Shrunk c c' gone) : Accounted c' where
  bytes := by
    rw [h.bytes, hacc.bytes, bytesOf_perm h.all, bytesOf_append, Nat.add_sub_cancel_left]
  sizes := fun entry hmem => hacc.sizes entry (h.all.mem_iff.2 (List.mem_append_right _ hmem))
  nonempty := h.nonempty hacc.nonempty
  variants := by
    intro key entries' hget
    obtain ⟨entries, hget, hsub⟩ := h.bucket key entries' hget
    exact (hacc.variants key entries hget).sublist (hsub.map _)
  used := by
    intro entry hmem
    rw [h.clock]
    exact hacc.used entry (h.all.mem_iff.2 (List.mem_append_right _ hmem))

/-! ## Evicting -/

theorem places_perm (order : MapOrder Url) (c : HttpCache Url) : ((c.places order).map Prod.fst).Perm c.all := by
  have heq : (c.places order).map Prod.fst = (order.order c).flatMap Prod.snd := by
    rw [places, List.map_flatMap]
    congr 1
    funext bucket
    simp [Function.comp_def]
  rw [heq]
  exact (order.perm c).flatMap_right _

theorem mem_places {place : CacheEntry Url × CacheKey × ℕ} (h : place ∈ c.places order) :
    ∃ entries, c.bucket place.2.1 = some entries ∧ entries[place.2.2]? = some place.1 := by
  rw [places, List.mem_flatMap] at h
  obtain ⟨⟨key, entries⟩, hbucket, hplace⟩ := h
  obtain ⟨⟨entry, index⟩, hentry, rfl⟩ := List.mem_map.1 hplace
  refine ⟨entries, Assoc.get_eq_some.2 ((order.perm c).mem_iff.1 hbucket), ?_⟩
  simpa using List.mem_zipIdx_iff_getElem?.1 hentry

/-- what one turn of the eviction takes away: an entry that no other was used before -/
theorem evict_turn {place : CacheEntry Url × CacheKey × ℕ}
    (h : ((c.places order).argmin fun place => place.1.lastUsed) = some place) :
    Shrunk c (c.removeBucketEntry place.2.1 place.2.2) [place.1] ∧ ∀ entry ∈ c.all, place.1.lastUsed ≤ entry.lastUsed := by
  obtain ⟨entries, hbucket, hentry⟩ := mem_places (List.argmin_mem h)
  refine ⟨shrunk_removeBucketEntry hbucket hentry, ?_⟩
  intro entry hmem
  obtain ⟨other, hother, rfl⟩ := List.mem_map.1 ((places_perm order c).mem_iff.2 hmem)
  exact List.le_of_mem_argmin (f := fun place : CacheEntry Url × CacheKey × ℕ => place.1.lastUsed) hother h

theorem evictLoop_shrunk (turns : ℕ) (c : HttpCache Url) : ∃ gone, Shrunk c (evictLoop order turns c) gone := by
  induction turns generalizing c with
  | zero => exact ⟨[], Shrunk.refl⟩
  | succ turns ih =>
    rw [evictLoop]
    split_ifs with hover
    · cases hplace : (c.places order).argmin fun place => place.1.lastUsed with
      | none => exact ⟨[], Shrunk.refl⟩
      | some place =>
        obtain ⟨gone, hgone⟩ := ih (c.removeBucketEntry place.2.1 place.2.2)
        exact ⟨_, (evict_turn hplace).1.trans hgone⟩
    · exact ⟨[], Shrunk.refl⟩

/-- nothing is left to evict when there is no entry -/
theorem Accounted.not_overLimits_of_all_nil (hacc : Accounted c) (h : c.all = []) : c.overLimits = false := by
  simp [overLimits, entryCount_eq, hacc.bytes, h, bytesOf]

theorem places_ne_nil (h : c.all ≠ []) : (c.places order).argmin (fun place => place.1.lastUsed) ≠ none := by
  rw [Ne, List.argmin_eq_none]
  intro hnil
  have hperm := places_perm order c
  rw [hnil] at hperm
  exact h hperm.nil_eq.symm

/-- as many turns as there are entries are enough -/
theorem evictLoop_within (turns : ℕ) (c : HttpCache Url) (hacc : Accounted c) (hle : c.entryCount ≤ turns) :
    (evictLoop order turns c).overLimits = false := by
  induction turns generalizing c with
  | zero =>
    rw [entryCount_eq, Nat.le_zero, List.length_eq_zero_iff] at hle
    exact hacc.not_overLimits_of_all_nil hle
  | succ turns ih =>
    rw [evictLoop]
    split_ifs with hover
    · cases hplace : (c.places order).argmin fun place => place.1.lastUsed with
      | none =>
        refine hacc.not_overLimits_of_all_nil ?_
        by_contra hne
        exact places_ne_nil hne hplace
      | some place =>
        have hturn := (evict_turn hplace).1
        apply ih _ (hacc.shrunk hturn)
        have hlen := hturn.all.length_eq
        rw [List.length_append, List.length_singleton] at hlen
        rw [entryCount_eq] at hle ⊢
        omega
    · simpa using hover

/-- the entry is in the cache, and all others were used before it -/
def Newest (c : HttpCache Url) (entry : CacheEntry Url) : Prop :=
  ∃ rest, c.all.Perm (entry :: rest) ∧ ∀ other ∈ rest, other.lastUsed < entry.lastUsed

/-- what is over the limits has another entry, and that one goes first -/
theorem newest_evict_turn (hacc : Accounted c) (hnew : Newest c entry) (hone : 0 < c.config.maxEntries)
    (hfits : entry.responseBytes ≤ c.config.maxBytes) (hover : c.overLimits = true)
    {place : CacheEntry Url × CacheKey × ℕ} (h : ((c.places order).argmin fun place => place.1.lastUsed) = some place) :
    Newest (c.removeBucketEntry place.2.1 place.2.2) entry := by
  obtain ⟨rest, hperm, hrest⟩ := hnew
  obtain ⟨hturn, hleast⟩ := evict_turn h
  have hplace : place.1 ∈ c.all := hturn.all.mem_iff.2 (by simp)
  have hne : place.1 ≠ entry := by
    intro heq
    cases rest with
    | nil =>
      have hcount : c.entryCount = 1 := by rw [entryCount_eq, hperm.length_eq]; rfl
      have hbytes : c.memoryBytes = entry.responseBytes := by rw [hacc.bytes, bytesOf_perm hperm]; simp [bytesOf]
      simp only [overLimits, Bool.or_eq_true, decide_eq_true_eq] at hover
      omega
    | cons other rest =>
      have hlt := hrest other List.mem_cons_self
      have hle := hleast other (hperm.mem_iff.2 (by simp))
      rw [heq] at hle
      omega
  have hin : place.1 ∈ rest := by
    cases hperm.mem_iff.1 hplace with
    | head => exact absurd rfl hne
    | tail _ hin => exact hin
  obtain ⟨rest', hrest'⟩ : ∃ rest', rest.Perm (place.1 :: rest') := by
    obtain ⟨before, after, rfl⟩ := List.append_of_mem hin
    exact ⟨before ++ after, List.perm_middle⟩
  refine ⟨rest', ?_, ?_⟩
  · have hall : (place.1 :: (c.removeBucketEntry place.2.1 place.2.2).all).Perm (place.1 :: entry :: rest') :=
      hturn.all.symm.trans (hperm.trans ((hrest'.cons entry).trans (List.Perm.swap _ _ _)))
    exact hall.cons_inv
  · intro other hother
    exact hrest other (hrest'.mem_iff.2 (List.mem_cons_of_mem _ hother))

theorem evictLoop_newest (order : MapOrder Url) (turns : ℕ) (c : HttpCache Url) (hacc : Accounted c) (hnew : Newest c entry)
    (hone : 0 < c.config.maxEntries) (hfits : entry.responseBytes ≤ c.config.maxBytes) :
    Newest (evictLoop order turns c) entry := by
  induction turns generalizing c with
  | zero => exact hnew
  | succ turns ih =>
    rw [evictLoop]
    split_ifs with hover
    · cases hplace : (c.places order).argmin fun place => place.1.lastUsed with
      | none => exact hnew
      | some place =>
        have hturn := (evict_turn hplace).1
        apply ih _ (hacc.shrunk hturn) (newest_evict_turn hacc hnew hone hfits hover hplace)
        · rw [hturn.config]
          exact hone
        · rw [hturn.config]
          exact hfits
    · exact hnew

/-! ## Putting an entry -/

/-- the bucket without the entry of a variant -/
theorem withoutVariant_spec (c : HttpCache Url) (key : CacheKey) (variant : VaryVariant) :
    ∃ gone, ((c.bucket key).getD []).Perm (gone ++ (c.withoutVariant key variant).1) ∧
      (c.withoutVariant key variant).2 = c.memoryBytes - bytesOf gone ∧
      (c.withoutVariant key variant).1.Sublist ((c.bucket key).getD []) := by
  rw [withoutVariant]
  cases hbucket : c.bucket key with
  | none => exact ⟨[], List.Perm.refl _, rfl, List.Sublist.refl _⟩
  | some entries =>
    simp only [Option.getD_some]
    cases hfind : entries.findIdx? fun existing => existing.variant = variant with
    | none => exact ⟨[], List.Perm.refl _, rfl, List.Sublist.refl _⟩
    | some index =>
      obtain ⟨hlt, -⟩ := List.findIdx?_eq_some_iff_getElem.1 hfind
      have hget : entries[index]? = some entries[index] := List.getElem?_eq_getElem hlt
      refine ⟨[entries[index]], eraseIdx_perm hget, ?_, List.eraseIdx_sublist _ _⟩
      simp [hget, bytesOf]

/-- no entry of the variant is left -/
theorem not_mem_withoutVariant (hacc : Accounted c) (key : CacheKey) (variant : VaryVariant) :
    variant ∉ (c.withoutVariant key variant).1.map CacheEntry.variant := by
  rw [withoutVariant]
  cases hbucket : c.bucket key with
  | none => simp
  | some entries =>
    simp only
    cases hfind : entries.findIdx? fun existing => existing.variant = variant with
    | none =>
      intro hmem
      obtain ⟨entry, hentry, hvariant⟩ := List.mem_map.1 hmem
      have hnot := List.findIdx?_eq_none_iff.1 hfind entry hentry
      rw [decide_eq_false_iff_not] at hnot
      exact hnot hvariant
    | some index =>
      obtain ⟨hlt, hvariant, -⟩ := List.findIdx?_eq_some_iff_getElem.1 hfind
      rw [decide_eq_true_eq] at hvariant
      have hperm := (eraseIdx_perm (List.getElem?_eq_getElem hlt)).map CacheEntry.variant
      have hnodup := hperm.nodup_iff.1 (hacc.variants key entries hbucket)
      rw [List.map_cons, hvariant, List.nodup_cons] at hnodup
      exact hnodup.1

theorem bucket_putEntry : (c.putEntry key entry).bucket key = some ((c.withoutVariant key entry.variant).1 ++ [entry]) :=
  Assoc.get_set

theorem bucket_putEntry_of_ne {other : CacheKey} (h : other ≠ key) : (c.putEntry key entry).bucket other = c.bucket other :=
  Assoc.get_set_of_ne h

/-- the entry that is put, and those before it without what it replaces -/
theorem putEntry_perm (c : HttpCache Url) (key : CacheKey) (entry : CacheEntry Url) :
    ∃ gone rest, c.all.Perm (gone ++ rest) ∧ (c.putEntry key entry).all.Perm (entry :: rest) ∧
    (c.putEntry key entry).memoryBytes = c.memoryBytes - bytesOf gone + entry.responseBytes := by
  obtain ⟨gone, hperm, hbytes, -⟩ := withoutVariant_spec c key entry.variant
  refine ⟨gone, (c.withoutVariant key entry.variant).1 ++ (c.entries.erase key).flat, ?_, ?_, ?_⟩
  · rw [← List.append_assoc]
    refine List.Perm.trans ?_ (hperm.append_right _)
    cases hbucket : c.bucket key with
    | none =>
      rw [Assoc.flat_erase_of_get_none hbucket]
      exact List.Perm.refl _
    | some entries => exact all_perm hbucket
  · have heq : (c.putEntry key entry).all =
        (c.withoutVariant key entry.variant).1 ++ [entry] ++ (c.entries.erase key).flat := Assoc.flat_set
    rw [heq, List.append_assoc]
    exact List.perm_middle
  · rw [putEntry, hbytes]

theorem Accounted.putEntry (hacc : Accounted c) (hsize : entry.responseBytes = entry.response.body.length)
    (hused : entry.lastUsed ≤ c.accessClock) : Accounted (c.putEntry key entry) := by
  obtain ⟨gone, rest, hperm, hnew, hbytes⟩ := putEntry_perm c key entry
  have hrest : ∀ other ∈ rest, other ∈ c.all := fun other hmem => hperm.mem_iff.2 (List.mem_append_right _ hmem)
  refine ⟨?_, ?_, ?_, ?_, ?_⟩
  · rw [hbytes, hacc.bytes, bytesOf_perm hperm, bytesOf_append, Nat.add_sub_cancel_left, bytesOf_perm hnew, Nat.add_comm]
    rfl
  · intro other hmem
    cases hnew.mem_iff.1 hmem with
    | head => exact hsize
    | tail _ hmem => exact hacc.sizes other (hrest other hmem)
  · intro k hget
    by_cases hk : k = key
    · subst hk
      rw [bucket_putEntry] at hget
      simp at hget
    · exact hacc.nonempty k ((bucket_putEntry_of_ne hk).symm.trans hget)
  · intro k entries hget
    by_cases hk : k = key
    · subst hk
      rw [bucket_putEntry] at hget
      cases hget
      have hdisjoint := not_mem_withoutVariant hacc k entry.variant
      obtain ⟨-, -, -, hsub⟩ := withoutVariant_spec c k entry.variant
      have hnodup : ((c.withoutVariant k entry.variant).1.map CacheEntry.variant).Nodup := by
        refine List.Nodup.sublist (hsub.map _) ?_
        cases hbucket : c.bucket k with
        | none => exact List.nodup_nil
        | some entries => exact hacc.variants k entries hbucket
      rw [List.map_append, List.nodup_append']
      refine ⟨hnodup, List.nodup_singleton _, ?_⟩
      rw [List.map_singleton, List.disjoint_singleton]
      exact hdisjoint
    · exact hacc.variants k entries ((bucket_putEntry_of_ne hk).symm.trans hget)
  · intro other hmem
    cases hnew.mem_iff.1 hmem with
    | head => exact hused
    | tail _ hmem => exact hacc.used other (hrest other hmem)

/-- an entry that was used after all others is the newest one -/
theorem newest_putEntry (h : ∀ other ∈ c.all, other.lastUsed < entry.lastUsed) : Newest (c.putEntry key entry) entry := by
  obtain ⟨gone, rest, hperm, hnew, -⟩ := putEntry_perm c key entry
  refine ⟨rest, hnew, ?_⟩
  intro other hmem
  exact h other (hperm.mem_iff.2 (List.mem_append_right _ hmem))

/-! ## Using an entry -/

/-- the cache after an entry of a bucket was used -/
def useEntry (c : HttpCache Url) (key : CacheKey) (entries : List (CacheEntry Url)) (index : ℕ) (entry : CacheEntry Url) :
    HttpCache Url :=
  { c with
    accessClock := c.nextAccess.1
    entries := c.entries.set key (entries.set index { entry with lastUsed := c.nextAccess.1 }) }

theorem touch_eq (hbucket : c.bucket key = some entries) (hentry : entries[index]? = some entry) :
    c.touch key index = (some entry.response, c.useEntry key entries index entry) := by
  have hnext : c.nextAccess.2.bucket key = some entries := hbucket
  rw [touch]
  simp only [hnext, hentry]
  rfl

/-- a hit is the entry of the bucket with the latest deadline among the fresh ones that match -/
theorem lookup_cases (parts : UrlParts Url) (c : HttpCache Url) (request : FetchRequest Url) (now : Instant) :
    c.lookup parts request now = (none, c) ∨
    requestSkipReason parts request = none ∧ request.cacheValidators = none ∧ ∃ entries index entry,
      c.bucket (CacheKey.fromRequest parts request) = some entries ∧ entries[index]? = some entry ∧
      entry.isFresh request now = true ∧
      c.lookup parts request now = (some entry.response, c.useEntry (CacheKey.fromRequest parts request) entries index entry)
    := by
  rw [lookup]
  split_ifs with hskip
  · exact Or.inl rfl
  · rw [Bool.or_eq_true, not_or, Bool.not_eq_true, Bool.not_eq_true, Option.isSome_eq_false_iff, Option.isNone_iff_eq_none,
      Option.isSome_eq_false_iff, Option.isNone_iff_eq_none] at hskip
    simp only
    cases hindex : (c.bucket (CacheKey.fromRequest parts request)).bind fun entries => freshEntryIndex entries request now with
    | none => exact Or.inl rfl
    | some index =>
      obtain ⟨entries, hbucket, hfresh⟩ := Option.bind_eq_some_iff.1 hindex
      obtain ⟨entry, hentry, haccept, -⟩ := latestIndex_eq_some hfresh
      exact Or.inr ⟨hskip.1, hskip.2, entries, index, entry, hbucket, hentry, haccept, touch_eq hbucket hentry⟩

/-- the entry that a request would revalidate has the latest deadline among the expired ones that match -/
theorem staleEntry_eq_some {request : FetchRequest Url} {now : Instant}
    (h : c.staleEntry parts request now = some (entry, index)) :
    ∃ entries, c.bucket (CacheKey.fromRequest parts request) = some entries ∧ entries[index]? = some entry ∧
      staleEntryIndex entries request now = some index ∧ Latest (fun entry => entry.isStale request now) entries entry := by
  rw [staleEntry] at h
  obtain ⟨entries, hbucket, h⟩ := Option.bind_eq_some_iff.1 h
  obtain ⟨i, hindex, h⟩ := Option.bind_eq_some_iff.1 h
  obtain ⟨found, hget, h⟩ := Option.bind_eq_some_iff.1 h
  cases h
  obtain ⟨entry', hget', -, hlatest⟩ := latestIndex_eq_some hindex
  cases hget.symm.trans hget'
  exact ⟨entries, hbucket, hget, hindex, hlatest⟩

/-- a stale response is the one of the entry that the request would revalidate -/
theorem staleResponse_cases (parts : UrlParts Url) (c : HttpCache Url) (request : FetchRequest Url) (now : Instant) :
    c.staleResponse parts request now = (none, c) ∨
    requestSkipReason parts request = none ∧ ∃ entries index entry,
      c.bucket (CacheKey.fromRequest parts request) = some entries ∧ entries[index]? = some entry ∧
      c.staleEntry parts request now = some (entry, index) ∧
      c.staleResponse parts request now =
        (some entry.response, c.useEntry (CacheKey.fromRequest parts request) entries index entry) := by
  rw [staleResponse]
  split_ifs with hskip
  · exact Or.inl rfl
  · rw [Bool.not_eq_true, Option.isSome_eq_false_iff, Option.isNone_iff_eq_none] at hskip
    simp only
    cases hindex : (c.bucket (CacheKey.fromRequest parts request)).bind fun entries => staleEntryIndex entries request now with
    | none => exact Or.inl rfl
    | some index =>
      obtain ⟨entries, hbucket, hstale⟩ := Option.bind_eq_some_iff.1 hindex
      obtain ⟨entry, hentry, -, -⟩ := latestIndex_eq_some hstale
      refine Or.inr ⟨hskip, entries, index, entry, hbucket, hentry, ?_, touch_eq hbucket hentry⟩
      rw [staleEntry, hbucket]
      simp [hstale, hentry]

theorem revalidationRequest_cache (request : FetchRequest Url) (now : Instant) :
    (c.revalidationRequest parts request now).2 = (c.staleResponse parts request now).2 := by
  rw [revalidationRequest]
  rcases c.staleResponse parts request now with ⟨_ | stale, c'⟩
  · rfl
  · simp only
    split_ifs <;> rfl

end HttpCache

/-! ## What a call does -/

namespace Insertion

/-- the key of the bucket of an insertion -/
def key (parts : UrlParts Url) (ins : Insertion Url) : CacheKey := .fromRequest parts ins.request

def entry (ins : Insertion Url) (lastUsed : ℕ) : CacheEntry Url :=
  ⟨ins.response, ins.variant, ins.freshUntil, ins.response.body.length, lastUsed⟩

end Insertion

/-- an entry is used, some are gone, one is put and others are gone, or all are gone -/
inductive Effect (parts : UrlParts Url) (s : Session Url) (call : CacheCall Url) : HttpCache Url → Prop
  | used (key : CacheKey) (entries : List (CacheEntry Url)) (index : ℕ) (entry : CacheEntry Url)
      (hnone : s.inserts parts call = none) (hbucket : s.cache.bucket key = some entries)
      (hentry : entries[index]? = some entry) :
      Effect parts s call (s.cache.useEntry key entries index entry)
  | shrunk (c : HttpCache Url) (gone : List (CacheEntry Url)) (hnone : s.inserts parts call = none)
      (h : HttpCache.Shrunk s.cache c gone) : Effect parts s call c
  | inserted (order : MapOrder Url) (ins : Insertion Url) (c : HttpCache Url) (gone : List (CacheEntry Url))
      (hins : s.inserts parts call = some ins) (h : HttpCache.Shrunk s.cache.nextAccess.2 c gone) :
      Effect parts s call (c.insertEntry order (ins.key parts) (ins.entry s.cache.nextAccess.1))
  | cleared (hcall : call = .clear) : Effect parts s call s.cache.clear

namespace Session

open HttpCache

variable {parts : UrlParts Url} {s : Session Url}

theorem effect_staleResponse {call : CacheCall Url} (request : FetchRequest Url) (now : Instant)
    (hnone : s.inserts parts call = none) :
    Effect parts s call (s.cache.staleResponse parts request now).2 := by
  rcases staleResponse_cases parts s.cache request now with h | ⟨-, entries, index, entry, hbucket, hentry, -, h⟩
  · rw [h]
    exact Effect.shrunk _ [] hnone Shrunk.refl
  · rw [h]
    exact Effect.used _ entries index entry hnone hbucket hentry

/-- what `merge_not_modified` is made from is an entry of the bucket -/
theorem mergeable_eq_some {c : HttpCache Url} {request : FetchRequest Url} {response merged : FetchResponse Url} {now : Instant}
    {submitted : CacheEpoch} {index : ℕ} {refresh : Option (VaryVariant × Instant)}
    (h : c.mergeable parts request response now submitted = some (merged, index, refresh)) :
    c.acceptsNotModified parts request response submitted = true ∧ ∃ previous,
      c.staleEntry parts request now = some (previous, index) ∧ merged = mergedResponse previous.response response ∧
      ∀ variant freshUntil, refresh = some (variant, freshUntil) →
        VaryVariant.fromRequest request merged.headers = some variant ∧ ∃ freshness,
          cachePolicy parts request merged = .store freshness ∧ now.checkedAdd freshness.nanos = some freshUntil := by
  rw [mergeable] at h
  split_ifs at h with haccepts
  · refine ⟨haccepts, ?_⟩
    cases hstale : c.staleEntry parts request now with
    | none =>
      rw [hstale] at h
      cases h
    | some found =>
      obtain ⟨previous, i⟩ := found
      rw [hstale] at h
      simp only at h
      refine ⟨previous, ?_⟩
      split at h
      · cases h
        exact ⟨rfl, rfl, fun _ _ heq => by cases heq⟩
      · cases h
        exact ⟨rfl, rfl, fun _ _ heq => by cases heq⟩
      · rename_i variant freshness hvariant hpolicy
        obtain ⟨freshUntil, hadd, h⟩ := Option.map_eq_some_iff.1 h
        cases h
        refine ⟨rfl, rfl, ?_⟩
        intro _ _ heq
        cases heq
        exact ⟨hvariant, freshness, hpolicy, hadd⟩

theorem effect_mergeNotModified (order : MapOrder Url) (request : FetchRequest Url) (response : FetchResponse Url)
    (now : Instant) (started : ℕ) :
    Effect parts s (.mergeNotModified order request response now started)
      (s.cache.mergeNotModified parts order request response now (s.epochAt started)).2 := by
  rw [mergeNotModified]
  cases hmerge : s.cache.mergeable parts request response now (s.epochAt started) with
  | none =>
    refine Effect.shrunk _ [] ?_ Shrunk.refl
    rw [inserts, hmerge]
  | some found =>
    obtain ⟨merged, index, refresh⟩ := found
    obtain ⟨-, previous, hstale, -, -⟩ := mergeable_eq_some hmerge
    obtain ⟨entries, hbucket, hentry, -, -⟩ := staleEntry_eq_some hstale
    cases refresh with
    | none =>
      refine Effect.shrunk _ _ ?_ (shrunk_removeBucketEntry hbucket hentry)
      rw [inserts, hmerge]
    | some refresh =>
      obtain ⟨variant, freshUntil⟩ := refresh
      have hbucket' : s.cache.nextAccess.2.bucket (CacheKey.fromRequest parts request) = some entries := hbucket
      have hins : s.inserts parts (.mergeNotModified order request response now started) =
          some ⟨request, merged, now, started, variant, freshUntil⟩ := by
        rw [inserts, hmerge]
      exact Effect.inserted order ⟨request, merged, now, started, variant, freshUntil⟩
        (s.cache.nextAccess.2.removeBucketEntry (CacheKey.fromRequest parts request) index) [previous] hins
        (shrunk_removeBucketEntry hbucket' hentry)

theorem effect_store (order : MapOrder Url) (request : FetchRequest Url) (response : FetchResponse Url) (now : Instant)
    (started : ℕ) :
    Effect parts s (.store order request response now started)
      (s.cache.store parts order request response now (s.epochAt started)).2 := by
  rw [store]
  cases hstore : s.cache.storable parts request response now (s.epochAt started) with
  | error reason =>
    refine Effect.shrunk _ [] ?_ Shrunk.refl
    rw [inserts, hstore]
  | ok found =>
    obtain ⟨variant, freshUntil⟩ := found
    have hins : s.inserts parts (.store order request response now started) =
        some ⟨request, response, now, started, variant, freshUntil⟩ := by
      rw [inserts, hstore]
    exact Effect.inserted order ⟨request, response, now, started, variant, freshUntil⟩ s.cache.nextAccess.2 [] hins
      Shrunk.refl

theorem effect_call (call : CacheCall Url) : Effect parts s call (s.call parts call) := by
  cases call with
  | lookup request now =>
    rw [Session.call]
    rcases lookup_cases parts s.cache request now with h | ⟨-, -, entries, index, entry, hbucket, hentry, -, h⟩
    · rw [h]
      exact Effect.shrunk _ [] rfl Shrunk.refl
    · rw [h]
      exact Effect.used _ entries index entry rfl hbucket hentry
  | staleResponse request now => exact effect_staleResponse request now rfl
  | revalidationRequest request now =>
    rw [Session.call, revalidationRequest_cache]
    exact effect_staleResponse request now rfl
  | mergeNotModified order request response now started => exact effect_mergeNotModified order request response now started
  | store order request response now started => exact effect_store order request response now started
  | clear => exact Effect.cleared rfl

end Session

end Render.Cache
