/-
Local storage in the profile (`ProfileStorage` of `render-browser/src/profile.rs`).

Every document works on a copy of its origin's area. What it leaves behind is the difference between the copy it got and
the copy it returns, applied to what the store holds by then (`applyChanges_get`). Differences in different keys therefore
commute, as long as the quota refuses neither. The file of the store is a line for each entry, whose fields are escaped.

The areas that the store has an entry for are not empty, which makes the store known by what it has under each key. The
`IndexedDB` states of the profile are a map of their own and are left out.
-/
import Render.Core.SortedMap
import Render.Net.CookieStore
import Mathlib.Data.List.Lex

namespace Render.Profile

open Render.Core Render.Net

/-! ## The source -/

abbrev Area := SortedMap Chars Chars

def storageHeader : Chars := "# rENDER local storage v1".toList

def maxOriginStorageBytes : ℕ := 5 * 1024 * 1024

/-- the sum of the lengths of the keys and values -/
def areaBytes (area : Area) : ℕ := (area.entries.map fun entry => entry.1.byteLen + entry.2.byteLen).sum

/-- no area of the store is empty -/
def Filled (origins : SortedMap Chars Area) : Prop := ∀ origin area, origins.get origin = some area → area.entries ≠ []

theorem filled_erase {origins : SortedMap Chars Area} (h : Filled origins) (origin : Chars) :
    Filled (origins.erase origin) := by
  intro other area hother
  by_cases heq : other = origin
  · rw [heq, SortedMap.get_erase_self] at hother
    cases hother
  · rw [SortedMap.get_erase_ne heq] at hother
    exact h other area hother

theorem filled_insert {origins : SortedMap Chars Area} (h : Filled origins) (origin : Chars) {area : Area}
    (harea : area.entries ≠ []) : Filled (origins.insert origin area) := by
  intro other found hother
  by_cases heq : other = origin
  · rw [heq, SortedMap.get_insert_self] at hother
    exact Option.some.inj hother ▸ harea
  · rw [SortedMap.get_insert_ne heq] at hother
    exact h other found hother

structure ProfileStorage where
  origins : SortedMap Chars Area
  dirty : Bool
  filled : Filled origins

/-- the stored area of an origin -/
def ProfileStorage.stored (store : ProfileStorage) (origin : Chars) : Area := (store.origins.get origin).getD .empty

/-- the entries of a copy as a map, where the last of a key counts -/
def collect (entries : List (Chars × Chars)) : Area := SortedMap.empty.insertAll entries

/-- a key of the copy before goes unless the copy after has it -/
def removeStep (after : Area) (state : Area × Bool) (key : Chars) : Area × Bool :=
  if after.contains key then state else (state.1.erase key, state.2 || state.1.contains key)

/-- an entry of the copy after is written unless the copy before had it -/
def writeStep (before : Area) (state : Area × Bool) (entry : Chars × Chars) : Area × Bool :=
  if before.get entry.1 = some entry.2 then state else (state.1.insert entry.1 entry.2, true)

/-- the area with the changes of a document, and whether there was one -/
def merged (area before after : Area) : Area × Bool :=
  after.entries.foldl (writeStep before) (before.keys.foldl (removeStep after) (area, false))

/-- the area of an origin is replaced, or removed when it is empty -/
def ProfileStorage.replaceArea (store : ProfileStorage) (origin : Chars) (area : Area) : ProfileStorage :=
  if h : area.entries = [] then ⟨store.origins.erase origin, true, filled_erase store.filled origin⟩
  else ⟨store.origins.insert origin area, true, filled_insert store.filled origin h⟩

/-- `apply_changes` -/
def ProfileStorage.applyChanges (store : ProfileStorage) (origin : Chars) (before after : List (Chars × Chars)) :
    ProfileStorage :=
  let result := merged (store.stored origin) (collect before) (collect after)
  if result.2 = false then store
  else if maxOriginStorageBytes < areaBytes result.1 then store
  else store.replaceArea origin result.1

/-- `escape_field`, as in the store of cookies -/
def escapeField (text : Chars) : Chars := Net.escapeField text

/-- `unescape_field`, as in the store of cookies -/
def unescapeField (text : Chars) : Option Chars := Net.unescapeField text

/-- the line of an entry -/
def storageLine (origin : Chars) (entry : Chars × Chars) : Chars :=
  escapeField origin ++ '\t' :: escapeField entry.1 ++ '\t' :: escapeField entry.2

/-- `serialize` -/
def ProfileStorage.serialize (store : ProfileStorage) : Chars :=
  storageHeader ++ '\n' :: store.origins.entries.flatMap fun area =>
    area.2.entries.flatMap fun entry => storageLine area.1 entry ++ ['\n']

/-- the fields of a line; a malformed line is skipped -/
def parseStorageLine (line : Chars) : Option (Chars × Chars × Chars) :=
  match line.splitOn '\t' with
  | [origin, key, value] => do return (← unescapeField origin, ← unescapeField key, ← unescapeField value)
  | _ => none

/-- `parse_storage_text` -/
def parseStorageText (text : Chars) : List (Chars × Chars × Chars) :=
  match text.lines with
  | [] => []
  | header :: rest => if header ≠ storageHeader then [] else rest.filterMap parseStorageLine

theorem insert_entries_ne_nil (area : Area) (key value : Chars) : (area.insert key value).entries ≠ [] :=
  List.append_ne_nil_of_right_ne_nil _ (List.cons_ne_nil _ _)

/-- `origins.entry(origin).or_default().insert(key, value)` -/
def ProfileStorage.loadEntry (store : ProfileStorage) (entry : Chars × Chars × Chars) : ProfileStorage :=
  ⟨store.origins.insert entry.1 ((store.stored entry.1).insert entry.2.1 entry.2.2), store.dirty,
    filled_insert store.filled entry.1 (insert_entries_ne_nil _ _ _)⟩

theorem filled_empty : Filled .empty := by
  intro origin area h
  cases h

def ProfileStorage.empty : ProfileStorage := ⟨.empty, false, filled_empty⟩

/-- the store that `load` reads from a text -/
def ProfileStorage.load (text : Chars) : ProfileStorage := (parseStorageText text).foldl loadEntry empty

/-! ## Three-way merges -/

theorem removeStep_get (after : Area) (state : Area × Bool) (key k : Chars) :
    (removeStep after state key).1.get k = if k = key ∧ after.get k = none then none else state.1.get k := by
  unfold removeStep
  rw [SortedMap.contains_eq_isSome]
  by_cases hkey : k = key
  · subst hkey
    cases hafter : after.get k with
    | none => simp [SortedMap.get_erase_self]
    | some value => simp
  · have hother : ¬ (k = key ∧ after.get k = none) := fun h => hkey h.1
    rw [if_neg hother]
    split_ifs
    · rfl
    · exact SortedMap.get_erase_ne hkey

theorem removed_get (after : Area) (keys : List Chars) (state : Area × Bool) (k : Chars) :
    (keys.foldl (removeStep after) state).1.get k =
      if k ∈ keys ∧ after.get k = none then none else state.1.get k := by
  induction keys generalizing state with
  | nil => simp
  | cons key keys ih =>
    rw [List.foldl_cons, ih, removeStep_get]
    by_cases hafter : after.get k = none
    · by_cases hkey : k = key
      · simp [hkey ▸ hafter, hkey]
      · simp [hafter, hkey]
    · simp [hafter]

/-- what is written is the part of the copy after that the copy before lacks -/
theorem written_eq (before : Area) (entries : List (Chars × Chars)) (state : Area × Bool) :
    (entries.foldl (writeStep before) state).1 =
      state.1.insertAll (entries.filter fun entry => before.get entry.1 ≠ some entry.2) := by
  induction entries generalizing state with
  | nil => rfl
  | cons entry entries ih =>
    rw [List.foldl_cons, ih, writeStep]
    by_cases hsame : before.get entry.1 = some entry.2
    · rw [if_pos hsame, List.filter_cons_of_neg (by simpa using hsame)]
    · rw [if_neg hsame, List.filter_cons_of_pos (by simpa using hsame)]
      rfl

theorem written_get (before after : Area) (state : Area × Bool) (k : Chars) :
    (after.entries.foldl (writeStep before) state).1.get k =
      ((after.get k).filter fun value => before.get k ≠ some value).or (state.1.get k) := by
  have hretain : (after.retain fun key value => decide (before.get key ≠ some value)).get k =
      (after.get k).filter fun value => before.get k ≠ some value := SortedMap.get_retain
  rw [written_eq, ← hretain, ← SortedMap.get_insertAll_entries]
  rfl

/-- under each key the merge has what the document made of it, or what was stored where the document kept it -/
theorem merged_get (area before after : Area) (k : Chars) :
    (merged area before after).1.get k = if after.get k = before.get k then area.get k else after.get k := by
  have hkeys : k ∈ before.keys ↔ (before.get k).isSome = true := by
    rw [SortedMap.mem_keys, Option.isSome_iff_exists]
  rw [merged, written_get, removed_get]
  simp only [hkeys]
  cases hafter : after.get k with
  | none =>
    cases hbefore : before.get k with
    | none => simp
    | some value => simp
  | some value =>
    by_cases hsame : before.get k = some value
    · simp [hsame, Option.filter]
    · simp [hsame, Ne.symm hsame, Option.filter]

/-- a merge that changed nothing gives back the area -/
theorem removed_quiet {after : Area} {keys : List Chars} {state : Area × Bool}
    (h : (keys.foldl (removeStep after) state).2 = false) : keys.foldl (removeStep after) state = state := by
  induction keys generalizing state with
  | nil => rfl
  | cons key keys ih =>
    rw [List.foldl_cons] at h ⊢
    have hrest := ih h
    rw [hrest] at h ⊢
    unfold removeStep at h ⊢
    split_ifs at h ⊢ with hafter
    · rfl
    · obtain ⟨hquiet, habsent⟩ : state.2 = false ∧ state.1.contains key = false := by simpa using h
      have hsame : state.1.erase key = state.1 := SortedMap.ext_get fun k => by
        by_cases hkey : k = key
        · have hnone : state.1.get key = none := by
            rw [SortedMap.contains_eq_isSome] at habsent
            simpa using habsent
          rw [hkey, SortedMap.get_erase_self, hnone]
        · exact SortedMap.get_erase_ne hkey
      rw [hsame, hquiet, habsent, Bool.or_self, ← hquiet]

theorem written_quiet {before : Area} {entries : List (Chars × Chars)} {state : Area × Bool}
    (h : (entries.foldl (writeStep before) state).2 = false) : entries.foldl (writeStep before) state = state := by
  induction entries generalizing state with
  | nil => rfl
  | cons entry entries ih =>
    rw [List.foldl_cons] at h ⊢
    have hrest := ih h
    rw [hrest] at h ⊢
    unfold writeStep at h ⊢
    split_ifs at h ⊢
    rfl

theorem merged_quiet {area before after : Area} (h : (merged area before after).2 = false) :
    (merged area before after).1 = area := by
  rw [merged] at h ⊢
  have hwritten := written_quiet h
  rw [hwritten] at h ⊢
  rw [removed_quiet h]

/-! ## The store -/

/-- the quota lets the change of a document pass -/
def ProfileStorage.Accepts (store : ProfileStorage) (origin : Chars) (before after : List (Chars × Chars)) : Prop :=
  areaBytes (merged (store.stored origin) (collect before) (collect after)).1 ≤ maxOriginStorageBytes

theorem ext_origins {left right : ProfileStorage} (h : ∀ origin, left.stored origin = right.stored origin) :
    left.origins = right.origins := by
  have hget (store : ProfileStorage) (origin : Chars) :
      store.origins.get origin = if (store.stored origin).entries = [] then none else some (store.stored origin) := by
    rw [ProfileStorage.stored]
    cases harea : store.origins.get origin with
    | none => rfl
    | some area => exact (if_neg (store.filled origin area harea)).symm
  exact SortedMap.ext_get fun origin => by rw [hget, hget, h]

theorem stored_replaceArea (store : ProfileStorage) (origin : Chars) (area : Area) (other : Chars) :
    (store.replaceArea origin area).stored other = if other = origin then area else store.stored other := by
  unfold ProfileStorage.replaceArea ProfileStorage.stored
  by_cases hother : other = origin
  · rw [if_pos hother, hother]
    split_ifs with hempty
    · rw [SortedMap.get_erase_self]
      exact SortedMap.ext hempty.symm
    · rw [SortedMap.get_insert_self, Option.getD_some]
  · rw [if_neg hother]
    split_ifs
    · rw [SortedMap.get_erase_ne hother]
    · rw [SortedMap.get_insert_ne hother]

/-- an accepted change leaves the merge in the area of its origin, and the other areas as they were -/
theorem stored_applyChanges {store : ProfileStorage} {origin : Chars} {before after : List (Chars × Chars)}
    (h : store.Accepts origin before after) (other : Chars) : (store.applyChanges origin before after).stored other =
      if other = origin then (merged (store.stored origin) (collect before) (collect after)).1 else store.stored other := by
  rw [ProfileStorage.Accepts, ← Nat.not_lt] at h
  simp only [ProfileStorage.applyChanges, if_neg h]
  by_cases hquiet : (merged (store.stored origin) (collect before) (collect after)).2 = false
  · rw [if_pos hquiet, merged_quiet hquiet]
    split_ifs with hother
    · rw [hother]
    · rfl
  · rw [if_neg hquiet, stored_replaceArea]

/-- a refused change leaves the store as it was -/
theorem applyChanges_refused {store : ProfileStorage} {origin : Chars} {before after : List (Chars × Chars)}
    (h : ¬ store.Accepts origin before after) : store.applyChanges origin before after = store := by
  rw [ProfileStorage.Accepts, Nat.not_le] at h
  simp only [ProfileStorage.applyChanges, if_pos h, ite_self]

theorem applyChanges_get {store : ProfileStorage} {origin : Chars} {before after : List (Chars × Chars)}
    (h : store.Accepts origin before after) (k : Chars) : ((store.applyChanges origin before after).stored origin).get k =
      if (collect after).get k = (collect before).get k then (store.stored origin).get k else (collect after).get k := by
  rw [stored_applyChanges h, if_pos rfl, merged_get]

/-- two documents have no key in common that both changed -/
def Disjoint (before₁ after₁ before₂ after₂ : List (Chars × Chars)) : Prop :=
  ∀ k, (collect after₁).get k = (collect before₁).get k ∨ (collect after₂).get k = (collect before₂).get k

/-- changes in different keys give the same store in either order -/
theorem applyChanges_comm {store : ProfileStorage} {origin : Chars} {before₁ after₁ before₂ after₂ : List (Chars × Chars)}
    (hkeys : Disjoint before₁ after₁ before₂ after₂) (h₁ : store.Accepts origin before₁ after₁)
    (h₁₂ : (store.applyChanges origin before₁ after₁).Accepts origin before₂ after₂)
    (h₂ : store.Accepts origin before₂ after₂)
    (h₂₁ : (store.applyChanges origin before₂ after₂).Accepts origin before₁ after₁) :
    ((store.applyChanges origin before₁ after₁).applyChanges origin before₂ after₂).origins =
      ((store.applyChanges origin before₂ after₂).applyChanges origin before₁ after₁).origins := by
  refine ext_origins fun other => ?_
  by_cases hother : other = origin
  · subst hother
    refine SortedMap.ext_get fun k => ?_
    rw [applyChanges_get h₁₂, applyChanges_get h₁, applyChanges_get h₂₁, applyChanges_get h₂]
    rcases hkeys k with hsame | hsame
    · rw [if_pos hsame, if_pos hsame]
    · rw [if_pos hsame, if_pos hsame]
  · rw [stored_applyChanges h₁₂, stored_applyChanges h₂₁, if_neg hother, if_neg hother, stored_applyChanges h₁,
      stored_applyChanges h₂, if_neg hother, if_neg hother]

/-! ## The file -/

/-- the entries of the store, each with its origin -/
def ProfileStorage.storeEntries (store : ProfileStorage) : List (Chars × Chars × Chars) :=
  store.origins.entries.flatMap fun area => area.2.entries.map fun entry => (area.1, entry)

theorem not_mem_storageLine {c : Char} (hc : c = '\n' ∨ c = '\r') (origin : Chars) (entry : Chars × Chars) :
    c ∉ storageLine origin entry := by
  have hfield (text : Chars) : c ∉ escapeField text := not_mem_escapeField (.inr hc)
  have htab : c ≠ '\t' := by rcases hc with rfl | rfl <;> decide
  simp only [storageLine, List.mem_append, List.mem_cons, not_or]
  exact ⟨⟨hfield origin, htab, hfield entry.1⟩, htab, hfield entry.2⟩

/-- the fields of a line are read back -/
theorem parseStorageLine_storageLine (origin : Chars) (entry : Chars × Chars) :
    parseStorageLine (storageLine origin entry) = some (origin, entry) := by
  have hjoined : storageLine origin entry =
      ['\t'].intercalate [escapeField origin, escapeField entry.1, escapeField entry.2] := by
    simp [storageLine, List.intercalate]
  have hsplit : (storageLine origin entry).splitOn '\t' =
      [escapeField origin, escapeField entry.1, escapeField entry.2] := by
    rw [hjoined]
    refine List.splitOn_intercalate '\t' (fun field hfield htab => ?_) (List.cons_ne_nil _ _)
    simp only [List.mem_cons, List.not_mem_nil, or_false] at hfield
    rcases hfield with rfl | rfl | rfl <;> exact not_mem_escapeField (.inl rfl) htab
  have hread (text : Chars) : unescapeField (escapeField text) = some text := unescapeField_escapeField text
  rw [parseStorageLine, hsplit]
  simp only [hread]
  rfl

/-- lines without a line break, each ended by one, are the lines of the text -/
theorem lines_flatMap {lines : List Chars} (h : ∀ line ∈ lines, '\n' ∉ line ∧ '\r' ∉ line) :
    Chars.lines (lines.flatMap fun line => line ++ ['\n']) = lines := by
  induction lines with
  | nil => rfl
  | cons line lines ih =>
    obtain ⟨⟨hfeed, hreturn⟩, hlines⟩ := List.forall_mem_cons.1 h
    have hchomp : Chars.chomp line = line := if_neg fun hlast => hreturn (List.mem_of_getLast? hlast)
    rw [List.flatMap_cons, List.append_assoc, List.singleton_append, Chars.lines_cons hfeed, hchomp, ih hlines]

theorem serialize_eq (store : ProfileStorage) : store.serialize =
    (storageHeader :: store.storeEntries.map fun entry => storageLine entry.1 entry.2).flatMap fun line =>
      line ++ ['\n'] := by
  rw [ProfileStorage.serialize, ProfileStorage.storeEntries, List.flatMap_cons, List.flatMap_map, List.flatMap_assoc]
  simp only [List.flatMap_map, List.append_assoc, List.singleton_append]

/-- what is read from the file of a store are its entries -/
theorem parseStorageText_serialize (store : ProfileStorage) : parseStorageText store.serialize = store.storeEntries := by
  have hlines : store.serialize.lines = storageHeader :: store.storeEntries.map fun entry => storageLine entry.1 entry.2 := by
    rw [serialize_eq]
    refine lines_flatMap (List.forall_mem_cons.2 ⟨by decide, fun line hline => ?_⟩)
    obtain ⟨entry, -, rfl⟩ := List.mem_map.1 hline
    exact ⟨not_mem_storageLine (.inl rfl) _ _, not_mem_storageLine (.inr rfl) _ _⟩
  rw [parseStorageText, hlines]
  simp only [ne_eq, not_true_eq_false, if_false, List.filterMap_map]
  have hall : store.storeEntries.filterMap some = store.storeEntries := List.filterMap_some
  refine Eq.trans (List.filterMap_congr fun entry _ => ?_) hall
  exact parseStorageLine_storageLine entry.1 entry.2

theorem stored_loadEntry (store : ProfileStorage) (entry : Chars × Chars × Chars) (origin : Chars) :
    (store.loadEntry entry).stored origin =
      if entry.1 = origin then (store.stored origin).insert entry.2.1 entry.2.2 else store.stored origin := by
  split_ifs with horigin
  · subst horigin
    rw [ProfileStorage.loadEntry, ProfileStorage.stored, SortedMap.get_insert_self, Option.getD_some]
  · rw [ProfileStorage.loadEntry, ProfileStorage.stored, SortedMap.get_insert_ne (Ne.symm horigin), ← ProfileStorage.stored]

/-- the entries of an origin are inserted in its area -/
theorem stored_loadEntries (entries : List (Chars × Chars × Chars)) (store : ProfileStorage) (origin : Chars) :
    (entries.foldl ProfileStorage.loadEntry store).stored origin =
      (store.stored origin).insertAll ((entries.filter fun entry => entry.1 = origin).map Prod.snd) := by
  induction entries generalizing store with
  | nil => rfl
  | cons entry entries ih =>
    rw [List.foldl_cons, ih, stored_loadEntry]
    by_cases horigin : entry.1 = origin
    · rw [if_pos horigin, List.filter_cons_of_pos (by simpa using horigin)]
      rfl
    · rw [if_neg horigin, List.filter_cons_of_neg (by simpa using horigin)]

/-- the entries of an origin are those of its area -/
theorem filter_entries {areas : List (Chars × Area)} (h : areas.Pairwise fun a b => a.1 < b.1) (origin : Chars) :
    ((areas.flatMap fun area => area.2.entries.map fun entry => (area.1, entry)).filter fun entry =>
        entry.1 = origin).map Prod.snd =
      ((areas.find? fun area => area.1 = origin).map fun area => area.2.entries).getD [] := by
  induction areas with
  | nil => rfl
  | cons area areas ih =>
    obtain ⟨hless, hareas⟩ := List.pairwise_cons.1 h
    rw [List.flatMap_cons, List.filter_append, List.map_append, ih hareas]
    by_cases horigin : area.1 = origin
    · -- no other area has this origin
      have hnone : areas.find? (fun area => decide (area.1 = origin)) = none := by
        rw [List.find?_eq_none]
        intro other hmem
        simpa using fun heq : other.1 = origin => (hless other hmem).ne (horigin.trans heq.symm)
      rw [hnone, List.find?_cons_of_pos (by simpa using horigin)]
      simp [List.filter_map, Function.comp_def, horigin]
    · rw [List.find?_cons_of_neg (by simpa using horigin)]
      simp [List.filter_map, Function.comp_def, horigin]

theorem filter_storeEntries (store : ProfileStorage) (origin : Chars) :
    ((store.storeEntries.filter fun entry => entry.1 = origin).map Prod.snd) = (store.stored origin).entries := by
  have hget : store.origins.get origin =
      (store.origins.entries.find? fun area => decide (area.1 = origin)).map Prod.snd := by
    rw [SortedMap.get]
    congr!
  rw [ProfileStorage.storeEntries, filter_entries store.origins.sorted, ProfileStorage.stored, hget]
  cases store.origins.entries.find? fun area => decide (area.1 = origin) <;> rfl

/-- a store that is written and loaded is the store -/
theorem load_serialize (store : ProfileStorage) : (ProfileStorage.load store.serialize).origins = store.origins := by
  refine ext_origins fun origin => ?_
  rw [ProfileStorage.load, parseStorageText_serialize, stored_loadEntries, filter_storeEntries]
  exact SortedMap.insertAll_entries (store.stored origin)

/-- **Merging and keeping.** A change that the quota lets pass leaves under each key of its origin what the document made
of it where it changed it, and what was stored elsewhere, and it leaves the other origins; one that the quota refuses leaves
the store. Changes in different keys give the same store in either order. The file of a store is read back as the store. -/
theorem storage_merges (store : ProfileStorage) :
    (∀ origin before after, (store.Accepts origin before after →
        (∀ k, ((store.applyChanges origin before after).stored origin).get k =
          if (collect after).get k = (collect before).get k then (store.stored origin).get k else (collect after).get k) ∧
        ∀ other, other ≠ origin → (store.applyChanges origin before after).stored other = store.stored other) ∧
      (¬ store.Accepts origin before after → store.applyChanges origin before after = store)) ∧
    (∀ origin before₁ after₁ before₂ after₂, Disjoint before₁ after₁ before₂ after₂ →
      store.Accepts origin before₁ after₁ →
      (store.applyChanges origin before₁ after₁).Accepts origin before₂ after₂ →
      store.Accepts origin before₂ after₂ →
      (store.applyChanges origin before₂ after₂).Accepts origin before₁ after₁ →
      ((store.applyChanges origin before₁ after₁).applyChanges origin before₂ after₂).origins =
        ((store.applyChanges origin before₂ after₂).applyChanges origin before₁ after₁).origins) ∧
    parseStorageText store.serialize = store.storeEntries ∧
    (ProfileStorage.load store.serialize).origins = store.origins := by
  refine ⟨fun origin before after => ⟨fun haccepts => ⟨applyChanges_get haccepts, fun other hother => ?_⟩,
    applyChanges_refused⟩, fun _ _ _ _ _ hkeys h₁ h₁₂ h₂ h₂₁ => applyChanges_comm hkeys h₁ h₁₂ h₂ h₂₁,
    parseStorageText_serialize store, load_serialize store⟩
  rw [stored_applyChanges haccepts, if_neg hother]

/-! ## The quota -/

/-- the changes of a document are applied, or the browser restarts with the file it wrote -/
inductive StorageAct
  | change (origin : Chars) (before after : List (Chars × Chars))
  | restart

def ProfileStorage.act (store : ProfileStorage) : StorageAct → ProfileStorage
  | .change origin before after => store.applyChanges origin before after
  | .restart => .load store.serialize

/-- **No origin is ever over its quota**, after any changes of any documents and any restarts, in any order. -/
theorem storage_within (acts : List StorageAct) (origin : Chars) :
    areaBytes ((acts.foldl ProfileStorage.act .empty).stored origin) ≤ maxOriginStorageBytes := by
  have hrun : ∀ (acts : List StorageAct) (store : ProfileStorage),
      (∀ origin, areaBytes (store.stored origin) ≤ maxOriginStorageBytes) →
      ∀ origin, areaBytes ((acts.foldl ProfileStorage.act store).stored origin) ≤ maxOriginStorageBytes := by
    intro acts
    induction acts with
    | nil => exact fun _ h => h
    | cons act rest ih =>
      intro store h
      refine ih (store.act act) fun other => ?_
      cases act with
      | change origin before after =>
        by_cases haccepts : store.Accepts origin before after
        · rw [ProfileStorage.act, stored_applyChanges haccepts]
          split_ifs
          · exact haccepts
          · exact h other
        · rw [ProfileStorage.act, applyChanges_refused haccepts]
          exact h other
      | restart =>
        rw [ProfileStorage.act, ProfileStorage.stored, load_serialize]
        exact h other
  exact hrun acts .empty (fun _ => Nat.zero_le _) origin

end Render.Profile
