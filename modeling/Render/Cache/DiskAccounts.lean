/-
What the store of payloads on disk counts, over all runs.

An operation that works on the active generation takes files away and may publish one (`Worked`); what it publishes fits
beside the files that are left and the bytes that wait to be deleted (`write_within`). The bytes that wait are those of the
directories that were retired and not deleted (`DiskKept`).
-/
import Render.Cache.Disk

namespace Render.Cache

open Render.Core Render.Net

/-! ## The bytes of records -/

/-- the bytes of the records among files -/
def entryBytes (files : Files) : ℕ := ((entryFiles files).map DiskEntryFile.bytes).sum

/-- what a file counts -/
def weight (file : FileName × File) : ℕ := if hasSuffix entrySuffix file.1 then file.2.content.length else 0

theorem entryBytes_eq (files : Files) : entryBytes files = (files.entries.map weight).sum := by
  rw [entryBytes, entryFiles]
  induction files.entries with
  | nil => rfl
  | cons file rest ih =>
    rw [List.filter_cons, List.map_cons, List.sum_cons, ← ih, weight]
    split_ifs with hsuffix
    · rfl
    · rw [Nat.zero_add]

theorem totalBytes_eq (entries : List DiskEntryFile) : totalBytes entries = min (entries.map DiskEntryFile.bytes).sum u64Max := by
  rw [totalBytes]
  induction entries using List.reverseRecOn with
  | nil => rfl
  | append_singleton entries entry ih =>
    rw [List.foldl_append, List.foldl_cons, List.foldl_nil, ih, List.map_append, List.sum_append, List.map_singleton,
      List.sum_singleton, saturatingAdd]
    omega

theorem entryBytes_of_get {files : Files} {name : FileName} {file : File} (h : files.get name = some file) :
    entryBytes files = weight (name, file) + entryBytes (files.erase name) := by
  rw [entryBytes_eq, ((Assoc.perm_of_get h).map weight).sum_eq, List.map_cons, List.sum_cons, entryBytes_eq]

theorem entryBytes_erase_le (files : Files) (name : FileName) : entryBytes (files.erase name) ≤ entryBytes files := by
  cases hget : files.get name with
  | none =>
    rw [entryBytes_eq, Assoc.erase_of_get_none hget, entryBytes_eq]
  | some file =>
    rw [entryBytes_of_get hget]
    exact Nat.le_add_left _ _

theorem entryBytes_set_le (files : Files) (name : FileName) (file : File) :
    entryBytes (files.set name file) ≤ weight (name, file) + entryBytes files := by
  rw [entryBytes_eq, Assoc.set_entries, List.map_cons, List.sum_cons, ← entryBytes_eq]
  exact Nat.add_le_add_left (entryBytes_erase_le files name) _

theorem weight_le (name : FileName) (file : File) : weight (name, file) ≤ file.content.length := by
  rw [weight]
  split_ifs
  · exact le_rfl
  · exact Nat.zero_le _

/-- the name of a temporary file is not the one of a record -/
theorem weight_temporary (name : FileName) (file : File) : weight (name ++ temporarySuffix, file) = 0 := by
  rw [weight, if_neg]
  rw [hasSuffix, List.isSuffixOf_iff_suffix]
  intro hsuffix
  have hlast := hsuffix.getLast (by decide)
  rw [List.getLast_append_of_ne_nil _ (by decide)] at hlast
  exact absurd hlast (by decide)

theorem length_record (key value : Octets) : (record key value).length = entryHeaderBytes + key.length + value.length := by
  have hmagic : entryMagic.length = 8 := by decide +kernel
  rw [record]
  simp only [List.length_append, length_toLe, hmagic, entryHeaderBytes]

/-! ## Working on the active generation -/

/-- files of the active generation are gone, and those that are new have a content that is allowed -/
structure Worked (c c' : DiskCacheStore) (new : Octets → Prop) : Prop where
  config : c'.config = c.config
  retired : c'.disk.retired = c.disk.retired
  pending : c'.retiredBytesPending = c.retiredBytesPending
  generation : c'.generation = c.generation
  active : ∀ name file, c'.disk.active.get name = some file → c.disk.active.get name = some file ∨ new file.content

section Worked

variable {c c' c'' : DiskCacheStore} {new : Octets → Prop}

theorem Worked.refl : Worked c c new := ⟨rfl, rfl, rfl, rfl, fun _ _ h => Or.inl h⟩

theorem Worked.trans (h : Worked c c' new) (h' : Worked c' c'' new) : Worked c c'' new where
  config := h'.config.trans h.config
  retired := h'.retired.trans h.retired
  pending := h'.pending.trans h.pending
  generation := h'.generation.trans h.generation
  active := by
    intro name file hget
    rcases h'.active name file hget with hold | hnew
    · exact h.active name file hold
    · exact Or.inr hnew

theorem Worked.weaken {new' : Octets → Prop} (h : Worked c c' new) (hnew : ∀ content, new content → new' content) :
    Worked c c' new' :=
  ⟨h.config, h.retired, h.pending, h.generation, fun name file hget => (h.active name file hget).imp_right (hnew _)⟩

end Worked

namespace DiskCacheStore

variable {c : DiskCacheStore} {new : Octets → Prop}

/-- the files are among those of before -/
def Fewer (files' files : Files) : Prop := ∀ name file, files'.get name = some file → files.get name = some file

theorem Fewer.refl {files : Files} : Fewer files files := fun _ _ h => h

theorem fewer_erase (files : Files) (name : FileName) : Fewer (files.erase name) files := by
  intro other file hget
  rw [Assoc.get_eq_some, Assoc.mem_erase] at hget
  exact Assoc.get_eq_some.2 hget.1

theorem worked_of_fewer {active : Files} (h : Fewer active c.disk.active) :
    Worked c { c with disk := { c.disk with active } } new :=
  ⟨rfl, rfl, rfl, rfl, fun name file hget => Or.inl (h name file hget)⟩

/-! ## Reading -/

theorem readLoop_spec (key : Octets) (maxEntryBytes : ℕ) (candidates : List DiskEntryFile) (files : Files) :
    Fewer (readLoop key maxEntryBytes candidates files).2 files ∧
      entryBytes (readLoop key maxEntryBytes candidates files).2 ≤ entryBytes files := by
  induction candidates generalizing files with
  | nil => exact ⟨Fewer.refl, le_rfl⟩
  | cons candidate rest ih =>
    rw [readLoop]
    cases files.get candidate.path with
    | none => exact ⟨Fewer.refl, le_rfl⟩
    | some file =>
      simp only
      cases readEntry file.content key maxEntryBytes with
      | value value => exact ⟨Fewer.refl, le_rfl⟩
      | keyMismatch => exact ih files
      | corrupt =>
        obtain ⟨hfewer, hle⟩ := ih (files.erase candidate.path)
        refine ⟨?_, hle.trans (entryBytes_erase_le files candidate.path)⟩
        intro name file hget
        exact fewer_erase files candidate.path name file (hfewer name file hget)

/-- a value that is read is the one of a record of the active generation -/
theorem readLoop_value {key value : Octets} {maxEntryBytes : ℕ} {candidates : List DiskEntryFile} {files : Files}
    (h : (readLoop key maxEntryBytes candidates files).1 = .ok (some value)) :
    ∃ name file, files.get name = some file ∧ readEntry file.content key maxEntryBytes = .value value := by
  induction candidates generalizing files with
  | nil => cases h
  | cons candidate rest ih =>
    rw [readLoop] at h
    cases hget : files.get candidate.path with
    | none =>
      rw [hget] at h
      cases h
    | some file =>
      rw [hget] at h
      simp only at h
      cases hread : readEntry file.content key maxEntryBytes with
      | value found =>
        rw [hread] at h
        cases h
        exact ⟨candidate.path, file, hget, hread⟩
      | keyMismatch =>
        rw [hread] at h
        exact ih h
      | corrupt =>
        rw [hread] at h
        obtain ⟨name, file, hget, hread⟩ := ih h
        exact ⟨name, file, fewer_erase files candidate.path name file hget, hread⟩

theorem read_spec (new : Octets → Prop) (c : DiskCacheStore) (key : String) :
    Worked c (c.read key).2 new ∧ entryBytes (c.read key).2.disk.active ≤ entryBytes c.disk.active := by
  rw [read]
  split_ifs
  · exact ⟨Worked.refl, le_rfl⟩
  · obtain ⟨hfewer, hle⟩ := readLoop_spec (utf8 key) c.config.maxEntryBytes
      ((entriesMatchingHash c.disk.active (stableHash (utf8 key))).insertionSort newestFirst) c.disk.active
    exact ⟨worked_of_fewer hfewer, hle⟩

/-! ## Making room -/

/-- the loop has room when it says so; the total is the bytes of the records that are left -/
theorem pruneLoop_spec (newEntryBytes activeLimit : ℕ) (entries : List DiskEntryFile) (files : Files)
    (hmem : ∀ entry ∈ entries, entry ∈ entryFiles files) (hnodup : (entries.map DiskEntryFile.path).Nodup) :
    Fewer (pruneLoop newEntryBytes activeLimit entries (entryBytes files) files).2 files ∧
    entryBytes (pruneLoop newEntryBytes activeLimit entries (entryBytes files) files).2 ≤ entryBytes files ∧
    ((pruneLoop newEntryBytes activeLimit entries (entryBytes files) files).1 = true →
      saturatingAdd (entryBytes (pruneLoop newEntryBytes activeLimit entries (entryBytes files) files).2) newEntryBytes ≤
        activeLimit) := by
  induction entries generalizing files with
  | nil => exact ⟨Fewer.refl, le_rfl, fun h => by cases h⟩
  | cons entry rest ih =>
    obtain ⟨hentry, hrest⟩ := List.nodup_cons.1 hnodup
    have hleft : entryBytes files - entry.bytes = entryBytes (files.erase entry.path) := by
      obtain ⟨file, hfile, rfl⟩ := List.mem_map.1 (hmem entry List.mem_cons_self)
      obtain ⟨hin, hsuffix⟩ := List.mem_filter.1 hfile
      have hget : files.get file.1 = some file.2 := Assoc.get_eq_some.2 hin
      rw [entryBytes_of_get hget, weight, if_pos hsuffix]
      exact Nat.add_sub_cancel_left _ _
    have hle := entryBytes_erase_le files entry.path
    rw [pruneLoop, hleft]
    split_ifs with hroom
    · exact ⟨fewer_erase files entry.path, hle, fun _ => hroom⟩
    · obtain ⟨hfewer, hle', hroom'⟩ := ih (files.erase entry.path) (by
        intro other hother
        obtain ⟨file, hfile, rfl⟩ := List.mem_map.1 (hmem other (List.mem_cons_of_mem _ hother))
        obtain ⟨hin, hsuffix⟩ := List.mem_filter.1 hfile
        refine List.mem_map.2 ⟨file, List.mem_filter.2 ⟨Assoc.mem_erase.2 ⟨hin, ?_⟩, hsuffix⟩, rfl⟩
        intro hsame
        exact hentry (List.mem_map.2 ⟨_, hother, hsame⟩)) hrest
      refine ⟨?_, hle'.trans hle, hroom'⟩
      intro name file hget
      exact fewer_erase files entry.path name file (hfewer name file hget)

theorem entryFiles_nodup (files : Files) : ((entryFiles files).map DiskEntryFile.path).Nodup := by
  rw [entryFiles, List.map_map]
  exact files.nodup.sublist (List.filter_sublist.map _)

theorem pruneForWrite_spec (new : Octets → Prop) (c : DiskCacheStore) (newEntryBytes : ℕ) (hbytes : entryBytes c.disk.active ≤ u64Max) :
    Worked c (c.pruneForWrite newEntryBytes).2 new ∧
    entryBytes (c.pruneForWrite newEntryBytes).2.disk.active ≤ entryBytes c.disk.active ∧
    ((c.pruneForWrite newEntryBytes).1 = true →
      saturatingAdd (entryBytes (c.pruneForWrite newEntryBytes).2.disk.active) newEntryBytes ≤ c.availableActiveBytes) := by
  have htotal : totalBytes (entryFiles c.disk.active) = entryBytes c.disk.active := by
    rw [totalBytes_eq]
    exact min_eq_left hbytes
  rw [pruneForWrite, htotal]
  split_ifs with hroom
  · exact ⟨Worked.refl, le_rfl, fun _ => hroom⟩
  · have hperm := List.perm_insertionSort oldestFirst (entryFiles c.disk.active)
    obtain ⟨hfewer, hle, hroom'⟩ := pruneLoop_spec newEntryBytes c.availableActiveBytes
      ((entryFiles c.disk.active).insertionSort oldestFirst) c.disk.active (fun entry h => hperm.mem_iff.1 h)
      ((hperm.map DiskEntryFile.path).nodup_iff.2 (entryFiles_nodup _))
    exact ⟨worked_of_fewer hfewer, hle, hroom'⟩

/-! ## Publishing -/

theorem get_set_cases {files : Files} {name other : FileName} {file found : File}
    (h : (files.set name file).get other = some found) : files.get other = some found ∨ found = file := by
  by_cases hname : other = name
  · rw [hname, Assoc.get_set] at h
    exact Or.inr (Option.some.inj h).symm
  · rw [Assoc.get_set_of_ne hname] at h
    exact Or.inl h

/-- a name takes the file at most once, and a temporary name does not count -/
theorem publish_spec (name : FileName) (file : File) :
    Worked c (c.publish name file).2 (· = file.content) ∧
    entryBytes (c.publish name file).2.disk.active ≤ entryBytes c.disk.active +
      if (c.publish name file).1 then file.content.length else 0 := by
  have hwritten : entryBytes (c.disk.active.set (name ++ temporarySuffix) file) ≤ entryBytes c.disk.active := by
    have hle := entryBytes_set_le c.disk.active (name ++ temporarySuffix) file
    rwa [weight_temporary, Nat.zero_add] at hle
  rw [publish]
  by_cases htemporary : (c.disk.active.get (name ++ temporarySuffix)).isSome
  · rw [if_pos htemporary]
    exact ⟨Worked.refl, Nat.le_add_right _ _⟩
  · rw [if_neg htemporary]
    by_cases hname : ((c.disk.active.set (name ++ temporarySuffix) file).get name).isSome
    · simp only [hname, if_true]
      refine ⟨⟨rfl, rfl, rfl, rfl, ?_⟩, (entryBytes_erase_le _ _).trans (hwritten.trans (Nat.le_add_right _ _))⟩
      intro other found hget
      rcases get_set_cases (fewer_erase _ _ other found hget) with hold | rfl
      · exact Or.inl hold
      · exact Or.inr rfl
    · simp only [hname]
      refine ⟨⟨rfl, rfl, rfl, rfl, ?_⟩, ?_⟩
      · intro other found hget
        rcases get_set_cases (fewer_erase _ _ other found hget) with hset | rfl
        · rcases get_set_cases hset with hold | rfl
          · exact Or.inl hold
          · exact Or.inr rfl
        · exact Or.inr rfl
      · calc entryBytes (((c.disk.active.set (name ++ temporarySuffix) file).set name file).erase (name ++ temporarySuffix))
            ≤ entryBytes ((c.disk.active.set (name ++ temporarySuffix) file).set name file) := entryBytes_erase_le _ _
          _ ≤ weight (name, file) + entryBytes (c.disk.active.set (name ++ temporarySuffix) file) := entryBytes_set_le _ _ _
          _ ≤ file.content.length + entryBytes c.disk.active := Nat.add_le_add (weight_le name file) hwritten
          _ = entryBytes c.disk.active + file.content.length := Nat.add_comm _ _

theorem worked_uniqueName (before after : Chars) (now : SystemTime) (processId : ℕ) :
    Worked c (c.uniqueName before after now processId).2 new := ⟨rfl, rfl, rfl, rfl, fun _ _ h => Or.inl h⟩

theorem publishLoop_spec (hash : UInt64) (content : Octets) (around : Surroundings) (attempts : ℕ) (c : DiskCacheStore) :
    Worked c (publishLoop hash content around attempts c).2 (· = content) ∧
    entryBytes (publishLoop hash content around attempts c).2.disk.active ≤ entryBytes c.disk.active + content.length := by
  induction attempts generalizing c with
  | zero => exact ⟨Worked.refl, Nat.le_add_right _ _⟩
  | succ attempts ih =>
    have hnamed : Worked c (c.uniqueName (hashPrefix hash) entrySuffix (around.now attempts) around.processId).2
      (· = content) := worked_uniqueName _ _ _ _
    obtain ⟨hworked, hle⟩ := publish_spec
      (c := (c.uniqueName (hashPrefix hash) entrySuffix (around.now attempts) around.processId).2)
      (c.uniqueName (hashPrefix hash) entrySuffix (around.now attempts) around.processId).1 ⟨content, around.modified⟩
    rw [publishLoop]
    simp only
    cases hpublish : (c.uniqueName (hashPrefix hash) entrySuffix (around.now attempts) around.processId).2.publish
        (c.uniqueName (hashPrefix hash) entrySuffix (around.now attempts) around.processId).1 ⟨content, around.modified⟩ with
    | mk published next =>
      rw [hpublish] at hworked hle
      cases published with
      | true => exact ⟨hnamed.trans hworked, hle⟩
      | false =>
        obtain ⟨hworked', hle'⟩ := ih next
        exact ⟨(hnamed.trans hworked).trans hworked', hle'.trans (Nat.add_le_add_right hle _)⟩

/-! ## Writing -/

/-- what a write may publish: the record of a key and a value that was submitted in this generation -/
def Publishes (c : DiskCacheStore) (key : String) (value : Octets) (submitted : ℕ) (content : Octets) : Prop :=
  content = record (utf8 key) value ∧ submitted = c.generation ∧ (utf8 key).length ≤ maxKeyBytes ∧ value.length ≤ u64Max

theorem recordSize_eq_some {keyBytes valueBytes bytes : ℕ} (h : recordSizeFromLengths keyBytes valueBytes = some bytes) :
    bytes = entryHeaderBytes + keyBytes + valueBytes ∧ valueBytes ≤ u64Max := by
  rw [recordSizeFromLengths] at h
  split_ifs at h with hle
  cases h
  exact ⟨rfl, (Nat.le_add_left _ _).trans hle⟩

theorem reclaim_spec (new : Octets → Prop) (c : DiskCacheStore) : Worked c c.reclaimOrphanedTemporaryFiles new ∧
    entryBytes c.reclaimOrphanedTemporaryFiles.disk.active ≤ entryBytes c.disk.active := by
  refine ⟨worked_of_fewer ?_, ?_⟩
  · intro name file hget
    exact Assoc.get_eq_some.2 (List.mem_filter.1 (Assoc.get_eq_some.1 hget)).1
  · rw [entryBytes_eq, entryBytes_eq]
    exact List.Sublist.sum_le_sum (List.filter_sublist.map _) (fun _ _ => Nat.zero_le _)

/-- a sum that is below the end of the numbers is the sum -/
theorem le_of_saturatingAdd_le {a b limit : ℕ} (h : saturatingAdd a b ≤ limit) (hlimit : limit < u64Max) : a + b ≤ limit := by
  rcases min_le_iff.1 h with h | h
  · exact h
  · exact absurd h hlimit.not_ge

/-- the part of a write behind the checks -/
theorem write_room {key value : Octets} {recordBytes : ℕ} {around : Surroundings}
    (hsize : recordBytes = (record key value).length) (hnew : ∀ content, content = record key value → new content)
    (hmax : c.config.maxBytes < u64Max) (hwithin : entryBytes c.disk.active + c.retiredBytesPending ≤ c.config.maxBytes) :
    let result : Except DiskCacheError DiskCacheWriteOutcome × DiskCacheStore :=
      match c.reclaimOrphanedTemporaryFiles.pruneForWrite recordBytes with
      | (false, c) => (.ok (.skipped .capacityUnavailable), c)
      | (true, c) =>
        match c.writeAtomic key value around with
        | (.error error, c) => (.error error, c)
        | (.ok (), c) => (.ok (.stored recordBytes), c)
    Worked c result.2 new ∧ entryBytes result.2.disk.active + c.retiredBytesPending ≤ c.config.maxBytes := by
  obtain ⟨hreclaimed, hle⟩ := reclaim_spec new c
  obtain ⟨hpruned, hle', hroom⟩ := pruneForWrite_spec new c.reclaimOrphanedTemporaryFiles recordBytes (by omega)
  cases hprune : c.reclaimOrphanedTemporaryFiles.pruneForWrite recordBytes with
  | mk room pruned =>
    rw [hprune] at hpruned hle' hroom
    cases room with
    | false => exact ⟨hreclaimed.trans hpruned, by simp only at hle' ⊢; omega⟩
    | true =>
      obtain ⟨hpublished, hle''⟩ := publishLoop_spec (stableHash key) (record key value) around uniqueNameAttempts pruned
      have hworked : Worked c (pruned.writeAtomic key value around).2 new :=
        (hreclaimed.trans hpruned).trans (hpublished.weaken hnew)
      have hbytes : entryBytes (pruned.writeAtomic key value around).2.disk.active + c.retiredBytesPending ≤
          c.config.maxBytes := by
        have hfree : entryBytes pruned.disk.active + recordBytes ≤ c.config.maxBytes - c.retiredBytesPending :=
          le_of_saturatingAdd_le (hroom rfl) ((Nat.sub_le _ _).trans_lt hmax)
        have hle''' : entryBytes (pruned.writeAtomic key value around).2.disk.active ≤
            entryBytes pruned.disk.active + recordBytes := by
          rw [hsize]
          exact hle''
        have hpending := (Nat.le_add_left _ _).trans hwithin
        omega
      simp only
      cases hwrite : pruned.writeAtomic key value around with
      | mk result written =>
        rw [hwrite] at hworked hbytes
        cases result with
        | error error => exact ⟨hworked, hbytes⟩
        | ok _ => exact ⟨hworked, hbytes⟩

theorem write_spec (c : DiskCacheStore) (key : String) (value : Octets) (submitted : ℕ) (around : Surroundings)
    (hmax : c.config.maxBytes < u64Max) (hwithin : entryBytes c.disk.active + c.retiredBytesPending ≤ c.config.maxBytes) :
    Worked c (c.write key value submitted around).2 (Publishes c key value submitted) ∧
    entryBytes (c.write key value submitted around).2.disk.active + c.retiredBytesPending ≤ c.config.maxBytes := by
  rw [write]
  split_ifs with hgeneration hkey
  · exact ⟨Worked.refl, hwithin⟩
  · exact ⟨Worked.refl, hwithin⟩
  · cases hsize : recordSizeFromLengths (utf8 key).length value.length with
    | none => exact ⟨Worked.refl, hwithin⟩
    | some recordBytes =>
      obtain ⟨hbytes, hvalue⟩ := recordSize_eq_some hsize
      simp only
      split_ifs with hlarge hfull
      · exact ⟨Worked.refl, hwithin⟩
      · obtain ⟨hworked, hle⟩ := reclaim_spec (Publishes c key value submitted) c
        exact ⟨hworked, (Nat.add_le_add_right hle _).trans hwithin⟩
      · rw [not_not] at hgeneration
        rw [not_lt] at hkey hfull
        refine write_room (hbytes.trans (length_record _ _).symm) ?_ hmax hwithin
        intro content hcontent
        exact ⟨hcontent, hgeneration, hkey, hvalue⟩

/-! ## Clearing -/

theorem isRetiredDirectory_uniqueName (c : DiskCacheStore) (now : SystemTime) (processId : ℕ) :
    isRetiredDirectory (c.uniqueName retiredPrefix [] now processId).1 = true := by
  rw [isRetiredDirectory, List.isPrefixOf_iff_prefix, uniqueName]
  simp only [List.append_assoc]
  exact List.prefix_append _ _

/-- a clear is begun when the name of its directory is free -/
theorem beginClear_cases (new : Octets → Prop) (c : DiskCacheStore) (around : Surroundings) :
    (∃ error c', c.beginClear around = (.error error, c') ∧ Worked c c' new ∧ c'.disk.active = c.disk.active) ∨
    ∃ job c', c.beginClear around = (.ok job, c') ∧ isRetiredDirectory job.retiredDirectory = true ∧
      job.retiredBytes = min (entryBytes c.disk.active) u64Max ∧ c.disk.retired.get job.retiredDirectory = none ∧
      c'.disk = ⟨.empty, c.disk.retired.set job.retiredDirectory c.disk.active⟩ ∧ c'.config = c.config ∧
      c'.retiredBytesPending = saturatingAdd c.retiredBytesPending job.retiredBytes ∧
      c'.generation = saturatingAdd c.generation 1 := by
  rw [beginClear]
  simp only
  have hname := isRetiredDirectory_uniqueName c (around.now 0) around.processId
  have hdisk : (c.uniqueName retiredPrefix [] (around.now 0) around.processId).2.disk = c.disk := rfl
  split_ifs with htaken
  · exact Or.inl ⟨_, _, rfl, worked_uniqueName _ _ _ _, rfl⟩
  · rw [Bool.not_eq_true, Option.isSome_eq_false_iff, Option.isNone_iff_eq_none, hdisk] at htaken
    exact Or.inr ⟨_, _, rfl, hname, totalBytes_eq _, htaken, rfl, rfl, rfl, rfl⟩

theorem finishClear_eq {job : DiskCacheClearJob} (h : isRetiredDirectory job.retiredDirectory = true) :
    (c.finishClear job).2 =
      { c with
        disk := { c.disk with retired := c.disk.retired.erase job.retiredDirectory }
        retiredBytesPending := c.retiredBytesPending - job.retiredBytes } := by
  rw [finishClear, if_neg (not_not.2 h)]

end DiskCacheStore

/-! ## All calls -/

/-- a directory that waits to be deleted, and the bytes of its records -/
def retiredSizes (disk : Disk) : List (FileName × ℕ) :=
  disk.retired.entries.map fun directory => (directory.1, entryBytes directory.2)

/-- the accounts of the store -/
structure DiskKept (config : DiskCacheConfig) (s : DiskSession) : Prop where
  same : s.store.config = config
  within : entryBytes s.store.disk.active + s.store.retiredBytesPending ≤ config.maxBytes
  pending : s.store.retiredBytesPending = (s.jobs.map DiskCacheClearJob.retiredBytes).sum
  directories : (retiredSizes s.store.disk).Perm (s.jobs.map fun job => (job.retiredDirectory, job.retiredBytes))
  names : ∀ job ∈ s.jobs, isRetiredDirectory job.retiredDirectory = true

namespace DiskSession

open DiskCacheStore

variable {config : DiskCacheConfig} {s : DiskSession}

/-- work on the active generation keeps the accounts -/
theorem kept_worked {c : DiskCacheStore} {new : Octets → Prop} (hkept : DiskKept config s) (h : Worked s.store c new)
    (hwithin : entryBytes c.disk.active + s.store.retiredBytesPending ≤ config.maxBytes) (generations : List ℕ) :
    DiskKept config ⟨c, s.jobs, generations⟩ where
  same := h.config.trans hkept.same
  within := by
    simp only
    rw [h.pending]
    exact hwithin
  pending := h.pending.trans hkept.pending
  directories := by
    rw [retiredSizes, h.retired]
    exact hkept.directories
  names := hkept.names

theorem kept_beginClear (hkept : DiskKept config s) (hmax : config.maxBytes < u64Max) (around : Surroundings) :
    DiskKept config (s.step (.beginClear around)) := by
  rcases beginClear_cases (fun _ => False) s.store around with
    ⟨error, c, hresult, hworked, hactive⟩ | ⟨job, c, hresult, hname, hbytes, hfree, hdisk, hconfig, hpending, -⟩
  · have hstep : s.step (.beginClear around) = ⟨c, s.jobs, s.generations ++ [s.store.generation]⟩ := by
      rw [step, call, hresult]
    rw [hstep]
    refine kept_worked hkept hworked ?_ _
    rw [hactive]
    exact hkept.within
  · have hstep : s.step (.beginClear around) = ⟨c, s.jobs ++ [job], s.generations ++ [s.store.generation]⟩ := by
      rw [step, call, hresult]
    have hwithin := hkept.within
    have hsize : job.retiredBytes = entryBytes s.store.disk.active := by
      rw [hbytes, min_eq_left]
      exact ((Nat.le_add_right _ _).trans hwithin).trans hmax.le
    have hsum : c.retiredBytesPending = s.store.retiredBytesPending + entryBytes s.store.disk.active := by
      rw [hpending, saturatingAdd, hsize, min_eq_left]
      rw [Nat.add_comm]
      exact hwithin.trans hmax.le
    rw [hstep]
    refine ⟨hconfig.trans hkept.same, ?_, ?_, ?_, ?_⟩
    · have hempty : entryBytes c.disk.active = 0 := by
        rw [hdisk]
        rfl
      simp only
      rw [hempty, hsum]
      omega
    · simp only
      rw [hsum, hkept.pending, List.map_append, List.sum_append, List.map_singleton, List.sum_singleton, hsize]
    · simp only
      rw [retiredSizes, hdisk, Assoc.set_entries, Assoc.erase_of_get_none hfree, List.map_cons, List.map_append,
        List.map_singleton, hsize]
      exact (hkept.directories.cons _).trans (List.perm_append_singleton _ _).symm
    · intro other hmem
      rcases List.mem_append.1 hmem with hmem | hmem
      · exact hkept.names other hmem
      · rw [List.mem_singleton.1 hmem]
        exact hname

theorem kept_finishClear (hkept : DiskKept config s) (index : ℕ) : DiskKept config (s.step (.finishClear index)) := by
  cases hjob : s.jobs[index]? with
  | none =>
    have hstep : s.step (.finishClear index) = ⟨s.store, s.jobs, s.generations ++ [s.store.generation]⟩ := by
      rw [step, call, hjob]
    rw [hstep]
    exact ⟨hkept.same, hkept.within, hkept.pending, hkept.directories, hkept.names⟩
  | some job =>
    have hmem : job ∈ s.jobs := List.mem_of_getElem? hjob
    have hperm : s.jobs.Perm (job :: s.jobs.eraseIdx index) := by
      obtain ⟨hlt, rfl⟩ := List.getElem?_eq_some_iff.1 hjob
      exact (List.getElem_cons_eraseIdx_perm hlt).symm
    have hpending : s.store.retiredBytesPending = job.retiredBytes +
        ((s.jobs.eraseIdx index).map DiskCacheClearJob.retiredBytes).sum := by
      rw [hkept.pending, (hperm.map _).sum_eq, List.map_cons, List.sum_cons]
    -- the directory of the job, with the bytes that the job has counted
    obtain ⟨⟨name, files⟩, hdirectory, hsizes⟩ := List.mem_map.1 (hkept.directories.mem_iff.2 (List.mem_map_of_mem hmem))
    obtain ⟨rfl, hfiles⟩ := Prod.mk.inj hsizes
    have hget : s.store.disk.retired.get job.retiredDirectory = some files := Assoc.get_eq_some.2 hdirectory
    have hstep : s.step (.finishClear index) = ⟨(s.store.finishClear job).2, s.jobs.eraseIdx index,
        s.generations ++ [s.store.generation]⟩ := by
      rw [step, call, hjob]
    rw [hstep, finishClear_eq (hkept.names job hmem)]
    have hwithin := hkept.within
    refine ⟨hkept.same, ?_, ?_, ?_, ?_⟩
    · simp only
      omega
    · simp only
      omega
    · have hall := ((Assoc.perm_of_get hget).map fun directory : FileName × Files =>
        (directory.1, entryBytes directory.2)).symm.trans (hkept.directories.trans (hperm.map _))
      simp only [List.map_cons, hfiles] at hall
      exact hall.cons_inv
    · intro other hother
      exact hkept.names other (List.mem_of_mem_eraseIdx hother)

theorem kept_step (hkept : DiskKept config s) (hmax : config.maxBytes < u64Max) (call : DiskCall) :
    DiskKept config (s.step call) := by
  have hwithin := hkept.within
  rw [← hkept.same] at hwithin
  cases call with
  | read key =>
    obtain ⟨hworked, hle⟩ := read_spec (fun _ => False) s.store key
    refine kept_worked hkept hworked ?_ _
    rw [hkept.same] at hwithin
    exact (Nat.add_le_add_right hle _).trans hwithin
  | write key value submitted around =>
    rw [← hkept.same] at hmax
    obtain ⟨hworked, hle⟩ := write_spec s.store key value (s.generationAt submitted) around hmax hwithin
    refine kept_worked hkept hworked ?_ _
    rw [hkept.same] at hle
    exact hle
  | beginClear around => exact kept_beginClear hkept hmax around
  | finishClear index => exact kept_finishClear hkept index

theorem kept_run (store : DiskCacheStore) (hkept : DiskKept config (start store)) (hmax : config.maxBytes < u64Max)
    (calls : List DiskCall) : DiskKept config ((start store).run calls) := by
  induction calls using List.reverseRecOn with
  | nil => exact hkept
  | append_singleton calls call ih =>
    rw [run_concat]
    exact kept_step ih hmax call

/-- a store that has just been opened waits for nothing -/
theorem kept_open {disk : Disk} {store : DiskCacheStore} (hopen : DiskCacheStore.open config disk = .ok store)
    (hfits : entryBytes store.disk.active ≤ config.maxBytes) :
    DiskKept config (start store) ∧ config.maxBytes < u64Max := by
  rw [DiskCacheStore.open] at hopen
  cases hvalid : validateConfig config with
  | error error =>
    rw [hvalid] at hopen
    cases hopen
  | ok _ =>
    rw [hvalid] at hopen
    cases hopen
    refine ⟨⟨rfl, hfits, rfl, List.Perm.refl _, fun _ hmem => by cases hmem⟩, ?_⟩
    rw [validateConfig] at hvalid
    split_ifs at hvalid with hzero hlarge
    rw [not_lt] at hlarge
    exact hlarge.trans_lt (by decide)

end DiskSession

end Render.Cache
