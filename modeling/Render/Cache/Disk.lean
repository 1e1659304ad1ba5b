/-
The store of cache payloads on disk (`render-browser/src/cache/disk.rs`).

The directory under the root is a map from names to files: those of the active generation, and those of each retired
generation under the name of its directory. Reading, writing and removing of files does not fail, except for the reasons that
the map gives (a name that is taken or is not there). Nothing else works on the directory.

The system clock, the number of the process and the time stamp of a new file are parameters (`Surroundings`).
-/
import Render.Cache.HttpCache
import Render.Core.Scan

namespace Render.Cache

open Render.Core Render.Net

/-! ## Files -/

abbrev FileName := Chars

structure File where
  content : Octets
  modified : SystemTime
deriving DecidableEq

/-- the files of a directory -/
abbrev Files := Assoc FileName File

structure Disk where
  active : Files
  /-- the directories of retired generations, those whose names `is_retired_directory` accepts -/
  retired : Assoc FileName Files

def maxDiskCacheBytes : ℕ := 512 * 1024 * 1024

def entrySuffix : Chars := ".entry".toList

def temporarySuffix : Chars := ".tmp".toList

def retiredPrefix : Chars := "retired-".toList

def entryMagic : Octets := utf8 "RNDCCH01"

def entryHeaderBytes : ℕ := 28

def maxKeyBytes : ℕ := 16 * 1024

def uniqueNameAttempts : ℕ := 16

structure DiskCacheConfig where
  maxBytes : ℕ
  maxEntryBytes : ℕ

inductive DiskCacheError where
  | invalidConfiguration (message : String)
  | invalidClearJob
  | io (operation : String)
deriving DecidableEq

/-- `validate_config`; that the root is absolute is not modelled -/
def validateConfig (config : DiskCacheConfig) : Except DiskCacheError Unit :=
  if config.maxBytes = 0 then .error (.invalidConfiguration "disk cache capacity must be non-zero")
  else if config.maxBytes > maxDiskCacheBytes then
    .error (.invalidConfiguration "disk cache capacity exceeds the 512 MiB hard limit")
  else if config.maxEntryBytes = 0 ∨ config.maxEntryBytes > config.maxBytes then
    .error (.invalidConfiguration "disk cache entry capacity must be between one byte and total capacity")
  else .ok ()

/-- `saturating_add` of two numbers of 64 bits -/
def saturatingAdd (a b : ℕ) : ℕ := min (a + b) u64Max

/-! ## Records -/

/-- `stable_hash`, from a hash on -/
def hashFrom (hash : UInt64) (octets : Octets) : UInt64 :=
  octets.foldl (fun hash octet => (hash ^^^ octet.toUInt64) * 0x00000100000001b3) hash

def stableHash (octets : Octets) : UInt64 := hashFrom 0xcbf29ce484222325 octets

def entryChecksum (key value : Octets) : UInt64 :=
  hashFrom 0xcbf29ce484222325 (toLe 8 (stableHash key).toNat ++ value)

/-- `record_size_from_lengths` -/
def recordSizeFromLengths (keyBytes valueBytes : ℕ) : Option ℕ :=
  if entryHeaderBytes + keyBytes + valueBytes ≤ u64Max then some (entryHeaderBytes + keyBytes + valueBytes) else none

/-- the octets that `write_record` writes -/
def record (key value : Octets) : Octets :=
  entryMagic ++ toLe 4 key.length ++ toLe 8 value.length ++ toLe 8 (entryChecksum key value).toNat ++ key ++ value

inductive EntryRead where
  | value (octets : Octets)
  | keyMismatch
  | corrupt
deriving DecidableEq

/-- `read_entry`, on the content of the file -/
def readEntry (content expectedKey : Octets) (maxEntryBytes : ℕ) : EntryRead :=
  if content.length < entryHeaderBytes ∨ content.length > maxEntryBytes then .corrupt
  else if content.take 8 ≠ entryMagic then .corrupt
  else
    let keyBytes := ofLe ((content.drop 8).take 4)
    let valueBytes := ofLe ((content.drop 12).take 8)
    let checksum := ofLe ((content.drop 20).take 8)
    match recordSizeFromLengths keyBytes valueBytes with
    | none => .corrupt
    | some expectedBytes =>
      if expectedBytes ≠ content.length ∨ keyBytes > maxKeyBytes ∨ valueBytes > maxEntryBytes then .corrupt
      else
        let key := (content.drop 28).take keyBytes
        let value := (content.drop (28 + keyBytes)).take valueBytes
        if key ≠ expectedKey then .keyMismatch
        else if (entryChecksum key value).toNat ≠ checksum then .corrupt
        else .value value

/-! ## The files of the active generation -/

structure DiskEntryFile where
  path : FileName
  bytes : ℕ
  modified : SystemTime

def hasSuffix (suffix name : Chars) : Bool := suffix.isSuffixOf name

/-- `entry_files` -/
def entryFiles (files : Files) : List DiskEntryFile :=
  (files.entries.filter fun file => hasSuffix entrySuffix file.1).map fun file =>
    ⟨file.1, file.2.content.length, file.2.modified⟩

/-- `oldest_first` -/
def oldestFirst (left right : DiskEntryFile) : Prop :=
  toLex (left.modified.nanos, left.path) ≤ toLex (right.modified.nanos, right.path)

instance : DecidableRel oldestFirst := fun left right =>
  inferInstanceAs (Decidable (toLex (left.modified.nanos, left.path) ≤ toLex (right.modified.nanos, right.path)))

/-- `newest_first` -/
def newestFirst (left right : DiskEntryFile) : Prop := oldestFirst right left

instance : DecidableRel newestFirst := fun left right => inferInstanceAs (Decidable (oldestFirst right left))

/-- the sizes of files added up -/
def totalBytes (entries : List DiskEntryFile) : ℕ := entries.foldl (fun total entry => saturatingAdd total entry.bytes) 0

/-- a number in hexadecimal, with zeros before it up to a width -/
def hexPadded (width n : ℕ) : Chars :=
  let digits := Nat.toDigits 16 n
  List.replicate (width - digits.length) '0' ++ digits

/-- the start of the names of the records of a hash -/
def hashPrefix (hash : UInt64) : Chars := hexPadded 16 hash.toNat ++ ['-']

/-- `entries_matching_hash` -/
def entriesMatchingHash (files : Files) (hash : UInt64) : List DiskEntryFile :=
  (entryFiles files).filter fun entry => (hashPrefix hash).isPrefixOf entry.path

/-- what the system says during an operation -/
structure Surroundings where
  /-- the clock at each attempt to find a name -/
  now : ℕ → SystemTime
  processId : ℕ
  /-- the time stamp of the file that is written -/
  modified : SystemTime

/-! ## The store -/

structure DiskCacheClearJob where
  retiredDirectory : FileName
  retiredBytes : ℕ
  generation : ℕ

structure DiskCacheClearResult where
  generation : ℕ
  retiredBytes : ℕ
deriving DecidableEq

inductive DiskCacheSkipReason where
  | staleGeneration
  | keyTooLarge
  | entryTooLarge
  | capacityUnavailable
deriving DecidableEq

inductive DiskCacheWriteOutcome where
  | stored (bytes : ℕ)
  | skipped (reason : DiskCacheSkipReason)
deriving DecidableEq

/-- the store, and the directory that it works on -/
structure DiskCacheStore where
  config : DiskCacheConfig
  disk : Disk
  generation : ℕ
  retiredBytesPending : ℕ
  sequence : ℕ

/-- `is_retired_directory` -/
def isRetiredDirectory (name : FileName) : Bool := retiredPrefix.isPrefixOf name

namespace DiskCacheStore

variable (c : DiskCacheStore)

/-- `reclaim_orphaned_temporary_files` -/
def reclaimOrphanedTemporaryFiles : DiskCacheStore :=
  { c with disk := { c.disk with active := c.disk.active.retain fun name _ => !hasSuffix temporarySuffix name } }

/-- `reclaim_retired` -/
def reclaimRetired : DiskCacheStore :=
  let c := c.reclaimOrphanedTemporaryFiles
  { c with disk := { c.disk with retired := .empty } }

def «open» (config : DiskCacheConfig) (disk : Disk) : Except DiskCacheError DiskCacheStore := do
  validateConfig config
  return reclaimRetired ⟨config, disk, 0, 0, 0⟩

/-- `unique_name` -/
def uniqueName (before after : Chars) (now : SystemTime) (processId : ℕ) : FileName × DiskCacheStore :=
  let sequence := saturatingAdd c.sequence 1
  let nanos := now.nanos.toNat
  (before ++ hexPadded 32 nanos ++ ['-'] ++ Nat.toDigits 16 processId ++ ['-'] ++ hexPadded 16 sequence ++ after,
    { c with sequence })

/-- `current_entry_bytes` -/
def currentEntryBytes : ℕ := totalBytes (entryFiles c.disk.active)

/-- `available_active_bytes` -/
def availableActiveBytes : ℕ := c.config.maxBytes - c.retiredBytesPending

/-- the loop of `read` over the records of the hash -/
def readLoop (key : Octets) (maxEntryBytes : ℕ) :
    List DiskEntryFile → Files → Except DiskCacheError (Option Octets) × Files
  | [], files => (.ok none, files)
  | candidate :: rest, files =>
    match files.get candidate.path with
    | none => (.error (.io "inspect cache entry"), files)
    | some file =>
      match readEntry file.content key maxEntryBytes with
      | .value value => (.ok (some value), files)
      | .keyMismatch => readLoop key maxEntryBytes rest files
      | .corrupt => readLoop key maxEntryBytes rest (files.erase candidate.path)

def read (key : String) : Except DiskCacheError (Option Octets) × DiskCacheStore :=
  if (utf8 key).length > maxKeyBytes then (.ok none, c)
  else
    let candidates := (entriesMatchingHash c.disk.active (stableHash (utf8 key))).insertionSort newestFirst
    let (result, active) := readLoop (utf8 key) c.config.maxEntryBytes candidates c.disk.active
    (result, { c with disk := { c.disk with active } })

/-- the loop of `prune_for_write`: whether there is room, and the files that are left -/
def pruneLoop (newEntryBytes activeLimit : ℕ) : List DiskEntryFile → ℕ → Files → Bool × Files
  | [], _, files => (false, files)
  | entry :: rest, total, files =>
    let files := files.erase entry.path
    let total := total - entry.bytes
    if saturatingAdd total newEntryBytes ≤ activeLimit then (true, files)
    else pruneLoop newEntryBytes activeLimit rest total files

/-- `prune_for_write` -/
def pruneForWrite (newEntryBytes : ℕ) : Bool × DiskCacheStore :=
  let entries := entryFiles c.disk.active
  let total := totalBytes entries
  if saturatingAdd total newEntryBytes ≤ c.availableActiveBytes then (true, c)
  else
    let (room, active) :=
      pruneLoop newEntryBytes c.availableActiveBytes (entries.insertionSort oldestFirst) total c.disk.active
    (room, { c with disk := { c.disk with active } })

/-- one attempt of `write_atomic`: whether the name was free, and the record is published -/
def publish (name : FileName) (file : File) : Bool × DiskCacheStore :=
  let temporary := name ++ temporarySuffix
  if (c.disk.active.get temporary).isSome then (false, c)
  else
    let written := c.disk.active.set temporary file
    if (written.get name).isSome then (false, { c with disk := { c.disk with active := written.erase temporary } })
    else (true, { c with disk := { c.disk with active := (written.set name file).erase temporary } })

/-- the attempts of `write_atomic` -/
def publishLoop (hash : UInt64) (content : Octets) (around : Surroundings) :
    ℕ → DiskCacheStore → Except DiskCacheError Unit × DiskCacheStore
  | 0, c => (.error (.io "allocate a unique cache entry name"), c)
  | attempts + 1, c =>
    let (name, c) := c.uniqueName (hashPrefix hash) entrySuffix (around.now attempts) around.processId
    match c.publish name ⟨content, around.modified⟩ with
    | (true, c) => (.ok (), c)
    | (false, c) => publishLoop hash content around attempts c

/-- `write_atomic` -/
def writeAtomic (key value : Octets) (around : Surroundings) : Except DiskCacheError Unit × DiskCacheStore :=
  publishLoop (stableHash key) (record key value) around uniqueNameAttempts c

def write (key : String) (value : Octets) (submittedGeneration : ℕ) (around : Surroundings) :
    Except DiskCacheError DiskCacheWriteOutcome × DiskCacheStore :=
  if submittedGeneration ≠ c.generation then (.ok (.skipped .staleGeneration), c)
  else if (utf8 key).length > maxKeyBytes then (.ok (.skipped .keyTooLarge), c)
  else
    match recordSizeFromLengths (utf8 key).length value.length with
    | none => (.error (.invalidConfiguration "disk cache record size overflow"), c)
    | some recordBytes =>
      if recordBytes > c.config.maxEntryBytes ∨ recordBytes > c.config.maxBytes then (.ok (.skipped .entryTooLarge), c)
      else
        let c := c.reclaimOrphanedTemporaryFiles
        if recordBytes > c.availableActiveBytes then (.ok (.skipped .capacityUnavailable), c)
        else
          match c.pruneForWrite recordBytes with
          | (false, c) => (.ok (.skipped .capacityUnavailable), c)
          | (true, c) =>
            match c.writeAtomic (utf8 key) value around with
            | (.error error, c) => (.error error, c)
            | (.ok (), c) => (.ok (.stored recordBytes), c)

/-- `begin_clear`; a directory cannot take the name of another one that is not empty -/
def beginClear (around : Surroundings) : Except DiskCacheError DiskCacheClearJob × DiskCacheStore :=
  let retiredBytes := c.currentEntryBytes
  let (retiredDirectory, c) := c.uniqueName retiredPrefix [] (around.now 0) around.processId
  if (c.disk.retired.get retiredDirectory).isSome then (.error (.io "swap active disk cache generation"), c)
  else
    let c :=
      { c with
        disk := ⟨.empty, c.disk.retired.set retiredDirectory c.disk.active⟩
        retiredBytesPending := saturatingAdd c.retiredBytesPending retiredBytes
        generation := saturatingAdd c.generation 1 }
    (.ok ⟨retiredDirectory, retiredBytes, c.generation⟩, c)

/-- `finish_clear` -/
def finishClear (job : DiskCacheClearJob) : Except DiskCacheError DiskCacheClearResult × DiskCacheStore :=
  if ¬ isRetiredDirectory job.retiredDirectory then (.error .invalidClearJob, c)
  else
    (.ok ⟨c.generation, job.retiredBytes⟩,
      { c with
        disk := { c.disk with retired := c.disk.retired.erase job.retiredDirectory }
        retiredBytesPending := c.retiredBytesPending - job.retiredBytes })

end DiskCacheStore

/-! ## Runs -/

/-- a call of the store; a write carries the generation of the moment at which it was submitted, a number of calls, and a
clear is finished with one of the jobs that were begun and not finished -/
inductive DiskCall where
  | read (key : String)
  | write (key : String) (value : Octets) (submitted : ℕ) (around : Surroundings)
  | beginClear (around : Surroundings)
  | finishClear (job : ℕ)

def DiskCall.isBeginClear : DiskCall → Bool
  | .beginClear _ => true
  | _ => false

/-- a store in use -/
structure DiskSession where
  store : DiskCacheStore
  /-- the clears that were begun and not finished -/
  jobs : List DiskCacheClearJob
  /-- the generation before each call so far -/
  generations : List ℕ

namespace DiskSession

variable (s : DiskSession)

def start (store : DiskCacheStore) : DiskSession := ⟨store, [], []⟩

/-- the generation that a write carries -/
def generationAt (submitted : ℕ) : ℕ := s.generations.getD submitted s.store.generation

/-- the store and the jobs after a call -/
def call : DiskCall → DiskCacheStore × List DiskCacheClearJob
  | .read key => ((s.store.read key).2, s.jobs)
  | .write key value submitted around => ((s.store.write key value (s.generationAt submitted) around).2, s.jobs)
  | .beginClear around =>
    match s.store.beginClear around with
    | (.ok job, c) => (c, s.jobs ++ [job])
    | (.error _, c) => (c, s.jobs)
  | .finishClear index =>
    match s.jobs[index]? with
    | none => (s.store, s.jobs)
    | some job => ((s.store.finishClear job).2, s.jobs.eraseIdx index)

def step (call : DiskCall) : DiskSession :=
  ⟨(s.call call).1, (s.call call).2, s.generations ++ [s.store.generation]⟩

def run (calls : List DiskCall) : DiskSession := calls.foldl step s

variable {s}

theorem run_append (calls later : List DiskCall) : s.run (calls ++ later) = (s.run calls).run later := List.foldl_append

theorem run_concat (calls : List DiskCall) (last : DiskCall) : s.run (calls ++ [last]) = (s.run calls).step last :=
  run_append _ _

end DiskSession

end Render.Cache
