/-
What the records of the disk store detect.

A file is read back as a value exactly when it is the record of the key that is asked for and of that value
(`readEntry_eq_value`), so a damaged file would have to be another record of the same key. Neither a record with one octet
changed nor a part of a record nor a record with more behind it is one: the step of the checksum is injective in the state and
in the octet (`checksum_rolling`), and the length of the value is part of the record.

A record carries no generation. That of the write decides only whether the record is written (`write_stored`).
-/
import Render.Cache.DiskClear

namespace Render.Cache

open Render.Core Render.Net

variable {key value : Octets} {maxEntryBytes : ℕ}

/-! ## The checksum -/

theorem checksum_rolling : Rolling fun (hash : UInt64) (octet : UInt8) => (hash ^^^ octet.toUInt64) * 0x00000100000001b3 := by
  have hinverse : (0x00000100000001b3 : UInt64) * 0xce965057aff6957b = 1 := by decide
  have hcancel : Function.Injective fun hash : UInt64 => hash * 0x00000100000001b3 := by
    intro hash hash' hsame
    calc hash = hash * (0x00000100000001b3 * 0xce965057aff6957b) := by rw [hinverse, UInt64.mul_one]
      _ = hash' * (0x00000100000001b3 * 0xce965057aff6957b) := by
        rw [← UInt64.mul_assoc, ← UInt64.mul_assoc]
        exact congrArg (· * 0xce965057aff6957b) hsame
      _ = hash' := by rw [hinverse, UInt64.mul_one]
  refine ⟨fun octet hash hash' hsame => ?_, fun hash octet octet' hsame => ?_⟩
  · exact (UInt64.xor_left_inj _).1 (hcancel hsame)
  · exact UInt8.toUInt64_inj.1 ((UInt64.xor_right_inj _).1 (hcancel hsame))

/-- the checksum of a key tells two values apart that differ in one octet -/
theorem entryChecksum_set_ne {i : ℕ} (hi : i < value.length) {octet : UInt8} (hne : octet ≠ value[i]) :
    entryChecksum key (value.set i octet) ≠ entryChecksum key value := by
  simp only [entryChecksum, hashFrom, List.foldl_append]
  exact checksum_rolling.foldl_set_ne _ hi hne

/-! ## Reading -/

theorem record_magic (key value : Octets) : (record key value).take 8 = entryMagic := by
  simp only [record, List.append_assoc]
  exact List.take_left' length_entryMagic

theorem record_checksum (key value : Octets) : ((record key value).drop 20).take 8 = toLe 8 (entryChecksum key value).toNat := by
  have hparts : record key value = (entryMagic ++ toLe 4 key.length ++ toLe 8 value.length) ++
      toLe 8 (entryChecksum key value).toNat ++ (key ++ value) := by
    simp only [record, List.append_assoc]
  rw [hparts]
  exact part_eq (by simp only [List.length_append, length_entryMagic, length_toLe]) (length_toLe _ _)

theorem ofLe_checksum (key value : Octets) : ofLe (toLe 8 (entryChecksum key value).toNat) = (entryChecksum key value).toNat :=
  ofLe_toLe (entryChecksum key value).toNat_lt

/-- the limits of a key and a value -/
structure Storable (key value : Octets) (maxEntryBytes : ℕ) : Prop where
  entry : (record key value).length ≤ maxEntryBytes
  limit : maxEntryBytes ≤ u64Max
  key_length : key.length ≤ maxKeyBytes

theorem Storable.value_length (h : Storable key value maxEntryBytes) : value.length ≤ maxEntryBytes := by
  have hentry := h.entry
  rw [length_record] at hentry
  omega

/-- a record is read back -/
theorem readEntry_of_storable (h : Storable key value maxEntryBytes) :
    readEntry (record key value) key maxEntryBytes = .value value := by
  have hkeyBytes : ofLe (((record key value).drop 8).take 4) = key.length := by
    rw [record_keyBytes]
    exact ofLe_toLe (h.key_length.trans_lt (by decide))
  have hvalueBytes : ofLe (((record key value).drop 12).take 8) = value.length := by
    rw [record_valueBytes]
    exact ofLe_toLe ((h.value_length.trans h.limit).trans_lt (by decide))
  have hlong : ¬ ((record key value).length < entryHeaderBytes ∨ (record key value).length > maxEntryBytes) := by
    have hentry := h.entry
    rw [length_record] at hentry ⊢
    omega
  have hsize : recordSizeFromLengths key.length value.length = some (record key value).length := by
    have hlimit := h.entry.trans h.limit
    rw [length_record] at hlimit ⊢
    exact if_pos hlimit
  have hsizes : ¬ ((record key value).length ≠ (record key value).length ∨ key.length > maxKeyBytes ∨
      value.length > maxEntryBytes) := by
    rintro (hne | hlarge | hlarge)
    · exact hne rfl
    · exact absurd h.key_length hlarge.not_ge
    · exact absurd h.value_length hlarge.not_ge
  rw [readEntry, if_neg hlong, if_neg (not_not.2 (record_magic key value))]
  simp only [hkeyBytes, hvalueBytes, hsize, record_key, record_value, record_checksum, ofLe_checksum]
  rw [if_neg hsizes, if_neg (not_not.2 rfl), if_neg (not_not.2 rfl)]

/-- a part of a text, and what is behind it -/
theorem drop_eq_part (octets : Octets) (start length : ℕ) :
    octets.drop start = (octets.drop start).take length ++ octets.drop (start + length) := by
  rw [← List.drop_drop, List.take_append_drop]

theorem toLe_part {octets : Octets} {start width : ℕ} (h : start + width ≤ octets.length) :
    toLe width (ofLe ((octets.drop start).take width)) = (octets.drop start).take width :=
  toLe_ofLe (by rw [List.length_take, List.length_drop]; omega)

/-- **Only a record is read as a value.** -/
theorem eq_record_of_readEntry {content : Octets} (h : readEntry content key maxEntryBytes = .value value) :
    content = record key value ∧ value.length ≤ u64Max := by
  rw [readEntry] at h
  split_ifs at h with hlength hmagic
  simp only at h
  split at h
  · cases h
  · rename_i expectedBytes hexpected
    split_ifs at h with hsizes hkey hchecksum
    obtain ⟨hbytes, hlimit⟩ := DiskCacheStore.recordSize_eq_some hexpected
    obtain rfl := not_not.1 hkey
    obtain ⟨hlong, _⟩ := not_or.1 hlength
    obtain ⟨hsize, _⟩ := not_or.1 hsizes
    simp only [entryHeaderBytes] at hlong hbytes
    have hend : 28 + ofLe ((content.drop 8).take 4) + ofLe ((content.drop 12).take 8) = content.length :=
      hbytes.symm.trans (not_not.1 hsize)
    have hkeyLength : ((content.drop 28).take (ofLe ((content.drop 8).take 4))).length = ofLe ((content.drop 8).take 4) := by
      rw [List.length_take, List.length_drop]
      omega
    have hvalue : (content.drop (28 + ofLe ((content.drop 8).take 4))).take (ofLe ((content.drop 12).take 8)) =
        content.drop (28 + ofLe ((content.drop 8).take 4)) :=
      List.take_of_length_le (by rw [List.length_drop]; omega)
    have hvalueLength : (content.drop (28 + ofLe ((content.drop 8).take 4))).length = ofLe ((content.drop 12).take 8) := by
      rw [List.length_drop]
      omega
    rw [hvalue] at h hchecksum
    cases h
    have hread := not_not.1 hchecksum
    refine ⟨?_, hvalueLength.trans_le hlimit⟩
    rw [record, hkeyLength, hvalueLength, hread, toLe_part (by omega), toLe_part (by omega), toLe_part (by omega),
      ← not_not.1 hmagic]
    simp only [List.append_assoc]
    rw [← drop_eq_part content 28, ← drop_eq_part content 20, ← drop_eq_part content 12, ← drop_eq_part content 8,
      List.take_append_drop]

/-! ## Damage -/

/-- records of one key that start alike have one length -/
theorem record_append {value' extra : Octets} (hvalue : value.length ≤ u64Max) (hvalue' : value'.length ≤ u64Max)
    (h : record key value' = record key value ++ extra) : extra = [] := by
  have hbytes : toLe 8 value'.length = toLe 8 value.length := by
    have hdrop := congrArg (fun octets => (octets.drop 12).take 8) h
    have hlong : 28 ≤ (record key value).length := by
      rw [length_record]
      exact (Nat.le_add_right _ _).trans (Nat.le_add_right _ _)
    simp only [record_valueBytes] at hdrop
    rw [hdrop, List.drop_append_of_le_length (by omega), List.take_append_of_le_length (by rw [List.length_drop]; omega),
      record_valueBytes]
  have hlength : value'.length = value.length := by
    have height : ofLe (toLe 8 value'.length) = value'.length := ofLe_toLe (hvalue'.trans_lt (by decide))
    rw [← height, hbytes, ofLe_toLe (hvalue.trans_lt (by decide))]
  have htotal := congrArg List.length h
  rw [List.length_append, length_record, length_record, hlength] at htotal
  exact List.length_eq_zero_iff.1 (by omega)

theorem record_drop (key value : Octets) : (record key value).drop (28 + key.length) = value := by
  rw [record, List.drop_left' (by rw [List.length_append, length_recordHeader])]

/-- records of one key do not differ in one octet -/
theorem record_set {value' : Octets} {i : ℕ} (hi : i < (record key value).length) {octet : UInt8}
    (hne : octet ≠ (record key value)[i]) : (record key value).set i octet ≠ record key value' := by
  intro h
  have hvalue : value' = ((record key value).set i octet).drop (28 + key.length) := by rw [h, record_drop]
  rw [List.drop_set] at hvalue
  split_ifs at hvalue with hbefore
  · -- the value is the same, and so is the record
    rw [record_drop] at hvalue
    subst hvalue
    have hself : ((record key value').set i octet)[i]? = some octet := by rw [List.getElem?_set_self hi]
    rw [h, List.getElem?_eq_getElem hi] at hself
    exact hne (Option.some.inj hself).symm
  · -- the checksum is the same, and that of the other value is another one
    rw [record_drop] at hvalue
    have hlength := length_record key value
    simp only [entryHeaderBytes] at hlength
    have hj : i - (28 + key.length) < value.length := by omega
    have hoctet : value[i - (28 + key.length)] = (record key value)[i] := by
      have hindex : 28 + key.length + (i - (28 + key.length)) = i := by omega
      have hget : value[i - (28 + key.length)]? = (record key value)[i]? := by
        conv_lhs => rw [← record_drop key value]
        rw [List.getElem?_drop, hindex]
      rw [List.getElem?_eq_getElem hj, List.getElem?_eq_getElem hi] at hget
      exact Option.some.inj hget
    have hsame : toLe 8 (entryChecksum key value').toNat = toLe 8 (entryChecksum key value).toNat := by
      rw [← record_checksum, ← record_checksum, ← h, List.drop_set, if_neg (by omega), List.take_set,
        List.set_eq_of_length_le (by rw [List.length_take, List.length_drop]; omega)]
    have hchecksum : entryChecksum key value' = entryChecksum key value := by
      rw [← UInt64.toNat_inj, ← ofLe_checksum, hsame, ofLe_checksum]
    rw [hvalue] at hchecksum
    exact entryChecksum_set_ne hj (by rwa [hoctet]) hchecksum

/-! ## Writing -/

namespace DiskCacheStore

variable {c : DiskCacheStore}

theorem publish_true {name : FileName} {file : File} (h : (c.publish name file).1 = true) :
    (c.publish name file).2.disk.active.get name = some file := by
  rw [publish] at h ⊢
  by_cases htemporary : (c.disk.active.get (name ++ temporarySuffix)).isSome
  · rw [if_pos htemporary] at h
    cases h
  · rw [if_neg htemporary] at h ⊢
    by_cases hname : ((c.disk.active.set (name ++ temporarySuffix) file).get name).isSome
    · simp only [hname, if_true] at h
      cases h
    · simp only [hname]
      have hne : name ≠ name ++ temporarySuffix := by
        intro hsame
        exact absurd (List.self_eq_append_right.1 hsame) (by decide)
      calc (((c.disk.active.set (name ++ temporarySuffix) file).set name file).erase (name ++ temporarySuffix)).get name
          = ((c.disk.active.set (name ++ temporarySuffix) file).set name file).get name := Assoc.get_erase_of_ne hne
        _ = some file := Assoc.get_set

theorem publishLoop_ok {hash : UInt64} {content : Octets} {around : Surroundings} {attempts : ℕ}
    (h : (publishLoop hash content around attempts c).1 = .ok ()) :
    ∃ name, (publishLoop hash content around attempts c).2.disk.active.get name = some ⟨content, around.modified⟩ := by
  induction attempts generalizing c with
  | zero => cases h
  | succ attempts ih =>
    have htrue := @publish_true (c.uniqueName (hashPrefix hash) entrySuffix (around.now attempts) around.processId).2
      (c.uniqueName (hashPrefix hash) entrySuffix (around.now attempts) around.processId).1 ⟨content, around.modified⟩
    rw [publishLoop] at h ⊢
    simp only at h ⊢
    cases hpublish : (c.uniqueName (hashPrefix hash) entrySuffix (around.now attempts) around.processId).2.publish
        (c.uniqueName (hashPrefix hash) entrySuffix (around.now attempts) around.processId).1 ⟨content, around.modified⟩ with
    | mk published next =>
      rw [hpublish] at h htrue
      cases published with
      | true => exact ⟨_, htrue rfl⟩
      | false => exact ih h

/-- a write that is stored is of the current generation, and leaves the record in a file -/
theorem write_stored {key : String} {value : Octets} {submitted bytes : ℕ} {around : Surroundings}
    (h : (c.write key value submitted around).1 = .ok (.stored bytes)) :
    submitted = c.generation ∧ ∃ name, (c.write key value submitted around).2.disk.active.get name =
      some ⟨record (utf8 key) value, around.modified⟩ := by
  rw [write] at h ⊢
  by_cases hgeneration : submitted ≠ c.generation
  · rw [if_pos hgeneration] at h
    cases h
  by_cases hkey : (utf8 key).length > maxKeyBytes
  · rw [if_neg hgeneration, if_pos hkey] at h
    cases h
  rw [if_neg hgeneration, if_neg hkey] at h ⊢
  cases hsize : recordSizeFromLengths (utf8 key).length value.length with
  | none =>
    rw [hsize] at h
    cases h
  | some recordBytes =>
    rw [hsize] at h
    simp only at h ⊢
    by_cases hlarge : recordBytes > c.config.maxEntryBytes ∨ recordBytes > c.config.maxBytes
    · rw [if_pos hlarge] at h
      cases h
    by_cases hfull : recordBytes > c.reclaimOrphanedTemporaryFiles.availableActiveBytes
    · rw [if_neg hlarge, if_pos hfull] at h
      cases h
    rw [if_neg hlarge, if_neg hfull] at h ⊢
    refine ⟨not_not.1 hgeneration, ?_⟩
    cases hprune : c.reclaimOrphanedTemporaryFiles.pruneForWrite recordBytes with
    | mk room pruned =>
      rw [hprune] at h
      cases room with
      | false => cases h
      | true =>
        simp only at h ⊢
        cases hwrite : pruned.writeAtomic (utf8 key) value around with
        | mk result written =>
          rw [hwrite] at h
          cases result with
          | error error => cases h
          | ok _ =>
            have hok : (pruned.writeAtomic (utf8 key) value around).1 = .ok () := by rw [hwrite]
            rw [writeAtomic] at hok
            have hname := publishLoop_ok hok
            rwa [← writeAtomic, hwrite] at hname

end DiskCacheStore

/-! ## Files -/

/-- a text is not read as a value of a key -/
def Unreadable (key content : Octets) : Prop := ∀ limit found, readEntry content key limit ≠ .value found

theorem unreadable_of_ne {content : Octets} (h : ∀ value', value'.length ≤ u64Max → content ≠ record key value') :
    Unreadable key content := by
  intro limit found hread
  obtain ⟨hrecord, hlength⟩ := eq_record_of_readEntry hread
  exact h found hlength hrecord

/-- **Records round-trip and detect damage.** The record of a key and a value within the limits is read as that value, and a
record with one octet changed, a part of it, and a record with more behind it are read as no value of the key. Whatever the
generation is that a write was submitted in, what it stores is that record. -/
theorem disk_records {key : String} {value : Octets} {maxEntryBytes : ℕ} (h : Storable (utf8 key) value maxEntryBytes) :
    readEntry (record (utf8 key) value) (utf8 key) maxEntryBytes = .value value ∧
    (∀ i, (hi : i < (record (utf8 key) value).length) → ∀ octet, octet ≠ (record (utf8 key) value)[i] →
      Unreadable (utf8 key) ((record (utf8 key) value).set i octet)) ∧
    (∀ length < (record (utf8 key) value).length, Unreadable (utf8 key) ((record (utf8 key) value).take length)) ∧
    (∀ extra ≠ [], Unreadable (utf8 key) (record (utf8 key) value ++ extra)) ∧
    ∀ (c : DiskCacheStore) (submitted bytes : ℕ) (around : Surroundings),
      (c.write key value submitted around).1 = .ok (.stored bytes) → submitted = c.generation ∧
        ∃ name, (c.write key value submitted around).2.disk.active.get name =
          some ⟨record (utf8 key) value, around.modified⟩ := by
  have hvalue := h.value_length.trans h.limit
  refine ⟨readEntry_of_storable h, ?_, ?_, ?_, ?_⟩
  · intro i hi octet hne
    exact unreadable_of_ne fun value' _ => record_set hi hne
  · intro length hlength
    refine unreadable_of_ne fun value' hvalue' hrecord => ?_
    have happend : record (utf8 key) value = record (utf8 key) value' ++ (record (utf8 key) value).drop length := by
      rw [← hrecord, List.take_append_drop]
    have hnil := record_append hvalue' hvalue happend
    exact absurd (List.drop_eq_nil_iff.1 hnil) hlength.not_ge
  · intro extra hextra
    exact unreadable_of_ne fun value' hvalue' hrecord => hextra (record_append hvalue hvalue' hrecord.symm)
  · intro c submitted bytes around hstored
    exact DiskCacheStore.write_stored hstored

/-- a record of one octet under a key of one octet -/
theorem disk_records_octet :
    readEntry (record (utf8 "k") [7]) (utf8 "k") 100 = .value [7] ∧ Unreadable (utf8 "k") (record (utf8 "k") [7] ++ [0]) := by
  have h : Storable (utf8 "k") [7] 100 := ⟨by decide +kernel, by decide, by decide +kernel⟩
  obtain ⟨hread, _, _, hlonger, _⟩ := disk_records h
  exact ⟨hread, hlonger [0] (List.cons_ne_nil _ _)⟩

end Render.Cache
