/-
The HPACK encoder and decoder of two peers stay in lock step (`hpack_sync`): over a run of header lists and table size
changes, every block decodes to the header list it was encoded from, and after every block both dynamic tables are equal.

- `kept_kept`: a table that is resized twice keeps what the smaller of the two sizes keeps, so the smallest and the last
  size of a block are all that the decoder has to know.
- `decodeOne_encodeField`: one field, from equal tables to equal tables. `Decodes` puts such steps behind each other.
- `Synced` is the invariant between two blocks, `Synced.resize` and `Synced.block` are its two steps.

Every number on the wire has to fit in 32 bits. The decoder refuses larger ones even where it allows the size
(`hpack_sync_wide`).
-/
import Render.H2.HpackCode

namespace Render.H2

open Render.Core

/-! ## The dynamic table -/

/-- the size of a list of entries -/
def totalSize (entries : List HeaderField) : ℕ := (entries.map HeaderField.size).sum

@[simp] theorem totalSize_nil : totalSize [] = 0 := rfl

@[simp] theorem totalSize_cons (entry : HeaderField) (rest : List HeaderField) :
    totalSize (entry :: rest) = entry.size + totalSize rest := by
  simp [totalSize]

@[simp] theorem totalSize_reverse (entries : List HeaderField) : totalSize entries.reverse = totalSize entries := by
  simp [totalSize, List.sum_reverse]

theorem length_le_totalSize (entries : List HeaderField) : 32 * entries.length ≤ totalSize entries := by
  induction entries with
  | nil => simp
  | cons entry rest ih =>
    simp only [totalSize_cons, List.length_cons, HeaderField.size]
    omega

namespace DynamicTable

/-- what eviction leaves of the entries, oldest first -/
def kept (upcoming maxSize : ℕ) : List HeaderField → List HeaderField
  | [] => []
  | entry :: rest => if totalSize (entry :: rest) + upcoming > maxSize then kept upcoming maxSize rest else entry :: rest

theorem evictLoop_kept (upcoming maxSize : ℕ) (entries : List HeaderField) :
    evictLoop upcoming maxSize entries (totalSize entries) =
      (kept upcoming maxSize entries, totalSize (kept upcoming maxSize entries)) := by
  induction entries with
  | nil => rfl
  | cons entry rest ih =>
    have hrest : totalSize (entry :: rest) - entry.size = totalSize rest := by simp
    rw [evictLoop, kept, hrest]
    split_ifs
    · exact ih
    · rfl

theorem kept_fits {upcoming maxSize : ℕ} (hup : upcoming ≤ maxSize) (entries : List HeaderField) :
    totalSize (kept upcoming maxSize entries) + upcoming ≤ maxSize := by
  induction entries with
  | nil => simpa [kept] using hup
  | cons entry rest ih =>
    rw [kept]
    split_ifs with hfull
    · exact ih
    · omega

/-- a size that is no limit to the entries can be left out -/
theorem kept_min {a : ℕ} (b : ℕ) {entries : List HeaderField} (hfits : totalSize entries ≤ a) :
    kept 0 b entries = kept 0 (min a b) entries := by
  induction entries with
  | nil => rfl
  | cons entry rest ih =>
    simp only [totalSize_cons] at hfits
    have hsame : totalSize (entry :: rest) + 0 > b ↔ totalSize (entry :: rest) + 0 > min a b := by
      simp only [totalSize_cons]
      omega
    simp only [kept, hsame, ih (by omega)]

theorem kept_kept (a b : ℕ) (entries : List HeaderField) : kept 0 b (kept 0 a entries) = kept 0 (min a b) entries := by
  induction entries with
  | nil => rfl
  | cons entry rest ih =>
    by_cases hfull : totalSize (entry :: rest) + 0 > a
    · have hmin : totalSize (entry :: rest) + 0 > min a b := by omega
      rw [kept, if_pos hfull, kept, if_pos hmin]
      exact ih
    · rw [kept, if_neg hfull]
      exact kept_min b (by omega)

/-- the size of a table is that of its entries, and within its capacity -/
structure Sound (table : DynamicTable) : Prop where
  size_eq : table.size = totalSize table.entries
  size_le : table.size ≤ table.maxSize

theorem sound_new (maxSize : ℕ) : (new maxSize).Sound := ⟨rfl, Nat.zero_le _⟩

theorem Sound.length_le {table : DynamicTable} (h : table.Sound) : table.entries.length ≤ table.maxSize / 32 := by
  have hlength := length_le_totalSize table.entries
  have hsize := h.size_eq
  have hle := h.size_le
  omega

theorem evictToFit_eq {table : DynamicTable} (hsize : table.size = totalSize table.entries) (upcoming : ℕ) :
    table.evictToFit upcoming =
      ⟨(kept upcoming table.maxSize table.entries.reverse).reverse,
        totalSize (kept upcoming table.maxSize table.entries.reverse), table.maxSize⟩ := by
  rw [evictToFit, hsize, ← totalSize_reverse, evictLoop_kept]

theorem setMaxSize_eq {table : DynamicTable} (h : table.Sound) (maxSize : ℕ) :
    table.setMaxSize maxSize =
      ⟨(kept 0 maxSize table.entries.reverse).reverse, totalSize (kept 0 maxSize table.entries.reverse), maxSize⟩ :=
  @evictToFit_eq { table with maxSize } h.size_eq 0

@[simp] theorem maxSize_setMaxSize (table : DynamicTable) (maxSize : ℕ) :
    (table.setMaxSize maxSize).maxSize = maxSize := rfl

theorem Sound.setMaxSize {table : DynamicTable} (h : table.Sound) (maxSize : ℕ) : (table.setMaxSize maxSize).Sound := by
  rw [setMaxSize_eq h]
  exact ⟨by simp, kept_fits (Nat.zero_le _) _⟩

/-- **Two resizes.** The entries are those that the smaller size keeps, the capacity is the last one. -/
theorem setMaxSize_setMaxSize {table : DynamicTable} (h : table.Sound) (a b : ℕ) :
    (table.setMaxSize a).setMaxSize b = { table.setMaxSize (min a b) with maxSize := b } := by
  rw [setMaxSize_eq (h.setMaxSize a), setMaxSize_eq h, setMaxSize_eq h]
  simp only [List.reverse_reverse, kept_kept]

@[simp] theorem maxSize_insert (table : DynamicTable) (entry : HeaderField) :
    (table.insert entry).maxSize = table.maxSize := by
  rw [insert]
  split_ifs <;> rfl

theorem Sound.insert {table : DynamicTable} (h : table.Sound) (entry : HeaderField) : (table.insert entry).Sound := by
  rw [DynamicTable.insert]
  split_ifs with hlarge
  · exact ⟨rfl, Nat.zero_le _⟩
  · have hfits := kept_fits (Nat.not_lt.1 hlarge) table.entries.reverse
    rw [evictToFit_eq h.size_eq]
    refine ⟨?_, ?_⟩
    · simp [Nat.add_comm]
    · exact hfits

end DynamicTable

/-! ## Combined indices -/

theorem length_staticTable : staticTable.length = 61 := by decide +kernel

namespace HpackDecoder

/-- an index into the static table -/
theorem lookup_static (decoder : HpackDecoder) {position : ℕ} {entry : Octets × Octets}
    (h : staticTable[position]? = some entry) : decoder.lookup (position + 1) = .ok ⟨entry.1, entry.2⟩ := by
  simp [lookup, h]

/-- an index behind the static table -/
theorem lookup_dynamic (decoder : HpackDecoder) {position : ℕ} {entry : HeaderField}
    (h : decoder.table.entries[position]? = some entry) :
    decoder.lookup (staticTable.length + position + 1) = .ok entry := by
  have hindex : staticTable.length + position + 1 - staticTable.length - 1 = position := by omega
  simp [lookup, hindex, h]

end HpackDecoder

theorem getElem?_of_findIdx? {α : Type} {p : α → Bool} {xs : List α} {i : ℕ} (h : xs.findIdx? p = some i) :
    ∃ x, xs[i]? = some x ∧ p x = true := by
  obtain ⟨hi, hp, -⟩ := List.findIdx?_eq_some_iff_getElem.1 h
  exact ⟨xs[i], List.getElem?_eq_getElem hi, hp⟩

/-- what the decoder finds under an index that the encoder writes -/
structure Names (encoder : HpackEncoder) (index : ℕ) (field : HeaderField) : Prop where
  pos : 0 < index
  le : index ≤ 61 + encoder.table.entries.length
  lookup : ∀ decoder : HpackDecoder, decoder.table = encoder.table → decoder.lookup index = .ok field

theorem names_static (encoder : HpackEncoder) {position : ℕ} {entry : Octets × Octets}
    (h : staticTable[position]? = some entry) : Names encoder (position + 1) ⟨entry.1, entry.2⟩ := by
  have hlt := (List.getElem?_eq_some_iff.1 h).1
  rw [length_staticTable] at hlt
  exact ⟨Nat.succ_pos _, by omega, fun decoder _ => decoder.lookup_static h⟩

theorem names_dynamic (encoder : HpackEncoder) {position : ℕ} {entry : HeaderField}
    (h : encoder.table.entries[position]? = some entry) :
    Names encoder (staticTable.length + position + 1) entry := by
  have hlt := (List.getElem?_eq_some_iff.1 h).1
  refine ⟨Nat.succ_pos _, by rw [length_staticTable]; omega, ?_⟩
  intro decoder htable
  rw [← htable] at h
  exact decoder.lookup_dynamic h

theorem findExact_names {encoder : HpackEncoder} {name value : Octets} {index : ℕ}
    (h : encoder.findExact name value = some index) : Names encoder index ⟨name, value⟩ := by
  simp only [HpackEncoder.findExact] at h
  split at h
  · rename_i position hfind
    obtain ⟨entry, hget, heq⟩ := getElem?_of_findIdx? hfind
    simp only [Bool.and_eq_true, beq_iff_eq] at heq
    simp only [Option.some.injEq] at h
    rw [← h, ← heq.1, ← heq.2]
    exact names_static encoder hget
  · obtain ⟨position, hfind, rfl⟩ := Option.map_eq_some_iff.1 h
    obtain ⟨entry, hget, heq⟩ := getElem?_of_findIdx? hfind
    simp only [Bool.and_eq_true, beq_iff_eq] at heq
    rw [← heq.1, ← heq.2]
    exact names_dynamic encoder hget

theorem findName_names {encoder : HpackEncoder} {name : Octets} {index : ℕ}
    (h : encoder.findName name = some index) : ∃ field, Names encoder index field ∧ field.name = name := by
  simp only [HpackEncoder.findName] at h
  split at h
  · rename_i position hfind
    obtain ⟨entry, hget, heq⟩ := getElem?_of_findIdx? hfind
    simp only [Option.some.injEq] at h
    rw [← h]
    exact ⟨_, names_static encoder hget, eq_of_beq heq⟩
  · obtain ⟨position, hfind, rfl⟩ := Option.map_eq_some_iff.1 h
    obtain ⟨entry, hget, heq⟩ := getElem?_of_findIdx? hfind
    exact ⟨entry, names_dynamic encoder hget, eq_of_beq heq⟩

/-! ## One field -/

/-- the first octet of a representation says which one it is -/
theorem first_octets :
    (ReadsPrefix 6 0x40 ∧ ReadsPrefix 5 0x20 ∧ ReadsPrefix 4 0x00 ∧ ReadsPrefix 4 0x10) ∧
      (∀ v < 2 ^ 6, (0x40 ||| UInt8.ofNat v) &&& 0x80 = 0 ∧ (0x40 ||| UInt8.ofNat v) &&& 0x40 ≠ 0) ∧
      (∀ v < 2 ^ 5, (0x20 ||| UInt8.ofNat v) &&& 0x80 = 0 ∧ (0x20 ||| UInt8.ofNat v) &&& 0x40 = 0 ∧
        (0x20 ||| UInt8.ofNat v) &&& 0x20 ≠ 0) ∧
      ∀ pattern ∈ [(0x00 : UInt8), 0x10], ∀ v < 2 ^ 4,
        (pattern ||| UInt8.ofNat v) &&& 0x80 = 0 ∧ (pattern ||| UInt8.ofNat v) &&& 0x40 = 0 ∧
          (pattern ||| UInt8.ofNat v) &&& 0x20 = 0 := by decide +kernel

theorem reads_prefixes : ReadsPrefix 6 0x40 ∧ ReadsPrefix 5 0x20 ∧ ReadsPrefix 4 0x00 ∧ ReadsPrefix 4 0x10 := first_octets.1

theorem incremental_bits (v : ℕ) (hv : v < 2 ^ 6) :
    (0x40 ||| UInt8.ofNat v) &&& 0x80 = 0 ∧ (0x40 ||| UInt8.ofNat v) &&& 0x40 ≠ 0 := first_octets.2.1 v hv

theorem update_bits (v : ℕ) (hv : v < 2 ^ 5) : (0x20 ||| UInt8.ofNat v) &&& 0x80 = 0 ∧
    (0x20 ||| UInt8.ofNat v) &&& 0x40 = 0 ∧ (0x20 ||| UInt8.ofNat v) &&& 0x20 ≠ 0 := first_octets.2.2.1 v hv

theorem literal_bits (pattern : UInt8) (hpattern : pattern ∈ [(0x00 : UInt8), 0x10]) (v : ℕ) (hv : v < 2 ^ 4) :
    (pattern ||| UInt8.ofNat v) &&& 0x80 = 0 ∧ (pattern ||| UInt8.ofNat v) &&& 0x40 = 0 ∧
      (pattern ||| UInt8.ofNat v) &&& 0x20 = 0 := first_octets.2.2.2 pattern hpattern v hv

/-- the lengths of both strings of a field, as it would be written literally -/
def HeaderField.longest (field : HeaderField) (huffman : Bool) : ℕ :=
  max (coded field.name huffman).length (coded field.value huffman).length

/-- the decoder has room for a field -/
structure Fits (decoder : HpackDecoder) (field : HeaderField) (huffman : Bool) : Prop where
  octets : field.longest huffman ≤ u32Max
  limit : field.longest huffman ≤ decoder.maxStringSize

/-- the indices of an encoder fit in 32 bits -/
structure Encodable (encoder : HpackEncoder) : Prop where
  sound : encoder.table.Sound
  indices : 61 + encoder.table.maxSize / 32 ≤ u32Max

theorem Names.le_u32Max {encoder : HpackEncoder} {index : ℕ} {field : HeaderField} (h : Names encoder index field)
    (hencoder : Encodable encoder) : index ≤ u32Max := by
  have hle := h.le
  have hlength := hencoder.sound.length_le
  have hindices := hencoder.indices
  omega

/-- what `encodeLiteral` writes, read with the table it was written with -/
theorem decodeLiteral_encodeLiteral {encoder : HpackEncoder} {decoder : HpackDecoder} {field : HeaderField}
    {indexing : Indexing} {huffman : Bool} (hencoder : Encodable encoder) (htable : decoder.table = encoder.table)
    (hfits : Fits decoder field huffman) (rest : Octets) :
    decoder.decodeLiteral ((encoder.encodeLiteral field indexing huffman).1 ++ rest)
      (HpackEncoder.literalPrefix indexing).2 = .ok (field, rest) := by
  have hread : ReadsPrefix (HpackEncoder.literalPrefix indexing).2 (HpackEncoder.literalPrefix indexing).1 := by
    cases indexing
    · exact reads_prefixes.1
    · exact reads_prefixes.2.2.1
    · exact reads_prefixes.2.2.2
  obtain ⟨hnameOctets, hvalueOctets⟩ := max_le_iff.1 hfits.octets
  obtain ⟨hnameLimit, hvalueLimit⟩ := max_le_iff.1 hfits.limit
  have hvalue := decodeString_encodeString decoder hvalueOctets hvalueLimit rest
  simp only [HpackEncoder.encodeLiteral, List.append_assoc, HpackDecoder.decodeLiteral]
  cases hname : encoder.findName field.name with
  | none =>
    have hzero := decodeInteger_encodeInteger hread (Nat.zero_le u32Max)
      (encodeString field.name huffman ++ (encodeString field.value huffman ++ rest))
    have hnameString := decodeString_encodeString decoder hnameOctets hnameLimit
      (encodeString field.value huffman ++ rest)
    simp [hzero, HpackDecoder.decodeName, hnameString, hvalue]
  | some index =>
    obtain ⟨entry, hnames, heq⟩ := findName_names hname
    have hindex := decodeInteger_encodeInteger hread (hnames.le_u32Max hencoder)
      (encodeString field.value huffman ++ rest)
    simp [hindex, HpackDecoder.decodeName, hnames.pos.ne', hnames.lookup decoder htable, heq, hvalue]

/-- a literal starts with its pattern -/
theorem encodeLiteral_first (encoder : HpackEncoder) (field : HeaderField) (indexing : Indexing) (huffman : Bool) :
    ∃ v < 2 ^ (HpackEncoder.literalPrefix indexing).2, ∃ tail,
      (encoder.encodeLiteral field indexing huffman).1 =
        ((HpackEncoder.literalPrefix indexing).1 ||| UInt8.ofNat v) :: tail := by
  obtain ⟨v, hv, tail, hfirst⟩ := encodeInteger_first ((encoder.findName field.name).getD 0)
    (HpackEncoder.literalPrefix indexing).2 (HpackEncoder.literalPrefix indexing).1
  simp only [HpackEncoder.encodeLiteral, hfirst, List.cons_append]
  exact ⟨v, hv, _, rfl⟩

@[simp] theorem table_encodeLiteral_incremental (encoder : HpackEncoder) (field : HeaderField) (huffman : Bool) :
    (encoder.encodeLiteral field .incremental huffman).2.table = encoder.table.insert field := rfl

@[simp] theorem encodeLiteral_withoutIndexing (encoder : HpackEncoder) (field : HeaderField) (huffman : Bool) :
    (encoder.encodeLiteral field .withoutIndexing huffman).2 = encoder := rfl

@[simp] theorem encodeLiteral_neverIndexed (encoder : HpackEncoder) (field : HeaderField) (huffman : Bool) :
    (encoder.encodeLiteral field .neverIndexed huffman).2 = encoder := rfl

namespace HpackDecoder

/-- a representation that takes the decoder from one state of a block to another, whatever follows it -/
def Represents (decoder : HpackDecoder) (b : Block) (octets : Octets) (b' : Block) : Prop :=
  ∃ first tail, octets = first :: tail ∧ ∀ rest, decoder.decodeOne b (octets ++ rest) first = .ok (b', rest)

/-- a block with one more field -/
def Block.push (b : Block) (field : HeaderField) (table : DynamicTable) : Block :=
  ⟨table, b.headers ++ [field], b.headerListSize + field.size, true⟩

theorem account_ok {decoder : HpackDecoder} {field : HeaderField} {current : ℕ}
    (hlist : current + field.size ≤ min decoder.headerListLimit usizeMax) :
    decoder.account field current = .ok (current + field.size) := by
  obtain ⟨hlimit, hmax⟩ := le_min_iff.1 hlist
  simp [account, Nat.not_lt.2 hlimit, Nat.not_lt.2 hmax]

/-- a literal that goes into the table -/
theorem decodeOne_incremental {decoder : HpackDecoder} {b : Block} {field : HeaderField} {block rest : Octets}
    {first : UInt8} (hindexed : first &&& 0x80 = 0) (hbit : first &&& 0x40 ≠ 0)
    (hliteral : decodeLiteral { decoder with table := b.table } block 6 = .ok (field, rest))
    (hlist : b.headerListSize + field.size ≤ min decoder.headerListLimit usizeMax) :
    decoder.decodeOne b block first = .ok (b.push field (b.table.insert field), rest) := by
  have haccount : account { decoder with table := b.table } field b.headerListSize = _ := account_ok hlist
  simp [decodeOne, hindexed, hbit, hliteral, haccount, Block.push]

/-- a literal that does not -/
theorem decodeOne_literal {decoder : HpackDecoder} {b : Block} {field : HeaderField} {block rest : Octets}
    {first : UInt8} (hbits : first &&& 0x80 = 0 ∧ first &&& 0x40 = 0 ∧ first &&& 0x20 = 0)
    (hliteral : decodeLiteral { decoder with table := b.table } block 4 = .ok (field, rest))
    (hlist : b.headerListSize + field.size ≤ min decoder.headerListLimit usizeMax) :
    decoder.decodeOne b block first = .ok (b.push field b.table, rest) := by
  have haccount : account { decoder with table := b.table } field b.headerListSize = _ := account_ok hlist
  simp [decodeOne, hbits, hliteral, haccount, Block.push]

theorem represents_literal {encoder : HpackEncoder} {decoder : HpackDecoder} {b : Block} {field : HeaderField}
    {indexing : Indexing} {huffman : Bool} (hencoder : Encodable encoder) (htable : b.table = encoder.table)
    (hfits : Fits decoder field huffman)
    (hlist : b.headerListSize + field.size ≤ min decoder.headerListLimit usizeMax) :
    decoder.Represents b (encoder.encodeLiteral field indexing huffman).1
      (b.push field (encoder.encodeLiteral field indexing huffman).2.table) := by
  obtain ⟨v, hv, tail, hfirst⟩ := encodeLiteral_first encoder field indexing huffman
  refine ⟨_, tail, hfirst, ?_⟩
  intro rest
  have hliteral := @decodeLiteral_encodeLiteral encoder { decoder with table := b.table } field indexing huffman hencoder
    htable ⟨hfits.octets, hfits.limit⟩ rest
  cases indexing with
  | incremental =>
    obtain ⟨hindexed, hbit⟩ := incremental_bits v hv
    rw [table_encodeLiteral_incremental, ← htable]
    exact decodeOne_incremental hindexed hbit hliteral hlist
  | withoutIndexing =>
    rw [encodeLiteral_withoutIndexing, ← htable]
    exact decodeOne_literal (literal_bits 0x00 (by simp) v hv) hliteral hlist
  | neverIndexed =>
    rw [encodeLiteral_neverIndexed, ← htable]
    exact decodeOne_literal (literal_bits 0x10 (by simp) v hv) hliteral hlist

/-- a field that is written as an index -/
theorem represents_indexed {encoder : HpackEncoder} {decoder : HpackDecoder} {b : Block} {field : HeaderField}
    {index : ℕ} (hencoder : Encodable encoder) (htable : b.table = encoder.table) (hnames : Names encoder index field)
    (hlist : b.headerListSize + field.size ≤ min decoder.headerListLimit usizeMax) :
    decoder.Represents b (encodeInteger index 7 0x80) (b.push field encoder.table) := by
  obtain ⟨v, hv, tail, hfirst⟩ := encodeInteger_first index 7 0x80
  refine ⟨_, tail, hfirst, ?_⟩
  intro rest
  have hindex := decodeInteger_encodeInteger reads_length.1 (hnames.le_u32Max hencoder) rest
  have haccount : account { decoder with table := b.table } field b.headerListSize = _ := account_ok hlist
  have hlookup := hnames.lookup { decoder with table := b.table } htable
  simp [decodeOne, huffman_bit v hv, hindex, hnames.pos.ne', hlookup, haccount, Block.push, ← htable]

/-- **One field.** From the table it was written with, a field decodes to itself and to the table of the encoder. -/
theorem decodeOne_encodeField {encoder : HpackEncoder} {decoder : HpackDecoder} {b : Block} {field : HeaderField}
    {indexing : Indexing} {huffman : Bool} (hencoder : Encodable encoder) (htable : b.table = encoder.table)
    (hfits : Fits decoder field huffman)
    (hlist : b.headerListSize + field.size ≤ min decoder.headerListLimit usizeMax) :
    decoder.Represents b (encoder.encodeField field indexing huffman).1
      (b.push field (encoder.encodeField field indexing huffman).2.table) := by
  rw [HpackEncoder.encodeField]
  split_ifs with hindexing
  · split
    · rename_i index hfind
      exact represents_indexed hencoder htable (findExact_names hfind) hlist
    · exact represents_literal hencoder htable hfits hlist
  · exact represents_literal hencoder htable hfits hlist

/-! ## One block -/

/-- the loop gets from one state of the block to another over these octets, whatever follows them -/
def Decodes (decoder : HpackDecoder) (b : Block) (octets : Octets) (b' : Block) : Prop :=
  ∀ rest fuel, (octets ++ rest).length ≤ fuel →
    ∃ fuel', rest.length ≤ fuel' ∧ decoder.decodeLoop fuel b (octets ++ rest) = decoder.decodeLoop fuel' b' rest

theorem Decodes.nil (decoder : HpackDecoder) (b : Block) : decoder.Decodes b [] b := by
  intro rest fuel hfuel
  exact ⟨fuel, hfuel, rfl⟩

theorem Represents.decodes {decoder : HpackDecoder} {b b' : Block} {octets : Octets}
    (h : decoder.Represents b octets b') : decoder.Decodes b octets b' := by
  obtain ⟨first, tail, rfl, hone⟩ := h
  intro rest fuel hfuel
  obtain ⟨fuel, rfl⟩ : ∃ n, fuel = n + 1 := ⟨fuel - 1, by simp at hfuel; omega⟩
  refine ⟨fuel, by simp at hfuel; omega, ?_⟩
  have hfirst := hone rest
  simp only [List.cons_append] at hfirst ⊢
  rw [decodeLoop, hfirst]

theorem Decodes.append {decoder : HpackDecoder} {b b' b'' : Block} {x y : Octets} (hx : decoder.Decodes b x b')
    (hy : decoder.Decodes b' y b'') : decoder.Decodes b (x ++ y) b'' := by
  intro rest fuel hfuel
  rw [List.append_assoc] at hfuel ⊢
  obtain ⟨fuel', hfuel', hloop⟩ := hx (y ++ rest) fuel hfuel
  obtain ⟨fuel'', hfuel'', hloop'⟩ := hy rest fuel' hfuel'
  exact ⟨fuel'', hfuel'', hloop.trans hloop'⟩

/-- `decode` runs the loop on the whole block -/
theorem Decodes.decode {decoder : HpackDecoder} {block : Octets} {b : Block}
    (h : decoder.Decodes ⟨decoder.table, [], 0, false⟩ block b) :
    decoder.decode block = (.ok b.headers, { decoder with table := b.table }) := by
  obtain ⟨fuel, -, hloop⟩ := h [] block.length (by simp)
  have hend : decoder.decodeLoop fuel b [] = (.ok b.headers, b.table) := by cases fuel <;> rfl
  rw [List.append_nil] at hloop
  rw [HpackDecoder.decode, hloop, hend]

/-- a size update at the start of a block -/
theorem represents_update {decoder : HpackDecoder} {b : Block} {size : ℕ} (hstart : b.sawHeader = false)
    (hfits : size ≤ u32Max) (hallowed : size ≤ decoder.maxAllowedTableSize) :
    decoder.Represents b (encodeInteger size 5 0x20) { b with table := b.table.setMaxSize size } := by
  obtain ⟨v, hv, tail, hfirst⟩ := encodeInteger_first size 5 0x20
  refine ⟨_, tail, hfirst, ?_⟩
  intro rest
  obtain ⟨hindexed, hliteral, hbit⟩ := update_bits v hv
  have hsize := decodeInteger_encodeInteger reads_prefixes.2.1 hfits rest
  simp [decodeOne, hindexed, hliteral, hbit, hstart, hsize, Nat.not_lt.2 hallowed]

end HpackDecoder

/-- the size of a header list -/
def listSize (headers : List (HeaderField × Indexing)) : ℕ := totalSize (headers.map Prod.fst)

/-- all that a field does to the encoder -/
theorem encodeField_cases (encoder : HpackEncoder) (field : HeaderField) (indexing : Indexing) (huffman : Bool) :
    (encoder.encodeField field indexing huffman).2 = encoder ∨
      (encoder.encodeField field indexing huffman).2 = { encoder with table := encoder.table.insert field } := by
  have hliteral : (encoder.encodeLiteral field indexing huffman).2 = encoder ∨
      (encoder.encodeLiteral field indexing huffman).2 = { encoder with table := encoder.table.insert field } := by
    cases indexing with
    | incremental => exact .inr rfl
    | withoutIndexing => exact .inl rfl
    | neverIndexed => exact .inl rfl
  rw [HpackEncoder.encodeField]
  split_ifs
  · split
    · exact .inl rfl
    · exact hliteral
  · exact hliteral

theorem Encodable.encodeField {encoder : HpackEncoder} (h : Encodable encoder) (field : HeaderField)
    (indexing : Indexing) (huffman : Bool) : Encodable (encoder.encodeField field indexing huffman).2 := by
  rcases encodeField_cases encoder field indexing huffman with hsame | hinsert
  · rw [hsame]
    exact h
  · rw [hinsert]
    exact ⟨h.sound.insert field, by simpa using h.indices⟩

/-- the fields of a block leave the capacity and the pending sizes alone -/
theorem encodeFields_frame (huffman : Bool) (headers : List (HeaderField × Indexing)) :
    ∀ encoder : HpackEncoder, encoder.table.Sound →
      (encoder.encodeFields huffman headers).2.table.Sound ∧
        (encoder.encodeFields huffman headers).2.table.maxSize = encoder.table.maxSize ∧
        (encoder.encodeFields huffman headers).2.pendingMin = encoder.pendingMin ∧
        (encoder.encodeFields huffman headers).2.pendingLast = encoder.pendingLast := by
  induction headers with
  | nil =>
    intro encoder hsound
    exact ⟨hsound, rfl, rfl, rfl⟩
  | cons entry rest ih =>
    obtain ⟨field, indexing⟩ := entry
    intro encoder hsound
    rcases encodeField_cases encoder field indexing huffman with hsame | hinsert
    · simp only [HpackEncoder.encodeFields, hsame]
      exact ih encoder hsound
    · obtain ⟨hsound', hmax, hpending⟩ := ih { encoder with table := encoder.table.insert field } (hsound.insert field)
      simp only [HpackEncoder.encodeFields, hinsert]
      exact ⟨hsound', hmax.trans (DynamicTable.maxSize_insert _ _), hpending⟩

/-- **The fields of a block**, by induction over the header list. -/
theorem decodes_encodeFields {decoder : HpackDecoder} {huffman : Bool} {headers : List (HeaderField × Indexing)} :
    ∀ {encoder : HpackEncoder} {b : HpackDecoder.Block}, Encodable encoder → b.table = encoder.table →
      (∀ entry ∈ headers, Fits decoder entry.1 huffman) →
      b.headerListSize + listSize headers ≤ min decoder.headerListLimit usizeMax →
      ∃ b' : HpackDecoder.Block, decoder.Decodes b (encoder.encodeFields huffman headers).1 b' ∧
        b'.headers = b.headers ++ headers.map Prod.fst ∧
        b'.table = (encoder.encodeFields huffman headers).2.table := by
  induction headers with
  | nil =>
    intro encoder b _ htable _ _
    exact ⟨b, .nil decoder b, by simp, htable⟩
  | cons entry rest ih =>
    obtain ⟨field, indexing⟩ := entry
    intro encoder b hencoder htable hfits hlist
    have hsum : listSize ((field, indexing) :: rest) = field.size + listSize rest := by simp [listSize]
    rw [hsum] at hlist
    have hfield : b.headerListSize + field.size ≤ min decoder.headerListLimit usizeMax := by omega
    have hrest : (b.headerListSize + field.size) + listSize rest ≤ min decoder.headerListLimit usizeMax := by omega
    have hone := @HpackDecoder.decodeOne_encodeField _ _ _ _ indexing _ hencoder htable (hfits _ List.mem_cons_self) hfield
    obtain ⟨b', hdecodes, hheaders, htable'⟩ := @ih (encoder.encodeField field indexing huffman).2
      (b.push field (encoder.encodeField field indexing huffman).2.table)
      (hencoder.encodeField field indexing huffman) rfl
      (fun entry hentry => hfits entry (List.mem_cons_of_mem _ hentry)) hrest
    refine ⟨b', hone.decodes.append hdecodes, ?_, htable'⟩
    rw [hheaders]
    simp [HpackDecoder.Block.push]

/-! ## Runs -/

/-- what the two peers do: the encoder resizes its table, or a header list goes from one to the other -/
inductive Op where
  | resize (maxTableSize : ℕ)
  | block (headers : List (HeaderField × Indexing)) (huffman : Bool)

/-- the sizes, strings and lists that the limits of the decoder allow -/
def Op.Allowed (decoder : HpackDecoder) : Op → Prop
  | .resize maxTableSize => maxTableSize ≤ decoder.maxAllowedTableSize
  | .block headers huffman =>
    (∀ entry ∈ headers, entry.1.longest huffman ≤ decoder.maxStringSize) ∧ listSize headers ≤ decoder.headerListLimit

/-- every number that is written fits in 32 bits -/
def Op.Narrow : Op → Prop
  | .resize maxTableSize => maxTableSize ≤ u32Max
  | .block headers huffman => ∀ entry ∈ headers, entry.1.longest huffman ≤ u32Max

/-- every block of a run decodes to what was encoded, and leaves both tables equal -/
inductive Agree : HpackEncoder → HpackDecoder → List Op → Prop
  | nil (encoder : HpackEncoder) (decoder : HpackDecoder) : Agree encoder decoder []
  | resize {encoder : HpackEncoder} {decoder : HpackDecoder} {maxTableSize : ℕ} {ops : List Op}
      (hrest : Agree (encoder.setMaxTableSize maxTableSize) decoder ops) :
      Agree encoder decoder (.resize maxTableSize :: ops)
  | block {encoder : HpackEncoder} {decoder : HpackDecoder} {headers : List (HeaderField × Indexing)} {huffman : Bool}
      {ops : List Op}
      (hresult : (decoder.decode (encoder.encodeWith headers huffman).1).1 = .ok (headers.map Prod.fst))
      (htable : (decoder.decode (encoder.encodeWith headers huffman).1).2.table =
        (encoder.encodeWith headers huffman).2.table)
      (hrest : Agree (encoder.encodeWith headers huffman).2
        (decoder.decode (encoder.encodeWith headers huffman).1).2 ops) :
      Agree encoder decoder (.block headers huffman :: ops)

/-- the table of the encoder, as far as the decoder does not know it yet -/
inductive Pending (encoder : HpackEncoder) (decoder : HpackDecoder) : Prop
  | none (hmin : encoder.pendingMin = .none) (hlast : encoder.pendingLast = .none)
      (htable : encoder.table = decoder.table)
  | resized (smallest last : ℕ) (hmin : encoder.pendingMin = some smallest) (hlast : encoder.pendingLast = some last)
      (hle : smallest ≤ last) (hallowed : last ≤ decoder.maxAllowedTableSize) (hnarrow : last ≤ u32Max)
      (htable : encoder.table = (decoder.table.setMaxSize smallest).setMaxSize last)

/-- **Invariant.** What holds between two blocks. -/
structure Synced (encoder : HpackEncoder) (decoder : HpackDecoder) : Prop where
  sound : decoder.table.Sound
  capacity : decoder.table.maxSize ≤ decoder.maxAllowedTableSize
  indices : 61 + decoder.maxAllowedTableSize / 32 ≤ u32Max
  listLimit : decoder.headerListLimit ≤ usizeMax
  pending : Pending encoder decoder

theorem Synced.encodable {encoder : HpackEncoder} {decoder : HpackDecoder} (h : Synced encoder decoder) :
    Encodable encoder := by
  have hcapacity := h.capacity
  have hindices := h.indices
  cases h.pending with
  | none hmin hlast htable =>
    refine ⟨?_, ?_⟩
    · rw [htable]
      exact h.sound
    · rw [htable]
      omega
  | resized smallest last hmin hlast hle hallowed hnarrow htable =>
    refine ⟨?_, ?_⟩
    · rw [htable]
      exact (h.sound.setMaxSize smallest).setMaxSize last
    · rw [htable, DynamicTable.maxSize_setMaxSize]
      omega

/-- a resize between two blocks -/
theorem Synced.resize {encoder : HpackEncoder} {decoder : HpackDecoder} (h : Synced encoder decoder)
    {maxTableSize : ℕ} (hallowed : maxTableSize ≤ decoder.maxAllowedTableSize) (hnarrow : maxTableSize ≤ u32Max) :
    Synced (encoder.setMaxTableSize maxTableSize) decoder := by
  refine ⟨h.sound, h.capacity, h.indices, h.listLimit, ?_⟩
  cases h.pending with
  | none hmin hlast htable =>
    refine .resized maxTableSize maxTableSize ?_ rfl (Nat.le_refl _) hallowed hnarrow ?_
    · simp [HpackEncoder.setMaxTableSize, hmin]
    · simp only [HpackEncoder.setMaxTableSize, htable, DynamicTable.setMaxSize_setMaxSize h.sound, Nat.min_self]
      rfl
  | resized smallest last hmin hlast hle _ _ htable =>
    refine .resized (min smallest maxTableSize) maxTableSize ?_ rfl (Nat.min_le_right _ _) hallowed hnarrow ?_
    · simp [HpackEncoder.setMaxTableSize, hmin]
    · have hsound := h.sound.setMaxSize smallest
      have hsmallest : min smallest (min last maxTableSize) = min (min smallest maxTableSize) maxTableSize := by omega
      simp only [HpackEncoder.setMaxTableSize, htable]
      rw [DynamicTable.setMaxSize_setMaxSize hsound, DynamicTable.setMaxSize_setMaxSize h.sound,
        DynamicTable.setMaxSize_setMaxSize h.sound, hsmallest]

/-- the size updates in front of a block give the decoder the table of the encoder -/
theorem Synced.updates {encoder : HpackEncoder} {decoder : HpackDecoder} (h : Synced encoder decoder) :
    decoder.Decodes ⟨decoder.table, [], 0, false⟩ encoder.emitSizeUpdates.1 ⟨encoder.table, [], 0, false⟩ := by
  cases h.pending with
  | none hmin hlast htable =>
    simp only [HpackEncoder.emitSizeUpdates, hmin, htable]
    exact .nil _ _
  | resized smallest last hmin hlast hle hallowed hnarrow htable =>
    have hsecond := (HpackDecoder.represents_update (b := ⟨decoder.table.setMaxSize smallest, [], 0, false⟩) rfl hnarrow
      hallowed).decodes
    simp only [HpackEncoder.emitSizeUpdates, hmin, hlast, htable]
    split_ifs with hdiffer
    · have hfirst := (HpackDecoder.represents_update (b := ⟨decoder.table, [], 0, false⟩) rfl (hle.trans hnarrow)
        (hle.trans hallowed)).decodes
      exact hfirst.append hsecond
    · obtain rfl : smallest = last := not_not.1 hdiffer
      have honce : (decoder.table.setMaxSize smallest).setMaxSize smallest = decoder.table.setMaxSize smallest := by
        rw [DynamicTable.setMaxSize_setMaxSize h.sound, Nat.min_self]
        rfl
      rw [honce]
      exact (HpackDecoder.represents_update rfl hnarrow hallowed).decodes

/-- one block: the decoder returns the header list and has the table of the encoder -/
theorem Synced.block {encoder : HpackEncoder} {decoder : HpackDecoder} (h : Synced encoder decoder)
    {headers : List (HeaderField × Indexing)} {huffman : Bool} (hallowed : (Op.block headers huffman).Allowed decoder)
    (hnarrow : (Op.block headers huffman).Narrow) :
    decoder.decode (encoder.encodeWith headers huffman).1 =
      (.ok (headers.map Prod.fst), { decoder with table := (encoder.encodeWith headers huffman).2.table }) := by
  have hencodable : Encodable encoder.emitSizeUpdates.2 := ⟨h.encodable.sound, h.encodable.indices⟩
  have hlist : 0 + listSize headers ≤ min decoder.headerListLimit usizeMax := by
    have hlimit := hallowed.2
    have hmax := h.listLimit
    omega
  obtain ⟨b, hdecodes, hheaders, htable⟩ := @decodes_encodeFields decoder huffman headers encoder.emitSizeUpdates.2
    ⟨encoder.table, [], 0, false⟩ hencodable rfl (fun entry hentry => ⟨hnarrow entry hentry, hallowed.1 entry hentry⟩)
    hlist
  have hblock := (h.updates.append hdecodes).decode
  rw [hheaders, htable] at hblock
  exact hblock

/-- the invariant after a block -/
theorem Synced.next {encoder : HpackEncoder} {decoder : HpackDecoder} (h : Synced encoder decoder)
    (headers : List (HeaderField × Indexing)) (huffman : Bool) :
    Synced (encoder.encodeWith headers huffman).2
      { decoder with table := (encoder.encodeWith headers huffman).2.table } := by
  obtain ⟨hsound, hmax, hmin, hlast⟩ :=
    encodeFields_frame huffman headers encoder.emitSizeUpdates.2 h.encodable.sound
  refine ⟨hsound, ?_, h.indices, h.listLimit, .none hmin hlast rfl⟩
  have hcapacity := h.capacity
  have henough : encoder.table.maxSize ≤ decoder.maxAllowedTableSize := by
    cases h.pending with
    | none _ _ htable =>
      rw [htable]
      exact hcapacity
    | resized _ _ _ _ _ hallowed _ htable =>
      rw [htable]
      exact hallowed
  exact hmax.trans_le henough

theorem Synced.agree {ops : List Op} :
    ∀ {encoder : HpackEncoder} {decoder : HpackDecoder}, Synced encoder decoder →
      (∀ op ∈ ops, op.Allowed decoder) → (∀ op ∈ ops, op.Narrow) → Agree encoder decoder ops := by
  induction ops with
  | nil =>
    intro encoder decoder _ _ _
    exact .nil _ _
  | cons op ops ih =>
    intro encoder decoder h hallowed hnarrow
    have hop := hallowed op List.mem_cons_self
    have hop' := hnarrow op List.mem_cons_self
    have hrest := fun op' hop' => hallowed op' (List.mem_cons_of_mem op hop')
    have hrest' := fun op' hop' => hnarrow op' (List.mem_cons_of_mem op hop')
    cases op with
    | resize maxTableSize => exact .resize (ih (h.resize hop hop') hrest hrest')
    | block headers huffman =>
      have hblock := h.block hop hop'
      refine .block (by rw [hblock]) (by rw [hblock]) ?_
      rw [hblock]
      refine ih (h.next headers huffman) ?_ hrest'
      intro op' hop'
      cases op' with
      | resize maxTableSize => exact hrest _ hop'
      | block headers' huffman' => exact hrest _ hop'

/-- the decoder of a connection -/
def decoderOf (size listLimit maxStringSize : ℕ) : HpackDecoder :=
  ((HpackDecoder.new size).withHeaderListLimit listLimit).withMaxStringSize maxStringSize

/-- **Lock step.** Over every run within the limits of the decoder whose numbers fit in 32 bits, both sides agree. -/
theorem hpack_sync {size listLimit maxStringSize : ℕ} {ops : List Op} (hindices : 61 + size / 32 ≤ u32Max)
    (hlimit : listLimit ≤ usizeMax) (hallowed : ∀ op ∈ ops, op.Allowed (decoderOf size listLimit maxStringSize))
    (hnarrow : ∀ op ∈ ops, op.Narrow) :
    Agree (HpackEncoder.new size) (decoderOf size listLimit maxStringSize) ops := by
  have hstart : Synced (HpackEncoder.new size) (decoderOf size listLimit maxStringSize) :=
    ⟨DynamicTable.sound_new size, Nat.le_refl _, hindices, hlimit, .none rfl rfl rfl⟩
  exact hstart.agree hallowed hnarrow

instance (decoder : HpackDecoder) (op : Op) : Decidable (op.Allowed decoder) :=
  match op with
  | .resize maxTableSize => inferInstanceAs (Decidable (maxTableSize ≤ decoder.maxAllowedTableSize))
  | .block _ _ => inferInstanceAs (Decidable (_ ∧ _))

instance (op : Op) : Decidable op.Narrow :=
  match op with
  | .resize maxTableSize => inferInstanceAs (Decidable (maxTableSize ≤ u32Max))
  | .block headers huffman => inferInstanceAs (Decidable (∀ entry ∈ headers, entry.1.longest huffman ≤ u32Max))

/-- a run that evicts an entry, and uses an index of either table -/
def sampleRun : List Op :=
  [.block [(⟨ascii ":method", ascii "GET"⟩, .incremental), (⟨ascii "x-trace", ascii "1"⟩, .incremental)] true, .resize 30,
    .resize 100, .block [(⟨ascii "x-trace", ascii "1"⟩, .incremental), (⟨ascii "cookie", ascii "a=b"⟩, .neverIndexed)] true,
    .block [(⟨ascii "x-trace", ascii "1"⟩, .incremental)] false]

theorem hpack_sync_sample : Agree (HpackEncoder.new 4096) (decoderOf 4096 1000 (2 ^ 20)) sampleRun :=
  hpack_sync (by decide) (by decide) (by decide +kernel) (by decide +kernel)

/-- a table size of 2^32 is announced, allowed, and refused -/
theorem hpack_sync_wide : ¬ ∀ (size listLimit maxStringSize : ℕ) (ops : List Op), size ≤ usizeMax →
    listLimit ≤ usizeMax → maxStringSize ≤ usizeMax →
    (∀ op ∈ ops, op.Allowed (decoderOf size listLimit maxStringSize)) →
    Agree (HpackEncoder.new size) (decoderOf size listLimit maxStringSize) ops := by
  intro hagree
  have hrun := hagree (2 ^ 33) usizeMax (2 ^ 20) [.resize (2 ^ 32), .block [] false] (by decide) (by decide) (by decide)
    (by decide +kernel)
  have hresult : ((decoderOf (2 ^ 33) usizeMax (2 ^ 20)).decode
      (((HpackEncoder.new (2 ^ 33)).setMaxTableSize (2 ^ 32)).encodeWith [] false).1).1 = .error .integerOverflow := by
    decide +kernel
  cases hrun with
  | resize hrest =>
    cases hrest with
    | block hok =>
      rw [hresult] at hok
      cases hok

end Render.H2
