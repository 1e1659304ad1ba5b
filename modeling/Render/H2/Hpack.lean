/-
HPACK header compression (`render-net/src/h2/hpack/mod.rs`): the dynamic table, the encoder and the decoder.

Where the source walks a block with a position, the functions here take and return what is left of the block. The integer
loops run on a fuel that is never used up: `encodeRest` has at most as many octets as the value, the loop of `decode` at
most as many fields as the block has octets.
-/
import Render.H2.Huffman

/-! The 61 entries of the HPACK static table (`render-net/src/h2/hpack/static_table.rs`). The table is zero-indexed here; its
callers add one. -/

namespace Render.H2

open Render.Core

/-- the table as it is written in the source -/
def staticTexts : List (String × String) := [
  (":authority", ""),
  (":method", "GET"),
  (":method", "POST"),
  (":path", "/"),
  (":path", "/index.html"),
  (":scheme", "http"),
  (":scheme", "https"),
  (":status", "200"),
  (":status", "204"),
  (":status", "206"),
  (":status", "304"),
  (":status", "400"),
  (":status", "404"),
  (":status", "500"),
  ("accept-charset", ""),
  ("accept-encoding", "gzip, deflate"),
  ("accept-language", ""),
  ("accept-ranges", ""),
  ("accept", ""),
  ("access-control-allow-origin", ""),
  ("age", ""),
  ("allow", ""),
  ("authorization", ""),
  ("cache-control", ""),
  ("content-disposition", ""),
  ("content-encoding", ""),
  ("content-language", ""),
  ("content-length", ""),
  ("content-location", ""),
  ("content-range", ""),
  ("content-type", ""),
  ("cookie", ""),
  ("date", ""),
  ("etag", ""),
  ("expect", ""),
  ("expires", ""),
  ("from", ""),
  ("host", ""),
  ("if-match", ""),
  ("if-modified-since", ""),
  ("if-none-match", ""),
  ("if-range", ""),
  ("if-unmodified-since", ""),
  ("last-modified", ""),
  ("link", ""),
  ("location", ""),
  ("max-forwards", ""),
  ("proxy-authenticate", ""),
  ("proxy-authorization", ""),
  ("range", ""),
  ("referer", ""),
  ("refresh", ""),
  ("retry-after", ""),
  ("server", ""),
  ("set-cookie", ""),
  ("strict-transport-security", ""),
  ("transfer-encoding", ""),
  ("user-agent", ""),
  ("vary", ""),
  ("via", ""),
  ("www-authenticate", "")]

def staticTable : List (Octets × Octets) := staticTexts.map fun entry => (ascii entry.1, ascii entry.2)

end Render.H2

/-! ## Encoding and decoding -/

namespace Render.H2

open Render.Core

/-- `usize::MAX` -/
def usizeMax : ℕ := 2 ^ 64 - 1

structure HeaderField where
  name : Octets
  value : Octets
deriving DecidableEq

/-- the size of an entry: name, value and 32 octets of overhead -/
def HeaderField.size (field : HeaderField) : ℕ := field.name.length + field.value.length + 32

inductive Indexing where
  | incremental
  | withoutIndexing
  | neverIndexed
deriving DecidableEq

/-! ## The dynamic table -/

/-- the newest entry is the first one -/
structure DynamicTable where
  entries : List HeaderField
  size : ℕ
  maxSize : ℕ
deriving DecidableEq

namespace DynamicTable

def new (maxSize : ℕ) : DynamicTable := ⟨[], 0, maxSize⟩

/-- the loop of `evict_to_fit` over the entries, oldest first -/
def evictLoop (upcoming maxSize : ℕ) : List HeaderField → ℕ → List HeaderField × ℕ
  | [], size => ([], size)
  | entry :: rest, size =>
    if size + upcoming > maxSize then evictLoop upcoming maxSize rest (size - entry.size) else (entry :: rest, size)

def evictToFit (table : DynamicTable) (upcoming : ℕ) : DynamicTable :=
  let (oldestFirst, size) := evictLoop upcoming table.maxSize table.entries.reverse table.size
  { table with entries := oldestFirst.reverse, size }

def setMaxSize (table : DynamicTable) (maxSize : ℕ) : DynamicTable := evictToFit { table with maxSize } 0

def insert (table : DynamicTable) (entry : HeaderField) : DynamicTable :=
  if entry.size > table.maxSize then { table with entries := [], size := 0 }
  else
    let table := table.evictToFit entry.size
    { table with entries := entry :: table.entries, size := table.size + entry.size }

def findExact (table : DynamicTable) (name value : Octets) : Option ℕ :=
  table.entries.findIdx? fun entry => entry.name == name && entry.value == value

def findName (table : DynamicTable) (name : Octets) : Option ℕ := table.entries.findIdx? fun entry => entry.name == name

end DynamicTable

/-! ## Integers and strings -/

/-- the loop of `encode_integer` over groups of seven bits -/
def encodeRest : ℕ → ℕ → Octets
  | 0, remaining => [UInt8.ofNat remaining]
  | fuel + 1, remaining =>
    if remaining ≥ 128 then UInt8.ofNat (remaining % 128 + 128) :: encodeRest fuel (remaining / 128)
    else [UInt8.ofNat remaining]

def encodeInteger (value prefixBits : ℕ) (pattern : UInt8) : Octets :=
  let mask := 2 ^ prefixBits - 1
  if value < mask then [pattern ||| UInt8.ofNat value]
  else (pattern ||| UInt8.ofNat mask) :: encodeRest (value - mask) (value - mask)

/-- the loop of `decode_integer` -/
def decodeRest : Octets → ℕ → ℕ → Except HpackError (ℕ × Octets)
  | [], _, _ => .error .truncatedInteger
  | octet :: rest, value, shift =>
    let value := value + (octet.toNat % 128) <<< shift
    if value > u32Max then .error .integerOverflow
    else if octet &&& 0x80 = 0 then .ok (value, rest)
    else if shift + 7 > 28 then .error .integerOverflow
    else decodeRest rest value (shift + 7)

def decodeInteger (block : Octets) (prefixBits : ℕ) : Except HpackError (ℕ × Octets) :=
  match block with
  | [] => .error .truncatedInteger
  | first :: rest =>
    let mask := 2 ^ prefixBits - 1
    let value := first.toNat &&& mask
    if value < mask then .ok (value, rest) else decodeRest rest value 0

def encodeString (value : Octets) (huffman : Bool) : Octets :=
  let encoded := Huffman.encode value
  if huffman ∧ encoded.length < value.length then encodeInteger encoded.length 7 0x80 ++ encoded
  else encodeInteger value.length 7 0 ++ value

/-! ## The encoder -/

structure HpackEncoder where
  table : DynamicTable
  /-- the smallest and the last table size asked for since the last block -/
  pendingMin : Option ℕ
  pendingLast : Option ℕ
deriving DecidableEq

def isSensitive (name : Octets) : Bool :=
  name == ascii "authorization" || name == ascii "cookie" || name == ascii "proxy-authorization" ||
    name == ascii "set-cookie"

namespace HpackEncoder

def new (maxTableSize : ℕ) : HpackEncoder := ⟨.new maxTableSize, none, none⟩

def setMaxTableSize (encoder : HpackEncoder) (maxTableSize : ℕ) : HpackEncoder where
  pendingMin := some (encoder.pendingMin.elim maxTableSize fun smallest => min smallest maxTableSize)
  pendingLast := some maxTableSize
  table := encoder.table.setMaxSize maxTableSize

/-- the size updates a block starts with; nothing is pending after it -/
def emitSizeUpdates (encoder : HpackEncoder) : Octets × HpackEncoder :=
  let output := match encoder.pendingMin, encoder.pendingLast with
    | some smallest, some finalSize =>
      (if smallest ≠ finalSize then encodeInteger smallest 5 0x20 else []) ++ encodeInteger finalSize 5 0x20
    | _, _ => []
  (output, { encoder with pendingMin := none, pendingLast := none })

/-- combined indices are 1-based, and the static table comes first -/
def findExact (encoder : HpackEncoder) (name value : Octets) : Option ℕ :=
  match staticTable.findIdx? fun entry => entry.1 == name && entry.2 == value with
  | some position => some (position + 1)
  | none => (encoder.table.findExact name value).map fun position => staticTable.length + position + 1

def findName (encoder : HpackEncoder) (name : Octets) : Option ℕ :=
  match staticTable.findIdx? fun entry => entry.1 == name with
  | some position => some (position + 1)
  | none => (encoder.table.findName name).map fun position => staticTable.length + position + 1

/-- pattern and prefix of a literal -/
def literalPrefix : Indexing → UInt8 × ℕ
  | .incremental => (0x40, 6)
  | .withoutIndexing => (0x00, 4)
  | .neverIndexed => (0x10, 4)

/-- a field that is not written as an index -/
def encodeLiteral (encoder : HpackEncoder) (field : HeaderField) (indexing : Indexing) (huffman : Bool) :
    Octets × HpackEncoder :=
  let nameIndex := encoder.findName field.name
  let (pattern, prefixBits) := literalPrefix indexing
  let output := encodeInteger (nameIndex.getD 0) prefixBits pattern ++
    (if nameIndex.isNone then encodeString field.name huffman else []) ++ encodeString field.value huffman
  (output, if indexing = .incremental then { encoder with table := encoder.table.insert field } else encoder)

def encodeField (encoder : HpackEncoder) (field : HeaderField) (indexing : Indexing) (huffman : Bool) :
    Octets × HpackEncoder :=
  if indexing = .incremental then
    match encoder.findExact field.name field.value with
    | some index => (encodeInteger index 7 0x80, encoder)
    | none => encoder.encodeLiteral field indexing huffman
  else encoder.encodeLiteral field indexing huffman

def encodeFields (huffman : Bool) (encoder : HpackEncoder) : List (HeaderField × Indexing) → Octets × HpackEncoder
  | [] => ([], encoder)
  | (field, indexing) :: rest =>
    let (output, encoder) := encoder.encodeField field indexing huffman
    let (outputs, encoder) := encodeFields huffman encoder rest
    (output ++ outputs, encoder)

def encodeWith (encoder : HpackEncoder) (headers : List (HeaderField × Indexing)) (huffman : Bool) :
    Octets × HpackEncoder :=
  let (updates, encoder) := encoder.emitSizeUpdates
  let (fields, encoder) := encodeFields huffman encoder headers
  (updates ++ fields, encoder)

def encode (encoder : HpackEncoder) (headers : List HeaderField) : Octets × HpackEncoder :=
  encoder.encodeWith
    (headers.map fun field => (field, if isSensitive field.name then .neverIndexed else .incremental)) true

end HpackEncoder

/-! ## The decoder -/

structure HpackDecoder where
  table : DynamicTable
  maxAllowedTableSize : ℕ
  headerListLimit : ℕ
  maxStringSize : ℕ
deriving DecidableEq

namespace HpackDecoder

def new (maxTableSize : ℕ) : HpackDecoder := ⟨.new maxTableSize, maxTableSize, usizeMax, 2 ^ 20⟩

def withHeaderListLimit (decoder : HpackDecoder) (limit : ℕ) : HpackDecoder := { decoder with headerListLimit := limit }

def withMaxStringSize (decoder : HpackDecoder) (limit : ℕ) : HpackDecoder := { decoder with maxStringSize := limit }

def lookup (decoder : HpackDecoder) (index : ℕ) : Except HpackError HeaderField :=
  if index = 0 then .error .indexZero
  else
    match staticTable[index - 1]? with
    | some (name, value) => .ok ⟨name, value⟩
    | none =>
      match decoder.table.entries[index - staticTable.length - 1]? with
      | some entry => .ok entry
      | none => .error (.invalidIndex index)

def decodeString (decoder : HpackDecoder) (block : Octets) : Except HpackError (Octets × Octets) :=
  match block with
  | [] => .error (.truncatedString 1 0)
  | first :: _ => do
    let (length, rest) ← decodeInteger block 7
    refuse (length > decoder.maxStringSize) (.stringTooLong length decoder.maxStringSize)
    refuse (length > rest.length) (.truncatedString length rest.length)
    let raw := rest.take length
    if first &&& 0x80 ≠ 0 then return (← Huffman.decode raw, rest.drop length) else return (raw, rest.drop length)

/-- the name of a literal: index 0 says that it follows as a string -/
def decodeName (decoder : HpackDecoder) (nameIndex : ℕ) (block : Octets) : Except HpackError (Octets × Octets) :=
  if nameIndex = 0 then decoder.decodeString block
  else do
    let field ← decoder.lookup nameIndex
    return (field.name, block)

def decodeLiteral (decoder : HpackDecoder) (block : Octets) (prefixBits : ℕ) :
    Except HpackError (HeaderField × Octets) := do
  let (nameIndex, rest) ← decodeInteger block prefixBits
  let (name, rest) ← decoder.decodeName nameIndex rest
  let (value, rest) ← decoder.decodeString rest
  return (⟨name, value⟩, rest)

/-- the size of the header list with one more field -/
def account (decoder : HpackDecoder) (field : HeaderField) (current : ℕ) : Except HpackError ℕ :=
  if current + field.size > usizeMax ∨ current + field.size > decoder.headerListLimit then
    .error (.headerListTooLarge decoder.headerListLimit)
  else .ok (current + field.size)

/-- the decoder between two representations of a block -/
structure Block where
  table : DynamicTable
  headers : List HeaderField
  headerListSize : ℕ
  sawHeader : Bool

/-- one representation of a block, and what is left of the block -/
def decodeOne (decoder : HpackDecoder) (b : Block) (block : Octets) (first : UInt8) : Except HpackError (Block × Octets) :=
  let decoder := { decoder with table := b.table }
  if first &&& 0x80 ≠ 0 then do
    let (index, rest) ← decodeInteger block 7
    refuse (index = 0) .indexZero
    let field ← decoder.lookup index
    let size ← decoder.account field b.headerListSize
    return (⟨b.table, b.headers ++ [field], size, true⟩, rest)
  else if first &&& 0x40 ≠ 0 then do
    let (field, rest) ← decoder.decodeLiteral block 6
    let size ← decoder.account field b.headerListSize
    return (⟨b.table.insert field, b.headers ++ [field], size, true⟩, rest)
  else if first &&& 0x20 ≠ 0 then do
    refuse b.sawHeader .sizeUpdateNotAtStart
    let (size, rest) ← decodeInteger block 5
    refuse (size > decoder.maxAllowedTableSize) (.sizeUpdateTooLarge size decoder.maxAllowedTableSize)
    return ({ b with table := b.table.setMaxSize size }, rest)
  else do
    let (field, rest) ← decoder.decodeLiteral block 4
    let size ← decoder.account field b.headerListSize
    return (⟨b.table, b.headers ++ [field], size, true⟩, rest)

/-- the loop of `decode`; an error keeps what the representations before it did to the table -/
def decodeLoop (decoder : HpackDecoder) : ℕ → Block → Octets → Except HpackError (List HeaderField) × DynamicTable
  | fuel + 1, b, first :: rest =>
    match decoder.decodeOne b (first :: rest) first with
    | .error e => (.error e, b.table)
    | .ok (b, rest) => decodeLoop decoder fuel b rest
  | _, b, _ => (.ok b.headers, b.table)

/-- decodes one complete header block -/
def decode (decoder : HpackDecoder) (block : Octets) : Except HpackError (List HeaderField) × HpackDecoder :=
  let (result, table) := decoder.decodeLoop block.length ⟨decoder.table, [], 0, false⟩ block
  (result, { decoder with table })

end HpackDecoder

end Render.H2
