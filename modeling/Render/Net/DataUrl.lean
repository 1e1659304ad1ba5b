/-
Data URLs (`render-net/src/transport.rs`).

`Url` splits what is behind `data:` into a path, a query and a fragment (`DataUrl`), and only the path is decoded. The
format decodes the path and the query (`fetchBody`), leaves a malformed escape as it stands, and forgives padding that is
missing. The decoder of the `base64` package is a parameter: it takes what the encoder writes, and nothing else.
-/
import Render.Js.Base64
import Render.Net.Types

namespace Render.Net

open Render.Js.Base64

/-! ## The source -/

/-- a data URL as `Url` has split it -/
structure DataUrl where
  path : Chars
  query : Option Chars

namespace DataUrl

inductive FetchError
  | invalidUrl (message : Chars)
  | bodyLimitExceeded (limit : ℕ)

def hexValue (byte : UInt8) : Option UInt8 :=
  if 48 ≤ byte ∧ byte ≤ 57 then some (byte - 48)
  else if 97 ≤ byte ∧ byte ≤ 102 then some (byte - 97 + 10)
  else if 65 ≤ byte ∧ byte ≤ 70 then some (byte - 65 + 10)
  else none

def percentDecodeData : List UInt8 → Except FetchError (List UInt8)
  | [] => .ok []
  | byte :: rest =>
    if byte ≠ 37 then (byte :: ·) <$> percentDecodeData rest
    else match rest with
      | high :: low :: rest =>
        match hexValue high, hexValue low with
        | some high, some low => ((high <<< 4 ||| low) :: ·) <$> percentDecodeData rest
        | _, _ => .error (.invalidUrl "data URL contains an invalid percent escape".toList)
      | _ => .error (.invalidUrl "data URL contains an invalid percent escape".toList)

/-- `parse_content_type` -/
def parseContentType (value : Chars) : Option ContentType :=
  let mediaType := Chars.toAsciiLowercase (Chars.trim ((value.splitOn ';').headD []))
  if mediaType.isEmpty || !mediaType.contains '/' then none
  else
    let charset := (value.splitOn ';').tail.findSome? fun parameter => do
      let (name, value) ← Chars.splitOnce '=' parameter
      if Chars.eqIgnoreAsciiCase (Chars.trim name) "charset".toList then
        some (Chars.toAsciiLowercase (((Chars.trim value).trimMatches (· = '"')).trimMatches (· = '\'')))
      else none
    some ⟨String.ofList mediaType, charset.map String.ofList⟩

/-- the loop of `data_media_type` over the parameters -/
def mediaParameters : Chars → Bool → List Chars → Except FetchError (Chars × Bool)
  | mediaType, isBase64, [] => .ok (mediaType, isBase64)
  | mediaType, isBase64, parameter :: parts =>
    if Chars.eqIgnoreAsciiCase parameter "base64".toList then
      if isBase64 then .error (.invalidUrl "data URL contains more than one base64 marker".toList)
      else mediaParameters mediaType true parts
    else if parameter.isEmpty then mediaParameters mediaType isBase64 parts
    else mediaParameters (mediaType ++ ';' :: parameter) isBase64 parts

/-- a data URL without a media type and without a `charset` is in ASCII -/
def defaultCharset (first mediaType : Chars) : Chars :=
  if first.isEmpty && !mediaType.tails.any ("charset=".toList.isPrefixOf ·) then mediaType ++ ";charset=US-ASCII".toList
  else mediaType

/-- `data_media_type` behind the media type -/
def typeOf (first mediaType : Chars) (parts : List Chars) : Except FetchError (Chars × Bool) := do
  let (mediaType, isBase64) ← mediaParameters mediaType false parts
  let mediaType := defaultCharset first mediaType
  if (parseContentType mediaType).isNone then
    .error (.invalidUrl ("invalid data URL content type '".toList ++ mediaType ++ ['\'']))
  else .ok (mediaType, isBase64)

/-- `data_media_type` -/
def dataMediaType (metadata : Chars) : Except FetchError (Chars × Bool) :=
  let first := (metadata.splitOn ';').headD []
  let parts := (metadata.splitOn ';').tail
  if first = [] then typeOf first "text/plain".toList parts
  else if '/' ∈ first then typeOf first (Chars.toAsciiLowercase first) parts
  else .error (.invalidUrl ("invalid data URL media type '".toList ++ first ++ ['\'']))

/-- what `decode_data_url` keeps of the octets that base64 is read from -/
def compactData (bytes : List UInt8) : List UInt8 := bytes.filter fun byte => !([32, 9, 10, 13, 12] : List UInt8).contains byte

section Decode

variable (decode : List UInt8 → Except Chars (List UInt8))

/-- the body in `decode_data_url`; `decode` is the decoder `STANDARD` -/
def dataBody (isBase64 : Bool) (encodedBody : Chars) : Except FetchError (List UInt8) :=
  if isBase64 then do
    let encodedBody ← percentDecodeData (octets encodedBody)
    match decode (compactData encodedBody) with
    | .ok body => .ok body
    | .error error => .error (.invalidUrl ("invalid base64 data URL: ".toList ++ error))
  else percentDecodeData (octets encodedBody)

/-- `decode_data_url` -/
def decodeDataUrl (url : DataUrl) (bodyLimit : ℕ) : Except FetchError (Option ContentType × List UInt8) :=
  match Chars.splitOnce ',' url.path with
  | none => .error (.invalidUrl "data URL is missing its required comma separator".toList)
  | some (metadata, encodedBody) => do
    let (mediaType, isBase64) ← dataMediaType metadata
    let body ← dataBody decode isBase64 encodedBody
    if bodyLimit < body.length then .error (.bodyLimitExceeded bodyLimit)
    else .ok (parseContentType mediaType, body)

end Decode

/-! ## The format -/

/-- what is behind `data:`, up to the fragment -/
def text (url : DataUrl) : Chars := url.path ++ url.query.elim [] ('?' :: ·)

/-- percent-decode: a '%' that two hexadecimal digits do not follow stands for itself -/
def percentDecode : List UInt8 → List UInt8
  | [] => []
  | byte :: rest =>
    if byte ≠ 37 then byte :: percentDecode rest
    else match rest with
      | high :: low :: later =>
        match hexValue high, hexValue low with
        | some high, some low => (high <<< 4 ||| low) :: percentDecode later
        | _, _ => byte :: percentDecode (high :: low :: later)
      | rest => byte :: percentDecode rest

/-- isomorphic decode -/
def isomorphic (bytes : List UInt8) : List Char := bytes.map fun byte => Char.ofNat byte.toNat

/-- the metadata ends in ';', spaces, and "base64" -/
def endsInBase64 (metadata : Chars) : Bool :=
  let reversed := metadata.reverse.dropWhile (· = ' ')
  Chars.eqIgnoreAsciiCase (reversed.take 6) "46esab".toList && ((reversed.drop 6).dropWhile (· = ' ')).head? = some ';'

/-- the body of the response; there is none where base64 is refused -/
def fetchBody (url : DataUrl) : Option (List UInt8) := do
  let (metadata, encodedBody) ← Chars.splitOnce ',' url.text
  let body := percentDecode (octets encodedBody)
  if endsInBase64 metadata then forgivingDecode (isomorphic body) else some body

/-! ## Escapes -/

/-- two hexadecimal digits follow every '%' -/
def Escaped (bytes : List UInt8) : Prop :=
  ∀ before after, bytes = before ++ 37 :: after →
    ∃ high low later, after = high :: low :: later ∧ (hexValue high).isSome = true ∧ (hexValue low).isSome = true

theorem escaped_cons {byte : UInt8} {rest : List UInt8} : Escaped (byte :: rest) ↔ (byte = 37 → ∃ high low later,
    rest = high :: low :: later ∧ (hexValue high).isSome = true ∧ (hexValue low).isSome = true) ∧ Escaped rest := by
  constructor
  · intro h
    exact ⟨fun hbyte => h [] rest (by rw [hbyte, List.nil_append]), fun before after heq => h (byte :: before) after (by
      rw [heq, List.cons_append])⟩
  · rintro ⟨hfirst, hrest⟩ before after heq
    cases before with
    | nil =>
      obtain ⟨rfl, rfl⟩ := List.cons.inj heq
      exact hfirst rfl
    | cons other before =>
      obtain ⟨-, heq⟩ := List.cons.inj heq
      exact hrest before after heq

theorem ne_percent {byte : UInt8} (h : (hexValue byte).isSome = true) : byte ≠ 37 := by
  rintro rfl
  exact absurd h (by decide)

theorem percentDecodeData_ne {byte : UInt8} (h : byte ≠ 37) (rest : List UInt8) :
    percentDecodeData (byte :: rest) = (byte :: ·) <$> percentDecodeData rest := by
  rw [percentDecodeData.eq_def]
  exact if_pos h

theorem percentDecodeData_percent (rest : List UInt8) :
    percentDecodeData (37 :: rest) = match rest with
      | high :: low :: rest =>
        match hexValue high, hexValue low with
        | some high, some low => ((high <<< 4 ||| low) :: ·) <$> percentDecodeData rest
        | _, _ => .error (.invalidUrl "data URL contains an invalid percent escape".toList)
      | _ => .error (.invalidUrl "data URL contains an invalid percent escape".toList) := by
  rw [percentDecodeData.eq_def]
  rfl

theorem map_cons_ok {byte : UInt8} {result : Except FetchError (List UInt8)} {decoded : List UInt8} :
    (byte :: ·) <$> result = .ok decoded ↔ ∃ later, result = .ok later ∧ byte :: later = decoded := by
  constructor
  · intro h
    cases result with
    | error e => cases h
    | ok later => exact ⟨later, rfl, Except.ok.inj h⟩
  · rintro ⟨later, rfl, rfl⟩
    rfl

theorem percentDecodeData_iff {bytes decoded : List UInt8} :
    percentDecodeData bytes = .ok decoded ↔ Escaped bytes ∧ percentDecode bytes = decoded := by
  fun_induction percentDecode bytes generalizing decoded with
  | case1 => simp [percentDecodeData, Escaped]
  | case2 byte rest hbyte ih =>
    simp only [percentDecodeData_ne hbyte, map_cons_ok, ih, escaped_cons, hbyte, false_implies, true_and]
    constructor
    · rintro ⟨later, ⟨hrest, rfl⟩, rfl⟩
      exact ⟨hrest, rfl⟩
    · rintro ⟨hrest, rfl⟩
      exact ⟨_, ⟨hrest, rfl⟩, rfl⟩
  | case3 byte hbyte high low later a b hb ha ih =>
    obtain rfl : byte = 37 := not_not.1 hbyte
    have hhigh := ne_percent (Option.isSome_iff_exists.2 ⟨a, ha⟩)
    have hlow := ne_percent (Option.isSome_iff_exists.2 ⟨b, hb⟩)
    have hescaped : Escaped (37 :: high :: low :: later) ↔ Escaped later := by
      simp [escaped_cons, hhigh, hlow, ha, hb]
    simp only [percentDecodeData_percent, ha, hb, map_cons_ok, ih, hescaped]
    constructor
    · rintro ⟨rest, ⟨hlater, rfl⟩, rfl⟩
      exact ⟨hlater, rfl⟩
    · rintro ⟨hlater, rfl⟩
      exact ⟨_, ⟨hlater, rfl⟩, rfl⟩
  | case4 byte hbyte high low later hhex ih =>
    obtain rfl : byte = 37 := not_not.1 hbyte
    have hescaped : ¬Escaped (37 :: high :: low :: later) := by
      intro h
      obtain ⟨_, _, _, heq, hhigh, hlow⟩ := (escaped_cons.1 h).1 rfl
      obtain ⟨rfl, rfl, rfl⟩ : _ ∧ _ ∧ _ := by simpa using heq
      obtain ⟨a, ha⟩ := Option.isSome_iff_exists.1 hhigh
      obtain ⟨b, hb⟩ := Option.isSome_iff_exists.1 hlow
      exact hhex a b ha hb
    rw [percentDecodeData_percent]
    simp only [hescaped, false_and, iff_false]
    exact fun h => by cases h
  | case5 byte rest hbyte hshort ih =>
    obtain rfl : byte = 37 := not_not.1 hbyte
    have hescaped : ¬Escaped (37 :: rest) := by
      intro h
      obtain ⟨high, low, later, heq, -, -⟩ := (escaped_cons.1 h).1 rfl
      exact hshort high low later heq
    rw [percentDecodeData_percent]
    simp only [hescaped, false_and, iff_false]
    exact fun h => by cases h

theorem percentDecode_ne {byte : UInt8} (h : byte ≠ 37) (rest : List UInt8) :
    percentDecode (byte :: rest) = byte :: percentDecode rest := by
  rw [percentDecode.eq_def]
  exact if_pos h

theorem percentDecode_short {rest : List UInt8} (h : rest.length < 2) :
    percentDecode (37 :: rest) = 37 :: percentDecode rest := by
  rw [percentDecode.eq_def]
  match rest, h with
  | [], _ => rfl
  | [_], _ => rfl

theorem percentDecode_no_hex {high low : UInt8} (h : hexValue high = none ∨ hexValue low = none) (later : List UInt8) :
    percentDecode (37 :: high :: low :: later) = 37 :: percentDecode (high :: low :: later) := by
  rw [percentDecode.eq_def]
  simp only [ne_eq, not_true_eq_false, if_false]
  split
  · next a b ha hb => rcases h with h | h <;> simp [h] at ha hb
  · rfl

/-- no escape reaches over a '?' -/
theorem percentDecode_append_query (bytes query : List UInt8) :
    percentDecode (bytes ++ 63 :: query) = percentDecode bytes ++ 63 :: percentDecode query := by
  have hquery : percentDecode (63 :: query) = 63 :: percentDecode query := percentDecode_ne (by decide) query
  fun_induction percentDecode bytes with
  | case1 => exact hquery
  | case2 byte rest hbyte ih => rw [List.cons_append, percentDecode_ne hbyte, ih, List.cons_append]
  | case3 byte hbyte high low later a b hb ha ih =>
    obtain rfl : byte = 37 := not_not.1 hbyte
    rw [List.cons_append, List.cons_append, List.cons_append, percentDecode.eq_def]
    simp only [ne_eq, not_true_eq_false, if_false, ha, hb, ih]
    rfl
  | case4 byte hbyte high low later hhex ih =>
    obtain rfl : byte = 37 := not_not.1 hbyte
    have hnone : hexValue high = none ∨ hexValue low = none := by
      cases ha : hexValue high with
      | none => exact .inl rfl
      | some a => exact .inr (Option.eq_none_iff_forall_ne_some.2 fun b hb => hhex a b ha hb)
    rw [List.cons_append, show 37 :: percentDecode (high :: low :: later) ++ 63 :: percentDecode query =
      37 :: (percentDecode (high :: low :: later) ++ 63 :: percentDecode query) from rfl, ← ih]
    exact percentDecode_no_hex hnone _
  | case5 byte rest hbyte hshort ih =>
    obtain rfl : byte = 37 := not_not.1 hbyte
    rw [List.cons_append, show 37 :: percentDecode rest ++ 63 :: percentDecode query =
      37 :: (percentDecode rest ++ 63 :: percentDecode query) from rfl, ← ih]
    match rest, hshort with
    | [], _ =>
      cases query with
      | nil => exact percentDecode_short (by decide)
      | cons next query => exact percentDecode_no_hex (.inl (by decide)) _
    | [next], _ => exact percentDecode_no_hex (.inr (by decide)) _
    | high :: low :: later, hshort => exact (hshort high low later rfl).elim

/-! ## Metadata -/

/-- the parameters that are "base64" -/
def markers (metadata : Chars) : ℕ :=
  (metadata.splitOn ';').tail.countP fun parameter => Chars.eqIgnoreAsciiCase parameter "base64".toList

/-- there is a '/' in the media type, if there is one, and no second marker -/
def Accepted (metadata : Chars) : Prop :=
  ((metadata.splitOn ';').headD [] = [] ∨ '/' ∈ (metadata.splitOn ';').headD []) ∧ markers metadata ≤ 1

theorem mediaParameters_iff {mediaType : Chars} {isBase64 : Bool} {parts : List Chars} {marked : Bool} :
    (∃ result, mediaParameters mediaType isBase64 parts = .ok (result, marked)) ↔
      isBase64.toNat + parts.countP (fun parameter => Chars.eqIgnoreAsciiCase parameter "base64".toList) = marked.toNat := by
  induction parts generalizing mediaType isBase64 with
  | nil => cases isBase64 <;> cases marked <;> simp [mediaParameters]
  | cons parameter parts ih =>
    rw [mediaParameters, List.countP_cons]
    split_ifs with hmarker hfirst
    · have := Bool.toNat_le marked
      simp [hfirst]
      omega
    · rw [ih]
      simp [hfirst, Nat.add_comm]
    · rw [ih, Nat.add_zero]
    · rw [ih, Nat.add_zero]

/-- parameters only add to the media type, behind a ';' -/
theorem mediaParameters_append {mediaType result : Chars} {isBase64 marked : Bool} {parts : List Chars}
    (h : mediaParameters mediaType isBase64 parts = .ok (result, marked)) :
    ∃ added : Chars, result = mediaType ++ added ∧ (added = [] ∨ added.head? = some ';') := by
  induction parts generalizing mediaType isBase64 with
  | nil =>
    cases h
    exact ⟨[], (List.append_nil _).symm, .inl rfl⟩
  | cons parameter parts ih =>
    rw [mediaParameters] at h
    split_ifs at h
    · exact ih h
    · exact ih h
    · obtain ⟨added, rfl, -⟩ := ih h
      exact ⟨';' :: parameter ++ added, by simp, .inr rfl⟩

theorem mem_trim {c : Char} {t : Chars} (h : c ∈ t) (hc : Chars.isWhitespace c = false) : c ∈ Chars.trim t := by
  have hkeep : ∀ t : Chars, c ∈ t → c ∈ t.dropWhile Chars.isWhitespace := fun t hmem => by
    rw [← List.takeWhile_append_dropWhile (p := Chars.isWhitespace) (l := t)] at hmem
    refine (List.mem_append.1 hmem).resolve_left fun hdropped => ?_
    exact absurd (List.all_eq_true.1 List.all_takeWhile c hdropped) (by simp [hc])
  exact List.mem_reverse.2 (hkeep _ (List.mem_reverse.2 (hkeep t h)))

theorem parseContentType_isSome {base added : Chars} (hslash : '/' ∈ base) (hbase : ';' ∉ base)
    (hadded : added = [] ∨ added.head? = some ';') : (parseContentType (base ++ added)).isSome = true := by
  have hfirst : (base ++ added).takeWhile (· ≠ ';') = base := by
    rw [List.takeWhile_append_of_pos fun c hc => decide_eq_true (ne_of_mem_of_not_mem hc hbase)]
    rcases hadded with rfl | hhead
    · simp
    · cases added with
      | nil => cases hhead
      | cons c added =>
        obtain rfl : c = ';' := Option.some.inj hhead
        simp
  have hmem : '/' ∈ Chars.toAsciiLowercase (Chars.trim base) := List.mem_map.2 ⟨'/', mem_trim hslash (by decide), by decide⟩
  rw [parseContentType, Chars.head_splitOn, hfirst]
  simp [hmem, List.ne_nil_of_mem hmem]

theorem defaultCharset_append (first mediaType : Chars) :
    ∃ added : Chars, defaultCharset first mediaType = mediaType ++ added ∧ (added = [] ∨ added.head? = some ';') := by
  rw [defaultCharset]
  split_ifs
  · exact ⟨_, rfl, .inr rfl⟩
  · exact ⟨[], (List.append_nil _).symm, .inl rfl⟩

/-- with a '/' and no ';' in the media type, only a second marker is refused -/
theorem typeOf_iff {first base : Chars} (hslash : '/' ∈ base) (hsemicolon : ';' ∉ base) {parts : List Chars} {marked : Bool} :
    (∃ mediaType, typeOf first base parts = .ok (mediaType, marked)) ↔
      parts.countP (fun parameter => Chars.eqIgnoreAsciiCase parameter "base64".toList) = marked.toNat := by
  rw [← Nat.zero_add (List.countP _ _), ← Bool.toNat_false, ← @mediaParameters_iff base]
  cases hparameters : mediaParameters base false parts with
  | error e => simp [typeOf, hparameters, bind, Except.bind]
  | ok result =>
    obtain ⟨mediaType, isBase64⟩ := result
    obtain ⟨added, rfl, hadded⟩ := mediaParameters_append hparameters
    obtain ⟨charset, hcharset, hfirst⟩ := defaultCharset_append first (base ++ added)
    have hboth : added ++ charset = [] ∨ (added ++ charset).head? = some ';' := by
      rcases hadded with rfl | hadded
      · exact hfirst
      · rw [List.head?_append, hadded]
        exact .inr rfl
    have hparsed := parseContentType_isSome hslash hsemicolon hboth
    rw [← List.append_assoc, ← hcharset] at hparsed
    have htype : typeOf first base parts = .ok (defaultCharset first (base ++ added), isBase64) := by
      simp only [typeOf, hparameters, bind, Except.bind]
      exact if_neg (by rw [Option.isNone_iff_eq_none]; exact Option.isSome_iff_ne_none.1 hparsed)
    simp [htype]

theorem dataMediaType_iff {metadata : Chars} {marked : Bool} : (∃ mediaType, dataMediaType metadata = .ok (mediaType, marked)) ↔
    Accepted metadata ∧ markers metadata = marked.toNat := by
  have hmarked := Bool.toNat_le marked
  have hsemicolon : ';' ∉ (metadata.splitOn ';').headD [] := fun hmem => by
    rw [Chars.head_splitOn] at hmem
    exact absurd (List.all_eq_true.1 List.all_takeWhile _ hmem) (by decide)
  simp only [dataMediaType, Accepted]
  split_ifs with hempty hslash
  · rw [typeOf_iff (by decide) (by decide), markers]
    simp only [hempty, true_or, true_and]
    omega
  · have hlower : ∀ c : Char, c.toLower = ';' → c = ';' := fun c h => by
      unfold Char.toLower at h
      split_ifs at h with hupper
      · have hcode : (c.val + 32).toNat = 59 := congrArg (fun c => c.val.toNat) h
        simp only [ge_iff_le, UInt32.le_iff_toNat_le, UInt32.toNat_add] at hupper hcode
        simp at hupper hcode
        omega
      · exact h
    have hmem : ';' ∉ Chars.toAsciiLowercase ((metadata.splitOn ';').headD []) := fun hmem => by
      obtain ⟨c, hc, heq⟩ := List.mem_map.1 hmem
      exact hsemicolon (hlower c heq ▸ hc)
    have hlowered : '/' ∈ Chars.toAsciiLowercase ((metadata.splitOn ';').headD []) :=
      List.mem_map.2 ⟨'/', hslash, by decide⟩
    rw [typeOf_iff hlowered hmem, markers]
    simp only [hslash, or_true, true_and]
    omega
  · simp only [hempty, hslash, or_self, false_and, exists_false]

/-! ## Base64 -/

theorem compact_isomorphic (bytes : List UInt8) : compact (isomorphic bytes) = isomorphic (compactData bytes) := by
  have hspace : ∀ code < 256, isAsciiWhitespace (Char.ofNat code) = ([32, 9, 10, 13, 12] : List UInt8).contains (UInt8.ofNat code) := by
    decide +kernel
  rw [compact, isomorphic, isomorphic, compactData, List.filter_map]
  congr 1
  refine List.filter_congr fun byte _ => ?_
  have := hspace byte.toNat byte.toNat_lt
  rw [UInt8.ofNat_toNat] at this
  exact congrArg not this

theorem isomorphic_byteOf {text : List Char} (h : ∀ c ∈ text, c.toNat < 128) : isomorphic (text.map byteOf) = text := by
  rw [isomorphic, List.map_map]
  refine List.map_congr_left (fun c hc => ?_) |>.trans (List.map_id text)
  have := h c hc
  simp only [Function.comp_apply, byteOf, UInt8.toNat_ofNat', id]
  rw [Nat.mod_eq_of_lt (by omega), Char.ofNat_toNat]

theorem spell_length (values : List ℕ) : 4 * (spell values).length ≤ 3 * values.length := by
  fun_induction spell values with
  | case1 a b c d rest buffer ih =>
    simp only [List.length_cons]
    omega
  | case2 => simp
  | case3 => simp
  | case4 => simp

theorem mapM_length {data : List Char} {values : List ℕ} (h : data.mapM table.idxOf? = some values) :
    values.length = data.length := by
  induction data generalizing values with
  | nil =>
    cases h
    rfl
  | cons c data ih =>
    simp only [List.mapM_cons, Option.bind_eq_bind, Option.bind_eq_some_iff] at h
    obtain ⟨value, -, later, hlater, heq⟩ := h
    rw [← Option.some.inj heq, List.length_cons, List.length_cons, ih hlater]

theorem forgivingDecode_length {text : List Char} {bytes : List UInt8} (h : forgivingDecode text = some bytes) :
    4 * bytes.length ≤ 3 * text.length := by
  have hdata : ∀ data : List Char, data.length ≤ text.length → (data.mapM table.idxOf?).map spell = some bytes →
      4 * bytes.length ≤ 3 * text.length := by
    intro data hle h
    obtain ⟨values, hvalues, rfl⟩ := Option.map_eq_some_iff.1 h
    have := spell_length values
    have := mapM_length hvalues
    omega
  have hcompact : (compact text).length ≤ text.length := List.length_filter_le ..
  unfold forgivingDecode at h
  simp only at h
  split_ifs at h with hwhole hone
  · have := dropPad_length (compact text)
    have := dropPad_length (dropPad (compact text))
    exact hdata _ (by omega) h
  · exact hdata _ hcompact h

theorem base64Encode_length (bytes : List UInt8) : 4 * bytes.length ≤ 3 * (base64Encode bytes).length := by
  fun_induction base64Encode bytes with
  | case1 => simp
  | case2 => simp [encodeChunk]
  | case3 => simp [encodeChunk]
  | case4 first second third rest ih =>
    rw [List.length_append, encodeChunk_length]
    simp only [List.length_cons]
    omega

theorem letter_mem : ∀ index < 64, letter index ∈ table ∧ letter index ≠ '=' := by decide +kernel

theorem dropPad_eq_self {text : List Char} {c : Char} (hc : c ≠ '=') (h : text.getLast? = some c) : dropPad text = text :=
  if_neg (by simpa [h] using hc)

/-- what is encoded is letters, but for the padding at the end -/
theorem base64Encode_letters (bytes : List UInt8) : ∀ c ∈ dropPad (dropPad (base64Encode bytes)), c ∈ table := by
  have hletter : ∀ index, index < 64 → letter index ∈ table := fun index h => (letter_mem index h).1
  fun_induction base64Encode bytes with
  | case1 => exact fun c hc => absurd hc List.not_mem_nil
  | case2 first =>
    have := first.toNat_lt
    rw [show dropPad (dropPad (encodeChunk first none none)) = (encodeChunk first none none).take 2 from rfl]
    simp only [encodeChunk, List.take_succ_cons, List.take_zero, List.forall_mem_cons, Option.getD_none, UInt8.toNat_zero]
    exact ⟨hletter _ (by omega), hletter _ (by omega), fun c hc => absurd hc List.not_mem_nil⟩
  | case3 first second =>
    have := first.toNat_lt
    have := second.toNat_lt
    have hpad : dropPad (encodeChunk first (some second) none) = (encodeChunk first (some second) none).take 3 := rfl
    rw [hpad, dropPad_eq_self (c := letter (second.toNat % 16 * 4 + 0)) (letter_mem _ (by omega)).2 rfl]
    simp only [encodeChunk, List.take_succ_cons, List.take_zero, List.forall_mem_cons, Option.getD_none, Option.getD_some,
      Option.isSome_some, if_true, UInt8.toNat_zero]
    exact ⟨hletter _ (by omega), hletter _ (by omega), hletter _ (by omega), fun c hc => absurd hc List.not_mem_nil⟩
  | case4 first second third rest ih =>
    have := first.toNat_lt
    have := second.toNat_lt
    have := third.toNat_lt
    have hchunk : ∀ c ∈ encodeChunk first (some second) (some third), c ∈ table := by
      simp only [encodeChunk, List.forall_mem_cons, Option.getD_some, Option.isSome_some, if_true]
      exact ⟨hletter _ (by omega), hletter _ (by omega), hletter _ (by omega), hletter _ (by omega),
        fun c hc => absurd hc List.not_mem_nil⟩
    cases rest with
    | nil =>
      have hlast : dropPad (encodeChunk first (some second) (some third)) = encodeChunk first (some second) (some third) :=
        dropPad_eq_self (c := letter (third.toNat % 64)) (letter_mem _ (by omega)).2 rfl
      rwa [base64Encode, List.append_nil, hlast, hlast]
    | cons next rest =>
      have hlength : 2 ≤ (base64Encode (next :: rest)).length := by
        have := base64Encode_length (next :: rest)
        simp only [List.length_cons] at this
        omega
      simp only [encodeChunk, List.cons_append, List.nil_append, List.forall_mem_cons] at hchunk ⊢
      rw [dropTwo_cons, dropTwo_cons, dropTwo_cons, dropTwo_cons hlength]
      · simp only [List.forall_mem_cons]
        exact ⟨hchunk.1, hchunk.2.1, hchunk.2.2.1, hchunk.2.2.2.1, ih⟩
      all_goals
        simp only [List.length_cons]
        omega

theorem forgivingDecode_base64Encode (bytes : List UInt8) : forgivingDecode (base64Encode bytes) = some bytes := by
  obtain ⟨hwhole, hchars⟩ := base64Encode_chars bytes
  have hcompact : compact (base64Encode bytes) = base64Encode bytes :=
    List.filter_eq_self.2 fun c hc => by simp [(hchars c hc).1]
  rw [← base64Decode_base64Encode bytes, eq_comm, base64Decode_iff, hcompact]
  refine ⟨fun h => ?_, fun ⟨_, _, c, hc, hletter⟩ => hletter (base64Encode_letters bytes c hc)⟩
  have := h.1
  omega

/-! ## The body -/

/-- what the octets of the text behind the comma spell as base64 with its padding, white space aside -/
def Canonical (bytes : List UInt8) : Prop := ∃ body, compactData (percentDecode bytes) = (base64Encode body).map byteOf

/-- a data URL that is decoded as the format says -/
def Decodable (url : DataUrl) : Prop :=
  url.query = none ∧ ∃ metadata encoded, Chars.splitOnce ',' url.path = some (metadata, encoded) ∧ Accepted metadata ∧
    Escaped (octets encoded) ∧ (encoded = [] ∨ (0 < markers metadata ↔ endsInBase64 metadata = true) ∧
      (endsInBase64 metadata = true → Canonical (octets encoded)))

theorem splitOnce_append {separator : Char} {t before after : Chars} (h : Chars.splitOnce separator t = some (before, after))
    (rest : Chars) : Chars.splitOnce separator (t ++ rest) = some (before, after ++ rest) := by
  induction t generalizing before with
  | nil => cases h
  | cons c t ih =>
    rw [Chars.splitOnce] at h
    rw [List.cons_append, Chars.splitOnce]
    split_ifs at h ⊢
    · cases h
      rfl
    · obtain ⟨parts, hparts, heq⟩ := Option.map_eq_some_iff.1 h
      cases heq
      rw [ih hparts]
      rfl

theorem eq_nil_of_octets {encoded : Chars} (h : percentDecode (octets encoded) = []) : encoded = [] := by
  cases encoded with
  | nil => rfl
  | cons c encoded =>
    obtain ⟨byte, rest, hoctets⟩ : ∃ byte rest, octets (c :: encoded) = byte :: rest :=
      List.exists_cons_of_ne_nil (by simp [octets, String.utf8EncodeChar_ne_nil])
    rw [hoctets, percentDecode.eq_def] at h
    simp only at h
    split at h
    · cases h
    · split at h
      · split at h <;> cases h
      · cases h

section FetchBody

variable {url : DataUrl} {metadata encoded : Chars}

theorem fetchBody_of_path (hsplit : Chars.splitOnce ',' url.path = some (metadata, encoded)) (hquery : url.query = none) :
    fetchBody url = if endsInBase64 metadata then forgivingDecode (isomorphic (percentDecode (octets encoded)))
      else some (percentDecode (octets encoded)) := by
  have htext : url.text = url.path := by rw [text, hquery]; exact List.append_nil _
  rw [fetchBody, htext, hsplit]
  rfl

/-- a '?' is no letter of base64 -/
theorem fetchBody_of_query (hsplit : Chars.splitOnce ',' url.path = some (metadata, encoded)) {query : Chars}
    (hquery : url.query = some query) :
    fetchBody url = if endsInBase64 metadata then none
      else some (percentDecode (octets encoded) ++ 63 :: percentDecode (octets query)) := by
  have htext : Chars.splitOnce ',' url.text = some (metadata, encoded ++ '?' :: query) := by
    rw [text, hquery]
    exact splitOnce_append hsplit _
  have hoctets : octets (encoded ++ '?' :: query) = octets encoded ++ 63 :: octets query := List.flatMap_append
  rw [fetchBody, htext]
  simp only [Option.bind_eq_bind, Option.bind_some, hoctets, percentDecode_append_query]
  split_ifs
  · refine forgivingDecode_none (c := '?') ?_ (by decide +kernel) (by decide)
    exact List.mem_filter.2 ⟨List.mem_map.2 ⟨63, by simp, by decide⟩, by decide⟩
  · rfl

end FetchBody

section Decode

variable {decode : List UInt8 → Except Chars (List UInt8)}

theorem dataBody_iff {isBase64 : Bool} {encoded : Chars} {body : List UInt8} :
    dataBody decode isBase64 encoded = .ok body ↔ Escaped (octets encoded) ∧
      if isBase64 then decode (compactData (percentDecode (octets encoded))) = .ok body
      else percentDecode (octets encoded) = body := by
  cases isBase64 with
  | false => exact percentDecodeData_iff
  | true =>
    simp only [dataBody, if_true, bind, Except.bind]
    cases hdecoded : percentDecodeData (octets encoded) with
    | error e =>
      have hescaped : ¬Escaped (octets encoded) := fun h => by
        rw [percentDecodeData_iff.2 ⟨h, rfl⟩] at hdecoded
        cases hdecoded
      simp only [hescaped, false_and, iff_false]
      exact fun h => by cases h
    | ok decoded =>
      obtain ⟨hescaped, rfl⟩ := percentDecodeData_iff.1 hdecoded
      simp only [hescaped, true_and]
      cases decode (compactData (percentDecode (octets encoded))) with
      | error e =>
        constructor
        · intro h
          cases h
        · intro h
          cases h
      | ok decoded =>
        constructor
        · intro h
          cases h
          rfl
        · intro h
          cases h
          rfl

theorem decodeDataUrl_iff {url : DataUrl} {limit : ℕ} {body : List UInt8} :
    (∃ type, decodeDataUrl decode url limit = .ok (type, body)) ↔
      ∃ metadata encoded, Chars.splitOnce ',' url.path = some (metadata, encoded) ∧ Accepted metadata ∧
        dataBody decode (0 < markers metadata) encoded = .ok body ∧ body.length ≤ limit := by
  constructor
  · rintro ⟨type, h⟩
    unfold decodeDataUrl at h
    split at h
    · cases h
    · next metadata encoded hsplit =>
      simp only [bind, Except.bind] at h
      split at h
      · cases h
      · next parts htype =>
        obtain ⟨haccepted, hmarked⟩ := dataMediaType_iff.1 ⟨parts.1, htype⟩
        have hbase : parts.2 = decide (0 < markers metadata) := by rw [hmarked]; cases parts.2 <;> rfl
        rw [hbase] at h
        split at h
        · cases h
        · next decoded hbody =>
          split_ifs at h with hlimit
          cases h
          exact ⟨metadata, encoded, hsplit, haccepted, hbody, not_lt.1 hlimit⟩
  · rintro ⟨metadata, encoded, hsplit, haccepted, hbody, hlimit⟩
    have hmarked : markers metadata = (decide (0 < markers metadata)).toNat := by
      have hmarkers := haccepted.2
      interval_cases markers metadata <;> rfl
    obtain ⟨mediaType, htype⟩ := dataMediaType_iff.2 ⟨haccepted, hmarked⟩
    refine ⟨parseContentType mediaType, ?_⟩
    unfold decodeDataUrl
    simp only [hsplit, htype, bind, Except.bind, hbody, if_neg (not_lt.2 hlimit)]

/-- text that base64 in it spells is empty -/
theorem eq_nil_of_compactData {bytes decoded : List UInt8} (h : compactData bytes = (base64Encode decoded).map byteOf)
    (hle : bytes.length ≤ decoded.length) : decoded = [] := by
  have hcompact : (compactData bytes).length ≤ bytes.length := List.length_filter_le ..
  have := base64Encode_length decoded
  rw [h, List.length_map] at hcompact
  exact List.eq_nil_of_length_eq_zero (by omega)

theorem forgivingDecode_canonical {bytes body : List UInt8} (h : compactData bytes = (base64Encode body).map byteOf) :
    forgivingDecode (isomorphic bytes) = some body := by
  have hchars := (base64Encode_chars body).2
  have hcompact : compact (isomorphic bytes) = compact (base64Encode body) := by
    rw [compact_isomorphic, h, isomorphic_byteOf fun c hc => (hchars c hc).2]
    exact (List.filter_eq_self.2 fun c hc => by simp [(hchars c hc).1]).symm
  rw [forgivingDecode, hcompact]
  exact forgivingDecode_base64Encode body

/-- with a decoder of padded base64, a data URL is decoded as the format says, if it has no query, its escapes are well
formed and its metadata is read as the format reads it; and so is none that the format refuses -/
theorem decodeDataUrl_body_iff
    (hdecode : ∀ text bytes, decode text = .ok bytes ↔ text = (base64Encode bytes).map byteOf) :
    (∀ url limit body, fetchBody url = some body → body.length ≤ limit →
      ((∃ type, decodeDataUrl decode url limit = .ok (type, body)) ↔ Decodable url)) ∧
    ∀ url limit, fetchBody url = none → url.query = none →
      (∀ metadata encoded, Chars.splitOnce ',' url.path = some (metadata, encoded) →
        (0 < markers metadata ↔ endsInBase64 metadata = true)) →
      ∀ result, decodeDataUrl decode url limit ≠ .ok result := by
  refine ⟨fun url limit body hbody hlimit => ?_, fun url limit hnone hquery hread result hok => ?_⟩
  · rw [decodeDataUrl_iff]
    simp only [dataBody_iff, decide_eq_true_eq, hdecode]
    constructor
    · rintro ⟨metadata, encoded, hsplit, haccepted, ⟨hescaped, hresult⟩, -⟩
      have hquery : url.query = none := by
        cases hquery : url.query with
        | none => rfl
        | some query =>
          rw [fetchBody_of_query hsplit hquery] at hbody
          split_ifs at hbody hresult with hends hmarker
          · obtain rfl := Option.some.inj hbody
            have hlonger := eq_nil_of_compactData hresult (by simp)
            exact absurd hlonger (by simp)
          · have := congrArg List.length (hresult.trans (Option.some.inj hbody).symm)
            simp at this
      rw [fetchBody_of_path hsplit hquery] at hbody
      refine ⟨hquery, metadata, encoded, hsplit, haccepted, hescaped, ?_⟩
      split_ifs at hbody hresult with hends hmarker hmarker
      · exact .inr ⟨iff_of_true hmarker hends, fun _ => ⟨body, hresult⟩⟩
      · -- the format reads base64 where the code reads text
        have hlength := forgivingDecode_length hbody
        rw [isomorphic, List.length_map, hresult] at hlength
        exact .inl (eq_nil_of_octets (hresult.trans (List.eq_nil_of_length_eq_zero (by omega))))
      · -- and the other way round
        obtain rfl := Option.some.inj hbody
        exact .inl (eq_nil_of_octets (eq_nil_of_compactData hresult le_rfl))
      · exact .inr ⟨iff_of_false hmarker hends, fun h => absurd h hends⟩
    · rintro ⟨hquery, metadata, encoded, hsplit, haccepted, hescaped, hagree⟩
      refine ⟨metadata, encoded, hsplit, haccepted, ⟨hescaped, ?_⟩, hlimit⟩
      rw [fetchBody_of_path hsplit hquery] at hbody
      rcases hagree with rfl | ⟨hread, hcanonical⟩
      · have hempty : forgivingDecode (isomorphic (percentDecode (octets []))) = some [] := by decide
        rw [hempty] at hbody
        obtain rfl : [] = body := by
          split_ifs at hbody
          · exact Option.some.inj hbody
          · exact Option.some.inj hbody
        split_ifs <;> rfl
      · split_ifs at hbody ⊢ with hmarker hends hends
        · obtain ⟨bytes, hbytes⟩ := hcanonical hends
          rw [forgivingDecode_canonical hbytes] at hbody
          rwa [← Option.some.inj hbody]
        · exact absurd (hread.1 hmarker) hends
        · exact absurd (hread.2 hends) hmarker
        · exact Option.some.inj hbody
  · obtain ⟨metadata, encoded, hsplit, haccepted, hbody, -⟩ := decodeDataUrl_iff.1 ⟨result.1, hok⟩
    rw [fetchBody_of_path hsplit hquery] at hnone
    simp only [dataBody_iff, decide_eq_true_eq, hdecode] at hbody
    split_ifs at hnone with hends
    rw [if_pos ((hread metadata encoded hsplit).2 hends)] at hbody
    rw [forgivingDecode_canonical hbody.2] at hnone
    cases hnone

end Decode

/-- a decoder of padded base64 -/
def standardDecode (text : List UInt8) : Except Chars (List UInt8) :=
  match decodeChunks text with
  | some bytes => if text = (base64Encode bytes).map byteOf then .ok bytes else .error []
  | none => .error []

theorem decodeDataUrl_body_iff_a : fetchBody ⟨"text/plain;base64,YQ==".toList, none⟩ = some [97] ∧
    ((∃ type, decodeDataUrl standardDecode ⟨"text/plain;base64,YQ==".toList, none⟩ 1 = .ok (type, [97])) ↔
      Decodable ⟨"text/plain;base64,YQ==".toList, none⟩) := by
  have hdecode : ∀ text bytes, standardDecode text = .ok bytes ↔ text = (base64Encode bytes).map byteOf := by
    intro text bytes
    unfold standardDecode
    constructor
    · intro h
      split at h
      · split_ifs at h with htext
        cases h
        exact htext
      · cases h
    · rintro rfl
      rw [decodeChunks_encode]
      exact if_pos rfl
  have hbody : fetchBody ⟨"text/plain;base64,YQ==".toList, none⟩ = some [97] := by decide +kernel
  exact ⟨hbody, (decodeDataUrl_body_iff hdecode).1 _ 1 [97] hbody le_rfl⟩

/-- the text behind a '?' is dropped, a malformed escape is refused, and so is base64 without its padding -/
theorem decodeDataUrl_departs :
    fetchBody ⟨"a/b,x".toList, some ['y']⟩ = some [120, 63, 121] ∧
    (decodeDataUrl standardDecode ⟨"a/b,x".toList, some ['y']⟩ 9).toOption.map Prod.snd = some [120] ∧
    fetchBody ⟨",5%".toList, none⟩ = some [53, 37] ∧
    (decodeDataUrl standardDecode ⟨",5%".toList, none⟩ 9).toOption.map Prod.snd = none ∧
    fetchBody ⟨";base64,YQ".toList, none⟩ = some [97] ∧
    (decodeDataUrl standardDecode ⟨";base64,YQ".toList, none⟩ 9).toOption.map Prod.snd = none := by
  decide +kernel

end DataUrl

end Render.Net
