/-
Property keys (`render-js/src/utf16.rs`). The object model stores a key as a `String`, which cannot hold half of a
surrogate pair, so a lone surrogate is written as a private-use character and the real characters of that range stand
behind an escape.

`decode_utf16` cuts the units into pieces, each a character or a lone surrogate. A piece is known by its units
(`decodeUtf16_units`) and by what it writes into the key whatever follows it there (`fromKeyChars_piece`); the round
trip of a string is the two together.
-/
import Render.Dom.Utf16

namespace Render.Js

/-! ## The source -/

/-- a string is its UTF-16 code units -/
abbrev JsString := List (BitVec 16)

/-- the first key character standing for a lone surrogate -/
def keySurrogateBase : ℕ := 0xF0000

def keySurrogateEnd : ℕ := 0xF07FF

def keyEscape : Char := Char.ofNat 0x10FFFF

def isKeySurrogate (character : Char) : Bool :=
  keySurrogateBase ≤ character.toNat && character.toNat ≤ keySurrogateEnd

/-- `push_scalar`: the units of one character -/
def scalarUnits (character : Char) : JsString := (Char.utf16 character).map (BitVec.ofNat 16)

/-- `char::from_u32` -/
def charFromU32 (code : ℕ) : Option Char := if code.isValidChar then some (Char.ofNat code) else none

/-- a character, or a lone surrogate, of a string -/
inductive Piece
  | scalar (character : Char)
  | unpaired (unit : BitVec 16)

/-- `char::decode_utf16` -/
def decodeUtf16 : JsString → List Piece
  | [] => []
  | [unit] => [if isLead unit.toNat || isTrail unit.toNat then .unpaired unit else .scalar (Char.ofNat unit.toNat)]
  | unit :: next :: rest =>
    if isLead unit.toNat && isTrail next.toNat then
      .scalar (Char.ofNat (0x10000 + (unit.toNat - 0xD800) * 0x400 + (next.toNat - 0xDC00))) :: decodeUtf16 rest
    else
      (if isLead unit.toNat || isTrail unit.toNat then .unpaired unit else .scalar (Char.ofNat unit.toNat)) ::
        decodeUtf16 (next :: rest)

/-- what one piece adds to the key -/
def Piece.key : Piece → List Char
  | .scalar character =>
    if character = keyEscape || isKeySurrogate character then [keyEscape, character] else [character]
  | .unpaired unit => [(charFromU32 (keySurrogateBase + (unit.toNat - 0xD800))).getD '\uFFFD']

/-- `JsString::to_key` -/
def toKey (text : JsString) : String := String.ofList ((decodeUtf16 text).flatMap Piece.key)

/-- `u16::try_from(code).unwrap_or(0xFFFD)` -/
def unitOf (code : ℕ) : BitVec 16 := if code < 2 ^ 16 then BitVec.ofNat 16 code else 0xFFFD

def fromKeyChars : List Char → JsString
  | [] => []
  | [character] =>
    -- an escape with nothing behind it is kept as itself
    if character = keyEscape then scalarUnits keyEscape
    else if isKeySurrogate character then [unitOf (0xD800 + (character.toNat - keySurrogateBase))]
    else scalarUnits character
  | character :: real :: rest =>
    if character = keyEscape then scalarUnits real ++ fromKeyChars rest
    else if isKeySurrogate character then
      unitOf (0xD800 + (character.toNat - keySurrogateBase)) :: fromKeyChars (real :: rest)
    else scalarUnits character ++ fromKeyChars (real :: rest)

/-- `JsString::from_key` -/
def fromKey (key : String) : JsString := fromKeyChars key.toList

/-! ## Pieces and their units -/

def Piece.units : Piece → JsString
  | .scalar character => scalarUnits character
  | .unpaired unit => [unit]

/-- a piece as the decoder makes it: what it calls unpaired is a surrogate -/
def Piece.Valid : Piece → Prop
  | .scalar _ => True
  | .unpaired unit => 0xD800 ≤ unit.toNat ∧ unit.toNat < 0xE000

theorem surrogate_bounds {u : ℕ} (h : (isLead u || isTrail u) = true) : 0xD800 ≤ u ∧ u < 0xE000 := by
  simp only [isLead, isTrail, Bool.or_eq_true, Bool.and_eq_true, decide_eq_true_eq] at h
  omega

/-- a unit that is no surrogate is the character of that number -/
theorem scalarUnits_unit {unit : BitVec 16} (h : (isLead unit.toNat || isTrail unit.toNat) = false) :
    scalarUnits (Char.ofNat unit.toNat) = [unit] := by
  have hvalid : unit.toNat.isValidChar := by
    simp only [isLead, isTrail, Bool.or_eq_false_iff, Bool.and_eq_false_iff, decide_eq_false_iff_not] at h
    have := unit.isLt
    unfold Nat.isValidChar
    omega
  have hnat : (Char.ofNat unit.toNat).toNat = unit.toNat := by
    rw [Char.ofNat, dif_pos hvalid]
    rfl
  have hbmp : unit.toNat < 0x10000 := unit.isLt
  rw [scalarUnits, Char.utf16, hnat, if_pos hbmp, List.map_singleton, BitVec.ofNat_toNat, BitVec.setWidth_eq]

/-- a surrogate pair is the units of the character it encodes -/
theorem scalarUnits_pair {unit next : BitVec 16} (hlead : isLead unit.toNat = true) (htrail : isTrail next.toNat = true) :
    scalarUnits (Char.ofNat (0x10000 + (unit.toNat - 0xD800) * 0x400 + (next.toNat - 0xDC00))) = [unit, next] := by
  simp only [isLead, isTrail, Bool.and_eq_true, decide_eq_true_eq] at hlead htrail
  generalize hcode : 0x10000 + (unit.toNat - 0xD800) * 0x400 + (next.toNat - 0xDC00) = code
  have hvalid : code.isValidChar := by
    unfold Nat.isValidChar
    omega
  have hnat : (Char.ofNat code).toNat = code := by
    rw [Char.ofNat, dif_pos hvalid]
    rfl
  have hbig : ¬ code < 0x10000 := by omega
  have hfirst : 0xD800 + (code - 0x10000) / 0x400 = unit.toNat := by omega
  have hsecond : 0xDC00 + (code - 0x10000) % 0x400 = next.toNat := by omega
  rw [scalarUnits, Char.utf16, hnat, if_neg hbig, hfirst, hsecond]
  simp

/-- the piece of a unit that pairs with nothing -/
theorem piece_unit (unit : BitVec 16) :
    (if isLead unit.toNat || isTrail unit.toNat then Piece.unpaired unit else .scalar (Char.ofNat unit.toNat)).units =
      [unit] := by
  split_ifs with h
  · rfl
  · exact scalarUnits_unit (by simpa using h)

theorem piece_valid (unit : BitVec 16) :
    (if isLead unit.toNat || isTrail unit.toNat then Piece.unpaired unit else .scalar (Char.ofNat unit.toNat)).Valid := by
  split_ifs with h
  · exact surrogate_bounds h
  · trivial

/-- decoding loses nothing -/
theorem decodeUtf16_units (text : JsString) : (decodeUtf16 text).flatMap Piece.units = text := by
  fun_induction decodeUtf16 text with
  | case1 => rfl
  | case2 unit => rw [List.flatMap_singleton, piece_unit]
  | case3 unit next rest hpair ih =>
    rw [Bool.and_eq_true] at hpair
    rw [List.flatMap_cons, ih, Piece.units, scalarUnits_pair hpair.1 hpair.2]
    rfl
  | case4 unit next rest hpair ih =>
    rw [List.flatMap_cons, ih, piece_unit, List.singleton_append]

theorem decodeUtf16_valid (text : JsString) : ∀ piece ∈ decodeUtf16 text, piece.Valid := by
  fun_induction decodeUtf16 text with
  | case1 => exact fun _ h => absurd h List.not_mem_nil
  | case2 unit => exact List.forall_mem_singleton.2 (piece_valid unit)
  | case3 unit next rest hpair ih => exact List.forall_mem_cons.2 ⟨trivial, ih⟩
  | case4 unit next rest hpair ih => exact List.forall_mem_cons.2 ⟨piece_valid unit, ih⟩

/-! ## Reading a piece back -/

theorem fromKeyChars_escape (real : Char) (rest : List Char) :
    fromKeyChars (keyEscape :: real :: rest) = scalarUnits real ++ fromKeyChars rest := by
  rw [fromKeyChars, if_pos rfl]

theorem fromKeyChars_plain {character : Char} (hescape : character ≠ keyEscape)
    (hsurrogate : isKeySurrogate character = false) (rest : List Char) :
    fromKeyChars (character :: rest) = scalarUnits character ++ fromKeyChars rest := by
  cases rest with
  | nil => simp [fromKeyChars, hescape, hsurrogate]
  | cons real rest => simp [fromKeyChars, hescape, hsurrogate]

theorem fromKeyChars_surrogate {character : Char} (hescape : character ≠ keyEscape)
    (hsurrogate : isKeySurrogate character = true) (rest : List Char) :
    fromKeyChars (character :: rest) =
      unitOf (0xD800 + (character.toNat - keySurrogateBase)) :: fromKeyChars rest := by
  cases rest with
  | nil => simp [fromKeyChars, hescape, hsurrogate]
  | cons real rest => simp [fromKeyChars, hescape, hsurrogate]

/-- the character that stands for a lone surrogate -/
theorem unpaired_key {unit : BitVec 16} (h : (Piece.unpaired unit).Valid) :
    ∃ character, (Piece.unpaired unit).key = [character] ∧ character ≠ keyEscape ∧ isKeySurrogate character = true ∧
      unitOf (0xD800 + (character.toNat - keySurrogateBase)) = unit := by
  obtain ⟨hlow, hhigh⟩ : 0xD800 ≤ unit.toNat ∧ unit.toNat < 0xE000 := h
  generalize hcode : keySurrogateBase + (unit.toNat - 0xD800) = code
  have hbase : keySurrogateBase = 0xF0000 := rfl
  have hvalid : code.isValidChar := by
    unfold Nat.isValidChar
    omega
  have hnat : (Char.ofNat code).toNat = code := by
    rw [Char.ofNat, dif_pos hvalid]
    rfl
  refine ⟨Char.ofNat code, ?_, ?_, ?_, ?_⟩
  · rw [Piece.key, hcode, charFromU32, if_pos hvalid, Option.getD_some]
  · intro hescape
    have hsame : code = 0x10FFFF := by
      rw [← hnat, hescape]
      decide
    omega
  · rw [isKeySurrogate, hnat, Bool.and_eq_true, decide_eq_true_eq, decide_eq_true_eq, keySurrogateEnd]
    omega
  · have hunit : 0xD800 + (code - keySurrogateBase) = unit.toNat := by omega
    rw [hnat, hunit, unitOf, if_pos unit.isLt, BitVec.ofNat_toNat, BitVec.setWidth_eq]

/-- what a piece wrote is read as that piece, whatever follows it in the key -/
theorem fromKeyChars_piece {piece : Piece} (h : piece.Valid) (rest : List Char) :
    fromKeyChars (piece.key ++ rest) = piece.units ++ fromKeyChars rest := by
  cases piece with
  | scalar character =>
    by_cases hmarked : (character = keyEscape || isKeySurrogate character) = true
    · rw [Piece.key, if_pos hmarked]
      exact fromKeyChars_escape character rest
    · have hplain : character ≠ keyEscape ∧ isKeySurrogate character = false := by simpa using hmarked
      rw [Piece.key, if_neg hmarked]
      exact fromKeyChars_plain hplain.1 hplain.2 rest
  | unpaired unit =>
    obtain ⟨character, hkey, hescape, hsurrogate, hunit⟩ := unpaired_key h
    rw [hkey, List.singleton_append, fromKeyChars_surrogate hescape hsurrogate, hunit]
    rfl

theorem fromKeyChars_pieces {pieces : List Piece} (h : ∀ piece ∈ pieces, piece.Valid) :
    fromKeyChars (pieces.flatMap Piece.key) = pieces.flatMap Piece.units := by
  induction pieces with
  | nil => rfl
  | cons piece pieces ih =>
    obtain ⟨hpiece, hpieces⟩ := List.forall_mem_cons.1 h
    rw [List.flatMap_cons, fromKeyChars_piece hpiece, ih hpieces, List.flatMap_cons]

/-- **Keys are faithful.** A key reads back as the string it was made from, so two strings that differ in any unit never
share one. -/
theorem key_round_trip : (∀ text : JsString, fromKey (toKey text) = text) ∧ Function.Injective toKey := by
  have hround (text : JsString) : fromKey (toKey text) = text := by
    rw [fromKey, toKey, String.toList_ofList, fromKeyChars_pieces (decodeUtf16_valid text), decodeUtf16_units]
  exact ⟨hround, Function.LeftInverse.injective hround⟩

-- U+F0000 and the lone surrogate that is written as it
example : (decodeUtf16 [0xdb80, 0xdc00]).flatMap Piece.key = [keyEscape, Char.ofNat 0xF0000] ∧
    (decodeUtf16 [0xd800]).flatMap Piece.key = [Char.ofNat 0xF0000] := by decide

end Render.Js
