/-
`escape` and `unescape`, `encodeURI` and `decodeURI` and their component forms
(`render-js/src/runtime/builtins/global_fns.rs`), over UTF-16 code units.

An escaped unit is read back before anything behind it is looked at (`jsUnescape_escapeUnit`), and so is an escaped
character (`uriDecode_escapeChar`): its first octet says how many escapes belong to it. What `uriDecode` accepts is cut
into segments, in which the escapes of octets from 0x80 on are whole characters.
-/
import Render.Dom.Utf16
import Render.Js.JsonQuote

namespace Render.Js.Escapes

open Render.Js.Json (paired)

/-- '%' -/
def percent : ℕ := 0x25

/-- `hex_nibble` -/
def hexNibble (unit : ℕ) : Option ℕ :=
  if 0x30 ≤ unit ∧ unit ≤ 0x39 then some (unit - 0x30)
  else if 0x41 ≤ unit ∧ unit ≤ 0x46 then some (unit - 0x37)
  else if 0x61 ≤ unit ∧ unit ≤ 0x66 then some (unit - 0x57)
  else none

/-- `hex_byte`, given the units from its start on -/
def hexByte : List ℕ → Option ℕ
  | high :: low :: _ => do
    let high ← hexNibble high
    let low ← hexNibble low
    return high * 16 + low
  | _ => none

/-- `UPPER_HEX` -/
def upperHex (digit : ℕ) : ℕ := if digit < 10 then 0x30 + digit else 0x37 + digit

/-- `push_percent_octet` -/
def percentOctet (octet : ℕ) : List ℕ := [percent, upperHex (octet / 16), upperHex (octet % 16)]

def isAlphanumeric (unit : ℕ) : Bool :=
  0x30 ≤ unit && unit ≤ 0x39 || 0x41 ≤ unit && unit ≤ 0x5A || 0x61 ≤ unit && unit ≤ 0x7A

def unitsOf (text : String) : List ℕ := text.toList.map Char.toNat

/-! ## `escape` and `unescape` -/

def escapeUnit (unit : ℕ) : List ℕ :=
  if isAlphanumeric unit || unit ∈ unitsOf "@*_+-./" then [unit]
  else if unit < 256 then percentOctet unit
  else percent :: 0x75 :: [12, 8, 4, 0].map fun shift => upperHex (unit / 2 ^ shift % 16)

/-- `js_escape` -/
def jsEscape (units : List ℕ) : List ℕ := units.flatMap escapeUnit

/-- the unit that `uXXXX` names -/
def wideEscape : List ℕ → Option ℕ
  | [] => none
  | unit :: rest =>
    if unit = 0x75 then do
      let high ← hexByte rest
      let low ← hexByte (rest.drop 2)
      return high * 256 + low
    else none

/-- `js_unescape` -/
def jsUnescape : List ℕ → List ℕ
  | [] => []
  | unit :: rest =>
    if unit = percent then
      match wideEscape rest, hexByte rest with
      | some wide, _ => wide :: jsUnescape (rest.drop 5)
      | none, some octet => octet :: jsUnescape (rest.drop 2)
      | none, none => unit :: jsUnescape rest
    else unit :: jsUnescape rest
termination_by units => units.length
decreasing_by all_goals simp

/-! ## `encodeURI` and `decodeURI` -/

/-- `code_point_at`, given the unit and those behind it -/
def codePointAt (leading : ℕ) : List ℕ → ℕ
  | [] => leading
  | trailing :: _ =>
    if isLead leading && isTrail trailing then 0x10000 + (leading - 0xD800) * 0x400 + (trailing - 0xDC00) else leading

/-- `char::from_u32` -/
def fromU32 (code : ℕ) : Option Char := if code.isValidChar then some (Char.ofNat code) else none

/-- `str::from_utf8` -/
def fromUtf8 (octets : List UInt8) : Option (List Char) := octets.toByteArray.utf8Decode?.map Array.toList

def isUnreserved (unit : ℕ) : Bool := isAlphanumeric unit || unit ∈ unitsOf "-_.!~*'()"

/-- an escape for each UTF-8 octet of a character -/
def escapeChar (c : Char) : List ℕ := (String.utf8EncodeChar c).flatMap fun octet => percentOctet octet.toNat

/-- `uri_encode` -/
def uriEncode (extraUnescaped : List UInt8) : List ℕ → Option (List ℕ)
  | [] => some []
  | unit :: rest =>
    if isUnreserved unit || unit ∈ extraUnescaped.map UInt8.toNat then (unit :: ·) <$> uriEncode extraUnescaped rest
    else
      match fromU32 (codePointAt unit rest) with
      | none => none
      | some c => (escapeChar c ++ ·) <$> uriEncode extraUnescaped (rest.drop ((Char.utf16 c).length - 1))
termination_by units => units.length
decreasing_by all_goals simp

/-- `u8::leading_ones` -/
def leadingOnes (octet : ℕ) : ℕ := ((List.range 8).takeWhile fun bit => octet.testBit (7 - bit)).length

/-- the octets of `count` escapes -/
def octetsAt : ℕ → List ℕ → Option (List UInt8)
  | 0, _ => some []
  | _ + 1, [] => none
  | count + 1, unit :: rest =>
    if unit = percent then do
      let octet ← hexByte rest
      let later ← octetsAt count (rest.drop 2)
      return UInt8.ofNat octet :: later
    else none

/-- what the escape that '%' begins stands for, and how many units behind '%' belong to it -/
def escapeAt (preserved : List UInt8) (rest : List ℕ) : Option (List ℕ × ℕ) := do
  let first ← hexByte rest
  if first < 0x80 then return (if first ∈ preserved.map UInt8.toNat then percent :: rest.take 2 else [first], 2)
  let count := leadingOnes first
  if count < 2 ∨ 4 < count then none
  let octets ← octetsAt (count - 1) (rest.drop 2)
  let decoded ← fromUtf8 (UInt8.ofNat first :: octets)
  return (decoded.flatMap Char.utf16, 2 + 3 * (count - 1))

/-- `uri_decode` -/
def uriDecode (preserved : List UInt8) : List ℕ → Option (List ℕ)
  | [] => some []
  | unit :: rest =>
    if unit = percent then
      match escapeAt preserved rest with
      | none => none
      | some (output, used) => (output ++ ·) <$> uriDecode preserved (rest.drop used)
    else (unit :: ·) <$> uriDecode preserved rest
termination_by units => units.length
decreasing_by all_goals simp

/-! ## One escape -/

theorem hexNibble_upperHex : ∀ digit < 16, hexNibble (upperHex digit) = some digit := by decide

theorem hexByte_upperHex {octet : ℕ} (h : octet < 256) (rest : List ℕ) :
    hexByte (upperHex (octet / 16) :: upperHex (octet % 16) :: rest) = some octet := by
  simp only [hexByte, hexNibble_upperHex (octet / 16) (by omega), hexNibble_upperHex (octet % 16) (by omega)]
  exact congrArg some (by omega)

theorem percentOctet_append (octet : ℕ) (rest : List ℕ) :
    percentOctet octet ++ rest = percent :: upperHex (octet / 16) :: upperHex (octet % 16) :: rest := rfl

theorem upperHex_ne : ∀ digit < 16, upperHex digit ≠ 0x75 := by decide

theorem jsUnescape_escapeUnit {unit : ℕ} (h : unit < 0x10000) (rest : List ℕ) :
    jsUnescape (escapeUnit unit ++ rest) = unit :: jsUnescape rest := by
  unfold escapeUnit
  split_ifs with hplain hoctet
  · have hpercent : unit ≠ percent := by
      rintro rfl
      revert hplain
      decide
    rw [List.singleton_append, jsUnescape, if_neg hpercent]
  · have hwide : wideEscape (upperHex (unit / 16) :: upperHex (unit % 16) :: rest) = none :=
      if_neg (upperHex_ne _ (by omega))
    rw [percentOctet_append, jsUnescape, if_pos rfl, hwide, hexByte_upperHex hoctet]
    rfl
  · have hdigits : unit / 2 ^ 12 % 16 = unit / 256 / 16 ∧ unit / 2 ^ 8 % 16 = unit / 256 % 16 ∧
        unit / 2 ^ 4 % 16 = unit % 256 / 16 ∧ unit / 2 ^ 0 % 16 = unit % 256 % 16 := by omega
    have hwide : wideEscape (0x75 :: upperHex (unit / 256 / 16) :: upperHex (unit / 256 % 16) ::
        upperHex (unit % 256 / 16) :: upperHex (unit % 256 % 16) :: rest) = some unit := by
      simp only [wideEscape, if_true, List.drop_succ_cons, List.drop_zero]
      rw [hexByte_upperHex (show unit / 256 < 256 by omega), hexByte_upperHex (show unit % 256 < 256 by omega)]
      exact congrArg some (by omega)
    simp only [List.map_cons, List.map_nil, hdigits, List.cons_append, List.nil_append]
    rw [jsUnescape, if_pos rfl, hwide]
    rfl

theorem jsUnescape_jsEscape {units : List ℕ} (h : ∀ unit ∈ units, unit < 0x10000) :
    jsUnescape (jsEscape units) = units := by
  induction units with
  | nil => rw [jsEscape, List.flatMap_nil, jsUnescape]
  | cons unit rest ih =>
    rw [List.forall_mem_cons] at h
    rw [jsEscape, List.flatMap_cons, jsUnescape_escapeUnit h.1]
    exact congrArg _ (ih h.2)

/-! ## One character -/

theorem fromUtf8_eq_some {octets : List UInt8} {chars : List Char} :
    fromUtf8 octets = some chars ↔ octets = chars.flatMap String.utf8EncodeChar := by
  constructor
  · intro h
    obtain ⟨decoded, hdecoded, rfl⟩ := Option.map_eq_some_iff.1 h
    have hsome : octets.toByteArray.utf8Decode?.isSome := by simp [hdecoded]
    have hencode := @ByteArray.utf8Encode_get_utf8Decode? octets.toByteArray hsome
    simp only [hdecoded, Option.get_some] at hencode
    have := congrArg ByteArray.data hencode
    simpa [List.utf8Encode] using this.symm
  · rintro rfl
    have := @List.utf8Decode?_utf8Encode chars
    simp only [List.utf8Encode] at this
    simp [fromUtf8, this]

theorem leadingOnes_range : ∀ octet < 256, (0xC0 ≤ octet ∧ octet < 0xE0 → leadingOnes octet = 2) ∧
    (0xE0 ≤ octet ∧ octet < 0xF0 → leadingOnes octet = 3) ∧ (0xF0 ≤ octet ∧ octet < 0xF8 → leadingOnes octet = 4) := by
  decide +kernel

/-- the first octet of a character above 0x7F counts the octets, which are all above 0x7F -/
theorem utf8_shape {c : Char} (h : 0x80 ≤ c.toNat) : ∃ first others, String.utf8EncodeChar c = first :: others ∧
    leadingOnes first.toNat = others.length + 1 ∧ 1 ≤ others.length ∧ others.length ≤ 3 ∧
    ∀ octet ∈ first :: others, 0x80 ≤ octet.toNat := by
  have hval : c.val.toNat = c.toNat := rfl
  unfold String.utf8EncodeChar
  simp only [hval]
  rw [if_neg (by omega)]
  split_ifs
  all_goals refine ⟨_, _, rfl, ?_, by simp, by simp, ?_⟩
  · exact (leadingOnes_range _ (UInt8.toNat_lt _)).1 (by rw [UInt8.toNat_ofNat']; omega)
  · simp only [List.forall_mem_cons, UInt8.toNat_ofNat', List.not_mem_nil, false_imp_iff, implies_true, and_true]
    omega
  · exact (leadingOnes_range _ (UInt8.toNat_lt _)).2.1 (by rw [UInt8.toNat_ofNat']; omega)
  · simp only [List.forall_mem_cons, UInt8.toNat_ofNat', List.not_mem_nil, false_imp_iff, implies_true, and_true]
    omega
  · exact (leadingOnes_range _ (UInt8.toNat_lt _)).2.2 (by rw [UInt8.toNat_ofNat']; omega)
  · simp only [List.forall_mem_cons, UInt8.toNat_ofNat', List.not_mem_nil, false_imp_iff, implies_true, and_true]
    omega

theorem utf8_ascii {c : Char} (h : c.toNat < 0x80) : String.utf8EncodeChar c = [UInt8.ofNat c.toNat] :=
  if_pos (show c.toNat ≤ 127 by omega)

theorem octetsAt_percentOctet (octets : List UInt8) (rest : List ℕ) :
    octetsAt octets.length ((octets.flatMap fun octet => percentOctet octet.toNat) ++ rest) = some octets := by
  induction octets with
  | nil => rfl
  | cons octet octets ih =>
    simp only [List.flatMap_cons, percentOctet, List.cons_append, List.nil_append, List.length_cons, octetsAt, if_true,
      hexByte_upperHex octet.toNat_lt, List.drop_succ_cons, List.drop_zero] at ih ⊢
    simp [ih]

theorem uriDecode_escapeChar (preserved : List UInt8) {c : Char} (h : 0x80 ≤ c.toNat) (rest : List ℕ) :
    uriDecode preserved (escapeChar c ++ rest) = (Char.utf16 c ++ ·) <$> uriDecode preserved rest := by
  obtain ⟨first, others, hoctets, hcount, hone, hthree, hhigh⟩ := utf8_shape h
  have hfirst := hhigh first List.mem_cons_self
  have hrest : ((others.flatMap fun octet => percentOctet octet.toNat) ++ rest).drop (3 * others.length) = rest := by
    have hlength : (others.flatMap fun octet => percentOctet octet.toNat).length = 3 * others.length := by
      simp [List.length_flatMap, percentOctet, Nat.mul_comm]
    rw [← hlength, List.drop_left]
  have hutf8 : fromUtf8 (first :: others) = some [c] := fromUtf8_eq_some.2 (by simp [hoctets])
  have hescape : escapeAt preserved (upperHex (first.toNat / 16) :: upperHex (first.toNat % 16) ::
      ((others.flatMap fun octet => percentOctet octet.toNat) ++ rest)) = some (Char.utf16 c, 2 + 3 * others.length) := by
    simp only [escapeAt, hexByte_upperHex first.toNat_lt, Option.bind_eq_bind, Option.bind_some, hcount,
      List.drop_succ_cons, List.drop_zero, Nat.add_sub_cancel, octetsAt_percentOctet]
    rw [if_neg (by omega), if_neg (by omega)]
    simp [hutf8]
  rw [escapeChar, hoctets, List.flatMap_cons, List.append_assoc, percentOctet_append, uriDecode, if_pos rfl, hescape, Nat.add_comm]
  simp only [List.drop_succ_cons, hrest]

theorem uriDecode_ascii {preserved : List UInt8} {octet : ℕ} (h : octet < 0x80)
    (hpreserved : octet ∉ preserved.map UInt8.toNat) (rest : List ℕ) : uriDecode preserved (percentOctet octet ++ rest) = (octet :: ·) <$> uriDecode preserved rest := by
  have hescape : escapeAt preserved (upperHex (octet / 16) :: upperHex (octet % 16) :: rest) = some ([octet], 2) := by
    simp only [escapeAt, hexByte_upperHex (show octet < 256 by omega), Option.bind_eq_bind, Option.bind_some, if_pos h,
      if_neg hpreserved]
    rfl
  rw [percentOctet_append, uriDecode, if_pos rfl, hescape]
  rfl

theorem uriDecode_copied (preserved : List UInt8) {unit : ℕ} (h : unit ≠ percent) (rest : List ℕ) :
    uriDecode preserved (unit :: rest) = (unit :: ·) <$> uriDecode preserved rest := by
  rw [uriDecode, if_neg h]

/-! ## `encodeURI` -/

theorem isUnreserved_ne {unit : ℕ} (h : isUnreserved unit = true) : unit ≠ percent := by
  rintro rfl
  revert h
  decide

theorem isUnreserved_lt {unit : ℕ} (h : isUnreserved unit = true) : unit < 0x80 := by
  simp only [isUnreserved, isAlphanumeric, Bool.or_eq_true, Bool.and_eq_true, decide_eq_true_eq] at h
  rcases h with h | h
  · omega
  · exact (show ∀ unit ∈ unitsOf "-_.!~*'()", unit < 0x80 by decide +kernel) unit h

theorem toNat_of_fromU32 {code : ℕ} {c : Char} (h : fromU32 code = some c) : c.toNat = code := by
  unfold fromU32 at h
  split_ifs at h with hvalid
  rw [← Option.some.inj h, Char.ofNat, dif_pos hvalid]
  rfl

theorem paired_plain {unit : ℕ} (hlead : isLead unit = false) (htrail : isTrail unit = false) (rest : List ℕ) :
    paired (unit :: rest) = paired rest := by
  cases rest <;> simp [paired, hlead, htrail]

/-- the units of the character at the front, or an unpaired surrogate there -/
theorem fromU32_codePointAt {unit : ℕ} {rest : List ℕ} (hunit : unit < 0x10000) (hrest : ∀ other ∈ rest, other < 0x10000) :
    (∃ c, fromU32 (codePointAt unit rest) = some c ∧
      unit :: rest = Char.utf16 c ++ rest.drop ((Char.utf16 c).length - 1) ∧
      paired (unit :: rest) = paired (rest.drop ((Char.utf16 c).length - 1))) ∨
    fromU32 (codePointAt unit rest) = none ∧ paired (unit :: rest) = false := by
  have halone (h : codePointAt unit rest = unit) (hpaired : (isLead unit || isTrail unit) = true → paired (unit :: rest) = false) :
      (∃ c, fromU32 (codePointAt unit rest) = some c ∧
        unit :: rest = Char.utf16 c ++ rest.drop ((Char.utf16 c).length - 1) ∧
        paired (unit :: rest) = paired (rest.drop ((Char.utf16 c).length - 1))) ∨
      fromU32 (codePointAt unit rest) = none ∧ paired (unit :: rest) = false := by
    rw [h]
    by_cases hsurrogate : (isLead unit || isTrail unit) = true
    · refine .inr ⟨if_neg ?_, hpaired hsurrogate⟩
      simp only [isLead, isTrail, Bool.or_eq_true, Bool.and_eq_true, decide_eq_true_eq] at hsurrogate
      unfold Nat.isValidChar
      omega
    · simp only [Bool.or_eq_true, not_or, Bool.not_eq_true] at hsurrogate
      have hvalid : unit.isValidChar := by
        simp only [isLead, isTrail, Bool.and_eq_false_iff, decide_eq_false_iff_not] at hsurrogate
        unfold Nat.isValidChar
        omega
      have hc : fromU32 unit = some (Char.ofNat unit) := if_pos hvalid
      have hutf16 : Char.utf16 (Char.ofNat unit) = [unit] := by
        rw [Char.utf16, toNat_of_fromU32 hc, if_pos hunit]
      exact .inl ⟨_, hc, by simp [hutf16], by simp [hutf16, paired_plain hsurrogate.1 hsurrogate.2]⟩
  cases rest with
  | nil =>
    exact halone rfl fun h => by
      simp only [Bool.or_eq_true] at h
      rcases h with h | h <;> simp [paired, h]
  | cons trailing more =>
    by_cases hpair : (isLead unit && isTrail trailing) = true
    · have hcode : codePointAt unit (trailing :: more) = 0x10000 + (unit - 0xD800) * 0x400 + (trailing - 0xDC00) :=
        if_pos hpair
      have hrange := hpair
      simp only [isLead, isTrail, Bool.and_eq_true, decide_eq_true_eq] at hrange
      have hvalid : (codePointAt unit (trailing :: more)).isValidChar := by
        rw [hcode]
        unfold Nat.isValidChar
        omega
      have hc : fromU32 (codePointAt unit (trailing :: more)) = some (Char.ofNat _) := if_pos hvalid
      have hutf16 : Char.utf16 (Char.ofNat (codePointAt unit (trailing :: more))) = [unit, trailing] := by
        rw [Char.utf16, toNat_of_fromU32 hc, hcode, if_neg (by omega)]
        simp only [List.cons.injEq, and_true]
        omega
      refine .inl ⟨_, hc, by simp [hutf16], ?_⟩
      rw [hutf16, paired, if_pos hpair]
      rfl
    · exact halone (if_neg hpair) fun h => by
        simp only [Bool.or_eq_true] at h
        rw [paired, if_neg hpair]
        rcases h with h | h <;> simp [h]

/-- `encodeURI` succeeds on the strings without an unpaired surrogate -/
theorem uriEncode_isSome (extra : List UInt8) (units : List ℕ) (h : ∀ unit ∈ units, unit < 0x10000) :
    (uriEncode extra units).isSome ↔ paired units := by
  fun_induction uriEncode extra units with
  | case1 => simp [paired]
  | case2 unit rest hplain ih =>
    rw [List.forall_mem_cons] at h
    have hsmall : unit < 256 := by
      rcases Bool.or_eq_true_iff.1 hplain with hreserved | hextra
      · exact (isUnreserved_lt hreserved).trans (by decide)
      · obtain ⟨octet, -, rfl⟩ := List.mem_map.1 (of_decide_eq_true hextra)
        exact octet.toNat_lt
    rw [paired_plain (by simp [isLead]; omega) (by simp [isTrail]; omega), ← ih h.2]
    cases uriEncode extra rest <;> rfl
  | case3 unit rest hplain hnone =>
    rw [List.forall_mem_cons] at h
    obtain ⟨c, hc, -⟩ | ⟨-, hpaired⟩ := fromU32_codePointAt h.1 h.2
    · rw [hnone] at hc
      cases hc
    · simp [hpaired]
  | case4 unit rest hplain c hc ih =>
    rw [List.forall_mem_cons] at h
    obtain ⟨d, hd, -, hpaired⟩ | ⟨hnone, -⟩ := fromU32_codePointAt h.1 h.2
    · obtain rfl := Option.some.inj (hc.symm.trans hd)
      rw [hpaired, ← ih fun other hother => h.2 other (List.mem_of_mem_drop hother)]
      cases uriEncode extra (rest.drop ((Char.utf16 c).length - 1)) <;> rfl
    · rw [hnone] at hc
      cases hc

/-- what `encodeURI` leaves as it is stays, and what it escapes comes back -/
theorem uriDecode_uriEncode {extra preserved : List UInt8} (hpercent : 0x25 ∉ extra) (hsub : preserved ⊆ extra)
    (units text : List ℕ) (h : ∀ unit ∈ units, unit < 0x10000) (htext : uriEncode extra units = some text) :
    uriDecode preserved text = some units := by
  fun_induction uriEncode extra units generalizing text with
  | case1 =>
    cases htext
    rw [uriDecode]
  | case2 unit rest hplain ih =>
    rw [List.forall_mem_cons] at h
    obtain ⟨later, hlater, rfl⟩ := Option.map_eq_some_iff.1 htext
    have hne : unit ≠ percent := by
      rcases Bool.or_eq_true_iff.1 hplain with hreserved | hextra
      · exact isUnreserved_ne hreserved
      · rintro rfl
        obtain ⟨octet, hoctet, heq⟩ := List.mem_map.1 (of_decide_eq_true hextra)
        rw [show octet = 0x25 from UInt8.toNat_inj.1 heq] at hoctet
        exact hpercent hoctet
    rw [uriDecode_copied preserved hne, ih later h.2 hlater]
    rfl
  | case3 unit rest hplain hnone => cases htext
  | case4 unit rest hplain c hc ih =>
    rw [List.forall_mem_cons] at h
    obtain ⟨later, hlater, rfl⟩ := Option.map_eq_some_iff.1 htext
    obtain ⟨d, hd, hunits, -⟩ | ⟨hnone, -⟩ := fromU32_codePointAt h.1 h.2
    · obtain rfl := Option.some.inj (hc.symm.trans hd)
      have hdecode := ih later (fun other hother => h.2 other (List.mem_of_mem_drop hother)) hlater
      by_cases hhigh : 0x80 ≤ c.toNat
      · rw [uriDecode_escapeChar preserved hhigh, hdecode, hunits]
        rfl
      · have hlow : c.toNat < 0x80 := by omega
        have hutf16 : Char.utf16 c = [c.toNat] := if_pos (by omega)
        have hunit : unit = c.toNat := by
          rw [hutf16] at hunits
          exact (List.cons.inj hunits).1
        have hpreserved : c.toNat ∉ preserved.map UInt8.toNat := fun hmem => by
          obtain ⟨octet, hoctet, heq⟩ := List.mem_map.1 hmem
          refine hplain (Bool.or_eq_true_iff.2 (.inr (decide_eq_true ?_)))
          exact List.mem_map.2 ⟨octet, hsub hoctet, heq.trans hunit.symm⟩
        have hescape : escapeChar c = percentOctet c.toNat := by
          simp [escapeChar, utf8_ascii hlow, Nat.mod_eq_of_lt (show c.toNat < 256 by omega)]
        rw [hescape, uriDecode_ascii hlow hpreserved, hdecode, hunits, hutf16]
        rfl
    · rw [hnone] at hc
      cases hc

/-! ## What `decodeURI` accepts -/

/-- a text of escapes, and the octets they name -/
inductive Spelled : List ℕ → List UInt8 → Prop
  | nil : Spelled [] []
  | cons {high low octet : ℕ} {text : List ℕ} {octets : List UInt8} (h : hexByte [high, low] = some octet)
      (later : Spelled text octets) : Spelled (percent :: high :: low :: text) (UInt8.ofNat octet :: octets)

theorem Spelled.append {text more : List ℕ} {octets later : List UInt8} (h : Spelled text octets)
    (hmore : Spelled more later) : Spelled (text ++ more) (octets ++ later) := by
  induction h with
  | nil => exact hmore
  | cons h _ ih => exact .cons h ih

/-- a unit that is copied, the escape of one ASCII unit, or a run of escapes of octets from 0x80 on -/
inductive Segment
  | copied (unit : ℕ)
  | ascii (text : List ℕ) (unit : ℕ)
  | run (text : List ℕ) (scalars : List Char)

namespace Segment

def source : Segment → List ℕ
  | .copied unit => [unit]
  | .ascii text _ => text
  | .run text _ => text

def value : Segment → List ℕ
  | .copied unit => [unit]
  | .ascii _ unit => [unit]
  | .run _ scalars => scalars.flatMap Char.utf16

/-- a run is the UTF-8 form of its scalar values, which is the shortest -/
def Valid : Segment → Prop
  | .copied unit => unit ≠ percent
  | .ascii text unit => unit < 0x80 ∧ Spelled text [UInt8.ofNat unit]
  | .run text scalars => scalars ≠ [] ∧ Spelled text (scalars.flatMap String.utf8EncodeChar) ∧
      ∀ octet ∈ scalars.flatMap String.utf8EncodeChar, 0x80 ≤ octet.toNat

def isRun : Segment → Bool
  | .run .. => true
  | _ => false

/-- one more character before the segments, in the run at their front if there is one -/
def consRun (text : List ℕ) (c : Char) : List Segment → List Segment
  | .run more scalars :: rest => .run (text ++ more) (c :: scalars) :: rest
  | segments => .run text [c] :: segments

end Segment

/-- the segments of a text; no two runs are neighbours, so a run ends where its escapes do -/
structure Segmented (segments : List Segment) (text output : List ℕ) : Prop where
  valid : ∀ segment ∈ segments, segment.Valid
  source : text = segments.flatMap Segment.source
  value : output = segments.flatMap Segment.value
  apart : segments.IsChain fun a b => ¬(a.isRun ∧ b.isRun)

theorem hexNibble_lt {unit digit : ℕ} (h : hexNibble unit = some digit) : digit < 16 := by
  unfold hexNibble at h
  grind

theorem hexByte_cases {rest : List ℕ} {octet : ℕ} (h : hexByte rest = some octet) :
    octet < 256 ∧ ∃ high low more, rest = high :: low :: more ∧ hexByte [high, low] = some octet := by
  match rest with
  | [] | [_] => cases h
  | high :: low :: more =>
    refine ⟨?_, high, low, more, rfl, h⟩
    simp only [hexByte, Option.bind_eq_bind, Option.bind_eq_some_iff] at h
    obtain ⟨first, hfirst, second, hsecond, heq⟩ := h
    have := hexNibble_lt hfirst
    have := hexNibble_lt hsecond
    rw [← Option.some.inj heq]
    omega

theorem octetsAt_escapes {count : ℕ} {rest : List ℕ} {octets : List UInt8} (h : octetsAt count rest = some octets) :
    octets.length = count ∧ Spelled (rest.take (3 * count)) octets := by
  induction count generalizing rest octets with
  | zero =>
    cases h
    exact ⟨rfl, .nil⟩
  | succ count ih =>
    cases rest with
    | nil => cases h
    | cons unit rest =>
      unfold octetsAt at h
      split_ifs at h with hpercent
      obtain ⟨octet, hoctet, h⟩ := Option.bind_eq_some_iff.1 h
      obtain ⟨later, hlater, h⟩ := Option.bind_eq_some_iff.1 h
      obtain rfl := Option.some.inj h
      obtain ⟨-, high, low, more, rfl, hbyte⟩ := hexByte_cases hoctet
      obtain ⟨hlength, hspelled⟩ := ih hlater
      exact ⟨congrArg (· + 1) hlength, hpercent ▸ .cons hbyte hspelled⟩

/-- an escape is that of an ASCII unit, or it begins those of one character -/
theorem escapeAt_cases {rest output : List ℕ} {used : ℕ} (h : escapeAt [] rest = some (output, used)) :
    (∃ unit < 0x80, Spelled (percent :: rest.take used) [UInt8.ofNat unit] ∧ output = [unit]) ∨
    ∃ c : Char, 0x80 ≤ c.toNat ∧ Spelled (percent :: rest.take used) (String.utf8EncodeChar c) ∧ output = Char.utf16 c := by
  obtain ⟨first, hfirst, h⟩ := Option.bind_eq_some_iff.1 h
  obtain ⟨hsmall, high, low, more, rfl, hbyte⟩ := hexByte_cases hfirst
  by_cases hlow : first < 0x80
  · rw [if_pos hlow] at h
    obtain ⟨rfl, rfl⟩ := Prod.mk.inj (Option.some.inj h)
    exact .inl ⟨first, hlow, .cons hbyte .nil, rfl⟩
  · rw [if_neg hlow] at h
    simp only at h
    split_ifs at h with hcount
    · cases h
    obtain ⟨octets, hoctets, h⟩ := Option.bind_eq_some_iff.1 h
    obtain ⟨decoded, hdecoded, h⟩ := Option.bind_eq_some_iff.1 h
    obtain ⟨rfl, rfl⟩ := Prod.mk.inj (Option.some.inj h)
    obtain ⟨hlength, hspelled⟩ := octetsAt_escapes hoctets
    rw [fromUtf8_eq_some] at hdecoded
    have hnat : (UInt8.ofNat first).toNat = first := by rw [UInt8.toNat_ofNat', Nat.mod_eq_of_lt hsmall]
    cases decoded with
    | nil => cases hdecoded
    | cons c later =>
      rw [List.flatMap_cons] at hdecoded
      have hhigh : 0x80 ≤ c.toNat := by
        by_contra hascii
        rw [utf8_ascii (not_le.1 hascii)] at hdecoded
        have := congrArg UInt8.toNat (List.cons.inj hdecoded).1
        rw [hnat, UInt8.toNat_ofNat'] at this
        omega
      obtain ⟨lead, others, hutf8, hones, -, -, -⟩ := utf8_shape hhigh
      rw [hutf8, List.cons_append] at hdecoded
      obtain ⟨hlead, hoctets⟩ := List.cons.inj hdecoded
      -- the first octet counts those of the first character, so there is no other
      have hnone : later = [] := by
        have hcounts := congrArg List.length hoctets
        rw [hlength, ← hnat, hlead, hones, List.length_append] at hcounts
        by_contra hne
        obtain ⟨other, more, rfl⟩ := List.exists_cons_of_ne_nil hne
        have hpos := other.utf8Size_pos
        simp at hcounts
        omega
      subst hnone
      refine .inr ⟨c, hhigh, ?_, by simp⟩
      rw [List.flatMap_nil, List.append_nil] at hoctets
      rw [hutf8, ← hlead, ← hoctets, Nat.add_comm]
      exact .cons hbyte hspelled

theorem Segmented.cons {segments : List Segment} {text output : List ℕ} (h : Segmented segments text output)
    {segment : Segment} (hvalid : segment.Valid) (hrun : segment.isRun = false) :
    Segmented (segment :: segments) (segment.source ++ text) (segment.value ++ output) where
  valid := List.forall_mem_cons.2 ⟨hvalid, h.valid⟩
  source := by rw [List.flatMap_cons, h.source]
  value := by rw [List.flatMap_cons, h.value]
  apart := List.isChain_cons.2 ⟨fun _ _ hboth => by simp [hrun] at hboth, h.apart⟩

theorem Segmented.consRun {segments : List Segment} {text output : List ℕ} (h : Segmented segments text output)
    {c : Char} {escapes : List ℕ} (hhigh : 0x80 ≤ c.toNat) (hescapes : Spelled escapes (String.utf8EncodeChar c)) :
    Segmented (Segment.consRun escapes c segments) (escapes ++ text) (Char.utf16 c ++ output) := by
  obtain ⟨first, others, hutf8, -, -, -, hoctets⟩ := utf8_shape hhigh
  rw [← hutf8] at hoctets
  have hvalid : ∀ {more : List ℕ} {scalars : List Char}, Spelled more (scalars.flatMap String.utf8EncodeChar) →
      (∀ octet ∈ scalars.flatMap String.utf8EncodeChar, 0x80 ≤ octet.toNat) →
      (Segment.run (escapes ++ more) (c :: scalars)).Valid := fun hmore hall => by
    refine ⟨by simp, ?_, ?_⟩
    · rw [List.flatMap_cons]
      exact hescapes.append hmore
    · rw [List.flatMap_cons]
      exact fun octet hoctet => (List.mem_append.1 hoctet).elim (hoctets octet) (hall octet)
  have halone (hhead : ∀ segment ∈ segments.head?, segment.isRun = false) :
      Segmented (.run escapes [c] :: segments) (escapes ++ text) (Char.utf16 c ++ output) := by
    have hone := @hvalid [] [] .nil (by simp)
    rw [List.append_nil] at hone
    refine ⟨List.forall_mem_cons.2 ⟨hone, h.valid⟩, ?_, ?_, List.isChain_cons.2 ⟨fun segment hsegment hboth => ?_, h.apart⟩⟩
    · rw [List.flatMap_cons, ← h.source]
      rfl
    · rw [List.flatMap_cons, ← h.value]
      simp [Segment.value]
    · simp [hhead segment hsegment] at hboth
  cases segments with
  | nil => exact halone (by simp)
  | cons segment rest =>
    cases segment with
    | copied unit => exact halone (by simp [Segment.isRun])
    | ascii more unit => exact halone (by simp [Segment.isRun])
    | run more scalars =>
      obtain ⟨⟨-, hmore, hall⟩, hrest⟩ := List.forall_mem_cons.1 h.valid
      refine ⟨List.forall_mem_cons.2 ⟨hvalid hmore hall, hrest⟩, ?_, ?_, ?_⟩
      · rw [h.source]
        simp [Segment.consRun, Segment.source]
      · rw [h.value]
        simp [Segment.consRun, Segment.value]
      · have happart := List.isChain_cons.1 h.apart
        exact List.isChain_cons.2 ⟨fun other hother => happart.1 other hother, happart.2⟩

theorem uriDecode_segmented (text output : List ℕ) (h : uriDecode [] text = some output) :
    ∃ segments, Segmented segments text output := by
  fun_induction uriDecode [] text generalizing output with
  | case1 =>
    cases h
    exact ⟨[], by simp, rfl, rfl, List.isChain_nil⟩
  | case2 => cases h
  | case3 rest decoded used hescape ih =>
    obtain ⟨later, hlater, rfl⟩ := Option.map_eq_some_iff.1 h
    obtain ⟨segments, hsegments⟩ := ih later hlater
    have htext : percent :: rest = percent :: rest.take used ++ rest.drop used := by simp
    rw [htext]
    obtain ⟨unit, hlow, hspelled, rfl⟩ | ⟨c, hhigh, hspelled, rfl⟩ := escapeAt_cases hescape
    · exact ⟨_, hsegments.cons (show (Segment.ascii _ unit).Valid from ⟨hlow, hspelled⟩) rfl⟩
    · exact ⟨_, hsegments.consRun hhigh hspelled⟩
  | case4 unit rest hne ih =>
    obtain ⟨later, hlater, rfl⟩ := Option.map_eq_some_iff.1 h
    obtain ⟨segments, hsegments⟩ := ih later hlater
    exact ⟨_, hsegments.cons (show (Segment.copied unit).Valid from hne) rfl⟩

/-- `";/?:@&=+$,#"` -/
def reserved : List UInt8 := ";/?:@&=+$,#".toList.map fun c => UInt8.ofNat c.toNat

theorem escapes_round :
    (∀ units, (∀ unit ∈ units, unit < 0x10000) → jsUnescape (jsEscape units) = units) ∧
      (∀ extra units, (∀ unit ∈ units, unit < 0x10000) → ((uriEncode extra units).isSome ↔ paired units)) ∧
      (∀ extra preserved units text, (∀ unit ∈ units, unit < 0x10000) → 0x25 ∉ extra → preserved ⊆ extra →
        uriEncode extra units = some text → uriDecode preserved text = some units) ∧
      ∀ text output, uriDecode [] text = some output → ∃ segments, Segmented segments text output :=
  ⟨fun _ => jsUnescape_jsEscape, uriEncode_isSome, fun _ _ units text h hpercent hsub =>
    uriDecode_uriEncode hpercent hsub units text h, uriDecode_segmented⟩

/-- a sign of percentage is escaped, and a reserved character is not -/
theorem escapes_round_reserved : uriDecode reserved [0x25, 0x32, 0x35, 0x2F] = some [0x25, 0x2F] := by
  have hreserved : isUnreserved 0x25 = false ∧ isUnreserved 0x2F = false ∧ 0x25 ∉ reserved ∧
      0x25 ∉ reserved.map UInt8.toNat ∧ 0x2F ∈ reserved.map UInt8.toNat := by decide
  have hfront : fromU32 (codePointAt 0x25 [0x2F]) = some '%' ∧ (Char.utf16 '%').length - 1 = 0 ∧
      escapeChar '%' = [0x25, 0x32, 0x35] := by decide
  have hencode : uriEncode reserved [0x25, 0x2F] = some [0x25, 0x32, 0x35, 0x2F] := by
    simp [uriEncode, hreserved, hfront]
  exact escapes_round.2.2.1 reserved reserved [0x25, 0x2F] _ (by decide) hreserved.2.2.1 (List.Subset.refl _) hencode

end Render.Js.Escapes
