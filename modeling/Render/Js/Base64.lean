/-
`btoa` and `atob` (`render-js/src/runtime/builtins/global_fns.rs`).

`base64Decode` counts octets in fours and takes every group of four by itself, so padding is looked at in each group and
nowhere else. The algorithm it follows looks at the end of the whole text once: it takes up to two '=' off there, when the
length is a multiple of four, and asks the rest to be letters. `Shaped` says which texts the groups accept.
-/
import Mathlib.Tactic

namespace Render.Js.Base64

/-- the `TABLE` of `base64_encode` -/
def table : List Char := "ABCDEFGHIJKLMNOPQRSTUVWXYZabcdefghijklmnopqrstuvwxyz0123456789+/".toList

def letter (index : ℕ) : Char := table.getD index '='

/-- the four letters of a chunk; of its second and third octet there may be none -/
def encodeChunk (first : UInt8) (second third : Option UInt8) : List Char :=
  let a := first.toNat
  let b := (second.getD 0).toNat
  let c := (third.getD 0).toNat
  [letter (a / 4), letter (a % 4 * 16 + b / 16),
    if second.isSome then letter (b % 16 * 4 + c / 64) else '=',
    if third.isSome then letter (c % 64) else '=']

/-- `base64_encode` -/
def base64Encode : List UInt8 → List Char
  | [] => []
  | [first] => encodeChunk first none none
  | [first, second] => encodeChunk first (some second) none
  | first :: second :: third :: rest => encodeChunk first (some second) (some third) ++ base64Encode rest

/-- `btoa`: a unit above 0xFF is refused -/
def btoa (units : List ℕ) : Option (List Char) :=
  if ∀ unit ∈ units, unit < 256 then some (base64Encode (units.map UInt8.ofNat)) else none

/-- the `value` of `base64_decode` -/
def sextet (character : UInt8) : Option ℕ :=
  let code := character.toNat
  if 65 ≤ code ∧ code ≤ 90 then some (code - 65)
  else if 97 ≤ code ∧ code ≤ 122 then some (code - 97 + 26)
  else if 48 ≤ code ∧ code ≤ 57 then some (code - 48 + 52)
  else if code = 43 then some 62
  else if code = 47 then some 63
  else none

/-- '=' -/
def pad : UInt8 := 61

/-- the octets of one group of four -/
def decodeChunk (a b c d : UInt8) : Option (List UInt8) := do
  let first ← sextet a
  let second ← sextet b
  let one := UInt8.ofNat (first * 4 + second / 16)
  if c = pad then return [one]
  let third ← sextet c
  let two := UInt8.ofNat (second * 16 + third / 4)
  if d = pad then return [one, two]
  let fourth ← sextet d
  return [one, two, UInt8.ofNat (third * 64 + fourth)]

def decodeChunks : List UInt8 → Option (List UInt8)
  | a :: b :: c :: d :: rest => do
    let decoded ← decodeChunk a b c d
    return decoded ++ (← decodeChunks rest)
  | _ => some []

/-- `char::is_ascii_whitespace` -/
def isAsciiWhitespace (c : Char) : Bool := c = ' ' || c = '\t' || c = '\n' || c = '\x0c' || c = '\r'

def compact (text : List Char) : List Char := text.filter fun c => !isAsciiWhitespace c

/-- the UTF-8 octets of a text -/
def octets (text : List Char) : List UInt8 := text.flatMap String.utf8EncodeChar

/-- `base64_decode` -/
def base64Decode (text : List Char) : Option (List UInt8) :=
  let bytes := octets (compact text)
  if bytes.length % 4 ≠ 0 then none else decodeChunks bytes

/-! ## The algorithm -/

/-- the octets that sextets spell: 24 bits, or 18 or 12 with the last two or four dropped -/
def spell : List ℕ → List UInt8
  | a :: b :: c :: d :: rest =>
    let buffer := ((a * 64 + b) * 64 + c) * 64 + d
    UInt8.ofNat (buffer / 65536) :: UInt8.ofNat (buffer / 256) :: UInt8.ofNat buffer :: spell rest
  | [a, b, c] =>
    let buffer := (a * 64 + b) * 64 + c
    [UInt8.ofNat (buffer / 1024), UInt8.ofNat (buffer / 4)]
  | [a, b] => [UInt8.ofNat ((a * 64 + b) / 16)]
  | _ => []

def dropPad (text : List Char) : List Char := if text.getLast? = some '=' then text.dropLast else text

/-- forgiving-base64 decode -/
def forgivingDecode (text : List Char) : Option (List UInt8) :=
  let data := compact text
  let data := if data.length % 4 = 0 then dropPad (dropPad data) else data
  if data.length % 4 = 1 then none else (data.mapM table.idxOf?).map spell

/-! ## What the groups accept -/

/-- two letters, and two more or padding, or anything behind padding -/
def ShapedChunk (a b c d : UInt8) : Prop :=
  (sextet a).isSome ∧ (sextet b).isSome ∧ (c = pad ∨ (sextet c).isSome ∧ (d = pad ∨ (sextet d).isSome))

def Shaped : List UInt8 → Prop
  | a :: b :: c :: d :: rest => ShapedChunk a b c d ∧ Shaped rest
  | _ => True

theorem decodeChunk_isSome (a b c d : UInt8) : (decodeChunk a b c d).isSome ↔ ShapedChunk a b c d := by
  simp only [decodeChunk, ShapedChunk]
  cases sextet a <;> cases sextet b <;> cases sextet c <;> cases sextet d <;> simp <;> split_ifs <;> simp [*]

theorem decodeChunks_isSome (bytes : List UInt8) : (decodeChunks bytes).isSome ↔ Shaped bytes := by
  fun_induction decodeChunks bytes with
  | case1 a b c d rest ih =>
    rw [Shaped, ← ih, ← decodeChunk_isSome]
    cases decodeChunk a b c d <;> cases decodeChunks rest <;> simp
  | case2 bytes h =>
    rw [Shaped]
    · simp
    · exact h

/-! ## Characters outside ASCII -/

def byteOf (c : Char) : UInt8 := UInt8.ofNat c.toNat

/-- no two neighbours are octets of a character outside ASCII -/
def Sparse : List UInt8 → Prop := List.IsChain fun a b => a.toNat < 128 ∨ b.toNat < 128

theorem sextet_lt {octet : UInt8} (h : (sextet octet).isSome) : octet.toNat < 128 := by
  unfold sextet at h
  grind

theorem pad_lt : pad.toNat < 128 := by decide

theorem sparse_of_shaped (bytes : List UInt8) (h : Shaped bytes) (hlength : bytes.length % 4 = 0) (octet : UInt8) :
    Sparse (octet :: bytes) := by
  fun_induction Shaped bytes generalizing octet with
  | case1 a b c d rest ih =>
    obtain ⟨⟨ha, hb, hc⟩, hrest⟩ := h
    have hlow : c.toNat < 128 := by
      rcases hc with rfl | ⟨hc, -⟩
      · exact pad_lt
      · exact sextet_lt hc
    have hlater := ih hrest (by simpa [Nat.add_assoc] using hlength) d
    simp only [Sparse, List.isChain_cons_cons]
    exact ⟨.inr (sextet_lt ha), .inl (sextet_lt ha), .inl (sextet_lt hb), .inl hlow, hlater⟩
  | case2 bytes hshort =>
    match bytes with
    | [] => exact List.isChain_singleton _
    | [_] | [_, _] | [_, _, _] => simp at hlength
    | a :: b :: c :: d :: rest => exact absurd rfl (hshort a b c d rest)

theorem not_sparse {c : Char} (h : 128 ≤ c.toNat) : ¬Sparse (String.utf8EncodeChar c) := by
  have hval : c.val.toNat = c.toNat := rfl
  unfold String.utf8EncodeChar Sparse
  simp only [hval]
  rw [if_neg (by omega)]
  split_ifs <;> simp only [List.isChain_cons_cons, UInt8.toNat_ofNat'] <;> omega

theorem ascii_of_sparse {text : List Char} (h : Sparse (octets text)) : ∀ c ∈ text, c.toNat < 128 := by
  induction text with
  | nil => simp
  | cons c rest ih =>
    rw [octets, List.flatMap_cons, Sparse, List.isChain_append] at h
    refine List.forall_mem_cons.2 ⟨?_, ih h.2.1⟩
    by_contra hlarge
    exact not_sparse (not_lt.1 hlarge) h.1

theorem octets_ascii {text : List Char} (h : ∀ c ∈ text, c.toNat < 128) : octets text = text.map byteOf := by
  induction text with
  | nil => rfl
  | cons c rest ih =>
    rw [List.forall_mem_cons] at h
    have hc : String.utf8EncodeChar c = [byteOf c] := if_pos (show c.toNat ≤ 127 by omega)
    rw [octets, List.flatMap_cons, hc, List.map_cons, ← ih h.2]
    rfl

/-! ## Letters -/

set_option maxRecDepth 10000 in
theorem letter_facts : ∀ index < 64, sextet (byteOf (letter index)) = some index ∧
    isAsciiWhitespace (letter index) = false ∧ (letter index).toNat < 128 ∧ byteOf (letter index) ≠ pad := by
  decide

set_option maxRecDepth 10000 in
theorem table_sextet : ∀ code < 128, table.idxOf? (Char.ofNat code) = sextet (UInt8.ofNat code) := by decide

theorem table_ascii {c : Char} (h : c ∈ table) : c.toNat < 128 := by
  obtain ⟨index, hindex, rfl⟩ := List.mem_iff_getElem.1 h
  have hfacts := letter_facts index (hindex.trans_eq (show table.length = 64 by decide))
  rw [letter, List.getD_eq_getElem?_getD, List.getElem?_eq_getElem hindex, Option.getD_some] at hfacts
  exact hfacts.2.2.1

theorem sextet_byteOf {c : Char} (h : c.toNat < 128) : sextet (byteOf c) = table.idxOf? c := by
  rw [byteOf, ← table_sextet _ h, Char.ofNat_toNat]

theorem sextet_bound {octet : UInt8} {value : ℕ} (h : sextet octet = some value) : value < 64 ∧ octet ≠ pad := by
  constructor
  · unfold sextet at h
    grind
  · rintro rfl
    rw [show sextet pad = none by decide] at h
    cases h

theorem decodeChunk_four {a b c d : UInt8} {first second third fourth : ℕ} (ha : sextet a = some first)
    (hb : sextet b = some second) (hc : sextet c = some third) (hd : sextet d = some fourth) :
    decodeChunk a b c d = some (spell [first, second, third, fourth]) := by
  have hbounds := (sextet_bound ha).1
  have hsecond := (sextet_bound hb).1
  have hthird := (sextet_bound hc).1
  have hfourth := (sextet_bound hd).1
  simp only [decodeChunk, ha, hb, hc, hd, Option.bind_eq_bind, Option.bind_some, if_neg (sextet_bound hc).2,
    if_neg (sextet_bound hd).2, spell]
  refine congrArg some ?_
  simp only [List.cons.injEq, and_true, ← UInt8.toNat_inj, UInt8.toNat_ofNat']
  omega

theorem decodeChunk_three {a b c : UInt8} {first second third : ℕ} (ha : sextet a = some first)
    (hb : sextet b = some second) (hc : sextet c = some third) :
    decodeChunk a b c pad = some (spell [first, second, third]) := by
  have hbounds := (sextet_bound ha).1
  have hsecond := (sextet_bound hb).1
  have hthird := (sextet_bound hc).1
  simp only [decodeChunk, ha, hb, hc, Option.bind_eq_bind, Option.bind_some, if_neg (sextet_bound hc).2, if_true, spell]
  refine congrArg some ?_
  simp only [List.cons.injEq, and_true, ← UInt8.toNat_inj, UInt8.toNat_ofNat']
  omega

theorem decodeChunk_two {a b d : UInt8} {first second : ℕ} (ha : sextet a = some first) (hb : sextet b = some second) :
    decodeChunk a b pad d = some (spell [first, second]) := by
  have hbounds := (sextet_bound ha).1
  have hsecond := (sextet_bound hb).1
  simp only [decodeChunk, ha, hb, Option.bind_eq_bind, Option.bind_some, if_true, spell]
  refine congrArg some ?_
  simp only [List.cons.injEq, and_true, ← UInt8.toNat_inj, UInt8.toNat_ofNat']
  omega

/-! ## The end of the text -/

theorem dropPad_cons {c : Char} {rest : List Char} (h : rest ≠ []) : dropPad (c :: rest) = c :: dropPad rest := by
  obtain ⟨next, later, rfl⟩ := List.exists_cons_of_ne_nil h
  simp only [dropPad, List.getLast?_cons_cons, List.dropLast_cons_cons]
  split_ifs <;> rfl

theorem dropPad_ne_nil {rest : List Char} (h : 2 ≤ rest.length) : dropPad rest ≠ [] := by
  intro hnil
  have := congrArg List.length hnil
  unfold dropPad at this
  split_ifs at this
  · rw [List.length_dropLast, List.length_nil] at this
    omega
  · rw [List.length_nil] at this
    omega

theorem dropPad_length (text : List Char) :
    (dropPad text).length = text.length ∨ (dropPad text).length + 1 = text.length ∧ text ≠ [] := by
  unfold dropPad
  split_ifs with hlast
  · have hne : text ≠ [] := by
      rintro rfl
      cases hlast
    have := List.length_pos_of_ne_nil hne
    rw [List.length_dropLast]
    exact .inr ⟨by omega, hne⟩
  · exact .inl rfl

theorem mem_dropPad {c : Char} {text : List Char} (hc : c ≠ '=') (h : c ∈ text) : c ∈ dropPad text := by
  unfold dropPad
  split_ifs with hlast
  · obtain ⟨before, rfl⟩ := List.getLast?_eq_some_iff.1 hlast
    rw [List.dropLast_concat]
    simpa [hc] using h
  · exact h

theorem mapM_sextets {text : List Char} : (text.mapM table.idxOf?).isSome ↔ ∀ c ∈ text, c ∈ table := by
  induction text with
  | nil => simp
  | cons c rest ih =>
    rw [List.forall_mem_cons, ← ih, List.mapM_cons, ← List.isSome_idxOf?]
    cases table.idxOf? c <;> cases rest.mapM table.idxOf? <;> simp

theorem dropTwo_cons {c : Char} {rest : List Char} (h : 2 ≤ rest.length) :
    dropPad (dropPad (c :: rest)) = c :: dropPad (dropPad rest) := by
  have hne : rest ≠ [] := List.ne_nil_of_length_pos (by omega)
  rw [dropPad_cons hne, dropPad_cons (dropPad_ne_nil h)]

/-- the letters of a text, with the sextet of the first apart -/
theorem mapM_letter {c : Char} {rest : List Char} {values : List ℕ} (hc : c.toNat < 128)
    (h : (c :: rest).mapM table.idxOf? = some values) :
    ∃ value later, sextet (byteOf c) = some value ∧ rest.mapM table.idxOf? = some later ∧ values = value :: later := by
  simp only [List.mapM_cons, Option.bind_eq_bind, Option.bind_eq_some_iff] at h
  obtain ⟨value, hvalue, later, hlater, heq⟩ := h
  exact ⟨value, later, (sextet_byteOf hc).trans hvalue, hlater, (Option.some.inj heq).symm⟩

/-- a text of whole groups, all letters up to two signs of padding at its end, decodes to what its letters spell -/
theorem decodeChunks_spell : ∀ (text : List Char) (values : List ℕ), text.length % 4 = 0 → (∀ c ∈ text, c.toNat < 128) →
    (dropPad (dropPad text)).mapM table.idxOf? = some values → decodeChunks (text.map byteOf) = some (spell values)
  | [], values, _, _, h => by
    cases h
    rfl
  | [_], _, hlength, _, _ => absurd hlength (by simp)
  | [_, _], _, hlength, _, _ => absurd hlength (by simp)
  | [_, _, _], _, hlength, _, _ => absurd hlength (by simp)
  | a :: b :: c :: d :: rest, values, hlength, hascii, h => by
    obtain ⟨ha, hb, hc, hd, hrest⟩ : a.toNat < 128 ∧ b.toNat < 128 ∧ c.toNat < 128 ∧ d.toNat < 128 ∧
        ∀ c ∈ rest, c.toNat < 128 := by simpa using hascii
    have hbegin : ∃ first second later, sextet (byteOf a) = some first ∧ sextet (byteOf b) = some second ∧
        (dropPad (dropPad (c :: d :: rest))).mapM table.idxOf? = some later ∧ values = first :: second :: later := by
      rw [dropTwo_cons (by simp), dropTwo_cons (by simp)] at h
      obtain ⟨first, more, hfirst, hmore, rfl⟩ := mapM_letter ha h
      obtain ⟨second, later, hsecond, hlater, rfl⟩ := mapM_letter hb hmore
      exact ⟨first, second, later, hfirst, hsecond, hlater, rfl⟩
    obtain ⟨first, second, later, hfirst, hsecond, hlater, rfl⟩ := hbegin
    have hpad : byteOf '=' = pad := rfl
    by_cases hnil : rest = []
    · subst hnil
      simp only [List.map_cons, List.map_nil, decodeChunks]
      by_cases hfourth : d = '='
      · subst hfourth
        by_cases hthird : c = '='
        · subst hthird
          cases hlater
          rw [hpad, decodeChunk_two hfirst hsecond]
          rfl
        · have hdrop : dropPad (dropPad [c, '=']) = [c] := by simp [dropPad, hthird]
          rw [hdrop] at hlater
          obtain ⟨third, later, hthird, hnone, rfl⟩ := mapM_letter hc hlater
          cases hnone
          rw [hpad, decodeChunk_three hfirst hsecond hthird]
          rfl
      · have hdrop : dropPad (dropPad [c, d]) = [c, d] := by simp [dropPad, hfourth]
        rw [hdrop] at hlater
        obtain ⟨third, more, hthird, hmore, rfl⟩ := mapM_letter hc hlater
        obtain ⟨fourth, later, hfourth, hnone, rfl⟩ := mapM_letter hd hmore
        cases hnone
        rw [decodeChunk_four hfirst hsecond hthird hfourth]
        rfl
    · have hlong : 4 ≤ rest.length := by
        have := List.length_pos_of_ne_nil hnil
        simp only [List.length_cons] at hlength
        omega
      rw [dropTwo_cons (by simp; omega), dropTwo_cons (by omega)] at hlater
      obtain ⟨third, more, hthird, hmore, rfl⟩ := mapM_letter hc hlater
      obtain ⟨fourth, last, hfourth, hlast, rfl⟩ := mapM_letter hd hmore
      have ih := decodeChunks_spell rest last (by simpa [Nat.add_assoc] using hlength) hrest hlast
      simp only [List.map_cons, decodeChunks]
      rw [decodeChunk_four hfirst hsecond hthird hfourth, ih]
      rfl

/-! ## Where the two agree -/

/-- letters alone, too few for whole groups by one or two -/
def Unpadded (text : List Char) : Prop := 2 ≤ text.length % 4 ∧ ∀ c ∈ text, c ∈ table

/-- whole groups, each of which has letters where a group needs them, and yet something else before the padding at the end -/
def PaddedInside (text : List Char) : Prop :=
  (octets text).length % 4 = 0 ∧ Shaped (octets text) ∧ ∃ c ∈ dropPad (dropPad text), c ∉ table

theorem forgivingDecode_none {text : List Char} {c : Char} (hc : c ∈ compact text) (hletter : c ∉ table) (hpad : c ≠ '=') :
    forgivingDecode text = none := by
  have hdata : ∀ data : List Char, c ∈ data → data.mapM table.idxOf? = none := fun data hmem =>
    Option.not_isSome_iff_eq_none.1 fun hsome => hletter (mapM_sextets.1 hsome c hmem)
  unfold forgivingDecode
  simp only
  split_ifs with hwhole hone hone
  · rfl
  · rw [hdata _ (mem_dropPad hpad (mem_dropPad hpad hc))]
    rfl
  · rfl
  · rw [hdata _ hc]
    rfl

theorem base64Decode_iff (text : List Char) : base64Decode text = forgivingDecode text ↔
    ¬Unpadded (compact text) ∧ ¬PaddedInside (compact text) := by
  by_cases hascii : ∀ c ∈ compact text, c.toNat < 128
  · have hoctets := octets_ascii hascii
    have hlength : (octets (compact text)).length = (compact text).length := by rw [hoctets, List.length_map]
    by_cases hwhole : (compact text).length % 4 = 0
    · have hunpadded : ¬Unpadded (compact text) := fun h => by
        have := h.1
        omega
      have hdecode : base64Decode text = decodeChunks (octets (compact text)) := if_neg (by omega)
      have hone : (dropPad (dropPad (compact text))).length % 4 ≠ 1 := by
        have := dropPad_length (compact text)
        have := dropPad_length (dropPad (compact text))
        omega
      have hforgiving : forgivingDecode text = ((dropPad (dropPad (compact text))).mapM table.idxOf?).map spell := by
        unfold forgivingDecode
        simp only [if_pos hwhole, if_neg hone]
      rw [hdecode, hforgiving]
      cases hvalues : (dropPad (dropPad (compact text))).mapM table.idxOf? with
      | some values =>
        have hletters := mapM_sextets.1 (Option.isSome_iff_exists.2 ⟨values, hvalues⟩)
        have hinside : ¬PaddedInside (compact text) := fun ⟨_, _, c, hc, hletter⟩ => hletter (hletters c hc)
        rw [hoctets, decodeChunks_spell _ values hwhole hascii hvalues]
        simp [hunpadded, hinside]
      | none =>
        have hinside : ∃ c ∈ dropPad (dropPad (compact text)), c ∉ table := by
          by_contra hall
          push Not at hall
          simpa [hvalues] using mapM_sextets.2 hall
        have hequal : PaddedInside (compact text) ↔ Shaped (octets (compact text)) :=
          ⟨fun h => h.2.1, fun h => ⟨by omega, h, hinside⟩⟩
        rw [hequal, ← decodeChunks_isSome]
        simp [hunpadded]
    · have hdecode : base64Decode text = none := if_pos (by omega)
      have hinside : ¬PaddedInside (compact text) := fun h => hwhole (by have := h.1; omega)
      rw [hdecode]
      unfold forgivingDecode
      simp only [if_neg hwhole, hinside, not_false_eq_true, and_true, Unpadded, ← mapM_sextets]
      split_ifs with hone
      · simp [hone]
      · cases (compact text).mapM table.idxOf?
        · simp
        · simp only [Option.map_some, Option.isSome_some, and_true]
          simp
          omega
  · push Not at hascii
    obtain ⟨c, hc, hlarge⟩ := hascii
    have hletter : c ∉ table := fun hmem => absurd (table_ascii hmem) (by omega)
    have hrefused : ¬((octets (compact text)).length % 4 = 0 ∧ Shaped (octets (compact text))) := fun ⟨hwhole, hshaped⟩ => by
      have hsparse := List.IsChain.tail (sparse_of_shaped _ hshaped hwhole pad)
      exact absurd (ascii_of_sparse hsparse c hc) (by omega)
    have hdecode : base64Decode text = none := by
      unfold base64Decode
      simp only
      split_ifs with hwhole
      · rfl
      · rw [← Option.not_isSome_iff_eq_none, decodeChunks_isSome]
        exact fun hshaped => hrefused ⟨not_not.1 hwhole, hshaped⟩
    rw [hdecode, forgivingDecode_none hc hletter (by rintro rfl; exact absurd hlarge (by decide))]
    exact ⟨fun _ => ⟨fun h => hletter (h.2 c hc), fun h => hrefused ⟨h.1, h.2.1⟩⟩, fun _ => rfl⟩

/-! ## Encoding -/

theorem encodeChunk_chars {first : UInt8} {second third : Option UInt8} :
    ∀ c ∈ encodeChunk first second third, isAsciiWhitespace c = false ∧ c.toNat < 128 := by
  have hfirst := first.toNat_lt
  have hsecond := (second.getD 0).toNat_lt
  have hthird := (third.getD 0).toNat_lt
  have hletter : ∀ index < 64, isAsciiWhitespace (letter index) = false ∧ (letter index).toNat < 128 :=
    fun index hindex => ⟨(letter_facts index hindex).2.1, (letter_facts index hindex).2.2.1⟩
  have hpad : isAsciiWhitespace '=' = false ∧ '='.toNat < 128 := by decide
  simp only [encodeChunk, List.forall_mem_cons, List.not_mem_nil, false_imp_iff, implies_true, and_true]
  refine ⟨hletter _ (by omega), hletter _ (by omega), ?_, ?_⟩
  · split_ifs
    · exact hletter _ (by omega)
    · exact hpad
  · split_ifs
    · exact hletter _ (by omega)
    · exact hpad

theorem encodeChunk_length (first : UInt8) (second third : Option UInt8) : (encodeChunk first second third).length = 4 := rfl

theorem base64Encode_chars (bytes : List UInt8) : (base64Encode bytes).length % 4 = 0 ∧
    ∀ c ∈ base64Encode bytes, isAsciiWhitespace c = false ∧ c.toNat < 128 := by
  fun_induction base64Encode bytes with
  | case1 => simp
  | case2 => exact ⟨by rw [encodeChunk_length], encodeChunk_chars⟩
  | case3 => exact ⟨by rw [encodeChunk_length], encodeChunk_chars⟩
  | case4 first second third rest ih =>
    refine ⟨?_, fun c hc => (List.mem_append.1 hc).elim (encodeChunk_chars c) (ih.2 c)⟩
    rw [List.length_append, encodeChunk_length]
    omega

theorem sextet_letter {index : ℕ} (h : index < 64) : sextet (byteOf (letter index)) = some index :=
  (letter_facts index h).1

theorem decodeChunks_encode (bytes : List UInt8) : decodeChunks ((base64Encode bytes).map byteOf) = some bytes := by
  have hpad : byteOf '=' = pad := rfl
  have hsame : ∀ {octet : UInt8} {code : ℕ}, code % 256 = octet.toNat → UInt8.ofNat code = octet := fun h => by
    rw [← UInt8.toNat_inj, UInt8.toNat_ofNat']
    exact h
  fun_induction base64Encode bytes with
  | case1 => rfl
  | case2 first =>
    have hfirst := first.toNat_lt
    have hletter := @sextet_letter (first.toNat / 4) (by omega)
    have hsecond := @sextet_letter (first.toNat % 4 * 16 + 0 / 16) (by omega)
    simp only [encodeChunk, List.map_cons, List.map_nil, decodeChunks, Option.isSome_none, Bool.false_eq_true, if_false, hpad,
      Option.getD_none, UInt8.toNat_zero]
    rw [decodeChunk_two hletter hsecond]
    exact congrArg some (congrArg (fun octet => [octet]) (hsame (by omega)))
  | case3 first second =>
    have hfirst := first.toNat_lt
    have hsecond := second.toNat_lt
    simp only [encodeChunk, List.map_cons, List.map_nil, decodeChunks, Option.isSome_none, Bool.false_eq_true, if_false, hpad,
      Option.getD_none, Option.getD_some, Option.isSome_some, if_true, UInt8.toNat_zero]
    rw [decodeChunk_three (sextet_letter (by omega)) (sextet_letter (by omega)) (sextet_letter (by omega))]
    refine congrArg some (congrArg₂ (fun a b => [a, b]) (hsame ?_) (hsame ?_)) <;> omega
  | case4 first second third rest ih =>
    have hfirst := first.toNat_lt
    have hsecond := second.toNat_lt
    have hthird := third.toNat_lt
    simp only [encodeChunk, List.map_cons, List.cons_append, List.nil_append, decodeChunks, Option.getD_some, Option.isSome_some, if_true]
    rw [decodeChunk_four (sextet_letter (by omega)) (sextet_letter (by omega)) (sextet_letter (by omega))
      (sextet_letter (by omega)), ih]
    refine congrArg some (List.cons_eq_cons.2 ⟨hsame ?_, List.cons_eq_cons.2 ⟨hsame ?_, List.cons_eq_cons.2 ⟨hsame ?_, rfl⟩⟩⟩) <;>
      omega

theorem base64Decode_base64Encode (bytes : List UInt8) : base64Decode (base64Encode bytes) = some bytes := by
  obtain ⟨hwhole, hchars⟩ := base64Encode_chars bytes
  have hcompact : compact (base64Encode bytes) = base64Encode bytes :=
    List.filter_eq_self.2 fun c hc => by simp [(hchars c hc).1]
  unfold base64Decode
  rw [hcompact, octets_ascii fun c hc => (hchars c hc).2]
  simp only [List.length_map]
  rw [if_neg (by omega), decodeChunks_encode]

theorem btoa_decodes {units : List ℕ} {text : List Char} (h : btoa units = some text) :
    base64Decode text = some (units.map UInt8.ofNat) := by
  unfold btoa at h
  split_ifs at h
  rw [← Option.some.inj h, base64Decode_base64Encode]

/-- what is encoded is decoded; and texts are decoded as the algorithm does but for those without padding and those with
padding inside -/
theorem base64_forgiving (bytes : List UInt8) (text : List Char) :
    base64Decode (base64Encode bytes) = some bytes ∧
      (base64Decode text = forgivingDecode text ↔ ¬Unpadded (compact text) ∧ ¬PaddedInside (compact text)) :=
  ⟨base64Decode_base64Encode bytes, base64Decode_iff text⟩

theorem base64Decode_departs : base64Decode ['Y', 'Q'] = none ∧ forgivingDecode ['Y', 'Q'] = some [97] ∧
    base64Decode ['A', 'A', '=', 'B'] = some [0] ∧ forgivingDecode ['A', 'A', '=', 'B'] = none := by
  decide +kernel

end Render.Js.Base64
