/-
The JSON grammar (ECMA-404) over code units, and the leaves of the parser against it.

`ValueText start text node` is a derivation of a value: `text` is the value's own text, without white space around it,
it begins at `start`, and `node` is what it stands for, the ranges of its primitives included. The grammar knows
nothing of the parser: the characters of a string are a table, a numeral is its parts.

Each leaf is settled in both directions against `Cursor.Reads c text c'`, "from `c` the text `text` was read and `c'`
is what is left": what the parser accepts is a text of the grammar, and a text of the grammar is accepted. A number
ends where the digits end, so the second direction asks there what follows (`Ends`).
-/
import Mathlib.Data.List.TakeWhile
import Render.Core.Comp
import Render.Js.Json

namespace Render.Js.Json

/-! ## Characters and strings -/

/-- white space between tokens -/
def Blank (text : List ℕ) : Prop := ∀ unit ∈ text, isBlank unit = true

/-- the escapes of one letter and the units they stand for -/
def escapes : List (ℕ × ℕ) :=
  [(0x22, 0x22), (0x5C, 0x5C), (0x2F, 0x2F), (0x62, 0x08), (0x66, 0x0C), (0x6E, 0x0A), (0x72, 0x0D), (0x74, 0x09)]

/-- one character of a string, and the code unit it stands for -/
inductive CharacterText : List ℕ → ℕ → Prop where
  | plain {unit : ℕ} (quote : unit ≠ 0x22) (backslash : unit ≠ 0x5C) (control : 0x20 ≤ unit) : CharacterText [unit] unit
  | escape {letter unit : ℕ} (listed : (letter, unit) ∈ escapes) : CharacterText [0x5C, letter] unit
  | unicode {a b c d p q r s : ℕ} (ha : hexDigit a = some p) (hb : hexDigit b = some q) (hc : hexDigit c = some r)
      (hd : hexDigit d = some s) : CharacterText [0x5C, 0x75, a, b, c, d] (p * 0x1000 + q * 0x100 + r * 0x10 + s)

inductive CharactersText : List ℕ → List ℕ → Prop where
  | nil : CharactersText [] []
  | cons {text unit later units} (head : CharacterText text unit) (tail : CharactersText later units) :
      CharactersText (text ++ later) (unit :: units)

/-- a string with its quotes, and the code units it stands for -/
def StringText (text units : List ℕ) : Prop := ∃ body, text = 0x22 :: (body ++ [0x22]) ∧ CharactersText body units

/-- a member's name with its colon, and white space around the string -/
def NameText (label key : List ℕ) : Prop :=
  ∃ before text after, label = before ++ (text ++ (after ++ [0x3A])) ∧ Blank before ∧ StringText text key ∧ Blank after

/-! ## Numerals -/

/-- an exponent and the number it writes; none is zero -/
inductive ExponentText : List ℕ → ℤ → Prop where
  | none : ExponentText [] 0
  | some {letter : ℕ} {sign digits : List ℕ} (hl : letter = 0x65 ∨ letter = 0x45)
      (hs : sign = [] ∨ sign = [0x2B] ∨ sign = [0x2D]) (hne : digits ≠ []) (hd : ∀ unit ∈ digits, isDigit unit = true) :
      ExponentText (letter :: (sign ++ digits))
        (if sign = [0x2D] then -(digitsValue digits : ℤ) else digitsValue digits)

/-- the text of a fraction: nothing without digits -/
def fractionText (digits : List ℕ) : List ℕ := if digits = [] then [] else 0x2E :: digits

/-- a numeral by its parts; no fraction digits is no fraction -/
structure Numeral where
  negative : Bool
  whole : List ℕ
  fraction : List ℕ
  exponent : List ℕ
  /-- the number the exponent writes -/
  power : ℤ
  whole_digits : ∀ unit ∈ whole, isDigit unit = true
  /-- a leading zero stands alone -/
  whole_zero : whole = [0x30] ∨ ∃ first later, whole = first :: later ∧ 0x31 ≤ first
  fraction_digits : ∀ unit ∈ fraction, isDigit unit = true
  exponent_text : ExponentText exponent power

namespace Numeral

def sign (n : Numeral) : List ℕ := if n.negative then [0x2D] else []

def text (n : Numeral) : List ℕ := n.sign ++ (n.whole ++ (fractionText n.fraction ++ n.exponent))

/-- the decimal a numeral writes, without its sign -/
def magnitude (n : Numeral) : ℚ :=
  digitsValue (n.whole ++ n.fraction) * (10 : ℚ) ^ (n.power - (n.fraction.length : ℤ))

end Numeral

/-! ## Values -/

section Grammar

variable {N : Type} (round : Bool → ℚ → N)

mutual

/-- a value at an offset, with what it stands for -/
inductive ValueText : ℕ → List ℕ → JsonNode N → Prop where
  | null (start : ℕ) : ValueText start nullWord (.primitive .null start (start + 4))
  | true (start : ℕ) : ValueText start trueWord (.primitive (.boolean true) start (start + 4))
  | false (start : ℕ) : ValueText start falseWord (.primitive (.boolean false) start (start + 5))
  | string (start : ℕ) {text units : List ℕ} (h : StringText text units) :
      ValueText start text (.primitive (.string units) start (start + text.length))
  | number (start : ℕ) (n : Numeral) :
      ValueText start n.text (.primitive (.number (round n.negative n.magnitude)) start (start + n.text.length))
  | emptyArray (start : ℕ) {blank : List ℕ} (h : Blank blank) : ValueText start (0x5B :: (blank ++ [0x5D])) (.array [])
  | array (start : ℕ) {text : List ℕ} {nodes : List (JsonNode N)} (h : ElementsText (start + 1) text nodes) :
      ValueText start (0x5B :: (text ++ [0x5D])) (.array nodes)
  | emptyObject (start : ℕ) {blank : List ℕ} (h : Blank blank) :
      ValueText start (0x7B :: (blank ++ [0x7D])) (.object [])
  | object (start : ℕ) {text : List ℕ} {nodes : List (List ℕ × JsonNode N)} (h : MembersText (start + 1) text nodes) :
      ValueText start (0x7B :: (text ++ [0x7D])) (.object nodes)

/-- one element or more, with white space around each and commas between -/
inductive ElementsText : ℕ → List ℕ → List (JsonNode N) → Prop where
  | one {start : ℕ} {before text after : List ℕ} {node : JsonNode N} (hb : Blank before)
      (hv : ValueText (start + before.length) text node) (ha : Blank after) :
      ElementsText start (before ++ (text ++ after)) [node]
  | more {start : ℕ} {before text after later : List ℕ} {node : JsonNode N} {nodes : List (JsonNode N)}
      (hb : Blank before) (hv : ValueText (start + before.length) text node) (ha : Blank after)
      (hl : ElementsText (start + (before ++ (text ++ after)).length + 1) later nodes) :
      ElementsText start (before ++ (text ++ after) ++ 0x2C :: later) (node :: nodes)

/-- one member or more -/
inductive MembersText : ℕ → List ℕ → List (List ℕ × JsonNode N) → Prop where
  | one {start : ℕ} {label key before text after : List ℕ} {node : JsonNode N} (hn : NameText label key)
      (hb : Blank before) (hv : ValueText (start + label.length + before.length) text node) (ha : Blank after) :
      MembersText start (label ++ (before ++ (text ++ after))) [(key, node)]
  | more {start : ℕ} {label key before text after later : List ℕ} {node : JsonNode N}
      {nodes : List (List ℕ × JsonNode N)} (hn : NameText label key) (hb : Blank before)
      (hv : ValueText (start + label.length + before.length) text node) (ha : Blank after)
      (hl : MembersText (start + (label ++ (before ++ (text ++ after))).length + 1) later nodes) :
      MembersText start (label ++ (before ++ (text ++ after)) ++ 0x2C :: later) ((key, node) :: nodes)

end

/-- a JSON text: one value with white space around it -/
def JsonText (input : List ℕ) (node : JsonNode N) : Prop :=
  ∃ before text after, input = before ++ (text ++ after) ∧ Blank before ∧ ValueText round before.length text node ∧
    Blank after

end Grammar

/-! ## What was read -/

namespace Cursor

/-- from `c` the text was read, and `c'` is what is left -/
structure Reads (c : Cursor) (text : List ℕ) (c' : Cursor) : Prop where
  rest : c.rest = text ++ c'.rest
  position : c'.position = c.position + text.length

namespace Reads

variable {a b c : Cursor} {s t : List ℕ}

theorem refl (c : Cursor) : c.Reads [] c := ⟨rfl, rfl⟩

theorem trans (h : a.Reads s b) (h' : b.Reads t c) : a.Reads (s ++ t) c := by
  refine ⟨?_, ?_⟩
  · rw [h.rest, h'.rest, List.append_assoc]
  · rw [h'.position, h.position, List.length_append, Nat.add_assoc]

/-- what is left is fixed by what was read -/
theorem unique (h : a.Reads s b) (h' : a.Reads s c) : b = c := by
  have hr : b.rest = c.rest := List.append_cancel_left (h.rest.symm.trans h'.rest)
  have hp : b.position = c.position := h.position.trans h'.position.symm
  cases b
  cases c
  simp_all

/-- a text in two parts is read in two steps -/
theorem split (h : a.Reads (s ++ t) c) : ∃ b, a.Reads s b ∧ b.Reads t c := by
  refine ⟨⟨a.position + s.length, t ++ c.rest⟩, ⟨?_, rfl⟩, ⟨rfl, ?_⟩⟩
  · rw [h.rest, List.append_assoc]
  · rw [h.position, List.length_append, Nat.add_assoc]

theorem of_cons {unit : ℕ} (h : a.Reads (unit :: s) c) : a.rest.head? = some unit ∧ a.advance.Reads s c := by
  refine ⟨?_, ?_, ?_⟩
  · rw [h.rest]
    rfl
  · rw [advance, h.rest]
    rfl
  · rw [h.position]
    simp only [advance, List.length_cons]
    omega

theorem nil_eq (h : a.Reads [] b) : b = a := h.unique (refl a)

end Reads

theorem reads_advance {c : Cursor} {unit : ℕ} {later : List ℕ} (h : c.rest = unit :: later) :
    c.Reads [unit] c.advance := by
  refine ⟨?_, rfl⟩
  rw [advance, h]
  rfl

theorem advance_of_reads {c c' : Cursor} {unit : ℕ} (h : c.Reads [unit] c') : c.advance = c' :=
  (reads_advance h.rest).unique h

/-! ## Bytes -/

theorem byteOf_eq {unit byte : ℕ} (h : byte < notAscii) : byteOf unit = byte ↔ unit = byte := by
  unfold byteOf notAscii at *
  split_ifs <;> omega

theorem isBlank_byteOf (unit : ℕ) : isBlank (byteOf unit) = isBlank unit := by
  unfold byteOf notAscii isBlank
  split_ifs
  · rfl
  · simp
    omega

theorem isDigit_byteOf (unit : ℕ) : isDigit (byteOf unit) = isDigit unit := by
  unfold byteOf notAscii isDigit
  split_ifs
  · rfl
  · simp
    omega

theorem peek_eq {c : Cursor} {byte : ℕ} (h : byte < notAscii) : c.peek = some byte ↔ c.rest.head? = some byte := by
  unfold peek
  cases c.rest with
  | nil => simp
  | cons unit later => simp [byteOf_eq h]

theorem consume_eq_some {c c' : Cursor} {byte : ℕ} (h : byte < notAscii) :
    c.consume byte = some c' ↔ c.Reads [byte] c' := by
  simp only [consume, peek_eq h]
  split_ifs with hh
  · obtain ⟨later, hl⟩ : ∃ later, c.rest = byte :: later := by
      cases hr : c.rest with
      | nil => simp [hr] at hh
      | cons unit later => exact ⟨later, by simp_all⟩
    constructor
    · rintro ⟨⟩
      exact reads_advance hl
    · intro hc
      rw [advance_of_reads hc]
  · constructor
    · rintro ⟨⟩
    · intro hc
      exact absurd (hc.of_cons).1 hh

theorem consume_eq_none {c : Cursor} {byte : ℕ} (h : byte < notAscii) :
    c.consume byte = none ↔ c.rest.head? ≠ some byte := by
  simp only [consume, peek_eq h]
  split_ifs with hh <;> simp [hh]

/-! ## Loops over bytes of one kind -/

/-- the text does not begin with a unit of the kind -/
def Stops (kind : ℕ → Bool) (c : Cursor) : Prop := ∀ unit ∈ c.rest.head?, kind unit = false

theorem skipWhile_reads {kind : ℕ → Bool} (hk : ∀ unit, kind (byteOf unit) = kind unit) (c : Cursor) :
    c.Reads (c.rest.takeWhile kind) (c.skipWhile kind) := by
  have hf : (fun unit => kind (byteOf unit)) = kind := funext hk
  exact ⟨by rw [skipWhile, hf]; exact List.takeWhile_append_dropWhile.symm, by rw [skipWhile, hf]⟩

theorem skipWhile_eq {kind : ℕ → Bool} (hk : ∀ unit, kind (byteOf unit) = kind unit) {c c' : Cursor} {text : List ℕ}
    (h : c.Reads text c') (ht : ∀ unit ∈ text, kind unit = true) (hs : c'.Stops kind) : c.skipWhile kind = c' := by
  have hr : c.rest.takeWhile kind = text := by
    rw [h.rest, List.takeWhile_append_of_pos ht]
    cases hc : c'.rest with
    | nil => simp
    | cons unit later => simp [hs unit (by rw [hc]; rfl)]
  have hw := skipWhile_reads hk c
  rw [hr] at hw
  exact hw.unique h

theorem blank_takeWhile (units : List ℕ) : Blank (units.takeWhile isBlank) := fun _ h => List.mem_takeWhile_imp h

/-- white space is stepped over up to the first other unit -/
theorem whitespace_reads (c : Cursor) : ∃ blank, Blank blank ∧ c.Reads blank c.whitespace :=
  ⟨_, blank_takeWhile _, skipWhile_reads isBlank_byteOf c⟩

theorem whitespace_eq {c c' : Cursor} {blank : List ℕ} (h : c.Reads blank c') (hb : Blank blank)
    (hs : c'.Stops isBlank) : c.whitespace = c' :=
  skipWhile_eq isBlank_byteOf h hb hs

/-- a text that begins with a unit other than white space stops it -/
theorem stops_of_reads {kind : ℕ → Bool} {c c' : Cursor} {unit : ℕ} {later : List ℕ} (h : c.Reads (unit :: later) c')
    (hu : kind unit = false) : c.Stops kind := by
  intro other ho
  rw [h.of_cons.1] at ho
  cases ho
  exact hu

theorem literal_eq_ok {word : List ℕ} {c c' : Cursor} : c.literal word = .ok c' ↔ c.Reads word c' := by
  unfold literal
  split_ifs with h
  · have hr : c.Reads word ⟨c.position + word.length, c.rest.drop word.length⟩ :=
      ⟨by conv_lhs => rw [← List.take_append_drop word.length c.rest, h], rfl⟩
    constructor
    · rintro ⟨⟩
      exact hr
    · intro hc
      rw [hr.unique hc]
  · constructor
    · rintro ⟨⟩
    · intro hc
      exact absurd (by rw [hc.rest, List.take_left]) h

end Cursor

open Cursor Render.Core

/-! ## Strings -/

theorem simpleEscape_eq_some {letter unit : ℕ} : simpleEscape letter = some unit ↔ (letter, unit) ∈ escapes := by
  constructor
  · intro h
    unfold simpleEscape at h
    split_ifs at h with h1 h2 h3 h4 h5 h6 <;> cases h
    · rcases h1 with rfl | rfl | rfl <;> decide
    all_goals
      subst letter
      decide
  · intro h
    simp only [escapes, List.mem_cons, Prod.mk.injEq, List.not_mem_nil, or_false] at h
    rcases h with ⟨rfl, rfl⟩ | ⟨rfl, rfl⟩ | ⟨rfl, rfl⟩ | ⟨rfl, rfl⟩ | ⟨rfl, rfl⟩ | ⟨rfl, rfl⟩ | ⟨rfl, rfl⟩ |
      ⟨rfl, rfl⟩ <;> rfl

/-- one hexadecimal digit more -/
theorem hexDigits_succ {count v letter digit : ℕ} {c : Cursor} {later : List ℕ} (hr : c.rest = letter :: later)
    (hd : hexDigit letter = some digit) : hexDigits (count + 1) v c = hexDigits count (v * 16 + digit) c.advance := by
  rw [hexDigits, hr]
  simp only [List.head?_cons, Option.bind_some, hd]

theorem hexDigits_sound {count v : ℕ} {c : Cursor} {r : ℕ × Cursor} (h : hexDigits (count + 1) v c = .ok r) :
    ∃ letter digit, c.Reads [letter] c.advance ∧ hexDigit letter = some digit ∧
      hexDigits count (v * 16 + digit) c.advance = .ok r := by
  cases hr : c.rest with
  | nil =>
    rw [hexDigits, hr] at h
    cases h
  | cons letter later =>
    cases hd : hexDigit letter with
    | none =>
      rw [hexDigits, hr] at h
      simp [hd] at h
    | some digit =>
      rw [hexDigits_succ hr hd] at h
      exact ⟨letter, digit, reads_advance hr, hd, h⟩

theorem hexEscape_sound {c c' : Cursor} {unit : ℕ} (h : hexEscape c = .ok (unit, c')) :
    ∃ text, c.Reads text c' ∧ CharacterText (0x5C :: 0x75 :: text) unit := by
  obtain ⟨_, p, r1, h1, h⟩ := hexDigits_sound h
  obtain ⟨_, q, r2, h2, h⟩ := hexDigits_sound h
  obtain ⟨_, r, r3, h3, h⟩ := hexDigits_sound h
  obtain ⟨_, s, r4, h4, h⟩ := hexDigits_sound h
  cases h
  refine ⟨_, r1.trans (r2.trans (r3.trans r4)), ?_⟩
  have hu : (((0 * 16 + p) * 16 + q) * 16 + r) * 16 + s = p * 0x1000 + q * 0x100 + r * 0x10 + s := by ring
  rw [hu]
  exact .unicode h1 h2 h3 h4

theorem hexEscape_complete {c c' : Cursor} {a b d e p q r s : ℕ} (h : c.Reads [a, b, d, e] c')
    (ha : hexDigit a = some p) (hb : hexDigit b = some q) (hd : hexDigit d = some r) (he : hexDigit e = some s) :
    hexEscape c = .ok (p * 0x1000 + q * 0x100 + r * 0x10 + s, c') := by
  have h1 := h.of_cons.2
  have h2 := h1.of_cons.2
  have h3 := h2.of_cons.2
  rw [hexEscape, hexDigits_succ h.rest ha, hexDigits_succ h1.rest hb, hexDigits_succ h2.rest hd,
    hexDigits_succ h3.rest he, hexDigits, advance_of_reads h3]
  congr 2
  ring

/-- what is read behind a backslash completes a character -/
theorem escaped_sound {c c' : Cursor} {unit : ℕ} (h : escaped c = .ok (unit, c')) :
    ∃ text, c.Reads text c' ∧ CharacterText (0x5C :: text) unit := by
  unfold escaped at h
  cases hr : c.rest with
  | nil => simp [hr] at h
  | cons letter later =>
    simp only [hr] at h
    split at h
    · next other hs =>
      cases h
      exact ⟨[letter], reads_advance hr, .escape (simpleEscape_eq_some.1 hs)⟩
    · split_ifs at h with hu
      subst hu
      obtain ⟨text, ht, hc⟩ := hexEscape_sound h
      exact ⟨0x75 :: text, (reads_advance hr).trans ht, hc⟩

theorem escaped_complete {c c' : Cursor} {text : List ℕ} {unit : ℕ} (h : c.Reads text c')
    (ht : CharacterText (0x5C :: text) unit) : escaped c = .ok (unit, c') := by
  cases ht with
  | plain hq hb => exact absurd rfl hb
  | @escape letter _ hl =>
    have hr : c.rest = letter :: c'.rest := h.rest
    rw [escaped, hr]
    simp only [simpleEscape_eq_some.2 hl, advance_of_reads h]
  | @unicode a b d e p q r s ha hb hd he =>
    have hr : c.rest = 0x75 :: ([a, b, d, e] ++ c'.rest) := h.rest
    rw [escaped, hr]
    have hs : simpleEscape 0x75 = none := by decide
    simp only [hs, ↓reduceIte]
    exact hexEscape_complete h.of_cons.2 ha hb hd he

theorem stringUnits_sound {fuel : ℕ} {output units : List ℕ} {c c' : Cursor}
    (h : stringUnits fuel output c = .ok (units, c')) :
    ∃ body read, c.Reads (body ++ [0x22]) c' ∧ CharactersText body read ∧ units = output ++ read := by
  induction fuel generalizing output c with
  | zero => cases h
  | succ fuel ih =>
    rw [stringUnits] at h
    cases hr : c.rest with
    | nil => simp [hr] at h
    | cons unit later =>
      simp only [hr] at h
      split_ifs at h with hq hb hc
      · cases h
        subst hq
        exact ⟨[], [], reads_advance hr, .nil, (List.append_nil _).symm⟩
      · subst hb
        obtain ⟨⟨value, c1⟩, he, h⟩ := bind_eq_ok.1 h
        obtain ⟨text, ht, hch⟩ := escaped_sound he
        obtain ⟨body, read, hbody, hread, rfl⟩ := ih h
        refine ⟨0x5C :: text ++ body, value :: read, ?_, .cons hch hread, by simp⟩
        simpa using (reads_advance hr).trans (ht.trans hbody)
      · obtain ⟨body, read, hbody, hread, rfl⟩ := ih h
        refine ⟨[unit] ++ body, unit :: read, ?_, .cons (.plain hq hb (by omega)) hread, by simp⟩
        simpa using (reads_advance hr).trans hbody

theorem stringUnits_complete {body units : List ℕ} (h : CharactersText body units) :
    ∀ {fuel : ℕ} {output : List ℕ} {c c' : Cursor}, c.Reads (body ++ [0x22]) c' → body.length < fuel →
      stringUnits fuel output c = .ok (output ++ units, c') := by
  induction h with
  | nil =>
    intro fuel output c c' hr hf
    obtain ⟨fuel, rfl⟩ := Nat.exists_eq_succ_of_ne_zero (by omega : fuel ≠ 0)
    have hrest : c.rest = 0x22 :: c'.rest := hr.rest
    rw [stringUnits, hrest]
    simp only [↓reduceIte, List.append_nil, advance_of_reads hr]
  | @cons text unit later units hh ht ih =>
    intro fuel output c c' hr hf
    obtain ⟨fuel, rfl⟩ := Nat.exists_eq_succ_of_ne_zero (by omega : fuel ≠ 0)
    rw [List.append_assoc] at hr
    obtain ⟨c1, h1, h2⟩ := hr.split
    rw [List.length_append] at hf
    cases hh with
    | plain hq hb hc =>
      have hrest : c.rest = unit :: c1.rest := h1.rest
      rw [stringUnits, hrest]
      simp only [hq, hb, Nat.not_lt.2 hc, ↓reduceIte, advance_of_reads h1]
      rw [ih h2 (by simp at hf; omega), List.append_assoc, List.singleton_append]
    | escape hl =>
      have hrest : c.rest = 0x5C :: _ := h1.rest
      have he := escaped_complete h1.of_cons.2 (.escape hl)
      rw [stringUnits, hrest]
      simp only [↓reduceIte]
      rw [he]
      show stringUnits fuel (output ++ [unit]) c1 = _
      rw [ih h2 (by simp at hf; omega), List.append_assoc, List.singleton_append]
    | unicode ha hb hc hd =>
      have hrest : c.rest = 0x5C :: _ := h1.rest
      have he := escaped_complete h1.of_cons.2 (.unicode ha hb hc hd)
      rw [stringUnits, hrest]
      simp only [↓reduceIte]
      rw [he]
      show stringUnits fuel (output ++ [_]) c1 = _
      rw [ih h2 (by simp at hf; omega), List.append_assoc, List.singleton_append]

theorem string_sound {c c' : Cursor} {units : List ℕ} (h : string c = .ok (units, c')) :
    ∃ text, c.Reads text c' ∧ StringText text units := by
  unfold string at h
  cases hc : c.consume 0x22 with
  | none => simp [hc] at h
  | some c1 =>
    simp only [hc] at h
    obtain ⟨body, read, hbody, hread, rfl⟩ := stringUnits_sound h
    have hq := (consume_eq_some (by decide)).1 hc
    exact ⟨_, hq.trans hbody, body, rfl, hread⟩

theorem string_complete {c c' : Cursor} {text units : List ℕ} (h : c.Reads text c') (ht : StringText text units) :
    string c = .ok (units, c') := by
  obtain ⟨body, rfl, hb⟩ := ht
  have hr : c.Reads ([0x22] ++ (body ++ [0x22])) c' := h
  obtain ⟨c1, h1, h2⟩ := hr.split
  rw [string, (consume_eq_some (by decide)).2 h1]
  have hl : body.length < c1.rest.length + 1 := by
    rw [h2.rest]
    simp only [List.length_append]
    omega
  exact stringUnits_complete hb h2 hl

/-! ## Numbers -/

/-- the units a numeral could go on with -/
def isNumeralUnit (unit : ℕ) : Bool := isDigit unit || unit = 0x2E || unit = 0x65 || unit = 0x45

/-- a numeral that ends here cannot go on -/
def Ends (c : Cursor) : Prop := c.Stops isNumeralUnit

theorem Ends.digits {c : Cursor} (h : Ends c) : c.Stops isDigit := by
  intro unit hu
  have := h unit hu
  simp only [isNumeralUnit, Bool.or_eq_false_iff] at this
  exact this.1.1.1

theorem digits_stop {c c' : Cursor} {text : List ℕ} (h : c.Reads text c')
    (ht : ∀ unit ∈ text.head?, isDigit unit = false) (hs : text = [] → c'.Stops isDigit) : c.Stops isDigit := by
  cases text with
  | nil =>
    rw [← h.nil_eq]
    exact hs rfl
  | cons unit later => exact stops_of_reads h (ht unit rfl)

theorem digits_reads (c : Cursor) :
    ∃ digits, (∀ unit ∈ digits, isDigit unit = true) ∧ c.Reads digits (c.skipWhile isDigit) :=
  ⟨_, fun _ h => List.mem_takeWhile_imp h, skipWhile_reads isDigit_byteOf c⟩

theorem peek_isSome {c : Cursor} {byte : ℕ} (h : c.peek = some byte) :
    ∃ unit later, c.rest = unit :: later ∧ byteOf unit = byte := by
  unfold peek at h
  cases hr : c.rest with
  | nil => simp [hr] at h
  | cons unit later => exact ⟨unit, later, rfl, by simpa [hr] using h⟩

theorem numberWhole_sound {c c' : Cursor} (h : numberWhole c = .ok c') :
    ∃ whole, c.Reads whole c' ∧ (∀ unit ∈ whole, isDigit unit = true) ∧
      (whole = [0x30] ∨ ∃ first later, whole = first :: later ∧ 0x31 ≤ first) := by
  unfold numberWhole at h
  cases hp : c.peek with
  | none => simp [hp] at h
  | some byte =>
    obtain ⟨unit, later, hr, hb⟩ := peek_isSome hp
    simp only [hp] at h
    split_ifs at h with h0 h1
    · cases h
      have hu : unit = 0x30 := (byteOf_eq (by decide)).1 (hb.trans h0)
      subst hu
      exact ⟨[0x30], reads_advance hr, by simp [isDigit], .inl rfl⟩
    · cases h
      have hu : unit = byte := (byteOf_eq (by unfold notAscii; omega)).1 hb
      subst hu
      have hd : isDigit unit = true := by
        simp only [isDigit, Bool.and_eq_true, decide_eq_true_eq]
        omega
      have hs := skipWhile_reads isDigit_byteOf c
      rw [hr, List.takeWhile_cons_of_pos hd] at hs
      refine ⟨_, hs, ?_, .inr ⟨unit, _, rfl, h1.1⟩⟩
      rintro other (_ | ⟨_, ho⟩)
      · exact hd
      · exact List.mem_takeWhile_imp ho

theorem numberWhole_complete {c c' : Cursor} {whole : List ℕ} (h : c.Reads whole c')
    (hd : ∀ unit ∈ whole, isDigit unit = true)
    (hz : whole = [0x30] ∨ ∃ first later, whole = first :: later ∧ 0x31 ≤ first) (hs : c'.Stops isDigit) :
    numberWhole c = .ok c' := by
  unfold numberWhole
  rcases hz with rfl | ⟨first, later, rfl, hf⟩
  · rw [(peek_eq (by decide)).2 h.of_cons.1]
    simp only [↓reduceIte, advance_of_reads h]
  · have hfd := hd first List.mem_cons_self
    simp only [isDigit, Bool.and_eq_true, decide_eq_true_eq] at hfd
    rw [(peek_eq (by unfold notAscii; omega)).2 h.of_cons.1]
    have h0 : first ≠ 0x30 := by omega
    simp only [h0, ↓reduceIte, hf, hfd.2, and_self, skipWhile_eq isDigit_byteOf h hd hs]

theorem numberFraction_sound {c c' : Cursor} (h : numberFraction c = .ok c') :
    ∃ digits, c.Reads (fractionText digits) c' ∧ ∀ unit ∈ digits, isDigit unit = true := by
  unfold numberFraction at h
  cases hc : c.consume 0x2E with
  | none =>
    simp only [hc] at h
    cases h
    exact ⟨[], Reads.refl c, by simp⟩
  | some c1 =>
    simp only [hc] at h
    split_ifs at h with hp
    cases h
    obtain ⟨digits, hd, hr⟩ := digits_reads c1
    have hne : digits ≠ [] := by
      rintro rfl
      exact hp (by rw [hr.position]; rfl)
    refine ⟨digits, ?_, hd⟩
    rw [fractionText, if_neg hne]
    exact ((consume_eq_some (by decide)).1 hc).trans hr

theorem numberFraction_complete {c c' : Cursor} {digits : List ℕ} (h : c.Reads (fractionText digits) c')
    (hd : ∀ unit ∈ digits, isDigit unit = true) (hs : c'.Stops isDigit) (hp : c'.rest.head? ≠ some 0x2E) :
    numberFraction c = .ok c' := by
  unfold numberFraction
  unfold fractionText at h
  split_ifs at h with he
  · rw [← h.nil_eq, (consume_eq_none (by decide)).2 hp]
  · have hr : c.Reads ([0x2E] ++ digits) c' := h
    obtain ⟨c1, h1, h2⟩ := hr.split
    have hk := skipWhile_eq isDigit_byteOf h2 hd hs
    have hpos : c'.position ≠ c1.position := by
      rw [h2.position]
      have := List.length_pos_of_ne_nil he
      omega
    simp only [(consume_eq_some (by decide)).2 h1, hk, hpos, ↓reduceIte]

theorem skipSign_reads (c : Cursor) :
    ∃ sign, (sign = [] ∨ sign = [0x2B] ∨ sign = [0x2D]) ∧ c.Reads sign (skipSign c) := by
  unfold skipSign
  split_ifs with h
  · rcases h with h | h
    · obtain ⟨unit, later, hr, hb⟩ := peek_isSome h
      have hu : unit = 0x2B := (byteOf_eq (by decide)).1 hb
      subst hu
      exact ⟨[0x2B], .inr (.inl rfl), reads_advance hr⟩
    · obtain ⟨unit, later, hr, hb⟩ := peek_isSome h
      have hu : unit = 0x2D := (byteOf_eq (by decide)).1 hb
      subst hu
      exact ⟨[0x2D], .inr (.inr rfl), reads_advance hr⟩
  · exact ⟨[], .inl rfl, Reads.refl c⟩

theorem skipSign_eq {c c' : Cursor} {sign : List ℕ} (h : c.Reads sign c')
    (hs : sign = [] ∨ sign = [0x2B] ∨ sign = [0x2D]) (hd : ∃ unit ∈ c'.rest.head?, isDigit unit = true) :
    skipSign c = c' := by
  unfold skipSign
  simp only [peek_eq (show 0x2B < notAscii by decide), peek_eq (show 0x2D < notAscii by decide)]
  rcases hs with rfl | rfl | rfl
  · rw [← h.nil_eq] at *
    obtain ⟨unit, hu, hd⟩ := hd
    have hne : ¬ (c'.rest.head? = some 0x2B ∨ c'.rest.head? = some 0x2D) := by
      rw [hu]
      rintro (he | he) <;> cases he <;> cases hd
    rw [if_neg hne]
  · rw [if_pos (.inl h.of_cons.1), advance_of_reads h]
  · rw [if_pos (.inr h.of_cons.1), advance_of_reads h]

theorem numberExponent_sound {c c' : Cursor} (h : numberExponent c = .ok c') :
    ∃ text power, c.Reads text c' ∧ ExponentText text power := by
  unfold numberExponent at h
  dsimp only at h
  split_ifs at h with he hp
  · cases h
    obtain ⟨letter, hl, hr⟩ : ∃ letter, (letter = 0x65 ∨ letter = 0x45) ∧ c.Reads [letter] c.advance := by
      rcases he with he | he
      all_goals
        obtain ⟨unit, later, hr, hb⟩ := peek_isSome he
        exact ⟨unit, by have := (byteOf_eq (by decide)).1 hb; omega, reads_advance hr⟩
    obtain ⟨sign, hs, hsign⟩ := skipSign_reads c.advance
    obtain ⟨digits, hd, hdigits⟩ := digits_reads (skipSign c.advance)
    have hne : digits ≠ [] := by
      rintro rfl
      exact hp (by rw [hdigits.position]; rfl)
    exact ⟨letter :: (sign ++ digits), _, hr.trans (hsign.trans hdigits), .some hl hs hne hd⟩
  · cases h
    exact ⟨[], 0, Reads.refl c, .none⟩

theorem numberExponent_complete {c c' : Cursor} {text : List ℕ} {power : ℤ} (h : c.Reads text c')
    (ht : ExponentText text power) (hs : Ends c') : numberExponent c = .ok c' := by
  unfold numberExponent
  simp only [peek_eq (show 0x65 < notAscii by decide), peek_eq (show 0x45 < notAscii by decide)]
  cases ht with
  | none =>
    have hne : ¬ (c.rest.head? = some 0x65 ∨ c.rest.head? = some 0x45) := by
      rw [← h.nil_eq]
      rintro (he | he) <;> cases hs _ he
    rw [if_neg hne, ← h.nil_eq]
  | @some letter sign digits hl hsign hne hd =>
    have hr : c.Reads ([letter] ++ (sign ++ digits)) c' := h
    obtain ⟨c1, h1, h2⟩ := hr.split
    obtain ⟨c2, h3, h4⟩ := h2.split
    have hletter : c.rest.head? = some 0x65 ∨ c.rest.head? = some 0x45 := by
      rw [h1.of_cons.1]
      simpa using hl
    have hfirst : ∃ unit ∈ c2.rest.head?, isDigit unit = true := by
      cases digits with
      | nil => exact absurd rfl hne
      | cons unit later => exact ⟨unit, h4.of_cons.1, hd unit List.mem_cons_self⟩
    have hk := skipWhile_eq isDigit_byteOf h4 hd hs.digits
    have hpos : c'.position ≠ c2.position := by
      rw [h4.position]
      have := List.length_pos_of_ne_nil hne
      omega
    simp only [hletter, ↓reduceIte, advance_of_reads h1, skipSign_eq h3 hsign hfirst, hk, hpos]

theorem numberEnd_sound {c c' : Cursor} (h : numberEnd c = .ok c') : ∃ n : Numeral, c.Reads n.text c' := by
  obtain ⟨c2, h2, h⟩ := bind_eq_ok.1 h
  obtain ⟨c3, h3, h4⟩ := bind_eq_ok.1 h
  obtain ⟨whole, hw, hd, hz⟩ := numberWhole_sound h2
  obtain ⟨fraction, hf, hfd⟩ := numberFraction_sound h3
  obtain ⟨exponent, power, he, ht⟩ := numberExponent_sound h4
  have hrest := hw.trans (hf.trans he)
  cases hm : c.consume 0x2D with
  | none =>
    rw [hm] at hrest
    exact ⟨⟨false, whole, fraction, exponent, power, hd, hz, hfd, ht⟩, hrest⟩
  | some c1 =>
    rw [hm] at hrest
    exact ⟨⟨true, whole, fraction, exponent, power, hd, hz, hfd, ht⟩, ((consume_eq_some (by decide)).1 hm).trans hrest⟩

namespace Numeral

/-- an exponent begins with its letter -/
theorem exponent_head {text : List ℕ} {power : ℤ} (h : ExponentText text power) :
    ∀ unit ∈ text.head?, isDigit unit = false ∧ unit ≠ 0x2E := by
  cases h with
  | none => simp
  | some hl => rcases hl with rfl | rfl <;> simp [isDigit]

/-- what follows the whole digits begins with a point or with the letter of the exponent -/
theorem tail_head (n : Numeral) : ∀ unit ∈ (fractionText n.fraction ++ n.exponent).head?, isDigit unit = false := by
  unfold fractionText
  split_ifs with h
  · intro unit hu
    exact (exponent_head n.exponent_text unit hu).1
  · simp [isDigit]

theorem whole_head (n : Numeral) : ∃ first later, n.whole = first :: later ∧ isDigit first = true := by
  rcases n.whole_zero with h | ⟨first, later, h, -⟩
  · exact ⟨0x30, [], h, by decide⟩
  · exact ⟨first, later, h, n.whole_digits first (by rw [h]; exact List.mem_cons_self)⟩

end Numeral

theorem numberEnd_complete {n : Numeral} {c c' : Cursor} (h : c.Reads n.text c') (hs : Ends c') :
    numberEnd c = .ok c' := by
  obtain ⟨c1, h1, h⟩ := h.split
  obtain ⟨c2, h2, h3⟩ := h.split
  obtain ⟨c3, h4, h5⟩ := h3.split
  obtain ⟨first, later, hw, hd⟩ := n.whole_head
  have hsign : (c.consume 0x2D).getD c = c1 := by
    unfold Numeral.sign at h1
    split_ifs at h1 with hn
    · rw [(consume_eq_some (by decide)).2 h1]
      rfl
    · rw [h1.nil_eq] at h2
      rw [hw] at h2
      have hne : c.rest.head? ≠ some 0x2D := by
        rw [h2.of_cons.1]
        rintro ⟨⟩
        cases hd
      rw [(consume_eq_none (by decide)).2 hne, ← h1.nil_eq]
      rfl
  have hstop2 : c2.Stops isDigit := digits_stop h3 n.tail_head fun _ => hs.digits
  have hstop3 : c3.Stops isDigit :=
    digits_stop h5 (fun unit hu => (Numeral.exponent_head n.exponent_text unit hu).1) fun _ => hs.digits
  have hpoint : c3.rest.head? ≠ some 0x2E := by
    intro hp
    cases he : n.exponent with
    | nil =>
      rw [he] at h5
      rw [← h5.nil_eq] at hp
      cases hs _ hp
    | cons letter more =>
      rw [he] at h5
      rw [h5.of_cons.1] at hp
      exact (Numeral.exponent_head n.exponent_text letter (by rw [he]; rfl)).2 (Option.some.inj hp)
  rw [numberEnd, hsign, numberWhole_complete h2 n.whole_digits n.whole_zero hstop2]
  show (numberFraction c2 >>= fun c => numberExponent c) = _
  rw [numberFraction_complete h4 n.fraction_digits hstop3 hpoint]
  exact numberExponent_complete h5 n.exponent_text hs

/-! ## The number a numeral writes -/

theorem signOf_digits {text : List ℕ} (h : ∃ unit ∈ text.head?, isDigit unit = true) : signOf text = (false, text) := by
  obtain ⟨unit, hu, hd⟩ := h
  unfold signOf
  split
  · cases hu
    cases hd
  · cases hu
    cases hd
  · rfl

theorem exponentOf_text {text : List ℕ} {power : ℤ} (h : ExponentText text power) : exponentOf text = some power := by
  cases h with
  | none => rfl
  | @some letter sign digits hl hs hne hd =>
    have hall : digits.all isDigit = true := List.all_eq_true.2 hd
    have hhead : ∃ unit ∈ digits.head?, isDigit unit = true := by
      cases digits with
      | nil => exact absurd rfl hne
      | cons unit later => exact ⟨unit, rfl, hd unit List.mem_cons_self⟩
    rw [exponentOf]
    rcases hs with rfl | rfl | rfl
    · simp [signOf_digits hhead, hl, hne, hall]
    · simp [signOf, hl, hne, hall]
    · simp [signOf, hl, hne, hall]

theorem takeWhile_digits {digits later : List ℕ} (hd : ∀ unit ∈ digits, isDigit unit = true)
    (hl : ∀ unit ∈ later.head?, isDigit unit = false) :
    (digits ++ later).takeWhile isDigit = digits ∧ (digits ++ later).dropWhile isDigit = later := by
  rw [List.takeWhile_append_of_pos hd, List.dropWhile_append_of_pos hd]
  cases later with
  | nil => simp
  | cons unit more => simp [hl unit rfl]

/-- every numeral is a decimal `str::parse::<f64>` reads -/
theorem parseF64_text {N : Type} (round : Bool → ℚ → N) (n : Numeral) :
    parseF64 round n.text = some (round n.negative n.magnitude) := by
  obtain ⟨first, later, hw, hd⟩ := n.whole_head
  have hsign : signOf n.text = (n.negative, n.whole ++ (fractionText n.fraction ++ n.exponent)) := by
    unfold Numeral.text Numeral.sign
    cases n.negative with
    | true => rfl
    | false => exact signOf_digits ⟨first, by rw [if_neg (by decide), List.nil_append, hw]; rfl, hd⟩
  have hwhole := takeWhile_digits n.whole_digits n.tail_head
  have hfraction : fractionOf (fractionText n.fraction ++ n.exponent) = (n.fraction, n.exponent) := by
    have he := Numeral.exponent_head n.exponent_text
    have hf := takeWhile_digits n.fraction_digits fun unit hu => (he unit hu).1
    unfold fractionText
    split_ifs with hn
    · rw [hn, List.nil_append, fractionOf]
      rintro rest hr
      exact (he 0x2E (by rw [hr]; rfl)).2 rfl
    · simp only [List.cons_append, fractionOf, hf.1, hf.2]
  have hne : ¬ (n.whole = [] ∧ n.fraction = []) := by simp [hw]
  simp only [parseF64, hsign, hwhole.1, hwhole.2, hfraction, hne, ↓reduceIte, exponentOf_text n.exponent_text,
    Option.map_some, Numeral.magnitude]

end Render.Js.Json
