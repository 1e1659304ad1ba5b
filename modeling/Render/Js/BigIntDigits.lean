/-
Digits of big integers (`parse_digits` and `to_string_radix` of `render-js/src/bigint.rs`).

Both work in chunks of digits that fit a limb. The parser keeps the digits that are not folded in yet as a value and the
power of the radix that belongs to it (`parseLoop_spec`). The printer divides by a power of the radix and spells every
remainder but the last with leading zeros: what it spells are the digits of the magnitude (`toStringRadix_eq`).
-/
import Mathlib.Data.Nat.Digits.Lemmas
import Render.Js.BigIntArithmetic
import Render.Net.Text

namespace Render.Js

open Render.Net

/-! ## The source -/

/-- `DIGITS` -/
def digitChars : List Char := "0123456789abcdefghijklmnopqrstuvwxyz".toList

/-- a digit of a radix up to 36; there is no other in the table -/
def digitChar (digit : ℕ) : Char := digitChars.getD digit ' '

/-- the value of a digit or a letter -/
def digitValue (character : Char) : Option ℕ :=
  let code := character.toNat
  if 48 ≤ code ∧ code ≤ 57 then some (code - 48)
  else if 97 ≤ code ∧ code ≤ 122 then some (code - 97 + 10)
  else if 65 ≤ code ∧ code ≤ 90 then some (code - 65 + 10)
  else none

/-- `char::to_digit` -/
def toDigit (radix : ℕ) (character : Char) : Option ℕ := (digitValue character).filter (· < radix)

/-- the loop of `mul_add_small` -/
def mulAddLimbs (factor : ℕ) : List ℕ → ℕ → List ℕ
  | [], carry => if carry ≠ 0 then [carry % 2 ^ 32] else []
  | limb :: rest, carry =>
    let total := limb * factor + carry
    total % 2 ^ 32 :: mulAddLimbs factor rest (total / 2 ^ 32)

/-- `mul_add_small` -/
def mulAddSmall (limbs : List ℕ) (factor addend : ℕ) : List ℕ := trim (mulAddLimbs factor limbs addend)

/-- the largest `u32` -/
def u32Max : ℕ := 2 ^ 32 - 1

/-- the loop of `parse_digits`: the limbs, and the value and the base of the digits that are not folded in yet -/
def parseLoop (radix : ℕ) : Chars → List ℕ → ℕ → ℕ → Option (List ℕ)
  | [], limbs, value, base => some (mulAddSmall limbs base value)
  | character :: rest, limbs, value, base =>
    match toDigit radix character with
    | none => none
    | some digit =>
      if u32Max / radix < base then parseLoop radix rest (mulAddSmall limbs base value) (0 * radix + digit) (1 * radix)
      else parseLoop radix rest limbs (value * radix + digit) (base * radix)

/-- the loop that finds the largest power of the radix in a limb, which grows by a bit at least in each turn -/
def chunkLoop (radix : ℕ) : ℕ → ℕ → ℕ → ℕ × ℕ
  | 0, chunk, width => (chunk, width)
  | fuel + 1, chunk, width =>
    if chunk ≤ u32Max / radix then chunkLoop radix fuel (chunk * radix) (width + 1) else (chunk, width)

/-- the remainders of dividing by the chunk until nothing is left, the lowest first -/
def groupLoop (chunk : ℕ) : ℕ → List ℕ → List ℕ
  | 0, _ => []
  | fuel + 1, limbs =>
    if limbs = [] then [] else (divSmall limbs chunk).2 :: groupLoop chunk fuel (divSmall limbs chunk).1

/-- the digits of a group, the lowest first -/
def digitLoop (radix : ℕ) : ℕ → ℕ → Chars
  | 0, _ => []
  | fuel + 1, value =>
    if value = 0 then [] else digitChar (value % radix) :: digitLoop radix fuel (value / radix)

/-- `Vec::resize` -/
def resize (digits : Chars) (width : ℕ) : Chars := digits.take width ++ List.replicate (width - digits.length) '0'

/-- what is printed for a group: every group but the first has the full width -/
def groupText (radix width index group : ℕ) : Chars :=
  let digits := digitLoop radix 32 group
  (if 0 < index then resize digits width else digits).reverse

namespace JsBigInt

/-- `parse_digits` -/
def parseDigits (digits : Chars) (radix : ℕ) : Option JsBigInt :=
  if digits = [] then none else (parseLoop radix digits [] 0 1).map (fromParts false)

/-- `to_string_radix` -/
def toStringRadix (a : JsBigInt) (radix : ℕ) : Chars :=
  if a.isZero then ['0']
  else
    let (chunk, width) := chunkLoop radix 32 radix 1
    let groups := groupLoop chunk (32 * a.limbs.length) a.limbs
    (if a.negative then ['-'] else []) ++ (groups.reverse.mapIdx (groupText radix width)).flatten

end JsBigInt

/-! ## Parsing -/

variable {limbs : List ℕ} {radix : ℕ}

theorem mulAddLimbs_spec (hl : Limbs limbs) {factor carry : ℕ} (hf : factor < 2 ^ 32) (hc : carry < 2 ^ 32) :
    Limbs (mulAddLimbs factor limbs carry) ∧
      magnitude (mulAddLimbs factor limbs carry) = magnitude limbs * factor + carry := by
  induction limbs generalizing carry with
  | nil =>
    unfold mulAddLimbs
    split_ifs with hzero
    · rw [Nat.mod_eq_of_lt hc]
      exact ⟨Limbs.cons_iff.2 ⟨hc, Limbs.nil⟩, by simp⟩
    · exact ⟨Limbs.nil, by simp_all⟩
  | cons limb rest ih =>
    obtain ⟨hlimb, hrest⟩ := Limbs.cons_iff.1 hl
    have hnext : (limb * factor + carry) / 2 ^ 32 < 2 ^ 32 := by
      rw [Nat.div_lt_iff_lt_mul (by norm_num)]
      calc limb * factor + carry ≤ (2 ^ 32 - 1) * (2 ^ 32 - 1) + carry :=
            Nat.add_le_add_right (Nat.mul_le_mul (by omega) (by omega)) _
        _ < 2 ^ 32 * 2 ^ 32 := by omega
    obtain ⟨hlimbs, hvalue⟩ := ih hrest hnext
    refine ⟨Limbs.cons_iff.2 ⟨Nat.mod_lt _ (by norm_num), hlimbs⟩, ?_⟩
    have hsplit := Nat.mod_add_div (limb * factor + carry) (2 ^ 32)
    rw [mulAddLimbs, magnitude_cons, hvalue, magnitude_cons]
    calc (limb * factor + carry) % 2 ^ 32 + 2 ^ 32 * (magnitude rest * factor + (limb * factor + carry) / 2 ^ 32)
        = (limb * factor + carry) % 2 ^ 32 + 2 ^ 32 * ((limb * factor + carry) / 2 ^ 32) +
            2 ^ 32 * magnitude rest * factor := by ring
      _ = (limb + 2 ^ 32 * magnitude rest) * factor + carry := by rw [hsplit]; ring

theorem mulAddSmall_spec (hl : Limbs limbs) {factor addend : ℕ} (hf : factor < 2 ^ 32) (ha : addend < 2 ^ 32) :
    Limbs (mulAddSmall limbs factor addend) ∧
      magnitude (mulAddSmall limbs factor addend) = magnitude limbs * factor + addend := by
  obtain ⟨hlimbs, hvalue⟩ := mulAddLimbs_spec hl hf ha
  exact ⟨hlimbs.trim, by rw [mulAddSmall, magnitude_trim, hvalue]⟩

theorem toDigit_lt {character : Char} {digit : ℕ} (h : toDigit radix character = some digit) : digit < radix := by
  rw [toDigit, Option.filter_eq_some_iff] at h
  exact of_decide_eq_true h.2

/-- the positional value of digits, the highest first -/
def positional (radix : ℕ) (digits : List ℕ) : ℕ := Nat.ofDigits radix digits.reverse

theorem positional_cons (digit : ℕ) (digits : List ℕ) :
    positional radix (digit :: digits) = digit * radix ^ digits.length + positional radix digits := by
  rw [positional, List.reverse_cons, Nat.ofDigits_append, Nat.ofDigits_singleton, List.length_reverse, positional]
  ring

/-- the digits that are not folded in yet stay below their base, which fits a `u32` -/
theorem parseLoop_spec (hradix : 2 ≤ radix) (hlimb : radix < 2 ^ 32) {text : Chars} {digits : List ℕ}
    (htext : text.mapM (toDigit radix) = some digits) (hl : Limbs limbs) {value base : ℕ} (hvalue : value < base)
    (hbase : base < 2 ^ 32) : ∃ result, parseLoop radix text limbs value base = some result ∧ Limbs result ∧
      magnitude result = (magnitude limbs * base + value) * radix ^ digits.length + positional radix digits := by
  induction text generalizing limbs value base digits with
  | nil =>
    obtain rfl : [] = digits := by simpa using htext
    obtain ⟨hlimbs, hmagnitude⟩ := mulAddSmall_spec hl hbase (hvalue.trans hbase)
    exact ⟨_, rfl, hlimbs, by simp [hmagnitude, positional]⟩
  | cons character rest ih =>
    rw [List.mapM_cons] at htext
    obtain ⟨digit, hdigit, htext⟩ := Option.bind_eq_some_iff.1 htext
    obtain ⟨others, hothers, hcons⟩ := Option.bind_eq_some_iff.1 htext
    obtain rfl : digit :: others = digits := Option.some.inj hcons
    have hless := toDigit_lt hdigit
    rw [parseLoop, hdigit]
    dsimp only
    split_ifs with hfull
    · obtain ⟨hlimbs, hmagnitude⟩ := mulAddSmall_spec hl hbase (hvalue.trans hbase)
      have hfresh : 0 * radix + digit < 1 * radix := by omega
      obtain ⟨result, hrun, hresult, heq⟩ := ih hothers hlimbs hfresh (by omega)
      refine ⟨result, hrun, hresult, ?_⟩
      rw [heq, hmagnitude, positional_cons, List.length_cons, pow_succ]
      ring
    · have hfits : base * radix ≤ u32Max := (Nat.le_div_iff_mul_le (by omega)).1 (Nat.not_lt.1 hfull)
      have hbound : value * radix + digit < base * radix := by
        calc value * radix + digit < value * radix + radix := by omega
          _ = (value + 1) * radix := by ring
          _ ≤ base * radix := Nat.mul_le_mul_right _ hvalue
      obtain ⟨result, hrun, hresult, heq⟩ := ih hothers hl hbound (by unfold u32Max at hfits; omega)
      refine ⟨result, hrun, hresult, ?_⟩
      rw [heq, positional_cons, List.length_cons, pow_succ]
      ring

/-- the value of digits is their positional value -/
theorem JsBigInt.parseDigits_spec (hradix : 2 ≤ radix) (hlimb : radix < 2 ^ 32) {text : Chars} (hne : text ≠ [])
    {digits : List ℕ} (htext : text.mapM (toDigit radix) = some digits) :
    ∃ a, parseDigits text radix = some a ∧ Normalized a ∧ val a = positional radix digits := by
  obtain ⟨result, hrun, hresult, hmagnitude⟩ := parseLoop_spec hradix hlimb htext Limbs.nil zero_lt_one (by norm_num)
  refine ⟨fromParts false result, ?_, normalized_fromParts hresult, ?_⟩
  · rw [parseDigits, if_neg hne, hrun, Option.map_some]
  · rw [val_fromParts, hmagnitude, magnitude_nil, zero_mul, zero_add, zero_mul, zero_add]
    rfl

/-! ## Printing -/

variable {chunk width fuel value : ℕ}

/-- the chunk is a power of the radix that fits a limb -/
theorem chunkLoop_spec (fuel : ℕ) (hradix : 2 ≤ radix) (hchunk : chunk = radix ^ width) (hfits : chunk ≤ u32Max) :
    (chunkLoop radix fuel chunk width).1 = radix ^ (chunkLoop radix fuel chunk width).2 ∧
      width ≤ (chunkLoop radix fuel chunk width).2 ∧ (chunkLoop radix fuel chunk width).1 ≤ u32Max := by
  induction fuel generalizing chunk width with
  | zero => exact ⟨hchunk, le_rfl, hfits⟩
  | succ fuel ih =>
    rw [chunkLoop]
    split_ifs with hsmall
    · have hnext : chunk * radix = radix ^ (width + 1) := by rw [hchunk, pow_succ]
      have hle : chunk * radix ≤ u32Max := (Nat.le_div_iff_mul_le (by omega)).1 hsmall
      obtain ⟨hpower, hwidth, hmax⟩ := ih hnext hle
      exact ⟨hpower, by omega, hmax⟩
    · exact ⟨hchunk, le_rfl, hfits⟩

theorem digitLoop_eq (hradix : 2 ≤ radix) (h : value < 2 ^ fuel) :
    digitLoop radix fuel value = (Nat.digits radix value).map digitChar := by
  induction fuel generalizing value with
  | zero =>
    obtain rfl : value = 0 := by omega
    simp [digitLoop]
  | succ fuel ih =>
    rw [digitLoop]
    split_ifs with hzero
    · simp [hzero]
    · have hdiv : value / radix < 2 ^ fuel := by
        rw [Nat.div_lt_iff_lt_mul (by omega)]
        calc value < 2 ^ fuel * 2 := by rwa [← pow_succ]
          _ ≤ 2 ^ fuel * radix := Nat.mul_le_mul_left _ hradix
      rw [ih hdiv, Nat.digits_def' (by omega) (Nat.pos_of_ne_zero hzero), List.map_cons]

theorem groupLoop_eq (hchunk : 2 ≤ chunk) (hl : Limbs limbs) (ht : Trimmed limbs) (h : magnitude limbs < 2 ^ fuel) :
    groupLoop chunk fuel limbs = Nat.digits chunk (magnitude limbs) := by
  induction fuel generalizing limbs with
  | zero =>
    have hzero : magnitude limbs = 0 := by omega
    rw [groupLoop, hzero, Nat.digits_zero]
  | succ fuel ih =>
    rw [groupLoop]
    split_ifs with hnil
    · rw [hnil, magnitude_nil, Nat.digits_zero]
    · have hpos : 0 < magnitude limbs := Nat.pos_of_ne_zero fun hzero => hnil ((magnitude_eq_zero ht).1 hzero)
      obtain ⟨hquotient, hless, hsplit⟩ := divLimbs_spec hl (d := chunk) (by omega)
      have hdiv : magnitude (divSmall limbs chunk).1 = magnitude limbs / chunk := by
        rw [divSmall, magnitude_trim, hsplit, mul_comm, Nat.mul_add_div (by omega), Nat.div_eq_of_lt hless, add_zero]
      have hmod : (divSmall limbs chunk).2 = magnitude limbs % chunk := by
        rw [divSmall, hsplit, mul_comm, Nat.mul_add_mod, Nat.mod_eq_of_lt hless]
      have hbound : magnitude (divSmall limbs chunk).1 < 2 ^ fuel := by
        rw [hdiv, Nat.div_lt_iff_lt_mul (by omega)]
        calc magnitude limbs < 2 ^ fuel * 2 := by rwa [← pow_succ]
          _ ≤ 2 ^ fuel * chunk := Nat.mul_le_mul_left _ hchunk
      have hlimbs : Limbs (divSmall limbs chunk).1 := hquotient.trim
      have htrimmed : Trimmed (divSmall limbs chunk).1 := trimmed_trim _
      rw [ih hlimbs htrimmed hbound, hdiv, hmod, Nat.digits_def' (by omega) hpos]

/-- the digits of a number, group by group from the lowest: every group but the highest has the full width -/
def spelled (radix width : ℕ) : List ℕ → List ℕ
  | [] => []
  | [group] => Nat.digits radix group
  | group :: groups =>
    Nat.digits radix group ++ List.replicate (width - (Nat.digits radix group).length) 0 ++ spelled radix width groups

theorem spelled_cons (group : ℕ) {groups : List ℕ} (h : groups ≠ []) : spelled radix width (group :: groups) =
    Nat.digits radix group ++ List.replicate (width - (Nat.digits radix group).length) 0 ++
      spelled radix width groups := by
  cases groups with
  | nil => exact absurd rfl h
  | cons next others => rfl

theorem length_digits_le (hradix : 2 ≤ radix) (h : value < radix ^ width) : (Nat.digits radix value).length ≤ width :=
  (Nat.digits_length_le_iff (by omega) value).2 h

/-- **Grouping.** Digits in groups are the digits. -/
theorem spelled_digits (hradix : 2 ≤ radix) (hwidth : 1 ≤ width) (n : ℕ) :
    spelled radix width (Nat.digits (radix ^ width) n) = Nat.digits radix n := by
  have hchunk : 1 < radix ^ width := Nat.one_lt_pow (by omega) (by omega)
  induction n using Nat.strong_induction_on with
  | _ n ih =>
    rcases Nat.eq_zero_or_pos n with rfl | hpos
    · rw [Nat.digits_zero, Nat.digits_zero]
      rfl
    · rw [Nat.digits_def' hchunk hpos]
      have hless : n % radix ^ width < radix ^ width := Nat.mod_lt _ (by omega)
      rcases Nat.eq_zero_or_pos (n / radix ^ width) with hzero | hrest
      · rw [hzero, Nat.digits_zero, spelled, Nat.mod_eq_of_lt ((Nat.div_eq_zero_iff_lt (by omega)).1 hzero)]
      · have hne : Nat.digits (radix ^ width) (n / radix ^ width) ≠ [] := Nat.digits_ne_nil_iff_ne_zero.2 (by omega)
        have hlength := length_digits_le hradix hless
        rw [spelled_cons _ hne, ih _ (Nat.div_lt_self hpos hchunk), Nat.digits_append_zeroes_append_digits (by omega) hrest,
          Nat.add_sub_cancel' hlength, Nat.mod_add_div]

/-- what is printed for the groups, the highest first -/
def printed (radix width : ℕ) (groups : List ℕ) : Chars := (groups.reverse.mapIdx (groupText radix width)).flatten

theorem printed_cons {group : ℕ} {groups : List ℕ} : printed radix width (group :: groups) =
    printed radix width groups ++ groupText radix width groups.length group := by
  rw [printed, List.reverse_cons, List.mapIdx_append, List.flatten_append, printed]
  simp

theorem printed_eq (hradix : 2 ≤ radix) (hmax : radix ^ width ≤ u32Max) {groups : List ℕ}
    (h : ∀ group ∈ groups, group < radix ^ width) :
    printed radix width groups = ((spelled radix width groups).map digitChar).reverse := by
  have hbits {group : ℕ} (hgroup : group < radix ^ width) : group < 2 ^ 32 := by
    unfold u32Max at hmax
    omega
  induction groups with
  | nil => rfl
  | cons group groups ih =>
    obtain ⟨hgroup, hgroups⟩ := List.forall_mem_cons.1 h
    rw [printed_cons, ih hgroups, groupText, digitLoop_eq hradix (hbits hgroup)]
    cases groups with
    | nil => simp [spelled]
    | cons next others =>
      have hlength := length_digits_le hradix hgroup
      have hresize : resize ((Nat.digits radix group).map digitChar) width =
          (Nat.digits radix group ++ List.replicate (width - (Nat.digits radix group).length) 0).map digitChar := by
        rw [resize, List.take_of_length_le (by simpa using hlength), List.map_append, List.map_replicate, List.length_map]
        rfl
      rw [if_pos (List.length_pos_of_ne_nil (List.cons_ne_nil next others)), hresize,
        spelled_cons _ (List.cons_ne_nil _ _), ← List.reverse_append, ← List.map_append]

/-- **Printing.** What is printed are the digits of the magnitude, the highest first, behind the sign. -/
theorem JsBigInt.toStringRadix_eq {a : JsBigInt} (ha : Normalized a) (hradix : 2 ≤ radix) (hmax : radix ≤ 36)
    (hzero : a.isZero = false) : a.toStringRadix radix = (if a.negative then ['-'] else []) ++
      ((Nat.digits radix (magnitude a.limbs)).map digitChar).reverse := by
  obtain ⟨hpower, hwidth, hfits⟩ := chunkLoop_spec 32 hradix (pow_one radix).symm
    (show radix ≤ u32Max by unfold u32Max; omega)
  have hchunk : 2 ≤ (chunkLoop radix 32 radix 1).1 := by
    rw [hpower]
    exact hradix.trans (Nat.le_self_pow (by omega) radix)
  have hbound : magnitude a.limbs < 2 ^ (32 * a.limbs.length) := by
    rw [pow_mul]
    exact magnitude_lt ha.limbs
  have hgroups : ∀ group ∈ Nat.digits (chunkLoop radix 32 radix 1).1 (magnitude a.limbs),
      group < radix ^ (chunkLoop radix 32 radix 1).2 := fun group hmem =>
    hpower ▸ Nat.digits_lt_base (by omega) hmem
  rw [toStringRadix, hzero, if_neg Bool.false_ne_true]
  dsimp only
  rw [groupLoop_eq hchunk ha.limbs ha.trimmed hbound, ← printed, printed_eq hradix (hpower ▸ hfits) hgroups, hpower,
    spelled_digits hradix hwidth]

/-! ## Round trip -/

theorem digitValue_digitChar : ∀ digit < 36, digitValue (digitChar digit) = some digit := by decide

theorem toDigit_digitChar (hmax : radix ≤ 36) {digit : ℕ} (h : digit < radix) :
    toDigit radix (digitChar digit) = some digit := by
  rw [toDigit, digitValue_digitChar digit (by omega), Option.filter_some, if_pos (decide_eq_true h)]

/-- printed digits are read back -/
theorem mapM_toDigit (hmax : radix ≤ 36) {digits : List ℕ} (h : ∀ digit ∈ digits, digit < radix) :
    (digits.map digitChar).mapM (toDigit radix) = some digits := by
  induction digits with
  | nil => rfl
  | cons digit digits ih =>
    obtain ⟨hdigit, hdigits⟩ := List.forall_mem_cons.1 h
    rw [List.map_cons, List.mapM_cons, toDigit_digitChar hmax hdigit, ih hdigits]
    rfl

namespace JsBigInt

/-- a printed number without its sign -/
def magnitudeDigits (text : Chars) : Chars := if text.head? = some '-' then text.tail else text

theorem magnitudeDigits_toStringRadix {a : JsBigInt} (ha : Normalized a) (hradix : 2 ≤ radix) (hmax : radix ≤ 36)
    (hzero : a.isZero = false) : magnitudeDigits (a.toStringRadix radix) =
      ((Nat.digits radix (magnitude a.limbs)).reverse).map digitChar := by
  rw [toStringRadix_eq ha hradix hmax hzero, ← List.map_reverse]
  cases a.negative with
  | true => rfl
  | false =>
    refine if_neg fun hhead => ?_
    obtain ⟨digit, hdigit, hchar⟩ := List.mem_map.1 (List.mem_of_mem_head? hhead)
    have hless := Nat.digits_lt_base (by omega) (List.mem_reverse.1 hdigit)
    have hvalue := digitValue_digitChar digit (by omega)
    have hdash : digitValue '-' = none := by decide
    rw [hchar, hdash] at hvalue
    cases hvalue

/-- no zero leads a number that is not zero -/
theorem head_magnitudeDigits {a : JsBigInt} (ha : Normalized a) (hradix : 2 ≤ radix) (hmax : radix ≤ 36)
    (hzero : a.isZero = false) : (magnitudeDigits (a.toStringRadix radix)).head? ≠ some '0' := by
  rw [magnitudeDigits_toStringRadix ha hradix hmax hzero, List.head?_map, List.head?_reverse]
  intro hhead
  obtain ⟨digit, hlast, hchar⟩ := Option.map_eq_some_iff.1 hhead
  have hmem := List.mem_of_getLast? hlast
  have hless := Nat.digits_lt_base (by omega) hmem
  have hvalue := digitValue_digitChar digit (by omega)
  have hdigit : digitValue '0' = some 0 := by decide
  rw [hchar, hdigit] at hvalue
  obtain rfl := Option.some.inj hvalue
  have hne : magnitude a.limbs ≠ 0 := fun heq => by
    have hnil := (magnitude_eq_zero ha.trimmed).1 heq
    rw [isZero, hnil] at hzero
    cases hzero
  have hnonzero := Nat.getLast_digit_ne_zero radix hne
  rw [List.getLast?_eq_some_getLast (Nat.digits_ne_nil_iff_ne_zero.2 hne)] at hlast
  exact hnonzero (Option.some.inj hlast)

/-- **Digits stand for numbers.** What is printed for a value is read back as its magnitude, with no zero in front; and
every text of digits is read as its positional value. -/
theorem digits_faithful {a : JsBigInt} (ha : Normalized a) (hradix : 2 ≤ radix) (hmax : radix ≤ 36) :
    parseDigits (magnitudeDigits (a.toStringRadix radix)) radix = some (fromParts false a.limbs) ∧
    (a.isZero = false → (magnitudeDigits (a.toStringRadix radix)).head? ≠ some '0') ∧
    ∀ text digits, text ≠ [] → text.mapM (toDigit radix) = some digits →
      ∃ b, parseDigits text radix = some b ∧ Normalized b ∧ val b = positional radix digits := by
  have hparse {text : Chars} {digits : List ℕ} (hne : text ≠ []) (htext : text.mapM (toDigit radix) = some digits) :=
    parseDigits_spec hradix (by omega) hne htext
  refine ⟨?_, head_magnitudeDigits ha hradix hmax, fun text digits => hparse⟩
  have hvalue : val (fromParts false a.limbs) = magnitude a.limbs := by
    rw [val_fromParts, if_neg Bool.false_ne_true]
  cases hzero : a.isZero with
  | true =>
    have hnil : a.limbs = [] := List.isEmpty_iff.1 hzero
    have htext : magnitudeDigits (a.toStringRadix radix) = [digitChar 0] := by
      rw [toStringRadix, if_pos hzero]
      rfl
    have hdigits : [digitChar 0].mapM (toDigit radix) = some [0] :=
      mapM_toDigit hmax (List.forall_mem_singleton.2 (by omega))
    obtain ⟨b, hrun, hb, hval⟩ := hparse (List.cons_ne_nil _ _) hdigits
    rw [htext, hrun, (val_inj hb (normalized_fromParts ha.limbs)).2]
    rw [hval, hvalue, hnil]
    simp [positional]
  | false =>
    have hpos : magnitude a.limbs ≠ 0 := fun heq => by
      rw [isZero, (magnitude_eq_zero ha.trimmed).1 heq] at hzero
      cases hzero
    have hlt (digit : ℕ) (hmem : digit ∈ (Nat.digits radix (magnitude a.limbs)).reverse) : digit < radix :=
      Nat.digits_lt_base (by omega) (List.mem_reverse.1 hmem)
    rw [magnitudeDigits_toStringRadix ha hradix hmax hzero]
    obtain ⟨b, hrun, hb, hval⟩ := hparse (by simpa using Nat.digits_ne_nil_iff_ne_zero.2 hpos) (mapM_toDigit hmax hlt)
    rw [hrun, (val_inj hb (normalized_fromParts ha.limbs)).2]
    rw [hval, hvalue, positional, List.reverse_reverse, Nat.ofDigits_digits]

/-- -255 in hexadecimal -/
theorem digits_faithful_sample : parseDigits (magnitudeDigits ((fromI64 (-255)).toStringRadix 16)) 16 =
    some (fromParts false (fromI64 (-255)).limbs) :=
  (digits_faithful (fromI64_spec (by norm_num) (by norm_num)).1 (by norm_num) (by norm_num)).1

end JsBigInt

end Render.Js
