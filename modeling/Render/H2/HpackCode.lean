/-
HPACK integers and strings round-trip: what `encode_integer` and `encode_string` write, the decoder reads back, and it
goes on behind it. Integers do so up to `u32::MAX` only, since `decode_integer` refuses what is larger.

An integer is written as a prefix that shares an octet with a pattern, and, when the prefix is full, as groups of seven
bits. `encodeRest_decodeRest` is the induction over these groups: `value` is what the decoder has read so far, at a shift
of seven bits a group.
-/
import Render.H2.Hpack

namespace Render.H2

open Render.Core

@[simp] theorem pure_ok {ε α : Type} (a : α) : (pure a : Except ε α) = .ok a := rfl

@[simp] theorem ok_bind {ε α β : Type} (a : α) (f : α → Except ε β) : (Except.ok a >>= f) = f a := rfl

@[simp] theorem refuse_not {ε : Type} {p : Prop} [Decidable p] (h : ¬ p) (e : ε) : refuse p e = .ok () := by
  simp [refuse, h]

/-! ## Octets -/

/-- an octet whose high bit says whether another group follows -/
theorem groups : ∀ n < 128, (UInt8.ofNat n &&& 0x80 = 0 ∧ (UInt8.ofNat n).toNat % 128 = n) ∧
    UInt8.ofNat (n + 128) &&& 0x80 ≠ 0 ∧ (UInt8.ofNat (n + 128)).toNat % 128 = n := by decide +kernel

theorem group_last (n : ℕ) (hn : n < 128) : UInt8.ofNat n &&& 0x80 = 0 ∧ (UInt8.ofNat n).toNat % 128 = n := (groups n hn).1

theorem group_more (n : ℕ) (hn : n < 128) : UInt8.ofNat (n + 128) &&& 0x80 ≠ 0 ∧ (UInt8.ofNat (n + 128)).toNat % 128 = n :=
  (groups n hn).2

/-- the prefix of `bits` bits leaves the pattern alone: it can be read back -/
def ReadsPrefix (bits : ℕ) (pattern : UInt8) : Prop :=
  ∀ v < 2 ^ bits, (pattern ||| UInt8.ofNat v).toNat &&& (2 ^ bits - 1) = v

instance (bits : ℕ) (pattern : UInt8) : Decidable (ReadsPrefix bits pattern) :=
  inferInstanceAs (Decidable (∀ v < 2 ^ bits, _))

/-! ## Integers -/

/-- **The groups of an integer.** Behind `value`, the decoder reads `remaining` at its shift. -/
theorem encodeRest_decodeRest (rest : Octets) (fuel : ℕ) :
    ∀ remaining value k, remaining ≤ fuel → value + remaining * 2 ^ (7 * k) ≤ u32Max →
      decodeRest (encodeRest fuel remaining ++ rest) value (7 * k) = .ok (value + remaining * 2 ^ (7 * k), rest) := by
  induction fuel with
  | zero =>
    intro remaining value k hfuel hfits
    obtain rfl : remaining = 0 := by omega
    have hlow : ¬ value > u32Max := by omega
    simp [encodeRest, decodeRest, hlow]
  | succ fuel ih =>
    intro remaining value k hfuel hfits
    by_cases hmore : remaining ≥ 128
    · obtain ⟨hbit, hgroup⟩ := group_more (remaining % 128) (Nat.mod_lt _ (by omega))
      have hsplit : remaining % 128 + 128 * (remaining / 128) = remaining := Nat.mod_add_div remaining 128
      have hpow : 2 ^ (7 * (k + 1)) = 128 * 2 ^ (7 * k) := by
        rw [Nat.mul_succ, Nat.pow_add, Nat.mul_comm]
      have hsum : value + remaining % 128 * 2 ^ (7 * k) + remaining / 128 * 2 ^ (7 * (k + 1)) =
          value + remaining * 2 ^ (7 * k) := by
        calc _ = value + (remaining % 128 + 128 * (remaining / 128)) * 2 ^ (7 * k) := by rw [hpow]; ring
          _ = _ := by rw [hsplit]
      have hlow : ¬ value + remaining % 128 * 2 ^ (7 * k) > u32Max := by omega
      -- a group of weight `2 ^ (7 * k)` that is not the last one has 7 * k + 7 ≤ 28
      have hshift : ¬ 7 * k + 7 > 28 := by
        intro hlarge
        have hk : 2 ^ 28 ≤ 2 ^ (7 * k) := Nat.pow_le_pow_right (by omega) (by omega)
        have hbig : 128 * 2 ^ 28 ≤ remaining * 2 ^ (7 * k) := Nat.mul_le_mul hmore hk
        simp only [u32Max] at hfits
        omega
      simp only [encodeRest, if_pos hmore, List.cons_append, decodeRest, hgroup, Nat.shiftLeft_eq, if_neg hlow,
        if_neg hbit, if_neg hshift]
      rw [← hsum] at hfits
      rw [← hsum]
      exact ih (remaining / 128) _ (k + 1) (by omega) hfits
    · obtain ⟨hbit, hgroup⟩ := group_last remaining (by omega)
      have hlow : ¬ value + remaining * 2 ^ (7 * k) > u32Max := by omega
      simp only [encodeRest, if_neg hmore, List.cons_append, List.nil_append, decodeRest, hgroup, Nat.shiftLeft_eq,
        if_neg hlow, if_pos hbit]

/-- the first octet of an integer: the pattern and a prefix -/
theorem encodeInteger_first (value bits : ℕ) (pattern : UInt8) :
    ∃ v < 2 ^ bits, ∃ tail, encodeInteger value bits pattern = (pattern ||| UInt8.ofNat v) :: tail := by
  have hpos : 0 < 2 ^ bits := Nat.two_pow_pos bits
  by_cases hsmall : value < 2 ^ bits - 1
  · exact ⟨value, by omega, [], by simp [encodeInteger, hsmall]⟩
  · exact ⟨2 ^ bits - 1, by omega, _, by rw [encodeInteger, if_neg hsmall]⟩

theorem decodeInteger_encodeInteger {value bits : ℕ} {pattern : UInt8} (hread : ReadsPrefix bits pattern)
    (hfits : value ≤ u32Max) (rest : Octets) :
    decodeInteger (encodeInteger value bits pattern ++ rest) bits = .ok (value, rest) := by
  have hpos : 0 < 2 ^ bits := Nat.two_pow_pos bits
  by_cases hsmall : value < 2 ^ bits - 1
  · simp only [encodeInteger, if_pos hsmall, List.cons_append, List.nil_append, decodeInteger,
      hread value (by omega)]
  · have hsum : 2 ^ bits - 1 + (value - (2 ^ bits - 1)) * 2 ^ (7 * 0) = value := by simp; omega
    have hgroups := encodeRest_decodeRest rest _ _ (2 ^ bits - 1) 0 (Nat.le_refl _) (hsum.trans_le hfits)
    simp only [encodeInteger, if_neg hsmall, List.cons_append, decodeInteger, hread (2 ^ bits - 1) (by omega),
      Nat.lt_irrefl, if_false]
    rw [hsum] at hgroups
    exact hgroups

/-! ## Strings -/

/-- the octets a string takes in a block, without the length in front of them -/
def coded (value : Octets) (huffman : Bool) : Octets :=
  if huffman ∧ (Huffman.encode value).length < value.length then Huffman.encode value else value

/-- the two forms of a string differ in the high bit of their first octet -/
theorem length_octets : (∀ v < 2 ^ 7, (0x80 ||| UInt8.ofNat v) &&& 0x80 ≠ 0 ∧ (0 ||| UInt8.ofNat v) &&& 0x80 = 0) ∧
    ReadsPrefix 7 0x80 ∧ ReadsPrefix 7 0 := by decide +kernel

theorem huffman_bit (v : ℕ) (hv : v < 2 ^ 7) : (0x80 ||| UInt8.ofNat v) &&& 0x80 ≠ 0 := (length_octets.1 v hv).1

theorem raw_bit (v : ℕ) (hv : v < 2 ^ 7) : (0 ||| UInt8.ofNat v) &&& 0x80 = 0 := (length_octets.1 v hv).2

theorem reads_length : ReadsPrefix 7 0x80 ∧ ReadsPrefix 7 0 := length_octets.2

/-- a string whose length the decoder reads and allows -/
theorem decodeString_coded (decoder : HpackDecoder) {octets rest : Octets} {pattern : UInt8}
    (hread : ReadsPrefix 7 pattern) (hfits : octets.length ≤ u32Max) (hlimit : octets.length ≤ decoder.maxStringSize) :
    ∃ v < 2 ^ 7, decoder.decodeString (encodeInteger octets.length 7 pattern ++ octets ++ rest) =
      if (pattern ||| UInt8.ofNat v) &&& 0x80 ≠ 0 then (Huffman.decode octets).map fun value => (value, rest)
      else .ok (octets, rest) := by
  obtain ⟨v, hv, tail, hfirst⟩ := encodeInteger_first octets.length 7 pattern
  have hlength := decodeInteger_encodeInteger hread hfits (octets ++ rest)
  refine ⟨v, hv, ?_⟩
  rw [hfirst] at hlength ⊢
  simp only [List.cons_append, List.append_assoc] at hlength ⊢
  simp only [HpackDecoder.decodeString, hlength, ok_bind, refuse_not (Nat.not_lt.2 hlimit), List.length_append,
    refuse_not (Nat.not_lt.2 (Nat.le_add_right octets.length rest.length)), List.take_left, List.drop_left, pure_ok]
  split_ifs
  · cases Huffman.decode octets <;> rfl
  · rfl

/-- **Strings round-trip.** -/
theorem decodeString_encodeString (decoder : HpackDecoder) {value : Octets} {huffman : Bool}
    (hfits : (coded value huffman).length ≤ u32Max) (hlimit : (coded value huffman).length ≤ decoder.maxStringSize)
    (rest : Octets) : decoder.decodeString (encodeString value huffman ++ rest) = .ok (value, rest) := by
  rw [coded] at hfits hlimit
  rw [encodeString]
  split_ifs at hfits hlimit ⊢ with hshorter
  · obtain ⟨v, hv, hdecode⟩ := @decodeString_coded decoder _ rest _ reads_length.1 hfits hlimit
    rw [hdecode, if_pos (huffman_bit v hv), Huffman.decode_encode]
    rfl
  · obtain ⟨v, hv, hdecode⟩ := @decodeString_coded decoder _ rest _ reads_length.2 hfits hlimit
    rw [hdecode, if_neg (not_not_intro (raw_bit v hv))]

end Render.H2
