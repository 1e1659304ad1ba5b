/-
The bit operations of big integers (`render-js/src/bigint.rs`), on limbs in two's complement.

`testBit_twosComplement`: the limbs have the bits of the integer as far as they go. `val_fromTwosComplement`: limbs are read
back as the integer that goes on with their top bit. So a bit operation on limbs is that operation on the infinite
two's-complement forms (`bitwise_spec`).
-/
import Render.Js.BigIntArithmetic

namespace Render.Js

open Render.Core

variable {l r : List ℕ}

/-! ## Bits of a magnitude -/

theorem testBit_magnitude (hl : Limbs l) (k : ℕ) : (magnitude l).testBit k = (l.getD (k / 32) 0).testBit (k % 32) := by
  induction l generalizing k with
  | nil => simp
  | cons a l ih =>
    obtain ⟨ha, hl⟩ := Limbs.cons_iff.1 hl
    rw [magnitude_cons, add_comm, Nat.testBit_two_pow_mul_add _ ha]
    split_ifs with hk
    · rw [Nat.div_eq_of_lt hk, Nat.mod_eq_of_lt hk, List.getD_cons_zero]
    · have hdiv : k / 32 = (k - 32) / 32 + 1 := by omega
      have hmod : k % 32 = (k - 32) % 32 := by omega
      rw [ih hl, hdiv, hmod, List.getD_cons_succ]

theorem magnitude_map_notLimb (hl : Limbs l) :
    Limbs (l.map JsBigInt.notLimb) ∧ magnitude (l.map JsBigInt.notLimb) = 2 ^ (32 * l.length) - (magnitude l + 1) := by
  induction l with
  | nil => exact ⟨Limbs.nil, rfl⟩
  | cons a l ih =>
    obtain ⟨ha, hl⟩ := Limbs.cons_iff.1 hl
    obtain ⟨h1, h2⟩ := ih hl
    have hlt := magnitude_lt hl
    rw [← pow_mul] at hlt
    have hpow : 2 ^ (32 * (l.length + 1)) = 2 ^ 32 * 2 ^ (32 * l.length) := by rw [← pow_add]; congr 1; ring
    have hnot : JsBigInt.notLimb a < 2 ^ 32 := by unfold JsBigInt.notLimb; omega
    refine ⟨Limbs.cons_iff.2 ⟨hnot, h1⟩, ?_⟩
    rw [List.map_cons, magnitude_cons, magnitude_cons, h2, List.length_cons, hpow]
    unfold JsBigInt.notLimb
    omega

namespace JsBigInt

variable {a b : JsBigInt}

/-- a value, or one less than the magnitude of a negative one: the number whose bits, or their complements, the
two's-complement form has -/
def natPart (a : JsBigInt) : ℕ := if a.negative then magnitude a.limbs - 1 else magnitude a.limbs

theorem testBit_val (ha : Normalized a) (k : ℕ) : (val a).testBit k = (a.negative ^^ a.natPart.testBit k) := by
  unfold val natPart
  cases hs : a.negative with
  | false => simp [Int.testBit]
  | true =>
    obtain ⟨m, hm⟩ : ∃ m, magnitude a.limbs = m + 1 := ⟨magnitude a.limbs - 1, by have := ha.magnitude_pos hs; omega⟩
    rw [if_pos rfl, if_pos rfl, hm, Nat.add_sub_cancel]
    show (!m.testBit k) = (true ^^ m.testBit k)
    simp

theorem natPart_lt (ha : Normalized a) {length : ℕ} (hlen : a.limbs.length ≤ length) : a.natPart < 2 ^ (32 * length) := by
  have hlt := magnitude_lt ha.limbs
  rw [← pow_mul] at hlt
  have hle : a.natPart ≤ magnitude a.limbs := by
    unfold natPart
    split_ifs
    · exact Nat.sub_le _ _
    · exact le_rfl
  exact (hle.trans_lt hlt).trans_le (Nat.pow_le_pow_right (by norm_num) (by omega))

/-- the limbs of `natPart`, as many as are asked for -/
theorem resized_spec (ha : Normalized a) {length : ℕ} (hlen : a.limbs.length ≤ length) {m : List ℕ}
    (hm : m = if a.negative then subMagnitude a.limbs [1] else a.limbs) :
    Limbs (m.take length ++ List.replicate (length - m.length) 0) ∧
      (m.take length ++ List.replicate (length - m.length) 0).length = length ∧
      magnitude (m.take length ++ List.replicate (length - m.length) 0) = a.natPart := by
  have hspec : Limbs m ∧ m.length ≤ length ∧ magnitude m = a.natPart := by
    unfold natPart
    cases hs : a.negative with
    | false =>
      rw [hs] at hm
      rw [hm]
      exact ⟨ha.limbs, hlen, rfl⟩
    | true =>
      rw [hs, if_pos rfl] at hm
      have hmag : magnitude m = magnitude a.limbs - 1 := by
        rw [hm, magnitude_subMagnitude ha.limbs limbs_one trimmed_one (by rw [magnitude_one]; exact ha.magnitude_pos hs),
          magnitude_one]
      have htrim : Trimmed m := by rw [hm]; exact trimmed_trim _
      exact ⟨hm ▸ limbs_subMagnitude ha.limbs limbs_one,
        (length_le_of_magnitude_le ha.limbs htrim (by omega)).trans hlen, hmag⟩
  obtain ⟨h1, h2, h3⟩ := hspec
  rw [List.take_of_length_le h2]
  refine ⟨Limbs.append_iff.2 ⟨h1, Limbs.replicate _⟩, ?_, ?_⟩
  · rw [List.length_append, List.length_replicate]
    omega
  · rw [magnitude_append, magnitude_replicate, mul_zero, add_zero, h3]

/-- **The limbs in two's complement** have the bits of the integer. -/
theorem twosComplement_spec (ha : Normalized a) {length : ℕ} (hlen : a.limbs.length ≤ length) :
    Limbs (a.twosComplement length) ∧ (a.twosComplement length).length = length ∧
      ∀ k < 32 * length, (magnitude (a.twosComplement length)).testBit k = (val a).testBit k := by
  obtain ⟨h1, h2, h3⟩ := resized_spec ha hlen rfl
  have hlt := natPart_lt ha hlen
  unfold twosComplement
  dsimp only
  cases hs : a.negative with
  | false =>
    rw [hs] at h1 h2 h3
    refine ⟨h1, h2, fun k _ => ?_⟩
    rw [testBit_val ha, hs, Bool.false_xor, ← h3]
    rfl
  | true =>
    rw [hs] at h1 h2 h3
    obtain ⟨hn1, hn2⟩ := magnitude_map_notLimb h1
    refine ⟨hn1, (List.length_map _).trans h2, fun k hk => ?_⟩
    rw [if_pos rfl, hn2, h2, h3, Nat.testBit_two_pow_sub_succ hlt, testBit_val ha, hs, Bool.true_xor]
    simp [hk]

/-- limbs are read as the integer that goes on with their top bit -/
theorem fromTwosComplement_spec (hl : Limbs l) (hne : l ≠ []) : Normalized (fromTwosComplement l) ∧
    ∀ k, (val (fromTwosComplement l)).testBit k =
      if k < 32 * l.length then (magnitude l).testBit k else (magnitude l).testBit (32 * l.length - 1) := by
  obtain ⟨low, top, rfl⟩ : ∃ low top, l = low ++ [top] := ⟨l.dropLast, l.getLast hne, (List.dropLast_concat_getLast hne).symm⟩
  set l := low ++ [top] with hldef
  have hlen : l.length = low.length + 1 := by simp [hldef]
  have hlt := magnitude_lt hl
  rw [← pow_mul] at hlt
  have htop : top < 2 ^ 32 := hl top (by simp [hldef])
  -- the top bit of the top limb
  have hbit : ((l.getLast?.map (· &&& 0x80000000 != 0)).getD false) = (magnitude l).testBit (32 * l.length - 1) := by
    have hk : (32 * l.length - 1) / 32 = low.length ∧ (32 * l.length - 1) % 32 = 31 := by omega
    have hand : (top &&& 0x80000000 != 0) = top.testBit 31 := by
      rw [show (0x80000000 : ℕ) = 2 ^ 31 by norm_num, Nat.and_two_pow]
      cases top.testBit 31 <;> rfl
    rw [testBit_magnitude hl, hk.1, hk.2, hldef, List.getLast?_concat, Option.map_some, Option.getD_some, hand]
    congr 1
    simp
  unfold fromTwosComplement
  rw [hbit]
  cases hs : (magnitude l).testBit (32 * l.length - 1) with
  | false =>
    refine ⟨normalized_fromParts hl, fun k => ?_⟩
    show (val (fromParts false l)).testBit k = _
    rw [val_fromParts, if_neg Bool.false_ne_true]
    split_ifs with hk
    · rfl
    · exact Nat.testBit_lt_two_pow (hlt.trans_le (Nat.pow_le_pow_right (by norm_num) (Nat.le_of_not_lt hk)))
  | true =>
    obtain ⟨hn1, hn2⟩ := magnitude_map_notLimb hl
    refine ⟨normalized_fromParts limbs_addMagnitude, fun k => ?_⟩
    show (val (fromParts true (addMagnitude (l.map notLimb) [1]))).testBit k = _
    rw [val_fromParts, if_pos rfl, magnitude_addMagnitude hn1 limbs_one, magnitude_one, hn2]
    have hval : (-((2 ^ (32 * l.length) - (magnitude l + 1) + 1 : ℕ) : ℤ)) = (magnitude l : ℤ) - 2 ^ (32 * l.length) := by
      push_cast [show magnitude l + 1 ≤ 2 ^ (32 * l.length) from hlt]
      ring
    rw [hval, testBit_sub_two_pow hlt]
    by_cases hk : k < 32 * l.length
    · simp [hk, Nat.not_le.2 hk]
    · simp [hk, Nat.le_of_not_lt hk]

/-- **Bit operations** are those on the infinite two's-complement forms. -/
theorem bitwise_spec (ha : Normalized a) (hb : Normalized b) {operation : ℕ → ℕ → ℕ} {f : Bool → Bool → Bool}
    (hfits : ∀ x y, x < 2 ^ 32 → y < 2 ^ 32 → operation x y < 2 ^ 32)
    (hf : ∀ x y k, (operation x y).testBit k = f (x.testBit k) (y.testBit k)) :
    Normalized (a.bitwise b operation) ∧ val (a.bitwise b operation) = Int.bitwise f (val a) (val b) := by
  unfold bitwise
  dsimp only
  set length := max a.limbs.length b.limbs.length + 1 with hlength
  have hla : a.limbs.length ≤ length := by omega
  have hlb : b.limbs.length ≤ length := by omega
  obtain ⟨ha1, ha2, ha3⟩ := twosComplement_spec ha hla
  obtain ⟨hb1, hb2, hb3⟩ := twosComplement_spec hb hlb
  set left := a.twosComplement length
  set right := b.twosComplement length
  have hzlen : (List.zipWith operation left right).length = length := by rw [List.length_zipWith, ha2, hb2, min_self]
  have hzget : ∀ i < length, (List.zipWith operation left right).getD i 0 = operation (left.getD i 0) (right.getD i 0) := by
    intro i hi
    rw [List.getD_eq_getElem _ _ (by omega), List.getElem_zipWith, List.getD_eq_getElem _ _ (by omega),
      List.getD_eq_getElem _ _ (by omega)]
  have hz : Limbs (List.zipWith operation left right) := fun x hx => by
    obtain ⟨i, hi, rfl⟩ := List.mem_iff_getElem.1 hx
    rw [List.getElem_zipWith]
    exact hfits _ _ (ha1 _ (List.getElem_mem _)) (hb1 _ (List.getElem_mem _))
  have hbits : ∀ k < 32 * length,
      (magnitude (List.zipWith operation left right)).testBit k = f ((val a).testBit k) ((val b).testBit k) := by
    intro k hk
    rw [testBit_magnitude hz, hzget _ (by omega), hf, ← testBit_magnitude ha1, ← testBit_magnitude hb1, ha3 k hk, hb3 k hk]
  have hne : List.zipWith operation left right ≠ [] := List.length_pos_iff.1 (by omega)
  obtain ⟨hn, hv⟩ := fromTwosComplement_spec hz hne
  refine ⟨hn, int_eq_of_testBit fun k => ?_⟩
  rw [hv, hzlen, Int.testBit_bitwise]
  -- above the limbs both operands repeat their sign
  have hhigh : ∀ {c : JsBigInt}, Normalized c → c.limbs.length < length → ∀ k, 32 * (length - 1) ≤ k →
      (val c).testBit k = c.negative := fun {c} hc hlen k hk => by
    have hfit : c.limbs.length ≤ length - 1 := by omega
    rw [testBit_val hc, Nat.testBit_lt_two_pow ((natPart_lt hc hfit).trans_le
      (Nat.pow_le_pow_right (by norm_num) hk)), Bool.xor_false]
  split_ifs with hk
  · exact hbits k hk
  · rw [hbits _ (by omega), hhigh ha (by omega) _ (by omega), hhigh hb (by omega) _ (by omega),
      hhigh ha (by omega) k (by omega), hhigh hb (by omega) k (by omega)]

theorem bitAnd_spec (ha : Normalized a) (hb : Normalized b) :
    Normalized (a.bitAnd b) ∧ val (a.bitAnd b) = Int.land (val a) (val b) := by
  rw [← Int.bitwise_and]
  exact bitwise_spec ha hb (fun x y hx _ => lt_of_le_of_lt Nat.and_le_left hx)
    fun x y k => Nat.testBit_and x y k

theorem bitOr_spec (ha : Normalized a) (hb : Normalized b) :
    Normalized (a.bitOr b) ∧ val (a.bitOr b) = Int.lor (val a) (val b) := by
  rw [← Int.bitwise_or]
  exact bitwise_spec ha hb (fun x y hx hy => Nat.or_lt_two_pow hx hy) fun x y k => Nat.testBit_or x y k

theorem bitXor_spec (ha : Normalized a) (hb : Normalized b) :
    Normalized (a.bitXor b) ∧ val (a.bitXor b) = Int.xor (val a) (val b) := by
  rw [← Int.bitwise_xor]
  exact bitwise_spec ha hb (fun x y hx hy => Nat.xor_lt_two_pow hx hy) fun x y k => Nat.testBit_xor x y k

theorem bitNot_spec (ha : Normalized a) : Normalized a.bitNot ∧ val a.bitNot = Int.lnot (val a) := by
  obtain ⟨hone, hvone⟩ : Normalized (fromI64 1) ∧ val (fromI64 1) = 1 := fromI64_spec (by norm_num) (by norm_num)
  obtain ⟨hn, hv⟩ := negate_spec ha
  obtain ⟨hn', hv'⟩ := sub_spec hn hone
  refine ⟨hn', hv'.trans ?_⟩
  rw [hv, hvone]
  cases val a with
  | ofNat m =>
    show -(m : ℤ) - 1 = Int.negSucc m
    rw [Int.negSucc_eq]
    ring
  | negSucc m =>
    show -(Int.negSucc m) - 1 = (m : ℤ)
    rw [Int.negSucc_eq]
    ring

end JsBigInt

end Render.Js
