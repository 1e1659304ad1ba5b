/-
The shifts of `render-js/src/bigint.rs`: of magnitudes, to the left a product and to the right a quotient by a power of two,
and of the operands of a division.
-/
import Render.Js.BigIntMagnitude

namespace Render.Js

variable {l r : List ℕ} {limb bits carry high : ℕ}

/-! ## One limb -/

/-- what is shifted out of the high end -/
theorem shiftRight_lt (hl : limb < 2 ^ 32) (hb : bits ≤ 32) : limb >>> (32 - bits) < 2 ^ bits := by
  rw [Nat.shiftRight_eq_div_pow]
  refine Nat.div_lt_of_lt_mul ?_
  rw [← pow_add, Nat.sub_add_cancel hb]
  exact hl

/-- the limb that is kept and the bits that are shifted out -/
theorem shlLimb_eq (hb : bits ≤ 32) (hc : carry < 2 ^ bits) :
    shlLimb limb bits carry + 2 ^ 32 * (limb >>> (32 - bits)) = limb * 2 ^ bits + carry := by
  have hpow : (2 : ℕ) ^ 32 = 2 ^ bits * 2 ^ (32 - bits) := by rw [← pow_add, Nat.add_sub_cancel' hb]
  have hmod : limb <<< bits % 2 ^ 32 = 2 ^ bits * (limb % 2 ^ (32 - bits)) := by
    rw [Nat.shiftLeft_eq, hpow, mul_comm limb, Nat.mul_mod_mul_left]
  unfold shlLimb
  rw [hmod, ← Nat.two_pow_add_eq_or_of_lt hc, Nat.shiftRight_eq_div_pow, hpow]
  have hsplit := Nat.mod_add_div limb (2 ^ (32 - bits))
  calc 2 ^ bits * (limb % 2 ^ (32 - bits)) + carry + 2 ^ bits * 2 ^ (32 - bits) * (limb / 2 ^ (32 - bits))
      = 2 ^ bits * (limb % 2 ^ (32 - bits) + 2 ^ (32 - bits) * (limb / 2 ^ (32 - bits))) + carry := by ring
    _ = limb * 2 ^ bits + carry := by rw [hsplit, mul_comm]

theorem shlLimb_lt (hb : bits ≤ 32) (hc : carry < 2 ^ bits) : shlLimb limb bits carry < 2 ^ 32 := by
  unfold shlLimb
  refine Nat.or_lt_two_pow (Nat.mod_lt _ (by norm_num)) (hc.trans_le ?_)
  exact Nat.pow_le_pow_right (by norm_num) hb

/-- the bits that are kept and the low bits of the next limb -/
theorem shrLimb_eq (hl : limb < 2 ^ 32) (hb : bits ≤ 32) :
    shrLimb limb bits high = limb / 2 ^ bits + 2 ^ (32 - bits) * (high % 2 ^ bits) := by
  have hpow : (2 : ℕ) ^ 32 = 2 ^ (32 - bits) * 2 ^ bits := by rw [← pow_add, Nat.sub_add_cancel hb]
  have hmod : high <<< (32 - bits) % 2 ^ 32 = 2 ^ (32 - bits) * (high % 2 ^ bits) := by
    rw [Nat.shiftLeft_eq, hpow, mul_comm high, Nat.mul_mod_mul_left]
  have hlow : limb / 2 ^ bits < 2 ^ (32 - bits) := by
    refine Nat.div_lt_of_lt_mul ?_
    rw [mul_comm, ← hpow]
    exact hl
  unfold shrLimb
  rw [hmod, Nat.shiftRight_eq_div_pow, Nat.or_comm, ← Nat.two_pow_add_eq_or_of_lt hlow, add_comm]

theorem shrLimb_lt (hl : limb < 2 ^ 32) : shrLimb limb bits high < 2 ^ 32 := by
  unfold shrLimb
  refine Nat.or_lt_two_pow ?_ (Nat.mod_lt _ (by norm_num))
  exact lt_of_le_of_lt (Nat.shiftRight_le limb bits) hl

/-! ## To the left -/

theorem limbs_shlLimbs (hb : bits ≤ 32) (hl : Limbs l) (hc : carry < 2 ^ bits) : Limbs (shlLimbs bits l carry) := by
  induction l generalizing carry with
  | nil =>
    unfold shlLimbs
    split_ifs
    · exact Limbs.cons_iff.2 ⟨hc.trans_le (Nat.pow_le_pow_right (by norm_num) hb), Limbs.nil⟩
    · exact Limbs.nil
  | cons a l ih =>
    obtain ⟨ha, hl⟩ := Limbs.cons_iff.1 hl
    exact Limbs.cons_iff.2 ⟨shlLimb_lt hb hc, ih hl (shiftRight_lt ha hb)⟩

theorem magnitude_shlLimbs (hb : bits ≤ 32) (hl : Limbs l) (hc : carry < 2 ^ bits) :
    magnitude (shlLimbs bits l carry) = magnitude l * 2 ^ bits + carry := by
  induction l generalizing carry with
  | nil =>
    unfold shlLimbs
    split_ifs with h
    · simp
    · simp [not_not.1 h]
  | cons a l ih =>
    obtain ⟨ha, hl⟩ := Limbs.cons_iff.1 hl
    have hlimb := @shlLimb_eq a bits carry hb hc
    rw [shlLimbs, magnitude_cons, magnitude_cons, ih hl (shiftRight_lt ha hb), add_mul, mul_assoc]
    omega

theorem limbs_shlMagnitude (hl : Limbs l) : Limbs (shlMagnitude l bits) := by
  have hb : bits % 32 ≤ 32 := (Nat.mod_lt _ (by norm_num)).le
  unfold shlMagnitude
  split_ifs with h
  · exact Limbs.nil
  · refine (Limbs.append_iff.2 ⟨Limbs.replicate _, ?_⟩).trim
    split_ifs
    · exact hl
    · exact limbs_shlLimbs hb hl (Nat.pow_pos (by norm_num))

theorem magnitude_shlMagnitude (hl : Limbs l) : magnitude (shlMagnitude l bits) = magnitude l * 2 ^ bits := by
  have hb : bits % 32 ≤ 32 := (Nat.mod_lt _ (by norm_num)).le
  have hshift : magnitude (if bits % 32 = 0 then l else shlLimbs (bits % 32) l 0) = magnitude l * 2 ^ (bits % 32) := by
    split_ifs with h
    · rw [h, pow_zero, mul_one]
    · rw [magnitude_shlLimbs hb hl (Nat.pow_pos (by norm_num)), add_zero]
  unfold shlMagnitude
  split_ifs with h
  · rw [h, magnitude_nil, zero_mul]
  · rw [magnitude_trim, magnitude_append, magnitude_replicate, List.length_replicate, zero_add, hshift, ← pow_mul]
    calc 2 ^ (32 * (bits / 32)) * (magnitude l * 2 ^ (bits % 32))
        = magnitude l * 2 ^ (32 * (bits / 32) + bits % 32) := by rw [pow_add]; ring
      _ = magnitude l * 2 ^ bits := by rw [Nat.div_add_mod]

/-- the operands of a division keep the carry -/
theorem shiftLeftLimbs_eq (hb : bits < 32) (hl : Limbs l) (hc : carry < 2 ^ bits) :
    Limbs (shiftLeftLimbs bits l carry) ∧ magnitude (shiftLeftLimbs bits l carry) = magnitude l * 2 ^ bits + carry ∧
      (shiftLeftLimbs bits l carry).length = l.length + 1 := by
  induction l generalizing carry with
  | nil =>
    refine ⟨Limbs.cons_iff.2 ⟨hc.trans_le (Nat.pow_le_pow_right (by norm_num) hb.le), Limbs.nil⟩, ?_, rfl⟩
    simp [shiftLeftLimbs]
  | cons a l ih =>
    obtain ⟨ha, hl⟩ := Limbs.cons_iff.1 hl
    unfold shiftLeftLimbs
    split_ifs with h
    · obtain ⟨h1, h2, h3⟩ := ih hl hc
      obtain rfl : carry = 0 := by
        rw [h, pow_zero] at hc
        omega
      refine ⟨Limbs.cons_iff.2 ⟨ha, h1⟩, ?_, by rw [List.length_cons, h3, List.length_cons]⟩
      rw [magnitude_cons, h2, magnitude_cons, h]
      ring
    · obtain ⟨h1, h2, h3⟩ := ih hl (shiftRight_lt ha hb.le)
      have hlimb := @shlLimb_eq a bits carry hb.le hc
      refine ⟨Limbs.cons_iff.2 ⟨shlLimb_lt hb.le hc, h1⟩, ?_, by rw [List.length_cons, h3, List.length_cons]⟩
      rw [magnitude_cons, h2, magnitude_cons, add_mul, mul_assoc]
      omega

/-! ## To the right -/

theorem limbs_shrLimbs (hl : Limbs l) : Limbs (shrLimbs bits l) := by
  induction l with
  | nil => exact Limbs.nil
  | cons a l ih =>
    obtain ⟨ha, hl⟩ := Limbs.cons_iff.1 hl
    refine Limbs.cons_iff.2 ⟨?_, ih hl⟩
    split_ifs
    · exact ha
    · exact shrLimb_lt ha

theorem length_shrLimbs (bits : ℕ) (l : List ℕ) : (shrLimbs bits l).length = l.length := by
  induction l with
  | nil => rfl
  | cons a l ih => rw [shrLimbs, List.length_cons, ih, List.length_cons]

theorem magnitude_shrLimbs (hb : bits ≤ 32) (hl : Limbs l) : magnitude (shrLimbs bits l) = magnitude l / 2 ^ bits := by
  induction l with
  | nil => simp [shrLimbs]
  | cons a l ih =>
    obtain ⟨ha, hl⟩ := Limbs.cons_iff.1 hl
    have hpow : (2 : ℕ) ^ 32 = 2 ^ bits * 2 ^ (32 - bits) := by rw [← pow_add, Nat.add_sub_cancel' hb]
    have hquot : (a + 2 ^ 32 * magnitude l) / 2 ^ bits = a / 2 ^ bits + 2 ^ (32 - bits) * magnitude l := by
      rw [hpow, mul_assoc, Nat.add_mul_div_left _ _ (Nat.pow_pos (by norm_num))]
    rw [shrLimbs, magnitude_cons, magnitude_cons, ih hl, hquot]
    split_ifs with h
    · subst h
      simp
    · -- the low bits of the rest are those of its first limb
      have hlow : l.headD 0 % 2 ^ bits = magnitude l % 2 ^ bits := by
        rw [magnitude_headD_tail l, hpow, mul_assoc, Nat.add_mul_mod_self_left]
      rw [shrLimb_eq ha hb, hlow, hpow]
      have hsplit := Nat.mod_add_div (magnitude l) (2 ^ bits)
      calc a / 2 ^ bits + 2 ^ (32 - bits) * (magnitude l % 2 ^ bits) + 2 ^ bits * 2 ^ (32 - bits) * (magnitude l / 2 ^ bits)
          = a / 2 ^ bits + 2 ^ (32 - bits) * (magnitude l % 2 ^ bits + 2 ^ bits * (magnitude l / 2 ^ bits)) := by ring
        _ = a / 2 ^ bits + 2 ^ (32 - bits) * magnitude l := by rw [hsplit]

theorem magnitude_drop (hl : Limbs l) (n : ℕ) : magnitude (l.drop n) = magnitude l / (2 ^ 32) ^ n := by
  by_cases hn : n ≤ l.length
  · have hlt := magnitude_lt (hl.take n)
    rw [List.length_take, min_eq_left hn] at hlt
    rw [magnitude_take_drop l n hn, Nat.add_mul_div_left _ _ (Nat.pow_pos (by norm_num)), Nat.div_eq_of_lt hlt, zero_add]
  · have hlt : magnitude l < (2 ^ 32) ^ n :=
      (magnitude_lt hl).trans_le (Nat.pow_le_pow_right (by norm_num) (by omega))
    rw [List.drop_eq_nil_of_le (by omega), Nat.div_eq_of_lt hlt, magnitude_nil]

theorem limbs_shrMagnitude (hl : Limbs l) : Limbs (shrMagnitude l bits) := by
  unfold shrMagnitude
  split_ifs
  · exact Limbs.nil
  · exact (limbs_shrLimbs (hl.drop _)).trim

theorem magnitude_shrMagnitude (hl : Limbs l) : magnitude (shrMagnitude l bits) = magnitude l / 2 ^ bits := by
  have hdrop : magnitude (l.drop (bits / 32)) / 2 ^ (bits % 32) = magnitude l / 2 ^ bits := by
    rw [magnitude_drop hl, ← pow_mul, Nat.div_div_eq_div_mul, ← pow_add, Nat.div_add_mod]
  unfold shrMagnitude
  split_ifs with h
  · rw [List.drop_eq_nil_of_le h, magnitude_nil, Nat.zero_div] at hdrop
    rw [magnitude_nil, hdrop]
  · rw [magnitude_trim, magnitude_shrLimbs (Nat.mod_lt _ (by norm_num)).le (hl.drop _), hdrop]

end Render.Js
