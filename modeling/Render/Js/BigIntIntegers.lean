/-
Big integers stand for the integers (`render-js/src/bigint.rs`): `integers_faithful` collects the operations, and
`pow_refused` shows where `pow` refuses a power that would fit. Of the limit on their size, `limit_exact_iff` says for
which operands an operation refuses what is past it and nothing else.
-/
import Render.Js.BigIntBits

namespace Render.Js.JsBigInt

variable {a b : JsBigInt}

/-- the limit of a width, against the size of a value -/
theorem bitLength_le_iff (ha : Normalized a) (bits : ℕ) : bitLength a.limbs ≤ bits ↔ (val a).natAbs < 2 ^ bits := by
  rw [bitLength_eq ha.limbs ha.trimmed, Nat.size_le, natAbs_val]

theorem twoPow_spec (bits : ℕ) : Normalized (fromParts false (shlMagnitude [1] bits)) ∧
    val (fromParts false (shlMagnitude [1] bits)) = 2 ^ bits := by
  refine ⟨normalized_fromParts (limbs_shlMagnitude limbs_one), ?_⟩
  rw [val_fromParts, magnitude_shlMagnitude limbs_one, magnitude_one, one_mul, if_neg Bool.false_ne_true]
  push_cast
  rfl

/-- **Unsigned wrapping.** A width past the limit is refused where the value does not fit it as it is. -/
theorem asUintN_spec (ha : Normalized a) (bits : ℕ) :
    (bits ≤ maxBits ∨ (0 ≤ val a ∧ val a < 2 ^ bits) →
      ∃ r, a.asUintN bits = some r ∧ Normalized r ∧ val r = val a % 2 ^ bits) ∧
    (maxBits < bits → ¬ (0 ≤ val a ∧ val a < 2 ^ bits) → a.asUintN bits = none) := by
  have hfits : (!a.negative && decide (bitLength a.limbs ≤ bits)) = true ↔ 0 ≤ val a ∧ val a < 2 ^ bits := by
    rw [Bool.and_eq_true_iff, Bool.not_eq_true', ← Bool.not_eq_true, ← val_neg_iff ha, not_lt, decide_eq_true_iff,
      bitLength_le_iff ha]
    refine and_congr_right fun hpos => ?_
    rw [← Int.ofNat_lt, Int.natAbs_of_nonneg hpos]
    push_cast
    rfl
  unfold asUintN
  by_cases h0 : bits = 0
  · subst h0
    rw [if_pos rfl, pow_zero, Int.emod_one]
    exact ⟨fun _ => ⟨_, rfl, normalized_zero, rfl⟩, fun h => absurd h (Nat.not_lt_zero _)⟩
  · rw [if_neg h0]
    by_cases hin : (!a.negative && decide (bitLength a.limbs ≤ bits)) = true
    · rw [if_pos hin]
      obtain ⟨hlo, hhi⟩ := hfits.1 hin
      exact ⟨fun _ => ⟨a, rfl, ha, (Int.emod_eq_of_lt hlo hhi).symm⟩, fun _ hnot => absurd ⟨hlo, hhi⟩ hnot⟩
    · rw [if_neg hin]
      refine ⟨fun h => ?_, fun h _ => if_pos h⟩
      have hle : bits ≤ maxBits := h.resolve_right fun h' => hin (hfits.2 h')
      rw [if_neg (Nat.not_lt.2 hle)]
      obtain ⟨hone, hvone⟩ : Normalized (fromI64 1) ∧ val (fromI64 1) = 1 :=
        fromI64_spec (by norm_num) (by norm_num)
      obtain ⟨hp, hvp⟩ := twoPow_spec bits
      obtain ⟨hm, hvm⟩ := sub_spec hp hone
      obtain ⟨hr, hvr⟩ := bitAnd_spec ha hm
      refine ⟨_, rfl, hr, ?_⟩
      rw [hvr, hvm, hvp, hvone, Core.land_two_pow_sub_one]

/-- **Signed wrapping.** -/
theorem asIntN_spec (ha : Normalized a) {bits : ℕ} (hbits : bits ≤ maxBits ∨
    (-2 ^ (bits - 1) ≤ val a ∧ val a < 2 ^ (bits - 1))) :
    ∃ r, a.asIntN bits = some r ∧ Normalized r ∧ val r = Int.bmod (val a) (2 ^ bits) := by
  unfold asIntN
  by_cases h0 : bits = 0
  · subst h0
    rw [if_pos rfl, pow_zero]
    exact ⟨_, rfl, normalized_zero, by rw [Int.bmod_one]; rfl⟩
  · rw [if_neg h0]
    obtain ⟨n, rfl⟩ : ∃ n, bits = n + 1 := ⟨bits - 1, by omega⟩
    have hhalf : ((2 ^ (n + 1) : ℕ) : ℤ) = 2 * 2 ^ n := by push_cast; ring
    have hbmod : ∀ z : ℤ, Int.bmod z (2 ^ (n + 1)) =
        if z % 2 ^ (n + 1) < 2 ^ n then z % 2 ^ (n + 1) else z % 2 ^ (n + 1) - 2 ^ (n + 1) := fun z => by
      have hround : (((2 ^ (n + 1) : ℕ) : ℤ) + 1) / 2 = 2 ^ n := by rw [hhalf]; omega
      unfold Int.bmod
      simp only [hround]
      push_cast
      rfl
    have hwidth : (if a.negative then bitLength (subMagnitude a.limbs [1]) else bitLength a.limbs) < n + 1 ↔
        -2 ^ n ≤ val a ∧ val a < 2 ^ n := by
      have hnat : (if a.negative then bitLength (subMagnitude a.limbs [1]) else bitLength a.limbs) = a.natPart.size := by
        unfold natPart
        split_ifs with hs
        · rw [bitLength_eq (limbs_subMagnitude ha.limbs limbs_one) (trimmed_trim _), magnitude_subMagnitude ha.limbs
            limbs_one trimmed_one (by rw [magnitude_one]; exact ha.magnitude_pos hs), magnitude_one]
        · exact bitLength_eq ha.limbs ha.trimmed
      rw [hnat, Nat.lt_succ_iff, Nat.size_le]
      unfold natPart val
      have hcast : ((2 ^ n : ℕ) : ℤ) = 2 ^ n := by push_cast; rfl
      rw [← hcast]
      split_ifs with hs
      · have := ha.magnitude_pos hs
        omega
      · omega
    dsimp only
    by_cases hin : (if a.negative then bitLength (subMagnitude a.limbs [1]) else bitLength a.limbs) < n + 1
    · rw [if_pos hin]
      obtain ⟨hlo, hhi⟩ := hwidth.1 hin
      refine ⟨a, rfl, ha, ?_⟩
      rw [hbmod, pow_succ']
      by_cases hneg : val a < 0
      · have hmod : val a % (2 * 2 ^ n) = val a + 2 * 2 ^ n := by
          rw [← Int.add_emod_right]
          exact Int.emod_eq_of_lt (by omega) (by omega)
        rw [hmod, if_neg (by omega)]
        ring
      · rw [Int.emod_eq_of_lt (by omega) (by omega), if_pos hhi]
    · rw [if_neg hin]
      have hle : n + 1 ≤ maxBits := hbits.resolve_right fun h => hin (hwidth.2 (by simpa using h))
      obtain ⟨w, hw, hnw, hvw⟩ := (asUintN_spec ha (n + 1)).1 (Or.inl hle)
      have hlo : 0 ≤ val w := hvw ▸ Int.emod_nonneg _ (by positivity)
      have hhi : val w < 2 ^ (n + 1) := hvw ▸ Int.emod_lt_of_pos _ (by positivity)
      have htop : bitLength w.limbs = n + 1 ↔ ¬ val w < 2 ^ n := by
        have hup : bitLength w.limbs ≤ n + 1 := by
          rw [bitLength_le_iff hnw]
          zify
          rwa [abs_of_nonneg hlo]
        have hdown := bitLength_le_iff hnw n
        zify at hdown
        rw [abs_of_nonneg hlo] at hdown
        rw [← hdown]
        omega
      obtain ⟨hp, hvp⟩ := twoPow_spec (n + 1)
      obtain ⟨hr, hvr⟩ := sub_spec hnw hp
      rw [hw, hbmod, ← hvw]
      show ∃ r, (if bitLength w.limbs = n + 1 then some (w.sub (fromParts false (shlMagnitude [1] (n + 1)))) else some w) =
        some r ∧ _
      by_cases hbit : bitLength w.limbs = n + 1
      · exact ⟨_, if_pos hbit, hr, by rw [hvr, hvp, if_neg (htop.1 hbit)]⟩
      · exact ⟨w, if_neg hbit, hnw, by rw [if_pos (not_not.1 fun h => hbit (htop.2 h))]⟩

/-- **Wrapping may be done at any step.** For operands within the width limit, sums and differences that are wrapped at the
end are those of wrapped operands, and a signed wrapping does not see an unsigned one before it. -/
theorem wrapping_steps (ha : Normalized a) (hb : Normalized b) {bits : ℕ} (hbits : bits ≤ maxBits) :
    ∃ a' b', a.asUintN bits = some a' ∧ b.asUintN bits = some b' ∧ (a'.add b').asUintN bits = (a.add b).asUintN bits ∧
      (a'.sub b').asUintN bits = (a.sub b).asUintN bits ∧ a'.asIntN bits = a.asIntN bits := by
  obtain ⟨a', hrunA, ha', hvalA⟩ := (asUintN_spec ha bits).1 (.inl hbits)
  obtain ⟨b', hrunB, hb', hvalB⟩ := (asUintN_spec hb bits).1 (.inl hbits)
  -- what wraps to one value is one number
  have hsame : ∀ {c d : JsBigInt}, Normalized c → Normalized d → val c % 2 ^ bits = val d % 2 ^ bits →
      c.asUintN bits = d.asUintN bits := by
    intro c d hc hd hmod
    obtain ⟨r, hr, hnr, hvr⟩ := (asUintN_spec hc bits).1 (.inl hbits)
    obtain ⟨r', hr', hnr', hvr'⟩ := (asUintN_spec hd bits).1 (.inl hbits)
    rw [hr, hr', (val_inj hnr hnr').2 (by rw [hvr, hvr', hmod])]
  obtain ⟨hn, hv⟩ := add_spec ha hb
  obtain ⟨hn', hv'⟩ := add_spec ha' hb'
  obtain ⟨hm, hw⟩ := sub_spec ha hb
  obtain ⟨hm', hw'⟩ := sub_spec ha' hb'
  refine ⟨a', b', hrunA, hrunB, hsame hn' hn ?_, hsame hm' hm ?_, ?_⟩
  · rw [hv', hv, hvalA, hvalB, ← Int.add_emod]
  · rw [hw', hw, hvalA, hvalB, ← Int.sub_emod]
  · obtain ⟨r, hr, hnr, hvr⟩ := asIntN_spec ha (.inl hbits)
    obtain ⟨r', hr', hnr', hvr'⟩ := asIntN_spec ha' (.inl hbits)
    have hbmod : Int.bmod (val a') (2 ^ bits) = Int.bmod (val a) (2 ^ bits) := by
      rw [hvalA]
      exact_mod_cast Int.emod_bmod (val a) (2 ^ bits)
    rw [hr, hr', (val_inj hnr' hnr).2 (by rw [hvr', hvr, hbmod])]

theorem wrapping_steps_byte : ∃ a' b', (fromI64 (-1)).asUintN 8 = some a' ∧ (fromI64 2).asUintN 8 = some b' ∧
    (a'.add b').asUintN 8 = ((fromI64 (-1)).add (fromI64 2)).asUintN 8 := by
  have hone : Normalized (fromI64 (-1)) := (fromI64_spec (by norm_num) (by norm_num)).1
  have htwo : Normalized (fromI64 2) := (fromI64_spec (by norm_num) (by norm_num)).1
  obtain ⟨a', b', ha, hb, hsum, -⟩ := wrapping_steps hone htwo (show 8 ≤ maxBits by decide)
  exact ⟨a', b', ha, hb, hsum⟩

/-- at most `MAX_BITS` bits -/
def Fits (value : ℤ) : Prop := value.natAbs < 2 ^ maxBits

/-- the operations that the limit is about -/
inductive Bounded where
  | pow
  | shiftLeft
  | mul

namespace Bounded

/-- what the source does: `mul` never refuses -/
def run : Bounded → JsBigInt → JsBigInt → Option JsBigInt
  | pow, a, b => a.pow b
  | shiftLeft, a, b => a.shift b
  | mul, a, b => some (a.mul b)

/-- the result among the integers -/
def result : Bounded → JsBigInt → JsBigInt → ℤ
  | pow, a, b => val a ^ (val b).toNat
  | shiftLeft, a, b => val a * 2 ^ (val b).toNat
  | mul, a, b => val a * val b

/-- the operation refuses exactly the results past the limit, and stores nothing that is past it -/
def LimitExact (op : Bounded) (a b : JsBigInt) : Prop :=
  (op.run a b = none ↔ ¬ Fits (op.result a b)) ∧ ∀ r, op.run a b = some r → Fits (val r)

/-- where the estimate of the operation decides as the size of the result does -/
def Estimated : Bounded → JsBigInt → JsBigInt → Prop
  | pow, a, b => (val a).natAbs ≤ 1 ∨ bitLength a.limbs * (val b).toNat ≤ maxBits ∨
      2 ^ maxBits ≤ (val a).natAbs ^ (val b).toNat
  | shiftLeft, _, _ => True
  | mul, a, b => (val a).natAbs * (val b).natAbs < 2 ^ maxBits

/-- what is returned has to be within the limit -/
theorem limitExact_some (op : Bounded) {r : JsBigInt} (hrun : op.run a b = some r) (hr : val r = op.result a b) :
    op.LimitExact a b ↔ Fits (op.result a b) := by
  rw [LimitExact, hrun]
  constructor
  · intro h
    exact hr ▸ h.2 r rfl
  · intro hfits
    refine ⟨iff_of_false (Option.some_ne_none r) (not_not.2 hfits), ?_⟩
    rintro _ ⟨⟩
    exact hr ▸ hfits

theorem limitExact_none (op : Bounded) (hrun : op.run a b = none) : op.LimitExact a b ↔ ¬ Fits (op.result a b) := by
  rw [LimitExact, hrun]
  refine ⟨fun h => h.1.1 rfl, fun hfits => ⟨⟨fun _ => hfits, fun _ => rfl⟩, fun _ h => ?_⟩⟩
  cases h

/-- a power within the estimate is within the limit -/
theorem fits_pow (ha : Normalized a) {exponent : ℕ} (h : (val a).natAbs ≤ 1 ∨ bitLength a.limbs * exponent ≤ maxBits) :
    Fits (val a ^ exponent) := by
  rw [Fits, Int.natAbs_pow]
  have hone : 1 < 2 ^ maxBits := Nat.one_lt_two_pow (by decide)
  rcases h with hsmall | hbits
  · exact (Nat.pow_le_pow_left hsmall exponent).trans_lt (by rwa [one_pow])
  · have hbase : (val a).natAbs < 2 ^ bitLength a.limbs := (bitLength_le_iff ha _).1 le_rfl
    rcases Nat.eq_zero_or_pos exponent with rfl | hpos
    · rwa [pow_zero]
    · calc (val a).natAbs ^ exponent < (2 ^ bitLength a.limbs) ^ exponent := Nat.pow_lt_pow_left hbase hpos.ne'
        _ = 2 ^ (bitLength a.limbs * exponent) := (pow_mul _ _ _).symm
        _ ≤ 2 ^ maxBits := Nat.pow_le_pow_right (by decide) hbits

theorem limitExact_pow (ha : Normalized a) (hb : Normalized b) (hexp : 0 ≤ val b) :
    pow.LimitExact a b ↔ pow.Estimated a b := by
  obtain ⟨hwithin, hpast⟩ := pow_spec ha hb hexp
  by_cases h : (val a).natAbs ≤ 1 ∨ bitLength a.limbs * (val b).toNat ≤ maxBits
  · obtain ⟨r, hrun, -, hr⟩ := hwithin h
    rw [limitExact_some pow hrun hr]
    exact iff_of_true (fits_pow ha h) (h.imp_right .inl)
  · obtain ⟨hlarge, hbits⟩ := not_or.1 h
    have hrun : a.pow b = none := hpast (Nat.not_le.1 hlarge) (Nat.not_le.1 hbits)
    rw [limitExact_none pow hrun, Fits, result, Int.natAbs_pow, Nat.not_lt, Estimated]
    exact ⟨fun hsize => .inr (.inr hsize), fun h => (h.resolve_left hlarge).resolve_left hbits⟩

/-- a left shift adds its count to the size -/
theorem fits_shift (ha : Normalized a) (hzero : val a ≠ 0) (count : ℕ) :
    Fits (val a * 2 ^ count) ↔ bitLength a.limbs + count ≤ maxBits := by
  have habs : (val a * 2 ^ count).natAbs = magnitude a.limbs <<< count := by
    rw [Int.natAbs_mul, Int.natAbs_pow, natAbs_val, Nat.shiftLeft_eq]
    rfl
  have hmagnitude : magnitude a.limbs ≠ 0 := by
    rw [← natAbs_val]
    exact Int.natAbs_ne_zero.2 hzero
  rw [Fits, habs, ← Nat.size_le, Nat.size_shiftLeft hmagnitude, bitLength_eq ha.limbs ha.trimmed]

theorem limitExact_shiftLeft (ha : Normalized a) (hb : Normalized b) (hcount : 0 ≤ val b) :
    shiftLeft.LimitExact a b := by
  obtain ⟨hwithin, hpast, -⟩ := shift_spec ha hb
  by_cases hzero : val a = 0
  · obtain ⟨r, hrun, -, hr⟩ := hwithin hcount (.inl hzero)
    rw [limitExact_some shiftLeft hrun hr, Fits, result, hzero, zero_mul]
    exact Nat.two_pow_pos maxBits
  · by_cases hbits : bitLength a.limbs + (val b).toNat ≤ maxBits
    · obtain ⟨r, hrun, -, hr⟩ := hwithin hcount (.inr hbits)
      rw [limitExact_some shiftLeft hrun hr]
      exact (fits_shift ha hzero _).2 hbits
    · rw [limitExact_none shiftLeft (hpast hcount hzero (Nat.not_le.1 hbits))]
      exact fun hfits => hbits ((fits_shift ha hzero _).1 hfits)

theorem limitExact_mul (ha : Normalized a) (hb : Normalized b) : mul.LimitExact a b ↔ mul.Estimated a b := by
  rw [limitExact_some mul rfl (mul_spec ha hb).2, Fits, result, Int.natAbs_mul, Estimated]

/-- **Where the limit is exact.** A left shift refuses exactly what is past the limit. A product does where it is within the
limit, since it is never refused; a power does unless its estimate is past the limit and the power is not. -/
theorem limit_exact_iff (op : Bounded) {a b : JsBigInt} (ha : Normalized a) (hb : Normalized b)
    (hcount : op = mul ∨ 0 ≤ val b) : op.LimitExact a b ↔ op.Estimated a b := by
  cases op with
  | pow => exact limitExact_pow ha hb (hcount.resolve_left (by intro h; cases h))
  | shiftLeft => exact iff_of_true (limitExact_shiftLeft ha hb (hcount.resolve_left (by intro h; cases h))) trivial
  | mul => exact limitExact_mul ha hb

/-- the product of 2 and 3 -/
theorem limit_exact_product : mul.LimitExact (fromI64 2) (fromI64 3) := by
  obtain ⟨ha, hva⟩ : Normalized (fromI64 2) ∧ val (fromI64 2) = 2 := fromI64_spec (by norm_num) (by norm_num)
  obtain ⟨hb, hvb⟩ : Normalized (fromI64 3) ∧ val (fromI64 3) = 3 := fromI64_spec (by norm_num) (by norm_num)
  refine (limit_exact_iff mul ha hb (.inl rfl)).2 ?_
  rw [Estimated, hva, hvb]
  exact lt_of_lt_of_le (show 2 * 3 < 2 ^ 3 by decide) (Nat.pow_le_pow_right (by decide) (by decide))

/-- the 600001 bits of 2^600000 fit, and the power is refused -/
theorem limit_inexact : ¬ ∀ (op : Bounded) (a b : JsBigInt), Normalized a → Normalized b →
    op = mul ∨ 0 ≤ val b → op.LimitExact a b := by
  intro hall
  obtain ⟨ha, hva⟩ : Normalized (fromI64 2) ∧ val (fromI64 2) = 2 := fromI64_spec (by norm_num) (by norm_num)
  obtain ⟨hb, hvb⟩ : Normalized (fromI64 600000) ∧ val (fromI64 600000) = 600000 :=
    fromI64_spec (by norm_num) (by norm_num)
  have hbits : bitLength (fromI64 2).limbs = 2 := by
    rw [bitLength_eq ha.limbs ha.trimmed, ← natAbs_val, hva]
    exact Nat.size_pow (n := 1)
  have hcount : 0 ≤ val (fromI64 600000) := by rw [hvb]; norm_num
  have hlimit : (val (fromI64 600000)).toNat < maxBits := by
    rw [hvb]
    decide
  have hnone := (pow_spec ha hb hcount).2 (by rw [hva]; decide) (by rw [hbits, hvb]; decide)
  refine (hall pow _ _ ha hb (.inr hcount)).1.1 hnone ?_
  rw [Fits, result, Int.natAbs_pow, hva]
  exact Nat.pow_lt_pow_right one_lt_two hlimit

end Bounded

end Render.Js.JsBigInt
