/-
Arithmetic on big integers (`render-js/src/bigint.rs`): `val` reads one as an integer, and on normalized values the
operations are those of the integers.
-/
import Render.Js.BigIntDivision

namespace Render.Js.JsBigInt

/-- the integer a value stands for -/
def val (a : JsBigInt) : ℤ := if a.negative then -(magnitude a.limbs : ℤ) else magnitude a.limbs

/-- what `from_parts` leaves -/
structure Normalized (a : JsBigInt) : Prop where
  limbs : Limbs a.limbs
  trimmed : Trimmed a.limbs
  sign : a.negative = true → a.limbs ≠ []

variable {a b : JsBigInt} {l : List ℕ} {negative : Bool}

/-! ## Normal forms -/

theorem normalized_fromParts (hl : Limbs l) : Normalized (fromParts negative l) where
  limbs := hl.trim
  trimmed := trimmed_trim l
  sign h he := by
    have : trim l = [] := he
    simp [fromParts, this] at h

theorem val_fromParts : val (fromParts negative l) = if negative then -(magnitude l : ℤ) else magnitude l := by
  unfold val fromParts
  dsimp only
  rw [magnitude_trim]
  cases hl : (trim l).isEmpty with
  | false => simp
  | true =>
    have hzero : magnitude l = 0 := by rw [← magnitude_trim, List.isEmpty_iff.1 hl, magnitude_nil]
    simp [hzero]

theorem normalized_zero : Normalized zero := ⟨Limbs.nil, trimmed_nil, fun h => by cases h⟩

theorem Normalized.magnitude_pos (ha : Normalized a) (h : a.negative = true) : 0 < magnitude a.limbs :=
  Nat.pos_of_ne_zero fun he => ha.sign h ((magnitude_eq_zero ha.trimmed).1 he)

theorem isZero_iff (ha : Normalized a) : a.isZero = true ↔ val a = 0 := by
  unfold isZero val
  rw [List.isEmpty_iff, ← magnitude_eq_zero ha.trimmed]
  split_ifs <;> simp

theorem val_neg_iff (ha : Normalized a) : val a < 0 ↔ a.negative = true := by
  unfold val
  split_ifs with h
  · have := ha.magnitude_pos h
    exact ⟨fun _ => h, fun _ => by omega⟩
  · exact ⟨fun hlt => absurd hlt (by omega), fun h' => absurd h' h⟩

theorem natAbs_val (a : JsBigInt) : (val a).natAbs = magnitude a.limbs := by
  unfold val
  split_ifs <;> simp

/-- **Derived equality is mathematical equality.** -/
theorem val_inj (ha : Normalized a) (hb : Normalized b) : a = b ↔ val a = val b := by
  refine ⟨fun h => by rw [h], fun h => ?_⟩
  have hsign : a.negative = b.negative := by
    rw [Bool.eq_iff_iff, ← val_neg_iff ha, ← val_neg_iff hb, h]
  have hlimbs : a.limbs = b.limbs := by
    refine magnitude_inj ha.limbs hb.limbs ha.trimmed hb.trimmed ?_
    rw [← natAbs_val, ← natAbs_val, h]
  cases a
  cases b
  exact congrArg₂ JsBigInt.mk hsign hlimbs

theorem limbs_word (x y : ℕ) : Limbs [x % 2 ^ 32, y % 2 ^ 32] :=
  Limbs.cons_iff.2 ⟨Nat.mod_lt _ (by norm_num), Limbs.cons_iff.2 ⟨Nat.mod_lt _ (by norm_num), Limbs.nil⟩⟩

theorem fromU64_spec {value : ℕ} (h : value < 2 ^ 64) : Normalized (fromU64 value) ∧ val (fromU64 value) = value := by
  refine ⟨normalized_fromParts (limbs_word _ _), ?_⟩
  unfold fromU64
  rw [val_fromParts]
  simp only [Bool.false_eq_true, if_false, magnitude_cons, magnitude_nil]
  omega

theorem fromI64_spec {value : ℤ} (hlo : -2 ^ 63 ≤ value) (hhi : value < 2 ^ 63) :
    Normalized (fromI64 value) ∧ val (fromI64 value) = value := by
  have hsmall : value.natAbs < 2 ^ 64 := by omega
  obtain ⟨hn, hv⟩ := fromU64_spec hsmall
  refine ⟨normalized_fromParts hn.limbs, ?_⟩
  have hmag : magnitude (fromU64 value.natAbs).limbs = value.natAbs := by
    rw [← natAbs_val, hv, Int.natAbs_natCast]
  unfold fromI64
  rw [val_fromParts, hmag]
  by_cases h : value < 0
  · rw [if_pos (decide_eq_true h)]
    omega
  · rw [if_neg (by simpa using h)]
    omega

/-- a magnitude that fits a `u64` -/
theorem magnitudeU64_eq (ha : Normalized a) :
    a.magnitudeU64 = if magnitude a.limbs < 2 ^ 64 then some (magnitude a.limbs) else none := by
  unfold magnitudeU64
  obtain ⟨s, l⟩ := a
  have hl := ha.limbs
  have ht := ha.trimmed
  dsimp only at hl ht ⊢
  rcases l with - | ⟨low, - | ⟨high, - | ⟨x, l⟩⟩⟩
  · rfl
  · have hlow := (Limbs.cons_iff.1 hl).1
    rw [if_pos (by simp only [magnitude_cons, magnitude_nil]; omega)]
    simp
  · have hlow := (Limbs.cons_iff.1 hl).1
    have hhigh := (Limbs.cons_iff.1 (Limbs.cons_iff.1 hl).2).1
    rw [if_pos (by simp only [magnitude_cons, magnitude_nil]; omega)]
    simp only [magnitude_cons, magnitude_nil, mul_zero, add_zero, Option.some.injEq]
    omega
  · have hpow := pow_le_magnitude ht (by simp)
    have hmono : ((2 : ℕ) ^ 32) ^ 2 ≤ (2 ^ 32) ^ ((low :: high :: x :: l).length - 1) :=
      Nat.pow_le_pow_right (by norm_num) (by simp)
    rw [if_neg (by omega)]

/-! ## Order -/

/-- **Comparison is the order of the integers.** -/
theorem cmp_eq (ha : Normalized a) (hb : Normalized b) : a.cmp b = compare (val a) (val b) := by
  unfold cmp val
  have hcast : ∀ m n : ℕ, compare (m : ℤ) n = compare m n := fun m n => by
    rcases Nat.lt_trichotomy m n with h | h | h
    · rw [compare_lt_iff_lt.2 h, compare_lt_iff_lt.2 (Int.ofNat_lt.2 h)]
    · rw [compare_eq_iff_eq.2 h, compare_eq_iff_eq.2 (congrArg _ h)]
    · rw [compare_gt_iff_gt.2 h, compare_gt_iff_gt.2 (Int.ofNat_lt.2 h)]
  cases hsa : a.negative <;> cases hsb : b.negative <;> simp only [Bool.false_eq_true, if_false, if_true]
  · rw [cmpMagnitude_eq ha.limbs hb.limbs ha.trimmed hb.trimmed, hcast]
  · have := hb.magnitude_pos hsb
    exact (compare_gt_iff_gt.2 (by omega)).symm
  · have := ha.magnitude_pos hsa
    exact (compare_lt_iff_lt.2 (by omega)).symm
  · rw [cmpMagnitude_eq hb.limbs ha.limbs hb.trimmed ha.trimmed, ← hcast]
    rcases lt_trichotomy (magnitude b.limbs : ℤ) (magnitude a.limbs) with h | h | h
    · rw [compare_lt_iff_lt.2 h, compare_lt_iff_lt.2 (by omega)]
    · rw [compare_eq_iff_eq.2 h, compare_eq_iff_eq.2 (by omega)]
    · rw [compare_gt_iff_gt.2 h, compare_gt_iff_gt.2 (by omega)]

/-! ## Sums, differences and products -/

theorem negate_spec (ha : Normalized a) : Normalized a.negate ∧ val a.negate = -val a := by
  refine ⟨normalized_fromParts ha.limbs, ?_⟩
  unfold negate
  rw [val_fromParts]
  unfold val
  cases a.negative <;> simp

theorem add_spec (ha : Normalized a) (hb : Normalized b) : Normalized (a.add b) ∧ val (a.add b) = val a + val b := by
  have hcmp := cmpMagnitude_eq ha.limbs hb.limbs ha.trimmed hb.trimmed
  unfold add
  split_ifs with hsign
  · refine ⟨normalized_fromParts limbs_addMagnitude, ?_⟩
    rw [val_fromParts, magnitude_addMagnitude ha.limbs hb.limbs]
    unfold val
    rw [← hsign]
    cases a.negative <;> simp; ring
  · -- the larger magnitude gives the sign
    have hnot : b.negative = !a.negative := by
      revert hsign
      cases a.negative <;> cases b.negative <;> simp
    split
    · rename_i h
      have hlt := compare_lt_iff_lt.1 (hcmp.symm.trans h)
      refine ⟨normalized_fromParts (limbs_subMagnitude hb.limbs ha.limbs), ?_⟩
      rw [val_fromParts, magnitude_subMagnitude hb.limbs ha.limbs ha.trimmed hlt.le]
      unfold val
      rw [hnot]
      cases a.negative <;> simp <;> omega
    · rename_i h
      have hle : magnitude b.limbs ≤ magnitude a.limbs := not_lt.1 fun hlt => h (hcmp.trans (compare_lt_iff_lt.2 hlt))
      refine ⟨normalized_fromParts (limbs_subMagnitude ha.limbs hb.limbs), ?_⟩
      rw [val_fromParts, magnitude_subMagnitude ha.limbs hb.limbs hb.trimmed hle]
      unfold val
      rw [hnot]
      cases a.negative <;> simp <;> omega

theorem sub_spec (ha : Normalized a) (hb : Normalized b) : Normalized (a.sub b) ∧ val (a.sub b) = val a - val b := by
  obtain ⟨hn, hv⟩ := negate_spec hb
  obtain ⟨hn', hv'⟩ := add_spec ha hn
  exact ⟨hn', hv'.trans (by rw [hv, sub_eq_add_neg])⟩

theorem mul_spec (ha : Normalized a) (hb : Normalized b) : Normalized (a.mul b) ∧ val (a.mul b) = val a * val b := by
  refine ⟨normalized_fromParts limbs_mulMagnitude, ?_⟩
  unfold mul
  rw [val_fromParts, magnitude_mulMagnitude ha.limbs hb.limbs]
  unfold val
  cases a.negative <;> cases b.negative <;> simp

/-! ## Quotients -/

/-- **Division truncates toward zero.** -/
theorem divRem_spec (ha : Normalized a) (hb : Normalized b) :
    (val b = 0 → a.divRem b = none) ∧ (val b ≠ 0 → ∃ q r, a.divRem b = some (q, r) ∧ Normalized q ∧ Normalized r ∧
      val q = (val a).tdiv (val b) ∧ val r = (val a).tmod (val b)) := by
  unfold divRem
  refine ⟨fun h => by rw [if_pos ((isZero_iff hb).2 h)], fun h => ?_⟩
  rw [if_neg fun h' => h ((isZero_iff hb).1 h')]
  have hne : b.limbs ≠ [] := fun he => h ((isZero_iff hb).1 (List.isEmpty_iff.2 he))
  obtain ⟨hq, hr, hmq, hmr⟩ := divmodMagnitude_spec ha.limbs ha.trimmed hb.limbs hb.trimmed hne
  refine ⟨fromParts (a.negative != b.negative) (divmodMagnitude a.limbs b.limbs).1,
    fromParts a.negative (divmodMagnitude a.limbs b.limbs).2, rfl, normalized_fromParts hq, normalized_fromParts hr, ?_, ?_⟩
  · rw [val_fromParts, hmq]
    unfold val
    cases a.negative <;> cases b.negative <;> simp [Int.tdiv_neg, Int.neg_tdiv]
  · rw [val_fromParts, hmr]
    unfold val
    cases a.negative <;> cases b.negative <;> simp [Int.tmod_neg, Int.neg_tmod] <;> rfl

/-! ## Powers -/

theorem powLoop_spec (exponent : ℕ) {result base : JsBigInt} (hr : Normalized result) (hb : Normalized base) :
    Normalized (powLoop exponent result base) ∧ val (powLoop exponent result base) = val result * val base ^ exponent := by
  induction exponent using Nat.strong_induction_on generalizing result base with
  | _ exponent ih =>
    rw [powLoop]
    by_cases h : exponent = 0
    · rw [dif_pos h]
      exact ⟨hr, by rw [h, pow_zero, mul_one]⟩
    · rw [dif_neg h]
      dsimp only
      have hresult : Normalized (if exponent % 2 = 1 then result.mul base else result) ∧
          val (if exponent % 2 = 1 then result.mul base else result) = val result * val base ^ (exponent % 2) := by
        split_ifs with hodd
        · obtain ⟨hn, hv⟩ := mul_spec hr hb
          exact ⟨hn, by rw [hv, hodd, pow_one]⟩
        · exact ⟨hr, by rw [Nat.mod_two_ne_one.1 hodd, pow_zero, mul_one]⟩
      have hbase : Normalized (if 0 < exponent / 2 then base.mul base else base) ∧
          val (if 0 < exponent / 2 then base.mul base else base) ^ (exponent / 2) = (val base ^ 2) ^ (exponent / 2) := by
        split_ifs with hpos
        · obtain ⟨hn, hv⟩ := mul_spec hb hb
          exact ⟨hn, by rw [hv, sq]⟩
        · exact ⟨hb, by rw [Nat.le_zero.1 (not_lt.1 hpos), pow_zero, pow_zero]⟩
      obtain ⟨hn, hv⟩ := ih (exponent / 2) (by omega) hresult.1 hbase.1
      refine ⟨hn, hv.trans ?_⟩
      rw [hresult.2, hbase.2, ← pow_mul, mul_assoc, ← pow_add, Nat.mod_add_div]

theorem trimmed_one : Trimmed [1] := by
  unfold Trimmed
  decide

theorem magnitude_eq_one (hl : Limbs l) (ht : Trimmed l) : l = [1] ↔ magnitude l = 1 := by
  have hone : Limbs [1] := Limbs.cons_iff.2 ⟨by norm_num, Limbs.nil⟩
  refine ⟨fun h => by rw [h]; simp, fun h => magnitude_inj hl hone ht trimmed_one (by rw [h]; simp)⟩

/-- the low bit of a magnitude -/
theorem headD_mod_two (l : List ℕ) : l.headD 0 % 2 = magnitude l % 2 := by
  rw [magnitude_headD_tail]
  omega

/-- **Powers**, where the base is 0, 1 or -1 or the bits of the base times the exponent stay within the limit. -/
theorem pow_spec (ha : Normalized a) (hb : Normalized b) (hexp : 0 ≤ val b) :
    (((val a).natAbs ≤ 1 ∨ bitLength a.limbs * (val b).toNat ≤ maxBits) →
      ∃ r, a.pow b = some r ∧ Normalized r ∧ val r = val a ^ (val b).toNat) ∧
    (1 < (val a).natAbs → maxBits < bitLength a.limbs * (val b).toNat → a.pow b = none) := by
  have hmb : magnitude b.limbs = (val b).toNat := by rw [← natAbs_val]; omega
  obtain ⟨hone, hvone⟩ : Normalized (fromI64 1) ∧ val (fromI64 1) = 1 := fromI64_spec (by norm_num) (by norm_num)
  unfold pow
  by_cases hzero : b.isZero = true
  · rw [if_pos hzero, (isZero_iff hb).1 hzero, Int.toNat_zero, pow_zero, mul_zero]
    exact ⟨fun _ => ⟨_, rfl, hone, hvone⟩, fun _ h => absurd h (Nat.not_lt_zero _)⟩
  · rw [if_neg hzero]
    have hbpos : 0 < (val b).toNat := by
      have : val b ≠ 0 := fun he => hzero ((isZero_iff hb).2 he)
      omega
    by_cases hsmall : a.isZero = true ∨ a.limbs = [1]
    · rw [if_pos hsmall]
      have hle : (val a).natAbs ≤ 1 := by
        rcases hsmall with h | h
        · rw [(isZero_iff ha).1 h]
          decide
        · rw [natAbs_val, h]
          simp
      refine ⟨fun _ => ?_, fun h => absurd hle (Nat.not_le.2 h)⟩
      have hodd : (b.limbs.headD 0 % 2 = 1) ↔ Odd (val b).toNat := by rw [headD_mod_two, hmb, Nat.odd_iff]
      have hval : val a = 0 ∧ a.negative = false ∨ val a = 1 ∧ a.negative = false ∨ val a = -1 ∧ a.negative = true := by
        have hm := natAbs_val a
        cases hs : a.negative with
        | false =>
          have hnot : ¬ val a < 0 := fun h => by rw [(val_neg_iff ha).1 h] at hs; cases hs
          rcases (by omega : val a = 0 ∨ val a = 1) with h | h
          · exact Or.inl ⟨h, rfl⟩
          · exact Or.inr (Or.inl ⟨h, rfl⟩)
        | true =>
          have hneg := (val_neg_iff ha).2 hs
          exact Or.inr (Or.inr ⟨by omega, rfl⟩)
      have hpos : Normalized (fromParts false a.limbs) ∧ val (fromParts false a.limbs) = (val a).natAbs :=
        ⟨normalized_fromParts ha.limbs, by rw [val_fromParts, natAbs_val]; rfl⟩
      refine ⟨_, rfl, ?_⟩
      split_ifs with hneg
      · refine ⟨ha, ?_⟩
        rcases hval with ⟨-, hs⟩ | ⟨-, hs⟩ | ⟨hv, -⟩
        · rw [hs] at hneg; cases hneg.1
        · rw [hs] at hneg; cases hneg.1
        · rw [hv, Odd.neg_one_pow (hodd.1 hneg.2)]
      · refine ⟨hpos.1, hpos.2.trans ?_⟩
        rcases hval with ⟨hv, -⟩ | ⟨hv, -⟩ | ⟨hv, hs⟩
        · rw [hv, zero_pow hbpos.ne']; rfl
        · rw [hv, one_pow]; rfl
        · rw [hv, Even.neg_one_pow (Nat.not_odd_iff_even.1 fun h => hneg ⟨hs, hodd.2 h⟩)]
          rfl
    · rw [if_neg hsmall, magnitudeU64_eq hb, hmb]
      have hlarge : 1 < (val a).natAbs := by
        obtain ⟨h0, h1⟩ := not_or.1 hsmall
        rw [natAbs_val]
        have hne0 : magnitude a.limbs ≠ 0 := fun he => h0 (List.isEmpty_iff.2 ((magnitude_eq_zero ha.trimmed).1 he))
        have hne1 : magnitude a.limbs ≠ 1 := fun he => h1 ((magnitude_eq_one ha.limbs ha.trimmed).2 he)
        omega
      have hbits : 1 ≤ bitLength a.limbs := by
        rw [bitLength_eq ha.limbs ha.trimmed]
        exact Nat.size_pos.2 (by rw [← natAbs_val]; omega)
      have hmax : maxBits < 2 ^ 64 := by decide
      refine ⟨fun h => ?_, fun _ h => ?_⟩
      · have hle : bitLength a.limbs * (val b).toNat ≤ maxBits := h.resolve_left (by omega)
        have hfit : (val b).toNat < 2 ^ 64 := by
          have := Nat.le_mul_of_pos_left (val b).toNat hbits
          omega
        obtain ⟨hn, hv⟩ := powLoop_spec (val b).toNat hone ha
        rw [if_pos hfit]
        refine ⟨_, if_neg (Nat.not_lt.2 hle), hn, ?_⟩
        rw [hv, hvone, one_mul]
      · split_ifs with hfit
        · exact if_pos h
        · rfl

/-! ## Shifts -/

theorem limbs_one : Limbs [1] := Limbs.cons_iff.2 ⟨by norm_num, Limbs.nil⟩

theorem magnitude_one : magnitude [1] = 1 := by simp

/-- **A shift to the right is floor division.** -/
theorem shiftRight_spec (ha : Normalized a) (bits : ℕ) :
    Normalized (a.shiftRight bits) ∧ val (a.shiftRight bits) = val a / 2 ^ bits := by
  unfold shiftRight
  cases hs : a.negative with
  | false =>
    refine ⟨normalized_fromParts (limbs_shrMagnitude ha.limbs), ?_⟩
    show val (fromParts false (shrMagnitude a.limbs bits)) = _
    rw [val_fromParts, magnitude_shrMagnitude ha.limbs]
    unfold val
    rw [hs]
    simp
  | true =>
    have hpos := ha.magnitude_pos hs
    have hsub : magnitude (subMagnitude a.limbs [1]) = magnitude a.limbs - 1 := by
      rw [magnitude_subMagnitude ha.limbs limbs_one trimmed_one (by rw [magnitude_one]; exact hpos), magnitude_one]
    have hlimbs : Limbs (shrMagnitude (subMagnitude a.limbs [1]) bits) :=
      limbs_shrMagnitude (limbs_subMagnitude ha.limbs limbs_one)
    refine ⟨normalized_fromParts limbs_addMagnitude, ?_⟩
    rw [if_neg (by simp), val_fromParts, magnitude_addMagnitude hlimbs limbs_one, magnitude_one,
      magnitude_shrMagnitude (limbs_subMagnitude ha.limbs limbs_one), hsub]
    unfold val
    rw [hs, if_pos rfl, if_pos rfl]
    obtain ⟨m, hm⟩ : ∃ m, magnitude a.limbs = m + 1 := ⟨magnitude a.limbs - 1, by omega⟩
    rw [hm, Nat.add_sub_cancel]
    have hneg : (-((m + 1 : ℕ) : ℤ)) = Int.negSucc m := rfl
    rw [hneg, Int.negSucc_ediv m (by positivity)]
    push_cast
    rfl

/-- past the width of the value a shift to the right leaves its sign -/
theorem shiftRight_far (ha : Normalized a) {bits : ℕ} (h : bitLength a.limbs ≤ bits) :
    val a / 2 ^ bits = if val a < 0 then -1 else 0 := by
  have hlt : (val a).natAbs < 2 ^ bits := by
    rw [natAbs_val]
    refine (Nat.lt_size_self _).trans_le (Nat.pow_le_pow_right (by norm_num) ?_)
    rwa [← bitLength_eq ha.limbs ha.trimmed]
  have habs : |val a| < 2 ^ bits := by
    rw [Int.abs_eq_natAbs]
    exact_mod_cast hlt
  obtain ⟨hlo, hhi⟩ := abs_lt.1 habs
  split_ifs with hs
  · exact Int.ediv_eq_neg_one_of_neg_of_le hs (by omega)
  · exact Int.ediv_eq_zero_of_lt (not_lt.1 hs) hhi

/-- a left shift that stays within the limit -/
theorem shiftLeft_spec (ha : Normalized a) (bits : ℕ) :
    Normalized (fromParts a.negative (shlMagnitude a.limbs bits)) ∧
      val (fromParts a.negative (shlMagnitude a.limbs bits)) = val a * 2 ^ bits := by
  refine ⟨normalized_fromParts (limbs_shlMagnitude ha.limbs), ?_⟩
  rw [val_fromParts, magnitude_shlMagnitude ha.limbs]
  unfold val
  cases a.negative <;> simp

/-- **Shifts.** To the left the source refuses exactly the results past the limit; to the right the bits of the value have
to fit the `u64` they are counted in. -/
theorem shift_spec (ha : Normalized a) (hb : Normalized b) :
    (0 ≤ val b → val a = 0 ∨ bitLength a.limbs + (val b).toNat ≤ maxBits →
      ∃ r, a.shift b = some r ∧ Normalized r ∧ val r = val a * 2 ^ (val b).toNat) ∧
    (0 ≤ val b → val a ≠ 0 → maxBits < bitLength a.limbs + (val b).toNat → a.shift b = none) ∧
    (val b < 0 → bitLength a.limbs < 2 ^ 64 →
      ∃ r, a.shift b = some r ∧ Normalized r ∧ val r = val a / 2 ^ (val b).natAbs) := by
  have hmax : maxBits < 2 ^ 64 - 1 := by decide
  unfold shift
  by_cases hzero : a.isZero = true
  · have hz := (isZero_iff ha).1 hzero
    rw [if_pos hzero]
    refine ⟨fun _ _ => ⟨_, rfl, normalized_zero, ?_⟩, fun _ hne => absurd hz hne, fun _ _ => ⟨_, rfl, normalized_zero, ?_⟩⟩
    · rw [hz, zero_mul]
      rfl
    · rw [hz, Int.zero_ediv]
      rfl
  · have hz : val a ≠ 0 := fun he => hzero ((isZero_iff ha).2 he)
    rw [if_neg hzero, magnitudeU64_eq hb]
    refine ⟨fun hpos h => ?_, fun hpos _ h => ?_, fun hneg h => ?_⟩
    · have hle : bitLength a.limbs + (val b).toNat ≤ maxBits := h.resolve_left hz
      have hmag : magnitude b.limbs = (val b).toNat := by rw [← natAbs_val]; omega
      rw [if_neg fun hs => absurd ((val_neg_iff hb).2 hs) (by omega), hmag, if_pos (by omega)]
      obtain ⟨hn, hv⟩ := shiftLeft_spec ha (val b).toNat
      exact ⟨_, if_neg (by omega), hn, hv⟩
    · have hmag : magnitude b.limbs = (val b).toNat := by rw [← natAbs_val]; omega
      rw [if_neg fun hs => absurd ((val_neg_iff hb).2 hs) (by omega), hmag]
      split_ifs with hfit
      · exact if_pos (by omega)
      · rfl
    · rw [if_pos ((val_neg_iff hb).1 hneg), ← natAbs_val]
      split_ifs with hfit
      · obtain ⟨hn, hv⟩ := shiftRight_spec ha (val b).natAbs
        exact ⟨_, rfl, hn, hv⟩
      · -- past the width of the value every shift leaves its sign
        obtain ⟨large, hlarge⟩ : ∃ large, large = 2 ^ 64 - 1 := ⟨_, rfl⟩
        rw [← hlarge]
        obtain ⟨hn, hv⟩ := shiftRight_spec ha large
        refine ⟨_, rfl, hn, hv.trans ?_⟩
        rw [shiftRight_far ha (by omega), shiftRight_far ha (by omega)]

end Render.Js.JsBigInt
