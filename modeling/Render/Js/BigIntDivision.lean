/-
Division of magnitudes (`div_small` and `divmod_magnitude` of `render-js/src/bigint.rs`).

`divStep_spec` is one pass of the long division: the limbs from position j on lose the quotient digit times the divisor,
and what is left of them is smaller than the divisor. `divSteps_spec` puts the passes together, and `divmodMagnitude_spec`
scales the operands so that the first limb of the divisor is large.
-/
import Render.Core.Integers
import Render.Js.BigIntShifts

namespace Render.Js

open Render.Core

variable {l dividend divisor tail window : List ℕ} {n : ℕ}

/-! ## By one limb -/

theorem divLimbs_spec (hl : Limbs l) {d : ℕ} (hd : 0 < d) : Limbs (divLimbs d l).1 ∧ (divLimbs d l).2 < d ∧
    magnitude l = magnitude (divLimbs d l).1 * d + (divLimbs d l).2 := by
  induction l with
  | nil => exact ⟨Limbs.nil, hd, by simp [divLimbs]⟩
  | cons a l ih =>
    obtain ⟨ha, hl⟩ := Limbs.cons_iff.1 hl
    obtain ⟨h1, h2, h3⟩ := ih hl
    have hfits : ((divLimbs d l).2 * 2 ^ 32 + a) / d < 2 ^ 32 := by
      refine Nat.div_lt_of_lt_mul ?_
      calc (divLimbs d l).2 * 2 ^ 32 + a < (divLimbs d l).2 * 2 ^ 32 + 2 ^ 32 := Nat.add_lt_add_left ha _
        _ = ((divLimbs d l).2 + 1) * 2 ^ 32 := by ring
        _ ≤ d * 2 ^ 32 := Nat.mul_le_mul_right _ h2
    unfold divLimbs
    dsimp only
    rw [Nat.mod_eq_of_lt hfits]
    refine ⟨Limbs.cons_iff.2 ⟨hfits, h1⟩, Nat.mod_lt _ hd, ?_⟩
    have hsplit := Nat.mod_add_div ((divLimbs d l).2 * 2 ^ 32 + a) d
    rw [magnitude_cons, magnitude_cons, h3]
    calc a + 2 ^ 32 * (magnitude (divLimbs d l).1 * d + (divLimbs d l).2)
        = (divLimbs d l).2 * 2 ^ 32 + a + 2 ^ 32 * magnitude (divLimbs d l).1 * d := by ring
      _ = ((divLimbs d l).2 * 2 ^ 32 + a) % d + d * (((divLimbs d l).2 * 2 ^ 32 + a) / d) +
          2 ^ 32 * magnitude (divLimbs d l).1 * d := by rw [hsplit]
      _ = _ := by ring

/-! ## Digits of a magnitude -/

theorem magnitude_drop_getD (l : List ℕ) (n : ℕ) :
    magnitude (l.drop n) = l.getD n 0 + 2 ^ 32 * magnitude (l.drop (n + 1)) := by
  rw [magnitude_headD_tail, List.tail_drop]
  congr 1
  simp [List.headD_eq_head?_getD, List.head?_drop, List.getD_eq_getElem?_getD]

theorem Limbs.getD (h : Limbs l) (n : ℕ) : l.getD n 0 < 2 ^ 32 := by
  rw [List.getD_eq_getElem?_getD]
  cases hx : l[n]? with
  | none => norm_num
  | some x => exact h x (List.mem_of_getElem? hx)

/-- the limbs that hold a magnitude -/
theorem magnitude_take (hn : n ≤ l.length) (h : magnitude l < (2 ^ 32) ^ n) : magnitude (l.take n) = magnitude l := by
  have hsplit := magnitude_take_drop l n hn
  rcases Nat.eq_zero_or_pos (magnitude (l.drop n)) with he | hpos
  · rw [hsplit, he, mul_zero, add_zero]
  · have := Nat.le_mul_of_pos_right ((2 ^ 32) ^ n) hpos
    omega

theorem magnitude_drop_eq_zero (hl : Limbs l) (h : magnitude l < (2 ^ 32) ^ n) : magnitude (l.drop n) = 0 := by
  rw [magnitude_drop hl, Nat.div_eq_of_lt h]

/-! ## The quotient digit -/

theorem refineDigit_spec {p V U v1 v2 u0 u1 u2 : ℕ} (h : Estimate (2 ^ 32) p V U v1 v2 u0 u1 u2) {digit rest : ℕ}
    (hrest : digit * v1 + rest = u0 * 2 ^ 32 + u1) (hge : U / V ≤ digit) (hle : digit ≤ 2 ^ 32 + 1) :
    U / V ≤ refineDigit v1 v2 u2 digit rest ∧ refineDigit v1 v2 u2 digit rest ≤ U / V + 1 ∧
      refineDigit v1 v2 u2 digit rest < 2 ^ 32 := by
  induction digit generalizing rest with
  | zero => exact ⟨hge, Nat.zero_le _, by unfold refineDigit; norm_num⟩
  | succ digit ih =>
    unfold refineDigit
    split_ifs with hlarge hmore
    · have hlt := h.lt_of_tooLarge hrest hlarge
      have hrest' : digit * v1 + (rest + v1) = u0 * 2 ^ 32 + u1 := by rw [← hrest]; ring
      have hquot := h.le_quotient hrest' (by omega) hmore
      have := h.quotient_lt
      exact ⟨Nat.lt_succ_iff.1 hlt, by omega, by omega⟩
    · have hlt := h.lt_of_tooLarge hrest hlarge
      have hrest' : digit * v1 + (rest + v1) = u0 * 2 ^ 32 + u1 := by rw [← hrest]; ring
      exact ih hrest' (Nat.lt_succ_iff.1 hlt) (by omega)
    · have hb : digit + 1 < 2 ^ 32 := by omega
      exact ⟨hge, h.le_succ hrest hb (by omega), hb⟩

/-! ## One pass -/

theorem mulSub_spec (digit : ℕ) (hlen : window.length = divisor.length) (borrow : ℤ) :
    Limbs (mulSub digit divisor window borrow).1 ∧ (mulSub digit divisor window borrow).1.length = window.length ∧
      (magnitude (mulSub digit divisor window borrow).1 : ℤ) = magnitude window - digit * magnitude divisor - borrow +
        (2 ^ 32) ^ divisor.length * (mulSub digit divisor window borrow).2 := by
  induction divisor generalizing window borrow with
  | nil =>
    obtain rfl := List.length_eq_zero_iff.1 hlen
    exact ⟨Limbs.nil, rfl, by simp [mulSub]⟩
  | cons d divisor ih =>
    cases window with
    | nil => cases hlen
    | cons s window =>
      unfold mulSub
      dsimp only
      set difference : ℤ := s - borrow - (digit * d % 2 ^ 32 : ℕ) with hdiff
      obtain ⟨h1, h2, h3⟩ := ih (Nat.succ.inj hlen) ((digit * d / 2 ^ 32 : ℕ) - difference / 2 ^ 32)
      have hlo : 0 ≤ difference % 2 ^ 32 := Int.emod_nonneg _ (by norm_num)
      have hlt : difference % 2 ^ 32 < 2 ^ 32 := Int.emod_lt_of_pos _ (by norm_num)
      refine ⟨Limbs.cons_iff.2 ⟨by omega, h1⟩, by rw [List.length_cons, h2, List.length_cons], ?_⟩
      have hsplit := Int.emod_add_mul_ediv difference (2 ^ 32)
      have hproduct : ((digit * d % 2 ^ 32 : ℕ) : ℤ) + 2 ^ 32 * (digit * d / 2 ^ 32 : ℕ) = digit * d := by
        exact_mod_cast Nat.mod_add_div (digit * d) (2 ^ 32)
      rw [magnitude_cons, magnitude_cons, magnitude_cons, List.length_cons, pow_succ (2 ^ 32) divisor.length]
      simp only [Nat.cast_add, Nat.cast_mul, Nat.cast_pow, Nat.cast_ofNat]
      rw [h3, Int.toNat_of_nonneg hlo]
      linear_combination hsplit + hdiff - hproduct

theorem addBack_spec (hlen : window.length = divisor.length) (carry : ℕ) :
    Limbs (addBack divisor window carry).1 ∧ (addBack divisor window carry).1.length = window.length ∧
      magnitude (addBack divisor window carry).1 + (2 ^ 32) ^ divisor.length * (addBack divisor window carry).2 =
        magnitude window + magnitude divisor + carry := by
  induction divisor generalizing window carry with
  | nil =>
    obtain rfl := List.length_eq_zero_iff.1 hlen
    exact ⟨Limbs.nil, rfl, by simp [addBack]⟩
  | cons d divisor ih =>
    cases window with
    | nil => cases hlen
    | cons s window =>
      unfold addBack
      dsimp only
      obtain ⟨h1, h2, h3⟩ := ih (Nat.succ.inj hlen) ((s + d + carry) / 2 ^ 32)
      refine ⟨Limbs.cons_iff.2 ⟨Nat.mod_lt _ (by norm_num), h1⟩, by rw [List.length_cons, h2, List.length_cons], ?_⟩
      have hsplit := Nat.mod_add_div (s + d + carry) (2 ^ 32)
      rw [magnitude_cons, magnitude_cons, magnitude_cons, List.length_cons, pow_succ' (2 ^ 32) _, mul_assoc]
      omega

/-- the first limb of a divisor whose magnitude is large for its length -/
theorem estimate_divisor (hd : Limbs divisor) (hn : 2 ≤ divisor.length)
    (hlarge : 2 ^ 31 * (2 ^ 32) ^ (divisor.length - 1) ≤ magnitude divisor) :
    2 ^ 31 ≤ divisor.getD (divisor.length - 1) 0 ∧
      magnitude divisor = magnitude (divisor.take (divisor.length - 2)) + (2 ^ 32) ^ (divisor.length - 2) *
        (divisor.getD (divisor.length - 1) 0 * 2 ^ 32 + divisor.getD (divisor.length - 2) 0) := by
  obtain ⟨m, hm⟩ : ∃ m, divisor.length = m + 2 := ⟨divisor.length - 2, by omega⟩
  have hsplit := magnitude_take_drop divisor m (by omega)
  have htop := magnitude_take_drop divisor (m + 1) (by omega)
  have hlow := magnitude_lt (hd.take (m + 1))
  rw [List.length_take, hm, min_eq_left (by omega)] at hlow
  have hdrop : magnitude (divisor.drop (m + 2)) = 0 := by rw [← hm, List.drop_length, magnitude_nil]
  have h1 := magnitude_drop_getD divisor m
  have h2 := magnitude_drop_getD divisor (m + 1)
  rw [hdrop, mul_zero, add_zero] at h2
  rw [hm] at hlarge ⊢
  rw [show m + 2 - 1 = m + 1 by omega, show m + 2 - 2 = m by omega] at *
  refine ⟨?_, ?_⟩
  · by_contra hlt
    have : (2 ^ 32) ^ (m + 1) * divisor.getD (m + 1) 0 ≤ (2 ^ 32) ^ (m + 1) * (2 ^ 31 - 1) :=
      Nat.mul_le_mul_left _ (by omega)
    rw [h2] at htop
    rw [mul_comm] at hlarge
    have hdist : (2 ^ 32) ^ (m + 1) * 2 ^ 31 = (2 ^ 32) ^ (m + 1) * (2 ^ 31 - 1) + (2 ^ 32) ^ (m + 1) := by ring
    omega
  · rw [hsplit, h1, h2]
    ring

/-- the leading digits of one pass -/
theorem estimate_step (hd : Limbs divisor) (hn : 2 ≤ divisor.length)
    (hlarge : 2 ^ 31 * (2 ^ 32) ^ (divisor.length - 1) ≤ magnitude divisor) (ht : Limbs tail)
    (hlen : divisor.length + 1 ≤ tail.length) (hfits : magnitude tail < 2 ^ 32 * magnitude divisor) :
    magnitude (tail.drop (divisor.length + 1)) = 0 ∧
    Estimate (2 ^ 32) ((2 ^ 32) ^ (divisor.length - 2)) (magnitude divisor) (magnitude tail)
      (divisor.getD (divisor.length - 1) 0) (divisor.getD (divisor.length - 2) 0) (tail.getD divisor.length 0)
      (tail.getD (divisor.length - 1) 0) (tail.getD (divisor.length - 2) 0) := by
  obtain ⟨htop, hvalue⟩ := estimate_divisor hd hn hlarge
  have hlow := magnitude_lt (hd.take (divisor.length - 2))
  rw [List.length_take, min_eq_left (Nat.sub_le _ _)] at hlow
  have hzero : magnitude (tail.drop (divisor.length + 1)) = 0 := by
    refine magnitude_drop_eq_zero ht (hfits.trans_le ?_)
    rw [pow_succ' (2 ^ 32) divisor.length]
    exact Nat.mul_le_mul_left _ (magnitude_lt hd).le
  obtain ⟨m, hm⟩ : ∃ m, divisor.length = m + 2 := ⟨divisor.length - 2, by omega⟩
  have hsplit := magnitude_take_drop tail m (by omega)
  have htail := magnitude_lt (ht.take m)
  rw [List.length_take, min_eq_left (by omega)] at htail
  have h0 := magnitude_drop_getD tail m
  have h1 := magnitude_drop_getD tail (m + 1)
  have h2 := magnitude_drop_getD tail (m + 2)
  refine ⟨hzero, ?_⟩
  rw [hm] at hvalue hlow hzero htop ⊢
  rw [show m + 2 - 1 = m + 1 by omega, show m + 2 - 2 = m by omega] at *
  rw [hzero, mul_zero, add_zero] at h2
  rw [h0, h1, h2] at hsplit
  refine ⟨by omega, ?_, ?_, ?_, ?_, hd.getD _, ht.getD _, hfits⟩
  · rw [hvalue, mul_comm]
    exact Nat.le_add_left _ _
  · rw [hvalue, add_mul _ 1, one_mul, add_comm, mul_comm]
    exact Nat.add_lt_add_left hlow _
  · rw [hsplit, mul_comm]
    refine le_trans (le_of_eq ?_) (Nat.le_add_left _ _)
    ring
  · rw [hsplit, add_mul _ 1, one_mul, add_comm, mul_comm]
    refine Nat.add_lt_add_of_le_of_lt (le_of_eq ?_) htail
    ring

/-- the limbs after a subtraction: a limb above a window that holds less than its size -/
theorem high_eq_zero {R W x : ℤ} (hW : 0 ≤ W) {P : ℤ} (hWlt : W < P) (hR : 0 ≤ R) (hRlt : R < P) (h : W + P * x = R) :
    x = 0 := by
  have hP : 0 < P := lt_of_le_of_lt hW hWlt
  rcases lt_trichotomy x 0 with hx | hx | hx
  · have : P * x ≤ P * (-1) := Int.mul_le_mul_of_nonneg_left (by omega) hP.le
    omega
  · exact hx
  · have : P * 1 ≤ P * x := Int.mul_le_mul_of_nonneg_left (by omega) hP.le
    omega

/-- the quotient digit that one pass tries -/
def triedDigit (divisor tail : List ℕ) : ℕ :=
  let numerator := tail.getD divisor.length 0 * 2 ^ 32 + tail.getD (divisor.length - 1) 0
  refineDigit (divisor.getD (divisor.length - 1) 0) (divisor.getD (divisor.length - 2) 0)
    (tail.getD (divisor.length - 2) 0) (numerator / divisor.getD (divisor.length - 1) 0)
    (numerator % divisor.getD (divisor.length - 1) 0)

/-- the digit that is tried is right, or one too large -/
theorem triedDigit_spec (hd : Limbs divisor) (hn : 2 ≤ divisor.length)
    (hlarge : 2 ^ 31 * (2 ^ 32) ^ (divisor.length - 1) ≤ magnitude divisor) (ht : Limbs tail)
    (hlen : divisor.length + 1 ≤ tail.length) (hfits : magnitude tail < 2 ^ 32 * magnitude divisor) :
    magnitude tail / magnitude divisor ≤ triedDigit divisor tail ∧
      triedDigit divisor tail ≤ magnitude tail / magnitude divisor + 1 ∧ triedDigit divisor tail < 2 ^ 32 := by
  obtain ⟨-, hest⟩ := estimate_step hd hn hlarge ht hlen hfits
  obtain ⟨htop, -⟩ := estimate_divisor hd hn hlarge
  unfold triedDigit
  dsimp only
  set n := divisor.length
  set top := divisor.getD (n - 1) 0
  set numerator := tail.getD n 0 * 2 ^ 32 + tail.getD (n - 1) 0
  have hdigit : numerator / top ≤ 2 ^ 32 + 1 := by
    have hu0 : tail.getD n 0 ≤ top := hest.first_le
    have hu1 := ht.getD (n - 1)
    have hlt : numerator < (2 ^ 32 + 2) * top :=
      calc numerator < tail.getD n 0 * 2 ^ 32 + 2 * top := by omega
        _ ≤ top * 2 ^ 32 + 2 * top := Nat.add_le_add_right (Nat.mul_le_mul_right _ hu0) _
        _ = (2 ^ 32 + 2) * top := by ring
    have := (Nat.div_lt_iff_lt_mul (by omega)).2 hlt
    omega
  have hrest : numerator / top * top + numerator % top = tail.getD n 0 * 2 ^ 32 + tail.getD (n - 1) 0 := by
    rw [mul_comm, Nat.div_add_mod]
  exact refineDigit_spec hest hrest hest.quotient_le hdigit

/-- one pass, in terms of the digit that is tried -/
theorem divStep_eq (divisor tail : List ℕ) : divStep divisor tail =
    let sub := mulSub (triedDigit divisor tail) divisor (tail.take divisor.length) 0
    let difference : ℤ := tail.getD divisor.length 0 - sub.2
    let high := (difference % 2 ^ 32).toNat
    if difference < 0 then
      let back := addBack divisor sub.1 0
      (triedDigit divisor tail - 1, back.1 ++ (high + back.2) % 2 ^ 32 :: tail.drop (divisor.length + 1))
    else (triedDigit divisor tail, sub.1 ++ high :: tail.drop (divisor.length + 1)) := rfl

/-- **One pass of the long division.** -/
theorem divStep_spec (hd : Limbs divisor) (hn : 2 ≤ divisor.length)
    (hlarge : 2 ^ 31 * (2 ^ 32) ^ (divisor.length - 1) ≤ magnitude divisor) (ht : Limbs tail)
    (hlen : divisor.length + 1 ≤ tail.length) (hfits : magnitude tail < 2 ^ 32 * magnitude divisor) :
    (divStep divisor tail).1 < 2 ^ 32 ∧ Limbs (divStep divisor tail).2 ∧
      (divStep divisor tail).2.length = tail.length ∧ magnitude (divStep divisor tail).2 < magnitude divisor ∧
      magnitude tail = (divStep divisor tail).1 * magnitude divisor + magnitude (divStep divisor tail).2 := by
  obtain ⟨hzero, hest⟩ := estimate_step hd hn hlarge ht hlen hfits
  obtain ⟨hge, hle, hlt⟩ := triedDigit_spec hd hn hlarge ht hlen hfits
  have hV := hest.divisor_pos
  set n := divisor.length with hnn
  set digit := triedDigit divisor tail with hdig
  have hwlen : (tail.take n).length = n := by rw [List.length_take]; omega
  have hwindow : (tail.take n).length = divisor.length := hwlen.trans hnn
  obtain ⟨hw1, hw2, hw3⟩ := mulSub_spec digit hwindow 0
  set sub := mulSub digit divisor (tail.take n) 0 with hsub
  have hUsplit : magnitude tail = magnitude (tail.take n) + (2 ^ 32) ^ n * tail.getD n 0 := by
    rw [magnitude_take_drop tail n (by omega), magnitude_drop_getD, hzero, mul_zero, add_zero]
  set difference : ℤ := tail.getD n 0 - sub.2 with hdiff
  have htotal : (magnitude tail : ℤ) - digit * magnitude divisor = magnitude sub.1 + (2 ^ 32) ^ n * difference := by
    rw [hw3, hUsplit, hdiff, ← hnn]
    push_cast
    ring
  have hwlt := magnitude_lt hw1
  rw [hw2, hwlen] at hwlt
  have hwlt' : (magnitude sub.1 : ℤ) < (2 ^ 32) ^ n := by exact_mod_cast hwlt
  have hVlt : (magnitude divisor : ℤ) < (2 ^ 32) ^ n := by exact_mod_cast magnitude_lt hd
  have hquot := Nat.div_add_mod (magnitude tail) (magnitude divisor)
  have hmod := Nat.mod_lt (magnitude tail) hV
  have hdroplen : (tail.drop (n + 1)).length = tail.length - (n + 1) := List.length_drop
  have hout : ∀ (w : List ℕ), w.length = n → (magnitude (w ++ 0 :: tail.drop (n + 1))) = magnitude w := fun w _ => by
    rw [magnitude_append, magnitude_cons, hzero, mul_zero, add_zero, mul_zero, add_zero]
  rw [divStep_eq]
  dsimp only
  rw [← hnn, ← hdig, ← hsub, ← hdiff]
  split_ifs with hneg
  · -- the digit was one too large
    have hone : digit = magnitude tail / magnitude divisor + 1 := by
      rcases Nat.lt_or_ge digit (magnitude tail / magnitude divisor + 1) with h | h
      · obtain he : digit = magnitude tail / magnitude divisor := by omega
        have hnn' : (0 : ℤ) ≤ magnitude tail - digit * magnitude divisor := by
          have hdiv : magnitude tail / magnitude divisor * magnitude divisor ≤ magnitude tail := Nat.div_mul_le_self _ _
          rw [← he] at hdiv
          exact sub_nonneg.2 (by exact_mod_cast hdiv)
        have : (2 ^ 32) ^ n * difference ≤ (2 ^ 32 : ℤ) ^ n * (-1) :=
          Int.mul_le_mul_of_nonneg_left (by omega) (by positivity)
        omega
      · omega
    have hback : sub.1.length = divisor.length := by rw [hw2, hwlen]
    obtain ⟨hb1, hb2, hb3⟩ := addBack_spec hback 0
    set back := addBack divisor sub.1 0
    have hblt := magnitude_lt hb1
    rw [hb2, hw2, hwlen] at hblt
    have hR : (magnitude back.1 : ℤ) + (2 ^ 32) ^ n * (back.2 + difference) =
        (magnitude tail % magnitude divisor : ℕ) := by
      have hb3' : (magnitude back.1 : ℤ) + (2 ^ 32) ^ n * back.2 = magnitude sub.1 + magnitude divisor := by
        exact_mod_cast hb3
      have hquot' : (magnitude divisor : ℤ) * (magnitude tail / magnitude divisor : ℕ) +
          (magnitude tail % magnitude divisor : ℕ) = magnitude tail := by exact_mod_cast hquot
      have hone' : (digit : ℤ) = (magnitude tail / magnitude divisor : ℕ) + 1 := by exact_mod_cast hone
      rw [hone'] at htotal
      linear_combination hb3' - htotal - hquot'
    have hcarry : back.2 + difference = 0 := high_eq_zero (by positivity) (by exact_mod_cast hblt) (by positivity)
      (lt_trans (by exact_mod_cast hmod) hVlt) hR
    have hhigh : ((difference % 2 ^ 32).toNat + back.2) % 2 ^ 32 = 0 := by
      have : difference = -(back.2 : ℤ) := by omega
      omega
    rw [hcarry, mul_zero, add_zero] at hR
    have hRnat : magnitude back.1 = magnitude tail % magnitude divisor := by exact_mod_cast hR
    rw [hhigh, hout _ (by rw [hb2, hw2, hwlen]), hRnat]
    refine ⟨by omega, Limbs.append_iff.2 ⟨hb1, Limbs.cons_iff.2 ⟨by norm_num, ht.drop _⟩⟩, ?_, hmod, ?_⟩
    · rw [List.length_append, List.length_cons, hb2, hw2, hwlen, hdroplen]
      omega
    · rw [hone, Nat.add_sub_cancel, mul_comm, hquot]
  · have hpos : 0 ≤ difference := not_lt.1 hneg
    have hexact : digit = magnitude tail / magnitude divisor := by
      refine le_antisymm ((Nat.le_div_iff_mul_le hV).2 ?_) hge
      have : (0 : ℤ) ≤ magnitude tail - digit * magnitude divisor := by
        rw [htotal]
        positivity
      have : (digit * magnitude divisor : ℤ) ≤ magnitude tail := by omega
      exact_mod_cast this
    have hR : (magnitude sub.1 : ℤ) + (2 ^ 32) ^ n * difference = (magnitude tail % magnitude divisor : ℕ) := by
      rw [← htotal, hexact]
      have hquot' : (magnitude divisor : ℤ) * (magnitude tail / magnitude divisor : ℕ) +
          (magnitude tail % magnitude divisor : ℕ) = magnitude tail := by exact_mod_cast hquot
      linear_combination -hquot'
    have hdzero : difference = 0 := high_eq_zero (by positivity) hwlt' (by positivity)
      (lt_trans (by exact_mod_cast hmod) hVlt) hR
    rw [hdzero, mul_zero, add_zero] at hR
    have hRnat : magnitude sub.1 = magnitude tail % magnitude divisor := by exact_mod_cast hR
    rw [hdzero, Int.zero_emod, Int.toNat_zero, hout _ (by rw [hw2, hwlen]), hRnat]
    refine ⟨hlt, Limbs.append_iff.2 ⟨hw1, Limbs.cons_iff.2 ⟨by norm_num, ht.drop _⟩⟩, ?_, hmod, ?_⟩
    · rw [List.length_append, List.length_cons, hw2, hwlen, hdroplen]
      omega
    · rw [hexact, mul_comm, hquot]

/-! ## All passes -/

/-- one pass at position j leaves the limbs below j, and what the next pass asks for -/
theorem divSteps_next (hd : Limbs divisor) (hn : 2 ≤ divisor.length)
    (hlarge : 2 ^ 31 * (2 ^ 32) ^ (divisor.length - 1) ≤ magnitude divisor) {j : ℕ} {scaled : List ℕ} (hs : Limbs scaled)
    (hlen : j + 1 + divisor.length ≤ scaled.length) (hlt : magnitude (scaled.drop (j + 1)) < magnitude divisor) :
    (divStep divisor (scaled.drop j)).1 < 2 ^ 32 ∧ Limbs (scaled.take j ++ (divStep divisor (scaled.drop j)).2) ∧
      (scaled.take j ++ (divStep divisor (scaled.drop j)).2).length = scaled.length ∧
      magnitude ((scaled.take j ++ (divStep divisor (scaled.drop j)).2).drop j) < magnitude divisor ∧
      magnitude (scaled.drop j) = (divStep divisor (scaled.drop j)).1 * magnitude divisor +
        magnitude (divStep divisor (scaled.drop j)).2 := by
  have hfits : magnitude (scaled.drop j) < 2 ^ 32 * magnitude divisor := by
    have := hs.getD j
    rw [magnitude_drop_getD]
    omega
  have htlen : divisor.length + 1 ≤ (scaled.drop j).length := by rw [List.length_drop]; omega
  obtain ⟨h1, h2, h3, h4, h5⟩ := divStep_spec hd hn hlarge (hs.drop j) htlen hfits
  have htake : (scaled.take j).length = j := by rw [List.length_take]; omega
  refine ⟨h1, Limbs.append_iff.2 ⟨hs.take j, h2⟩, ?_, ?_, h5⟩
  · rw [List.length_append, htake, h3, List.length_drop]
    omega
  · rwa [List.drop_append_of_le_length htake.ge, List.drop_eq_nil_of_le htake.le, List.nil_append]

/-- **The passes of the long division**, from position j - 1 down. -/
theorem divSteps_spec (hd : Limbs divisor) (hn : 2 ≤ divisor.length)
    (hlarge : 2 ^ 31 * (2 ^ 32) ^ (divisor.length - 1) ≤ magnitude divisor) (j : ℕ) {scaled : List ℕ} (hs : Limbs scaled)
    (hlen : j + divisor.length ≤ scaled.length) (hlt : magnitude (scaled.drop j) < magnitude divisor)
    (quotient : List ℕ) :
    ∃ q left, divSteps divisor j scaled quotient = (q ++ quotient, left) ∧ q.length = j ∧ Limbs q ∧ Limbs left ∧
      left.length = scaled.length ∧ magnitude left < magnitude divisor ∧
      magnitude scaled = magnitude q * magnitude divisor + magnitude left := by
  induction j generalizing scaled quotient with
  | zero => exact ⟨[], scaled, rfl, rfl, Limbs.nil, hs, rfl, by simpa using hlt, by simp⟩
  | succ j ih =>
    obtain ⟨h1, h2, h3, h4, h5⟩ := divSteps_next hd hn hlarge hs hlen hlt
    set step := divStep divisor (scaled.drop j) with hstep
    have htake : (scaled.take j).length = j := by rw [List.length_take]; omega
    obtain ⟨q, left, he, hq, hlq, hll, hleft, hltl, hvalue⟩ := ih h2 (by rw [h3]; omega) h4 (step.1 % 2 ^ 32 :: quotient)
    refine ⟨q ++ [step.1], left, ?_, by simp [hq], Limbs.append_iff.2 ⟨hlq, Limbs.cons_iff.2 ⟨h1, Limbs.nil⟩⟩, hll,
      hleft.trans h3, hltl, ?_⟩
    · rw [divSteps, ← hstep]
      show divSteps divisor j (scaled.take j ++ step.2) (step.1 % 2 ^ 32 :: quotient) = _
      rw [he, Nat.mod_eq_of_lt h1, List.append_assoc]
      rfl
    · rw [magnitude_append, htake] at hvalue
      rw [magnitude_take_drop scaled j (by omega), h5, magnitude_append, hq, magnitude_cons, magnitude_nil]
      linear_combination hvalue

theorem leadingZeros_spec {top : ℕ} (h : 0 < top) (hlt : top < 2 ^ 32) :
    leadingZeros top < 32 ∧ 2 ^ 31 ≤ top * 2 ^ leadingZeros top ∧ top * 2 ^ leadingZeros top < 2 ^ 32 := by
  have hpos := Nat.size_pos.2 h
  have hsize : top.size ≤ 32 := Nat.size_le.2 hlt
  have hlo : 2 ^ (top.size - 1) ≤ top := Nat.lt_size.1 (Nat.sub_lt hpos Nat.one_pos)
  have hup := Nat.lt_size_self top
  unfold leadingZeros
  refine ⟨by omega, ?_, ?_⟩
  · calc (2 : ℕ) ^ 31 = 2 ^ (top.size - 1) * 2 ^ (32 - top.size) := by rw [← pow_add]; congr 1; omega
      _ ≤ top * 2 ^ (32 - top.size) := Nat.mul_le_mul_right _ hlo
  · calc top * 2 ^ (32 - top.size) < 2 ^ top.size * 2 ^ (32 - top.size) :=
        Nat.mul_lt_mul_of_pos_right hup (Nat.pow_pos (by norm_num))
      _ = 2 ^ 32 := by rw [← pow_add]; congr 1; omega

/-- the scaled divisor: its first limb is large, and the limb that `shift_left_limbs` adds is zero -/
theorem scaledDivisor_spec {shift : ℕ} (hd : Limbs divisor) (ht : Trimmed divisor) (hn : 2 ≤ divisor.length)
    (hshift : (divisor.getLast?.map leadingZeros).getD 0 = shift) :
    shift < 32 ∧ Limbs (shiftLeftLimbs shift divisor 0).dropLast ∧
      (shiftLeftLimbs shift divisor 0).dropLast.length = divisor.length ∧
      magnitude (shiftLeftLimbs shift divisor 0).dropLast = magnitude divisor * 2 ^ shift ∧
      2 ^ 31 * (2 ^ 32) ^ (divisor.length - 1) ≤ magnitude divisor * 2 ^ shift := by
  obtain ⟨top, htop⟩ : ∃ top, divisor.getLast? = some top :=
    Option.isSome_iff_exists.1 (List.getLast?_isSome.2 (List.length_pos_iff.1 (by omega)))
  obtain ⟨low, rfl⟩ := List.getLast?_eq_some_iff.1 htop
  obtain ⟨hlow, hlast⟩ := Limbs.append_iff.1 hd
  have htop0 : 0 < top := Nat.pos_of_ne_zero fun he => ht (by rw [htop, he])
  rw [htop, Option.map_some, Option.getD_some] at hshift
  obtain ⟨h32, hge, hlt⟩ := leadingZeros_spec htop0 (hlast top (List.mem_singleton_self top))
  rw [hshift] at h32 hge hlt
  have hcarry : 0 < 2 ^ shift := Nat.pow_pos (by norm_num)
  obtain ⟨h1, h2, h3⟩ := shiftLeftLimbs_eq h32 hd hcarry
  have hmag : magnitude (low ++ [top]) = magnitude low + (2 ^ 32) ^ low.length * top := by
    rw [magnitude_append, magnitude_cons, magnitude_nil, mul_zero, add_zero]
  have hlowlt := magnitude_lt hlow
  have hlength : (low ++ [top]).length = low.length + 1 := by simp
  -- the shifted number still fits the length
  have hfits : magnitude (low ++ [top]) * 2 ^ shift < (2 ^ 32) ^ (low ++ [top]).length := by
    have hround : (top + 1) * 2 ^ shift ≤ 2 ^ 32 := by
      have hpow : (2 : ℕ) ^ 32 = 2 ^ (32 - shift) * 2 ^ shift := by rw [← pow_add]; congr 1; omega
      rw [hpow] at hlt ⊢
      exact Nat.mul_le_mul_right _ (Nat.lt_of_mul_lt_mul_right hlt)
    rw [hmag, hlength, pow_succ (2 ^ 32) _]
    calc (magnitude low + (2 ^ 32) ^ low.length * top) * 2 ^ shift
        < ((2 ^ 32) ^ low.length + (2 ^ 32) ^ low.length * top) * 2 ^ shift :=
          Nat.mul_lt_mul_of_pos_right (Nat.add_lt_add_right hlowlt _) (Nat.pow_pos (by norm_num))
      _ = (2 ^ 32) ^ low.length * ((top + 1) * 2 ^ shift) := by ring
      _ ≤ (2 ^ 32) ^ low.length * 2 ^ 32 := Nat.mul_le_mul_left _ hround
  refine ⟨h32, fun x hx => h1 x (List.mem_of_mem_dropLast hx), by rw [List.length_dropLast, h3, Nat.add_sub_cancel], ?_, ?_⟩
  · rw [add_zero] at h2
    rw [List.dropLast_eq_take, h3, Nat.add_sub_cancel, magnitude_take (by omega) (by rw [h2]; exact hfits), h2]
  · rw [hmag, hlength, Nat.add_sub_cancel]
    calc 2 ^ 31 * (2 ^ 32) ^ low.length ≤ top * 2 ^ shift * (2 ^ 32) ^ low.length := Nat.mul_le_mul_right _ hge
      _ = (2 ^ 32) ^ low.length * top * 2 ^ shift := by ring
      _ ≤ (magnitude low + (2 ^ 32) ^ low.length * top) * 2 ^ shift :=
        Nat.mul_le_mul_right _ (Nat.le_add_left _ _)

/-- the limbs of the scaled dividend above the last position are smaller than the divisor -/
theorem divLong_ready {shift : ℕ} (hl : Limbs dividend) (hd : Limbs divisor) (htd : Trimmed divisor)
    (hn : 2 ≤ divisor.length) (hle : magnitude divisor ≤ magnitude dividend)
    (hshift : (divisor.getLast?.map leadingZeros).getD 0 = shift) :
    magnitude ((shiftLeftLimbs shift dividend 0).drop (dividend.length - divisor.length + 1)) <
      magnitude (shiftLeftLimbs shift divisor 0).dropLast := by
  obtain ⟨h32, -, -, hs3, hs4⟩ := scaledDivisor_spec hd htd hn hshift
  have hlength := length_le_of_magnitude_le hl htd hle
  have hpow : 0 < 2 ^ shift := Nat.pow_pos (by norm_num)
  obtain ⟨hdl1, hdl2, -⟩ := shiftLeftLimbs_eq h32 hl hpow
  rw [add_zero] at hdl2
  rw [magnitude_drop hdl1, hdl2, hs3]
  refine lt_of_lt_of_le (Nat.div_lt_of_lt_mul ?_) hs4
  have hlt := magnitude_lt hl
  calc magnitude dividend * 2 ^ shift < (2 ^ 32) ^ dividend.length * 2 ^ shift := Nat.mul_lt_mul_of_pos_right hlt hpow
    _ ≤ (2 ^ 32) ^ dividend.length * 2 ^ 31 :=
      Nat.mul_le_mul_left _ (Nat.pow_le_pow_right (by norm_num) (by omega))
    _ = (2 ^ 32) ^ (dividend.length - divisor.length + 1 + (divisor.length - 1)) * 2 ^ 31 := by
      congr 2
      omega
    _ = (2 ^ 32) ^ (dividend.length - divisor.length + 1) * (2 ^ 31 * (2 ^ 32) ^ (divisor.length - 1)) := by
      rw [pow_add]
      ring

/-- the long division -/
theorem divLong_spec (hl : Limbs dividend) (hd : Limbs divisor) (htd : Trimmed divisor)
    (hn : 2 ≤ divisor.length) (hle : magnitude divisor ≤ magnitude dividend) :
    Limbs (divLong dividend divisor).1 ∧ Limbs (divLong dividend divisor).2 ∧
      magnitude (divLong dividend divisor).1 = magnitude dividend / magnitude divisor ∧
      magnitude (divLong dividend divisor).2 = magnitude dividend % magnitude divisor := by
  have hpos : 0 < magnitude divisor := Nat.pos_of_ne_zero fun he => by
    rw [(magnitude_eq_zero htd).1 he] at hn
    exact absurd hn (by decide)
  obtain ⟨h32, hs1, hs2, hs3, hs4⟩ := scaledDivisor_spec hd htd hn rfl
  have hhigh := divLong_ready hl hd htd hn hle rfl
  have hlength := length_le_of_magnitude_le hl htd hle
  have hcarry : 0 < 2 ^ (divisor.getLast?.map leadingZeros).getD 0 := Nat.pow_pos (by norm_num)
  obtain ⟨hdl1, hdl2, hdl3⟩ := shiftLeftLimbs_eq h32 hl hcarry
  unfold divLong
  dsimp only
  set shift := (divisor.getLast?.map leadingZeros).getD 0
  set scaledDivisor := (shiftLeftLimbs shift divisor 0).dropLast
  set scaled := shiftLeftLimbs shift dividend 0
  rw [add_zero] at hdl2
  have hpow : 0 < 2 ^ shift := Nat.pow_pos (by norm_num)
  obtain ⟨q, left, he, -, hlq, hll, hleft, hltl, hvalue⟩ := divSteps_spec hs1 (by omega)
    (by rw [hs2, hs3]; exact hs4) (dividend.length - divisor.length + 1) hdl1 (by omega) hhigh []
  rw [hs2, he, List.append_nil]
  dsimp only
  have hVlt : magnitude scaledDivisor < (2 ^ 32) ^ divisor.length := hs2 ▸ magnitude_lt hs1
  rw [hdl2, hs3] at hvalue
  rw [hs3] at hltl hVlt
  have hquot : magnitude q = magnitude dividend / magnitude divisor := by
    rw [← Nat.mul_div_mul_right _ _ hpow, hvalue, mul_comm (magnitude q), Nat.mul_add_div (Nat.mul_pos hpos hpow),
      Nat.div_eq_of_lt hltl, add_zero]
  have hleftmod : magnitude left = magnitude dividend % magnitude divisor * 2 ^ shift := by
    rw [← Nat.mul_mod_mul_right, hvalue, mul_comm (magnitude q), Nat.mul_add_mod, Nat.mod_eq_of_lt hltl]
  have hremainder : magnitude (shrLimbs shift (left.take (divisor.length + 1))) =
      magnitude dividend % magnitude divisor := by
    have hfits : magnitude left < (2 ^ 32) ^ (divisor.length + 1) :=
      (hltl.trans hVlt).trans_le (Nat.pow_le_pow_right (by norm_num) (Nat.le_succ _))
    rw [magnitude_shrLimbs h32.le (hll.take _), magnitude_take (by omega) hfits, hleftmod, Nat.mul_div_cancel _ hpow]
  refine ⟨hlq.trim, ((limbs_shrLimbs (hll.take _)).take _).trim, (magnitude_trim _).trans hquot, ?_⟩
  rw [magnitude_trim, magnitude_take, hremainder]
  · rw [length_shrLimbs, List.length_take]
    omega
  · rw [hremainder]
    exact (Nat.mod_lt _ hpos).trans (magnitude_lt hd)

/-- **Quotient and remainder of magnitudes.** -/
theorem divmodMagnitude_spec (hl : Limbs dividend) (htl : Trimmed dividend) (hd : Limbs divisor)
    (htd : Trimmed divisor) (hne : divisor ≠ []) :
    Limbs (divmodMagnitude dividend divisor).1 ∧ Limbs (divmodMagnitude dividend divisor).2 ∧
      magnitude (divmodMagnitude dividend divisor).1 = magnitude dividend / magnitude divisor ∧
      magnitude (divmodMagnitude dividend divisor).2 = magnitude dividend % magnitude divisor := by
  have hpos : 0 < magnitude divisor := Nat.pos_of_ne_zero fun he => hne ((magnitude_eq_zero htd).1 he)
  unfold divmodMagnitude
  rw [cmpMagnitude_eq hl hd htl htd]
  split_ifs with hcmp
  · have hlt := compare_lt_iff_lt.1 hcmp
    exact ⟨Limbs.nil, hl, by rw [magnitude_nil, Nat.div_eq_of_lt hlt], by rw [Nat.mod_eq_of_lt hlt]⟩
  · have hle : magnitude divisor ≤ magnitude dividend := not_lt.1 fun h => hcmp (compare_lt_iff_lt.2 h)
    rcases divisor with - | ⟨limb, - | ⟨second, rest⟩⟩
    · exact absurd rfl hne
    · -- one limb
      have hmag : magnitude [limb] = limb := by simp
      rw [hmag] at hpos ⊢
      obtain ⟨h1, h2, h3⟩ := divLimbs_spec hl hpos
      have hquot : magnitude (divLimbs limb dividend).1 = magnitude dividend / limb := by
        rw [h3, mul_comm, Nat.mul_add_div hpos, Nat.div_eq_of_lt h2, add_zero]
      have hmod : (divLimbs limb dividend).2 = magnitude dividend % limb := by
        rw [h3, mul_comm, Nat.mul_add_mod, Nat.mod_eq_of_lt h2]
      have hlimb := (Limbs.cons_iff.1 hd).1
      refine ⟨h1.trim, ?_, (magnitude_trim _).trans hquot, ?_⟩
      · show Limbs (if (divLimbs limb dividend).2 = 0 then [] else [(divLimbs limb dividend).2])
        split_ifs
        · exact Limbs.nil
        · exact Limbs.cons_iff.2 ⟨h2.trans hlimb, Limbs.nil⟩
      · show magnitude (if (divLimbs limb dividend).2 = 0 then [] else [(divLimbs limb dividend).2]) = _
        rw [← hmod]
        split_ifs with h0
        · rw [h0, magnitude_nil]
        · simp
    · exact divLong_spec hl hd htd (by simp) hle

end Render.Js
