/-
Division of magnitudes with every machine operation checked (`divmod_magnitude` and `div_small` of
`render-js/src/bigint.rs`).

The functions here run the loops of `Render.Js.BigInt` in the words of the source: an operation on `u64` or `i64` that
leaves its type, a subtraction of `usize` or a decrement below zero, a shift by 32 or more, a division by zero and an index
outside its vector give `none`. Casts cut off, as in the source. `divmod_magnitude_ok` is the result: for proper magnitudes
no check fails, and what comes out is quotient and remainder without zero limbs at the high end.

Each loop has a lemma that its checked form gives what the unchecked one gives. The bounds behind them: a rest that is
refined further is below 2^32, so digit times second limb is only taken of two words (`refineDigitChecked_eq`); the borrow
stays between 0 and 2^32 (`mulSubChecked_eq`) and the carry at most 1 (`addBackChecked_eq`); and a digit that is taken back
by one is not zero (`mulSub_zero`).
-/
import Mathlib.Tactic
import Render.Js.BigIntDivision

namespace Render.Js

variable {l divisor tail window dividend : List ℕ} {n bits : ℕ}

/-! ## The checked operations -/

def checkU64 (x : ℕ) : Option ℕ := if x < 2 ^ 64 then some x else none

def checkI64 (x : ℤ) : Option ℤ := if -2 ^ 63 ≤ x ∧ x < 2 ^ 63 then some x else none

/-- a subtraction of `usize` or `u64` -/
def checkSub (a b : ℕ) : Option ℕ := if b ≤ a then some (a - b) else none

/-- a division of `u64`: quotient and remainder -/
def checkDiv (a b : ℕ) : Option (ℕ × ℕ) := if b ≠ 0 then some (a / b, a % b) else none

/-- a number of bits that a `u32` can be shifted by -/
def checkShift (bits : ℕ) : Option ℕ := if bits < 32 then some bits else none

theorem checkU64_eq {x : ℕ} (h : x < 2 ^ 64) : checkU64 x = some x := if_pos h

theorem checkI64_eq {x : ℤ} (hlo : -2 ^ 63 ≤ x) (hup : x < 2 ^ 63) : checkI64 x = some x := if_pos ⟨hlo, hup⟩

theorem checkSub_eq {a b : ℕ} (h : b ≤ a) : checkSub a b = some (a - b) := if_pos h

theorem checkDiv_eq {a b : ℕ} (h : b ≠ 0) : checkDiv a b = some (a / b, a % b) := if_pos h

theorem checkShift_eq {bits : ℕ} (h : bits < 32) : checkShift bits = some bits := if_pos h

/-! ## The loops -/

/-- the loop of `div_small` -/
def divLimbsChecked (divisor : ℕ) : List ℕ → Option (List ℕ × ℕ)
  | [] => some ([], 0)
  | limb :: limbs => do
    let above ← divLimbsChecked divisor limbs
    let shifted ← checkU64 (above.2 * 2 ^ 32)
    let step ← checkDiv (shifted + limb) divisor
    some (step.1 % 2 ^ 32 :: above.1, step.2)

def shiftLeftLimbsChecked (bits : ℕ) : List ℕ → ℕ → Option (List ℕ)
  | [], carry => some [carry]
  | limb :: limbs, carry =>
    if bits = 0 then do
      let rest ← shiftLeftLimbsChecked bits limbs carry
      some (limb :: rest)
    else do
      let left ← checkShift bits
      let back ← checkSub 32 bits
      let right ← checkShift back
      let rest ← shiftLeftLimbsChecked bits limbs (limb >>> right)
      some (shlLimb limb left carry :: rest)

/-- does the digit not fit the base, or the second limb? The product is only formed where it fits the base. -/
def tooLargeChecked (second next digit rest : ℕ) : Option Bool :=
  if 2 ^ 32 ≤ digit then some true
  else do
    let product ← checkU64 (digit * second)
    let shifted ← checkU64 (rest * 2 ^ 32)
    some (shifted + next < product)

/-- the loop that refines a quotient digit -/
def refineDigitChecked (top second next : ℕ) : ℕ → ℕ → Option ℕ
  | 0, rest => do
    let tooLarge ← tooLargeChecked second next 0 rest
    if tooLarge then none else some 0
  | digit + 1, rest => do
    let tooLarge ← tooLargeChecked second next (digit + 1) rest
    if tooLarge then do
      let rest ← checkU64 (rest + top)
      if 2 ^ 32 ≤ rest then some digit else refineDigitChecked top second next digit rest
    else some (digit + 1)

/-- the loop that subtracts `digit` times the divisor -/
def mulSubChecked (digit : ℕ) : List ℕ → List ℕ → ℤ → Option (List ℕ × ℤ)
  | [], window, borrow => some (window, borrow)
  | _ :: _, [], _ => none
  | limb :: divisor, scaled :: window, borrow => do
    let product ← checkU64 (digit * limb)
    let less ← checkI64 (scaled - borrow)
    let difference ← checkI64 (less - (product % 2 ^ 32 : ℕ))
    let borrow ← checkI64 ((product / 2 ^ 32 : ℕ) - difference / 2 ^ 32)
    let rest ← mulSubChecked digit divisor window borrow
    some ((difference % 2 ^ 32).toNat :: rest.1, rest.2)

/-- the loop that adds the divisor back -/
def addBackChecked : List ℕ → List ℕ → ℕ → Option (List ℕ × ℕ)
  | [], window, carry => some (window, carry)
  | _ :: _, [], _ => none
  | limb :: divisor, scaled :: window, carry => do
    let both ← checkU64 (scaled + limb)
    let sum ← checkU64 (both + carry)
    let rest ← addBackChecked divisor window (sum / 2 ^ 32)
    some (sum % 2 ^ 32 :: rest.1, rest.2)

/-- one pass of the loop of `divmod_magnitude`, on the limbs from position j on -/
def divStepChecked (divisor tail : List ℕ) : Option (ℕ × List ℕ) := do
  let n := divisor.length
  let last ← checkSub n 1
  let beforeLast ← checkSub n 2
  let top ← divisor[last]?
  let second ← divisor[beforeLast]?
  let high ← tail[n]?
  let below ← tail[last]?
  let next ← tail[beforeLast]?
  let shifted ← checkU64 (high * 2 ^ 32)
  let estimate ← checkDiv (shifted + below) top
  let digit ← refineDigitChecked top second next estimate.1 estimate.2
  let sub ← mulSubChecked digit divisor (tail.take n) 0
  let difference ← checkI64 (high - sub.2)
  let high := (difference % 2 ^ 32).toNat
  if difference < 0 then
    let digit ← checkSub digit 1
    let back ← addBackChecked divisor sub.1 0
    some (digit, back.1 ++ (high + back.2) % 2 ^ 32 :: tail.drop (n + 1))
  else some (digit, sub.1 ++ high :: tail.drop (n + 1))

/-- the loop of `divmod_magnitude` -/
def divStepsChecked (divisor : List ℕ) : ℕ → List ℕ → List ℕ → Option (List ℕ × List ℕ)
  | 0, scaled, quotient => some (quotient, scaled)
  | j + 1, scaled, quotient => do
    let step ← divStepChecked divisor (scaled.drop j)
    divStepsChecked divisor j (scaled.take j ++ step.2) (step.1 % 2 ^ 32 :: quotient)

/-- the low n limbs, shifted back down: each reads the limb above it -/
def shiftDownChecked (bits : ℕ) : ℕ → List ℕ → Option (List ℕ)
  | 0, _ => some []
  | _ + 1, [] => none
  | n + 1, limb :: limbs =>
    if bits = 0 then do
      let rest ← shiftDownChecked bits n limbs
      some (limb :: rest)
    else do
      let right ← checkShift bits
      let high ← limbs.head?
      let back ← checkSub 32 bits
      let left ← checkShift back
      let rest ← shiftDownChecked bits n limbs
      some ((limb >>> right ||| (high <<< left % 2 ^ 32)) :: rest)

/-- `divmod_magnitude` for a divisor of two limbs or more -/
def divLongChecked (dividend divisor : List ℕ) : Option (List ℕ × List ℕ) := do
  let shift := (divisor.getLast?.map leadingZeros).getD 0
  let shifted ← shiftLeftLimbsChecked shift divisor 0
  let scaledDivisor := shifted.dropLast
  let scaled ← shiftLeftLimbsChecked shift dividend 0
  let n := scaledDivisor.length
  let above ← checkSub dividend.length n
  let steps ← divStepsChecked scaledDivisor (above + 1) scaled []
  let remainder ← shiftDownChecked shift n steps.2
  some (trim steps.1, trim remainder)

/-- `divmod_magnitude`: quotient and remainder, or `none` where an operation leaves its type -/
def divmodMagnitudeChecked (dividend divisor : List ℕ) : Option (List ℕ × List ℕ) :=
  if cmpMagnitude dividend divisor = .lt then some ([], dividend)
  else
    match divisor with
    | [limb] => do
      let result ← divLimbsChecked limb dividend
      some (trim result.1, if result.2 = 0 then [] else [result.2])
    | _ => divLongChecked dividend divisor

/-! ## No check fails -/

theorem divLimbs_cons (d a : ℕ) (l : List ℕ) : divLimbs d (a :: l) =
    (((divLimbs d l).2 * 2 ^ 32 + a) / d % 2 ^ 32 :: (divLimbs d l).1, ((divLimbs d l).2 * 2 ^ 32 + a) % d) := rfl

theorem divLimbsChecked_eq (hl : Limbs l) {d : ℕ} (hd : 0 < d) (hlimb : d < 2 ^ 32) :
    divLimbsChecked d l = some (divLimbs d l) := by
  induction l with
  | nil => rfl
  | cons a l ih =>
    obtain ⟨ha, hl⟩ := Limbs.cons_iff.1 hl
    obtain ⟨-, hremainder, -⟩ := divLimbs_spec hl hd
    have hshift : (divLimbs d l).2 * 2 ^ 32 < 2 ^ 64 := by omega
    rw [divLimbsChecked, ih hl, Option.bind_eq_bind, Option.bind_some, checkU64_eq hshift, Option.bind_eq_bind,
      Option.bind_some, checkDiv_eq hd.ne', Option.bind_eq_bind, Option.bind_some, divLimbs_cons]

theorem shiftLeftLimbsChecked_eq (hb : bits < 32) (l : List ℕ) (carry : ℕ) :
    shiftLeftLimbsChecked bits l carry = some (shiftLeftLimbs bits l carry) := by
  induction l generalizing carry with
  | nil => rfl
  | cons a l ih =>
    rw [shiftLeftLimbsChecked, shiftLeftLimbs]
    split_ifs with hzero
    · simp only [ih, Option.bind_eq_bind, Option.bind_some]
    · have hback : 32 - bits < 32 := by omega
      simp only [checkShift_eq hb, checkSub_eq hb.le, checkShift_eq hback, ih, Option.bind_eq_bind, Option.bind_some]

theorem tooLargeChecked_eq {second next digit rest : ℕ} (hsecond : second < 2 ^ 32) (hrest : rest < 2 ^ 32) :
    tooLargeChecked second next digit rest = some (2 ^ 32 ≤ digit ∨ rest * 2 ^ 32 + next < digit * second : Bool) := by
  unfold tooLargeChecked
  by_cases hbase : 2 ^ 32 ≤ digit
  · rw [if_pos hbase]
    simp only [hbase, true_or, decide_true]
  · have hproduct : digit * second < 2 ^ 64 :=
      calc digit * second ≤ 2 ^ 32 * second := Nat.mul_le_mul_right _ (not_le.1 hbase).le
        _ < 2 ^ 64 := by omega
    have hshift : rest * 2 ^ 32 < 2 ^ 64 := by omega
    rw [if_neg hbase]
    simp only [checkU64_eq hproduct, checkU64_eq hshift, Option.bind_eq_bind, Option.bind_some, hbase, false_or]

/-- the digit is only taken down while the rest is below the base -/
theorem refineDigitChecked_eq {top second next digit rest : ℕ} (htop : top < 2 ^ 32) (hsecond : second < 2 ^ 32)
    (hrest : rest < 2 ^ 32) :
    refineDigitChecked top second next digit rest = some (refineDigit top second next digit rest) := by
  induction digit generalizing rest with
  | zero =>
    have hsmall : ¬ (2 ^ 32 ≤ 0 ∨ rest * 2 ^ 32 + next < 0 * second) := by
      rw [zero_mul]
      omega
    rw [refineDigitChecked, tooLargeChecked_eq hsecond hrest, refineDigit]
    simp only [hsmall, decide_false, Option.bind_eq_bind, Option.bind_some, Bool.false_eq_true, if_false]
  | succ digit ih =>
    have hsum : rest + top < 2 ^ 64 := by omega
    rw [refineDigitChecked, tooLargeChecked_eq hsecond hrest, refineDigit]
    simp only [Option.bind_eq_bind, Option.bind_some, decide_eq_true_eq, checkU64_eq hsum]
    split_ifs with hlarge hmore
    · rfl
    · exact ih (not_le.1 hmore)
    · rfl

/-- the borrow stays between 0 and the base -/
theorem borrow_next {digit d s : ℕ} (hdigit : digit < 2 ^ 32) (hd : d < 2 ^ 32) (hs : s < 2 ^ 32) {borrow : ℤ}
    (hlo : 0 ≤ borrow) (hup : borrow ≤ 2 ^ 32) :
    0 ≤ ((digit * d / 2 ^ 32 : ℕ) : ℤ) - (s - borrow - (digit * d % 2 ^ 32 : ℕ)) / 2 ^ 32 ∧
      ((digit * d / 2 ^ 32 : ℕ) : ℤ) - (s - borrow - (digit * d % 2 ^ 32 : ℕ)) / 2 ^ 32 ≤ 2 ^ 32 := by
  have hproduct : digit * d ≤ (2 ^ 32 - 1) * (2 ^ 32 - 1) := Nat.mul_le_mul (by omega) (by omega)
  have hlow : digit * d % 2 ^ 32 < 2 ^ 32 := Nat.mod_lt _ (by norm_num)
  omega

theorem mulSubChecked_eq {digit : ℕ} (hdigit : digit < 2 ^ 32) (hd : Limbs divisor) (hw : Limbs window)
    (hlen : window.length = divisor.length) {borrow : ℤ} (hlo : 0 ≤ borrow) (hup : borrow ≤ 2 ^ 32) :
    mulSubChecked digit divisor window borrow = some (mulSub digit divisor window borrow) := by
  induction divisor generalizing window borrow with
  | nil =>
    rw [mulSubChecked, mulSub]
    rintro limb divisor scaled window ⟨⟩
  | cons d divisor ih =>
    cases window with
    | nil => cases hlen
    | cons s window =>
      obtain ⟨hd0, hd⟩ := Limbs.cons_iff.1 hd
      obtain ⟨hs0, hw⟩ := Limbs.cons_iff.1 hw
      have hproduct : digit * d ≤ (2 ^ 32 - 1) * (2 ^ 32 - 1) := Nat.mul_le_mul (by omega) (by omega)
      have hlow : digit * d % 2 ^ 32 < 2 ^ 32 := Nat.mod_lt _ (by norm_num)
      obtain ⟨hnext, hnext'⟩ := borrow_next hdigit hd0 hs0 hlo hup
      set difference : ℤ := s - borrow - (digit * d % 2 ^ 32 : ℕ) with hdiff
      rw [mulSubChecked, checkU64_eq (by omega)]
      simp only [Option.bind_eq_bind, Option.bind_some]
      rw [checkI64_eq (by omega) (by omega), Option.bind_some, ← hdiff, checkI64_eq (by omega) (by omega),
        Option.bind_some, checkI64_eq (by omega) (by omega), Option.bind_some,
        ih hd hw (Nat.succ.inj hlen) hnext hnext', Option.bind_some, mulSub]

theorem mulSub_borrow {digit : ℕ} (hdigit : digit < 2 ^ 32) (hd : Limbs divisor) (hw : Limbs window)
    (hlen : window.length = divisor.length) {borrow : ℤ} (hlo : 0 ≤ borrow) (hup : borrow ≤ 2 ^ 32) :
    0 ≤ (mulSub digit divisor window borrow).2 ∧ (mulSub digit divisor window borrow).2 ≤ 2 ^ 32 := by
  induction divisor generalizing window borrow with
  | nil =>
    rw [mulSub]
    · exact ⟨hlo, hup⟩
    · rintro limb divisor scaled window ⟨⟩
  | cons d divisor ih =>
    cases window with
    | nil => cases hlen
    | cons s window =>
      obtain ⟨hd0, hd⟩ := Limbs.cons_iff.1 hd
      obtain ⟨hs0, hw⟩ := Limbs.cons_iff.1 hw
      obtain ⟨hnext, hnext'⟩ := borrow_next hdigit hd0 hs0 hlo hup
      exact ih hd hw (Nat.succ.inj hlen) hnext hnext'

/-- nothing is borrowed for a digit that is zero -/
theorem mulSub_zero (hw : Limbs window) : mulSub 0 divisor window 0 = (window, 0) := by
  induction divisor generalizing window with
  | nil =>
    rw [mulSub]
    rintro limb divisor scaled window ⟨⟩
  | cons d divisor ih =>
    cases window with
    | nil => rfl
    | cons s window =>
      obtain ⟨hs, hw⟩ := Limbs.cons_iff.1 hw
      have hmod : (s : ℤ) % 2 ^ 32 = s := Int.emod_eq_of_lt (by omega) (by omega)
      have hdiv : (s : ℤ) / 2 ^ 32 = 0 := Int.ediv_eq_zero_of_lt (by omega) (by omega)
      rw [mulSub]
      simp only [zero_mul, Nat.zero_mod, Nat.zero_div, Nat.cast_zero, sub_zero, hmod, hdiv, ih hw, Int.toNat_natCast]

/-- the carry is at most one -/
theorem addBackChecked_eq (hd : Limbs divisor) (hw : Limbs window) (hlen : window.length = divisor.length) {carry : ℕ}
    (hcarry : carry ≤ 1) : addBackChecked divisor window carry = some (addBack divisor window carry) := by
  induction divisor generalizing window carry with
  | nil =>
    rw [addBackChecked, addBack]
    rintro limb divisor scaled window ⟨⟩
  | cons d divisor ih =>
    cases window with
    | nil => cases hlen
    | cons s window =>
      obtain ⟨hd0, hd⟩ := Limbs.cons_iff.1 hd
      obtain ⟨hs0, hw⟩ := Limbs.cons_iff.1 hw
      rw [addBackChecked, checkU64_eq (by omega)]
      simp only [Option.bind_eq_bind, Option.bind_some]
      rw [checkU64_eq (by omega), Option.bind_some, ih hd hw (Nat.succ.inj hlen) (by omega), Option.bind_some, addBack]

theorem getElem?_eq_getD {i : ℕ} (hi : i < l.length) : l[i]? = some (l.getD i 0) := by
  rw [List.getD_eq_getElem?_getD, List.getElem?_eq_getElem hi, Option.getD_some]

/-- **No check of one pass fails.** -/
theorem divStepChecked_eq (hd : Limbs divisor) (hn : 2 ≤ divisor.length)
    (hlarge : 2 ^ 31 * (2 ^ 32) ^ (divisor.length - 1) ≤ magnitude divisor) (ht : Limbs tail)
    (hlen : divisor.length + 1 ≤ tail.length) (hfits : magnitude tail < 2 ^ 32 * magnitude divisor) :
    divStepChecked divisor tail = some (divStep divisor tail) := by
  obtain ⟨-, -, hdigit⟩ := triedDigit_spec hd hn hlarge ht hlen hfits
  obtain ⟨htop, -⟩ := estimate_divisor hd hn hlarge
  have hwlen : (tail.take divisor.length).length = divisor.length := by
    rw [List.length_take]
    omega
  obtain ⟨hsub, hsublen, -⟩ := mulSub_spec (triedDigit divisor tail) hwlen 0
  have hborrow := mulSub_borrow hdigit hd (ht.take divisor.length) hwlen (le_refl 0) (by norm_num)
  have hhigh := ht.getD divisor.length
  have hshift : tail.getD divisor.length 0 * 2 ^ 32 < 2 ^ 64 := by omega
  have hrest : (tail.getD divisor.length 0 * 2 ^ 32 + tail.getD (divisor.length - 1) 0) %
      divisor.getD (divisor.length - 1) 0 < 2 ^ 32 := (Nat.mod_lt _ (by omega)).trans (hd.getD _)
  have hrefined : refineDigit (divisor.getD (divisor.length - 1) 0) (divisor.getD (divisor.length - 2) 0)
      (tail.getD (divisor.length - 2) 0)
      ((tail.getD divisor.length 0 * 2 ^ 32 + tail.getD (divisor.length - 1) 0) / divisor.getD (divisor.length - 1) 0)
      ((tail.getD divisor.length 0 * 2 ^ 32 + tail.getD (divisor.length - 1) 0) % divisor.getD (divisor.length - 1) 0) =
      triedDigit divisor tail := rfl
  unfold divStepChecked
  dsimp only
  rw [Option.bind_eq_bind, Option.bind_eq_bind, Option.bind_eq_bind, Option.bind_eq_bind, Option.bind_eq_bind]
  rw [checkSub_eq (by omega), Option.bind_some, checkSub_eq hn, Option.bind_some, getElem?_eq_getD (by omega),
    Option.bind_some, getElem?_eq_getD (by omega), Option.bind_some, getElem?_eq_getD (by omega), Option.bind_some,
    getElem?_eq_getD (by omega), Option.bind_some, getElem?_eq_getD (by omega), Option.bind_some, checkU64_eq hshift,
    Option.bind_some, checkDiv_eq (by omega), Option.bind_some, refineDigitChecked_eq (hd.getD _) (hd.getD _) hrest,
    Option.bind_some, hrefined, mulSubChecked_eq hdigit hd (ht.take _) hwlen (le_refl 0) (by norm_num),
    Option.bind_some, checkI64_eq (by omega) (by omega), Option.bind_some, divStep_eq]
  dsimp only
  split_ifs with hneg
  · have hpos : 1 ≤ triedDigit divisor tail := by
      by_contra hzero
      rw [Nat.lt_one_iff.1 (not_le.1 hzero), mulSub_zero (ht.take _), sub_zero] at hneg
      omega
    rw [checkSub_eq hpos, Option.bind_some, addBackChecked_eq hd hsub (hsublen.trans hwlen) (Nat.zero_le 1),
      Option.bind_some]
  · rfl

theorem divStepsChecked_eq (hd : Limbs divisor) (hn : 2 ≤ divisor.length)
    (hlarge : 2 ^ 31 * (2 ^ 32) ^ (divisor.length - 1) ≤ magnitude divisor) (j : ℕ) {scaled : List ℕ} (hs : Limbs scaled)
    (hlen : j + divisor.length ≤ scaled.length) (hlt : magnitude (scaled.drop j) < magnitude divisor)
    (quotient : List ℕ) : divStepsChecked divisor j scaled quotient = some (divSteps divisor j scaled quotient) := by
  induction j generalizing scaled quotient with
  | zero => rfl
  | succ j ih =>
    have hfits : magnitude (scaled.drop j) < 2 ^ 32 * magnitude divisor := by
      have := hs.getD j
      rw [magnitude_drop_getD]
      omega
    have htlen : divisor.length + 1 ≤ (scaled.drop j).length := by
      rw [List.length_drop]
      omega
    obtain ⟨-, hnext, hnextlen, hnextlt, -⟩ := divSteps_next hd hn hlarge hs hlen hlt
    rw [divStepsChecked, divStepChecked_eq hd hn hlarge (hs.drop j) htlen hfits, Option.bind_eq_bind, Option.bind_some,
      ih hnext (by rw [hnextlen]; omega) hnextlt, divSteps]

/-- each limb reads the one above it, so there is one limb more than are shifted -/
theorem shiftDownChecked_eq (hb : bits < 32) (hlen : n + 1 ≤ l.length) :
    shiftDownChecked bits n l = some ((shrLimbs bits (l.take (n + 1))).take n) := by
  induction n generalizing l with
  | zero => rw [shiftDownChecked, List.take_zero]
  | succ n ih =>
    rcases l with - | ⟨a, - | ⟨b, l⟩⟩
    · cases hlen
    · simp at hlen
    · have hbelow : shiftDownChecked bits n (b :: l) = some ((shrLimbs bits ((b :: l).take (n + 1))).take n) :=
        ih (Nat.le_of_succ_le_succ hlen)
      rw [shiftDownChecked, List.take_succ_cons, shrLimbs, List.take_succ_cons]
      split_ifs with hzero
      · rw [hbelow, Option.bind_eq_bind, Option.bind_some]
      · have hback : 32 - bits < 32 := by omega
        rw [checkShift_eq hb, Option.bind_eq_bind, Option.bind_some, List.head?_cons, Option.bind_eq_bind,
          Option.bind_some, checkSub_eq hb.le, Option.bind_some, checkShift_eq hback, Option.bind_some, hbelow,
          Option.bind_some]
        rfl

theorem divLongChecked_eq (hl : Limbs dividend) (hd : Limbs divisor) (htd : Trimmed divisor)
    (hn : 2 ≤ divisor.length) (hle : magnitude divisor ≤ magnitude dividend) :
    divLongChecked dividend divisor = some (divLong dividend divisor) := by
  obtain ⟨h32, hs1, hs2, hs3, hs4⟩ := scaledDivisor_spec hd htd hn rfl
  have hhigh := divLong_ready hl hd htd hn hle rfl
  have hlength := length_le_of_magnitude_le hl htd hle
  obtain ⟨hdl1, -, hdl3⟩ := shiftLeftLimbs_eq h32 hl (Nat.two_pow_pos _)
  unfold divLongChecked divLong
  dsimp only
  set shift := (divisor.getLast?.map leadingZeros).getD 0
  set scaledDivisor := (shiftLeftLimbs shift divisor 0).dropLast with hscaled
  have hn' : 2 ≤ scaledDivisor.length := by omega
  have hlarge : 2 ^ 31 * (2 ^ 32) ^ (scaledDivisor.length - 1) ≤ magnitude scaledDivisor := by rwa [hs2, hs3]
  have hroom : dividend.length - divisor.length + 1 + scaledDivisor.length ≤ (shiftLeftLimbs shift dividend 0).length := by
    omega
  obtain ⟨quotient, left, hsteps, -, -, -, hleft, -, -⟩ := divSteps_spec hs1 hn' hlarge _ hdl1 hroom hhigh []
  have hdown : scaledDivisor.length + 1 ≤ left.length := by omega
  rw [shiftLeftLimbsChecked_eq h32, Option.bind_eq_bind, Option.bind_some, shiftLeftLimbsChecked_eq h32,
    Option.bind_some, ← hscaled, hs2, checkSub_eq hlength, Option.bind_eq_bind, Option.bind_some,
    divStepsChecked_eq hs1 hn' hlarge _ hdl1 hroom hhigh, hsteps, Option.bind_eq_bind, Option.bind_some, ← hs2,
    shiftDownChecked_eq h32 hdown, Option.bind_some]

/-! ## The result -/

theorem trimmed_divmodMagnitude (ht : Trimmed dividend) (divisor : List ℕ) :
    Trimmed (divmodMagnitude dividend divisor).1 ∧ Trimmed (divmodMagnitude dividend divisor).2 := by
  unfold divmodMagnitude
  split_ifs with hless
  · exact ⟨trimmed_nil, ht⟩
  · split
    · rename_i limb
      refine ⟨trimmed_trim _, ?_⟩
      show Trimmed (if (divLimbs limb dividend).2 = 0 then [] else [(divLimbs limb dividend).2])
      split_ifs with hzero
      · exact trimmed_nil
      · exact fun hlast => hzero (Option.some.inj hlast)
    · exact ⟨trimmed_trim _, trimmed_trim _⟩

theorem divmodMagnitudeChecked_eq (hl : Limbs dividend) (htl : Trimmed dividend) (hd : Limbs divisor)
    (htd : Trimmed divisor) (hne : divisor ≠ []) :
    divmodMagnitudeChecked dividend divisor = some (divmodMagnitude dividend divisor) := by
  unfold divmodMagnitudeChecked divmodMagnitude
  rw [cmpMagnitude_eq hl hd htl htd]
  split_ifs with hcmp
  · rfl
  · have hle : magnitude divisor ≤ magnitude dividend := not_lt.1 fun h => hcmp (compare_lt_iff_lt.2 h)
    rcases divisor with - | ⟨limb, - | ⟨second, rest⟩⟩
    · exact absurd rfl hne
    · have hlimb := (Limbs.cons_iff.1 hd).1
      have hpos : 0 < limb := Nat.pos_of_ne_zero fun hzero => htd (congrArg some hzero)
      dsimp only
      rw [divLimbsChecked_eq hl hpos hlimb, Option.bind_eq_bind, Option.bind_some]
      rfl
    · exact divLongChecked_eq hl hd htd (by simp) hle

/-- **Division of magnitudes.** For proper magnitudes, the divisor with a limb that is not zero, no operation leaves its
type, underflows or reads outside its vector, and the result is quotient and remainder, again without zero limbs at the
high end. -/
theorem divmod_magnitude_ok (hl : Limbs dividend) (htl : Trimmed dividend) (hd : Limbs divisor) (htd : Trimmed divisor)
    (hne : ∃ limb ∈ divisor, limb ≠ 0) :
    ∃ quotient remainder, divmodMagnitudeChecked dividend divisor = some (quotient, remainder) ∧
      divmodMagnitude dividend divisor = (quotient, remainder) ∧
      Limbs quotient ∧ Limbs remainder ∧ Trimmed quotient ∧ Trimmed remainder ∧
      magnitude quotient * magnitude divisor + magnitude remainder = magnitude dividend ∧
      magnitude remainder < magnitude divisor := by
  obtain ⟨limb, hlimb, -⟩ := hne
  have hne : divisor ≠ [] := List.ne_nil_of_mem hlimb
  have hpos : 0 < magnitude divisor := Nat.pos_of_ne_zero fun he => hne ((magnitude_eq_zero htd).1 he)
  obtain ⟨hq, hr, hquotient, hremainder⟩ := divmodMagnitude_spec hl htl hd htd hne
  obtain ⟨htq, htr⟩ := trimmed_divmodMagnitude htl divisor
  refine ⟨(divmodMagnitude dividend divisor).1, (divmodMagnitude dividend divisor).2,
    divmodMagnitudeChecked_eq hl htl hd htd hne, rfl, hq, hr, htq, htr, ?_, ?_⟩
  · rw [hquotient, hremainder, mul_comm, Nat.div_add_mod]
  · rw [hremainder]
    exact Nat.mod_lt _ hpos

/-- operands whose first digit is tried one too large, so that the divisor is added back -/
theorem divmod_magnitude_ok_addBack :
    ∃ quotient remainder, divmodMagnitudeChecked [3, 0, 0x80000000] [1, 0, 0x20000000] = some (quotient, remainder) ∧
      magnitude quotient * magnitude [1, 0, 0x20000000] + magnitude remainder = magnitude [3, 0, 0x80000000] := by
  have hdividend : Limbs [3, 0, 0x80000000] := by
    intro limb hlimb
    simp only [List.mem_cons, List.not_mem_nil, or_false] at hlimb
    omega
  have hdivisor : Limbs [1, 0, 0x20000000] := by
    intro limb hlimb
    simp only [List.mem_cons, List.not_mem_nil, or_false] at hlimb
    omega
  obtain ⟨quotient, remainder, hchecked, -, -, -, -, -, hvalue, -⟩ := divmod_magnitude_ok hdividend (by simp [Trimmed])
    hdivisor (by simp [Trimmed]) ⟨1, by decide, by decide⟩
  exact ⟨quotient, remainder, hchecked, hvalue⟩

end Render.Js
