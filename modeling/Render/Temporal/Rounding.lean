/-
Rounding of Temporal quantities (`render-js/src/runtime/builtins/temporal/rounding.rs`).

A quantity is cut into the multiple of the increment below it and a remainder. The mode decides whether the multiple
above it is taken instead, and nothing else: what is rounded is `value - remainder`, or that and one increment
(`roundInteger_eq`). `since` rounds the mirror image of `until`, so the negated mode has to take the other multiple of the
mirrored quantity (`roundsUp_mirror`).

The numbers are 128 bits wide, and `roundToIncrement` gives nothing where one on the way is wider. `roundInteger` is the
same on integers of every width; the two agree on every quantity a caller has (`roundToIncrement_fits`).
-/
import Mathlib.Tactic

namespace Render.Temporal

inductive RoundingMode
  | ceil
  | floor
  | expand
  | trunc
  | halfCeil
  | halfFloor
  | halfExpand
  | halfTrunc
  | halfEven
  deriving DecidableEq

def RoundingMode.negated : RoundingMode → RoundingMode
  | .ceil => .floor
  | .floor => .ceil
  | .halfCeil => .halfFloor
  | .halfFloor => .halfCeil
  | other => other

/-- a tie: whether the mode takes the multiple above -/
def tieUp (quotient : ℤ) (positive : Bool) : RoundingMode → Bool
  | .halfCeil => true
  | .halfFloor => false
  | .halfExpand => positive
  | .halfTrunc => !positive
  | _ => quotient % 2 = 1

/-- whether the mode takes the multiple above -/
def roundsUp (quotient remainder increment : ℤ) (positive : Bool) : RoundingMode → Bool
  | .ceil => true
  | .floor => false
  | .expand => positive
  | .trunc => !positive
  | mode =>
    let twice := remainder * 2
    if twice < increment then false
    else if increment < twice then true
    else tieUp quotient positive mode

def RoundingMode.isHalf : RoundingMode → Bool
  | .ceil | .floor | .expand | .trunc => false
  | _ => true

/-- a number of 128 bits -/
def checked (number : ℤ) : Option ℤ :=
  if -2 ^ 127 ≤ number ∧ number < 2 ^ 127 then some number else none

theorem checked_some {number : ℤ} (h : |number| < 2 ^ 127) : checked number = some number := by
  rw [abs_lt] at h
  exact if_pos ⟨h.1.le, h.2⟩

/-- `round_to_increment` -/
def roundToIncrement (value increment : ℤ) (mode : RoundingMode) : Option ℤ := do
  let quotient := value / increment
  let remainder := value % increment
  if remainder = 0 then return value
  if mode.isHalf then
    let _ ← checked (remainder * 2)
  let multiple ← checked (quotient + if roundsUp quotient remainder increment (0 < value) mode then 1 else 0)
  checked (multiple * increment)

/-- `round_to_increment` without a width -/
def roundInteger (value increment : ℤ) (mode : RoundingMode) : ℤ :=
  let quotient := value / increment
  let remainder := value % increment
  if remainder = 0 then value
  else (quotient + if roundsUp quotient remainder increment (0 < value) mode then 1 else 0) * increment

/-! ## What a mode asks for -/

/-- the direction a mode names; the half modes name one for ties only -/
def Directed (value increment result : ℤ) : RoundingMode → Prop
  | .ceil => value ≤ result
  | .floor => result ≤ value
  | .expand => |value| ≤ |result|
  | .trunc => |result| ≤ |value|
  | .halfCeil => 2 * |result - value| = increment → value < result
  | .halfFloor => 2 * |result - value| = increment → result < value
  | .halfExpand => 2 * |result - value| = increment → |value| < |result|
  | .halfTrunc => 2 * |result - value| = increment → |result| < |value|
  | .halfEven => 2 * |result - value| = increment → 2 * increment ∣ result

/-- the result is the value, rounded to a multiple of the increment -/
structure Rounded (value increment : ℤ) (mode : RoundingMode) (result : ℤ) : Prop where
  multiple : increment ∣ result
  near : |result - value| < increment
  half : mode.isHalf → 2 * |result - value| ≤ increment
  kept : increment ∣ value → result = value
  directed : Directed value increment result mode

theorem roundInteger_eq {value increment : ℤ} (mode : RoundingMode) (hvalue : value % increment ≠ 0) :
    roundInteger value increment mode = value - value % increment +
      if roundsUp (value / increment) (value % increment) increment (0 < value) mode then increment else 0 := by
  have hparts := Int.emod_add_mul_ediv value increment
  rw [roundInteger, if_neg hvalue]
  split_ifs
  · linarith
  · linarith

theorem roundInteger_multiple {value increment : ℤ} (mode : RoundingMode) (hvalue : value % increment = 0) :
    roundInteger value increment mode = value := if_pos hvalue

section Rounding

variable {increment : ℤ} (hincrement : 0 < increment) (mode : RoundingMode)

include hincrement

theorem remainder_range (value : ℤ) : 0 ≤ value % increment ∧ value % increment < increment :=
  ⟨Int.emod_nonneg _ hincrement.ne', Int.emod_lt_of_pos _ hincrement⟩

/-- the multiples on both sides of a value stay on its side of zero -/
theorem remainder_side (value : ℤ) :
    (0 < value → 0 ≤ value - value % increment) ∧
      (value % increment ≠ 0 → value ≤ 0 → value - value % increment + increment ≤ 0) := by
  have hparts := Int.emod_add_mul_ediv value increment
  obtain ⟨hlow, hhigh⟩ := remainder_range hincrement value
  constructor
  · intro hpositive
    have hquotient : 0 ≤ value / increment := Int.ediv_nonneg hpositive.le hincrement.le
    have := mul_nonneg hincrement.le hquotient
    omega
  · intro hvalue hnegative
    have hquotient : value / increment ≤ -1 := by
      by_contra hlarge
      have := mul_nonneg hincrement.le (show 0 ≤ value / increment by omega)
      omega
    have := mul_le_mul_of_nonneg_left hquotient hincrement.le
    omega

omit hincrement in
/-- a tie goes to the even multiple -/
theorem tie_even (value increment : ℤ) :
    (value / increment % 2 = 1 → 2 * increment ∣ value - value % increment + increment) ∧
      (¬value / increment % 2 = 1 → 2 * increment ∣ value - value % increment) := by
  have hparts := Int.emod_add_mul_ediv value increment
  constructor
  · intro hodd
    obtain ⟨half, hhalf⟩ : ∃ half, value / increment + 1 = 2 * half := ⟨(value / increment + 1) / 2, by omega⟩
    exact ⟨half, by linear_combination increment * hhalf - hparts⟩
  · intro heven
    obtain ⟨half, hhalf⟩ : ∃ half, value / increment = 2 * half := ⟨value / increment / 2, by omega⟩
    exact ⟨half, by linear_combination increment * hhalf - hparts⟩

theorem roundInteger_rounded (value : ℤ) :
    Rounded value increment mode (roundInteger value increment mode) := by
  obtain ⟨hlow, hhigh⟩ := remainder_range hincrement value
  obtain ⟨hpositive, hnegative⟩ := remainder_side hincrement value
  obtain ⟨hodd, heven⟩ := tie_even value increment
  have hbelow : increment ∣ value - value % increment := Int.dvd_self_sub_emod
  by_cases hvalue : value % increment = 0
  · rw [roundInteger_multiple mode hvalue]
    refine ⟨Int.dvd_of_emod_eq_zero hvalue, ?_, ?_, fun _ => rfl, ?_⟩
    · simpa using hincrement
    · simpa using fun _ => hincrement.le
    · cases mode <;> simp [Directed, hincrement.ne]
  · rw [roundInteger_eq mode hvalue]
    have hnot : ¬increment ∣ value := fun hdvd => hvalue (Int.emod_eq_zero_of_dvd hdvd)
    generalize value % increment = remainder at *
    refine ⟨?_, ?_, ?_, fun hdvd => absurd hdvd hnot, ?_⟩
    · split_ifs
      · exact dvd_add hbelow (dvd_refl _)
      · simpa using hbelow
    · rw [abs_lt]
      split_ifs <;> omega
    · cases mode <;> simp only [RoundingMode.isHalf, roundsUp, tieUp, Int.abs_eq_natAbs] <;> grind
    · cases mode <;> simp only [Directed, roundsUp, tieUp, Int.abs_eq_natAbs] <;> grind

/-- a value is rounded to the multiple below it or to the one above -/
theorem roundInteger_between (value : ℤ) :
    value / increment * increment ≤ roundInteger value increment mode ∧
      roundInteger value increment mode ≤ (value / increment + 1) * increment := by
  have hparts := Int.emod_add_mul_ediv value increment
  obtain ⟨hlow, hhigh⟩ := remainder_range hincrement value
  by_cases hvalue : value % increment = 0
  · rw [roundInteger_multiple mode hvalue]
    constructor <;> linarith
  · rw [roundInteger_eq mode hvalue]
    constructor <;> split_ifs <;> linarith

omit hincrement in
/-- between the same two multiples a larger remainder is rounded up if a smaller one is -/
theorem roundsUp_mono (quotient : ℤ) {remainder larger : ℤ} (positive : Bool) (hle : remainder ≤ larger)
    (h : roundsUp quotient remainder increment positive mode) : roundsUp quotient larger increment positive mode := by
  cases mode <;> simp only [roundsUp, tieUp] at h ⊢ <;> grind

theorem roundInteger_mono {value other : ℤ} (hle : value ≤ other) :
    roundInteger value increment mode ≤ roundInteger other increment mode := by
  obtain ⟨hbelow, habove⟩ := roundInteger_between hincrement mode value
  obtain ⟨hbelowOther, -⟩ := roundInteger_between hincrement mode other
  rcases (Int.ediv_le_ediv hincrement hle).lt_or_eq with hquotient | hquotient
  · have hnext := mul_le_mul_of_nonneg_right (show value / increment + 1 ≤ other / increment by omega) hincrement.le
    exact habove.trans (hnext.trans hbelowOther)
  · have hparts := Int.emod_add_mul_ediv value increment
    have hpartsOther := Int.emod_add_mul_ediv other increment
    rw [← hquotient] at hpartsOther hbelowOther
    obtain ⟨hlow, hhigh⟩ := remainder_range hincrement value
    by_cases hvalue : value % increment = 0
    · rw [roundInteger_multiple mode hvalue]
      linarith
    · have hother : other % increment ≠ 0 := by
        have hstart := remainder_range hincrement value
        omega
      obtain ⟨hpositive, hnegative⟩ := remainder_side hincrement value
      obtain ⟨hpositiveOther, hnegativeOther⟩ := remainder_side hincrement other
      have hside : decide (0 < value) = decide (0 < other) := by
        rw [decide_eq_decide]
        have := hnegative hvalue
        have := hnegativeOther hother
        omega
      rw [roundInteger_eq mode hvalue, roundInteger_eq mode hother, ← hquotient, ← hside]
      have hmore := @roundsUp_mono increment mode (value / increment) _ _ (decide (0 < value))
        (show value % increment ≤ other % increment by omega)
      split_ifs <;> grind

omit hincrement in
/-- the negated mode takes the other multiple of the mirrored value -/
theorem roundsUp_mirror {quotient remainder : ℤ} (positive : Bool) :
    roundsUp (-quotient - 1) (increment - remainder) increment (!positive) mode.negated =
      !roundsUp quotient remainder increment positive mode := by
  cases mode <;> simp only [RoundingMode.negated, roundsUp, tieUp] <;> grind

theorem roundInteger_mirror (value : ℤ) :
    roundInteger (-value) increment mode.negated = -roundInteger value increment mode := by
  by_cases hvalue : value % increment = 0
  · have hdvd := Int.dvd_of_emod_eq_zero hvalue
    rw [roundInteger_multiple mode hvalue,
      roundInteger_multiple _ (Int.emod_eq_zero_of_dvd ((dvd_neg).mpr hdvd))]
  · have hparts := Int.emod_add_mul_ediv value increment
    obtain ⟨hlow, hhigh⟩ := remainder_range hincrement value
    -- the multiples around the mirrored value are the mirrored multiples
    have hquotient : -value / increment = -(value / increment) - 1 ∧ -value % increment = increment - value % increment := by
      rw [Int.ediv_emod_unique hincrement]
      exact ⟨by linarith, by omega, by omega⟩
    have hside : decide (0 < -value) = !decide (0 < value) := by
      have : value ≠ 0 := by
        rintro rfl
        exact hvalue (Int.zero_emod _)
      grind
    have hmirror : -value % increment ≠ 0 := by omega
    rw [roundInteger_eq _ hmirror, roundInteger_eq _ hvalue, hquotient.1, hquotient.2, hside, roundsUp_mirror]
    cases roundsUp (value / increment) (value % increment) increment (0 < value) mode <;> simp <;> ring

omit hincrement in
/-- what is rounded in 128 bits is what is rounded without a width -/
theorem roundToIncrement_some {value result : ℤ} (h : roundToIncrement value increment mode = some result) :
    result = roundInteger value increment mode := by
  by_cases hvalue : value % increment = 0
  · simpa [roundToIncrement, roundInteger, hvalue] using h.symm
  · simp only [roundToIncrement, checked, if_neg hvalue] at h
    rw [roundInteger, if_neg hvalue]
    grind

/-- no number on the way is wider than 128 bits -/
theorem roundToIncrement_fits {value : ℤ} (hvalue : |value| ≤ 2 ^ 125) (hlarge : increment ≤ 2 ^ 125) :
    roundToIncrement value increment mode = some (roundInteger value increment mode) := by
  obtain ⟨hlow, hhigh⟩ := remainder_range hincrement value
  obtain ⟨hbelow, habove⟩ := roundInteger_between hincrement mode value
  have hparts := Int.emod_add_mul_ediv value increment
  have hquotient : |value / increment| ≤ |value| := by
    rw [Int.abs_eq_natAbs, Int.abs_eq_natAbs]
    exact_mod_cast Int.natAbs_ediv_le_natAbs value increment
  obtain ⟨hleast, hmost⟩ := abs_le.mp hvalue
  obtain ⟨hquotientLow, hquotientHigh⟩ := abs_le.mp (hquotient.trans hvalue)
  by_cases hmultiple : value % increment = 0
  · simp [roundToIncrement, roundInteger, hmultiple]
  · rw [roundInteger, if_neg hmultiple] at hbelow habove ⊢
    simp only [roundToIncrement, if_neg hmultiple]
    generalize hstep : (if roundsUp _ _ _ _ mode then (1 : ℤ) else 0) = step at hbelow habove ⊢
    have hone : 0 ≤ step ∧ step ≤ 1 := by
      rw [← hstep]
      split_ifs <;> simp
    rw [checked_some (show |value % increment * 2| < 2 ^ 127 by rw [abs_lt]; omega),
      checked_some (show |value / increment + step| < 2 ^ 127 by rw [abs_lt]; omega)]
    simp only [Option.bind_eq_bind, Option.bind_some, ite_self]
    exact checked_some (abs_lt.mpr ⟨by linarith, by linarith⟩)

end Rounding

theorem roundToIncrement_rounds {increment : ℤ} (hincrement : 0 < increment) (mode : RoundingMode) :
    (∀ value result, roundToIncrement value increment mode = some result → Rounded value increment mode result) ∧
      (∀ value other result otherResult, value ≤ other → roundToIncrement value increment mode = some result →
        roundToIncrement other increment mode = some otherResult → result ≤ otherResult) ∧
      (∀ value result mirrored, roundToIncrement value increment mode = some result →
        roundToIncrement (-value) increment mode.negated = some mirrored → mirrored = -result) ∧
      ∀ value, |value| ≤ 2 ^ 125 → increment ≤ 2 ^ 125 →
        ∃ result, roundToIncrement value increment mode = some result := by
  refine ⟨?_, ?_, ?_, fun value hvalue hlarge => ⟨_, roundToIncrement_fits hincrement mode hvalue hlarge⟩⟩
  · intro value result hresult
    obtain rfl := roundToIncrement_some mode hresult
    exact roundInteger_rounded hincrement mode value
  · intro value other result otherResult hle hresult hother
    obtain rfl := roundToIncrement_some mode hresult
    obtain rfl := roundToIncrement_some mode hother
    exact roundInteger_mono hincrement mode hle
  · intro value result mirrored hresult hmirrored
    obtain rfl := roundToIncrement_some mode hresult
    obtain rfl := roundToIncrement_some _ hmirrored
    exact roundInteger_mirror hincrement mode value

/-- a tie between 20 and 30 goes to 20 -/
theorem roundToIncrement_rounds_even : Rounded 25 10 .halfEven 20 :=
  (roundToIncrement_rounds (by decide) .halfEven).1 25 20 (by decide)

/-- the multiple above the largest number is wider than 128 bits -/
theorem roundToIncrement_wide : roundToIncrement (2 ^ 127 - 1) 10 .ceil = none := by
  decide

end Render.Temporal
