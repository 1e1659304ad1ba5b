/-
Integers: their bits in two's complement, and the quotient digit of long division. Nothing here is about this repository.

- `int_eq_of_testBit`: an integer is determined by its bits.
- `testBit_sub_two_pow`: a number read as negative, by taking 2^n off, has ones above.
- `land_two_pow_sub_one`: masking the low bits is the remainder.
-/
import Mathlib.Data.Int.Bitwise
import Mathlib.Tactic

namespace Render.Core

/-- far up two numbers have zeros -/
theorem exists_testBit_false (m n : ℕ) : ∃ k, m.testBit k = false ∧ n.testBit k = false := by
  refine ⟨max m.size n.size, Nat.testBit_lt_two_pow ?_, Nat.testBit_lt_two_pow ?_⟩
  · exact m.lt_size_self.trans_le (Nat.pow_le_pow_right (by norm_num) (le_max_left _ _))
  · exact n.lt_size_self.trans_le (Nat.pow_le_pow_right (by norm_num) (le_max_right _ _))

theorem int_eq_of_testBit {m n : ℤ} (h : ∀ k, m.testBit k = n.testBit k) : m = n := by
  cases m with
  | ofNat m =>
    cases n with
    | ofNat n => exact congrArg _ (Nat.eq_of_testBit_eq h)
    | negSucc n =>
      obtain ⟨k, hm, hn⟩ := exists_testBit_false m n
      have hk := h k
      simp [Int.testBit, hm, hn] at hk
  | negSucc m =>
    cases n with
    | ofNat n =>
      obtain ⟨k, hm, hn⟩ := exists_testBit_false m n
      have hk := h k
      simp [Int.testBit, hm, hn] at hk
    | negSucc n =>
      refine congrArg _ (Nat.eq_of_testBit_eq fun k => ?_)
      have hk := h k
      simpa [Int.testBit] using hk

theorem testBit_sub_two_pow {m n : ℕ} (hm : m < 2 ^ n) (k : ℕ) :
    ((m : ℤ) - 2 ^ n).testBit k = (decide (n ≤ k) || m.testBit k) := by
  have he : (m : ℤ) - 2 ^ n = Int.negSucc (2 ^ n - (m + 1)) := by
    rw [Int.negSucc_eq]
    push_cast [show m + 1 ≤ 2 ^ n from hm]
    ring
  rw [he]
  show (!(2 ^ n - (m + 1)).testBit k) = _
  rw [Nat.testBit_two_pow_sub_succ hm]
  by_cases hk : k < n
  · simp [hk, Nat.not_le.2 hk]
  · simp [hk, Nat.le_of_not_lt hk]

theorem land_two_pow_sub_one (z : ℤ) (n : ℕ) : z.land (2 ^ n - 1) = z % 2 ^ n := by
  have hmask : (2 ^ n - 1 : ℤ) = ((2 ^ n - 1 : ℕ) : ℤ) := by
    push_cast [Nat.one_le_two_pow]
    ring
  rw [hmask]
  cases z with
  | ofNat m =>
    show ((m &&& (2 ^ n - 1) : ℕ) : ℤ) = _
    rw [Nat.and_two_pow_sub_one_eq_mod]
    push_cast
    rfl
  | negSucc m =>
    show ((Nat.ldiff (2 ^ n - 1) m : ℕ) : ℤ) = _
    have hlt : m % 2 ^ n < 2 ^ n := Nat.mod_lt _ (Nat.two_pow_pos n)
    have hnat : Nat.ldiff (2 ^ n - 1) m = 2 ^ n - (m % 2 ^ n + 1) := by
      refine Nat.eq_of_testBit_eq fun k => ?_
      rw [Nat.testBit_ldiff, Nat.testBit_two_pow_sub_succ hlt, Nat.testBit_mod_two_pow, Nat.testBit_two_pow_sub_one]
      by_cases hk : k < n <;> simp [hk]
    rw [hnat, Int.negSucc_emod m (by positivity)]
    push_cast [show m % 2 ^ n + 1 ≤ 2 ^ n from hlt]
    ring

end Render.Core

/-! The quotient digit of long division, estimated from the leading digits.

A divisor V with the leading digits v1, v2 divides a number U with the leading digits u0, u1, u2 to the base b, where p is
the weight of v2 and u2, and U < b * V. An estimate `digit` is kept together with what is left of u0 u1 after it:
`digit * v1 + rest = u0 * b + u1`.

- `Estimate.quotient_le`: the estimate from v1 alone is not too small.
- `Estimate.lt_of_tooLarge`: where it does not fit the base or the second digit, it is too large.
- `Estimate.le_succ`, `Estimate.le_quotient`: otherwise it is at most one too large, and not too large where the rest is
  a digit more. -/

namespace Render.Core

/-- the leading digits of a division -/
structure Estimate (b p V U v1 v2 u0 u1 u2 : ℕ) : Prop where
  v1_pos : 0 < v1
  divisor_ge : (v1 * b + v2) * p ≤ V
  divisor_lt : V < (v1 * b + v2 + 1) * p
  number_ge : ((u0 * b + u1) * b + u2) * p ≤ U
  number_lt : U < ((u0 * b + u1) * b + u2 + 1) * p
  second_lt : v2 < b
  next_lt : u2 < b
  fits : U < b * V

namespace Estimate

variable {b p V U v1 v2 u0 u1 u2 digit rest : ℕ}

theorem weight_pos (h : Estimate b p V U v1 v2 u0 u1 u2) : 0 < p := by
  rcases Nat.eq_zero_or_pos p with he | hp
  · have := h.divisor_lt
    rw [he, mul_zero] at this
    omega
  · exact hp

theorem divisor_pos (h : Estimate b p V U v1 v2 u0 u1 u2) : 0 < V := by
  rcases Nat.eq_zero_or_pos V with he | hV
  · have := h.fits
    rw [he, mul_zero] at this
    omega
  · exact hV

/-- the divisor without its lower digits -/
theorem top_le (h : Estimate b p V U v1 v2 u0 u1 u2) : v1 * (b * p) ≤ V :=
  calc v1 * (b * p) = v1 * b * p := by ring
    _ ≤ (v1 * b + v2) * p := Nat.mul_le_mul_right p (Nat.le_add_right _ _)
    _ ≤ V := h.divisor_ge

theorem quotient_lt (h : Estimate b p V U v1 v2 u0 u1 u2) : U / V < b :=
  Nat.div_lt_of_lt_mul (by rw [mul_comm]; exact h.fits)

/-- the first digit of the number is at most that of the divisor -/
theorem first_le (h : Estimate b p V U v1 v2 u0 u1 u2) : u0 ≤ v1 := by
  by_contra hlt
  refine absurd h.fits (not_lt.2 ?_)
  calc b * V ≤ b * ((v1 * b + v2 + 1) * p) := Nat.mul_le_mul_left _ h.divisor_lt.le
    _ ≤ b * ((v1 * b + b) * p) := Nat.mul_le_mul_left _ (Nat.mul_le_mul_right p (by have := h.second_lt; omega))
    _ = (v1 + 1) * (b * b * p) := by ring
    _ ≤ u0 * (b * b * p) := Nat.mul_le_mul_right _ (not_le.1 hlt)
    _ = (u0 * b * b) * p := by ring
    _ ≤ ((u0 * b + u1) * b + u2) * p := by
      refine Nat.mul_le_mul_right p (le_trans ?_ (Nat.le_add_right _ _))
      exact Nat.mul_le_mul_right b (Nat.le_add_right _ _)
    _ ≤ U := h.number_ge

/-- the estimate from the first digit is not too small -/
theorem quotient_le (h : Estimate b p V U v1 v2 u0 u1 u2) : U / V ≤ (u0 * b + u1) / v1 := by
  have hb : 0 < b * p := Nat.mul_pos (Nat.lt_of_le_of_lt (Nat.zero_le _) h.second_lt) h.weight_pos
  refine (Nat.le_div_iff_mul_le h.v1_pos).2 (Nat.lt_succ_iff.1 ?_)
  refine Nat.lt_of_mul_lt_mul_right (a := b * p) ?_
  calc U / V * v1 * (b * p) = U / V * (v1 * (b * p)) := mul_assoc ..
    _ ≤ U / V * V := Nat.mul_le_mul_left _ h.top_le
    _ ≤ U := Nat.div_mul_le_self U V
    _ < ((u0 * b + u1) * b + u2 + 1) * p := h.number_lt
    _ ≤ ((u0 * b + u1) * b + b) * p := Nat.mul_le_mul_right p (by have := h.next_lt; omega)
    _ = (u0 * b + u1).succ * (b * p) := by rw [Nat.succ_eq_add_one]; ring

/-- an estimate that does not fit the base, or the second digit, is too large -/
theorem lt_of_tooLarge (h : Estimate b p V U v1 v2 u0 u1 u2) (hrest : digit * v1 + rest = u0 * b + u1)
    (hlarge : b ≤ digit ∨ rest * b + u2 < digit * v2) : U / V < digit := by
  rcases hlarge with hb | hsecond
  · exact h.quotient_lt.trans_le hb
  · refine Nat.div_lt_of_lt_mul ?_
    calc U < ((u0 * b + u1) * b + u2 + 1) * p := h.number_lt
      _ = (digit * v1 * b + (rest * b + u2 + 1)) * p := by rw [← hrest]; ring
      _ ≤ (digit * v1 * b + digit * v2) * p := Nat.mul_le_mul_right p (by omega)
      _ = digit * ((v1 * b + v2) * p) := by ring
      _ ≤ digit * V := Nat.mul_le_mul_left _ h.divisor_ge
      _ = V * digit := mul_comm ..

/-- an estimate that fits the base and the second digit is at most one too large -/
theorem le_succ (h : Estimate b p V U v1 v2 u0 u1 u2) (hrest : digit * v1 + rest = u0 * b + u1)
    (hb : digit < b) (hsecond : digit * v2 ≤ rest * b + u2) : digit ≤ U / V + 1 := by
  rcases Nat.eq_zero_or_pos digit with he | hpos
  · exact he ▸ Nat.zero_le _
  · have hle : (digit - 1) * V ≤ U := by
      have hlt : digit * V < U + V := by
        calc digit * V < digit * ((v1 * b + v2 + 1) * p) := Nat.mul_lt_mul_of_pos_left h.divisor_lt hpos
          _ = (digit * v1 * b + digit * v2) * p + digit * p := by ring
          _ ≤ (digit * v1 * b + (rest * b + u2)) * p + b * p :=
            Nat.add_le_add (Nat.mul_le_mul_right p (by omega)) (Nat.mul_le_mul_right p hb.le)
          _ = ((digit * v1 + rest) * b + u2) * p + b * p := by ring
          _ = ((u0 * b + u1) * b + u2) * p + 1 * (b * p) := by rw [hrest, one_mul]
          _ ≤ U + V := Nat.add_le_add h.number_ge ((Nat.mul_le_mul_right _ h.v1_pos).trans h.top_le)
      have hsplit : digit * V = (digit - 1) * V + V := by
        rw [Nat.sub_mul, one_mul, Nat.sub_add_cancel (Nat.le_mul_of_pos_left V hpos)]
      omega
    exact Nat.le_add_of_sub_le ((Nat.le_div_iff_mul_le h.divisor_pos).2 hle)

/-- an estimate that leaves a digit more is not too large -/
theorem le_quotient (h : Estimate b p V U v1 v2 u0 u1 u2) (hrest : digit * v1 + rest = u0 * b + u1)
    (hb : digit ≤ b) (hlarge : b ≤ rest) : digit ≤ U / V := by
  refine (Nat.le_div_iff_mul_le h.divisor_pos).2 ?_
  calc digit * V ≤ digit * ((v1 * b + v2 + 1) * p) := Nat.mul_le_mul_left _ h.divisor_lt.le
    _ ≤ digit * ((v1 * b + b) * p) :=
      Nat.mul_le_mul_left _ (Nat.mul_le_mul_right p (by have := h.second_lt; omega))
    _ = (digit * v1 + digit) * (b * p) := by ring
    _ ≤ (digit * v1 + rest) * (b * p) := Nat.mul_le_mul_right _ (by omega)
    _ = (u0 * b + u1) * b * p := by rw [hrest]; ring
    _ ≤ ((u0 * b + u1) * b + u2) * p := Nat.mul_le_mul_right p (Nat.le_add_right _ _)
    _ ≤ U := h.number_ge

end Estimate

end Render.Core

/-! Numbers as octets and as bits, most significant first. Nothing here is about this repository.

`toBe width n` are the `width` low octets of n, `ofBe` reads a number back: `ofBe_toBe`. `bitsOf width n` are the `width`
low bits of n; shifting a number left and adding one below puts their bits behind each other (`bitsOf_append`). -/

namespace Render.Core

/-- a string of octets -/
abbrev Octets := List UInt8

/-! ## Octets -/

/-- the `width` low octets of a number, most significant first -/
def toBe : ℕ → ℕ → Octets
  | 0, _ => []
  | width + 1, n => toBe width (n / 256) ++ [UInt8.ofNat (n % 256)]

/-- the number that a string of octets spells, most significant first -/
def ofBe (octets : Octets) : ℕ := octets.foldl (fun n octet => n * 256 + octet.toNat) 0

@[simp] theorem length_toBe (width n : ℕ) : (toBe width n).length = width := by
  induction width generalizing n with
  | zero => rfl
  | succ width ih => simp [toBe, ih]

@[simp] theorem ofBe_nil : ofBe [] = 0 := rfl

@[simp] theorem ofBe_concat (octets : Octets) (octet : UInt8) :
    ofBe (octets ++ [octet]) = ofBe octets * 256 + octet.toNat := by
  simp [ofBe]

theorem ofBe_toBe (width n : ℕ) : ofBe (toBe width n) = n % 256 ^ width := by
  induction width generalizing n with
  | zero => simp [toBe, Nat.mod_one]
  | succ width ih =>
    have hlast : n % 256 ^ (width + 1) = 256 * (n / 256 % 256 ^ width) + n % 256 := by
      rw [pow_succ', Nat.mod_mul, add_comm]
    rw [toBe, ofBe_concat, ih, hlast, UInt8.toNat_ofNat', Nat.mod_eq_of_lt (show n % 256 < 2 ^ 8 by omega)]
    ring

theorem ofBe_toBe_of_lt {width n : ℕ} (h : n < 256 ^ width) : ofBe (toBe width n) = n := by
  rw [ofBe_toBe, Nat.mod_eq_of_lt h]

theorem ofBe_lt (octets : Octets) : ofBe octets < 256 ^ octets.length := by
  induction octets using List.reverseRecOn with
  | nil => simp
  | append_singleton octets octet ih =>
    have := octet.toNat_lt
    rw [ofBe_concat, List.length_append, List.length_singleton, pow_succ]
    omega

/-! ## Bits -/

/-- the `width` low bits of a number, most significant first -/
def bitsOf : ℕ → ℕ → List Bool
  | 0, _ => []
  | width + 1, n => n.testBit width :: bitsOf width n

@[simp] theorem length_bitsOf (width n : ℕ) : (bitsOf width n).length = width := by
  induction width with
  | zero => rfl
  | succ width ih => simp [bitsOf, ih]

theorem bitsOf_congr {width m n : ℕ} (h : ∀ i < width, m.testBit i = n.testBit i) : bitsOf width m = bitsOf width n := by
  induction width with
  | zero => rfl
  | succ width ih =>
    rw [bitsOf, bitsOf, h width (Nat.lt_succ_self _), ih fun i hi => h i (Nat.lt_succ_of_lt hi)]

theorem testBit_of_bitsOf {width m n : ℕ} (h : bitsOf width m = bitsOf width n) : ∀ i < width, m.testBit i = n.testBit i := by
  induction width with
  | zero =>
    intro i hi
    omega
  | succ width ih =>
    intro i hi
    rw [bitsOf, bitsOf, List.cons.injEq] at h
    rcases Nat.lt_succ_iff_lt_or_eq.1 hi with hlt | rfl
    · exact ih h.2 i hlt
    · exact h.1

theorem bitsOf_injective {width m n : ℕ} (hm : m < 2 ^ width) (hn : n < 2 ^ width) (h : bitsOf width m = bitsOf width n) :
    m = n := by
  apply Nat.eq_of_testBit_eq
  intro i
  by_cases hi : i < width
  · exact testBit_of_bitsOf h i hi
  · have hpow : 2 ^ width ≤ 2 ^ i := Nat.pow_le_pow_right (by decide) (Nat.le_of_not_lt hi)
    rw [Nat.testBit_lt_two_pow (hm.trans_le hpow), Nat.testBit_lt_two_pow (hn.trans_le hpow)]

theorem bitsOf_add (high low n : ℕ) : bitsOf (high + low) n = bitsOf high (n >>> low) ++ bitsOf low n := by
  induction high with
  | zero => simp [bitsOf]
  | succ high ih =>
    rw [Nat.succ_add, bitsOf, ih, bitsOf, Nat.testBit_shiftRight, Nat.add_comm low high, List.cons_append]

/-- the bits of a number shifted left over another one are the bits of the two behind each other -/
theorem bitsOf_append {low n : ℕ} (high m : ℕ) (hn : n < 2 ^ low) :
    bitsOf (high + low) (m <<< low ||| n) = bitsOf high m ++ bitsOf low n := by
  rw [bitsOf_add]
  congr 1
  · apply bitsOf_congr
    intro i _
    have hlow : n.testBit (low + i) = false := Nat.testBit_lt_two_pow (hn.trans_le (Nat.pow_le_pow_right (by omega) (by omega)))
    rw [Nat.testBit_shiftRight, Nat.testBit_or, Nat.testBit_shiftLeft, hlow]
    simp
  · apply bitsOf_congr
    intro i hi
    rw [Nat.testBit_or, Nat.testBit_shiftLeft]
    simp [Nat.not_le.2 hi]

theorem bitsOf_mod (width n : ℕ) : bitsOf width (n % 2 ^ width) = bitsOf width n := by
  apply bitsOf_congr
  intro i hi
  rw [Nat.testBit_mod_two_pow]
  simp [hi]

end Render.Core
