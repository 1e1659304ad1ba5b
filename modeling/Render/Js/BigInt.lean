/-
Arbitrary-precision integers (`render-js/src/bigint.rs`): a sign and a little-endian magnitude of limbs to the base 2^32.

A limb is a natural number below 2^32. A cast to `u32` is `% 2 ^ 32`, a shift of a wider word to the right a division; no
sum or product of the source overflows its 64-bit word (`Render.Js.BigIntMagnitude`, `Render.Js.BigIntDivision`). Loops
over limbs are recursions on the list, from the low end.
-/
import Mathlib.Tactic
import Mathlib.Data.List.DropRight
import Mathlib.Data.Nat.Size

namespace Render.Js

/-- `MAX_BITS`: the largest magnitude, in bits, that `pow`, `shift`, `as_uint_n` and `as_int_n` may produce -/
def maxBits : ℕ := 2 ^ 20

/-! ## Magnitudes -/

/-- `trim`: the zero limbs at the high end go -/
def trim (limbs : List ℕ) : List ℕ := limbs.rdropWhile (· = 0)

/-- `u32::leading_zeros` -/
def leadingZeros (limb : ℕ) : ℕ := 32 - limb.size

def bitLength (limbs : List ℕ) : ℕ :=
  match limbs.getLast? with
  | none => 0
  | some top => (limbs.length - 1) * 32 + (32 - leadingZeros top)

/-- `Iterator::cmp` -/
def lexCmp : List ℕ → List ℕ → Ordering
  | [], [] => .eq
  | [], _ :: _ => .lt
  | _ :: _, [] => .gt
  | a :: left, b :: right => (compare a b).then (lexCmp left right)

def cmpMagnitude (left right : List ℕ) : Ordering :=
  (compare left.length right.length).then (lexCmp left.reverse right.reverse)

/-- the loop of `add_magnitude` over the longer magnitude -/
def addLimbs : List ℕ → List ℕ → ℕ → List ℕ
  | [], _, carry => if carry ≠ 0 then [carry % 2 ^ 32] else []
  | limb :: long, short, carry =>
    let sum := limb + short.headD 0 + carry
    sum % 2 ^ 32 :: addLimbs long short.tail (sum / 2 ^ 32)

def addMagnitude (left right : List ℕ) : List ℕ :=
  if right.length ≤ left.length then trim (addLimbs left right 0) else trim (addLimbs right left 0)

/-- the loop of `sub_magnitude` -/
def subLimbs : List ℕ → List ℕ → ℤ → List ℕ
  | [], _, _ => []
  | limb :: left, right, borrow =>
    let difference : ℤ := limb - right.headD 0 - borrow
    if difference < 0 then (difference + 2 ^ 32).toNat :: subLimbs left right.tail 1
    else difference.toNat :: subLimbs left right.tail 0

/-- `sub_magnitude`: `left - right` for `left >= right` -/
def subMagnitude (left right : List ℕ) : List ℕ := trim (subLimbs left right 0)

/-- the carry loop of `mul_magnitude`; the source would panic where a carry is left at the end of the output -/
def carryInto : List ℕ → ℕ → List ℕ
  | [], _ => []
  | limb :: output, carry =>
    if carry = 0 then limb :: output
    else (limb + carry) % 2 ^ 32 :: carryInto output ((limb + carry) / 2 ^ 32)

/-- one pass of the outer loop of `mul_magnitude`, on the output from position i on -/
def mulRow (leftLimb : ℕ) : List ℕ → List ℕ → ℕ → List ℕ
  | [], output, carry => carryInto output carry
  | _ :: _, [], _ => []
  | rightLimb :: right, limb :: output, carry =>
    let total := leftLimb * rightLimb + limb + carry
    total % 2 ^ 32 :: mulRow leftLimb right output (total / 2 ^ 32)

/-- the outer loop of `mul_magnitude` -/
def mulRows : List ℕ → List ℕ → List ℕ → List ℕ
  | [], _, output => output
  | leftLimb :: left, right, output =>
    match mulRow leftLimb right output 0 with
    | [] => []
    | limb :: rest => limb :: mulRows left right rest

def mulMagnitude (left right : List ℕ) : List ℕ :=
  if left = [] ∨ right = [] then []
  else trim (mulRows left right (List.replicate (left.length + right.length) 0))

/-- the loop of `div_small`, which starts at the high end: the quotient limbs and the remainder -/
def divLimbs (divisor : ℕ) : List ℕ → List ℕ × ℕ
  | [] => ([], 0)
  | limb :: limbs =>
    let (quotient, remainder) := divLimbs divisor limbs
    let current := remainder * 2 ^ 32 + limb
    (current / divisor % 2 ^ 32 :: quotient, current % divisor)

/-- `div_small`: the trimmed quotient and the remainder -/
def divSmall (limbs : List ℕ) (divisor : ℕ) : List ℕ × ℕ :=
  let (quotient, remainder) := divLimbs divisor limbs
  (trim quotient, remainder)

/-- `(limb << bits) | carry` on `u32` -/
def shlLimb (limb bits carry : ℕ) : ℕ := (limb <<< bits % 2 ^ 32) ||| carry

/-- the loop of `shl_magnitude`, for a shift below 32 that is not 0 -/
def shlLimbs (bits : ℕ) : List ℕ → ℕ → List ℕ
  | [], carry => if carry ≠ 0 then [carry] else []
  | limb :: limbs, carry => shlLimb limb bits carry :: shlLimbs bits limbs (limb >>> (32 - bits))

def shlMagnitude (limbs : List ℕ) (bits : ℕ) : List ℕ :=
  if limbs = [] then []
  else
    let bitShift := bits % 32
    let shifted := if bitShift = 0 then limbs else shlLimbs bitShift limbs 0
    trim (List.replicate (bits / 32) 0 ++ shifted)

/-- `(limb >> bits) | (high << (32 - bits))` on `u32`, for a shift that is not 0 -/
def shrLimb (limb bits high : ℕ) : ℕ := limb >>> bits ||| (high <<< (32 - bits) % 2 ^ 32)

/-- the loop of `shr_magnitude` -/
def shrLimbs (bits : ℕ) : List ℕ → List ℕ
  | [] => []
  | limb :: limbs => (if bits = 0 then limb else shrLimb limb bits (limbs.headD 0)) :: shrLimbs bits limbs

/-- `shr_magnitude`: logical shift -/
def shrMagnitude (limbs : List ℕ) (bits : ℕ) : List ℕ :=
  if limbs.length ≤ bits / 32 then [] else trim (shrLimbs (bits % 32) (limbs.drop (bits / 32)))

/-! ## Division with a longer divisor -/

/-- `shift_left_limbs`: one limb longer than the input -/
def shiftLeftLimbs (bits : ℕ) : List ℕ → ℕ → List ℕ
  | [], carry => [carry]
  | limb :: limbs, carry =>
    if bits = 0 then limb :: shiftLeftLimbs bits limbs carry
    else shlLimb limb bits carry :: shiftLeftLimbs bits limbs (limb >>> (32 - bits))

/-- the loop that refines a quotient digit with the next limb down -/
def refineDigit (top second next : ℕ) : ℕ → ℕ → ℕ
  | 0, _ => 0
  | digit + 1, rest =>
    if 2 ^ 32 ≤ digit + 1 ∨ rest * 2 ^ 32 + next < (digit + 1) * second then
      if 2 ^ 32 ≤ rest + top then digit else refineDigit top second next digit (rest + top)
    else digit + 1

/-- the loop that subtracts `digit` times the divisor: the limbs and the borrow that is left -/
def mulSub (digit : ℕ) : List ℕ → List ℕ → ℤ → List ℕ × ℤ
  | limb :: divisor, scaled :: window, borrow =>
    let product := digit * limb
    let difference : ℤ := scaled - borrow - (product % 2 ^ 32 : ℕ)
    let (rest, last) := mulSub digit divisor window ((product / 2 ^ 32 : ℕ) - difference / 2 ^ 32)
    ((difference % 2 ^ 32).toNat :: rest, last)
  | _, window, borrow => (window, borrow)

/-- the loop that adds the divisor back: the limbs and the carry that is left -/
def addBack : List ℕ → List ℕ → ℕ → List ℕ × ℕ
  | limb :: divisor, scaled :: window, carry =>
    let sum := scaled + limb + carry
    let (rest, last) := addBack divisor window (sum / 2 ^ 32)
    (sum % 2 ^ 32 :: rest, last)
  | _, window, carry => (window, carry)

/-- one pass of the loop of `divmod_magnitude`, on the limbs from position j on: the quotient digit and the limbs after it -/
def divStep (divisor tail : List ℕ) : ℕ × List ℕ :=
  let n := divisor.length
  let top := divisor.getD (n - 1) 0
  let second := divisor.getD (n - 2) 0
  let numerator := tail.getD n 0 * 2 ^ 32 + tail.getD (n - 1) 0
  let digit := refineDigit top second (tail.getD (n - 2) 0) (numerator / top) (numerator % top)
  let (window, borrow) := mulSub digit divisor (tail.take n) 0
  let difference : ℤ := tail.getD n 0 - borrow
  let high := (difference % 2 ^ 32).toNat
  if difference < 0 then
    let (restored, carry) := addBack divisor window 0
    (digit - 1, restored ++ (high + carry) % 2 ^ 32 :: tail.drop (n + 1))
  else (digit, window ++ high :: tail.drop (n + 1))

/-- the loop of `divmod_magnitude`, from position j - 1 down: the quotient digits and the limbs that are left -/
def divSteps (divisor : List ℕ) : ℕ → List ℕ → List ℕ → List ℕ × List ℕ
  | 0, scaled, quotient => (quotient, scaled)
  | j + 1, scaled, quotient =>
    let (digit, tail) := divStep divisor (scaled.drop j)
    divSteps divisor j (scaled.take j ++ tail) (digit % 2 ^ 32 :: quotient)

/-- `divmod_magnitude` for a divisor of two limbs or more. The operands are scaled so that the top limb of the divisor has
its high bit set. -/
def divLong (dividend divisor : List ℕ) : List ℕ × List ℕ :=
  let shift := (divisor.getLast?.map leadingZeros).getD 0
  let scaledDivisor := (shiftLeftLimbs shift divisor 0).dropLast
  let scaled := shiftLeftLimbs shift dividend 0
  let n := scaledDivisor.length
  let (quotient, left) := divSteps scaledDivisor (dividend.length - n + 1) scaled []
  (trim quotient, trim ((shrLimbs shift (left.take (n + 1))).take n))

/-- `divmod_magnitude`: quotient and remainder, for a divisor that is not zero -/
def divmodMagnitude (dividend divisor : List ℕ) : List ℕ × List ℕ :=
  if cmpMagnitude dividend divisor = .lt then ([], dividend)
  else
    match divisor with
    | [limb] =>
      let (quotient, remainder) := divSmall dividend limb
      (quotient, if remainder = 0 then [] else [remainder])
    | _ => divLong dividend divisor

/-! ## Integers -/

structure JsBigInt where
  negative : Bool
  limbs : List ℕ
deriving DecidableEq, Repr

namespace JsBigInt

/-- `from_parts`: no zero limb at the high end, and zero is not negative -/
def fromParts (negative : Bool) (limbs : List ℕ) : JsBigInt where
  negative := negative && !(trim limbs).isEmpty
  limbs := trim limbs

def zero : JsBigInt := ⟨false, []⟩

def fromU64 (value : ℕ) : JsBigInt := fromParts false [value % 2 ^ 32, value / 2 ^ 32 % 2 ^ 32]

def fromI64 (value : ℤ) : JsBigInt := fromParts (value < 0) (fromU64 value.natAbs).limbs

def isZero (a : JsBigInt) : Bool := a.limbs.isEmpty

/-- `magnitude_u64`: the magnitude, when it fits a `u64` -/
def magnitudeU64 (a : JsBigInt) : Option ℕ :=
  match a.limbs with
  | [] => some 0
  | [low] => some low
  | [low, high] => some (high * 2 ^ 32 + low)
  | _ => none

/-- `Ord::cmp` -/
def cmp (a b : JsBigInt) : Ordering :=
  match a.negative, b.negative with
  | false, true => .gt
  | true, false => .lt
  | false, false => cmpMagnitude a.limbs b.limbs
  | true, true => cmpMagnitude b.limbs a.limbs

def negate (a : JsBigInt) : JsBigInt := fromParts (!a.negative) a.limbs

def add (a b : JsBigInt) : JsBigInt :=
  if a.negative = b.negative then fromParts a.negative (addMagnitude a.limbs b.limbs)
  else
    match cmpMagnitude a.limbs b.limbs with
    | .lt => fromParts b.negative (subMagnitude b.limbs a.limbs)
    | _ => fromParts a.negative (subMagnitude a.limbs b.limbs)

def sub (a b : JsBigInt) : JsBigInt := a.add b.negate

def mul (a b : JsBigInt) : JsBigInt := fromParts (a.negative != b.negative) (mulMagnitude a.limbs b.limbs)

/-- `div_rem`: quotient and remainder, `none` for a zero divisor -/
def divRem (a b : JsBigInt) : Option (JsBigInt × JsBigInt) :=
  if b.isZero then none
  else
    let (quotient, remainder) := divmodMagnitude a.limbs b.limbs
    some (fromParts (a.negative != b.negative) quotient, fromParts a.negative remainder)

/-- the loop of `pow` -/
def powLoop (exponent : ℕ) (result base : JsBigInt) : JsBigInt :=
  if h : exponent = 0 then result
  else
    let result := if exponent % 2 = 1 then result.mul base else result
    let exponent' := exponent / 2
    powLoop exponent' result (if 0 < exponent' then base.mul base else base)
termination_by exponent
decreasing_by omega

/-- `pow`, for an exponent that is not negative -/
def pow (a exponent : JsBigInt) : Option JsBigInt :=
  if exponent.isZero then some (fromI64 1)
  else if a.isZero ∨ a.limbs = [1] then
    let odd := exponent.limbs.headD 0 % 2 = 1
    some (if a.negative ∧ odd then a else fromParts false a.limbs)
  else do
    let exponent ← exponent.magnitudeU64
    if maxBits < bitLength a.limbs * exponent then none
    else some (powLoop exponent (fromI64 1) a)

/-- `shift_right`: floor division by `2^bits` -/
def shiftRight (a : JsBigInt) (bits : ℕ) : JsBigInt :=
  if !a.negative then fromParts false (shrMagnitude a.limbs bits)
  else fromParts true (addMagnitude (shrMagnitude (subMagnitude a.limbs [1]) bits) [1])

/-- `shift`: to the left, and to the right for a negative count -/
def shift (a count : JsBigInt) : Option JsBigInt :=
  if a.isZero then some zero
  else if count.negative then some (a.shiftRight (count.magnitudeU64.getD (2 ^ 64 - 1)))
  else do
    let bits ← count.magnitudeU64
    if maxBits < min (bitLength a.limbs + bits) (2 ^ 64 - 1) then none
    else some (fromParts a.negative (shlMagnitude a.limbs bits))

/-- `bit_not` -/
def bitNot (a : JsBigInt) : JsBigInt := a.negate.sub (fromI64 1)

/-- `!limb` on `u32` -/
def notLimb (limb : ℕ) : ℕ := 2 ^ 32 - 1 - limb

/-- `twos_complement`: the low `length` limbs in two's complement -/
def twosComplement (a : JsBigInt) (length : ℕ) : List ℕ :=
  let limbs := if a.negative then subMagnitude a.limbs [1] else a.limbs
  let resized := limbs.take length ++ List.replicate (length - limbs.length) 0
  if a.negative then resized.map notLimb else resized

def fromTwosComplement (limbs : List ℕ) : JsBigInt :=
  if (limbs.getLast?.map (· &&& 0x80000000 != 0)).getD false then
    fromParts true (addMagnitude (limbs.map notLimb) [1])
  else fromParts false limbs

def bitwise (a b : JsBigInt) (operation : ℕ → ℕ → ℕ) : JsBigInt :=
  let length := max a.limbs.length b.limbs.length + 1
  fromTwosComplement (List.zipWith operation (a.twosComplement length) (b.twosComplement length))

def bitAnd (a b : JsBigInt) : JsBigInt := a.bitwise b (· &&& ·)

def bitOr (a b : JsBigInt) : JsBigInt := a.bitwise b (· ||| ·)

def bitXor (a b : JsBigInt) : JsBigInt := a.bitwise b (· ^^^ ·)

/-- `as_uint_n` -/
def asUintN (a : JsBigInt) (bits : ℕ) : Option JsBigInt :=
  if bits = 0 then some zero
  else if !a.negative && bitLength a.limbs ≤ bits then some a
  else if maxBits < bits then none
  else
    let mask := (fromParts false (shlMagnitude [1] bits)).sub (fromI64 1)
    some (a.bitAnd mask)

/-- `as_int_n` -/
def asIntN (a : JsBigInt) (bits : ℕ) : Option JsBigInt :=
  if bits = 0 then some zero
  else
    let width := if a.negative then bitLength (subMagnitude a.limbs [1]) else bitLength a.limbs
    if width < bits then some a
    else do
      let wrapped ← a.asUintN bits
      if bitLength wrapped.limbs = bits then some (wrapped.sub (fromParts false (shlMagnitude [1] bits)))
      else some wrapped

end JsBigInt

end Render.Js
