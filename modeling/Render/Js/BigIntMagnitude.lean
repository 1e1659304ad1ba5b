/-
The magnitude helpers of `render-js/src/bigint.rs`: each computes on limbs what its name says of the number they stand for.

`magnitude limbs` is the number, `Limbs` says that every limb is below 2^32, and `Trimmed` that there is no zero limb at the
high end. A loop is described by what its output and its last carry, borrow or remainder stand for together; the words
the source computes in are wide enough for the intermediate values (`mulRow_fits`).
-/
import Render.Js.BigInt

namespace Render.Js

/-- the number the limbs stand for -/
def magnitude (limbs : List ℕ) : ℕ := Nat.ofDigits (2 ^ 32) limbs

/-- every limb fits a `u32` -/
def Limbs (limbs : List ℕ) : Prop := ∀ limb ∈ limbs, limb < 2 ^ 32

/-- no zero limb at the high end -/
def Trimmed (limbs : List ℕ) : Prop := limbs.getLast? ≠ some 0

variable {a b : ℕ} {l r left right : List ℕ}

@[simp] theorem magnitude_nil : magnitude [] = 0 := rfl

@[simp] theorem magnitude_cons (a : ℕ) (l : List ℕ) : magnitude (a :: l) = a + 2 ^ 32 * magnitude l := by
  unfold magnitude
  rw [Nat.ofDigits_cons]

theorem magnitude_append (l r : List ℕ) : magnitude (l ++ r) = magnitude l + (2 ^ 32) ^ l.length * magnitude r :=
  Nat.ofDigits_append

theorem magnitude_replicate (n : ℕ) : magnitude (List.replicate n 0) = 0 := Nat.ofDigits_replicate_zero

theorem Limbs.cons_iff : Limbs (a :: l) ↔ a < 2 ^ 32 ∧ Limbs l := List.forall_mem_cons

theorem Limbs.nil : Limbs [] := fun _ h => absurd h List.not_mem_nil

theorem Limbs.append_iff : Limbs (l ++ r) ↔ Limbs l ∧ Limbs r := List.forall_mem_append

theorem Limbs.replicate (n : ℕ) : Limbs (List.replicate n 0) := fun x hx => by
  rw [List.eq_of_mem_replicate hx]
  norm_num

theorem Limbs.take (h : Limbs l) (n : ℕ) : Limbs (l.take n) := fun x hx => h x (List.mem_of_mem_take hx)

theorem Limbs.drop (h : Limbs l) (n : ℕ) : Limbs (l.drop n) := fun x hx => h x (List.mem_of_mem_drop hx)

theorem Limbs.headD (h : Limbs l) : l.headD 0 < 2 ^ 32 := by
  cases l with
  | nil => norm_num
  | cons a l => exact (Limbs.cons_iff.1 h).1

theorem Limbs.tail (h : Limbs l) : Limbs l.tail := fun x hx => h x (List.mem_of_mem_tail hx)

theorem magnitude_lt (h : Limbs l) : magnitude l < (2 ^ 32) ^ l.length :=
  Nat.ofDigits_lt_base_pow_length (by norm_num) h

theorem magnitude_headD_tail (l : List ℕ) : magnitude l = l.headD 0 + 2 ^ 32 * magnitude l.tail := by
  cases l with
  | nil => rfl
  | cons a l => exact magnitude_cons a l

/-- the low limbs and the limbs above them -/
theorem magnitude_take_drop (l : List ℕ) (n : ℕ) (hn : n ≤ l.length) :
    magnitude l = magnitude (l.take n) + (2 ^ 32) ^ n * magnitude (l.drop n) := by
  conv_lhs => rw [← List.take_append_drop n l]
  rw [magnitude_append, List.length_take, min_eq_left hn]

/-! ## Trimming -/

theorem trim_eq_append (l : List ℕ) : ∃ n, l = trim l ++ List.replicate n 0 := by
  refine ⟨(l.rtakeWhile (· = 0)).length, ?_⟩
  have hzero : l.rtakeWhile (· = 0) = List.replicate (l.rtakeWhile (· = 0)).length 0 :=
    List.eq_replicate_iff.2 ⟨rfl, fun x hx => by simpa using List.mem_rtakeWhile_imp hx⟩
  rw [← hzero]
  exact (List.rdropWhile_append_rtakeWhile ..).symm

@[simp] theorem magnitude_trim (l : List ℕ) : magnitude (trim l) = magnitude l := by
  obtain ⟨n, hn⟩ := trim_eq_append l
  conv_rhs => rw [hn, magnitude_append, magnitude_replicate]
  simp

theorem Limbs.trim (h : Limbs l) : Limbs (trim l) := fun x hx => h x ((List.rdropWhile_prefix _ _).subset hx)

theorem trimmed_trim (l : List ℕ) : Trimmed (trim l) := by
  intro h
  obtain ⟨hne, hlast⟩ : ∃ hne : trim l ≠ [], (trim l).getLast hne = 0 := by
    have hne : trim l ≠ [] := fun he => by rw [he] at h; cases h
    exact ⟨hne, Option.some.inj ((List.getLast?_eq_some_getLast hne).symm.trans h)⟩
  exact List.rdropWhile_last_not _ _ hne (decide_eq_true hlast)

theorem trimmed_nil : Trimmed [] := fun h => by cases h

/-- a magnitude without a zero at the high end fills its length -/
theorem pow_le_magnitude (h : Trimmed l) (hne : l ≠ []) : (2 ^ 32) ^ (l.length - 1) ≤ magnitude l := by
  have hlast : l.getLast hne ≠ 0 := fun he => h ((List.getLast?_eq_some_getLast hne).trans (congrArg some he))
  have hpow := Nat.pow_length_le_mul_ofDigits (b := 2 ^ 32 - 2) hne hlast
  obtain ⟨n, hn⟩ : ∃ n, l.length = n + 1 := ⟨l.length - 1, by have := List.length_pos_iff.2 hne; omega⟩
  rw [hn] at hpow ⊢
  rw [pow_succ, mul_comm] at hpow
  exact Nat.le_of_mul_le_mul_left hpow (by norm_num)

theorem magnitude_eq_zero (h : Trimmed l) : magnitude l = 0 ↔ l = [] := by
  refine ⟨fun hzero => ?_, fun he => by rw [he]; rfl⟩
  by_contra hne
  have hpow := pow_le_magnitude h hne
  have hpos : 0 < (2 ^ 32) ^ (l.length - 1) := Nat.pow_pos (by norm_num)
  omega

/-- trimmed limbs are the digits of their number -/
theorem magnitude_inj (hl : Limbs l) (hr : Limbs r) (htl : Trimmed l) (htr : Trimmed r) (h : magnitude l = magnitude r) :
    l = r := by
  have hdigits : ∀ {m : List ℕ}, Limbs m → Trimmed m → Nat.digits (2 ^ 32) (magnitude m) = m := fun {m} hm ht =>
    Nat.digits_ofDigits _ (by norm_num) m hm fun hne he =>
      ht ((List.getLast?_eq_some_getLast hne).trans (congrArg some he))
  rw [← hdigits hl htl, h, hdigits hr htr]

theorem length_le_of_magnitude_le (hr : Limbs r) (htl : Trimmed l) (h : magnitude l ≤ magnitude r) : l.length ≤ r.length := by
  by_contra hlt
  have hne : l ≠ [] := fun he => by rw [he] at hlt; exact hlt (Nat.zero_le _)
  have hpow := pow_le_magnitude htl hne
  have hup := magnitude_lt hr
  have hmono : ((2 : ℕ) ^ 32) ^ r.length ≤ (2 ^ 32) ^ (l.length - 1) := Nat.pow_le_pow_right (by norm_num) (by omega)
  omega

/-! ## Bits -/

/-- the bits of a trimmed magnitude -/
theorem bitLength_eq (hl : Limbs l) (ht : Trimmed l) : bitLength l = (magnitude l).size := by
  unfold bitLength
  cases hlast : l.getLast? with
  | none => rw [List.getLast?_eq_none_iff.1 hlast]; rfl
  | some top =>
    obtain ⟨low, rfl⟩ := List.getLast?_eq_some_iff.1 hlast
    obtain ⟨hlow, htop⟩ := Limbs.append_iff.1 hl
    have htop0 : top ≠ 0 := fun he => ht (by rw [hlast, he])
    have htop32 : top < 2 ^ 32 := htop top (List.mem_singleton_self top)
    have hlead : 32 - leadingZeros top = top.size := by
      have hsize : top.size ≤ 32 := Nat.size_le.2 htop32
      unfold leadingZeros
      omega
    have hlt := magnitude_lt hlow
    rw [← pow_mul] at hlt
    show ((low ++ [top]).length - 1) * 32 + (32 - leadingZeros top) = _
    rw [magnitude_append, magnitude_cons, magnitude_nil, mul_zero, add_zero, ← pow_mul, List.length_append,
      List.length_singleton, Nat.add_sub_cancel, hlead, mul_comm low.length]
    have hup := Nat.lt_size_self top
    have hlo : 2 ^ (top.size - 1) ≤ top := by
      refine Nat.lt_size.1 (Nat.sub_lt ?_ Nat.one_pos)
      exact Nat.size_pos.2 (Nat.pos_of_ne_zero htop0)
    refine le_antisymm ?_ ?_
    · -- the high bit of the top limb
      have hpos : 0 < top.size := Nat.size_pos.2 (Nat.pos_of_ne_zero htop0)
      have hbit : 2 ^ (32 * low.length + (top.size - 1)) ≤ magnitude low + 2 ^ (32 * low.length) * top := by
        rw [pow_add]
        exact (Nat.mul_le_mul_left _ hlo).trans (Nat.le_add_left _ _)
      have := Nat.lt_size.2 hbit
      omega
    · refine Nat.size_le.2 ?_
      calc magnitude low + 2 ^ (32 * low.length) * top
          < 2 ^ (32 * low.length) + 2 ^ (32 * low.length) * top := Nat.add_lt_add_right hlt _
        _ = 2 ^ (32 * low.length) * (top + 1) := by ring
        _ ≤ 2 ^ (32 * low.length) * 2 ^ top.size := Nat.mul_le_mul_left _ hup
        _ = 2 ^ (32 * low.length + top.size) := (pow_add ..).symm

/-! ## Order -/

theorem lexCmp_concat (hlen : l.length = r.length) :
    lexCmp (l ++ [a]) (r ++ [b]) = (lexCmp l r).then (compare a b) := by
  induction l generalizing r with
  | nil =>
    obtain rfl := List.length_eq_zero_iff.1 hlen.symm
    simp only [List.nil_append, lexCmp]
    cases compare a b <;> rfl
  | cons x l ih =>
    cases r with
    | nil => cases hlen
    | cons y r =>
      simp only [List.cons_append, lexCmp, ih (Nat.succ.inj hlen)]
      cases compare x y <;> rfl

theorem compare_limb (ha : a < 2 ^ 32) (hb : b < 2 ^ 32) (m n : ℕ) :
    compare (a + 2 ^ 32 * m) (b + 2 ^ 32 * n) = (compare m n).then (compare a b) := by
  rcases Nat.lt_trichotomy m n with h | h | h
  · rw [compare_lt_iff_lt.2 h, compare_lt_iff_lt.2 (by omega)]
    rfl
  · subst h
    rw [compare_eq_iff_eq.2 (rfl : m = m)]
    rcases Nat.lt_trichotomy a b with h | h | h
    · rw [compare_lt_iff_lt.2 h, compare_lt_iff_lt.2 (by omega)]; rfl
    · rw [h, compare_eq_iff_eq.2 rfl, compare_eq_iff_eq.2 rfl]; rfl
    · rw [compare_gt_iff_gt.2 h, compare_gt_iff_gt.2 (by omega)]; rfl
  · rw [compare_gt_iff_gt.2 h, compare_gt_iff_gt.2 (by omega)]
    rfl

theorem lexCmp_reverse (hl : Limbs l) (hr : Limbs r) (hlen : l.length = r.length) :
    lexCmp l.reverse r.reverse = compare (magnitude l) (magnitude r) := by
  induction l generalizing r with
  | nil =>
    obtain rfl := List.length_eq_zero_iff.1 hlen.symm
    rfl
  | cons a l ih =>
    cases r with
    | nil => cases hlen
    | cons b r =>
      obtain ⟨ha, hl⟩ := Limbs.cons_iff.1 hl
      obtain ⟨hb, hr⟩ := Limbs.cons_iff.1 hr
      have hlen := Nat.succ.inj hlen
      rw [List.reverse_cons, List.reverse_cons, lexCmp_concat (by simpa using hlen), ih hl hr hlen, magnitude_cons,
        magnitude_cons, compare_limb ha hb]

/-- **Magnitudes are compared as numbers.** -/
theorem cmpMagnitude_eq (hl : Limbs l) (hr : Limbs r) (htl : Trimmed l) (htr : Trimmed r) :
    cmpMagnitude l r = compare (magnitude l) (magnitude r) := by
  unfold cmpMagnitude
  rcases Nat.lt_trichotomy l.length r.length with h | h | h
  · have hlt : magnitude l < magnitude r := by
      by_contra hle
      exact absurd (length_le_of_magnitude_le hl htr (Nat.le_of_not_lt hle)) (by omega)
    rw [compare_lt_iff_lt.2 h, compare_lt_iff_lt.2 hlt]
    rfl
  · rw [compare_eq_iff_eq.2 h, lexCmp_reverse hl hr h]
    rfl
  · have hlt : magnitude r < magnitude l := by
      by_contra hle
      exact absurd (length_le_of_magnitude_le hr htl (Nat.le_of_not_lt hle)) (by omega)
    rw [compare_gt_iff_gt.2 h, compare_gt_iff_gt.2 hlt]
    rfl

/-! ## Sums and differences -/

theorem limbs_addLimbs (carry : ℕ) : Limbs (addLimbs l r carry) := by
  induction l generalizing r carry with
  | nil =>
    unfold addLimbs
    split_ifs
    · exact Limbs.cons_iff.2 ⟨Nat.mod_lt _ (by norm_num), Limbs.nil⟩
    · exact Limbs.nil
  | cons a l ih => exact Limbs.cons_iff.2 ⟨Nat.mod_lt _ (by norm_num), ih _⟩

theorem magnitude_addLimbs (hl : Limbs l) (hr : Limbs r) (hlen : r.length ≤ l.length) {carry : ℕ} (hc : carry ≤ 1) :
    magnitude (addLimbs l r carry) = magnitude l + magnitude r + carry := by
  induction l generalizing r carry with
  | nil =>
    obtain rfl := List.length_eq_zero_iff.1 (Nat.le_zero.1 hlen)
    unfold addLimbs
    interval_cases carry <;> simp
  | cons a l ih =>
    obtain ⟨ha, hl⟩ := Limbs.cons_iff.1 hl
    have hb := hr.headD
    have hlen' : r.tail.length ≤ l.length := by
      rw [List.length_tail]
      rw [List.length_cons] at hlen
      omega
    have hcarry : (a + r.headD 0 + carry) / 2 ^ 32 ≤ 1 := by omega
    rw [addLimbs, magnitude_cons, magnitude_cons, ih hl hr.tail hlen' hcarry, magnitude_headD_tail r]
    have := Nat.mod_add_div (a + r.headD 0 + carry) (2 ^ 32)
    omega

theorem limbs_addMagnitude : Limbs (addMagnitude l r) := by
  unfold addMagnitude
  split_ifs <;> exact (limbs_addLimbs 0).trim

theorem magnitude_addMagnitude (hl : Limbs l) (hr : Limbs r) :
    magnitude (addMagnitude l r) = magnitude l + magnitude r := by
  unfold addMagnitude
  split_ifs with h
  · rw [magnitude_trim, magnitude_addLimbs hl hr h (Nat.zero_le 1), add_zero]
  · rw [magnitude_trim, magnitude_addLimbs hr hl (by omega) (Nat.zero_le 1), add_zero, add_comm]

theorem limbs_subLimbs (hl : Limbs l) (hr : Limbs r) {borrow : ℤ} (hb : 0 ≤ borrow ∧ borrow ≤ 1) :
    Limbs (subLimbs l r borrow) := by
  induction l generalizing r borrow with
  | nil => exact Limbs.nil
  | cons a l ih =>
    obtain ⟨ha, hl⟩ := Limbs.cons_iff.1 hl
    have hh := hr.headD
    unfold subLimbs
    dsimp only
    split_ifs with h
    · exact Limbs.cons_iff.2 ⟨by omega, ih hl hr.tail (by norm_num)⟩
    · exact Limbs.cons_iff.2 ⟨by omega, ih hl hr.tail (by norm_num)⟩

/-- what is written, and the borrow that is left at the end -/
theorem magnitude_subLimbs (hl : Limbs l) (hr : Limbs r) (hlen : r.length ≤ l.length) {borrow : ℤ}
    (hb : 0 ≤ borrow ∧ borrow ≤ 1) : ∃ last : ℕ, last ≤ 1 ∧
      (magnitude (subLimbs l r borrow) : ℤ) = magnitude l - magnitude r - borrow + (2 ^ 32) ^ l.length * last := by
  induction l generalizing r borrow with
  | nil =>
    obtain rfl := List.length_eq_zero_iff.1 (Nat.le_zero.1 hlen)
    refine ⟨borrow.toNat, by omega, ?_⟩
    simp [subLimbs, Int.toNat_of_nonneg hb.1]
  | cons a l ih =>
    obtain ⟨ha, hl⟩ := Limbs.cons_iff.1 hl
    have hh := hr.headD
    have hlen' : r.tail.length ≤ l.length := by
      rw [List.length_tail]
      rw [List.length_cons] at hlen
      omega
    unfold subLimbs
    dsimp only
    split_ifs with h
    · have hborrow : 0 ≤ (1 : ℤ) ∧ (1 : ℤ) ≤ 1 := by norm_num
      obtain ⟨last, hlast, he⟩ := ih hl hr.tail hlen' hborrow
      refine ⟨last, hlast, ?_⟩
      rw [magnitude_cons, magnitude_cons, magnitude_headD_tail r, List.length_cons, pow_succ (2 ^ 32) _]
      push_cast
      rw [he, Int.toNat_of_nonneg (by omega)]
      ring
    · have hborrow : 0 ≤ (0 : ℤ) ∧ (0 : ℤ) ≤ 1 := by norm_num
      obtain ⟨last, hlast, he⟩ := ih hl hr.tail hlen' hborrow
      refine ⟨last, hlast, ?_⟩
      rw [magnitude_cons, magnitude_cons, magnitude_headD_tail r, List.length_cons, pow_succ (2 ^ 32) _]
      push_cast
      rw [he, Int.toNat_of_nonneg (by omega)]
      ring

theorem limbs_subMagnitude (hl : Limbs l) (hr : Limbs r) : Limbs (subMagnitude l r) :=
  (limbs_subLimbs hl hr (by norm_num)).trim

theorem magnitude_subMagnitude (hl : Limbs l) (hr : Limbs r) (htr : Trimmed r) (hle : magnitude r ≤ magnitude l) :
    magnitude (subMagnitude l r) = magnitude l - magnitude r := by
  have hborrow : 0 ≤ (0 : ℤ) ∧ (0 : ℤ) ≤ 1 := by norm_num
  obtain ⟨last, hlast, he⟩ := magnitude_subLimbs hl hr (length_le_of_magnitude_le hl htr hle) hborrow
  have hlimbs : Limbs (subLimbs l r 0) := limbs_subLimbs hl hr (by norm_num)
  have hlength : ∀ (l r : List ℕ) (borrow : ℤ), (subLimbs l r borrow).length = l.length := by
    intro l
    induction l with
    | nil => exact fun _ _ => rfl
    | cons a l ih =>
      intro r borrow
      unfold subLimbs
      dsimp only
      split_ifs <;> simp [ih]
  have hlt := magnitude_lt hlimbs
  rw [hlength] at hlt
  unfold subMagnitude
  rw [magnitude_trim]
  -- a borrow at the end would leave more than the limbs can hold
  have hzero : last = 0 := by
    by_contra hne
    obtain rfl : last = 1 := by omega
    have hlt' : (magnitude (subLimbs l r 0) : ℤ) < ((2 : ℕ) ^ 32) ^ l.length := by exact_mod_cast hlt
    push_cast at he hlt'
    omega
  rw [hzero] at he
  push_cast at he
  omega

/-! ## Products -/

theorem carryInto_length (l : List ℕ) (carry : ℕ) : (carryInto l carry).length = l.length := by
  induction l generalizing carry with
  | nil => rfl
  | cons a l ih =>
    unfold carryInto
    split_ifs
    · rfl
    · rw [List.length_cons, ih, List.length_cons]

theorem limbs_carryInto (hl : Limbs l) (carry : ℕ) : Limbs (carryInto l carry) := by
  induction l generalizing carry with
  | nil => exact Limbs.nil
  | cons a l ih =>
    unfold carryInto
    split_ifs
    · exact hl
    · exact Limbs.cons_iff.2 ⟨Nat.mod_lt _ (by norm_num), ih (Limbs.cons_iff.1 hl).2 _⟩

/-- no carry is left where the sum fits the output -/
theorem magnitude_carryInto {carry : ℕ} (h : magnitude l + carry < (2 ^ 32) ^ l.length) :
    magnitude (carryInto l carry) = magnitude l + carry := by
  induction l generalizing carry with
  | nil =>
    rw [magnitude_nil, List.length_nil, pow_zero, zero_add, Nat.lt_one_iff] at h
    rw [h]
    rfl
  | cons a l ih =>
    unfold carryInto
    split_ifs with hc
    · rw [hc, add_zero]
    · have hsplit := Nat.mod_add_div (a + carry) (2 ^ 32)
      rw [magnitude_cons, List.length_cons, pow_succ (2 ^ 32) _] at h
      rw [magnitude_cons, magnitude_cons, ih (by omega)]
      omega

theorem mulRow_length {x : ℕ} {carry : ℕ} (hlen : r.length ≤ l.length) : (mulRow x r l carry).length = l.length := by
  induction r generalizing l carry with
  | nil => unfold mulRow; exact carryInto_length l carry
  | cons b r ih =>
    cases l with
    | nil => exact absurd hlen (Nat.not_succ_le_zero _)
    | cons a l =>
      unfold mulRow
      rw [List.length_cons, ih (Nat.le_of_succ_le_succ hlen), List.length_cons]

theorem limbs_mulRow {x : ℕ} {carry : ℕ} (hl : Limbs l) : Limbs (mulRow x r l carry) := by
  induction r generalizing l carry with
  | nil => unfold mulRow; exact limbs_carryInto hl carry
  | cons b r ih =>
    cases l with
    | nil => exact Limbs.nil
    | cons a l =>
      unfold mulRow
      exact Limbs.cons_iff.2 ⟨Nat.mod_lt _ (by norm_num), ih (Limbs.cons_iff.1 hl).2⟩

theorem magnitude_mulRow {x : ℕ} {carry : ℕ} (hlen : r.length ≤ l.length)
    (h : magnitude l + x * magnitude r + carry < (2 ^ 32) ^ l.length) :
    magnitude (mulRow x r l carry) = magnitude l + x * magnitude r + carry := by
  induction r generalizing l carry with
  | nil =>
    unfold mulRow
    rw [magnitude_nil, mul_zero, add_zero] at h ⊢
    exact magnitude_carryInto h
  | cons b r ih =>
    cases l with
    | nil => exact absurd hlen (Nat.not_succ_le_zero _)
    | cons a l =>
      have hsplit := Nat.mod_add_div (x * b + a + carry) (2 ^ 32)
      have hdist : x * (b + 2 ^ 32 * magnitude r) = x * b + 2 ^ 32 * (x * magnitude r) := by ring
      rw [magnitude_cons, magnitude_cons, List.length_cons, pow_succ (2 ^ 32) _, hdist] at h
      unfold mulRow
      rw [magnitude_cons, magnitude_cons, magnitude_cons, ih (Nat.le_of_succ_le_succ hlen) (by omega), hdist]
      omega

theorem limbs_mulRows (hl : Limbs l) : Limbs (mulRows left r l) := by
  induction left generalizing l with
  | nil => exact hl
  | cons x left ih =>
    unfold mulRows
    have hrow : Limbs (mulRow x r l 0) := limbs_mulRow hl
    cases hm : mulRow x r l 0 with
    | nil => exact Limbs.nil
    | cons a row =>
      rw [hm] at hrow
      obtain ⟨ha, hrow⟩ := Limbs.cons_iff.1 hrow
      exact Limbs.cons_iff.2 ⟨ha, ih hrow⟩

theorem magnitude_mulRows (hlen : left.length + r.length ≤ l.length)
    (h : magnitude l + magnitude left * magnitude r < (2 ^ 32) ^ l.length) :
    magnitude (mulRows left r l) = magnitude l + magnitude left * magnitude r := by
  induction left generalizing l with
  | nil => simp [mulRows]
  | cons x left ih =>
    have hdist : (x + 2 ^ 32 * magnitude left) * magnitude r =
        x * magnitude r + 2 ^ 32 * (magnitude left * magnitude r) := by ring
    rw [magnitude_cons, hdist] at h ⊢
    rw [List.length_cons] at hlen
    have hrow : magnitude (mulRow x r l 0) = magnitude l + x * magnitude r :=
      magnitude_mulRow (by omega) (by omega)
    have hlength : (mulRow x r l 0).length = l.length := mulRow_length (by omega)
    unfold mulRows
    cases hm : mulRow x r l 0 with
    | nil =>
      rw [hm, List.length_nil] at hlength
      omega
    | cons a row =>
      rw [hm, List.length_cons] at hlength
      rw [hm, magnitude_cons] at hrow
      rw [← hlength, pow_succ (2 ^ 32) _] at h
      show magnitude (a :: mulRows left r row) = _
      rw [magnitude_cons, ih (by omega) (by omega)]
      omega

theorem limbs_mulMagnitude : Limbs (mulMagnitude l r) := by
  unfold mulMagnitude
  split_ifs
  · exact Limbs.nil
  · exact (limbs_mulRows (Limbs.replicate _)).trim

theorem magnitude_mulMagnitude (hl : Limbs l) (hr : Limbs r) : magnitude (mulMagnitude l r) = magnitude l * magnitude r := by
  unfold mulMagnitude
  split_ifs with h
  · rcases h with rfl | rfl <;> simp
  · rw [magnitude_trim, magnitude_mulRows (by simp), magnitude_replicate, zero_add]
    rw [magnitude_replicate, List.length_replicate, zero_add, pow_add]
    exact Nat.mul_lt_mul'' (magnitude_lt hl) (magnitude_lt hr)

end Render.Js
