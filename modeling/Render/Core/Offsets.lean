/-
Offsets into a list whose elements have sizes, such as the octets of a character. Nothing here is about this repository.

An offset is a `Boundary` when a part of the list before it has just this size. `split` cuts a list at an offset, `slice` and
`replaceRange` take a pair of offsets; they fail where the offset is inside of an element or behind the end. Every element
has a size above zero, so an offset cuts a list in one way only (`split_eq_some`).
-/
import Mathlib.Tactic

namespace Render.Core.Offsets

variable {α : Type} (w : α → ℕ)

/-- the size of a list -/
def total (xs : List α) : ℕ := (xs.map w).sum

def Boundary (xs : List α) (p : ℕ) : Prop := ∃ before after, xs = before ++ after ∧ total w before = p

/-- the parts before and after an offset -/
def split : List α → ℕ → Option (List α × List α)
  | xs, 0 => some ([], xs)
  | [], _ + 1 => none
  | x :: xs, p + 1 =>
    if w x ≤ p + 1 then (split xs (p + 1 - w x)).map fun parts => (x :: parts.1, parts.2) else none

/-- the part between two offsets -/
def slice (xs : List α) (i j : ℕ) : Option (List α) := do
  let (upto, _) ← split w xs j
  let (_, middle) ← split w upto i
  return middle

def replaceRange (xs : List α) (i j : ℕ) (ys : List α) : Option (List α) := do
  let (upto, rest) ← split w xs j
  let (before, _) ← split w upto i
  return before ++ ys ++ rest

/-! ## Sizes -/

variable {w} {xs before after : List α} {p : ℕ}

@[simp] theorem total_nil : total w [] = 0 := rfl

@[simp] theorem total_cons (x : α) (xs : List α) : total w (x :: xs) = w x + total w xs := by
  simp [total]

@[simp] theorem total_append (xs ys : List α) : total w (xs ++ ys) = total w xs + total w ys := by
  simp [total]

theorem Boundary.append (before after : List α) : Boundary w (before ++ after) (total w before) := ⟨before, after, rfl, rfl⟩

theorem Boundary.zero (xs : List α) : Boundary w xs 0 := ⟨[], xs, rfl, rfl⟩

theorem Boundary.end (xs : List α) : Boundary w xs (total w xs) := ⟨xs, [], (List.append_nil xs).symm, rfl⟩

theorem Boundary.le (h : Boundary w xs p) : p ≤ total w xs := by
  obtain ⟨before, after, rfl, rfl⟩ := h
  rw [total_append]
  exact Nat.le_add_right _ _

/-- what is before a boundary stays before it, whatever comes behind -/
theorem Boundary.append_left {i : ℕ} (h : Boundary w before i) (after : List α) : Boundary w (before ++ after) i := by
  obtain ⟨a, b, rfl, rfl⟩ := h
  exact ⟨a, b ++ after, by rw [List.append_assoc], rfl⟩

/-- two boundaries, in order -/
theorem Boundary.order (hw : ∀ x, 0 < w x) {i j : ℕ} (hi : Boundary w xs i) (hj : Boundary w xs j) (hij : i ≤ j) :
    ∃ before middle after, xs = before ++ middle ++ after ∧ total w before = i ∧ total w (before ++ middle) = j := by
  obtain ⟨a, b, rfl, rfl⟩ := hi
  obtain ⟨c, d, heq, rfl⟩ := hj
  rcases List.append_eq_append_iff.1 heq with ⟨middle, rfl, rfl⟩ | ⟨middle, rfl, rfl⟩
  · exact ⟨a, middle, d, by rw [List.append_assoc], rfl, rfl⟩
  · -- the second part is not longer, so the middle is empty
    rw [total_append] at hij
    have hempty : middle = [] := by
      cases middle with
      | nil => rfl
      | cons x rest =>
        have hpos := hw x
        rw [total_cons] at hij
        omega
    rw [hempty]
    exact ⟨c, [], b, by simp, by simp, by simp⟩

/-! ## Cutting a list -/

theorem split_sound {parts : List α × List α} : ∀ {xs : List α} {p : ℕ}, split w xs p = some parts →
    xs = parts.1 ++ parts.2 ∧ total w parts.1 = p
  | xs, 0, h => by
    rw [split, Option.some.injEq] at h
    rw [← h]
    exact ⟨rfl, rfl⟩
  | [], p + 1, h => by cases h
  | x :: xs, p + 1, h => by
    rw [split] at h
    split_ifs at h with hle
    obtain ⟨rest, hrest, rfl⟩ := Option.map_eq_some_iff.1 h
    obtain ⟨rfl, htotal⟩ := split_sound hrest
    refine ⟨rfl, ?_⟩
    rw [total_cons, htotal]
    omega

theorem split_append (hw : ∀ x, 0 < w x) (before after : List α) :
    split w (before ++ after) (total w before) = some (before, after) := by
  induction before with
  | nil => rw [List.nil_append, total_nil, split]
  | cons x rest ih =>
    have hpos := hw x
    obtain ⟨p, hp⟩ : ∃ p, total w (x :: rest) = p + 1 := ⟨total w (x :: rest) - 1, by rw [total_cons]; omega⟩
    have hrest : p + 1 - w x = total w rest := by rw [← hp, total_cons]; omega
    have hle : w x ≤ p + 1 := by rw [← hp, total_cons]; omega
    rw [hp, List.cons_append, split, if_pos hle, hrest, ih]
    rfl

theorem isSome_split (hw : ∀ x, 0 < w x) : (split w xs p).isSome = true ↔ Boundary w xs p := by
  rw [Option.isSome_iff_exists]
  constructor
  · rintro ⟨⟨before, after⟩, h⟩
    exact ⟨before, after, split_sound h⟩
  · rintro ⟨before, after, rfl, rfl⟩
    exact ⟨_, split_append hw before after⟩

theorem slice_append (hw : ∀ x, 0 < w x) (before middle after : List α) :
    slice w (before ++ middle ++ after) (total w before) (total w (before ++ middle)) = some middle := by
  simp only [slice, split_append hw (before ++ middle) after, split_append hw before middle, Option.bind_eq_bind,
    Option.bind_some, Option.pure_def]

theorem exists_slice (hw : ∀ x, 0 < w x) {i j : ℕ} (hi : Boundary w xs i) (hj : Boundary w xs j) (hij : i ≤ j) :
    ∃ middle, slice w xs i j = some middle := by
  obtain ⟨before, middle, after, rfl, rfl, rfl⟩ := hi.order hw hj hij
  exact ⟨middle, slice_append hw before middle after⟩

theorem replaceRange_append (hw : ∀ x, 0 < w x) (before middle after ys : List α) :
    replaceRange w (before ++ middle ++ after) (total w before) (total w (before ++ middle)) ys =
      some (before ++ ys ++ after) := by
  simp only [replaceRange, split_append hw (before ++ middle) after, split_append hw before middle, Option.bind_eq_bind,
    Option.bind_some, Option.pure_def]

/-- one size less than an element cuts in the same way -/
theorem total_inj (hw : ∀ x, 0 < w x) {b b' : List α} (h : before ++ after = b ++ b') (htotal : total w before = total w b) :
    before = b ∧ after = b' := by
  have hsplit := split_append hw before after
  rw [h, htotal, split_append hw b b', Option.some.injEq, Prod.mk.injEq] at hsplit
  exact ⟨hsplit.1.symm, hsplit.2.symm⟩

end Render.Core.Offsets
