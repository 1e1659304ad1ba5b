/-
`An+B` (`render-css/src/selector.rs`): reading the argument of `:nth-child()`, and asking an index.

The code takes all white space out of the argument before it looks at it, and reads what is left (`Squeezed`). The
grammar has white space at the ends and around the sign between `An` and `B`, and wants a sign there (`Formula`). So the
code reads what is an expression as that expression, and more besides: what is `Tidy` in neither way. Asking an index is
done in 32 bits, where `index - B` has to fit (`checkedAnPlusB`); the ideal answer is `matchesAnPlusB`.
-/
import Mathlib.Data.List.TakeWhile
import Render.Css.Matching

namespace Render.Css

open Render.Core

/-! ## Integers -/

def i32Min : ℤ := -2 ^ 31

def i32Max : ℤ := 2 ^ 31 - 1

/-- the value where it fits in 32 bits -/
def checked (value : ℤ) : Option ℤ := if i32Min ≤ value ∧ value ≤ i32Max then some value else none

def digitsValue (digits : List Char) : ℕ := digits.foldl (fun value digit => value * 10 + (digit.toNat - '0'.toNat)) 0

/-- digits without a sign, of which there is at least one -/
def unsigned (digits : List Char) : Option ℕ :=
  if digits ≠ [] ∧ digits.all Char.isDigit then some (digitsValue digits) else none

/-- `str::parse::<i32>` -/
def parseI32 : List Char → Option ℤ
  | '+' :: digits => (unsigned digits).bind fun value => checked value
  | '-' :: digits => (unsigned digits).bind fun value => checked (-value)
  | digits => (unsigned digits).bind fun value => checked value

/-! ## The parser -/

def isCssWhitespace (c : Char) : Bool := c ∈ ['\t', '\n', '\x0c', '\r', ' ']

/-- a letter in lower case, and every other character as it is -/
def asciiLower (c : Char) : Char := if 'A' ≤ c ∧ c ≤ 'Z' then Char.ofNat (c.toNat + 32) else c

/-- the characters that expressions are written in -/
def isFormula (c : Char) : Bool := c ∈ ['o', 'd', 'e', 'v', 'n', '+', '-'] || c.isDigit

/-- `char::to_lowercase`, with what is used of it: the letters of the alphabet, and that no other character turns into
one that expressions are written in -/
structure Lowercase where
  toLowercase : Char → List Char
  ascii : ∀ c, c.toNat < 128 → toLowercase c = [asciiLower c]
  other : ∀ c, 128 ≤ c.toNat → toLowercase c ≠ [] ∧ ∀ d ∈ toLowercase c, isFormula d = false

/-- the start of the clause `of`, as the text in front of it and the one behind -/
def splitNthOf (before : List Char) : List Char → Option (List Char × List Char)
  | o :: f :: blank :: rest =>
    if (o = 'o' ∨ o = 'O') ∧ (f = 'f' ∨ f = 'F') ∧ before.head?.any isCssWhitespace ∧ isCssWhitespace blank then
      some (before.reverse, blank :: rest)
    else splitNthOf (o :: before) (f :: blank :: rest)
  | _ => none

structure NthExpression (σ : Type) where
  a : ℤ
  b : ℤ
  of : Option σ

/-- the coefficient in front of `n` -/
def parseStep (text : List Char) : Except String ℤ :=
  if text = [] ∨ text = ['+'] then .ok 1
  else if text = ['-'] then .ok (-1)
  else (parseI32 text).elim (.error "invalid An coefficient") .ok

/-- what is behind `n` -/
def parseOffset (text : List Char) : Except String ℤ :=
  if text = [] then .ok 0 else (parseI32 text).elim (.error "invalid B offset") .ok

def parseFormula (normalized : List Char) : Except String (ℤ × ℤ) :=
  if normalized = ['o', 'd', 'd'] then .ok (2, 1)
  else if normalized = ['e', 'v', 'e', 'n'] then .ok (2, 0)
  else match normalized.dropWhile (· ≠ 'n') with
    | _ :: behind =>
      if 'n' ∈ behind then .error "invalid An+B expression"
      else do
        let a ← parseStep (normalized.takeWhile (· ≠ 'n'))
        let b ← parseOffset behind
        .ok (a, b)
    | [] => (parseI32 normalized).elim (.error "invalid nth index") fun b => .ok (0, b)

section

variable (lowercase : Lowercase) {σ : Type} (parseSelectorList : List Char → Except String σ)

def normalizedFormula (formula : List Char) : List Char :=
  (formula.filter fun c => !isCssWhitespace c).flatMap lowercase.toLowercase

/-- `parse_selector_list` gets what is behind `of` -/
def parseNth (input : List Char) : Except String (NthExpression σ) :=
  match splitNthOf [] input with
  | some (formula, selectors) => do
    let (a, b) ← parseFormula (normalizedFormula lowercase formula)
    let list ← parseSelectorList selectors
    .ok ⟨a, b, some list⟩
  | none => do
    let (a, b) ← parseFormula (normalizedFormula lowercase input)
    .ok ⟨a, b, none⟩

end

/-- `matches_an_plus_b` in 32 bits: `none` where the subtraction, the remainder or the quotient overflows -/
def checkedAnPlusB (a b index : ℤ) : Option Bool :=
  if a = 0 then some (index = b)
  else (checked (index - b)).bind fun difference =>
    if difference = i32Min ∧ a = -1 then none
    else some (difference.tmod a = 0 && 0 ≤ difference.tdiv a)

/-! ## Asking an index -/

/-- the index is one of `A * n + B` -/
def Solves (a b index : ℤ) : Prop := ∃ n : ℕ, index = a * n + b

theorem matchesAnPlusB_iff (a b index : ℤ) : matchesAnPlusB a b index ↔ Solves a b index := by
  rw [matchesAnPlusB]
  by_cases ha : a = 0
  · simp [ha, Solves]
  · rw [if_neg ha]
    simp only [Bool.and_eq_true, decide_eq_true_eq]
    constructor
    · rintro ⟨hmod, hdiv⟩
      refine ⟨((index - b).tdiv a).toNat, ?_⟩
      have hsum := Int.mul_tdiv_add_tmod (index - b) a
      rw [Int.toNat_of_nonneg hdiv]
      omega
    · rintro ⟨n, rfl⟩
      have hdifference : a * n + b - b = a * n := by omega
      rw [hdifference]
      exact ⟨Int.mul_tmod_right a n, by rw [Int.mul_tdiv_cancel_left _ ha]; omega⟩

/-- in 32 bits the answer is the ideal one, unless the index is too far behind `B` -/
theorem checkedAnPlusB_iff {a b index : ℤ} (hb : b ≤ i32Max) (hindex : 1 ≤ index) :
    checkedAnPlusB a b index = some (matchesAnPlusB a b index) ↔ a = 0 ∨ index - b ≤ i32Max := by
  rw [checkedAnPlusB, matchesAnPlusB]
  by_cases ha : a = 0
  · simp [ha]
  · rw [if_neg ha, if_neg ha]
    have hlow : i32Min < index - b := by
      simp only [i32Min, i32Max] at hb ⊢
      omega
    by_cases hfits : index - b ≤ i32Max
    · rw [checked, if_pos ⟨hlow.le, hfits⟩, Option.bind_some, if_neg fun h => hlow.ne' h.1]
      simp [hfits]
    · rw [checked, if_neg fun h => hfits h.2]
      simp [ha, hfits]

/-! ## The grammar -/

def isSign (c : Char) : Bool := c ∈ ['+', '-']

/-- the coefficient of `n` -/
inductive Step : List Char → ℤ → Prop
  | one : Step [] 1
  | plus : Step ['+'] 1
  | minus : Step ['-'] (-1)
  | integer {text : List Char} {a : ℤ} (h : parseI32 text = some a) : Step text a

/-- an expression in lower case, with white space around the sign between `An` and `B` -/
inductive Formula : List Char → ℤ → ℤ → Prop
  | odd : Formula ['o', 'd', 'd'] 2 1
  | even : Formula ['e', 'v', 'e', 'n'] 2 0
  | integer {text : List Char} {b : ℤ} (h : parseI32 text = some b) : Formula text 0 b
  | step {text : List Char} {a : ℤ} (h : Step text a) : Formula (text ++ ['n']) a 0
  | offset {text blanks blanks' digits : List Char} {sign : Char} {a b : ℤ} (h : Step text a)
      (hblanks : ∀ c ∈ blanks, isCssWhitespace c) (hblanks' : ∀ c ∈ blanks', isCssWhitespace c)
      (hsign : isSign sign) (hb : parseI32 (sign :: digits) = some b) :
      Formula (text ++ 'n' :: (blanks ++ sign :: (blanks' ++ digits))) a b

/-- an expression with white space at its ends, in either case -/
def AnPlusB (text : List Char) (a b : ℤ) : Prop :=
  ∃ left body right, text.map asciiLower = left ++ body ++ right ∧ (∀ c ∈ left, isCssWhitespace c) ∧
    (∀ c ∈ right, isCssWhitespace c) ∧ Formula body a b

/-- what the code reads: the words of expressions, with or without the sign of `B` -/
inductive Squeezed : List Char → ℤ → ℤ → Prop
  | odd : Squeezed ['o', 'd', 'd'] 2 1
  | even : Squeezed ['e', 'v', 'e', 'n'] 2 0
  | integer {text : List Char} {b : ℤ} (h : parseI32 text = some b) : Squeezed text 0 b
  | step {text : List Char} {a : ℤ} (h : Step text a) : Squeezed (text ++ ['n']) a 0
  | offset {text behind : List Char} {a b : ℤ} (h : Step text a) (hb : parseI32 behind = some b) :
      Squeezed (text ++ 'n' :: behind) a b

/-! ## Words -/

theorem parseI32_chars {text : List Char} {value : ℤ} (h : parseI32 text = some value) :
    ∀ c ∈ text, isSign c ∨ c.isDigit := by
  have hunsigned {digits : List Char} {value : ℕ} (h : unsigned digits = some value) : ∀ c ∈ digits, c.isDigit := by
    rw [unsigned] at h
    split_ifs at h with hdigits
    exact List.all_eq_true.1 hdigits.2
  unfold parseI32 at h
  split at h
  · obtain ⟨value, hvalue, -⟩ := Option.bind_eq_some_iff.1 h
    exact List.forall_mem_cons.2 ⟨Or.inl (by decide), fun c hc => Or.inr (hunsigned hvalue c hc)⟩
  · obtain ⟨value, hvalue, -⟩ := Option.bind_eq_some_iff.1 h
    exact List.forall_mem_cons.2 ⟨Or.inl (by decide), fun c hc => Or.inr (hunsigned hvalue c hc)⟩
  · obtain ⟨value, hvalue, -⟩ := Option.bind_eq_some_iff.1 h
    exact fun c hc => Or.inr (hunsigned hvalue c hc)

theorem parseI32_ne_nil {text : List Char} {value : ℤ} (h : parseI32 text = some value) : text ≠ [] := by
  rintro rfl
  cases h

theorem step_chars {text : List Char} {a : ℤ} (h : Step text a) : ∀ c ∈ text, isSign c ∨ c.isDigit := by
  cases h with
  | one => nofun
  | plus => simp [isSign]
  | minus => simp [isSign]
  | integer h => exact parseI32_chars h

/-- what signs and digits are not -/
theorem sign_or_digit {c : Char} (h : isSign c ∨ c.isDigit) :
    c ≠ 'n' ∧ isCssWhitespace c = false ∧ isFormula c := by
  refine ⟨?_, ?_, ?_⟩
  · rintro rfl
    revert h
    decide
  · by_contra hblank
    simp only [Bool.not_eq_false, isCssWhitespace, decide_eq_true_eq, List.mem_cons, List.not_mem_nil,
      or_false] at hblank
    rcases hblank with rfl | rfl | rfl | rfl | rfl <;> revert h <;> decide
  · rcases h with hsign | hdigit
    · simp only [isSign, decide_eq_true_eq, List.mem_cons, List.not_mem_nil, or_false] at hsign
      rcases hsign with rfl | rfl <;> decide
    · simp [isFormula, hdigit]

theorem not_mem_n {text : List Char} (h : ∀ c ∈ text, isSign c ∨ c.isDigit) : 'n' ∉ text :=
  fun hmem => (sign_or_digit (h _ hmem)).1 rfl

/-! ## The parser reads squeezed words -/

theorem elim_eq_ok_iff {β : Type} (value : Option β) (message : String) (result : β) :
    value.elim (.error message) .ok = (.ok result : Except String β) ↔ value = some result := by
  cases value <;> simp

theorem parseStep_eq_ok_iff (text : List Char) (a : ℤ) : parseStep text = .ok a ↔ Step text a := by
  rw [parseStep]
  by_cases hone : text = [] ∨ text = ['+']
  · rw [if_pos hone]
    constructor
    · intro h
      cases h
      rcases hone with rfl | rfl
      · exact .one
      · exact .plus
    · intro h
      rcases hone with rfl | rfl <;> cases h with
      | integer h => cases h
      | _ => rfl
  · rw [if_neg hone]
    by_cases hminus : text = ['-']
    · rw [if_pos hminus]
      constructor
      · intro h
        cases h
        rw [hminus]
        exact .minus
      · intro h
        subst hminus
        cases h with
        | minus => rfl
        | integer h => cases h
    · rw [if_neg hminus, elim_eq_ok_iff]
      refine ⟨.integer, fun h => ?_⟩
      cases h with
      | one => exact absurd (Or.inl rfl) hone
      | plus => exact absurd (Or.inr rfl) hone
      | minus => exact absurd rfl hminus
      | integer h => exact h

theorem parseOffset_eq_ok_iff (text : List Char) (b : ℤ) :
    parseOffset text = .ok b ↔ text = [] ∧ b = 0 ∨ parseI32 text = some b := by
  rw [parseOffset]
  by_cases hnil : text = []
  · subst hnil
    simp [parseI32, unsigned, eq_comm]
  · rw [if_neg hnil, elim_eq_ok_iff]
    simp [hnil]

theorem parseFormula_step {text behind : List Char} {a : ℤ} (h : Step text a) (hbehind : 'n' ∉ behind) :
    parseFormula (text ++ 'n' :: behind) = (parseOffset behind).bind fun b => .ok (a, b) := by
  have hchars := step_chars h
  have hbefore : ∀ c ∈ text, (fun c => Decidable.decide (c ≠ 'n')) c = true := fun c hc =>
    decide_eq_true (sign_or_digit (hchars c hc)).1
  have hodd : text ++ 'n' :: behind ≠ ['o', 'd', 'd'] := by
    intro hword
    have hmem : 'n' ∈ text ++ 'n' :: behind := by simp
    rw [hword] at hmem
    exact absurd hmem (by decide)
  have heven : text ++ 'n' :: behind ≠ ['e', 'v', 'e', 'n'] := by
    intro hword
    cases text with
    | nil => simp at hword
    | cons c rest =>
      have hc := hchars c (List.mem_cons_self ..)
      rw [List.cons_append, List.cons.injEq] at hword
      rw [hword.1] at hc
      exact absurd hc (by decide)
  rw [parseFormula, if_neg hodd, if_neg heven, List.dropWhile_append_of_pos hbefore,
    List.takeWhile_append_of_pos hbefore]
  simp only [List.dropWhile_cons, List.takeWhile_cons, ne_eq, not_true_eq_false, decide_false, Bool.false_eq_true,
    if_false, List.append_nil, hbehind, (parseStep_eq_ok_iff text a).2 h]
  rfl

theorem parseFormula_eq_ok_iff (word : List Char) (a b : ℤ) : parseFormula word = .ok (a, b) ↔ Squeezed word a b := by
  constructor
  · intro h
    rw [parseFormula] at h
    split_ifs at h with hodd heven
    · cases h
      rw [hodd]
      exact .odd
    · cases h
      rw [heven]
      exact .even
    · have hword := List.takeWhile_append_dropWhile (p := fun c => c ≠ 'n') (l := word)
      cases hrest : word.dropWhile (fun c => c ≠ 'n') with
      | nil =>
        rw [hrest] at h
        cases hvalue : parseI32 word with
        | none => simp [hvalue] at h
        | some value =>
          obtain ⟨rfl, rfl⟩ : (0 : ℤ) = a ∧ value = b := by simpa [hvalue] using h
          exact .integer hvalue
      | cons n behind =>
        have hn : n = 'n' := by
          have hhead := List.head?_dropWhile_not (fun c => Decidable.decide (c ≠ 'n')) word
          rw [hrest] at hhead
          simpa using hhead
        rw [hrest, hn] at hword
        rw [hrest] at h
        dsimp only at h
        split_ifs at h
        obtain ⟨a', hstep, h⟩ := bind_eq_ok.1 h
        obtain ⟨b', hoffset, h⟩ := bind_eq_ok.1 h
        cases h
        rw [parseStep_eq_ok_iff] at hstep
        rw [← hword]
        rcases (parseOffset_eq_ok_iff behind b).1 hoffset with ⟨rfl, rfl⟩ | hoffset
        · exact .step hstep
        · exact .offset hstep hoffset
  · intro h
    cases h with
    | odd => rfl
    | even => rfl
    | integer h =>
      have hrest : word.dropWhile (fun c => c ≠ 'n') = [] :=
        List.dropWhile_eq_nil_iff.2 fun c hc => decide_eq_true (sign_or_digit (parseI32_chars h c hc)).1
      rw [parseFormula, if_neg (by rintro rfl; cases h), if_neg (by rintro rfl; cases h), hrest]
      simp [h]
    | step h => exact (parseFormula_step h (by simp)).trans (by rfl)
    | offset h hb =>
      rw [parseFormula_step h (not_mem_n (parseI32_chars hb)), (parseOffset_eq_ok_iff _ _).2 (Or.inr hb)]
      rfl

/-! ## Expressions and squeezed words -/

/-- white space stands at the ends and around a sign behind `n` only, and no digit directly behind `n` -/
inductive Tidy : List Char → Prop
  | plain {left core right : List Char} (hleft : ∀ c ∈ left, isCssWhitespace c)
      (hright : ∀ c ∈ right, isCssWhitespace c) (hcore : ∀ c ∈ core, isCssWhitespace c = false)
      (hdigit : ∀ before digit behind, core = before ++ 'n' :: digit :: behind → digit.isDigit = false) :
      Tidy (left ++ core ++ right)
  | spaced {left before blanks blanks' behind right : List Char} {sign : Char}
      (hleft : ∀ c ∈ left, isCssWhitespace c) (hright : ∀ c ∈ right, isCssWhitespace c)
      (hbefore : ∀ c ∈ before, isCssWhitespace c = false) (hbehind : ∀ c ∈ behind, isCssWhitespace c = false)
      (hblanks : ∀ c ∈ blanks, isCssWhitespace c) (hblanks' : ∀ c ∈ blanks', isCssWhitespace c) (hsign : isSign sign) :
      Tidy (left ++ (before ++ 'n' :: (blanks ++ sign :: (blanks' ++ behind))) ++ right)

/-- the text without its white space -/
def squeezed (text : List Char) : List Char := text.filter fun c => !isCssWhitespace c

theorem squeezed_blank {text : List Char} (h : ∀ c ∈ text, isCssWhitespace c) : squeezed text = [] := by
  simpa [squeezed] using h

theorem squeezed_word {text : List Char} (h : ∀ c ∈ text, isCssWhitespace c = false) : squeezed text = text := by
  rw [squeezed, List.filter_eq_self]
  simpa using h

@[simp] theorem squeezed_append (text more : List Char) : squeezed (text ++ more) = squeezed text ++ squeezed more :=
  List.filter_append ..

theorem squeezed_cons {c : Char} (h : isCssWhitespace c = false) (text : List Char) :
    squeezed (c :: text) = c :: squeezed text := by
  simp [squeezed, h]

theorem tidy_of_last {left word right : List Char} (hleft : ∀ c ∈ left, isCssWhitespace c)
    (hright : ∀ c ∈ right, isCssWhitespace c) (hword : ∀ c ∈ word, isCssWhitespace c = false) (hn : 'n' ∉ word) :
    Tidy (left ++ (word ++ ['n']) ++ right) := by
  refine .plain hleft hright (fun c hc => ?_) fun before digit behind hcore => ?_
  · rcases List.mem_append.1 hc with hmem | hmem
    · exact hword c hmem
    · rw [List.mem_singleton.1 hmem]
      decide
  · have hparts := (List.append_cons_inj_of_notMem hn (by simp)).1 hcore
    simp at hparts

theorem tidy_of_plain {left word right : List Char} (hleft : ∀ c ∈ left, isCssWhitespace c)
    (hright : ∀ c ∈ right, isCssWhitespace c) (hword : ∀ c ∈ word, isCssWhitespace c = false) (hn : 'n' ∉ word) :
    Tidy (left ++ word ++ right) := by
  refine .plain hleft hright hword fun before digit behind hcore => ?_
  rw [hcore] at hn
  simp at hn

/-- an expression is tidy, and without its white space it is a squeezed word -/
theorem tidy_of_formula {left body right : List Char} {a b : ℤ} (hleft : ∀ c ∈ left, isCssWhitespace c)
    (hright : ∀ c ∈ right, isCssWhitespace c) (h : Formula body a b) :
    Squeezed (squeezed body) a b ∧ Tidy (left ++ body ++ right) := by
  have hblank {word : List Char} (hchars : ∀ c ∈ word, isSign c ∨ c.isDigit) : ∀ c ∈ word, isCssWhitespace c = false :=
    fun c hc => (sign_or_digit (hchars c hc)).2.1
  cases h with
  | odd => exact ⟨.odd, tidy_of_plain hleft hright (by simp [isCssWhitespace]) (by decide)⟩
  | even => exact ⟨.even, @tidy_of_last left ['e', 'v', 'e'] right hleft hright (by simp [isCssWhitespace]) (by decide)⟩
  | integer h =>
    have hchars := parseI32_chars h
    rw [squeezed_word (hblank hchars)]
    exact ⟨.integer h, tidy_of_plain hleft hright (hblank hchars) (not_mem_n hchars)⟩
  | @step text a h =>
    have hchars := step_chars h
    rw [squeezed_append, squeezed_word (hblank hchars)]
    exact ⟨.step h, tidy_of_last hleft hright (hblank hchars) (not_mem_n hchars)⟩
  | @offset text blanks blanks' digits sign a b h hblanks hblanks' hsign hb =>
    have hchars := step_chars h
    have hoffset := parseI32_chars hb
    have hdigits : ∀ c ∈ digits, isCssWhitespace c = false :=
      hblank fun c hc => hoffset c (List.mem_cons_of_mem _ hc)
    have hsqueezed : squeezed (text ++ 'n' :: (blanks ++ sign :: (blanks' ++ digits))) =
        text ++ 'n' :: sign :: digits := by
      rw [squeezed_append, squeezed_word (hblank hchars), squeezed_cons (by decide), squeezed_append,
        squeezed_blank hblanks, squeezed_cons (sign_or_digit (Or.inl hsign)).2.1, squeezed_append,
        squeezed_blank hblanks', squeezed_word hdigits]
      rfl
    rw [hsqueezed]
    exact ⟨.offset h hb, .spaced hleft hright (hblank hchars) hdigits hblanks hblanks' hsign⟩

theorem formula_of_plain {core : List Char} {a b : ℤ} (h : Squeezed core a b)
    (hdigit : ∀ before digit behind, core = before ++ 'n' :: digit :: behind → digit.isDigit = false) :
    Formula core a b := by
  cases h with
  | odd => exact .odd
  | even => exact .even
  | integer h => exact .integer h
  | step h => exact .step h
  | @offset text behind a b h hb =>
    cases behind with
    | nil => exact absurd rfl (parseI32_ne_nil hb)
    | cons c rest =>
      have hsign := (parseI32_chars hb c (List.mem_cons_self ..)).resolve_right fun hc => by
        simp [hdigit text c rest rfl] at hc
      exact @Formula.offset text [] [] rest c a b h (by simp) (by simp) hsign hb

theorem formula_of_spaced {before blanks blanks' behind : List Char} {sign : Char} {a b : ℤ}
    (h : Squeezed (before ++ 'n' :: sign :: behind) a b) (hblanks : ∀ c ∈ blanks, isCssWhitespace c)
    (hblanks' : ∀ c ∈ blanks', isCssWhitespace c) (hsign : isSign sign) :
    Formula (before ++ 'n' :: (blanks ++ sign :: (blanks' ++ behind))) a b := by
  have hmem : 'n' ∈ before ++ 'n' :: sign :: behind := by simp
  generalize hword : before ++ 'n' :: sign :: behind = word at h hmem
  cases h with
  | odd => exact absurd hmem (by decide)
  | even =>
    have heve : ['e', 'v', 'e'] ++ 'n' :: [] = before ++ 'n' :: sign :: behind := hword.symm
    have hparts := (List.append_cons_inj_of_notMem (by decide) (by decide)).1 heve
    simp at hparts
  | integer h => exact absurd hmem (not_mem_n (parseI32_chars h))
  | @step text a h =>
    have hparts := (List.append_cons_inj_of_notMem (not_mem_n (step_chars h)) (by simp)).1 hword.symm
    simp at hparts
  | @offset text more a b h hb =>
    have hparts := (List.append_cons_inj_of_notMem (not_mem_n (step_chars h)) (not_mem_n (parseI32_chars hb))).1
      hword.symm
    obtain ⟨rfl, -, rfl⟩ := hparts
    exact .offset h hblanks hblanks' hsign hb

/-- **Expressions are the tidy texts of squeezed words.** -/
theorem formula_iff_squeezed (text : List Char) (a b : ℤ) :
    (∃ left body right, text = left ++ body ++ right ∧ (∀ c ∈ left, isCssWhitespace c) ∧
      (∀ c ∈ right, isCssWhitespace c) ∧ Formula body a b) ↔ Squeezed (squeezed text) a b ∧ Tidy text := by
  constructor
  · rintro ⟨left, body, right, rfl, hleft, hright, h⟩
    obtain ⟨hsqueezed, htidy⟩ := tidy_of_formula hleft hright h
    rw [squeezed_append, squeezed_append, squeezed_blank hleft, squeezed_blank hright, List.append_nil]
    exact ⟨hsqueezed, htidy⟩
  · rintro ⟨hsqueezed, htidy⟩
    cases htidy with
    | @plain left core right hleft hright hcore hdigit =>
      rw [squeezed_append, squeezed_append, squeezed_blank hleft, squeezed_blank hright, List.append_nil,
        squeezed_word hcore] at hsqueezed
      exact ⟨left, core, right, rfl, hleft, hright, formula_of_plain hsqueezed hdigit⟩
    | @spaced left before blanks blanks' behind right sign hleft hright hbefore hbehind hblanks hblanks' hsign =>
      rw [squeezed_append, squeezed_append, squeezed_blank hleft, squeezed_blank hright, List.append_nil,
        squeezed_append, squeezed_word hbefore, squeezed_cons (by decide), squeezed_append, squeezed_blank hblanks,
        squeezed_cons (sign_or_digit (Or.inl hsign)).2.1, squeezed_append, squeezed_blank hblanks',
        squeezed_word hbehind] at hsqueezed
      exact ⟨left, _, right, rfl, hleft, hright, formula_of_spaced hsqueezed hblanks hblanks' hsign⟩

/-! ## Lower case -/

theorem squeezed_chars {word : List Char} {a b : ℤ} (h : Squeezed word a b) : ∀ c ∈ word, isFormula c := by
  have hformula {word : List Char} (hchars : ∀ c ∈ word, isSign c ∨ c.isDigit) : ∀ c ∈ word, isFormula c :=
    fun c hc => (sign_or_digit (hchars c hc)).2.2
  cases h with
  | odd => exact List.all_eq_true.1 (show ['o', 'd', 'd'].all isFormula by decide)
  | even => exact List.all_eq_true.1 (show ['e', 'v', 'e', 'n'].all isFormula by decide)
  | integer h => exact hformula (parseI32_chars h)
  | step h =>
    intro c hc
    rcases List.mem_append.1 hc with hmem | hmem
    · exact hformula (step_chars h) c hmem
    · rw [List.mem_singleton.1 hmem]
      decide
  | offset h hb =>
    intro c hc
    rcases List.mem_append.1 hc with hmem | hmem
    · exact hformula (step_chars h) c hmem
    · rcases List.mem_cons.1 hmem with rfl | hmem
      · decide
      · exact hformula (parseI32_chars hb) c hmem

theorem toNat_le_of_blank {c : Char} (h : isCssWhitespace c) : c.toNat ≤ 32 := by
  simp only [isCssWhitespace, decide_eq_true_eq, List.mem_cons, List.not_mem_nil, or_false] at h
  rcases h with rfl | rfl | rfl | rfl | rfl <;> decide

theorem toNat_of_upper {c : Char} (h : 'A' ≤ c ∧ c ≤ 'Z') : 65 ≤ c.toNat ∧ c.toNat ≤ 90 := h

theorem toNat_lt_of_formula {c : Char} (h : isFormula c) : c.toNat < 128 := by
  rw [isFormula, Bool.or_eq_true] at h
  rcases h with hletter | hdigit
  · simp only [decide_eq_true_eq, List.mem_cons, List.not_mem_nil, or_false] at hletter
    rcases hletter with rfl | rfl | rfl | rfl | rfl | rfl | rfl <;> decide
  · have hle : c.toNat ≤ 57 := (Bool.and_eq_true_iff.1 hdigit).2 |> of_decide_eq_true
    omega

theorem isCssWhitespace_asciiLower (c : Char) : isCssWhitespace (asciiLower c) = isCssWhitespace c := by
  rw [asciiLower]
  split_ifs with hupper
  · obtain ⟨hlow, hhigh⟩ := toNat_of_upper hupper
    have hlower : (Char.ofNat (c.toNat + 32)).toNat = c.toNat + 32 := by
      have hvalid : Nat.isValidChar (c.toNat + 32) := Or.inl (by omega)
      rw [Char.ofNat, dif_pos hvalid]
      rfl
    have hnot : isCssWhitespace (Char.ofNat (c.toNat + 32)) = false := by
      by_contra h
      have hle := toNat_le_of_blank (by simpa using h)
      omega
    have hnot' : isCssWhitespace c = false := by
      by_contra h
      have hle := toNat_le_of_blank (by simpa using h)
      omega
    rw [hnot, hnot']
  · rfl

section

variable (lowercase : Lowercase)

/-- white space comes out of the text before its letters are folded, or after -/
theorem squeezed_normalized (text : List Char) (a b : ℤ) :
    Squeezed (normalizedFormula lowercase text) a b ↔ Squeezed (squeezed (text.map asciiLower)) a b := by
  have hfolded : squeezed (text.map asciiLower) = (squeezed text).map asciiLower := by
    rw [squeezed, squeezed, List.filter_map]
    simp only [Function.comp_def, isCssWhitespace_asciiLower]
  rw [hfolded, normalizedFormula, show text.filter (fun c => !isCssWhitespace c) = squeezed text from rfl]
  by_cases hascii : ∀ c ∈ squeezed text, c.toNat < 128
  · have hsame : (squeezed text).flatMap lowercase.toLowercase = (squeezed text).map asciiLower := by
      rw [List.map_eq_flatMap]
      exact List.flatMap_congr fun c hc => lowercase.ascii c (hascii c hc)
    rw [hsame]
  · push Not at hascii
    obtain ⟨c, hc, hother⟩ := hascii
    obtain ⟨hne, hformula⟩ := lowercase.other c hother
    constructor
    · intro h
      obtain ⟨d, hd⟩ := List.exists_mem_of_ne_nil _ hne
      have hword := squeezed_chars h d (List.mem_flatMap.2 ⟨c, hc, hd⟩)
      rw [hformula d hd] at hword
      cases hword
    · intro h
      have hword := squeezed_chars h (asciiLower c) (List.mem_map_of_mem hc)
      have hsame : asciiLower c = c := by
        refine if_neg fun hupper => ?_
        have hle := (toNat_of_upper hupper).2
        omega
      rw [hsame] at hword
      exact absurd (toNat_lt_of_formula hword) (Nat.not_lt.2 hother)

/-! ## The argument and the index -/

/-- the argument is read exactly when it is an expression, and then the index is asked exactly -/
def NthExact {σ : Type} (parseSelectorList : List Char → Except String σ) (input : List Char) (index : ℤ) : Prop :=
  ((∃ expression, parseNth lowercase parseSelectorList input = .ok expression) ↔ ∃ a b, AnPlusB input a b) ∧
    ∀ expression, parseNth lowercase parseSelectorList input = .ok expression →
      ∃ result, checkedAnPlusB expression.a expression.b index = some result ∧
        (result = true ↔ Solves expression.a expression.b index)

theorem parseNth_eq_ok_iff {σ : Type} (parseSelectorList : List Char → Except String σ) {input : List Char}
    (hof : splitNthOf [] input = none) (expression : NthExpression σ) :
    parseNth lowercase parseSelectorList input = .ok expression ↔
      Squeezed (squeezed (input.map asciiLower)) expression.a expression.b ∧ expression.of = none := by
  rw [parseNth, hof, ← squeezed_normalized lowercase, ← parseFormula_eq_ok_iff]
  dsimp only
  rw [bind_eq_ok]
  constructor
  · rintro ⟨⟨a, b⟩, hformula, h⟩
    cases h
    exact ⟨hformula, rfl⟩
  · rintro ⟨hformula, hnone⟩
    refine ⟨_, hformula, ?_⟩
    rw [← hnone]

theorem parseI32_le {text : List Char} {value : ℤ} (h : parseI32 text = some value) : value ≤ i32Max := by
  have hchecked {exact value : ℤ} (h : checked exact = some value) : value ≤ i32Max := by
    rw [checked] at h
    split_ifs at h with hfits
    cases h
    exact hfits.2
  unfold parseI32 at h
  split at h
  all_goals
    obtain ⟨_, _, hvalue⟩ := Option.bind_eq_some_iff.1 h
    exact hchecked hvalue

theorem squeezed_range {word : List Char} {a b : ℤ} (h : Squeezed word a b) : b ≤ i32Max := by
  cases h with
  | odd => decide
  | even => decide
  | integer h => exact parseI32_le h
  | step => decide
  | offset _ hb => exact parseI32_le hb

/-- **An argument is read exactly where it is tidy.** -/
theorem nthExact_iff {σ : Type} (parseSelectorList : List Char → Except String σ) {input : List Char} {index : ℤ}
    (hof : splitNthOf [] input = none) (hindex : 1 ≤ index) :
    NthExact lowercase parseSelectorList input index ↔
      ((∃ a b, Squeezed (squeezed (input.map asciiLower)) a b) → Tidy (input.map asciiLower)) ∧
        ∀ a b, Squeezed (squeezed (input.map asciiLower)) a b → a = 0 ∨ index - b ≤ i32Max := by
  have hread : (∃ expression, parseNth lowercase parseSelectorList input = .ok expression) ↔
      ∃ a b, Squeezed (squeezed (input.map asciiLower)) a b := by
    constructor
    · rintro ⟨expression, h⟩
      exact ⟨_, _, ((parseNth_eq_ok_iff lowercase parseSelectorList hof expression).1 h).1⟩
    · rintro ⟨a, b, h⟩
      exact ⟨⟨a, b, none⟩, (parseNth_eq_ok_iff lowercase parseSelectorList hof _).2 ⟨h, rfl⟩⟩
  have hexpression : (∃ a b, AnPlusB input a b) ↔
      (∃ a b, Squeezed (squeezed (input.map asciiLower)) a b) ∧ Tidy (input.map asciiLower) := by
    constructor
    · rintro ⟨a, b, h⟩
      obtain ⟨hsqueezed, htidy⟩ := (formula_iff_squeezed _ a b).1 h
      exact ⟨⟨a, b, hsqueezed⟩, htidy⟩
    · rintro ⟨⟨a, b, hsqueezed⟩, htidy⟩
      exact ⟨a, b, (formula_iff_squeezed _ a b).2 ⟨hsqueezed, htidy⟩⟩
  rw [NthExact, hread, hexpression]
  refine and_congr ⟨fun h hsqueezed => (h.1 hsqueezed).2, fun h => ⟨fun hs => ⟨hs, h hs⟩, And.left⟩⟩ ?_
  constructor
  · intro h a b hsqueezed
    have hexpression := (parseNth_eq_ok_iff lowercase parseSelectorList hof ⟨a, b, none⟩).2 ⟨hsqueezed, rfl⟩
    obtain ⟨result, hresult, hsolves⟩ := h _ hexpression
    rw [← matchesAnPlusB_iff, ← Bool.eq_iff_iff] at hsolves
    rw [hsolves] at hresult
    exact (checkedAnPlusB_iff (squeezed_range hsqueezed) hindex).1 hresult
  · intro h expression hexpression
    have hsqueezed := ((parseNth_eq_ok_iff lowercase parseSelectorList hof expression).1 hexpression).1
    exact ⟨_, (checkedAnPlusB_iff (squeezed_range hsqueezed) hindex).2 (h _ _ hsqueezed), matchesAnPlusB_iff ..⟩

end

/-- folding that leaves the characters outside ASCII as they are -/
def asciiOnly : Lowercase where
  toLowercase c := [asciiLower c]
  ascii _ _ := rfl
  other c hc := by
    have hsame : asciiLower c = c := by
      refine if_neg fun hupper => ?_
      have hle := (toNat_of_upper hupper).2
      omega
    refine ⟨by simp, fun d hd => ?_⟩
    rw [List.mem_singleton.1 hd, hsame]
    by_contra hformula
    exact absurd (toNat_lt_of_formula (by simpa using hformula)) (Nat.not_lt.2 hc)

theorem nthExact_iff_spaced :
    NthExact asciiOnly (fun _ => Except.ok ()) ['2', 'n', ' ', '+', ' ', '1'] 3 := by
  refine (nthExact_iff asciiOnly _ (by decide) (by decide)).2 ⟨fun _ => ?_, fun a b h => ?_⟩
  · have hsign : isSign '+' := by decide
    have h := @Tidy.spaced [] ['2'] [' '] [' '] ['1'] [] '+' (by simp) (by simp)
      (by simp [isCssWhitespace]) (by simp [isCssWhitespace]) (by simp [isCssWhitespace]) (by simp [isCssWhitespace]) hsign
    exact h
  · rw [← parseFormula_eq_ok_iff] at h
    cases h
    exact Or.inr (by decide)

/-- digits that were apart are read as one number -/
theorem not_nthExact : ¬ ∀ (input : List Char) (index : ℤ), splitNthOf [] input = none → 1 ≤ index →
    NthExact asciiOnly (fun _ => Except.ok ()) input index := by
  intro h
  obtain ⟨a, b, hexpression⟩ := (h ['1', ' ', '2'] 12 (by decide) (by decide)).1.1 ⟨⟨0, 12, none⟩, by rfl⟩
  have htidy := ((formula_iff_squeezed _ a b).1 hexpression).2
  generalize htext : ['1', ' ', '2'].map asciiLower = text at htidy
  have hword : text = ['1', ' ', '2'] := by
    rw [← htext]
    decide
  cases htidy with
  | @spaced left before blanks blanks' behind right sign =>
    have hmem : 'n' ∈ ['1', ' ', '2'] := by
      rw [← hword]
      simp
    exact absurd hmem (by decide)
  | @plain left core right hleft hright hcore =>
    have hblank : ' ' ∈ left ++ core ++ right := by
      rw [hword]
      decide
    have hone : (left ++ core ++ right).head? = some '1' := by rw [hword]; rfl
    have htwo : (left ++ core ++ right).getLast? = some '2' := by rw [hword]; rfl
    cases left with
    | cons c rest =>
      rw [List.cons_append, List.cons_append, List.head?_cons, Option.some.injEq] at hone
      exact absurd (hleft c (List.mem_cons_self ..)) (by rw [hone]; decide)
    | nil =>
      rcases List.eq_nil_or_concat right with rfl | ⟨rest, c, rfl⟩
      · rw [List.nil_append, List.append_nil] at hblank
        exact absurd (hcore _ hblank) (by decide)
      · rw [List.concat_eq_append, ← List.append_assoc, List.getLast?_concat, Option.some.injEq] at htwo
        exact absurd (hright c (by simp)) (by rw [htwo]; decide)

end Render.Css
