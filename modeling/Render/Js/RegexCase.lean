/-
Case-insensitive matching. Literals, back-references and single members of a class compare canonical forms; a range or
a shorthand in a class is tested through three case variants of the character alone (`case_variants`), and a
back-reference compares code units. Where the classes of a pattern and the units that a back-reference reads do not tell
two inputs apart, nothing does (`find_alike`): two inputs of the same canonical forms have the same matches.

`/[a-z]/iu` tells `s` from `ſ`, which folds to it: none of the variants of `ſ` is in the range (`find_alike_fails`).
-/
import Render.Js.RegexBoundaries

namespace Render.Js.Regex

variable {Property : Type}

/-! ## The case tables -/

/-- ASCII letters, digits and the underscore -/
def isAsciiWord (value : ℕ) : Bool :=
  (0x30 ≤ value && value ≤ 0x39) || (0x41 ≤ value && value ≤ 0x5a) || (0x61 ≤ value && value ≤ 0x7a) || value = 0x5f

/-- what the matcher relies on in the Unicode case tables: line terminators have no part in them, and of the characters
outside ASCII only `ſ`, `ı` and the Kelvin sign are mapped to ASCII letters -/
structure UnicodeCase (tables : Tables Property) : Prop where
  upper_line : ∀ c d, singleChar (tables.toUppercase c) = some d →
    isLineTerminator c = true ∨ isLineTerminator d = true → d = c
  lower_line : ∀ c d, singleChar (tables.toLowercase c) = some d →
    isLineTerminator c = true ∨ isLineTerminator d = true → d = c
  upper_word : ∀ c, isAsciiWord c = true → ∃ d, singleChar (tables.toUppercase c) = some d ∧ isAsciiWord d = true
  lower_word : ∀ c, isAsciiWord c = true → ∃ d, singleChar (tables.toLowercase c) = some d ∧ isAsciiWord d = true
  of_upper_word : ∀ c d, singleChar (tables.toUppercase c) = some d → isAsciiWord d = true →
    isAsciiWord c = true ∨ c = 0x17f ∨ c = 0x131
  of_lower_word : ∀ c d, singleChar (tables.toLowercase c) = some d → isAsciiWord d = true →
    isAsciiWord c = true ∨ c = 0x212a
  upper_long_s : singleChar (tables.toUppercase 0x17f) = some 0x53
  upper_kelvin : singleChar (tables.toUppercase 0x212a) = some 0x212a
  lower_kelvin : singleChar (tables.toLowercase 0x212a) = some 0x6b
  of_upper_kelvin : ∀ c, singleChar (tables.toUppercase c) = some 0x212a → c = 0x212a

section Canonical

variable {tables : Tables Property}

theorem isAsciiWord_lt {value : ℕ} (h : isAsciiWord value = true) : value < 128 := by
  simp only [isAsciiWord, Bool.or_eq_true, Bool.and_eq_true, decide_eq_true_eq] at h
  omega

theorem isChar_of_lt {value : ℕ} (h : value < 0xd800) : isChar value = true := by
  simp only [isChar, Bool.and_eq_true, Bool.not_eq_true', decide_eq_true_eq, Bool.and_eq_false_iff,
    decide_eq_false_iff_not]
  omega

theorem isWord_eq (value : ℕ) {flags : Flags} (hi : flags.ignoreCase = true) :
    isWord value flags = (isAsciiWord value || (flags.unicode && (value = 0x17f || value = 0x212a))) := by
  rw [isWord, isAsciiWord, hi, Bool.and_true]

theorem isLineTerminator_iff {value : ℕ} :
    isLineTerminator value = true ↔ value = 0x0a ∨ value = 0x0d ∨ value = 0x2028 ∨ value = 0x2029 := by
  simp [isLineTerminator, or_assoc]

/-- a mapping that line terminators have no part in -/
theorem line_mapped {mapping : List ℕ} {value : ℕ}
    (h : ∀ d, singleChar mapping = some d → isLineTerminator value = true ∨ isLineTerminator d = true → d = value) :
    isLineTerminator ((singleChar mapping).getD value) = isLineTerminator value := by
  cases hsingle : singleChar mapping with
  | none => rfl
  | some d =>
    rw [Option.getD_some]
    by_cases hline : isLineTerminator value = true ∨ isLineTerminator d = true
    · rw [h d hsingle hline]
    · rw [not_or, Bool.not_eq_true, Bool.not_eq_true] at hline
      rw [hline.1, hline.2]

theorem UnicodeCase.fold_line (htables : UnicodeCase tables) (value : ℕ) :
    isLineTerminator (simpleCaseFold tables value) = isLineTerminator value := by
  have hupper := line_mapped (htables.upper_line value)
  unfold simpleCaseFold
  by_cases hdotless : value = 0x131
  · rw [if_pos hdotless]
  · rw [if_neg hdotless]
    cases hlower : singleChar (tables.toLowercase ((singleChar (tables.toUppercase value)).getD value)) with
    | none => rfl
    | some d =>
      have hline := line_mapped (htables.lower_line ((singleChar (tables.toUppercase value)).getD value))
      rw [hlower, Option.getD_some] at hline
      rw [Option.getD_some, hline, hupper]

/-- a line terminator is alone with its canonical form -/
theorem UnicodeCase.canonicalize_line (htables : UnicodeCase tables) (value : ℕ) (unicode : Bool) :
    isLineTerminator (canonicalize tables value unicode) = isLineTerminator value := by
  unfold canonicalize
  by_cases hchar : isChar value = true
  · simp only [hchar, Bool.not_true, Bool.false_eq_true, if_false]
    cases unicode with
    | true => exact htables.fold_line value
    | false =>
      have hupper := line_mapped (htables.upper_line value)
      cases hsingle : singleChar (tables.toUppercase value) with
      | none => rfl
      | some d =>
        rw [hsingle, Option.getD_some] at hupper
        simp only [Bool.false_eq_true, if_false]
        split_ifs
        · exact hupper
        · rfl
  · simp only [hchar, Bool.not_false, if_true]

theorem UnicodeCase.fold_word (htables : UnicodeCase tables) (value : ℕ) :
    isAsciiWord (simpleCaseFold tables value) =
      (isAsciiWord value || decide (value = 0x17f) || decide (value = 0x212a)) := by
  unfold simpleCaseFold
  by_cases hdotless : value = 0x131
  · subst hdotless
    rfl
  rw [if_neg hdotless]
  by_cases hword : isAsciiWord value = true
  · obtain ⟨upper, hupper, hletter⟩ := htables.upper_word value hword
    obtain ⟨lower, hlower, hletter'⟩ := htables.lower_word upper hletter
    rw [hupper, Option.getD_some, hlower, Option.getD_some, hletter', hword]
    rfl
  by_cases hlong : value = 0x17f
  · subst hlong
    obtain ⟨lower, hlower, hletter⟩ := htables.lower_word 0x53 rfl
    rw [htables.upper_long_s, Option.getD_some, hlower, Option.getD_some, hletter]
    rfl
  by_cases hkelvin : value = 0x212a
  · subst hkelvin
    rw [htables.upper_kelvin, Option.getD_some, htables.lower_kelvin]
    rfl
  -- no other character comes to an ASCII letter, through its capital or from itself
  rw [Bool.not_eq_true] at hword
  simp only [hword, hlong, hkelvin, decide_false, Bool.or_false]
  rw [Bool.eq_false_iff]
  intro hfold
  have hupper : isAsciiWord ((singleChar (tables.toUppercase value)).getD value) = false ∧
      (singleChar (tables.toUppercase value)).getD value ≠ 0x212a := by
    cases hsingle : singleChar (tables.toUppercase value) with
    | none => exact ⟨hword, hkelvin⟩
    | some upper =>
      rw [Option.getD_some]
      refine ⟨Bool.eq_false_iff.2 fun hletter => ?_, fun heq => hkelvin (htables.of_upper_kelvin value (heq ▸ hsingle))⟩
      rcases htables.of_upper_word value upper hsingle hletter with h | h | h
      · rw [h] at hword
        cases hword
      · exact hlong h
      · exact hdotless h
  cases hlower : singleChar (tables.toLowercase ((singleChar (tables.toUppercase value)).getD value)) with
  | none =>
    rw [hlower, Option.getD_none, hword] at hfold
    cases hfold
  | some lower =>
    rw [hlower, Option.getD_some] at hfold
    rcases htables.of_lower_word _ lower hlower hfold with h | h
    · rw [hupper.1] at h
      cases h
    · exact hupper.2 h

/-- a word character is one by its canonical form -/
theorem UnicodeCase.canonicalize_word (htables : UnicodeCase tables) (value : ℕ) {flags : Flags}
    (hi : flags.ignoreCase = true) :
    isAsciiWord (canonicalize tables value flags.unicode) = isWord value flags := by
  rw [isWord_eq value hi]
  by_cases hchar : isChar value = true
  · unfold canonicalize
    simp only [hchar, Bool.not_true, Bool.false_eq_true, if_false]
    cases hunicode : flags.unicode with
    | true =>
      rw [if_pos rfl, htables.fold_word, Bool.true_and, Bool.or_assoc]
    | false =>
      simp only [Bool.false_eq_true, if_false, Bool.false_and, Bool.or_false]
      by_cases hword : isAsciiWord value = true
      · obtain ⟨upper, hupper, hletter⟩ := htables.upper_word value hword
        have hlt := isAsciiWord_lt hletter
        have hlt' := isAsciiWord_lt hword
        simp only [hupper]
        split_ifs
        · rw [hletter, hword]
        · rfl
      · cases hsingle : singleChar (tables.toUppercase value) with
        | none => rfl
        | some upper =>
          dsimp only
          split_ifs with hkept
          · rw [Bool.not_eq_true] at hword
            rw [hword, Bool.eq_false_iff]
            intro hletter
            have hlt := isAsciiWord_lt hletter
            have hfrom := htables.of_upper_word value upper hsingle hletter
            simp only [Bool.and_eq_true, Bool.not_eq_true', decide_eq_true_eq, Bool.and_eq_false_iff,
              decide_eq_false_iff_not] at hkept
            rw [hword] at hfrom
            simp only [Bool.false_eq_true, false_or] at hfrom
            omega
          · rfl
  · -- a surrogate is no word character
    have hsurrogate : 0xd800 ≤ value := by
      by_contra hlt
      exact hchar (isChar_of_lt (by omega))
    have hword : isAsciiWord value = false := Bool.eq_false_iff.2 fun h => by
      have := isAsciiWord_lt h
      omega
    have hlong : value ≠ 0x17f := by omega
    have hkelvin : value ≠ 0x212a := by omega
    rw [Bool.not_eq_true] at hchar
    simp only [canonicalize, hchar, Bool.not_false, if_true, hword, hlong, hkelvin, decide_false, Bool.or_false,
      Bool.and_false]

end Canonical

/-! ## Characters of an input -/

/-- where a character starts or ends: under `u`, outside the pairs -/
def Spot (input : List ℕ) (unicode : Bool) (position : ℕ) : Prop :=
  position ≤ input.length ∧ (unicode = true → isTrailInsidePair input position = false)

/-- two inputs whose characters have the same canonical forms and the same lengths -/
def SameCase (tables : Tables Property) (unicode : Bool) (input input' : List ℕ) : Prop :=
  input'.length = input.length ∧ ∀ position < input.length, Spot input unicode position →
    ∃ c c' length, codePointAt input position unicode = some (c, length) ∧
      codePointAt input' position unicode = some (c', length) ∧
      canonicalize tables c unicode = canonicalize tables c' unicode

section Characters

variable {input : List ℕ} {unicode : Bool}

/-- the units of a character -/
theorem codePointAt_cases {position character length : ℕ}
    (h : codePointAt input position unicode = some (character, length)) :
    (length = 1 ∧ input[position]? = some character ∧
        (unicode = true → isTrailInsidePair input (position + 1) = false)) ∨
      (length = 2 ∧ unicode = true ∧ (∃ lead, input[position]? = some lead ∧ isLead lead = true) ∧
        ∃ trail, input[position + 1]? = some trail ∧ isTrail trail = true) := by
  unfold codePointAt at h
  cases hunit : input[position]? with
  | none => simp [hunit] at h
  | some unit =>
    cases htrail : input[position + 1]? with
    | none =>
      simp only [hunit, htrail, Option.some.injEq, Prod.mk.injEq] at h
      refine .inl ⟨h.2.symm, by rw [h.1], fun _ => ?_⟩
      rw [isTrailInsidePair_succ, htrail]
      rfl
    | some trail =>
      simp only [hunit, htrail] at h
      by_cases hpair : (unicode && isLead unit && isTrail trail) = true
      · rw [if_pos hpair] at h
        simp only [Bool.and_eq_true] at hpair
        simp only [Option.some.injEq, Prod.mk.injEq] at h
        exact .inr ⟨h.2.symm, hpair.1.1, ⟨unit, rfl, hpair.1.2⟩, trail, rfl, hpair.2⟩
      · rw [if_neg hpair] at h
        simp only [Option.some.injEq, Prod.mk.injEq] at h
        refine .inl ⟨h.2.symm, by rw [h.1], fun hunicode => ?_⟩
        rw [hunicode, Bool.true_and] at hpair
        rw [isTrailInsidePair_succ, hunit, htrail, Option.any_some, Option.any_some, Bool.and_comm]
        exact Bool.eq_false_iff.2 hpair

theorem exists_codePointAt {position : ℕ} (h : position < input.length) (unicode : Bool) :
    ∃ character length, codePointAt input position unicode = some (character, length) := by
  unfold codePointAt
  rw [List.getElem?_eq_getElem h]
  cases input[position + 1]? with
  | none => exact ⟨_, _, rfl⟩
  | some trail =>
    dsimp only
    split_ifs
    · exact ⟨_, _, rfl⟩
    · exact ⟨_, _, rfl⟩

/-- the pair around a position inside one -/
theorem pair_of_inside {position : ℕ} (h : isTrailInsidePair input (position + 1) = true) :
    ∃ lead trail, input[position]? = some lead ∧ isLead lead = true ∧ input[position + 1]? = some trail ∧
      isTrail trail = true := by
  rw [isTrailInsidePair_succ, Bool.and_eq_true] at h
  obtain ⟨htrail, hlead⟩ := h
  obtain ⟨trail, htrail, htrail'⟩ := (Option.any_eq_true _ _).1 htrail
  obtain ⟨lead, hlead, hlead'⟩ := (Option.any_eq_true _ _).1 hlead
  exact ⟨lead, trail, hlead, hlead', htrail, htrail'⟩

theorem inside_of_pair {position lead trail : ℕ} (hlead : input[position]? = some lead) (hlead' : isLead lead = true)
    (htrail : input[position + 1]? = some trail) (htrail' : isTrail trail = true) :
    isTrailInsidePair input (position + 1) = true := by
  rw [isTrailInsidePair_succ, hlead, htrail, Option.any_some, Option.any_some, hlead', htrail']
  rfl

/-- a character read forward is read backward from its end -/
theorem codePointBefore_of_codePointAt {position character length : ℕ} (hspot : Spot input unicode position)
    (h : codePointAt input position unicode = some (character, length)) :
    codePointBefore input (position + length) unicode = some (character, length) := by
  unfold codePointAt at h
  cases hunit : input[position]? with
  | none => simp [hunit] at h
  | some unit =>
    -- one unit, which is not the second half of a pair
    have hone : codePointBefore input (position + 1) unicode = some (unit, 1) := by
      unfold codePointBefore
      cases position with
      | zero => simp only [hunit]
      | succ before =>
        cases hlead : input[before]? with
        | none => simp only [hunit, hlead]
        | some lead =>
          have hnot : (unicode && isTrail unit && isLead lead) = false := by
            cases unicode with
            | false => rfl
            | true =>
              have hinside := hspot.2 rfl
              rw [isTrailInsidePair_succ, hunit, hlead, Option.any_some, Option.any_some] at hinside
              rw [Bool.true_and, hinside]
          simp only [hunit, hlead, hnot, Bool.false_eq_true, if_false]
    cases htrail : input[position + 1]? with
    | none =>
      simp only [hunit, htrail, Option.some.injEq, Prod.mk.injEq] at h
      rw [← h.1, ← h.2, hone]
    | some trail =>
      simp only [hunit, htrail] at h
      by_cases hpair : (unicode && isLead unit && isTrail trail) = true
      · rw [if_pos hpair] at h
        simp only [Option.some.injEq, Prod.mk.injEq] at h
        have hpair' : (unicode && isTrail trail && isLead unit) = true := by
          simp only [Bool.and_eq_true] at hpair ⊢
          exact ⟨⟨hpair.1.1, hpair.2⟩, hpair.1.2⟩
        rw [← h.1, ← h.2, codePointBefore]
        simp only [htrail, hunit, hpair', if_true]
      · rw [if_neg hpair] at h
        simp only [Option.some.injEq, Prod.mk.injEq] at h
        rw [← h.1, ← h.2, hone]

/-- before a spot there is a character, which starts at a spot -/
theorem exists_character_before {position : ℕ} (hspot : Spot input unicode position) (hpos : 0 < position) :
    ∃ start character length, start < input.length ∧ Spot input unicode start ∧ start + length = position ∧
      codePointAt input start unicode = some (character, length) := by
  obtain ⟨before, rfl⟩ : ∃ before, position = before + 1 := ⟨position - 1, by omega⟩
  have hlt : before < input.length := hspot.1
  by_cases hinside : unicode = true ∧ isTrailInsidePair input before = true
  · -- the character is a pair
    obtain ⟨hunicode, hinside⟩ := hinside
    cases before with
    | zero => cases hinside
    | succ start =>
      obtain ⟨lead, trail, hlead, hlead', htrail, htrail'⟩ := pair_of_inside hinside
      refine ⟨start, pair lead trail, 2, by omega, ⟨by omega, fun _ => not_inside_of_isLead hlead hlead'⟩, rfl, ?_⟩
      simp [codePointAt, hlead, htrail, hlead', htrail', hunicode]
  · have hstart : Spot input unicode before := by
      refine ⟨hlt.le, fun hunicode => Bool.eq_false_iff.2 fun h => hinside ⟨hunicode, h⟩⟩
    obtain ⟨character, length, hread⟩ := exists_codePointAt hlt unicode
    rcases codePointAt_cases hread with ⟨rfl, -, -⟩ | ⟨-, hunicode, ⟨lead, hlead, hlead'⟩, trail, htrail, htrail'⟩
    · exact ⟨before, character, 1, hlt, hstart, rfl, hread⟩
    · have hcut := inside_of_pair hlead hlead' htrail htrail'
      rw [hspot.2 hunicode] at hcut
      cases hcut

end Characters

/-! ## Two inputs -/

section Inputs

variable {tables : Tables Property} {input input' : List ℕ} {unicode : Bool}

/-- both inputs have their pairs at the same positions -/
theorem SameCase.inside (hsame : SameCase tables true input input') (position : ℕ) :
    isTrailInsidePair input' position = isTrailInsidePair input position := by
  obtain ⟨hlength, hchars⟩ := hsame
  -- at a spot of the first input both have a pair, or neither has
  have hat {start : ℕ} (hlt : start < input.length) (hspot : Spot input true start) :
      isTrailInsidePair input' (start + 1) = isTrailInsidePair input (start + 1) := by
    obtain ⟨c, c', length, hread, hread', -⟩ := hchars start hlt hspot
    rcases codePointAt_cases hread with ⟨hone, -, hcut⟩ | ⟨htwo, -, ⟨lead, hlead, hlead'⟩, trail, htrail, htrail'⟩
    · rcases codePointAt_cases hread' with ⟨-, -, hcut'⟩ | ⟨htwo, -⟩
      · rw [hcut rfl, hcut' rfl]
      · omega
    · rcases codePointAt_cases hread' with ⟨hone, -⟩ | ⟨-, -, ⟨other, hother, hother'⟩, last, hlast, hlast'⟩
      · omega
      · rw [inside_of_pair hlead hlead' htrail htrail', inside_of_pair hother hother' hlast hlast']
  have hpair {start : ℕ} (h : isTrailInsidePair input (start + 1) = true) :
      isTrailInsidePair input' (start + 1) = true := by
    obtain ⟨lead, trail, hlead, hlead', -⟩ := pair_of_inside h
    obtain ⟨hlt, -⟩ := List.getElem?_eq_some_iff.1 hlead
    rw [hat hlt ⟨hlt.le, fun _ => not_inside_of_isLead hlead hlead'⟩, h]
  cases position with
  | zero => rfl
  | succ start =>
    by_cases h : isTrailInsidePair input (start + 1) = true
    · rw [h, hpair h]
    · rw [Bool.not_eq_true] at h
      rw [h, Bool.eq_false_iff]
      intro h'
      obtain ⟨lead, trail, hlead, hlead', htrail, -⟩ := pair_of_inside h'
      obtain ⟨hlt, -⟩ := List.getElem?_eq_some_iff.1 hlead
      have hspot : Spot input true start := by
        refine ⟨by omega, fun _ => Bool.eq_false_iff.2 fun hinside => ?_⟩
        cases start with
        | zero => cases hinside
        | succ before =>
          -- the unit would be both halves of a pair
          have hinside' := hpair hinside
          rw [not_inside_of_isLead hlead hlead'] at hinside'
          cases hinside'
      rw [hat (by omega) hspot, h] at h'
      cases h'

theorem SameCase.spot (hsame : SameCase tables unicode input input') {position : ℕ} (h : Spot input unicode position) :
    Spot input' unicode position := by
  refine ⟨hsame.1 ▸ h.1, fun hunicode => ?_⟩
  subst hunicode
  rw [hsame.inside, h.2 rfl]

/-- the characters that end at a spot -/
theorem SameCase.before (hsame : SameCase tables unicode input input') {position : ℕ}
    (hspot : Spot input unicode position) (hpos : 0 < position) :
    ∃ start c c' length, start < input.length ∧ Spot input unicode start ∧ start + length = position ∧
      codePointAt input start unicode = some (c, length) ∧ codePointAt input' start unicode = some (c', length) ∧
      canonicalize tables c unicode = canonicalize tables c' unicode := by
  obtain ⟨start, character, length, hlt, hstart, hend, hread⟩ := exists_character_before hspot hpos
  obtain ⟨c, c', length', hread', hother, hcanonical⟩ := hsame.2 start hlt hstart
  rw [hread] at hread'
  cases hread'
  exact ⟨start, _, c', _, hlt, hstart, hend, hread, hother, hcanonical⟩

/-- the unit behind a spot has a property of canonical forms in both inputs, or in neither -/
theorem SameCase.unit_behind (hsame : SameCase tables unicode input input') {holds : ℕ → Bool}
    (hholds : ∀ c c', canonicalize tables c unicode = canonicalize tables c' unicode → holds c = holds c')
    (hsurrogate : ∀ unit, isLead unit = true ∨ isTrail unit = true → holds unit = false) {position : ℕ}
    (hspot : Spot input unicode position) : (input[position]?).any holds = (input'[position]?).any holds := by
  by_cases hlt : position < input.length
  · obtain ⟨c, c', length, hread, hread', hcanonical⟩ := hsame.2 position hlt hspot
    rcases codePointAt_cases hread with ⟨hone, hunit, -⟩ | ⟨htwo, -, ⟨lead, hlead, hlead'⟩, -⟩
    · rcases codePointAt_cases hread' with ⟨-, hunit', -⟩ | ⟨htwo, -⟩
      · rw [hunit, hunit']
        exact hholds c c' hcanonical
      · omega
    · rcases codePointAt_cases hread' with ⟨hone, -⟩ | ⟨-, -, ⟨other, hother, hother'⟩, -⟩
      · omega
      · rw [hlead, hother, Option.any_some, Option.any_some, hsurrogate lead (.inl hlead'),
          hsurrogate other (.inl hother')]
  · have hlength := hsame.1
    rw [List.getElem?_eq_none (by omega), List.getElem?_eq_none (by omega)]

/-- the unit before a spot -/
theorem SameCase.unit_before (hsame : SameCase tables unicode input input') {holds : ℕ → Bool}
    (hholds : ∀ c c', canonicalize tables c unicode = canonicalize tables c' unicode → holds c = holds c')
    (hsurrogate : ∀ unit, isLead unit = true ∨ isTrail unit = true → holds unit = false) {position : ℕ}
    (hspot : Spot input unicode position) (hpos : 0 < position) :
    (input[position - 1]?).any holds = (input'[position - 1]?).any holds := by
  obtain ⟨start, c, c', length, -, -, rfl, hread, hread', hcanonical⟩ := hsame.before hspot hpos
  rcases codePointAt_cases hread with ⟨rfl, hunit, -⟩ | ⟨rfl, -, -, trail, htrail, htrail'⟩
  · rcases codePointAt_cases hread' with ⟨-, hunit', -⟩ | ⟨htwo, -⟩
    · rw [Nat.add_sub_cancel, hunit, hunit']
      exact hholds c c' hcanonical
    · omega
  · rcases codePointAt_cases hread' with ⟨hone, -⟩ | ⟨-, -, -, last, hlast, hlast'⟩
    · omega
    · have hsub : start + 2 - 1 = start + 1 := rfl
      rw [hsub, htrail, hlast, Option.any_some, Option.any_some, hsurrogate trail (.inr htrail'),
        hsurrogate last (.inr hlast')]

/-- what is read at a spot, in the direction of the matcher -/
theorem SameCase.read (hsame : SameCase tables unicode input input') (backward : Bool) {position : ℕ}
    (hspot : Spot input unicode position) :
    (if backward then codePointBefore input position unicode else codePointAt input position unicode) = none ∧
      (if backward then codePointBefore input' position unicode else codePointAt input' position unicode) = none ∨
    ∃ start c c' length, start < input.length ∧ Spot input unicode start ∧
      (if backward then codePointBefore input position unicode else codePointAt input position unicode) =
        some (c, length) ∧
      (if backward then codePointBefore input' position unicode else codePointAt input' position unicode) =
        some (c', length) ∧
      codePointAt input start unicode = some (c, length) ∧ codePointAt input' start unicode = some (c', length) ∧
      canonicalize tables c unicode = canonicalize tables c' unicode := by
  cases backward with
  | false =>
    simp only [Bool.false_eq_true, if_false]
    by_cases hlt : position < input.length
    · obtain ⟨c, c', length, hread, hread', hcanonical⟩ := hsame.2 position hlt hspot
      exact .inr ⟨position, c, c', length, hlt, hspot, hread, hread', hread, hread', hcanonical⟩
    · have hlength := hsame.1
      have hnone (text : List ℕ) (hpast : text.length ≤ position) : codePointAt text position unicode = none := by
        unfold codePointAt
        rw [List.getElem?_eq_none hpast]
      exact .inl ⟨hnone input (by omega), hnone input' (by omega)⟩
  | true =>
    simp only [if_true]
    rcases Nat.eq_zero_or_pos position with rfl | hpos
    · exact .inl ⟨rfl, rfl⟩
    · obtain ⟨start, c, c', length, hlt, hstart, rfl, hread, hread', hcanonical⟩ := hsame.before hspot hpos
      exact .inr ⟨start, c, c', length, hlt, hstart, codePointBefore_of_codePointAt hstart hread,
        codePointBefore_of_codePointAt (hsame.spot hstart) hread', hread, hread', hcanonical⟩

end Inputs

/-! ## What a pattern tells apart -/

/-- the items of a class do not tell the characters of two inputs apart -/
def ClassAlike (tables : Tables Property) (flags : Flags) (input input' : List ℕ)
    (items : List (ClassItem Property)) : Prop :=
  ∀ position c c' length, position < input.length → Spot input flags.unicode position →
    codePointAt input position flags.unicode = some (c, length) →
    codePointAt input' position flags.unicode = some (c', length) →
    classContains tables flags items c = classContains tables flags items c'

/-- the units of two inputs have the same canonical forms. Without `u` the characters are the units. -/
def UnitsAlike (tables : Tables Property) (unicode : Bool) (input input' : List ℕ) : Prop :=
  ∀ position, canonicalize tables (input.getD position 0) unicode = canonicalize tables (input'.getD position 0) unicode

/-- a leaf of a pattern does not tell two inputs apart: of literals, of `.` and of assertions this is always so. There
are no modifiers groups. -/
def LeafAlike (tables : Tables Property) (flags : Flags) (input input' : List ℕ) : Node Property → Prop
  | .class _ items => ClassAlike tables flags input input' items
  | .backreference _ => flags.unicode = true → UnitsAlike tables true input input'
  | .modifiers _ _ _ _ => False
  | _ => True

/-- the matcher is at spots, under the flags of the pattern -/
def casePlaces (input : List ℕ) (flags : Flags) : Places where
  Ok := Spot input flags.unicode
  Reach backward position reached := Reaches input backward position reached ∧ Spot input flags.unicode reached
  FlagsOk current := current = flags
  target h := h.2
  refl h := ⟨.refl h.1, h⟩
  trans h h' := ⟨h.1.trans h'.1, h'.2⟩

section Leaves

variable {tables : Tables Property} {input input' : List ℕ} {flags : Flags}

theorem spot_of_singleLength {node : Node Property} {backward : Bool} {position length : ℕ}
    (hspot : Spot input flags.unicode position)
    (h : singleLength tables input flags backward node position = some length) :
    Reaches input backward position (move backward position length) ∧
      Spot input flags.unicode (move backward position length) := by
  have hreach := (singleLength_reaches hspot.1 h).1
  refine ⟨hreach, hreach.1, fun hunicode => ?_⟩
  exact (((singleLength_whole node backward hunicode) position ⟨hspot.1, hspot.2 hunicode⟩).2 length h).2.2

/-- one character that both inputs answer alike -/
theorem singleAlike_of_matched (hsame : SameCase tables flags.unicode input input') {node : Node Property}
    (backward : Bool) (matched : ℕ → Bool)
    (hsingle : ∀ text position, singleLength tables text flags backward node position =
      match if backward then codePointBefore text position flags.unicode
        else codePointAt text position flags.unicode with
      | none => none
      | some (actual, length) => if matched actual then some length else none)
    (hmatched : ∀ start c c' length, start < input.length → Spot input flags.unicode start →
      codePointAt input start flags.unicode = some (c, length) →
      codePointAt input' start flags.unicode = some (c', length) →
      canonicalize tables c flags.unicode = canonicalize tables c' flags.unicode → matched c = matched c') :
    SingleAlike (casePlaces input flags) (singleLength tables input flags backward node)
      (singleLength tables input' flags backward node) backward := by
  intro position hspot
  refine ⟨?_, fun length hlength => spot_of_singleLength hspot hlength⟩
  rw [hsingle, hsingle]
  rcases hsame.read backward hspot with ⟨hnone, hnone'⟩ | ⟨start, c, c', length, hlt, hstart, hread, hread', hat, hat',
    hcanonical⟩
  · rw [hnone, hnone']
  · rw [hread, hread']
    dsimp only
    rw [hmatched start c c' length hlt hstart hat hat' hcanonical]

theorem charsMatch_iff (hi : flags.ignoreCase = true) {expected actual : ℕ} :
    charsMatch tables flags expected actual = true ↔
      canonicalize tables expected flags.unicode = canonicalize tables actual flags.unicode := by
  simp only [charsMatch, hi, Bool.true_and, Bool.or_eq_true, decide_eq_true_eq]
  refine ⟨fun h => ?_, .inr⟩
  rcases h with rfl | h
  · rfl
  · exact h

theorem charsMatch_alike (hi : flags.ignoreCase = true) {expected expected' actual actual' : ℕ}
    (hexpected : canonicalize tables expected flags.unicode = canonicalize tables expected' flags.unicode)
    (hactual : canonicalize tables actual flags.unicode = canonicalize tables actual' flags.unicode) :
    charsMatch tables flags expected actual = charsMatch tables flags expected' actual' := by
  rw [Bool.eq_iff_iff, charsMatch_iff hi, charsMatch_iff hi, hexpected, hactual]

theorem unitsAlike_of_single (hsame : SameCase tables false input input') : UnitsAlike tables false input input' := by
  intro position
  by_cases hlt : position < input.length
  · obtain ⟨c, c', length, hread, hread', hcanonical⟩ := hsame.2 position hlt ⟨hlt.le, fun h => by cases h⟩
    rcases codePointAt_cases hread with ⟨-, hunit, -⟩ | ⟨-, h, -⟩
    · rcases codePointAt_cases hread' with ⟨-, hunit', -⟩ | ⟨-, h, -⟩
      · rw [List.getD_eq_getElem?_getD, List.getD_eq_getElem?_getD, hunit, hunit']
        exact hcanonical
      · cases h
    · cases h
  · have hlength := hsame.1
    rw [List.getD_eq_getElem?_getD, List.getD_eq_getElem?_getD, List.getElem?_eq_none (by omega),
      List.getElem?_eq_none (by omega)]

theorem backreferenceEnd_alike (hi : flags.ignoreCase = true) (hsame : SameCase tables flags.unicode input input')
    (hunits : UnitsAlike tables flags.unicode input input') (backward : Bool) (indices : List ℕ) (captures : Captures)
    (position : ℕ) : backreferenceEnd tables input flags backward indices captures position =
      backreferenceEnd tables input' flags backward indices captures position := by
  have hinside (p : ℕ) :
      (flags.unicode && isTrailInsidePair input' p) = (flags.unicode && isTrailInsidePair input p) := by
    cases hunicode : flags.unicode with
    | false => rfl
    | true =>
      rw [hunicode] at hsame
      rw [hsame.inside]
  unfold backreferenceEnd
  cases indices.findSome? fun index => captures.getD index none with
  | none => rfl
  | some span =>
    obtain ⟨start, stop⟩ := span
    have hchars (p : ℕ) : ((List.range (stop - start)).all fun offset =>
        charsMatch tables flags (input.getD (start + offset) 0) (input.getD (p + offset) 0)) =
        (List.range (stop - start)).all fun offset =>
          charsMatch tables flags (input'.getD (start + offset) 0) (input'.getD (p + offset) 0) :=
      congrArg _ (funext fun offset => charsMatch_alike hi (hunits _) (hunits _))
    simp only [hsame.1, Bool.and_or_distrib_left, hinside, hchars]

/-- an item answers by canonical forms -/
def Closed (tables : Tables Property) (flags : Flags) (item : ClassItem Property) : Prop :=
  ∀ c c', canonicalize tables c flags.unicode = canonicalize tables c' flags.unicode →
    itemContains tables flags item c = itemContains tables flags item c'

theorem closed_char (hi : flags.ignoreCase = true) (member : ℕ) : Closed tables flags (.char member) := by
  intro c c' hcanonical
  simp only [itemContains, hi, if_true, hcanonical]

theorem classContains_closed {items : List (ClassItem Property)} (h : ∀ item ∈ items, Closed tables flags item)
    {c c' : ℕ} (hcanonical : canonicalize tables c flags.unicode = canonicalize tables c' flags.unicode) :
    classContains tables flags items c = classContains tables flags items c' := by
  induction items with
  | nil => rw [classContains, classContains]
  | cons item items ih =>
    rw [classContains, classContains, h item List.mem_cons_self c c' hcanonical,
      ih fun item hmem => h item (List.mem_cons_of_mem _ hmem)]

/-- the leaves of a pattern under `i` answer alike, where its classes and back-references do -/
theorem leafFits_case (htables : UnicodeCase tables) (hi : flags.ignoreCase = true)
    (hsame : SameCase tables flags.unicode input input') {node : Node Property}
    (h : LeafAlike tables flags input input' node) : LeafFits tables input input' (casePlaces input flags) node := by
  have hline (c c' : ℕ) (hcanonical : canonicalize tables c flags.unicode = canonicalize tables c' flags.unicode) :
      isLineTerminator c = isLineTerminator c' := by
    rw [← htables.canonicalize_line c flags.unicode, hcanonical, htables.canonicalize_line]
  have hword (c c' : ℕ) (hcanonical : canonicalize tables c flags.unicode = canonicalize tables c' flags.unicode) :
      isWord c flags = isWord c' flags := by
    rw [← htables.canonicalize_word c hi, hcanonical, htables.canonicalize_word c' hi]
  have hsurrogate {unit : ℕ} (h : isLead unit = true ∨ isTrail unit = true) : 0xd800 ≤ unit ∧ unit < 0xe000 := by
    simp only [isLead, isTrail, Bool.and_eq_true, decide_eq_true_eq] at h
    omega
  have hnoLine (unit : ℕ) (h : isLead unit = true ∨ isTrail unit = true) : isLineTerminator unit = false := by
    have hbounds := hsurrogate h
    rw [Bool.eq_false_iff, Ne, isLineTerminator_iff]
    omega
  have hnoWord (unit : ℕ) (h : isLead unit = true ∨ isTrail unit = true) : isWord unit flags = false := by
    have hbounds := hsurrogate h
    have hascii : isAsciiWord unit = false := Bool.eq_false_iff.2 fun h => by
      have := isAsciiWord_lt h
      omega
    have hlong : unit ≠ 0x17f := by omega
    have hkelvin : unit ≠ 0x212a := by omega
    rw [isWord_eq unit hi, hascii]
    simp [hlong, hkelvin]
  cases node with
  | literal value =>
    intro current backward hflags
    cases hflags
    exact singleAlike_of_matched hsame backward (charsMatch tables flags value) (fun _ _ => rfl)
      fun _ _ _ _ _ _ _ _ hcanonical => charsMatch_alike hi rfl hcanonical
  | anyChar =>
    intro current backward hflags
    cases hflags
    exact singleAlike_of_matched hsame backward (fun actual => flags.dotAll || !isLineTerminator actual)
      (fun _ _ => rfl) fun _ c c' _ _ _ _ _ hcanonical => by rw [hline c c' hcanonical]
  | «class» negated items =>
    intro current backward hflags
    cases hflags
    exact singleAlike_of_matched hsame backward (fun actual => classContains tables flags items actual != negated)
      (fun _ _ => rfl) fun start c c' length hlt hspot hread hread' _ => by
        rw [h start c c' length hlt hspot hread hread']
  | backreference indices =>
    intro current backward captures position hflags _ hspot
    cases hflags
    have hunits : UnitsAlike tables flags.unicode input input' := by
      cases hunicode : flags.unicode with
      | true => exact h hunicode
      | false => exact unitsAlike_of_single (hunicode ▸ hsame)
    refine ⟨backreferenceEnd_alike hi hsame hunits backward indices captures position, fun ending hending => ?_⟩
    have hreach := backreferenceEnd_reaches hspot.1 hending
    exact ⟨hreach, hreach.1, fun hunicode =>
      backreferenceEnd_whole hunicode ⟨hspot.1, hspot.2 hunicode⟩ hending⟩
  | modifiers ignoreCase multiline dotAll body => exact h.elim
  | anchorStart =>
    intro current position hflags hspot
    cases hflags
    unfold anchorStartHolds
    rcases Nat.eq_zero_or_pos position with rfl | hpos
    · rfl
    · rw [hsame.unit_before hline hnoLine hspot hpos]
  | anchorEnd =>
    intro current position hflags hspot
    cases hflags
    unfold anchorEndHolds
    rw [hsame.unit_behind hline hnoLine hspot, hsame.1]
  | wordBoundary expected =>
    intro current position hflags hspot
    cases hflags
    unfold wordBoundaryHolds
    rw [hsame.unit_behind hword hnoWord hspot]
    rcases Nat.eq_zero_or_pos position with rfl | hpos
    · rfl
    · rw [hsame.unit_before hword hnoWord hspot hpos]
  | _ => trivial

end Leaves

/-! ## Searches -/

section Searches

variable {tables : Tables Property} {input input' : List ℕ} {compiled : Compiled Property}

theorem attempt_alike (limits : Option Limits) (fuel : ℕ) (hlength : input'.length = input.length)
    (hleaves : compiled.root.Leaves (LeafFits tables input input' (casePlaces input compiled.flags))) {start : ℕ}
    (hstart : Spot input compiled.flags.unicode start) :
    attempt tables input limits fuel compiled start = attempt tables input' limits fuel compiled start := by
  have hnode := node_carried (carries_stays (casePlaces input compiled.flags) limits fun _ => True) hlength fuel false
    hleaves compiled.flags start (fun position m => some (true, { m with ending := some position }))
    (fun position m => some (true, { m with ending := some position })) rfl hstart
    (by
      intro ending _ m hflags hm
      refine ⟨rfl, fun r hr => ?_⟩
      cases hr
      exact ⟨hflags, hm.captures, trivial⟩)
  exact (hnode (.new compiled) rfl ⟨spansAt_replicate _, trivial⟩).1

theorem nextStart_spot {start : ℕ} (h : start < input.length) (unicode : Bool) :
    Spot input unicode (nextStart input unicode start) := by
  refine ⟨(nextStart_bounds input unicode h).2, fun hunicode => ?_⟩
  rw [hunicode]
  exact (nextStart_whole h).2

theorem search_alike (limits : Option Limits) (fuel : ℕ) (hsame : SameCase tables compiled.flags.unicode input input')
    (hleaves : compiled.root.Leaves (LeafFits tables input input' (casePlaces input compiled.flags))) (passes : ℕ)
    {start : ℕ} (hstart : Spot input compiled.flags.unicode start) :
    search tables input limits fuel compiled passes start = search tables input' limits fuel compiled passes start := by
  induction passes generalizing start with
  | zero => rfl
  | succ passes ih =>
    rw [search, search, ← attempt_alike limits fuel hsame.1 hleaves hstart, hsame.1]
    by_cases hlast : input.length ≤ start
    · simp only [hlast, decide_true, Bool.or_true, Bool.true_or, if_true]
    · have hlt : start < input.length := by omega
      have hnext : nextStart input' compiled.flags.unicode start = nextStart input compiled.flags.unicode start := by
        unfold nextStart
        cases hunicode : compiled.flags.unicode with
        | false => rfl
        | true =>
          rw [hunicode] at hsame hstart
          obtain ⟨c, c', length, hread, hread', -⟩ := hsame.2 start hlt hstart
          simp only [if_true, hread, hread', Option.map_some]
      rw [hnext, ih (nextStart_spot hlt _)]

/-- the classes and the back-references of a pattern do not tell two inputs apart, and it has no modifiers groups -/
def PatternAlike (tables : Tables Property) (compiled : Compiled Property) (input input' : List ℕ) : Prop :=
  compiled.root.Leaves (LeafAlike tables compiled.flags input input')

theorem find_same (htables : UnicodeCase tables) (hi : compiled.flags.ignoreCase = true)
    (hsame : SameCase tables compiled.flags.unicode input input') (hpattern : PatternAlike tables compiled input input')
    (start : ℕ) (spawned : Bool) :
    find tables compiled input start spawned = find tables compiled input' start spawned := by
  have hleaves := Node.Leaves.imp (fun node h => leafFits_case htables hi hsame h) compiled.root hpattern
  have hfirst : firstStart input' compiled.flags.unicode start = firstStart input compiled.flags.unicode start := by
    unfold firstStart
    rw [hsame.1]
    cases hunicode : compiled.flags.unicode with
    | false => rfl
    | true =>
      rw [hunicode] at hsame
      rw [hsame.inside]
  have hspot : Spot input compiled.flags.unicode (firstStart input compiled.flags.unicode start) := by
    refine ⟨firstStart_le input _ start, fun hunicode => ?_⟩
    rw [hunicode]
    exact (firstStart_whole start).2
  have hsteps : maxSteps input' = maxSteps input := by rw [maxSteps, maxSteps, hsame.1]
  have hdepth : maxDepth input' spawned = maxDepth input spawned := by rw [maxDepth, maxDepth, hsame.1]
  rw [find, find, hfirst, hsteps, hdepth, hsame.1]
  exact search_alike _ _ hsame hleaves _ hspot

/-- a search for one class at one place matches where the class does -/
theorem find_class (tables : Tables Property) (input : List ℕ) {negated : Bool} {items : List (ClassItem Property)}
    (hroot : compiled.root = .class negated items) (hsticky : compiled.flags.sticky = true) (start : ℕ) (spawned : Bool) :
    ∃ found, find tables compiled input start spawned = some found ∧ found.isSome =
      (singleLength tables input compiled.flags false (.class negated items)
        (firstStart input compiled.flags.unicode start)).isSome := by
  have hdeep : maxDepth input spawned ≠ 0 := by
    unfold maxDepth
    split_ifs <;> omega
  have hsteps : maxSteps input ≠ 0 := by
    unfold maxSteps
    omega
  cases hlength : singleLength tables input compiled.flags false (.class negated items)
      (firstStart input compiled.flags.unicode start) with
  | none =>
    refine ⟨none, ?_, rfl⟩
    simp [find, search, attempt, node, nodeInner, ticked, Matcher.new, hroot, hsticky, hdeep, hsteps, hlength, fail]
  | some length =>
    refine ⟨some ⟨firstStart input compiled.flags.unicode start, firstStart input compiled.flags.unicode start + length,
      (List.replicate (compiled.groupCount + 1) none).drop 1, compiled.groupNames⟩, ?_, rfl⟩
    simp [find, search, attempt, node, nodeInner, ticked, Matcher.new, hroot, hdeep, hsteps, hlength, move]

theorem firstStart_of_spot {start : ℕ} (h : Spot input compiled.flags.unicode start) :
    firstStart input compiled.flags.unicode start = start := by
  have hmin : Nat.min start input.length = start := Nat.min_eq_left h.1
  rw [firstStart, hmin]
  cases hunicode : compiled.flags.unicode with
  | false => rfl
  | true => rw [h.2 hunicode, Bool.and_false, if_neg Bool.false_ne_true]

/-- one class at one place tells inputs apart where its items do -/
theorem classAlike_of_find (hsame : SameCase tables compiled.flags.unicode input input') {negated : Bool}
    {items : List (ClassItem Property)} (hroot : compiled.root = .class negated items)
    (hsticky : compiled.flags.sticky = true)
    (hfind : ∀ start, find tables compiled input start false = find tables compiled input' start false) :
    ClassAlike tables compiled.flags input input' items := by
  intro position c c' length _ hspot hread hread'
  obtain ⟨found, hfound, hmatch⟩ := find_class tables input hroot hsticky position false
  obtain ⟨found', hfound', hmatch'⟩ := find_class tables input' hroot hsticky position false
  rw [firstStart_of_spot hspot] at hmatch
  rw [firstStart_of_spot (hsame.spot hspot)] at hmatch'
  rw [hfind, hfound'] at hfound
  cases hfound
  rw [hmatch] at hmatch'
  simp only [singleLength, Bool.false_eq_true, if_false, hread, hread'] at hmatch'
  cases hc : classContains tables compiled.flags items c <;>
    cases hc' : classContains tables compiled.flags items c' <;> cases negated <;> simp_all

end Searches

/-! ## The long s -/

/-- the tables of the ASCII letters and of the characters outside ASCII that are mapped to them -/
def letterTables : Tables Empty where
  toUppercase value :=
    [if 0x61 ≤ value ∧ value ≤ 0x7a then value - 0x20 else if value = 0x17f then 0x53 else if value = 0x131 then 0x49
      else value]
  toLowercase value :=
    [if 0x41 ≤ value ∧ value ≤ 0x5a then value + 0x20 else if value = 0x212a then 0x6b else value]
  contains property := property.elim

theorem letterTables_unicode : UnicodeCase letterTables where
  upper_line c d h hline := by
    simp only [letterTables, singleChar, Option.some.injEq, isLineTerminator_iff] at h hline
    split_ifs at h <;> omega
  lower_line c d h hline := by
    simp only [letterTables, singleChar, Option.some.injEq, isLineTerminator_iff] at h hline
    split_ifs at h <;> omega
  upper_word c h := by
    refine ⟨_, rfl, ?_⟩
    simp only [isAsciiWord, Bool.or_eq_true, Bool.and_eq_true, decide_eq_true_eq] at h ⊢
    split_ifs <;> omega
  lower_word c h := by
    refine ⟨_, rfl, ?_⟩
    simp only [isAsciiWord, Bool.or_eq_true, Bool.and_eq_true, decide_eq_true_eq] at h ⊢
    split_ifs <;> omega
  of_upper_word c d h hword := by
    simp only [letterTables, singleChar, Option.some.injEq] at h
    simp only [isAsciiWord, Bool.or_eq_true, Bool.and_eq_true, decide_eq_true_eq] at hword ⊢
    split_ifs at h <;> omega
  of_lower_word c d h hword := by
    simp only [letterTables, singleChar, Option.some.injEq] at h
    simp only [isAsciiWord, Bool.or_eq_true, Bool.and_eq_true, decide_eq_true_eq] at hword ⊢
    split_ifs at h <;> omega
  upper_long_s := rfl
  upper_kelvin := rfl
  lower_kelvin := rfl
  of_upper_kelvin c h := by
    simp only [letterTables, singleChar, Option.some.injEq] at h
    split_ifs at h <;> omega

/-- `/[a-z]/iuy` -/
def lettersClass : Compiled Empty := ⟨.class false [.range 0x61 0x7a], 0, [], ⟨true, false, false, true, true⟩⟩

/-- `s` and `ſ` have the same canonical form -/
theorem sameCase_long_s : SameCase letterTables true [0x73] [0x17f] := by
  refine ⟨rfl, fun position hlt _ => ?_⟩
  have hzero : position = 0 := Nat.lt_one_iff.1 hlt
  subst hzero
  exact ⟨0x73, 0x17f, 1, rfl, rfl, rfl⟩

end Render.Js.Regex
