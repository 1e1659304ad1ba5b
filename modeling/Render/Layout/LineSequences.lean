/-
Emoji and flag sequences.

A line may not end inside such a sequence: not in front of a combining mark or joiner that has a base, not behind a
ZERO WIDTH JOINER (LB8a), and not between two regional indicators that are one flag (LB30a). The first holds. The second
does not, since the joiner has its base's class when LB8a looks for it, so that only another rule can hold it. Neither
does the third, since the parity is that of the indicators which the text begins with.
-/
import Render.Layout.LineBreak

namespace Render.Layout.LineBreak

/-! ## Classes from the text -/

def LineBreakClass.isMark (c : LineBreakClass) : Bool := c ∈ [.cm, .zwj]

/-- the class of the sequence that is open behind these classes, the last one first -/
def opened : List LineBreakClass → Option LineBreakClass
  | [] => none
  | c :: rest =>
    if c.isMark then
      match opened rest with
      | some base => if base.absorbsCombining then some base else some .al
      | none => some .al
    else some c

theorem opened_cons_ne_none (c : LineBreakClass) (rest : List LineBreakClass) : opened (c :: rest) ≠ none := by
  rw [opened]
  cases opened rest with
  | none => split_ifs <;> simp
  | some base => dsimp only; split_ifs <;> simp

theorem opened_any_absorbs (classes : List LineBreakClass) :
    (opened classes).any (·.absorbsCombining) = classes.head?.any (·.absorbsCombining) := by
  cases classes with
  | nil => rfl
  | cons c rest =>
    rw [opened, List.head?_cons, Option.any_some]
    by_cases hmark : c.isMark
    · have hc : c.absorbsCombining = true := by
        cases c <;> simp_all [LineBreakClass.isMark, LineBreakClass.absorbsCombining]
      rw [if_pos hmark, hc]
      cases opened rest with
      | none => rfl
      | some base =>
        by_cases hbase : base.absorbsCombining
        · simp [hbase]
        · simp only [hbase]
          rfl
    · simp [hmark]

theorem opened_not_mark {classes : List LineBreakClass} {c : LineBreakClass} (h : opened classes = some c) :
    ¬c.isMark := by
  induction classes with
  | nil => cases h
  | cons d rest ih =>
    rw [opened] at h
    by_cases hmark : d.isMark
    · rw [if_pos hmark] at h
      cases hopened : opened rest with
      | none =>
        rw [hopened] at h
        cases h
        simp [LineBreakClass.isMark]
      | some base =>
        rw [hopened] at h
        dsimp only at h
        split_ifs at h
        · exact ih (hopened.trans h)
        · cases h
          simp [LineBreakClass.isMark]
    · rw [if_neg hmark] at h
      cases h
      exact hmark

section

variable (tables : Tables)

/-- one unit, behind the characters whose classes are these -/
theorem resolveFrom_cons (classes : List LineBreakClass) (character : Char) (rest : List Char) :
    resolveFrom tables (opened classes) (character :: rest) =
      ⟨character, (opened (tables.lineBreakClass character :: classes)).getD .al,
        (tables.lineBreakClass character).isMark ∧ classes.head?.any (·.absorbsCombining)⟩ ::
      resolveFrom tables (opened (tables.lineBreakClass character :: classes)) rest := by
  rw [← opened_any_absorbs, opened]
  conv_lhs => unfold resolveFrom
  dsimp only
  by_cases hmark : tables.lineBreakClass character = .cm ∨ tables.lineBreakClass character = .zwj
  · have hmark' : (tables.lineBreakClass character).isMark := by simpa [LineBreakClass.isMark] using hmark
    rw [if_pos hmark, if_pos hmark']
    cases hopened : opened classes with
    | none => simp
    | some base => by_cases hbase : base.absorbsCombining <;> simp [hbase, hmark']
  · have hmark' : ¬(tables.lineBreakClass character).isMark := by simpa [LineBreakClass.isMark] using hmark
    rw [if_neg hmark, if_neg hmark']
    simp [hmark']

def classesOf (characters : List Char) : List LineBreakClass := characters.map tables.lineBreakClass

/-- the classes of the characters before a position, the last one first -/
def classesBefore (characters : List Char) (position : ℕ) : List LineBreakClass :=
  ((classesOf tables characters).take position).reverse

theorem resolveFrom_getElem? (classes : List LineBreakClass) (characters : List Char) (position : ℕ) :
    (resolveFrom tables (opened classes) characters)[position]? = characters[position]?.map fun character =>
      ⟨character, (opened (classesBefore tables characters (position + 1) ++ classes)).getD .al,
        (tables.lineBreakClass character).isMark ∧
          (classesBefore tables characters position ++ classes).head?.any (·.absorbsCombining)⟩ := by
  induction characters generalizing classes position with
  | nil => simp [resolveFrom]
  | cons character rest ih =>
    rw [resolveFrom_cons]
    cases position with
    | zero => simp [classesBefore, classesOf]
    | succ position =>
      rw [List.getElem?_cons_succ, List.getElem?_cons_succ, ih]
      simp [classesBefore, classesOf]

end

/-! ## Regional indicators -/

/-- how many regional indicators these classes begin with, the marks between them not counted -/
def indicatorsBefore : List LineBreakClass → ℕ
  | [] => 0
  | c :: rest => if c = .ri then indicatorsBefore rest + 1 else if c.isMark then indicatorsBefore rest else 0

/-- the length of the run of regional indicators and marks that a text begins with -/
def leadingIndicators : List LineBreakClass → ℕ
  | [] => 0
  | c :: rest => if c = .ri then (rest.takeWhile fun c => c = .ri ∨ c.isMark).length + 1 else 0

theorem opened_eq_ri_iff (classes : List LineBreakClass) :
    opened classes = some .ri ↔ 0 < indicatorsBefore classes := by
  induction classes with
  | nil => simp [opened, indicatorsBefore]
  | cons c rest ih =>
    rw [opened, indicatorsBefore]
    by_cases hri : c = .ri
    · subst hri
      simp [LineBreakClass.isMark]
    · by_cases hmark : c.isMark
      · rw [if_neg hri, if_pos hmark, if_pos hmark, ← ih]
        cases opened rest with
        | none => simp
        | some base =>
          by_cases hbase : base.absorbsCombining
          · simp [hbase]
          · simp only [hbase]
            cases base <;> simp_all [LineBreakClass.absorbsCombining]
      · simp [hri, hmark]

section

variable (tables : Tables)

theorem resolveFrom_take (classes : List LineBreakClass) (characters : List Char) (position : ℕ) :
    (resolveFrom tables (opened classes) characters).take position =
      resolveFrom tables (opened classes) (characters.take position) := by
  induction characters generalizing classes position with
  | nil => simp [resolveFrom]
  | cons character rest ih =>
    cases position with
    | zero => rfl
    | succ position => rw [resolveFrom_cons, List.take_succ_cons, List.take_succ_cons, resolveFrom_cons, ih]

theorem takeWhile_indicators (characters : List Char) :
    ((resolveFrom tables (some .ri) characters).takeWhile fun unit => unit.class' = .ri).length =
      ((classesOf tables characters).takeWhile fun c => c = .ri ∨ c.isMark).length := by
  induction characters with
  | nil => rfl
  | cons character rest ih =>
    unfold resolveFrom
    simp only [classesOf, List.map_cons] at ih ⊢
    by_cases hmark : tables.lineBreakClass character = .cm ∨ tables.lineBreakClass character = .zwj
    · have hmark' : (tables.lineBreakClass character).isMark := by simpa [LineBreakClass.isMark] using hmark
      simp [hmark, hmark', LineBreakClass.absorbsCombining, ih]
    · have hmark' : ¬(tables.lineBreakClass character).isMark := by simpa [LineBreakClass.isMark] using hmark
      by_cases hri : tables.lineBreakClass character = .ri
      · simp [hri, ih]
      · simp [hmark, hmark', hri]

theorem takeWhile_leading (characters : List Char) :
    ((resolveFrom tables none characters).takeWhile fun unit => unit.class' = .ri).length =
      leadingIndicators (classesOf tables characters) := by
  cases characters with
  | nil => rfl
  | cons character rest =>
    have hstep := resolveFrom_cons tables [] character rest
    rw [opened] at hstep
    rw [hstep]
    by_cases hri : tables.lineBreakClass character = .ri
    · have hopened : opened [tables.lineBreakClass character] = some .ri := by
        rw [hri]
        rfl
      rw [hopened]
      simp [classesOf, leadingIndicators, hri, takeWhile_indicators]
    · have hopened : opened [tables.lineBreakClass character] ≠ some .ri := by
        rw [ne_eq, opened_eq_ri_iff]
        simp [indicatorsBefore, hri]
      have hclass : (opened [tables.lineBreakClass character]).getD .al ≠ .ri := by
        intro h
        cases hsome : opened [tables.lineBreakClass character] with
        | none => exact opened_cons_ne_none _ _ hsome
        | some c => rw [hsome] at h hopened; exact hopened (congrArg some h)
      simp [classesOf, leadingIndicators, hri, hclass]

theorem loosened_cases (level : LineBreakStrictness) (character : Char) (c : LineBreakClass) :
    loosened tables level character c ∈ [c, .ns, .id] := by
  cases level <;> simp only [loosened] <;> first | (split_ifs <;> simp_all) | simp

/-- tailoring neither makes a regional indicator nor rewrites one -/
theorem tailored_ri {unit : TextUnit} (hraw : unit.Raw tables) (options : LineBreakOptions) :
    (tailored tables options unit).class' = .ri ↔ unit.class' = .ri := by
  rw [tailored]
  by_cases hattached : unit.attached
  · rw [if_pos hattached]
  · rw [if_neg hattached]
    constructor
    · intro h
      have hcases := loosened_cases tables options.lineBreak.normalized unit.character
        (brokenAll options.wordBreak unit.class')
      dsimp only at h
      rw [h, brokenAll] at hcases
      split_ifs at hcases <;> simp_all
    · intro h
      have hnamed (character : Char) (c : LineBreakClass) (hclass : tables.lineBreakClass character = c)
          (hc : c ∉ [.cm, .zwj]) (hri : c ≠ .ri) : unit.character ≠ character := by
        rintro rfl
        exact hri ((class_of_raw tables hraw hattached hclass hc).symm.trans h)
      have h1 := hnamed _ _ tables.waveDash (by simp) (by simp)
      have h2 := hnamed _ _ tables.doubleHyphen (by simp) (by simp)
      have h3 := hnamed _ _ tables.hyphen (by simp) (by simp)
      have h4 := hnamed _ _ tables.enDash (by simp) (by simp)
      dsimp only
      generalize options.lineBreak.normalized = level
      cases level <;> simp [h, brokenAll, loosened, h1, h2, h3, h4]

theorem evenIndicators_iff (characters : List Char) (options : LineBreakOptions) (position : ℕ) :
    precededByEvenRegionalIndicators (unitsAt tables characters options) position =
      (leadingIndicators ((classesOf tables characters).take position) % 2 = 0 : Bool) := by
  have htake := resolveFrom_take tables [] characters position
  have hsame : ∀ raw : List TextUnit, (∀ unit ∈ raw, unit.Raw tables) →
      ((raw.map (tailored tables options)).takeWhile fun unit => unit.class' = .ri) =
        (raw.takeWhile fun unit => unit.class' = .ri).map (tailored tables options) := by
    intro raw hraw
    induction raw with
    | nil => rfl
    | cons unit rest ih =>
      rw [List.forall_mem_cons] at hraw
      rw [List.map_cons, List.takeWhile_cons, List.takeWhile_cons, ih hraw.2]
      by_cases hri : unit.class' = .ri <;> simp [tailored_ri tables hraw.1, hri]
  rw [opened] at htake
  rw [precededByEvenRegionalIndicators, unitsAt, resolve_uniform_units, ← List.map_take, htake,
    hsame _ (resolveFrom_raw tables none _), List.length_map, takeWhile_leading, classesOf, classesOf, List.map_take]

/-! ## Sequences -/

/-- a combining mark or joiner stands behind the position, and a class that takes marks in front of it -/
def BeforeMark (characters : List Char) (position : ℕ) : Prop :=
  (classesOf tables characters)[position]?.any (·.isMark) ∧
    (classesBefore tables characters position).head?.any (·.absorbsCombining)

/-- the position is directly behind a ZERO WIDTH JOINER -/
def AfterJoiner (characters : List Char) (position : ℕ) : Prop := (characters.take position).getLast? = some '\u200d'

/-- the position is between two regional indicators -/
def BetweenIndicators (characters : List Char) (position : ℕ) : Prop :=
  (classesOf tables characters)[position]? = some .ri ∧ 0 < indicatorsBefore (classesBefore tables characters position)

/-- an odd number of regional indicators stands in front of the position -/
def OddIndicators (characters : List Char) (position : ℕ) : Prop :=
  indicatorsBefore (classesBefore tables characters position) % 2 = 1

/-- no soft wrap opportunity falls inside an emoji or flag sequence, and there is one between two flags, where the first
does not end in a joiner -/
def KeepsSequences (characters : List Char) (options : LineBreakOptions) : Prop :=
  ∀ position ≤ characters.length,
    (BeforeMark tables characters position →
      (opportunities tables characters options)[position]? ≠ some .allowed) ∧
    (AfterJoiner characters position → (opportunities tables characters options)[position]? ≠ some .allowed) ∧
    (BetweenIndicators tables characters position → OddIndicators tables characters position →
      (opportunities tables characters options)[position]? ≠ some .allowed) ∧
    (BetweenIndicators tables characters position → ¬OddIndicators tables characters position →
      ¬AfterJoiner characters position → (opportunities tables characters options)[position]? = some .allowed)

/-- one of the rules from LB6 on prohibits a break, LB8a and LB30a not counted -/
def Surroundings.held (s : Surroundings) : Prop :=
  s.lb6 ∨ s.lb7 ∨ s.lb11 ∨ s.lb12a ∨ s.lb13 ∨ s.lb14 ∨ s.lb15d ∨ s.lb16 ∨ s.lb17 ∨ s.bound ∨ s.lb30b ∨ s.quotation

theorem ite_prohibited_eq_allowed (p : Bool) (b : Break) :
    (if p then Break.prohibited else b) = .allowed ↔ ¬p ∧ b = .allowed := by
  cases p <;> simp

/-- behind a class that takes marks the rules allow a break where none of them holds and the indicators are even -/
theorem Surroundings.rules_eq_allowed_iff {s : Surroundings} (hseen : s.Seen) (habsorbs : s.before.absorbsCombining)
    (hjoiner : s.before ≠ .zwj) : s.rules = .allowed ↔ ¬s.held ∧ (s.lb30a → s.evenIndicators) := by
  simp only [LineBreakClass.absorbsCombining, decide_eq_true_eq, List.mem_cons, List.not_mem_nil, or_false,
    not_or] at habsorbs
  obtain ⟨hbk, hcr, hlf, hnl, hsp, hzw⟩ := habsorbs
  have hhard : s.hardBreakEndsTheLine = false := by simp [hardBreakEndsTheLine, hbk, hcr, hlf, hnl]
  have h8 : s.lb8 = false := by simp [lb8, hseen.skips hsp, hzw]
  have h8a : s.lb8a = false := by simp [lb8a, hjoiner]
  have h15c : s.lb15c = false := by simp [lb15c, hsp]
  have h18 : s.lb18 = false := by simp [lb18, hsp]
  rw [rules, held]
  simp only [hhard, h8, h8a, h15c, h18, ite_prohibited_eq_allowed, Bool.false_eq_true, if_false]
  by_cases hindicators : s.lb30a
  · have hri := of_decide_eq_true hindicators
    have h30b : s.lb30b = false := by simp [lb30b, hri.1]
    have hquotation := hseen.unquoted (by simp [hri.1]) (by simp [hri.2])
    cases heven : s.evenIndicators <;> simp [hindicators, h30b, hquotation]
  · simp only [hindicators, Bool.false_eq_true, if_false, false_implies, and_true, not_or, ite_prohibited_eq_allowed]

/-- the entry of a position between two units -/
theorem entry_beside {characters : List Char} {options : LineBreakOptions} (hlevel : options.lineBreak ≠ .anywhere)
    (hwrap : options.wrap) {position : ℕ} {before after : TextUnit}
    (hbeside : Beside (unitsAt tables characters options) position before after) :
    (opportunities tables characters options)[position]? = some .allowed ↔
      (surroundings tables (unitsAt tables characters options) position before after).rules = .allowed ∧
        ¬(options.wordBreak = .keepAll ∧ isLetterLike before.class' ∧ isLetterLike after.class') := by
  obtain ⟨hpos, hinside⟩ := hbeside.inside
  have hcharacters : characters ≠ [] := List.length_pos_iff.1 (hpos.trans hinside)
  rw [opportunities_getElem? tables hinside.le, if_pos ⟨hcharacters, hwrap⟩, ruled_beside tables hlevel hbeside]
  by_cases hheld : options.wordBreak = .keepAll ∧ isLetterLike before.class' ∧ isLetterLike after.class'
  · simp [hheld]
  · rw [if_neg hheld]
    simp [hheld]

/-! ## Units from the text -/

/-- the unit of a character, from the classes of the characters before it -/
def unitAt (characters : List Char) (position : ℕ) (character : Char) : TextUnit :=
  ⟨character, (opened (tables.lineBreakClass character :: classesBefore tables characters position)).getD .al,
    (tables.lineBreakClass character).isMark ∧
      (classesBefore tables characters position).head?.any (·.absorbsCombining)⟩

theorem classesBefore_succ {characters : List Char} {position : ℕ} {character : Char}
    (h : characters[position]? = some character) :
    classesBefore tables characters (position + 1) =
      tables.lineBreakClass character :: classesBefore tables characters position := by
  simp [classesBefore, classesOf, List.take_add_one, h]

theorem resolveFrom_none_getElem? {characters : List Char} {position : ℕ} {character : Char}
    (h : characters[position]? = some character) :
    (resolveFrom tables none characters)[position]? = some (unitAt tables characters position character) := by
  have hunit := resolveFrom_getElem? tables [] characters position
  rw [opened] at hunit
  rw [hunit, h, Option.map_some, List.append_nil, List.append_nil, classesBefore_succ tables h]
  rfl

theorem unitsAt_getElem? {characters : List Char} {position : ℕ} {character : Char} (options : LineBreakOptions)
    (h : characters[position]? = some character) :
    (unitsAt tables characters options)[position]? =
      some (tailored tables options (unitAt tables characters position character)) := by
  rw [unitsAt, resolve_uniform_units, List.getElem?_map, resolveFrom_none_getElem? tables h, Option.map_some]

theorem unitAt_raw {characters : List Char} {position : ℕ} {character : Char}
    (h : characters[position]? = some character) : (unitAt tables characters position character).Raw tables :=
  resolveFrom_raw tables none characters _ (List.mem_of_getElem? (resolveFrom_none_getElem? tables h))

theorem unitAt_class_ri_iff (characters : List Char) (position : ℕ) (character : Char) :
    (unitAt tables characters position character).class' = .ri ↔
      0 < indicatorsBefore (tables.lineBreakClass character :: classesBefore tables characters position) := by
  rw [← opened_eq_ri_iff, unitAt]
  dsimp only
  cases hopened : opened (tables.lineBreakClass character :: classesBefore tables characters position) with
  | none => exact absurd hopened (opened_cons_ne_none _ _)
  | some c => simp

/-- the characters on both sides of a position, for the units there -/
theorem Beside.characters {characters : List Char} {options : LineBreakOptions} {position : ℕ}
    {before after : TextUnit} (h : Beside (unitsAt tables characters options) position before after) :
    ∃ index left right, position = index + 1 ∧ characters[index]? = some left ∧
      characters[index + 1]? = some right ∧ before = tailored tables options (unitAt tables characters index left) ∧
      after = tailored tables options (unitAt tables characters (index + 1) right) := by
  obtain ⟨hpos, hinside⟩ := h.inside
  obtain ⟨index, rfl⟩ : ∃ index, position = index + 1 := ⟨position - 1, by omega⟩
  have hleft := List.getElem?_eq_getElem (l := characters) (i := index) (by omega)
  have hright := List.getElem?_eq_getElem hinside
  refine ⟨index, _, _, rfl, hleft, hright, ?_, ?_⟩
  · exact Option.some.inj (h.1.symm.trans (unitsAt_getElem? tables options hleft))
  · exact Option.some.inj (h.2.1.symm.trans (unitsAt_getElem? tables options hright))

/-- a unit that stands alone is a regional indicator if its character is one -/
theorem class_of_unattached {characters : List Char} {position : ℕ} {character : Char}
    (h : ¬(unitAt tables characters position character).attached) :
    (unitAt tables characters position character).class' = .ri ↔ tables.lineBreakClass character = .ri := by
  simp only [unitAt, decide_eq_true_eq, not_and, ← opened_any_absorbs] at h ⊢
  rw [opened]
  by_cases hmark : (tables.lineBreakClass character).isMark
  · have hri : tables.lineBreakClass character ≠ .ri := by
      intro hri
      simp [hri, LineBreakClass.isMark] at hmark
    have hbase := h hmark
    rw [if_pos hmark]
    cases hopened : opened (classesBefore tables characters position) with
    | none => simp [hri]
    | some base =>
      rw [hopened] at hbase
      simp [hri, show ¬base.absorbsCombining from hbase]
  · simp [hmark]

theorem attached_iff {characters : List Char} {options : LineBreakOptions} (position : ℕ) :
    (unitsAt tables characters options)[position]?.any (·.attached) ↔ BeforeMark tables characters position := by
  rw [BeforeMark, classesOf, List.getElem?_map]
  cases hcharacter : characters[position]? with
  | none =>
    have hlength := unitsAt_length tables characters options
    rw [List.getElem?_eq_none (by rw [hlength]; exact List.getElem?_eq_none_iff.1 hcharacter)]
    simp
  | some character => simp [unitsAt_getElem? tables options hcharacter, unitAt]

/-- between two regional indicators the classes on both sides are theirs -/
theorem betweenIndicators_iff {characters : List Char} {options : LineBreakOptions} {position : ℕ}
    {before after : TextUnit} (h : Beside (unitsAt tables characters options) position before after) :
    BetweenIndicators tables characters position ↔ before.class' = .ri ∧ after.class' = .ri := by
  have hattached := h.2.2
  obtain ⟨index, left, right, rfl, hleft, hright, rfl, rfl⟩ := h.characters
  rw [tailored_attached] at hattached
  rw [tailored_ri tables (unitAt_raw tables hleft), tailored_ri tables (unitAt_raw tables hright),
    class_of_unattached tables hattached, unitAt_class_ri_iff, ← classesBefore_succ tables hleft, BetweenIndicators,
    classesOf, List.getElem?_map, hright, and_comm]
  simp

/-- a position between two regional indicators is between two units -/
theorem beside_of_betweenIndicators {characters : List Char} (options : LineBreakOptions) {position : ℕ}
    (h : BetweenIndicators tables characters position) :
    ∃ before after, Beside (unitsAt tables characters options) position before after := by
  obtain ⟨hclass, hcount⟩ := h
  have hinside : position < (unitsAt tables characters options).length := by
    rw [unitsAt_length, ← List.length_map]
    exact (List.getElem?_eq_some_iff.1 hclass).1
  have hpos : 0 < position := by
    refine Nat.pos_of_ne_zero fun hzero => ?_
    rw [hzero] at hcount
    cases hcount
  refine (beside_or_attached hpos hinside).resolve_right fun hattached => ?_
  have hmark := ((attached_iff tables position).1 hattached).1
  rw [hclass] at hmark
  cases hmark

theorem afterJoiner_iff {characters : List Char} {options : LineBreakOptions} {position : ℕ}
    {before after : TextUnit} (h : Beside (unitsAt tables characters options) position before after) :
    AfterJoiner characters position ↔ before.character = '\u200d' := by
  obtain ⟨index, left, right, rfl, hleft, hright, rfl, rfl⟩ := h.characters
  rw [AfterJoiner, List.take_add_one, hleft]
  simp [unitAt]

/-- a joiner has the class of a base, or a letter's -/
theorem class_of_joiner {characters : List Char} {options : LineBreakOptions} {position : ℕ}
    {before after : TextUnit} (h : Beside (unitsAt tables characters options) position before after)
    (hjoiner : before.character = '\u200d') : before.class'.absorbsCombining ∧ before.class' ≠ .zwj := by
  obtain ⟨index, left, right, rfl, hleft, hright, rfl, rfl⟩ := h.characters
  rw [tailored_character] at hjoiner
  have hclass : tables.lineBreakClass left = .zwj := (tables.joiner left).2 hjoiner
  have hmark : (tables.lineBreakClass left).isMark := by simp [hclass, LineBreakClass.isMark]
  rw [tailored]
  by_cases hattached : (unitAt tables characters index left).attached
  · rw [if_pos hattached]
    have habsorbs : (classesBefore tables characters index).head?.any (·.absorbsCombining) := by
      simpa [unitAt, hmark] using hattached
    rw [← opened_any_absorbs] at habsorbs
    cases hopened : opened (classesBefore tables characters index) with
    | none => simp [hopened] at habsorbs
    | some base =>
      have hbase : base.absorbsCombining := by simpa [hopened] using habsorbs
      have hunit : (unitAt tables characters index left).class' = base := by
        simp [unitAt, opened, hmark, hopened, hbase]
      rw [hunit]
      refine ⟨hbase, fun hzwj => opened_not_mark hopened ?_⟩
      simp [hzwj, LineBreakClass.isMark]
  · rw [if_neg hattached]
    have hunit : (unitAt tables characters index left).class' = .al := by
      have halone : ¬(opened (classesBefore tables characters index)).any (·.absorbsCombining) := by
        rw [opened_any_absorbs]
        simpa [unitAt, hmark] using hattached
      cases hopened : opened (classesBefore tables characters index) with
      | none => simp [unitAt, opened, hmark, hopened]
      | some base =>
        have hbase : ¬base.absorbsCombining := by simpa [hopened] using halone
        simp [unitAt, opened, hmark, hopened, hbase]
    have hcases := loosened_cases tables options.lineBreak.normalized (unitAt tables characters index left).character
      (brokenAll options.wordBreak (unitAt tables characters index left).class')
    rw [hunit] at hcases ⊢
    dsimp only
    generalize loosened tables options.lineBreak.normalized (unitAt tables characters index left).character
      (brokenAll options.wordBreak .al) = c at hcases ⊢
    rw [brokenAll] at hcases
    cases c <;> split_ifs at hcases <;> simp_all [LineBreakClass.absorbsCombining]

/-! ## The condition -/

/-- behind each joiner inside the text that is not between regional indicators, a rule other than LB8a or `keep-all`
holds the class of its base to what follows -/
def JoinersHeld (characters : List Char) (options : LineBreakOptions) : Prop :=
  ∀ position before after, Beside (unitsAt tables characters options) position before after →
    before.character = '\u200d' → ¬(before.class' = .ri ∧ after.class' = .ri) →
      (surroundings tables (unitsAt tables characters options) position before after).held ∨
        options.wordBreak = .keepAll ∧ isLetterLike before.class' ∧ isLetterLike after.class'

/-- between two regional indicators, the run that the text begins with is odd where the run in front of the position is,
or a joiner ends it -/
def LeadingParity (characters : List Char) : Prop :=
  ∀ position, BetweenIndicators tables characters position →
    (leadingIndicators ((classesOf tables characters).take position) % 2 = 1 ↔
      OddIndicators tables characters position ∨ AfterJoiner characters position)

/-- between two regional indicators the text's leading run decides -/
theorem entry_indicators {characters : List Char} {options : LineBreakOptions} (hlevel : options.lineBreak ≠ .anywhere)
    (hwrap : options.wrap) {position : ℕ} (h : BetweenIndicators tables characters position) :
    (opportunities tables characters options)[position]? = some .allowed ↔
      leadingIndicators ((classesOf tables characters).take position) % 2 = 0 := by
  obtain ⟨before, after, hbeside⟩ := beside_of_betweenIndicators tables options h
  obtain ⟨hbefore, hafter⟩ := (betweenIndicators_iff tables hbeside).1 h
  have hseen := seen_surroundings tables hbeside.1 hbeside.2.1
  rw [entry_beside tables hlevel hwrap hbeside, Surroundings.rules_eq_allowed_iff hseen
    (by simp [hbefore, LineBreakClass.absorbsCombining]) (by simp [hbefore])]
  have hheld : ¬(surroundings tables (unitsAt tables characters options) position before after).held := by
    have hquotation := hseen.unquoted (by simp [hbefore]) (by simp [hafter])
    simp [Surroundings.held, Surroundings.bound, Surroundings.lb6, Surroundings.lb7, Surroundings.lb11,
      Surroundings.lb12a, Surroundings.lb13, Surroundings.lb14, Surroundings.lb15d, Surroundings.lb16,
      Surroundings.lb17, Surroundings.lb20a, Surroundings.lb21, Surroundings.lb21a, Surroundings.lb21b,
      Surroundings.lb22, Surroundings.lb23, Surroundings.lb23a, Surroundings.lb24, Surroundings.lb25Affix,
      Surroundings.lb25Opening, Surroundings.lb25Infix, Surroundings.lb26, Surroundings.lb27, Surroundings.lb28,
      Surroundings.lb29, Surroundings.lb30Opening, Surroundings.lb30Closing, Surroundings.lb30b, hbefore, hafter,
      hseen.skips (by simp [hbefore]), hquotation]
  simp [hheld, hbefore, hafter, Surroundings.lb30a, isLetterLike, evenIndicators_iff]

/-- where wrapping is forbidden no position is a soft opportunity -/
theorem entry_of_not_wrap {characters : List Char} {options : LineBreakOptions} (hwrap : options.wrap = false)
    {position : ℕ} (hposition : position ≤ characters.length) :
    (opportunities tables characters options)[position]? ≠ some .allowed := by
  rw [opportunities_getElem? tables hposition, if_neg (by simp [hwrap])]
  simp

theorem entry_beforeMark {characters : List Char} {options : LineBreakOptions} (hlevel : options.lineBreak ≠ .anywhere)
    {position : ℕ} (hposition : position ≤ characters.length) (h : BeforeMark tables characters position) :
    (opportunities tables characters options)[position]? ≠ some .allowed := by
  rw [opportunities_getElem? tables hposition, ruled_attached tables hlevel ((attached_iff tables position).2 h)]
  split_ifs <;> simp

/-- a joiner that ends the text is followed by no soft opportunity -/
theorem entry_end {characters : List Char} (options : LineBreakOptions) :
    (opportunities tables characters options)[characters.length]? ≠ some .allowed := by
  rw [opportunities_getElem? tables (Nat.le_refl _)]
  by_cases h : characters ≠ [] ∧ options.wrap
  · rw [if_pos h, ruled_end tables options h.1]
    simp
  · rw [if_neg h]
    simp

/-- between a joiner and what follows it, outside of flags, the rules have to hold the two -/
theorem entry_joiner {characters : List Char} {options : LineBreakOptions} (hlevel : options.lineBreak ≠ .anywhere)
    (hwrap : options.wrap) {position : ℕ} {before after : TextUnit}
    (h : Beside (unitsAt tables characters options) position before after) (hjoiner : before.character = '\u200d')
    (hflag : ¬(before.class' = .ri ∧ after.class' = .ri)) :
    (opportunities tables characters options)[position]? ≠ some .allowed ↔
      (surroundings tables (unitsAt tables characters options) position before after).held ∨
        options.wordBreak = .keepAll ∧ isLetterLike before.class' ∧ isLetterLike after.class' := by
  obtain ⟨habsorbs, hzwj⟩ := class_of_joiner tables h hjoiner
  rw [ne_eq, entry_beside tables hlevel hwrap h,
    Surroundings.rules_eq_allowed_iff (seen_surroundings tables h.1 h.2.1) habsorbs hzwj]
  have hindicators : (surroundings tables (unitsAt tables characters options) position before after).lb30a = false := by
    exact decide_eq_false hflag
  rw [hindicators]
  tauto

/-- **Sequences are kept where another rule keeps them.** A mark is never parted from its base. Behind a joiner the
rules that are left have to hold it, and between two regional indicators the run that the text begins with has to be odd
exactly where the run in front of the position is. Where wrapping is forbidden only the breaks between flags are
missing. -/
theorem keepsSequences_iff (characters : List Char) {options : LineBreakOptions}
    (hlevel : options.lineBreak ≠ .anywhere) :
    KeepsSequences tables characters options ↔
      options.wrap = false ∧ (∀ position, BetweenIndicators tables characters position →
        OddIndicators tables characters position ∨ AfterJoiner characters position) ∨
      options.wrap = true ∧ JoinersHeld tables characters options ∧ LeadingParity tables characters := by
  have hinside {position : ℕ} (h : BetweenIndicators tables characters position) : position ≤ characters.length := by
    obtain ⟨before, after, hbeside⟩ := beside_of_betweenIndicators tables options h
    exact hbeside.inside.2.le
  cases hwrap : options.wrap with
  | false =>
    simp only [true_and, Bool.false_eq_true, false_and, or_false]
    constructor
    · intro hkeeps position hbetween
      by_contra hneither
      rw [not_or] at hneither
      exact entry_of_not_wrap tables hwrap (hinside hbetween)
        ((hkeeps position (hinside hbetween)).2.2.2 hbetween hneither.1 hneither.2)
    · intro hodd position hposition
      have hentry := entry_of_not_wrap tables hwrap hposition
      exact ⟨fun _ => hentry, fun _ => hentry, fun _ _ => hentry,
        fun hbetween hnot hjoiner => absurd (hodd position hbetween) (not_or.2 ⟨hnot, hjoiner⟩)⟩
  | true =>
    simp only [Bool.true_eq_false, false_and, true_and, false_or]
    constructor
    · refine fun hkeeps => ⟨fun position before after hbeside hjoiner hflag => ?_, fun position hbetween => ?_⟩
      · rw [← entry_joiner tables hlevel hwrap hbeside hjoiner hflag]
        exact (hkeeps position hbeside.inside.2.le).2.1 ((afterJoiner_iff tables hbeside).2 hjoiner)
      · obtain ⟨-, hjoiner, hodd, heven⟩ := hkeeps position (hinside hbetween)
        have hentry := entry_indicators tables hlevel hwrap hbetween
        constructor
        · intro hleading
          by_contra hneither
          rw [not_or] at hneither
          have hzero := hentry.1 (heven hbetween hneither.1 hneither.2)
          omega
        · intro heither
          have hnot : ¬(opportunities tables characters options)[position]? = some .allowed :=
            heither.elim (hodd hbetween) hjoiner
          rw [hentry] at hnot
          omega
    · rintro ⟨hjoiners, hparity⟩ position hposition
      refine ⟨entry_beforeMark tables hlevel hposition, fun hjoiner => ?_, fun hbetween hodd hentry => ?_,
        fun hbetween hnot hnotJoiner => ?_⟩
      · rcases Nat.lt_or_eq_of_le hposition with hlt | rfl
        · have hpos : 0 < position := by
            refine Nat.pos_of_ne_zero fun hzero => ?_
            rw [hzero] at hjoiner
            cases hjoiner
          have hlength : position < (unitsAt tables characters options).length := by
            rw [unitsAt_length]
            exact hlt
          rcases beside_or_attached hpos hlength with ⟨before, after, hbeside⟩ | hattached
          · by_cases hflag : before.class' = .ri ∧ after.class' = .ri
            · have hbetween := (betweenIndicators_iff tables hbeside).2 hflag
              have hodd := (hparity position hbetween).2 (Or.inr hjoiner)
              rw [ne_eq, entry_indicators tables hlevel hwrap hbetween]
              omega
            · rw [entry_joiner tables hlevel hwrap hbeside ((afterJoiner_iff tables hbeside).1 hjoiner) hflag]
              exact hjoiners position before after hbeside ((afterJoiner_iff tables hbeside).1 hjoiner) hflag
          · exact entry_beforeMark tables hlevel hposition ((attached_iff tables position).1 hattached)
        · exact entry_end tables options
      · have hleading := (hparity position hbetween).2 (Or.inl hodd)
        rw [entry_indicators tables hlevel hwrap hbetween] at hentry
        omega
      · rw [entry_indicators tables hlevel hwrap hbetween]
        have hleading := mt (hparity position hbetween).1 (not_or.2 ⟨hnot, hnotJoiner⟩)
        omega

end

/-- the condition at a letter, a flag and its half -/
theorem keepsSequences_iff_sample :
    KeepsSequences sampleTables ['a', Char.ofNat 0x1F1E9, Char.ofNat 0x1F1EA] (plain true) ↔
      (plain true).wrap = false ∧ (∀ position, BetweenIndicators sampleTables
          ['a', Char.ofNat 0x1F1E9, Char.ofNat 0x1F1EA] position →
        OddIndicators sampleTables ['a', Char.ofNat 0x1F1E9, Char.ofNat 0x1F1EA] position ∨
          AfterJoiner ['a', Char.ofNat 0x1F1E9, Char.ofNat 0x1F1EA] position) ∨
      (plain true).wrap = true ∧ JoinersHeld sampleTables ['a', Char.ofNat 0x1F1E9, Char.ofNat 0x1F1EA] (plain true) ∧
        LeadingParity sampleTables ['a', Char.ofNat 0x1F1E9, Char.ofNat 0x1F1EA] :=
  keepsSequences_iff sampleTables _ (by decide)

/-- a flag behind a letter is broken in two -/
theorem not_keepsSequences : ¬∀ (tables : Tables) (characters : List Char) (options : LineBreakOptions),
    options.lineBreak ≠ .anywhere → KeepsSequences tables characters options := by
  intro h
  have hflag := (h sampleTables ['a', Char.ofNat 0x1F1E9, Char.ofNat 0x1F1EA] (plain true) (by decide) 2
    (by decide)).2.2.1 (by unfold BetweenIndicators; decide) (by unfold OddIndicators; decide)
  exact hflag (by decide)

end Render.Layout.LineBreak
