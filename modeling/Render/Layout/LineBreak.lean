/-
Where a line may break: the line breaking algorithm with the tailorings of `word-break` and `line-break`.

A text is its characters, each with the options of the element it stands in. The characters become units
(`resolveFrom`): a combining mark joins the base in front of it and takes that base's class, and a mark without one
counts as a letter. The options then rewrite the classes (`tailored`), and the rules are asked at each position, one
after another in their order (`rules`). What they read there, the classes on both sides and what is found by looking
further to either side, is gathered first (`Surroundings`), so that two texts can be compared by what the rules see.

The tables of the character database are a parameter; of them only what is used of single characters and classes is
recorded, beside the tables themselves.
-/
import Mathlib.Data.List.Basic
import Mathlib.Order.Nat

namespace Render.Layout.LineBreak

/-- the line breaking classes that are kept distinct -/
inductive LineBreakClass where
  | bk | cr | lf | nl | cm | wj | zw | gl | sp | zwj | b2 | ba | bb | hy | hh | inseparable | cl | cp | ex | ns | op
  | qu | is | nu | po | pr | sy | id | cj | hl | h2 | h3 | jl | jv | jt | ri | eb | em | al
  deriving DecidableEq

/-- LB9's exception: a mark behind one of these has no base -/
def LineBreakClass.absorbsCombining (c : LineBreakClass) : Bool := c ∉ [.bk, .cr, .lf, .nl, .sp, .zw]

/-- the generated tables, with what they say of the characters and classes that the code names -/
structure Tables where
  lineBreakClass : Char → LineBreakClass
  isEastAsian : Char → Bool
  isEastAsianOrAmbiguous : Char → Bool
  joiner : ∀ character, lineBreakClass character = .zwj ↔ character = '\u200d'
  waveDash : lineBreakClass '\u301c' = .ns
  doubleHyphen : lineBreakClass '\u30a0' = .ns
  hyphen : lineBreakClass '\u2010' = .hh
  enDash : lineBreakClass '\u2013' = .ba
  quotationMarks : ∀ character, lineBreakClass character = .qu → isEastAsian character = false

inductive WordBreak where
  | normal | breakAll | keepAll | breakWord
  deriving DecidableEq

inductive LineBreakStrictness where
  | auto | loose | normal | strict | anywhere
  deriving DecidableEq

/-- `auto` and `normal` are one answer -/
def LineBreakStrictness.normalized : LineBreakStrictness → LineBreakStrictness
  | .auto => .normal
  | other => other

structure LineBreakOptions where
  wordBreak : WordBreak
  lineBreak : LineBreakStrictness
  wrap : Bool
  deriving DecidableEq

inductive Break where
  | prohibited | allowed | mandatory
  deriving DecidableEq

def Break.isBreak (b : Break) : Bool := b ≠ .prohibited

/-- a character with the class that the rules read; `attached` marks a combining mark that joined its base -/
structure TextUnit where
  character : Char
  class' : LineBreakClass
  attached : Bool
  deriving DecidableEq

/-- a text with what `options_for` answers for each of its characters -/
abbrev Text := List (Char × LineBreakOptions)

/-- the resolved units, and the options at each of them -/
structure Context where
  units : List TextUnit
  options : List LineBreakOptions

section

variable (tables : Tables)

/-! ## Units -/

/-- LB1, LB9 and LB10: `opened` is the class of the sequence that a combining mark joins -/
def resolveFrom (opened : Option LineBreakClass) : List Char → List TextUnit
  | [] => []
  | character :: rest =>
    let c := tables.lineBreakClass character
    if c = .cm ∨ c = .zwj then
      match opened with
      | some base =>
        if base.absorbsCombining then ⟨character, base, true⟩ :: resolveFrom opened rest
        else ⟨character, .al, false⟩ :: resolveFrom (some .al) rest
      | none => ⟨character, .al, false⟩ :: resolveFrom (some .al) rest
    else ⟨character, c, false⟩ :: resolveFrom (some c) rest

/-- the class `break-all` gives -/
def brokenAll (wordBreak : WordBreak) (c : LineBreakClass) : LineBreakClass :=
  if wordBreak = .breakAll ∧ c ∈ [.al, .hl, .nu] then .id else c

/-- the class the strictness gives to a character of class `c` -/
def loosened (strictness : LineBreakStrictness) (character : Char) (c : LineBreakClass) : LineBreakClass :=
  match strictness with
  | .strict => if c = .cj then .ns else c
  | .normal => if character ∈ ['\u301c', '\u30a0'] then .id else if c = .cj then .ns else c
  | .loose =>
    let c := if c ∈ [.ns, .cj, .inseparable, .ex] then .id else c
    let c := if character ∈ ['\u2010', '\u2013'] then .id else c
    if c ∈ [.po, .pr] ∧ tables.isEastAsianOrAmbiguous character then .id else c
  | .auto | .anywhere => c

/-- `tailor`, at one unit: a combining mark keeps the class of its base as the tables have it -/
def tailored (options : LineBreakOptions) (unit : TextUnit) : TextUnit :=
  if unit.attached then unit
  else { unit with
    class' := loosened tables options.lineBreak.normalized unit.character (brokenAll options.wordBreak unit.class') }

def resolve (text : Text) : Context where
  units := List.zipWith (tailored tables) (text.map (·.2)) (resolveFrom tables none (text.map (·.1)))
  options := text.map (·.2)

/-! ## What the rules look at -/

/-- the unit before a position -/
def previous (units : List TextUnit) : ℕ → Option TextUnit
  | 0 => none
  | position + 1 => units[position]?

/-- the nearest unit before a position that is no space -/
def previousSkippingSpaces (units : List TextUnit) (position : ℕ) : Option TextUnit :=
  (units.take position).reverse.find? fun unit => unit.class' ≠ .sp

/-- the unit in front of the one before a position -/
def twoBefore (units : List TextUnit) : ℕ → Option TextUnit
  | position + 2 => units[position]?
  | _ => none

/-- whether a digit is among the first of these that are digits or separators -/
def numberFirst : List TextUnit → Bool
  | [] => false
  | unit :: rest =>
    match unit.class' with
    | .nu => true
    | .sy | .is => numberFirst rest
    | _ => false

/-- whether the units before a position end in a number, with the separators behind it -/
def precededByNumber (units : List TextUnit) (position : ℕ) : Bool := numberFirst (units.take position).reverse

/-- LB30a's parity as the code takes it: it counts the regional indicators that the text begins with -/
def precededByEvenRegionalIndicators (units : List TextUnit) (position : ℕ) : Bool :=
  ((units.take position).takeWhile fun unit => unit.class' = .ri).length % 2 = 0

/-- whether the unit at an index is a quotation mark without an East Asian neighbour on both sides -/
def holdsQuotation (units : List TextUnit) (index : ℕ) : Bool :=
  units[index]?.any fun unit => unit.class' = .qu ∧
    ¬((previous units index).any (tables.isEastAsian ·.character) ∧
      units[index + 1]?.any (tables.isEastAsian ·.character))

/-- LB19 and LB19a -/
def quotationProhibits (units : List TextUnit) (position : ℕ) : Bool :=
  (position ≠ 0 ∧ holdsQuotation tables units (position - 1)) ∨ holdsQuotation tables units position

/-- what the rules see at a position inside the text -/
structure Surroundings where
  before : LineBreakClass
  after : LineBreakClass
  beforeEastAsian : Bool
  afterEastAsian : Bool
  skippingSpaces : Option LineBreakClass
  twoBefore : Option LineBreakClass
  following : Option LineBreakClass
  precededByNumber : Bool
  precededByNumberBefore : Bool
  evenIndicators : Bool
  quotation : Bool
  deriving DecidableEq

def surroundings (units : List TextUnit) (position : ℕ) (before after : TextUnit) : Surroundings where
  before := before.class'
  after := after.class'
  beforeEastAsian := tables.isEastAsian before.character
  afterEastAsian := tables.isEastAsian after.character
  skippingSpaces := (previousSkippingSpaces units position).map (·.class')
  twoBefore := (LineBreak.twoBefore units position).map (·.class')
  following := units[position + 1]?.map (·.class')
  precededByNumber := LineBreak.precededByNumber units position
  precededByNumberBefore := LineBreak.precededByNumber units (position - 1)
  evenIndicators := precededByEvenRegionalIndicators units position
  quotation := quotationProhibits tables units position

end

/-! ## The rules -/

namespace Surroundings

variable (s : Surroundings)

/-- LB4 and LB5 -/
def hardBreakEndsTheLine : Bool := s.before ∈ [.bk, .nl, .lf] ∨ s.before = .cr ∧ s.after ≠ .lf

def lb6 : Bool := s.after ∈ [.bk, .cr, .lf, .nl]

def lb7 : Bool := s.after ∈ [.sp, .zw]

/-- LB8 allows a break -/
def lb8 : Bool := s.skippingSpaces = some .zw

def lb8a : Bool := s.before = .zwj

def lb11 : Bool := s.before ∈ [.wj, .gl] ∨ s.after = .wj

def lb12a : Bool := s.after = .gl ∧ s.before ∉ [.sp, .hy, .hh]

def lb13 : Bool := s.after ∈ [.cl, .cp, .ex, .sy]

def lb14 : Bool := s.skippingSpaces = some .op

/-- LB15c allows a break -/
def lb15c : Bool := s.before = .sp ∧ s.after = .is ∧ s.following = some .nu

def lb15d : Bool := s.after = .is

def lb16 : Bool := s.after = .ns ∧ s.skippingSpaces ∈ [some .cl, some .cp]

def lb17 : Bool := s.after = .b2 ∧ s.skippingSpaces = some .b2

/-- LB18 allows a break -/
def lb18 : Bool := s.before = .sp

def lb20a : Bool :=
  s.before ∈ [.hy, .hh] ∧ s.after ∈ [.al, .hl] ∧
    s.twoBefore ∈ [none, some .bk, some .cr, some .lf, some .nl, some .sp, some .zw, some .gl]

def lb21 : Bool := s.after ∈ [.ba, .hh, .hy, .ns] ∨ s.before = .bb

def lb21a : Bool := s.before ∈ [.hy, .hh] ∧ s.after ≠ .hl ∧ s.twoBefore = some .hl

def lb21b : Bool := s.before = .sy ∧ s.after = .hl

def lb22 : Bool := s.after = .inseparable

def lb23 : Bool := s.before ∈ [.al, .hl] ∧ s.after = .nu ∨ s.before = .nu ∧ s.after ∈ [.al, .hl]

def lb23a : Bool := s.before = .pr ∧ s.after ∈ [.id, .eb, .em] ∨ s.before ∈ [.id, .eb, .em] ∧ s.after = .po

def lb24 : Bool := s.before ∈ [.pr, .po] ∧ s.after ∈ [.al, .hl] ∨ s.before ∈ [.al, .hl] ∧ s.after ∈ [.pr, .po]

/-- LB25 in front of a prefix or a postfix -/
def lb25Affix : Bool :=
  s.after ∈ [.po, .pr] ∧ (s.precededByNumber ∨ s.before ∈ [.cl, .cp] ∧ s.precededByNumberBefore)

/-- LB25 behind a prefix or a postfix -/
def lb25Opening : Bool :=
  s.before ∈ [.po, .pr] ∧ (s.after = .nu ∨ s.after = .op ∧ s.following ∈ [some .nu, some .is])

/-- LB25 behind a separator or a hyphen, and inside a number -/
def lb25Infix : Bool := s.before = .is ∨ s.before = .hy ∧ s.after = .nu ∨ s.after = .nu ∧ s.precededByNumber

def lb26 : Bool :=
  s.before = .jl ∧ s.after ∈ [.jl, .jv, .h2, .h3] ∨ s.before ∈ [.jv, .h2] ∧ s.after ∈ [.jv, .jt] ∨
    s.before ∈ [.jt, .h3] ∧ s.after = .jt

def lb27 : Bool :=
  s.before ∈ [.jl, .jv, .jt, .h2, .h3] ∧ s.after = .po ∨ s.before = .pr ∧ s.after ∈ [.jl, .jv, .jt, .h2, .h3]

def lb28 : Bool := s.before ∈ [.al, .hl] ∧ s.after ∈ [.al, .hl]

def lb29 : Bool := s.before = .is ∧ s.after ∈ [.al, .hl]

def lb30Opening : Bool := s.after = .op ∧ ¬s.afterEastAsian ∧ s.before ∈ [.al, .hl, .nu]

def lb30Closing : Bool := s.before = .cp ∧ ¬s.beforeEastAsian ∧ s.after ∈ [.al, .hl, .nu]

def lb30a : Bool := s.before = .ri ∧ s.after = .ri

def lb30b : Bool := s.before = .eb ∧ s.after = .em

/-- LB19 to LB30, with the rules for spaces decided: which of the rules that only prohibit apply -/
def bound : Bool :=
  s.lb20a ∨ s.lb21 ∨ s.lb21a ∨ s.lb21b ∨ s.lb22 ∨ s.lb23 ∨ s.lb23a ∨ s.lb24 ∨ s.lb25Affix ∨ s.lb25Opening ∨
    s.lb25Infix ∨ s.lb26 ∨ s.lb27 ∨ s.lb28 ∨ s.lb29 ∨ s.lb30Opening ∨ s.lb30Closing

/-- the rules from LB4 on, in their order -/
def rules : Break :=
  if s.hardBreakEndsTheLine then .mandatory
  else if s.lb6 then .prohibited
  else if s.lb7 then .prohibited
  else if s.lb8 then .allowed
  else if s.lb8a then .prohibited
  else if s.lb11 then .prohibited
  else if s.lb12a then .prohibited
  else if s.lb13 then .prohibited
  else if s.lb14 then .prohibited
  else if s.lb15c then .allowed
  else if s.lb15d then .prohibited
  else if s.lb16 then .prohibited
  else if s.lb17 then .prohibited
  else if s.lb18 then .allowed
  else if s.bound then .prohibited
  else if s.lb30a then if s.evenIndicators then .allowed else .prohibited
  else if s.lb30b then .prohibited
  else if s.quotation then .prohibited
  else .allowed

end Surroundings

section

variable (tables : Tables)

/-- the decision at a position between two units, with the start and the end of the text -/
def decide (units : List TextUnit) (position : ℕ) : Break :=
  if units[position]?.any (·.attached) then .prohibited
  else
    match previous units position with
    | none => .prohibited
    | some before =>
      match units[position]? with
      | none => .mandatory
      | some after => (surroundings tables units position before after).rules

/-! ## Opportunities -/

/-- the classes that `keep-all` takes as one word -/
def isLetterLike (c : LineBreakClass) : Bool := c ∈ [.al, .hl, .nu, .id, .cj]

/-- whether both sides of a position are units of one word -/
def pairIsLetterLike (units : List TextUnit) (position : ℕ) : Bool :=
  (previous units position).any (isLetterLike ·.class') ∧ units[position]?.any (isLetterLike ·.class')

def anywhereAt (options : List LineBreakOptions) (position : ℕ) : Bool :=
  options[position]?.any (·.lineBreak = .anywhere)

def keepAllAt (options : List LineBreakOptions) (position : ℕ) : Bool :=
  options[position]?.any (·.wordBreak = .keepAll)

/-- the closure of `opportunities_with`, behind the question whether the position wraps -/
def ruled (context : Context) (position : ℕ) : Break :=
  let breakAt := decide tables context.units position
  if anywhereAt context.options position then
    if position = 0 then .prohibited else if breakAt = .mandatory then .mandatory else .allowed
  else if ¬breakAt.isBreak ∨ position = 0 ∨ position = context.units.length then breakAt
  else if keepAllAt context.options position ∧ pairIsLetterLike context.units position then .prohibited
  else breakAt

def lastWraps (options : List LineBreakOptions) : Bool := options.getLast?.any (·.wrap)

/-- whether the options of a position, which are the last character's at the end of the text, permit wrapping -/
def wrapsAt (options : List LineBreakOptions) (position : ℕ) : Bool :=
  (options[position]?.or options.getLast?).any (·.wrap)

/-- one entry for each position, the end of the text included -/
def opportunitiesWith (text : Text) : List Break :=
  let context := resolve tables text
  if ¬lastWraps context.options then .replicate (text.length + 1) .prohibited
  else (List.range (text.length + 1)).map fun position =>
    if ¬wrapsAt context.options position then .prohibited else ruled tables context position

def opportunities (characters : List Char) (options : LineBreakOptions) : List Break :=
  opportunitiesWith tables (characters.map fun character => (character, options))

/-! ## One entry for each position -/

theorem resolveFrom_length (opened : Option LineBreakClass) (characters : List Char) :
    (resolveFrom tables opened characters).length = characters.length := by
  induction characters generalizing opened with
  | nil => rfl
  | cons character rest ih =>
    unfold resolveFrom
    dsimp only
    by_cases hmark : tables.lineBreakClass character = .cm ∨ tables.lineBreakClass character = .zwj
    · rw [if_pos hmark]
      cases opened with
      | none => simp [ih]
      | some base => by_cases h : base.absorbsCombining <;> simp [h, ih]
    · simp [hmark, ih]

@[simp] theorem resolve_units_length (text : Text) : (resolve tables text).units.length = text.length := by
  simp [resolve, resolveFrom_length]

@[simp] theorem resolve_options (text : Text) : (resolve tables text).options = text.map (·.2) := rfl

@[simp] theorem opportunitiesWith_length (text : Text) : (opportunitiesWith tables text).length = text.length + 1 := by
  rw [opportunitiesWith]
  split_ifs <;> simp

/-- the entry of a position is the rules' decision, or none where wrapping is forbidden there or at the end -/
theorem opportunitiesWith_getElem? {text : Text} {position : ℕ} (h : position ≤ text.length) :
    (opportunitiesWith tables text)[position]? = some
      (if lastWraps (text.map (·.2)) ∧ wrapsAt (text.map (·.2)) position then
        ruled tables (resolve tables text) position else .prohibited) := by
  have hinside : position < text.length + 1 := Nat.lt_succ_of_le h
  rw [opportunitiesWith, resolve_options]
  by_cases hlast : lastWraps (text.map (·.2))
  · by_cases hwraps : wrapsAt (text.map (·.2)) position <;> simp [hlast, hwraps, hinside]
  · simp [hlast, hinside]

theorem decide_zero (units : List TextUnit) : decide tables units 0 = .prohibited := by
  rw [decide, previous]
  split_ifs <;> rfl

/-! ## The units of a text -/

/-- the classes of the units before tailoring: that of the character, a base's, or a letter's for a mark alone -/
def TextUnit.Raw (tables : Tables) (unit : TextUnit) : Prop :=
  unit.attached ∨ unit.class' = tables.lineBreakClass unit.character ∨
    tables.lineBreakClass unit.character ∈ [.cm, .zwj] ∧ unit.class' = .al

theorem resolveFrom_raw (opened : Option LineBreakClass) (characters : List Char) :
    ∀ unit ∈ resolveFrom tables opened characters, unit.Raw tables := by
  induction characters generalizing opened with
  | nil => nofun
  | cons character rest ih =>
    have halone (hmark : tables.lineBreakClass character = .cm ∨ tables.lineBreakClass character = .zwj) :
        ∀ unit ∈ ⟨character, .al, false⟩ :: resolveFrom tables (some .al) rest, unit.Raw tables := by
      refine List.forall_mem_cons.2 ⟨Or.inr (Or.inr ⟨?_, rfl⟩), ih _⟩
      simpa using hmark
    unfold resolveFrom
    dsimp only
    by_cases hmark : tables.lineBreakClass character = .cm ∨ tables.lineBreakClass character = .zwj
    · rw [if_pos hmark]
      cases opened with
      | none => exact halone hmark
      | some base =>
        dsimp only
        by_cases hbase : base.absorbsCombining
        · rw [if_pos hbase]
          exact List.forall_mem_cons.2 ⟨Or.inl rfl, ih _⟩
        · rw [if_neg hbase]
          exact halone hmark
    · rw [if_neg hmark]
      exact List.forall_mem_cons.2 ⟨Or.inr (Or.inl rfl), ih _⟩

@[simp] theorem tailored_character (options : LineBreakOptions) (unit : TextUnit) :
    (tailored tables options unit).character = unit.character := by
  rw [tailored]
  split_ifs <;> rfl

@[simp] theorem tailored_attached (options : LineBreakOptions) (unit : TextUnit) :
    (tailored tables options unit).attached = unit.attached := by
  rw [tailored]
  split_ifs <;> rfl

theorem resolve_uniform_units (characters : List Char) (options : LineBreakOptions) :
    (resolve tables (characters.map fun character => (character, options))).units =
      (resolveFrom tables none characters).map (tailored tables options) := by
  have hzip : ∀ (characters : List Char) (units : List TextUnit), units.length = characters.length →
      List.zipWith (tailored tables) (characters.map fun _ => options) units = units.map (tailored tables options) := by
    intro characters
    induction characters with
    | nil =>
      intro units h
      rw [List.length_eq_zero_iff.1 h]
      rfl
    | cons character rest ih =>
      intro units h
      cases units with
      | nil => cases h
      | cons unit units =>
        rw [List.map_cons, List.zipWith_cons_cons, List.map_cons, ih units (Nat.succ.inj h)]
  rw [resolve]
  simp only [List.map_map, Function.comp_def, List.map_id']
  exact hzip characters _ (resolveFrom_length tables none characters)

/-- a named character alone has the class of the tables -/
theorem class_of_raw {unit : TextUnit} {c : LineBreakClass} (hraw : unit.Raw tables) (hattached : ¬unit.attached)
    (hclass : tables.lineBreakClass unit.character = c) (hc : c ∉ [.cm, .zwj]) : unit.class' = c := by
  rcases hraw with h | h | ⟨h, -⟩
  · exact absurd h hattached
  · exact h.trans hclass
  · exact absurd (hclass ▸ h) hc

/-! ## What the rules see of the units around a position -/

/-- what holds of surroundings that are those of a text -/
structure Surroundings.Seen (s : Surroundings) : Prop where
  skips : s.before ≠ .sp → s.skippingSpaces = some s.before
  unnumbered : s.before ∉ [.nu, .sy, .is] → s.precededByNumber = false
  unquoted : s.before ≠ .qu → s.after ≠ .qu → s.quotation = false

@[simp] theorem surroundings_before (units : List TextUnit) (position : ℕ) (before after : TextUnit) :
    (surroundings tables units position before after).before = before.class' := rfl

@[simp] theorem surroundings_after (units : List TextUnit) (position : ℕ) (before after : TextUnit) :
    (surroundings tables units position before after).after = after.class' := rfl

@[simp] theorem surroundings_evenIndicators (units : List TextUnit) (position : ℕ) (before after : TextUnit) :
    (surroundings tables units position before after).evenIndicators =
      precededByEvenRegionalIndicators units position := rfl

theorem take_of_previous {units : List TextUnit} {position : ℕ} {before : TextUnit}
    (h : previous units position = some before) :
    ∃ front, units.take position = front ++ [before] := by
  cases position with
  | zero => cases h
  | succ position =>
    refine ⟨units.take position, ?_⟩
    rw [List.take_add_one]
    simp only [previous] at h
    rw [h]
    rfl

theorem seen_surroundings {units : List TextUnit} {position : ℕ} {before after : TextUnit}
    (hbefore : previous units position = some before) (hafter : units[position]? = some after) :
    (surroundings tables units position before after).Seen where
  skips hspace := by
    obtain ⟨front, hfront⟩ := take_of_previous hbefore
    simp only [surroundings] at hspace ⊢
    rw [previousSkippingSpaces, hfront]
    simp [hspace]
  unnumbered hclass := by
    obtain ⟨front, hfront⟩ := take_of_previous hbefore
    simp only [surroundings] at hclass ⊢
    rw [precededByNumber, hfront, List.reverse_append]
    simp only [List.reverse_singleton, List.singleton_append, numberFirst]
    split
    · simp_all
    · simp_all
    · simp_all
    · rfl
  unquoted hbeforeClass hafterClass := by
    cases position with
    | zero => cases hbefore
    | succ position =>
      simp only [previous] at hbefore
      simp only [surroundings] at hbeforeClass hafterClass ⊢
      simp [quotationProhibits, holdsQuotation, hbefore, hafter, hbeforeClass, hafterClass]

namespace Surroundings

/-- the rules leave a break -/
def breaks (s : Surroundings) : Prop :=
  s.hardBreakEndsTheLine ∨ ¬s.lb6 ∧ ¬s.lb7 ∧
    (s.lb8 ∨ ¬s.lb8a ∧ ¬s.lb11 ∧ ¬s.lb12a ∧ ¬s.lb13 ∧ ¬s.lb14 ∧
      (s.lb15c ∨ ¬s.lb15d ∧ ¬s.lb16 ∧ ¬s.lb17 ∧
        (s.lb18 ∨ ¬s.bound ∧ (s.lb30a ∧ s.evenIndicators ∨ ¬s.lb30a ∧ ¬s.lb30b ∧ ¬s.quotation))))

theorem ite_prohibited_iff (p : Bool) (b : Break) :
    (if p then .prohibited else b) ≠ Break.prohibited ↔ ¬p ∧ b ≠ .prohibited := by
  cases p <;> simp

theorem ite_allowed_iff (p : Bool) (b : Break) :
    (if p then .allowed else b) ≠ Break.prohibited ↔ p ∨ b ≠ .prohibited := by
  cases p <;> simp

theorem rules_ne_prohibited_iff (s : Surroundings) : s.rules ≠ .prohibited ↔ s.breaks := by
  rw [rules, breaks]
  by_cases hhard : s.hardBreakEndsTheLine
  · simp [hhard]
  · rw [if_neg hhard]
    simp only [ite_prohibited_iff, ite_allowed_iff, hhard]
    by_cases hindicators : s.lb30a
    · cases s.evenIndicators <;> simp [hindicators]
    · simp [hindicators]

/-- with the pairs of letters that `keep-all` holds together -/
def leaves (s : Surroundings) (keepAll : Bool) : Prop :=
  s.breaks ∧ ¬(keepAll ∧ isLetterLike s.before ∧ isLetterLike s.after)

end Surroundings

/-! ## Positions -/

/-- a line may end at a position of a text that has the same options throughout -/
def breakAt (characters : List Char) (options : LineBreakOptions) (position : ℕ) : Prop :=
  ∃ b, (opportunities tables characters options)[position]? = some b ∧ b.isBreak

/-- the units on both sides of a position, where the one behind it is no attached mark -/
def Beside (units : List TextUnit) (position : ℕ) (before after : TextUnit) : Prop :=
  previous units position = some before ∧ units[position]? = some after ∧ ¬after.attached

def unitsAt (characters : List Char) (options : LineBreakOptions) : List TextUnit :=
  (resolve tables (characters.map fun character => (character, options))).units

theorem decide_beside {units : List TextUnit} {position : ℕ} {before after : TextUnit}
    (h : Beside units position before after) :
    decide tables units position = (surroundings tables units position before after).rules := by
  obtain ⟨hbefore, hafter, hattached⟩ := h
  rw [decide, hbefore, hafter, if_neg (by simpa using hattached)]

theorem decide_attached {units : List TextUnit} {position : ℕ} (h : units[position]?.any (·.attached)) :
    decide tables units position = .prohibited := by
  rw [decide, if_pos h]

/-- a position inside the text is between two units, or in front of an attached mark -/
theorem beside_or_attached {units : List TextUnit} {position : ℕ} (hpos : 0 < position)
    (hlength : position < units.length) :
    (∃ before after, Beside units position before after) ∨ units[position]?.any (·.attached) := by
  obtain ⟨position, rfl⟩ : ∃ before, position = before + 1 := ⟨position - 1, by omega⟩
  have hafter := List.getElem?_eq_getElem hlength
  have hbefore : previous units (position + 1) = some units[position] := List.getElem?_eq_getElem (by omega)
  by_cases hattached : units[position + 1].attached
  · exact Or.inr (by simp [hafter, hattached])
  · exact Or.inl ⟨_, _, hbefore, hafter, hattached⟩

theorem decide_end {units : List TextUnit} (h : units ≠ []) : decide tables units units.length = .mandatory := by
  obtain ⟨front, last, rfl⟩ := List.eq_nil_or_concat' units |>.resolve_left h
  have hbefore : previous (front ++ [last]) (front ++ [last]).length = some last := by simp [previous]
  rw [decide, List.getElem?_eq_none (Nat.le_refl _), hbefore]
  rfl

theorem uniform_options (characters : List Char) (options : LineBreakOptions) :
    ((characters.map fun character => (character, options)).map (·.2)) = List.replicate characters.length options := by
  simp only [List.map_map, Function.comp_def, List.map_const']

/-- where a text has the same options throughout, the entry of a position is the rules' decision if it wraps -/
theorem opportunities_getElem? {characters : List Char} {options : LineBreakOptions} {position : ℕ}
    (hposition : position ≤ characters.length) :
    (opportunities tables characters options)[position]? = some (if characters ≠ [] ∧ options.wrap then
      ruled tables (resolve tables (characters.map fun character => (character, options))) position
      else .prohibited) := by
  rw [opportunities, opportunitiesWith_getElem? tables (by simpa using hposition), uniform_options]
  cases characters with
  | nil => simp [lastWraps]
  | cons character rest =>
    have hlast : lastWraps (List.replicate (rest.length + 1) options) = options.wrap := by
      simp [lastWraps, List.getLast?_replicate]
    have hwraps : wrapsAt (List.replicate (rest.length + 1) options) position = options.wrap := by
      rw [wrapsAt, List.getElem?_replicate, List.getLast?_replicate]
      split_ifs <;> simp_all
    rw [List.length_cons, hlast, hwraps]
    simp

theorem breakAt_iff_ruled {characters : List Char} {options : LineBreakOptions} {position : ℕ}
    (hposition : position ≤ characters.length) :
    breakAt tables characters options position ↔ characters ≠ [] ∧ options.wrap ∧
      (ruled tables (resolve tables (characters.map fun character => (character, options))) position).isBreak := by
  rw [breakAt, opportunities_getElem? tables hposition]
  by_cases h : characters ≠ [] ∧ options.wrap
  · simp [h]
  · rw [if_neg h]
    simp only [ne_eq, not_and] at h
    simp +contextual [Break.isBreak, h]

theorem Beside.unique {units : List TextUnit} {position : ℕ} {before after before' after' : TextUnit}
    (h : Beside units position before after) (h' : Beside units position before' after') :
    before' = before ∧ after' = after :=
  ⟨Option.some.inj (h'.1.symm.trans h.1), Option.some.inj (h'.2.1.symm.trans h.2.1)⟩

/-- some units beside the position leave it a break -/
def Leaves (keepAll : Bool) (units : List TextUnit) (position : ℕ) : Prop :=
  ∃ before after, Beside units position before after ∧
    (surroundings tables units position before after).leaves keepAll

/-- the decision of the closure, without the positions of `anywhere` -/
theorem ruled_uniform (characters : List Char) {options : LineBreakOptions} (hlevel : options.lineBreak ≠ .anywhere)
    (position : ℕ) :
    ruled tables (resolve tables (characters.map fun character => (character, options))) position =
      if ¬(decide tables (unitsAt tables characters options) position).isBreak ∨ position = 0 ∨
          position = characters.length then decide tables (unitsAt tables characters options) position
      else if keepAllAt (List.replicate characters.length options) position ∧
          pairIsLetterLike (unitsAt tables characters options) position then .prohibited
      else decide tables (unitsAt tables characters options) position := by
  have hany : anywhereAt (List.replicate characters.length options) position = false := by
    rw [anywhereAt, List.getElem?_replicate]
    split_ifs <;> simp [hlevel]
  rw [ruled, resolve_options, uniform_options, hany, resolve_units_length, List.length_map]
  rfl

theorem unitsAt_length (characters : List Char) (options : LineBreakOptions) :
    (unitsAt tables characters options).length = characters.length := by
  simp [unitsAt]

theorem Beside.inside {characters : List Char} {options : LineBreakOptions} {position : ℕ} {before after : TextUnit}
    (h : Beside (unitsAt tables characters options) position before after) :
    0 < position ∧ position < characters.length := by
  constructor
  · refine Nat.pos_of_ne_zero fun hzero => ?_
    have hbefore := h.1
    rw [hzero] at hbefore
    cases hbefore
  · rw [← unitsAt_length tables characters options]
    exact (List.getElem?_eq_some_iff.1 h.2.1).1

theorem ruled_beside {characters : List Char} {options : LineBreakOptions} (hlevel : options.lineBreak ≠ .anywhere)
    {position : ℕ} {before after : TextUnit} (h : Beside (unitsAt tables characters options) position before after) :
    ruled tables (resolve tables (characters.map fun character => (character, options))) position =
      if options.wordBreak = .keepAll ∧ isLetterLike before.class' ∧ isLetterLike after.class' then .prohibited
      else (surroundings tables (unitsAt tables characters options) position before after).rules := by
  obtain ⟨hpos, hinside⟩ := h.inside
  have hheld : keepAllAt (List.replicate characters.length options) position ∧
        pairIsLetterLike (unitsAt tables characters options) position ↔
      options.wordBreak = .keepAll ∧ isLetterLike before.class' ∧ isLetterLike after.class' := by
    simp [keepAllAt, hinside, pairIsLetterLike, h.1, h.2.1]
  rw [ruled_uniform tables characters hlevel, decide_beside tables h]
  simp only [hheld]
  by_cases hbreak : (surroundings tables (unitsAt tables characters options) position before after).rules = .prohibited
  · simp [hbreak]
  · simp [Break.isBreak, hbreak, hpos.ne', hinside.ne]

theorem ruled_attached {characters : List Char} {options : LineBreakOptions} (hlevel : options.lineBreak ≠ .anywhere)
    {position : ℕ} (h : (unitsAt tables characters options)[position]?.any (·.attached)) :
    ruled tables (resolve tables (characters.map fun character => (character, options))) position = .prohibited := by
  rw [ruled_uniform tables characters hlevel, decide_attached tables h]
  rfl

theorem ruled_end {characters : List Char} (options : LineBreakOptions) (h : characters ≠ []) :
    ruled tables (resolve tables (characters.map fun character => (character, options))) characters.length =
      .mandatory := by
  have hunits : unitsAt tables characters options ≠ [] := by
    rw [← List.length_pos_iff, unitsAt_length]
    exact List.length_pos_iff.2 h
  have hmandatory := decide_end tables hunits
  rw [unitsAt_length, unitsAt] at hmandatory
  rw [ruled, hmandatory, resolve_options, uniform_options]
  simp [anywhereAt]

/-- the positions where a line may end: the end of the text, and those where the rules and `keep-all` leave a break -/
theorem breakAt_iff (characters : List Char) {options : LineBreakOptions} (hlevel : options.lineBreak ≠ .anywhere)
    {position : ℕ} (hposition : position ≤ characters.length) :
    breakAt tables characters options position ↔
      options.wrap ∧ 0 < position ∧ (position = characters.length ∨
        Leaves tables (options.wordBreak = .keepAll) (unitsAt tables characters options) position) := by
  rw [breakAt_iff_ruled tables hposition]
  rcases Nat.eq_zero_or_pos position with rfl | hpos
  · simp [ruled_uniform tables characters hlevel, decide_zero, Break.isBreak]
  · have hcharacters : characters ≠ [] := by
      rintro rfl
      exact absurd hposition (Nat.not_le.2 hpos)
    rcases Nat.lt_or_eq_of_le hposition with hinside | hend
    · have hlength : position < (unitsAt tables characters options).length := by
        rw [unitsAt_length]
        exact hinside
      rcases beside_or_attached hpos hlength with ⟨before, after, hbeside⟩ | hattached
      · have hleaves : Leaves tables (options.wordBreak = .keepAll) (unitsAt tables characters options) position ↔
            (surroundings tables (unitsAt tables characters options) position before after).leaves
              (options.wordBreak = .keepAll) := by
          refine ⟨?_, fun hleft => ⟨before, after, hbeside, hleft⟩⟩
          rintro ⟨before', after', hbeside', hleft⟩
          obtain ⟨rfl, rfl⟩ := hbeside.unique hbeside'
          exact hleft
        rw [hleaves, ruled_beside tables hlevel hbeside, Surroundings.leaves, ← Surroundings.rules_ne_prohibited_iff]
        by_cases hheld : options.wordBreak = .keepAll ∧ isLetterLike before.class' ∧ isLetterLike after.class'
        · rw [if_pos hheld]
          simp [Break.isBreak, hinside.ne, hheld]
        · rw [if_neg hheld]
          simp only [Break.isBreak, surroundings_before, surroundings_after, decide_eq_true_eq, hcharacters, hpos,
            hinside.ne, hheld, ne_eq, not_false_eq_true, and_true, true_and, false_or]
      · rw [ruled_attached tables hlevel hattached]
        simp only [Break.isBreak, ne_eq, not_true_eq_false, decide_false, Bool.false_eq_true, and_false, false_iff]
        rintro ⟨-, -, hend | ⟨before, after, hbeside, -⟩⟩
        · exact hinside.ne hend
        · exact hbeside.2.2 (by simpa [hbeside.2.1] using hattached)
    · rw [hend, ruled_end tables options hcharacters]
      simp [Break.isBreak, hcharacters, hend ▸ hpos]

/-! ## Wrapping, character by character -/

/-- the text with wrapping permitted everywhere -/
def Text.wrapping (text : Text) : Text := text.map fun entry => (entry.1, { entry.2 with wrap := true })

/-- where its own character permits wrapping a position has the decision that it has when all characters do, and where
it does not the position has no soft opportunity -/
def WrapsAlone (text : Text) : Prop :=
  ∀ position ≤ text.length,
    (wrapsAt (text.map (·.2)) position →
      (opportunitiesWith tables text)[position]? = (opportunitiesWith tables text.wrapping)[position]?) ∧
    (¬wrapsAt (text.map (·.2)) position → (opportunitiesWith tables text)[position]? ≠ some .allowed)

theorem resolve_wrapping_units (text : Text) :
    (resolve tables text.wrapping).units = (resolve tables text).units := by
  have hcharacters : text.wrapping.map (·.1) = text.map (·.1) := by simp [Text.wrapping]
  have htailored : ∀ (options : List LineBreakOptions) (units : List TextUnit),
      List.zipWith (tailored tables) (options.map fun option => { option with wrap := true }) units =
        List.zipWith (tailored tables) options units := by
    intro options units
    rw [List.zipWith_map_left]
    rfl
  have hoptions : text.wrapping.map (·.2) = (text.map (·.2)).map fun option => { option with wrap := true } := by
    simp [Text.wrapping]
  rw [resolve, resolve]
  dsimp only
  rw [hcharacters, hoptions, htailored]

theorem ruled_wrapping (text : Text) (position : ℕ) :
    ruled tables (resolve tables text.wrapping) position = ruled tables (resolve tables text) position := by
  have hoptions : (resolve tables text.wrapping).options =
      (resolve tables text).options.map fun option => { option with wrap := true } := by
    simp [Text.wrapping]
  have hanywhere : anywhereAt (resolve tables text.wrapping).options position =
      anywhereAt (resolve tables text).options position := by
    rw [hoptions, anywhereAt, anywhereAt, List.getElem?_map, Option.any_map]
  have hkeep : keepAllAt (resolve tables text.wrapping).options position =
      keepAllAt (resolve tables text).options position := by
    rw [hoptions, keepAllAt, keepAllAt, List.getElem?_map, Option.any_map]
  rw [ruled, ruled, resolve_wrapping_units, hanywhere, hkeep]

theorem wrapsAt_wrapping {text : Text} (h : text ≠ []) (position : ℕ) :
    wrapsAt (text.wrapping.map (·.2)) position = true := by
  obtain ⟨front, last, rfl⟩ := List.eq_nil_or_concat' text |>.resolve_left h
  rw [wrapsAt]
  cases hfound : ((Text.wrapping (front ++ [last])).map (·.2))[position]? with
  | none => simp [Text.wrapping]
  | some option =>
    obtain ⟨entry, hentry⟩ : ∃ entry : Char × LineBreakOptions, option = { entry.2 with wrap := true } := by
      have hmem := List.mem_of_getElem? hfound
      simp only [Text.wrapping, List.map_map, List.mem_map, Function.comp] at hmem
      obtain ⟨entry, -, rfl⟩ := hmem
      exact ⟨entry, rfl⟩
    simp [hentry]

/-- at the end of the text, and only there, the options of the last character decide -/
theorem wrapsAt_length (options : List LineBreakOptions) :
    wrapsAt options options.length = lastWraps options := by
  simp [wrapsAt, lastWraps]

/-- the rules have no break at a position inside the text -/
def Quiet (text : Text) (position : ℕ) : Prop :=
  ¬anywhereAt (text.map (·.2)) position ∧
    (decide tables (resolve tables text).units position = .prohibited ∨
      keepAllAt (text.map (·.2)) position ∧ pairIsLetterLike (resolve tables text).units position)

theorem ruled_eq_prohibited_iff {text : Text} {position : ℕ} (h : position < text.length) :
    ruled tables (resolve tables text) position = .prohibited ↔ position = 0 ∨ Quiet tables text position := by
  rw [ruled, Quiet, resolve_options, resolve_units_length]
  rcases Nat.eq_zero_or_pos position with rfl | hpos
  · simp [decide_zero]
  · by_cases hany : anywhereAt (text.map (·.2)) position
    · by_cases hmandatory : decide tables (resolve tables text).units position = .mandatory <;>
        simp [hany, hmandatory, hpos.ne']
    · by_cases hprohibited : decide tables (resolve tables text).units position = .prohibited
      · simp [hany, hprohibited, Break.isBreak]
      · by_cases hkeep : keepAllAt (text.map (·.2)) position ∧ pairIsLetterLike (resolve tables text).units position
        · simp [hany, hprohibited, hkeep, Break.isBreak, hpos.ne', h.ne]
        · simp [hany, hprohibited, hkeep, Break.isBreak, hpos.ne', h.ne]

/-- **Wrapping is local unless the text ends where it is forbidden.** The options of a character decide about its own
position alone when the last character permits wrapping. When it does not, the whole text is without an opportunity, and
that is as it should be only where no character that permits wrapping, the first one apart, stands at a break. -/
theorem wrapsAlone_iff (text : Text) :
    WrapsAlone tables text ↔
      lastWraps (text.map (·.2)) ∨
        ∀ position < text.length, 0 < position → wrapsAt (text.map (·.2)) position → Quiet tables text position := by
  have hwrapping : ∀ position ≤ text.length, text ≠ [] →
      (opportunitiesWith tables text.wrapping)[position]? = some (ruled tables (resolve tables text) position) := by
    intro position hposition htext
    have hlength : text.wrapping.length = text.length := by simp [Text.wrapping]
    have hlast := wrapsAt_wrapping htext (text.wrapping.map (·.2)).length
    rw [wrapsAt_length] at hlast
    rw [opportunitiesWith_getElem? tables (hlength ▸ hposition), if_pos ⟨hlast, wrapsAt_wrapping htext position⟩,
      ruled_wrapping]
  constructor
  · intro halone
    by_cases hlast : lastWraps (text.map (·.2))
    · exact Or.inl hlast
    · refine Or.inr fun position hposition hpos hwraps => ?_
      have htext : text ≠ [] := by
        rintro rfl
        exact absurd hposition (Nat.not_lt_zero _)
      have hsame := (halone position hposition.le).1 hwraps
      rw [opportunitiesWith_getElem? tables hposition.le, hwrapping position hposition.le htext,
        if_neg fun h => hlast h.1] at hsame
      have hruled := (ruled_eq_prohibited_iff tables hposition).1 (Option.some.inj hsame).symm
      exact hruled.resolve_left hpos.ne'
  · intro hcondition position hposition
    rw [opportunitiesWith_getElem? tables hposition]
    refine ⟨fun hwraps => ?_, fun hwraps => by simp [hwraps]⟩
    have htext : text ≠ [] := by
      rintro rfl
      simp [wrapsAt] at hwraps
    rw [hwrapping position hposition htext]
    by_cases hlast : lastWraps (text.map (·.2))
    · rw [if_pos ⟨hlast, hwraps⟩]
    · rw [if_neg fun h => hlast h.1]
      have hinside : position < text.length := by
        refine Nat.lt_of_le_of_ne hposition fun heq => hlast ?_
        have hend := wrapsAt_length (text.map (·.2))
        rw [List.length_map, ← heq, hwraps] at hend
        exact hend.symm
      have hruled : ruled tables (resolve tables text) position = .prohibited := by
        rw [ruled_eq_prohibited_iff tables hinside]
        rcases Nat.eq_zero_or_pos position with hzero | hpos
        · exact Or.inl hzero
        · exact Or.inr (hcondition.resolve_left hlast position hinside hpos hwraps)
      rw [hruled]

end

/-! ## A few characters -/

def sampleClasses : List (Char × LineBreakClass) :=
  [('\u200d', .zwj), ('\u301c', .ns), ('\u30a0', .ns), ('\u2010', .hh), ('\u2013', .ba), ('\u0301', .cm),
    (' ', .sp), ('%', .po), ('$', .pr), ('.', .is), ('1', .nu), ('\u4e00', .id), (Char.ofNat 0x1F1E9, .ri),
    (Char.ofNat 0x1F1EA, .ri)]

def sampleClass (character : Char) : LineBreakClass :=
  ((sampleClasses.find? (·.1 = character)).map (·.2)).getD .al

theorem sampleClass_cases (character : Char) :
    (character, sampleClass character) ∈ sampleClasses ∨ sampleClass character = .al := by
  rw [sampleClass]
  cases hfound : sampleClasses.find? (·.1 = character) with
  | none => exact Or.inr rfl
  | some entry =>
    have hcharacter := List.find?_some hfound
    rw [← of_decide_eq_true hcharacter]
    exact Or.inl (List.mem_of_find?_eq_some hfound)

/-- the tables as they are at these characters -/
def sampleTables : Tables where
  lineBreakClass := sampleClass
  isEastAsian character := character ∈ ['\u301c', '\u30a0', '\u4e00']
  isEastAsianOrAmbiguous character := character ∈ ['\u301c', '\u30a0', '\u2010', '\u2013', '\u4e00']
  joiner character := by
    refine ⟨fun h => ?_, fun h => by rw [h]; rfl⟩
    have hentry := (sampleClass_cases character).resolve_right (by rw [h]; nofun)
    rw [h] at hentry
    simpa [sampleClasses] using hentry
  waveDash := rfl
  doubleHyphen := rfl
  hyphen := rfl
  enDash := rfl
  quotationMarks character h := by
    have hentry := (sampleClass_cases character).resolve_right (by rw [h]; nofun)
    rw [h] at hentry
    simp [sampleClasses] at hentry

def plain (wrap : Bool) : LineBreakOptions := ⟨.normal, .auto, wrap⟩

/-- the word behind the space wraps, and the forbidden letter at the end keeps it from that -/
theorem not_wrapsAlone : ¬∀ (tables : Tables) (text : Text), WrapsAlone tables text := by
  intro h
  have hspace := (h sampleTables [('a', plain true), (' ', plain true), ('b', plain true), ('c', plain false)] 2
    (by decide)).1 (by decide)
  exact absurd hspace (by decide)

end Render.Layout.LineBreak
