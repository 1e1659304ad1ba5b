/-
The keys of a selector's subject and the elements that the selector matches.

A compound asks for each of its own keys, and for one branch of each of its lists. So an element that matches carries one of
the keys where the compound has a key of its own, or a list all of whose branches are keyed in turn (`isKeyed`). The code
takes the keys of every branch together, and a branch without a key adds none.
-/
import Render.Css.Matching

namespace Render.Css

/-- an element has what a key names, up to ASCII case -/
def Carries (data : ElementData) : SubjectKey → Prop
  | .type name => toAsciiLowercase data.localName = name
  | .id name => ∃ id, attributeValue data "id" = some id ∧ id ≠ "" ∧ toAsciiLowercase id = name
  | .class name => ∃ classes, attributeValue data "class" = some classes ∧
      ∃ own ∈ splitAsciiWhitespace classes, toAsciiLowercase own = name
  | .attribute name => ∃ own ∈ data.attributes, toAsciiLowercase own.localName = name

mutual

/-- every way to match the subject asks for one of its keys -/
def ComplexSelector.isKeyed : ComplexSelector → Bool
  | .compound subject => subject.isKeyed
  | .combined _ _ subject => subject.isKeyed

def CompoundSelector.isKeyed : CompoundSelector → Bool
  | .mk typeSelector simple _ => (typeSelector.bind TypeSelector.name).isSome || simpleKeyed simple

def simpleKeyed : List SimpleSelector → Bool
  | [] => false
  | simple :: rest => simple.isKeyed || simpleKeyed rest

def SimpleSelector.isKeyed : SimpleSelector → Bool
  | .id _ | .class _ | .attribute _ => true
  | .pseudo (.is list) | .pseudo (.where_ list) => listKeyed list
  | .pseudo (.nthChild _ _ (some list)) | .pseudo (.nthLastChild _ _ (some list)) => listKeyed list
  | .pseudo _ => false

/-- every branch is keyed -/
def listKeyed : List ComplexSelector → Bool
  | [] => true
  | selector :: rest => selector.isKeyed && listKeyed rest

end

/-- the keys of the subject cover it: there are none, or every way to match asks for one -/
def ComplexSelector.Covered (selector : ComplexSelector) : Prop := selector.subjectKeys = [] ∨ selector.isKeyed = true

instance (selector : ComplexSelector) : Decidable selector.Covered := inferInstanceAs (Decidable (_ ∨ _))

section Keys

variable {d : Dom}

theorem quirkyEquals_lower {context : MatchContext} {actual expected : String}
    (h : quirkyEquals context actual expected = true) : toAsciiLowercase actual = toAsciiLowercase expected := by
  unfold quirkyEquals at h
  split at h
  · exact of_decide_eq_true h
  · rw [of_decide_eq_true h]

theorem namesMatch_lower {nameSpace : Namespace} {actual expected : String}
    (h : namesMatch nameSpace actual expected = true) : toAsciiLowercase actual = toAsciiLowercase expected := by
  unfold namesMatch at h
  split at h
  · exact of_decide_eq_true h
  · rw [of_decide_eq_true h]

theorem toAsciiLowercase_eq_empty {s : String} (h : toAsciiLowercase s = toAsciiLowercase "") : s = "" := by
  have hlist : s.toList.map Char.toLower = [] := by
    have hlists := congrArg String.toList h
    simpa [toAsciiLowercase] using hlists
  rw [← String.toList_inj, List.map_eq_nil_iff.1 hlist]
  rfl

theorem idMatches_carries {context : MatchContext} {data : ElementData} {expected : Identifier}
    (h : idMatches context data expected = true) : Carries data (.id (toAsciiLowercase expected)) := by
  rw [idMatches, Option.any_eq_true] at h
  obtain ⟨id, hid, hequal⟩ := h
  have hlower := quirkyEquals_lower hequal
  refine ⟨id, hid, ?_, hlower⟩
  rintro rfl
  exact expected.2 (toAsciiLowercase_eq_empty hlower.symm)

theorem classMatches_carries {context : MatchContext} {data : ElementData} {expected : Identifier}
    (h : classMatches context data expected = true) : Carries data (.class (toAsciiLowercase expected)) := by
  rw [classMatches, Option.any_eq_true] at h
  obtain ⟨classes, hclasses, hany⟩ := h
  obtain ⟨own, hown, hequal⟩ := List.any_eq_true.1 hany
  exact ⟨classes, hclasses, own, hown, quirkyEquals_lower hequal⟩

theorem matchesAttribute_carries {data : ElementData} {selector : AttributeSelector}
    (h : matchesAttribute data selector = true) : Carries data (.attribute (toAsciiLowercase selector.name)) := by
  unfold matchesAttribute at h
  dsimp only at h
  cases hfind : data.attributes.find? fun candidate =>
      namesMatch data.nameSpace candidate.localName selector.name with
  | none => simp [hfind] at h
  | some own =>
    have hnames : namesMatch data.nameSpace own.localName selector.name = true := by simpa using List.find?_some hfind
    exact ⟨own, List.mem_of_find?_eq_some hfind, namesMatch_lower hnames⟩

/-- an element that has a place among the accepted siblings is accepted -/
theorem elementIndex_accepts {n : NodeId} {accepts : NodeId → Bool} {place : ℤ × ℤ}
    (h : elementIndex d n accepts = some place) : accepts n = true := by
  unfold elementIndex at h
  cases hparent : d.parent n with
  | none => simp [hparent] at h
  | some parent =>
    simp only [hparent] at h
    cases hindex : ((d.childrenOf parent).filter fun candidate => isElement d candidate && accepts candidate).idxOf? n with
    | none => simp [hindex] at h
    | some index =>
      have hmem : n ∈ (d.childrenOf parent).filter fun candidate => isElement d candidate && accepts candidate := by
        by_contra hnot
        rw [List.idxOf?_eq_none_iff.2 hnot] at hindex
        cases hindex
      have haccepted := (List.mem_filter.1 hmem).2
      rw [Bool.and_eq_true] at haccepted
      exact haccepted.2

/-! ## One lemma for each part of a selector -/

mutual

theorem matchesComplexAt_carries (selector : ComplexSelector) {context : MatchContext} {subject : Bool} {element : NodeId}
    {data : ElementData} (hdata : d.elementOf element = some data) (hkeyed : selector.isKeyed = true)
    (h : matchesComplexAt d selector context subject element = true) :
    ∃ key ∈ selector.subjectKeys, Carries data key := by
  match selector with
  | .compound compound =>
    rw [ComplexSelector.isKeyed] at hkeyed
    rw [matchesComplexAt] at h
    rw [ComplexSelector.subjectKeys]
    exact matchesCompound_carries compound hdata hkeyed h
  | .combined before combinator compound =>
    rw [ComplexSelector.isKeyed] at hkeyed
    rw [matchesComplexAt, Bool.and_eq_true] at h
    rw [ComplexSelector.subjectKeys]
    exact matchesCompound_carries compound hdata hkeyed h.1

theorem matchesCompound_carries (compound : CompoundSelector) {context : MatchContext} {subject : Bool}
    {element : NodeId} {data : ElementData} (hdata : d.elementOf element = some data) (hkeyed : compound.isKeyed = true)
    (h : matchesCompound d compound context subject element = true) :
    ∃ key ∈ compound.subjectKeys, Carries data key := by
  match compound with
  | .mk typeSelector simple pseudoElement =>
    rw [matchesCompound, hdata] at h
    dsimp only at h
    rw [Bool.and_eq_true] at h
    obtain ⟨hfeatures, -⟩ := h
    rw [CompoundSelector.isKeyed, Bool.or_eq_true] at hkeyed
    rw [CompoundSelector.subjectKeys]
    have hsimples : matchesSimples d simple context element data = true := by
      split at hfeatures <;> rw [Bool.and_eq_true] at hfeatures <;> exact hfeatures.2
    rcases hkeyed with htype | hsimple
    · -- a type selector: the element is no featureless host
      obtain ⟨name, hname⟩ := Option.isSome_iff_exists.1 htype
      have htyped : typeMatches data typeSelector = true := by
        split at hfeatures
        · have hnone : typeSelector.isNone = true := by
            simp only [Bool.and_eq_true] at hfeatures
            exact hfeatures.1.1.1
          rw [Option.isNone_iff_eq_none.1 hnone] at hname
          cases hname
        · rw [Bool.and_eq_true] at hfeatures
          exact hfeatures.1
      simp only [typeMatches, hname] at htyped
      refine ⟨.type (toAsciiLowercase name), List.mem_append_left _ ?_, namesMatch_lower htyped⟩
      rw [hname]
      exact List.mem_singleton_self _
    · obtain ⟨key, hkey, hcarries⟩ := matchesSimples_carries simple hdata hsimple hsimples
      exact ⟨key, List.mem_append_right _ hkey, hcarries⟩

theorem matchesSimples_carries (simple : List SimpleSelector) {context : MatchContext} {element : NodeId}
    {data : ElementData} (hdata : d.elementOf element = some data) (hkeyed : simpleKeyed simple = true)
    (h : matchesSimples d simple context element data = true) : ∃ key ∈ simpleKeys simple, Carries data key := by
  match simple with
  | [] =>
    rw [simpleKeyed] at hkeyed
    cases hkeyed
  | first :: rest =>
    rw [simpleKeyed, Bool.or_eq_true] at hkeyed
    rw [matchesSimples, Bool.and_eq_true] at h
    rw [simpleKeys]
    rcases hkeyed with hfirst | hrest
    · obtain ⟨key, hkey, hcarries⟩ := matchesSimple_carries first hdata hfirst h.1
      exact ⟨key, List.mem_append_left _ hkey, hcarries⟩
    · obtain ⟨key, hkey, hcarries⟩ := matchesSimples_carries rest hdata hrest h.2
      exact ⟨key, List.mem_append_right _ hkey, hcarries⟩

theorem matchesSimple_carries (simple : SimpleSelector) {context : MatchContext} {element : NodeId} {data : ElementData}
    (hdata : d.elementOf element = some data) (hkeyed : simple.isKeyed = true)
    (h : matchesSimple d simple context element data = true) : ∃ key ∈ simple.keys, Carries data key := by
  match simple with
  | .id name =>
    rw [matchesSimple] at h
    rw [SimpleSelector.keys]
    exact ⟨_, List.mem_singleton_self _, idMatches_carries h⟩
  | .class name =>
    rw [matchesSimple] at h
    rw [SimpleSelector.keys]
    exact ⟨_, List.mem_singleton_self _, classMatches_carries h⟩
  | .attribute selector =>
    rw [matchesSimple] at h
    rw [SimpleSelector.keys]
    exact ⟨_, List.mem_singleton_self _, matchesAttribute_carries h⟩
  | .pseudo (.is list) =>
    rw [SimpleSelector.isKeyed] at hkeyed
    rw [matchesSimple, matchesPseudo, Bool.and_eq_true] at h
    rw [SimpleSelector.keys]
    exact matchesAny_carries list hdata hkeyed h.2
  | .pseudo (.where_ list) =>
    rw [SimpleSelector.isKeyed] at hkeyed
    rw [matchesSimple, matchesPseudo, Bool.and_eq_true] at h
    rw [SimpleSelector.keys]
    exact matchesAny_carries list hdata hkeyed h.2
  | .pseudo (.nthChild a b (some list)) =>
    rw [SimpleSelector.isKeyed] at hkeyed
    rw [matchesSimple, matchesPseudo, Option.any_eq_true] at h
    obtain ⟨place, hplace, -⟩ := h
    have haccepted := elementIndex_accepts hplace
    rw [Bool.and_eq_true] at haccepted
    rw [SimpleSelector.keys]
    exact matchesAny_carries list hdata hkeyed haccepted.2
  | .pseudo (.nthLastChild a b (some list)) =>
    rw [SimpleSelector.isKeyed] at hkeyed
    rw [matchesSimple, matchesPseudo, Option.any_eq_true] at h
    obtain ⟨place, hplace, -⟩ := h
    have haccepted := elementIndex_accepts hplace
    rw [Bool.and_eq_true] at haccepted
    rw [SimpleSelector.keys]
    exact matchesAny_carries list hdata hkeyed haccepted.2
  | .pseudo .root | .pseudo .scope | .pseudo .empty | .pseudo .firstChild | .pseudo .lastChild | .pseudo .onlyChild
  | .pseudo .firstOfType | .pseudo .lastOfType | .pseudo .onlyOfType | .pseudo (.nthChild _ _ none)
  | .pseudo (.nthLastChild _ _ none) | .pseudo (.nthOfType _ _) | .pseudo (.nthLastOfType _ _) | .pseudo (.not _)
  | .pseudo (.has _) | .pseudo .link | .pseudo .anyLink | .pseudo .visited | .pseudo .enabled | .pseudo .disabled
  | .pseudo .checked | .pseudo .placeholderShown | .pseudo .focus | .pseudo .focusVisible | .pseudo .focusWithin
  | .pseudo .hover | .pseudo .active | .pseudo .target | .pseudo (.lang _) | .pseudo (.host _)
  | .pseudo (.hostContext _) | .pseudo .unsupported =>
    simp [SimpleSelector.isKeyed] at hkeyed

theorem matchesAny_carries (list : List ComplexSelector) {context : MatchContext} {element : NodeId} {data : ElementData}
    (hdata : d.elementOf element = some data) (hkeyed : listKeyed list = true)
    (h : matchesAny d list context element = true) : ∃ key ∈ listKeys list, Carries data key := by
  match list with
  | [] =>
    rw [matchesAny] at h
    cases h
  | selector :: rest =>
    rw [listKeyed, Bool.and_eq_true] at hkeyed
    rw [matchesAny, Bool.or_eq_true, Bool.and_eq_true] at h
    rw [listKeys]
    rcases h with hfirst | hrest
    · obtain ⟨key, hkey, hcarries⟩ := matchesComplexAt_carries selector hdata hkeyed.1 hfirst.2
      exact ⟨key, List.mem_append_left _ hkey, hcarries⟩
    · obtain ⟨key, hkey, hcarries⟩ := matchesAny_carries rest hdata hkeyed.2 hrest
      exact ⟨key, List.mem_append_right _ hkey, hcarries⟩

end

/-- an element that a covered selector matches carries a key of its, if there is one -/
theorem covered_carries {selector : ComplexSelector} {context : MatchContext} {element : NodeId} {data : ElementData}
    (hcovered : selector.Covered) (hdata : d.elementOf element = some data)
    (h : matchesComplex d selector context element = true) :
    selector.subjectKeys = [] ∨ ∃ key ∈ selector.subjectKeys, Carries data key := by
  rw [matchesComplex, Bool.and_eq_true] at h
  exact hcovered.imp_right fun hkeyed => matchesComplexAt_carries selector hdata hkeyed h.2

end Keys

end Render.Css
