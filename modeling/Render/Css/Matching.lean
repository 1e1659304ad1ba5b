/-
Matching a selector against an element (`render-css/src/selector.rs`).

The loops over parents and siblings of the source visit the lists `ancestors`, `previousElementSiblings` and
`nextElementSiblings`; they end because the nodes of a document are a forest (`Render.Dom.TreeRuns`). Texts are compared by
characters: a comparison up to ASCII case leaves the lengths and the boundaries of characters as they are.
-/
import Render.Css.Selector
import Render.Dom.Shadow

namespace Render.Css

open Render.Core

/-! ## Text -/

/-- `char::is_ascii_whitespace` -/
def isAsciiWhitespace (c : Char) : Bool := c = ' ' || c = '\t' || c = '\n' || c = '\x0c' || c = '\r'

/-- `str::split_ascii_whitespace` -/
def splitAsciiWhitespace (s : String) : List String :=
  ((s.toList.splitOnP isAsciiWhitespace).filter (· ≠ [])).map String.ofList

/-- the text starts with another -/
def startsWith (equals : String → String → Bool) (text start : String) : Bool :=
  start.length ≤ text.length && equals (String.ofList (text.toList.take start.length)) start

/-- the text ends with another -/
def endsWith (equals : String → String → Bool) (text ending : String) : Bool :=
  ending.length ≤ text.length && equals (String.ofList (text.toList.drop (text.length - ending.length))) ending

/-- the text is another, or starts with it and a dash -/
def dashMatches (equals : String → String → Bool) (text start : String) : Bool :=
  equals text start || (startsWith equals text start && text.toList[start.length]? = some '-')

/-! ## The document -/

/-- what a selector is matched against besides the element; the features that only media and container queries read are left
out -/
structure MatchContext where
  scope : Option NodeId := none
  treeRoot : Option NodeId := none
  shadowHost : Option NodeId := none
  slottedElement : Option NodeId := none
  quirksMode : Bool := false
  pseudoElement : Option String := none
  focused : Option NodeId := none
  focusVisible : Option NodeId := none
  target : Option NodeId := none
  hovered : List NodeId := []
  active : List NodeId := []
  visitedLinks : List NodeId := []

/-- `element_match_context`: the context of a list inside a functional pseudo-class -/
def MatchContext.element (context : MatchContext) : MatchContext :=
  { context with pseudoElement := none, slottedElement := none }

/-- `outer_selector_context`: outside the shadow tree -/
def MatchContext.outer (context : MatchContext) : MatchContext :=
  { context with treeRoot := none, shadowHost := none, slottedElement := none, pseudoElement := none }

/-- `attribute_value` -/
def attributeValue (data : ElementData) (name : String) : Option String :=
  (data.attributes.find? fun candidate =>
    candidate.nameSpace.isNone && eqIgnoreAsciiCase candidate.localName name).map Attribute.value

section Document

variable (d : Dom)

/-- `is_element` -/
def isElement (n : NodeId) : Bool := (d.elementOf n).isSome

/-- `document_element` -/
def documentElement : Option NodeId := (d.childrenOf d.document).find? (isElement d)

/-- `element_parent` -/
def elementParent (n : NodeId) : Option NodeId := (d.parent n).filter (isElement d)

/-- `selector_parent`: the host is above the top elements of its shadow tree, and nothing is above the host -/
def selectorParent (context : MatchContext) (n : NodeId) : Option NodeId :=
  if context.shadowHost = some n then none
  else match d.parent n with
    | none => none
    | some parent =>
      if isElement d parent then some parent
      else if context.treeRoot = some parent then context.shadowHost
      else none

/-- `shadow_including_parent_element` -/
def shadowIncludingParentElement (n : NodeId) : Option NodeId :=
  match d.parent n with
  | none => none
  | some parent => if isElement d parent then some parent else d.shadowHost parent

/-- what a loop over `next` visits, without the node it starts at -/
def visited (next : NodeId → Option NodeId) (n : NodeId) : List NodeId := ((walk next (d.passes + 1) n).getD []).tail

/-- the elements above, for combinators -/
def selectorAncestors (context : MatchContext) (n : NodeId) : List NodeId := visited d (selectorParent d context) n

/-- the element siblings before, the nearest first -/
def previousElementSiblings (n : NodeId) : List NodeId := (visited d d.previousSibling n).filter (isElement d)

/-- the element siblings after, the nearest first -/
def nextElementSiblings (n : NodeId) : List NodeId := (visited d d.nextSibling n).filter (isElement d)

/-- `is_descendant_of` -/
def isDescendantOf (n ancestor : NodeId) : Bool := (visited d d.parent n).contains ancestor

/-- `collect_element_descendants` -/
def elementDescendants (n : NodeId) : List NodeId := (d.descendants n).filter (isElement d)

/-- `element_index`: the place of an element among the siblings that are accepted, from one, and their number -/
def elementIndex (n : NodeId) (accepts : NodeId → Bool) : Option (ℤ × ℤ) :=
  match d.parent n with
  | none => none
  | some parent =>
    let siblings := (d.childrenOf parent).filter fun candidate => isElement d candidate && accepts candidate
    match siblings.idxOf? n with
    | none => none
    | some index =>
      -- `i32::try_from`
      if siblings.length < 2 ^ 31 then some ((index + 1 : ℕ), (siblings.length : ℕ)) else none

/-- `type_index` -/
def typeIndex (n : NodeId) : Option (ℤ × ℤ) :=
  match d.elementOf n with
  | none => none
  | some data => elementIndex d n fun candidate =>
    (d.elementOf candidate).any fun other => other.nameSpace = data.nameSpace && other.localName = data.localName

/-- `matches_an_plus_b` -/
def matchesAnPlusB (a b index : ℤ) : Bool :=
  if a = 0 then index = b else (index - b).tmod a = 0 && 0 ≤ (index - b).tdiv a

/-- `is_form_control` -/
def isFormControl (data : ElementData) : Bool :=
  ["button", "fieldset", "input", "optgroup", "option", "select", "textarea"].contains data.localName

/-- `is_disabled` -/
def isDisabled (n : NodeId) (data : ElementData) : Bool :=
  isFormControl data && ((attributeValue data "disabled").isSome ||
    (data.localName = "option" && ((elementParent d n).bind d.elementOf).any fun parent =>
      parent.localName = "optgroup" && (attributeValue parent "disabled").isSome))

/-- `element_language`: the nearest `lang` -/
def elementLanguage (n : NodeId) : Option String :=
  (n :: visited d (elementParent d) n).findSome? fun candidate =>
    (d.elementOf candidate).bind (attributeValue · "lang")

/-- the children allow `:empty` -/
def isEmpty (n : NodeId) : Bool :=
  (d.childrenOf n).all fun child =>
    match d.kindOf child with
    | some (.element _) => false
    | some (.text data) => data = ""
    | _ => true

/-- whether a relative selector that starts with a combinator is tied to its anchor -/
def isTied (leading : Combinator) (anchor n : NodeId) : Bool :=
  match leading with
  | .descendant => isDescendantOf d n anchor
  | .child => elementParent d n = some anchor
  | .nextSibling => (previousElementSiblings d n).head? = some anchor
  | .subsequentSibling => (previousElementSiblings d n).contains anchor

/-- the elements that a combinator leads to -/
def relatedElements (context : MatchContext) (combinator : Combinator) (n : NodeId) : List NodeId :=
  match combinator with
  | .child => (selectorParent d context n).toList
  | .descendant => selectorAncestors d context n
  | .nextSibling => (previousElementSiblings d n).take 1
  | .subsequentSibling => previousElementSiblings d n

/-- the same within `:has()`, which stays in the tree -/
def relatedInTree (combinator : Combinator) (n : NodeId) : List NodeId :=
  match combinator with
  | .child => (elementParent d n).toList
  | .descendant => visited d (elementParent d) n
  | .nextSibling => (previousElementSiblings d n).take 1
  | .subsequentSibling => previousElementSiblings d n

/-- the elements that `:has()` tries -/
def relativeCandidates (leading : Combinator) (anchor : NodeId) : List NodeId :=
  match leading with
  | .descendant | .child => elementDescendants d anchor
  | .nextSibling => ((nextElementSiblings d anchor).take 1).flatMap fun sibling => sibling :: elementDescendants d sibling
  | .subsequentSibling => (nextElementSiblings d anchor).flatMap fun sibling => sibling :: elementDescendants d sibling

end Document

/-! ## Simple selectors -/

/-- an HTML name is compared up to ASCII case -/
def namesMatch (nameSpace : Namespace) (actual expected : String) : Bool :=
  if nameSpace = .html then eqIgnoreAsciiCase actual expected else actual = expected

/-- the type selector of a compound, if it names a type -/
def typeMatches (data : ElementData) (selector : Option TypeSelector) : Bool :=
  match selector.bind TypeSelector.name with
  | none => true
  | some expected => namesMatch data.nameSpace data.localName expected

/-- in quirks mode ids and classes are compared up to ASCII case -/
def quirkyEquals (context : MatchContext) (actual expected : String) : Bool :=
  if context.quirksMode then eqIgnoreAsciiCase actual expected else actual = expected

def idMatches (context : MatchContext) (data : ElementData) (expected : String) : Bool :=
  (attributeValue data "id").any (quirkyEquals context · expected)

def classMatches (context : MatchContext) (data : ElementData) (expected : String) : Bool :=
  (attributeValue data "class").any fun classes =>
    (splitAsciiWhitespace classes).any (quirkyEquals context · expected)

/-- `matches_attribute` -/
def matchesAttribute (data : ElementData) (selector : AttributeSelector) : Bool :=
  let actual := data.attributes.find? fun candidate => namesMatch data.nameSpace candidate.localName selector.name
  let equals (left right : String) : Bool :=
    if selector.caseSensitivity = .asciiInsensitive then eqIgnoreAsciiCase left right else left = right
  match actual.map Attribute.value with
  | none => false
  | some actual =>
    match selector.operator with
    | .exists_ => true
    | .equals => equals actual selector.value
    | .includes => (splitAsciiWhitespace actual).any (equals · selector.value)
    | .dashMatch => dashMatches equals actual selector.value
    | .prefix_ => selector.value ≠ "" && startsWith equals actual selector.value
    | .suffix => selector.value ≠ "" && endsWith equals actual selector.value
    | .substring =>
      selector.value ≠ "" &&
        if selector.caseSensitivity = .asciiInsensitive then
          (toAsciiLowercase selector.value).toList <:+: (toAsciiLowercase actual).toList
        else selector.value.toList <:+: actual.toList

/-- what `subject_may_match` asks of a simple selector -/
def mayMatch (context : MatchContext) (data : ElementData) : SimpleSelector → Bool
  | .id expected => idMatches context data expected
  | .class expected => classMatches context data expected
  | .attribute _ | .pseudo _ => true

/-- `subject_may_match` -/
def subjectMayMatch (context : MatchContext) (data : ElementData) (subject : CompoundSelector) : Bool :=
  typeMatches data subject.typeSelector && subject.simple.all (mayMatch context data)

/-- the simple selectors that `matches_featureless_host` lets through -/
def isHostSelector : SimpleSelector → Bool
  | .pseudo (.host _) | .pseudo (.hostContext _) | .pseudo .scope | .pseudo (.is _) | .pseudo (.where_ _) => true
  | _ => false

/-! ## Matching -/

section Matching

variable (d : Dom)

mutual

/-- `matches_complex_at`; the compound is the subject or one before it -/
def matchesComplexAt : ComplexSelector → MatchContext → Bool → NodeId → Bool
  | .compound compound, context, subject, element => matchesCompound compound context subject element
  | .combined before combinator compound, context, subject, element =>
    matchesCompound compound context subject element &&
      (relatedElements d context combinator element).any fun related => matchesComplexAt before context false related

/-- `matches_compound`: only the subject may carry a pseudo-element -/
def matchesCompound : CompoundSelector → MatchContext → Bool → NodeId → Bool
  | .mk typeSelector simple pseudoElement, context, subject, element =>
    match d.elementOf element with
    | none => false
    | some data =>
      (if context.shadowHost = some element then
        -- `matches_featureless_host`
        typeSelector.isNone && !simple.isEmpty && simple.all isHostSelector &&
          matchesSimples simple context element data
      else typeMatches data typeSelector && matchesSimples simple context element data) &&
      (!subject || matchesPseudoElement pseudoElement context)

/-- the pseudo-element of the subject: for a slotted element `::slotted()` (`matches_slotted_subject`), else that of the
context -/
def matchesPseudoElement : Option PseudoElementSelector → MatchContext → Bool
  | none, context => context.slottedElement.isNone && context.pseudoElement.isNone
  | some (.mk name argument none), context =>
    context.slottedElement.isNone && argument.isNone && context.pseudoElement.any (eqIgnoreAsciiCase name)
  | some (.mk name argument (some selectors)), context =>
    if context.slottedElement.isNone then argument.isNone && context.pseudoElement.any (eqIgnoreAsciiCase name)
    else context.pseudoElement.isNone && eqIgnoreAsciiCase name "slotted" &&
      context.slottedElement.any fun slotted => isElement d slotted && matchesAny selectors context.outer slotted

/-- every simple selector of a compound matches -/
def matchesSimples : List SimpleSelector → MatchContext → NodeId → ElementData → Bool
  | [], _, _, _ => true
  | simple :: rest, context, element, data =>
    matchesSimple simple context element data && matchesSimples rest context element data

/-- `matches_simple` -/
def matchesSimple : SimpleSelector → MatchContext → NodeId → ElementData → Bool
  | .id expected, context, _, data => idMatches context data expected
  | .class expected, context, _, data => classMatches context data expected
  | .attribute selector, _, _, data => matchesAttribute data selector
  | .pseudo pseudo, context, element, data => matchesPseudo pseudo context element data

/-- `matches_pseudo` -/
def matchesPseudo : PseudoClass → MatchContext → NodeId → ElementData → Bool
  | .root, _, element, _ => d.parent element = some d.document
  | .scope, context, element, _ => context.scope.or (documentElement d) = some element
  | .empty, _, element, _ => isEmpty d element
  | .firstChild, _, element, _ => (elementIndex d element fun _ => true).any (·.1 = 1)
  | .lastChild, _, element, _ => (elementIndex d element fun _ => true).any fun place => place.1 = place.2
  | .onlyChild, _, element, _ => (elementIndex d element fun _ => true) = some (1, 1)
  | .firstOfType, _, element, _ => (typeIndex d element).any (·.1 = 1)
  | .lastOfType, _, element, _ => (typeIndex d element).any fun place => place.1 = place.2
  | .onlyOfType, _, element, _ => typeIndex d element = some (1, 1)
  | .nthChild a b none, _, element, _ =>
    (elementIndex d element fun _ => true).any fun place => matchesAnPlusB a b place.1
  | .nthChild a b (some selectors), context, element, _ =>
    (elementIndex d element fun candidate => isElement d candidate && matchesAny selectors context.element candidate).any
      fun place => matchesAnPlusB a b place.1
  | .nthLastChild a b none, _, element, _ =>
    (elementIndex d element fun _ => true).any fun place => matchesAnPlusB a b (place.2 - place.1 + 1)
  | .nthLastChild a b (some selectors), context, element, _ =>
    (elementIndex d element fun candidate => isElement d candidate && matchesAny selectors context.element candidate).any
      fun place => matchesAnPlusB a b (place.2 - place.1 + 1)
  | .nthOfType a b, _, element, _ => (typeIndex d element).any fun place => matchesAnPlusB a b place.1
  | .nthLastOfType a b, _, element, _ =>
    (typeIndex d element).any fun place => matchesAnPlusB a b (place.2 - place.1 + 1)
  | .is list, context, element, _ => isElement d element && matchesAny list context.element element
  | .where_ list, context, element, _ => isElement d element && matchesAny list context.element element
  | .not list, context, element, _ => !(isElement d element && matchesAny list context.element element)
  | .has relative, context, element, _ => matchesAnyRelative relative context.element element
  | .link, _, _, data =>
    ["a", "area", "link"].contains data.localName && (attributeValue data "href").isSome
  | .anyLink, _, _, data =>
    ["a", "area", "link"].contains data.localName && (attributeValue data "href").isSome
  | .visited, context, element, _ => context.visitedLinks.contains element
  | .enabled, _, element, data => isFormControl data && !isDisabled d element data
  | .disabled, _, element, data => isDisabled d element data
  | .checked, _, _, data =>
    (data.localName = "input" && (attributeValue data "checked").isSome) ||
      (data.localName = "option" && (attributeValue data "selected").isSome)
  | .placeholderShown, _, _, data =>
    ["input", "textarea"].contains data.localName && (attributeValue data "placeholder").isSome &&
      (attributeValue data "value").all (· = "")
  | .focus, context, element, _ => context.focused = some element
  | .focusVisible, context, element, _ => context.focusVisible = some element
  | .focusWithin, context, element, _ =>
    context.focused = some element || context.focused.any fun focused => isDescendantOf d focused element
  | .hover, context, element, _ => context.hovered.contains element
  | .active, context, element, _ => context.active.contains element
  | .target, context, element, _ => context.target = some element
  | .lang ranges, _, element, _ =>
    (elementLanguage d element).any fun language =>
      ranges.any fun range => range = "*" || dashMatches eqIgnoreAsciiCase language range
  | .host none, context, element, _ => context.shadowHost = some element
  | .host (some argument), context, element, _ =>
    context.shadowHost = some element && isElement d element && matchesAny argument context.outer element
  | .hostContext argument, context, element, _ =>
    context.shadowHost = some element &&
      (element :: visited d (shadowIncludingParentElement d) element).any fun candidate =>
        isElement d candidate && matchesAny argument context.outer candidate
  | .unsupported, _, _, _ => false

/-- some selector of a list matches (`matches_complex` of each) -/
def matchesAny : List ComplexSelector → MatchContext → NodeId → Bool
  | [], _, _ => false
  | selector :: rest, context, element =>
    ((d.elementOf element).any (subjectMayMatch context · selector.subject) &&
      matchesComplexAt selector context true element) || matchesAny rest context element

/-- some relative selector of `:has()` matches (`matches_relative` of each) -/
def matchesAnyRelative : List RelativeSelector → MatchContext → NodeId → Bool
  | [], _, _ => false
  | .mk leading selector :: rest, context, anchor =>
    (relativeCandidates d leading anchor).any (fun candidate =>
      matchesRelativeAt selector context leading anchor true candidate) || matchesAnyRelative rest context anchor

/-- `matches_relative_at` -/
def matchesRelativeAt : ComplexSelector → MatchContext → Combinator → NodeId → Bool → NodeId → Bool
  | .compound compound, context, leading, anchor, subject, element =>
    matchesCompound compound context subject element && isTied d leading anchor element
  | .combined before combinator compound, context, leading, anchor, subject, element =>
    matchesCompound compound context subject element &&
      (relatedInTree d combinator element).any fun related =>
        matchesRelativeAt before context leading anchor false related

end

/-- `matches_complex` -/
def matchesComplex (selector : ComplexSelector) (context : MatchContext) (element : NodeId) : Bool :=
  (d.elementOf element).any (subjectMayMatch context · selector.subject) &&
    matchesComplexAt d selector context true element

/-- `matches_selector_list` -/
def matchesSelectorList (element : NodeId) (selectors : SelectorList) (context : MatchContext) : Bool :=
  isElement d element && matchesAny d selectors context element

/-- `matching_specificity` -/
def matchingSpecificity (element : NodeId) (selectors : SelectorList) (context : MatchContext) : Option Specificity :=
  if isElement d element then
    Specificity.maximum
      ((selectors.filter fun selector => matchesComplex d selector context element).map ComplexSelector.specificity)
  else none

end Matching

end Render.Css
