/-
Selectors (`render-css/src/selector.rs`), as the parser leaves them.

A complex selector is written from its subject, the rightmost compound, to the left: `combined before combinator subject`. So
it has a subject, and a combinator between any two of its compounds. An identifier is never empty (`parse_identifier`).
-/
import Render.Dom.Nodes

namespace Render.Css

/-- `str::eq_ignore_ascii_case` -/
def eqIgnoreAsciiCase (a b : String) : Bool := toAsciiLowercase a = toAsciiLowercase b

/-- `u32::saturating_add` -/
def saturatingAdd (a b : ℕ) : ℕ := Nat.min (a + b) (2 ^ 32 - 1)

structure Specificity where
  ids : ℕ
  classes : ℕ
  types : ℕ
  deriving DecidableEq

namespace Specificity

def zero : Specificity := ⟨0, 0, 0⟩

def ofId : Specificity := ⟨1, 0, 0⟩

def ofClass : Specificity := ⟨0, 1, 0⟩

def ofType : Specificity := ⟨0, 0, 1⟩

def add (a b : Specificity) : Specificity :=
  ⟨saturatingAdd a.ids b.ids, saturatingAdd a.classes b.classes, saturatingAdd a.types b.types⟩

/-- the derived order: ids first, then classes, then types -/
def le (a b : Specificity) : Bool :=
  a.ids < b.ids ||
    (a.ids = b.ids && (a.classes < b.classes || (a.classes = b.classes && a.types ≤ b.types)))

/-- `Ord::max`, which keeps the second of two equals -/
def max (a b : Specificity) : Specificity := if le a b then b else a

/-- `Iterator::max` -/
def maximum : List Specificity → Option Specificity
  | [] => none
  | first :: rest => some (rest.foldl max first)

end Specificity

inductive Combinator
  | descendant
  | child
  | nextSibling
  | subsequentSibling
  deriving DecidableEq

/-- what `parse_identifier` gives -/
abbrev Identifier := { name : String // name ≠ "" }

inductive AttributeOperator
  | exists_
  | equals
  | includes
  | dashMatch
  | prefix_
  | suffix
  | substring
  deriving DecidableEq

inductive CaseSensitivity
  | documentDefault
  | asciiInsensitive
  | sensitive
  deriving DecidableEq

structure AttributeSelector where
  name : Identifier
  operator : AttributeOperator
  value : String
  caseSensitivity : CaseSensitivity

/-- `*`, or a name -/
structure TypeSelector where
  name : Option Identifier

mutual

inductive ComplexSelector
  | compound (subject : CompoundSelector)
  | combined (before : ComplexSelector) (combinator : Combinator) (subject : CompoundSelector)

inductive CompoundSelector
  | mk (typeSelector : Option TypeSelector) (simple : List SimpleSelector) (pseudoElement : Option PseudoElementSelector)

/-- `slotted`: the parsed argument of `::slotted()` -/
inductive PseudoElementSelector
  | mk (name : Identifier) (argument : Option String) (slotted : Option (List ComplexSelector))

inductive SimpleSelector
  | id (name : Identifier)
  | class (name : Identifier)
  | attribute (selector : AttributeSelector)
  | pseudo (pseudo : PseudoClass)

inductive PseudoClass
  | root
  | scope
  | empty
  | firstChild
  | lastChild
  | onlyChild
  | firstOfType
  | lastOfType
  | onlyOfType
  | nthChild (a b : ℤ) (selectors : Option (List ComplexSelector))
  | nthLastChild (a b : ℤ) (selectors : Option (List ComplexSelector))
  | nthOfType (a b : ℤ)
  | nthLastOfType (a b : ℤ)
  | is (list : List ComplexSelector)
  | where_ (list : List ComplexSelector)
  | not (list : List ComplexSelector)
  | has (relative : List RelativeSelector)
  | link
  | anyLink
  | visited
  | enabled
  | disabled
  | checked
  | placeholderShown
  | focus
  | focusVisible
  | focusWithin
  | hover
  | active
  | target
  | lang (ranges : List String)
  | host (argument : Option (List ComplexSelector))
  | hostContext (argument : List ComplexSelector)
  | unsupported

inductive RelativeSelector
  | mk (leading : Combinator) (selector : ComplexSelector)

end

abbrev SelectorList := List ComplexSelector

namespace PseudoElementSelector

def name : PseudoElementSelector → String
  | mk name _ _ => name

def argument : PseudoElementSelector → Option String
  | mk _ argument _ => argument

end PseudoElementSelector

namespace CompoundSelector

def typeSelector : CompoundSelector → Option TypeSelector
  | mk typeSelector _ _ => typeSelector

def simple : CompoundSelector → List SimpleSelector
  | mk _ simple _ => simple

def pseudoElement : CompoundSelector → Option PseudoElementSelector
  | mk _ _ pseudoElement => pseudoElement

end CompoundSelector

/-- the rightmost compound -/
def ComplexSelector.subject : ComplexSelector → CompoundSelector
  | compound subject => subject
  | combined _ _ subject => subject

/-! ## Specificity -/

mutual

def ComplexSelector.specificity : ComplexSelector → Specificity
  | .compound subject => Specificity.zero.add subject.specificity
  | .combined before _ subject => before.specificity.add subject.specificity

def CompoundSelector.specificity : CompoundSelector → Specificity
  | .mk typeSelector simple pseudoElement =>
    let named := if typeSelector.any (·.name.isSome) then Specificity.ofType else .zero
    pseudoElementSpecificity pseudoElement (simpleSpecificity simple named)

/-- the simple selectors of a compound, added to what is there -/
def simpleSpecificity : List SimpleSelector → Specificity → Specificity
  | [], total => total
  | simple :: rest, total => simpleSpecificity rest (total.add simple.specificity)

/-- the pseudo-element of a compound, added to what is there: `::slotted()` weighs its argument -/
def pseudoElementSpecificity : Option PseudoElementSelector → Specificity → Specificity
  | none, total => total
  | some (.mk _ _ none), total => total.add .ofType
  | some (.mk _ _ (some argument)), total => (total.add .ofType).add (maxSpecificity argument none)

def SimpleSelector.specificity : SimpleSelector → Specificity
  | .id _ => .ofId
  | .class _ | .attribute _ => .ofClass
  | .pseudo pseudo => pseudo.specificity

def PseudoClass.specificity : PseudoClass → Specificity
  | .where_ _ => .zero
  | .is list | .not list => maxSpecificity list none
  | .has relative => maxRelative relative none
  | .host none => .ofClass
  | .host (some argument) => Specificity.ofClass.add (maxSpecificity argument none)
  | .hostContext argument => Specificity.ofClass.add (maxSpecificity argument none)
  | .nthChild _ _ none | .nthLastChild _ _ none => .ofClass
  | .nthChild _ _ (some selectors) => Specificity.ofClass.add (maxSpecificity selectors none)
  | .nthLastChild _ _ (some selectors) => Specificity.ofClass.add (maxSpecificity selectors none)
  | _ => .ofClass

/-- `max_specificity`, with the greatest one so far -/
def maxSpecificity : List ComplexSelector → Option Specificity → Specificity
  | [], best => best.getD .zero
  | selector :: rest, best =>
    maxSpecificity rest (some (best.elim selector.specificity (·.max selector.specificity)))

/-- the same over the selectors of `:has()` -/
def maxRelative : List RelativeSelector → Option Specificity → Specificity
  | [], best => best.getD .zero
  | .mk _ selector :: rest, best =>
    maxRelative rest (some (best.elim selector.specificity (·.max selector.specificity)))

end

/-! ## Keys of the subject -/

/-- a key of the rightmost compound, in lower case -/
inductive SubjectKey
  | id (name : String)
  | class (name : String)
  | type (name : String)
  | attribute (name : String)
  deriving DecidableEq

mutual

/-- `subject_keys`, without the sorting: the keys are used as a set -/
def ComplexSelector.subjectKeys : ComplexSelector → List SubjectKey
  | .compound subject => subject.subjectKeys
  | .combined _ _ subject => subject.subjectKeys

def CompoundSelector.subjectKeys : CompoundSelector → List SubjectKey
  | .mk typeSelector simple _ =>
    ((typeSelector.bind TypeSelector.name).toList.map fun name => .type (toAsciiLowercase name)) ++ simpleKeys simple

/-- the keys of the simple selectors -/
def simpleKeys : List SimpleSelector → List SubjectKey
  | [] => []
  | simple :: rest => simple.keys ++ simpleKeys rest

def SimpleSelector.keys : SimpleSelector → List SubjectKey
  | .id name => [.id (toAsciiLowercase name)]
  | .class name => [.class (toAsciiLowercase name)]
  | .attribute selector => [.attribute (toAsciiLowercase selector.name)]
  | .pseudo (.is list) | .pseudo (.where_ list) => listKeys list
  | .pseudo (.nthChild _ _ (some list)) | .pseudo (.nthLastChild _ _ (some list)) => listKeys list
  | .pseudo _ => []

/-- the keys of every selector of a list -/
def listKeys : List ComplexSelector → List SubjectKey
  | [] => []
  | selector :: rest => selector.subjectKeys ++ listKeys rest

end

/-- `SubjectPseudo`: the pseudo-element of the subject; `never` is one that matches in no context -/
inductive SubjectPseudo
  | none
  | named (name : String)
  | never
  deriving DecidableEq

def ComplexSelector.subjectPseudo (selector : ComplexSelector) : SubjectPseudo :=
  match selector.subject.pseudoElement with
  | .none => .none
  | some element =>
    if eqIgnoreAsciiCase element.name "slotted" then .none
    else if element.argument.isSome then .never
    else .named element.name

end Render.Css
