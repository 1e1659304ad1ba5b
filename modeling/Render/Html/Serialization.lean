/-
HTML fragment serialization (`render-html/src/serialization.rs`).

The functions of the source push onto one output string; here they return what they push. `serialize_node` recurses into
children and template contents without a bound: it is run for a given number of levels, and `none` says that the levels
did not reach the bottom.
-/
import Render.Core.Escape
import Render.Core.Levels
import Render.Dom.Content
import Render.Net.Text

namespace Render.Html

open Render.Core Render.Net

/-- elements written without an end tag and never descended into -/
def voidElements : List String :=
  ["area", "base", "br", "col", "embed", "hr", "img", "input", "link", "meta", "param", "source", "track", "wbr"]

/-- elements whose text children are written as they are -/
def rawTextElements : List String := ["iframe", "noembed", "noframes", "plaintext", "script", "style", "xmp"]

def isRawTextElement (localName : String) (scriptingEnabled : Bool) : Bool :=
  rawTextElements.contains localName || (scriptingEnabled && localName == "noscript")

def xlinkNamespace : String := "http://www.w3.org/1999/xlink"
def xmlNamespace : String := "http://www.w3.org/XML/1998/namespace"
def xmlnsNamespace : String := "http://www.w3.org/2000/xmlns/"

/-- a local name behind its prefix -/
def qualifiedName (namePrefix : Option String) (localName : String) : String :=
  match namePrefix with
  | some namePrefix => namePrefix ++ ":" ++ localName
  | none => localName

/-- the name an attribute is written under -/
def attributeName (attr : Attribute) : String :=
  if attr.nameSpace = some xlinkNamespace then "xlink:" ++ attr.localName
  else if attr.nameSpace = some xmlNamespace then "xml:" ++ attr.localName
  -- the default namespace declaration has no prefix
  else if attr.nameSpace = some xmlnsNamespace then qualifiedName attr.namePrefix attr.localName
  else qualifiedName attr.namePrefix attr.localName

/-- the references of `escape_text` -/
def textReference : Char → Option Chars
  | '&' => some ['&', 'a', 'm', 'p', ';']
  | '<' => some ['&', 'l', 't', ';']
  | '>' => some ['&', 'g', 't', ';']
  | _ => none

/-- the references of `escape_attribute` -/
def attributeReference : Char → Option Chars
  | '&' => some ['&', 'a', 'm', 'p', ';']
  | '"' => some ['&', 'q', 'u', 'o', 't', ';']
  | _ => none

def escapeText (text : String) : Chars := escape textReference text.toList

def escapeAttribute (value : String) : Chars := escape attributeReference value.toList

def writeAttribute (attr : Attribute) : Chars :=
  ' ' :: (attributeName attr).toList ++ "=\"".toList ++ escapeAttribute attr.value ++ ['"']

def startTag (element : ElementData) : Chars :=
  '<' :: element.localName.toList ++ element.attributes.flatMap writeAttribute ++ ['>']

def endTag (element : ElementData) : Chars := "</".toList ++ element.localName.toList ++ ['>']

/-- the text of a child that is written as it is, in an element of raw text -/
def literalText (d : Dom) (rawText : Bool) (child : NodeId) : Option Chars :=
  match rawText, d.kindOf child with
  | true, some (.text data) => some data.toList
  | _, _ => none

/-- one pass of the loops over children -/
def serializeChild (d : Dom) (serialize : NodeId → Option Chars) (rawText : Bool) (child : NodeId) : Option Chars :=
  match literalText d rawText child with
  | some data => some data
  | none => serialize child

/-- a loop over children -/
def serializeChildren (d : Dom) (serialize : NodeId → Option Chars) (rawText : Bool) (children : List NodeId) :
    Option Chars :=
  gather (serializeChild d serialize rawText) children

/-- what `serialize_node` writes between the tags of an element -/
def serializeBody (d : Dom) (serialize : NodeId → Option Chars) (scriptingEnabled : Bool) (n : NodeId)
    (element : ElementData) : Option Chars :=
  match d.templateContents n with
  | some contents => serializeChildren d serialize false (d.childrenOf contents)
  | none => serializeChildren d serialize (isRawTextElement element.localName scriptingEnabled) (d.childrenOf n)

/-- `serialize_node`, for a number of levels -/
def serializeNode (d : Dom) (scriptingEnabled : Bool) : ℕ → NodeId → Option Chars
  | 0, _ => none
  | k + 1, n =>
    match d.kindOf n with
    | none => some []
    | some (.element element) =>
      if voidElements.contains element.localName then some (startTag element)
      else do
        let body ← serializeBody d (serializeNode d scriptingEnabled k) scriptingEnabled n element
        return startTag element ++ body ++ endTag element
    | some (.text data) => some (escapeText data)
    | some (.comment data) => some ("<!--".toList ++ data.toList ++ "-->".toList)
    | some (.documentType data) => some ("<!DOCTYPE ".toList ++ data.name.toList ++ ['>'])
    | some (.processingInstruction target data) =>
      some ("<?".toList ++ target.toList ++ [' '] ++ data.toList ++ "?>".toList)
    | some .document | some .documentFragment | some (.shadowRoot _) =>
      serializeChildren d (serializeNode d scriptingEnabled k) false (d.childrenOf n)

/-- `serialize_html_node_with_scripting`: one node with its own tags -/
def serializeHtmlNodeWithScripting (d : Dom) (levels : ℕ) (n : NodeId) (scriptingEnabled : Bool) : Option Chars :=
  serializeNode d scriptingEnabled levels n

/-- `serialize_html_node` -/
def serializeHtmlNode (d : Dom) (levels : ℕ) (n : NodeId) : Option Chars := serializeHtmlNodeWithScripting d levels n true

/-- whether `serialize_html_fragment_with_scripting` writes the text children as they are -/
def rawTextParent (d : Dom) (parent : NodeId) (scriptingEnabled : Bool) : Bool :=
  match d.elementOf parent with
  | some element => isRawTextElement element.localName scriptingEnabled
  | none => false

/-- `serialize_html_fragment_with_scripting`: the children of a node, or of its template contents -/
def serializeHtmlFragmentWithScripting (d : Dom) (levels : ℕ) (parent : NodeId) (scriptingEnabled : Bool) : Option Chars :=
  let source := (d.templateContents parent).getD parent
  serializeChildren d (serializeNode d scriptingEnabled levels) (rawTextParent d parent scriptingEnabled) (d.childrenOf source)

/-- `serialize_html_fragment` -/
def serializeHtmlFragment (d : Dom) (levels : ℕ) (parent : NodeId) : Option Chars :=
  serializeHtmlFragmentWithScripting d levels parent true

end Render.Html

/-! What serialization is to write (`render-html/src/serialization.rs`): raw text and void elements are those of the HTML
namespace.

`Written d scripting n s` says that s is the markup of n in which

- a text is escaped, unless it is a child of an HTML raw text element,
- an attribute value is escaped,
- all that an element holds is written between its start and its end tag, unless it is an HTML void element.

The source goes by the local name alone, and writes the contents of a template but not its children. The markup it writes
is never longer than what is to be written, and where it is as long, no element on the way made a difference
(`Written.noLonger`). So it writes what is to be written where every element on the way is plain (`written_iff`). -/

namespace Render.Html

open Render.Core Render.Net

/-! ## What is to be written -/

/-- an HTML void element -/
def IsVoid (element : ElementData) : Prop := element.nameSpace = .html ∧ element.localName ∈ voidElements

/-- an HTML raw text element -/
def IsRawText (scripting : Bool) (element : ElementData) : Prop :=
  element.nameSpace = .html ∧ isRawTextElement element.localName scripting = true

instance (element : ElementData) : Decidable (IsVoid element) := inferInstanceAs (Decidable (_ ∧ _))

instance (scripting : Bool) (element : ElementData) : Decidable (IsRawText scripting element) :=
  inferInstanceAs (Decidable (_ ∧ _))

/-- a node that is nothing but its children -/
def IsHolder : NodeKind → Prop
  | .document | .documentFragment | .shadowRoot _ => True
  | _ => False

/-- a node that holds nothing -/
def IsLeaf : NodeKind → Prop
  | .text _ | .comment _ | .documentType _ | .processingInstruction _ _ => True
  | _ => False

/-- the markup of a node that holds nothing -/
def leafMarkup : NodeKind → Chars
  | .text data => escapeText data
  | .comment data => "<!--".toList ++ data.toList ++ "-->".toList
  | .documentType data => "<!DOCTYPE ".toList ++ data.name.toList ++ ['>']
  | .processingInstruction target data => "<?".toList ++ target.toList ++ [' '] ++ data.toList ++ "?>".toList
  | _ => []

/-- the markup of the contents of a node and then of its children -/
def insideMarkup (d : Dom) (n : NodeId) (inner own : NodeId → Chars) : Chars :=
  (d.contentsOf n).flatMap inner ++ (d.childrenOf n).flatMap own

/-- `Written d scripting n s`: s is the markup of n -/
inductive Written (d : Dom) (scripting : Bool) : NodeId → Chars → Prop where
  | absent {n : NodeId} : d.kindOf n = none → Written d scripting n []
  | leaf {n : NodeId} {kind : NodeKind} : d.kindOf n = some kind → IsLeaf kind → Written d scripting n (leafMarkup kind)
  | holder {n : NodeId} {kind : NodeKind} {own : NodeId → Chars} : d.kindOf n = some kind → IsHolder kind →
      (∀ c ∈ d.childrenOf n, Written d scripting c (own c)) → Written d scripting n ((d.childrenOf n).flatMap own)
  | void {n : NodeId} {element : ElementData} : d.kindOf n = some (.element element) → IsVoid element →
      Written d scripting n (startTag element)
  | element {n : NodeId} {element : ElementData} {inner own : NodeId → Chars} :
      d.kindOf n = some (.element element) → ¬ IsVoid element →
      (∀ c ∈ d.contentsOf n, Written d scripting c (inner c)) →
      (∀ c ∈ d.childrenOf n, literalText d (IsRawText scripting element) c = none → Written d scripting c (own c)) →
      (∀ c ∈ d.childrenOf n, ∀ data, literalText d (IsRawText scripting element) c = some data → own c = data) →
      Written d scripting n (startTag element ++ insideMarkup d n inner own ++ endTag element)

/-- s is the markup of what n holds, the text children of n as they are if `rawText` -/
def WrittenInside (d : Dom) (scripting rawText : Bool) (n : NodeId) (s : Chars) : Prop :=
  ∃ inner own : NodeId → Chars, s = insideMarkup d n inner own ∧
    (∀ c ∈ d.contentsOf n, Written d scripting c (inner c)) ∧
    (∀ c ∈ d.childrenOf n, literalText d rawText c = none → Written d scripting c (own c)) ∧
    ∀ c ∈ d.childrenOf n, ∀ data, literalText d rawText c = some data → own c = data

/-- whether a node is an HTML raw text element -/
def htmlRawTextParent (d : Dom) (n : NodeId) (scripting : Bool) : Bool :=
  match d.elementOf n with
  | some element => IsRawText scripting element
  | none => false

/-- s is the markup of what n holds -/
def WrittenFragment (d : Dom) (scripting : Bool) (n : NodeId) (s : Chars) : Prop :=
  WrittenInside d scripting (htmlRawTextParent d n scripting) n s

/-! ## The condition -/

/-- nothing to escape -/
def Clean (data : String) : Prop := ∀ c ∈ data.toList, c ≠ '&' ∧ c ≠ '<' ∧ c ≠ '>'

/-- the node is no text with something to escape -/
def CleanText (d : Dom) (c : NodeId) : Prop := ∀ data, d.kindOf c = some (.text data) → Clean data

/-- a node whose markup is empty: an empty text; among the children of a node there is no other -/
inductive Blank (d : Dom) : NodeId → Prop where
  | absent {n : NodeId} : d.kindOf n = none → Blank d n
  | text {n : NodeId} : d.kindOf n = some (.text "") → Blank d n
  | holder {n : NodeId} {kind : NodeKind} : d.kindOf n = some kind → IsHolder kind →
      (∀ c ∈ d.childrenOf n, Blank d c) → Blank d n

/-- what n holds: the text children that are written as they are have nothing to escape, and a template has no children -/
structure PlainInside (d : Dom) (n : NodeId) (literalContents literalOwn : Prop) : Prop where
  contents : literalContents → ∀ c ∈ d.contentsOf n, CleanText d c
  children : d.templateContents n = none → literalOwn → ∀ c ∈ d.childrenOf n, CleanText d c
  template : d.templateContents n ≠ none → ∀ c ∈ d.childrenOf n, Blank d c

/-- an element of another namespace with the name of a raw text element -/
def ForeignRawText (scripting : Bool) (element : ElementData) : Prop :=
  element.nameSpace ≠ .html ∧ isRawTextElement element.localName scripting = true

/-- the name of the element makes no difference, unless it is an HTML void element -/
def Plain (d : Dom) (scripting : Bool) (n : NodeId) : Prop :=
  ∀ element, d.kindOf n = some (.element element) → ¬ IsVoid element →
    element.localName ∉ voidElements ∧ PlainInside d n False (ForeignRawText scripting element)

/-- the names make no difference to the fragment of n -/
def PlainFragment (d : Dom) (scripting : Bool) (n : NodeId) : Prop :=
  PlainInside d n (rawTextParent d n scripting = true)
    (rawTextParent d n scripting = true ∧ htmlRawTextParent d n scripting = false)

/-- the nodes whose markup is to be inside the markup of n -/
def inside (d : Dom) (n : NodeId) : List NodeId :=
  match d.kindOf n with
  | some (.element element) => if IsVoid element then [] else d.contentsOf n ++ d.childrenOf n
  | some .document | some .documentFragment | some (.shadowRoot _) => d.childrenOf n
  | _ => []

/-- the way down from n ends -/
def WayEnds (d : Dom) (n : NodeId) : Prop := Acc (fun c p => c ∈ inside d p) n

/-- m is on the way down from n -/
def OnWay (d : Dom) (n m : NodeId) : Prop := Relation.ReflTransGen (fun p c => c ∈ inside d p) n m

/-- the way down ends, and every node on it is plain -/
inductive Faithful (d : Dom) (scripting : Bool) : NodeId → Prop where
  | intro {n : NodeId} : Plain d scripting n → (∀ c ∈ inside d n, Faithful d scripting c) → Faithful d scripting n

variable {d : Dom} {scripting : Bool} {n c : NodeId} {s t : Chars}

theorem faithful_iff : Faithful d scripting n ↔ WayEnds d n ∧ ∀ m, OnWay d n m → Plain d scripting m := by
  constructor
  · intro h
    induction h with
    | intro hplain _ ih =>
      refine ⟨Acc.intro _ fun c hc => (ih c hc).1, fun m hm => ?_⟩
      rcases Relation.ReflTransGen.cases_head hm with rfl | ⟨c, hc, hm⟩
      · exact hplain
      · exact (ih c hc).2 m hm
  · rintro ⟨hends, hplain⟩
    induction hends with
    | intro n _ ih =>
      exact Faithful.intro (hplain n Relation.ReflTransGen.refl) fun c hc =>
        ih c hc fun m hm => hplain m (Relation.ReflTransGen.head hc hm)

end Render.Html
