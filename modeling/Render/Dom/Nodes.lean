/-
Reading the arena (`render-dom/src/lib.rs`): nodes, links, the walks up the parents and down the children, attributes.

The source's loops over `parent` (`tree_root`, `is_inclusive_ancestor`, `path_from_root`, `ancestors_inclusive`) all
visit `ancestorsInclusive`, and its stack loops over `children` all visit `descendants`. Both are run for one pass more
than the arena has nodes; the tree invariant (`Render.Dom.TreeInv`) shows that every such loop of a reachable DOM has
ended by then.
-/
import Render.Core.Dfs
import Render.Dom.Types

namespace Render

open Render.Core

/-- `str::to_ascii_lowercase` -/
def toAsciiLowercase (s : String) : String := String.ofList (s.toList.map Char.toLower)

/-- `Attribute::has_qualified_name` -/
def Attribute.hasQualifiedName (a : Attribute) (name : String) : Bool :=
  match a.namePrefix with
  | none => a.localName == name
  | some namePrefix => name == namePrefix ++ ":" ++ a.localName

/-- the name an attribute is looked up by: an HTML element folds ASCII case -/
def Namespace.attributeName (nameSpace : Namespace) (localName : String) : String :=
  if nameSpace = .html then toAsciiLowercase localName else localName

namespace Dom

variable (d : Dom)

def node (n : NodeId) : Option Node := d.nodes[n]?

def parent (n : NodeId) : Option NodeId := (d.node n).bind Node.parent

def children (n : NodeId) : Option (List NodeId) := (d.node n).map Node.children

/-- `children(n).unwrap_or_default()` -/
def childrenOf (n : NodeId) : List NodeId := (d.children n).getD []

/-- `node(n).map(Node::kind)` -/
def kindOf (n : NodeId) : Option NodeKind := (d.node n).map Node.kind

def kind (n : NodeId) : Except DomError NodeKind :=
  match d.kindOf n with
  | some kind => .ok kind
  | none => .error (.notFound s!"unknown node {n}")

def requireNode (n : NodeId) : Except DomError Unit := do
  let _ ← d.kind n

/-- `node_kind_or_error` of `text.rs`, which has its own message -/
def nodeKindOrError (n : NodeId) : Except DomError NodeKind :=
  match d.kindOf n with
  | some kind => .ok kind
  | none => .error (.notFound "unknown node")

/-- the element data of an element, and `none` for every other node -/
def elementOf (n : NodeId) : Option ElementData :=
  match d.kindOf n with
  | some (.element data) => some data
  | _ => none

/-- `element_data`: the namespace and local name of an element -/
def elementData (n : NodeId) : Option (Namespace × String) :=
  (d.elementOf n).map fun data => (data.nameSpace, data.localName)

/-- how many passes a loop over the arena is run for -/
def passes : ℕ := d.nodes.length + 1

/-- `n` and its ancestors, from `n` up to the root -/
def ancestorsInclusive (n : NodeId) : List NodeId := (walk d.parent d.passes n).getD []

/-- `n` and its ancestors, from the root down to `n` -/
def pathFromRoot (n : NodeId) : List NodeId := (d.ancestorsInclusive n).reverse

def isInclusiveAncestor (ancestor n : NodeId) : Bool := (d.ancestorsInclusive n).contains ancestor

/-- the topmost ancestor of `n`, which is `n` itself if it has no parent -/
def treeRoot (n : NodeId) : NodeId := (d.ancestorsInclusive n).getLast?.getD n

/-- the nodes below `n` without `n` itself, in tree order -/
def descendants (n : NodeId) : List NodeId := (dfs d.childrenOf d.passes (d.childrenOf n)).getD []

/-- `n` and the nodes below it, in tree order -/
def descendantsInclusive (n : NodeId) : List NodeId := (dfs d.childrenOf d.passes [n]).getD []

/-- the index of `n` among its parent's children -/
def indexInParent (n : NodeId) : Option ℕ := do
  let parent ← d.parent n
  let siblings ← d.children parent
  siblings.idxOf? n

def indexOrZero (n : NodeId) : ℕ := (d.indexInParent n).getD 0

def nextSibling (n : NodeId) : Option NodeId := do
  let parent ← d.parent n
  let siblings ← d.children parent
  let index ← siblings.idxOf? n
  siblings[index + 1]?

def previousSibling (n : NodeId) : Option NodeId := do
  let parent ← d.parent n
  let siblings ← d.children parent
  let index ← siblings.idxOf? n
  if index = 0 then none else siblings[index - 1]?

/-- `owner_of`: the node document, or the arena's own document for a node it does not have -/
def ownerOf (n : NodeId) : NodeId := ((d.node n).map Node.owner).getD d.document

/-- `attribute`: the value of an attribute of an element, by qualified name -/
def getAttribute (element : NodeId) (localName : String) : Except DomError (Option String) := do
  match ← d.kind element with
  | .element data =>
    let normalized := data.nameSpace.attributeName localName
    return (data.attributes.find? (·.hasQualifiedName normalized)).map Attribute.value
  | _ => .error (.invalidNodeType "attributes require an element")

/-- `attribute(n, name).ok().flatten()` -/
def attributeOf (n : NodeId) (name : String) : Option String :=
  match d.getAttribute n name with
  | .ok value => value
  | .error _ => none

/-- `has_attribute` -/
def hasAttribute (n : NodeId) (name : String) : Bool := (d.attributeOf n name).isSome

def isTextNode (n : NodeId) : Bool :=
  match d.kindOf n with
  | some (.text _) => true
  | _ => false

/-- whether `n` is a Text, Comment or ProcessingInstruction node -/
def isCharacterData (n : NodeId) : Bool :=
  match d.kindOf n with
  | some (.text _) | some (.comment _) | some (.processingInstruction _ _) => true
  | _ => false

/-- replace the record of one node -/
def modifyNode (n : NodeId) (f : Node → Node) : Dom := { d with nodes := d.nodes.modify n f }

/-- replace the data of an element; every other node is left alone -/
def modifyElement (n : NodeId) (f : ElementData → ElementData) : Dom :=
  d.modifyNode n fun node =>
    match node.kind with
    | .element data => { node with kind := .element (f data) }
    | _ => node

/-- `set_node_document` -/
def setNodeDocument (n document : NodeId) : Dom := d.modifyNode n fun node => { node with owner := document }

end Dom

end Render
