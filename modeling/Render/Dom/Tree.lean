/-
Tree mutation (`render-dom/src/lib.rs`, `document.rs` and `attach_shadow` of `shadow.rs`): creating nodes, the checks
before an insertion, insertion, removal and adoption.

The state changes are functions on `Dom`; an operation is a `DomM` program over them, in the order of the source. A
function that changes the state without failing is named after the source's function with `In` where the operation
itself is a `DomM` program.
-/
import Render.Dom.Points

namespace Render

open Render.Core Render.Core.Comp

def NodeKind.isDocumentFragment : NodeKind → Bool
  | .documentFragment => true
  | _ => false

namespace Dom

variable (d : Dom)

/-- `allocate`: a new node at the end of the arena, owned by the arena's own document -/
def allocateIn (kind : NodeKind) : Dom :=
  { d with nodes := d.nodes ++ [{ id := d.nodes.length, parent := none, children := [], kind, owner := d.document }] }

/-- the writes of `detach_without_revision`: the parent forgets `n` and `n` forgets its parent -/
def unlink (n parent : NodeId) : Dom :=
  (d.modifyNode parent fun p => { p with children := p.children.filter (· ≠ n) }).modifyNode n
    fun c => { c with parent := none }

/-- `detach_without_revision`: live ranges leave the node, then it leaves its parent -/
def detachWithoutRevision (n : NodeId) : Dom :=
  match d.parent n with
  | none => d
  | some parent =>
    let moved :=
      if d.ranges.isEmpty then d
      else
        match d.indexInParent n with
        | some index => d.updateRangesForRemove n parent index
        | none => d
    moved.unlink n parent

def detachAll (nodes : List NodeId) : Dom := nodes.foldl detachWithoutRevision d

/-- one pass of the insertion loop of `insert_before` -/
def insertChild (parent : NodeId) (index : ℕ) (n : NodeId) : Dom :=
  (d.modifyNode parent fun p => { p with children := p.children.insertIdx index n }).modifyNode n
    fun c => { c with parent := some parent }

def insertChildren (d : Dom) (parent : NodeId) : ℕ → List NodeId → Dom
  | _, [] => d
  | index, n :: rest => insertChildren (d.insertChild parent index n) parent (index + 1) rest

/-- step 5 of "insert": boundary points past the reference move by the number of nodes -/
def shiftForInsert (parent : NodeId) (reference : Option NodeId) (count : ℕ) : Dom :=
  match reference with
  | some reference =>
    if d.ranges.isEmpty then d else d.updateRangesForInsert parent (d.indexOrZero reference) count
  | none => d

/-- the nodes `adopt_subtree` pushes after it has visited `n`, the top of its stack first -/
def adoptSuccessors (n : NodeId) : List NodeId := (d.shadowRoot n).toList ++ (d.childrenOf n).reverse

/-- `adopt_subtree`: `root`, its descendants and the shadow trees in it get a new owner. The owners are not read by the
walk, so it is run first; it does not end when a shadow tree holds its own host. -/
def adoptSubtree (root document : NodeId) : Option Dom :=
  (dfs d.adoptSuccessors d.passes [root]).map fun visited => visited.foldl (fun d n => d.setNodeDocument n document) d

/-- the adoption step of `insert_before`: a node that has another owner is adopted with its subtree -/
def adoptAll (d : Dom) (owner : NodeId) : List NodeId → Option Dom
  | [] => some d
  | n :: rest =>
    if d.ownerOf n = owner then adoptAll d owner rest
    else (d.adoptSubtree n owner).bind fun d => adoptAll d owner rest

/-! ## The checks before an insertion -/

def validateParentKind (parent : NodeId) : Except DomError Unit := do
  match ← d.kind parent with
  | .document | .documentFragment | .shadowRoot _ | .element _ => return ()
  | _ => .error (.hierarchy "only Document, DocumentFragment, and Element can be insertion parents")

def validateChildKind (parent child : NodeId) : Except DomError Unit := do
  let parentKind ← d.kind parent
  let childKind ← d.kind child
  match childKind with
  | .document | .documentFragment | .shadowRoot _ =>
    .error (.hierarchy "Document cannot be inserted and DocumentFragment must be expanded")
  | .text _ =>
    match parentKind with
    | .document => .error (.hierarchy "Text nodes cannot be children of Document")
    | _ => return ()
  | .documentType _ =>
    match parentKind with
    | .document => return ()
    | _ => .error (.hierarchy "DocumentType can only be inserted into Document")
  | _ => return ()

/-- the children a document would have: the moved nodes taken out and put before the reference -/
def candidateChildren (existing insertionNodes : List NodeId) (reference : Option NodeId) : List NodeId :=
  let candidate := existing.filter fun n => !insertionNodes.contains n
  let index :=
    match reference with
    | some reference => (candidate.idxOf? reference).getD candidate.length
    | none => candidate.length
  candidate.take index ++ insertionNodes ++ candidate.drop index

/-- the loop over the candidate children: `seen` holds the indices of the element and of the doctype met so far -/
def scanDocumentChildren (d : Dom) :
    ℕ → Option ℕ × Option ℕ → List NodeId → Except DomError (Option ℕ × Option ℕ)
  | _, seen, [] => .ok seen
  | index, seen, child :: rest => do
    match ← d.kind child with
    | .element _ =>
      refuse seen.1.isSome (.hierarchy "Document cannot contain more than one element child")
      scanDocumentChildren d (index + 1) (some index, seen.2) rest
    | .documentType _ =>
      refuse seen.2.isSome (.hierarchy "Document cannot contain more than one doctype")
      scanDocumentChildren d (index + 1) (seen.1, some index) rest
    | .comment _ | .processingInstruction _ _ => scanDocumentChildren d (index + 1) seen rest
    | _ => .error (.hierarchy "invalid child type in Document")

def validateDocumentChildren (parent : NodeId) (insertionNodes : List NodeId) (reference : Option NodeId) :
    Except DomError Unit := do
  match ← d.kind parent with
  | .document =>
    let seen ← d.scanDocumentChildren 0 (none, none) (candidateChildren (d.childrenOf parent) insertionNodes reference)
    match seen with
    | (some element, some doctype) =>
      refuse (element < doctype) (.hierarchy "DocumentType must precede the document element")
    | _ => return ()
  | _ => return ()

/-- the loop over the inserted nodes in `pre_insert_checks` -/
def validateInsertionNodes (d : Dom) (parent : NodeId) : List NodeId → Except DomError Unit
  | [] => .ok ()
  | n :: rest => do
    refuse (d.isInclusiveAncestor n parent) (.hierarchy "inserting a fragment child would create a cycle")
    d.validateChildKind parent n
    validateInsertionNodes d parent rest

/-- the check of the reference in `pre_insert_checks` -/
def validateReference (parent : NodeId) : Option NodeId → Except DomError Unit
  | none => .ok ()
  | some reference => do
    d.requireNode reference
    refuse (d.parent reference ≠ some parent) (.notFound "reference node is not a child of the insertion parent")

/-- `pre_insert_checks`: the reference the insertion uses, or the reason why it is refused -/
def preInsertChecks (parent n : NodeId) (reference : Option NodeId) : Except DomError (Option NodeId) := do
  d.requireNode parent
  d.requireNode n
  d.validateReference parent reference
  d.validateParentKind parent
  refuse (n = parent ∨ d.isInclusiveAncestor n parent) (.hierarchy "inserting the node would create a cycle")
  let effectiveReference := if reference = some n then d.nextSibling n else reference
  let insertionNodes := if (← d.kind n).isDocumentFragment then d.childrenOf n else [n]
  d.validateInsertionNodes parent insertionNodes
  d.validateDocumentChildren parent insertionNodes effectiveReference
  return effectiveReference

/-- the nodes `insert_before` inserts for a node of this kind -/
def nodesInserted (kind : NodeKind) (n : NodeId) : List NodeId :=
  match kind with
  | .documentFragment | .shadowRoot _ => d.childrenOf n
  | _ => [n]

/-- where the first node is inserted: the index of the reference among the children that are left -/
def insertionIndex (parent : NodeId) (reference : Option NodeId) : Except DomError ℕ :=
  match reference with
  | some reference =>
    match (d.childrenOf parent).idxOf? reference with
    | some index => .ok index
    | none => .error (.notFound "reference node disappeared during insertion")
  | none => .ok (d.childrenOf parent).length

end Dom

/-! ## Creating nodes -/

def allocate (kind : NodeKind) : DomM NodeId := do
  let d ← get
  modify fun d => d.allocateIn kind
  return d.nodes.length

def createDocumentFragment : DomM NodeId := allocate .documentFragment

def createDocumentType (name publicId systemId : String) : DomM NodeId :=
  allocate (.documentType { name, publicId, systemId })

/-- `new_element_data`: an HTML `template` gets its contents, allocated before the element -/
def newElementData (nameSpace : Namespace) (namePrefix : Option String) (localName : String) : DomM ElementData := do
  if nameSpace = .html ∧ localName = "template" then
    let contents ← createDocumentFragment
    return { nameSpace, namePrefix, localName, templateContents := some contents }
  else return { nameSpace, namePrefix, localName }

def createElement (localName : String) : DomM NodeId := do
  let data ← newElementData .html none (toAsciiLowercase localName)
  allocate (.element data)

def createElementQualified (nameSpace : Namespace) (namePrefix : Option String) (localName : String) : DomM NodeId := do
  let data ← newElementData nameSpace namePrefix localName
  allocate (.element data)

def createElementNs (nameSpace : Namespace) (localName : String) : DomM NodeId :=
  createElementQualified nameSpace none localName

def createText (data : String) : DomM NodeId := allocate (.text data)

def createComment (data : String) : DomM NodeId := allocate (.comment data)

def createProcessingInstruction (target data : String) : DomM NodeId := allocate (.processingInstruction target data)

/-- `set_node_document` -/
def setNodeDocument (n document : NodeId) : DomM Unit := modify fun d => d.setNodeDocument n document

/-- `create_document`: the document is its own node document -/
def createDocument (contentType : String) : DomM NodeId := do
  let document ← allocate .document
  setNodeDocument document document
  modify fun d => { d with documentContentTypes := d.documentContentTypes.insert document contentType }
  return document

/-- `content_type` -/
def Dom.contentType (d : Dom) (document : NodeId) : String := (d.documentContentTypes[document]?).getD "text/html"

/-! ## Insertion and removal -/

/-- `insert_before`: insert `n` before `reference`, or last; a fragment inserts its children and becomes empty -/
def insertBefore (parent n : NodeId) (reference : Option NodeId) : DomM NodeId := do
  let effectiveReference ← check fun d => d.preInsertChecks parent n reference
  let kind ← check fun d => d.kind n
  let d ← get
  let insertionNodes := d.nodesInserted kind n
  if insertionNodes.isEmpty then return n
  let removals := insertionNodes.filterMap fun moved => (d.parent moved).map fun oldParent => (oldParent, moved)
  -- step 4: a fragment gives up its children first
  modify fun d => if kind.isDocumentFragment then d.detachAll insertionNodes else d
  -- step 5 runs before step 7, so it reads the index of the reference while a moved sibling is still in place
  modify fun d => d.shiftForInsert parent effectiveReference insertionNodes.length
  -- step 7: each node leaves its old parent, is adopted, and is inserted
  modify fun d => d.detachAll insertionNodes
  awaitModify fun d => d.adoptAll (d.ownerOf parent) insertionNodes
  let insertionIndex ← check fun d => d.insertionIndex parent effectiveReference
  modify fun d => d.insertChildren parent insertionIndex insertionNodes
  recordMutations
    ((removals.map fun removal => .childList removal.1 [] [removal.2]) ++ [.childList parent insertionNodes []])
  return n

def appendChild (parent n : NodeId) : DomM NodeId := insertBefore parent n none

/-- forget the value an operation returns -/
def discard {α : Type} (m : DomM α) : DomM Unit := (fun _ => ()) <$> m

/-- `remove_child` -/
def removeChild (parent child : NodeId) : DomM NodeId := do
  check fun d => d.requireNode parent
  check fun d => d.requireNode child
  let d ← get
  failIf (d.parent child ≠ some parent) (.notFound "node is not a child of the supplied parent")
  modify fun d => d.detachWithoutRevision child
  recordMutations [.childList parent [] [child]]
  return child

/-- `set_data_text`: the kind of a character data node with other data -/
def NodeKind.withData (kind : NodeKind) (value : String) : NodeKind :=
  match kind with
  | .text _ => .text value
  | .comment _ => .comment value
  | .processingInstruction target _ => .processingInstruction target value
  | other => other

def Dom.setDataText (d : Dom) (n : NodeId) (value : String) : Dom :=
  d.modifyNode n fun node => { node with kind := node.kind.withData value }

/-- a new Text node becomes the last child -/
def appendNewText (parent : NodeId) (data : String) : DomM NodeId := do
  let text ← createText data
  let _ ← appendChild parent text
  return text

/-- `append_text`: character data joins the parent's last Text child, or becomes a new one -/
def appendText (parent : NodeId) (data : String) : DomM NodeId := do
  check fun d => d.requireNode parent
  failIf (data = "") (.invalidNodeType "cannot append an empty character token")
  let d ← get
  match (d.childrenOf parent).getLast? with
  | some lastChild =>
    match ← check fun d => d.kind lastChild with
    | .text existing =>
      modify fun d => d.setDataText lastChild (existing ++ data)
      recordMutations [.characterData lastChild]
      return lastChild
    | _ => appendNewText parent data
  | none => appendNewText parent data

/-- remove a node from the parent it has, if any -/
def removeFromParent (n : NodeId) : DomM Unit := do
  let d ← get
  whenSome (d.parent n) fun parent => discard (removeChild parent n)

/-- `adopt_node` -/
def adoptNode (document n : NodeId) : DomM Unit := do
  match ← check fun d => d.kind n with
  | .document => fail (.notSupported "a Document cannot be adopted")
  | .shadowRoot _ => fail (.hierarchy "a shadow root cannot be adopted")
  | _ =>
    check fun d => d.requireNode document
    removeFromParent n
    awaitModify fun d => d.adoptSubtree n document

/-- `attach_shadow` -/
def attachShadow (host : NodeId) (mode : ShadowRootMode) (delegatesFocus : Bool) (slotAssignment : SlotAssignmentMode) :
    DomM NodeId := do
  match ← check fun d => d.kind host with
  | .element data =>
    failIf (¬ (data.nameSpace = .html ∧ isValidShadowHostName data.localName))
      (.notSupported "this element cannot host a shadow root")
    failIf data.shadowRoot.isSome (.invalidState "this element already hosts a shadow root")
    let root ← allocate (.shadowRoot { host, mode, delegatesFocus, slotAssignment })
    let d ← get
    setNodeDocument root (d.ownerOf host)
    modify fun d => d.modifyElement host fun data => { data with shadowRoot := some root }
    modify fun d => { d with shadowRoots := d.shadowRoots + 1 }
    recordMutations [.shadowRootAttached host]
    return root
  | _ => fail (.invalidNodeType "attachShadow needs an element")

/-- the slottables among the nodes, each at its first occurrence -/
def Dom.uniqueSlottables (d : Dom) (nodes : List NodeId) : List NodeId :=
  nodes.foldl (fun unique n => if d.isSlottable n && !unique.contains n then unique ++ [n] else unique) []

/-- every other slot of the tree gives up the nodes -/
def Dom.releaseFromSlots (d : Dom) (root slot : NodeId) (nodes : List NodeId) : Dom :=
  (d.slotsInTree root).foldl
    (fun d other =>
      if other ≠ slot then
        d.modifyElement other fun data =>
          { data with manuallyAssignedNodes := data.manuallyAssignedNodes.filter fun n => !nodes.contains n }
      else d) d

/-- `slot.assign(...nodes)`: each slottable is taken away from any other slot of the same shadow tree -/
def assignSlotNodes (slot : NodeId) (nodes : List NodeId) : DomM Unit := do
  let d ← get
  failIf (!d.isSlot slot) (.invalidNodeType "assign needs a slot element")
  let unique := d.uniqueSlottables nodes
  let root := d.treeRoot slot
  when (d.shadowRootData root).isSome (modify fun d => d.releaseFromSlots root slot unique)
  modify fun d => d.modifyElement slot fun data => { data with manuallyAssignedNodes := unique }

/-! ## Form owners -/

/-- `is_form_associated` -/
def Dom.isFormAssociated (d : Dom) (n : NodeId) : Bool :=
  (d.elementData n).any fun data =>
    data.1 == .html &&
      ["button", "fieldset", "input", "object", "output", "select", "textarea", "img"].contains data.2

/-- `set_parser_inserted_form_owner`: records nothing, and says so, for an element that has no form owner -/
def setParserInsertedFormOwner (element form intendedParent : NodeId) : DomM Bool := do
  let d ← get
  if !d.isFormAssociated element || (d.node form).isNone then return false
  modify fun d => d.modifyElement element fun data => { data with parserInsertedFormOwner := some ⟨form, intendedParent⟩ }
  return true

/-- `clear_parser_inserted_form_owners`: the recursion visits `root` and everything below it -/
def clearParserInsertedFormOwners (root : NodeId) : DomM Unit :=
  modify fun d => (d.descendantsInclusive root).foldl
    (fun d n => d.modifyElement n fun data => { data with parserInsertedFormOwner := none }) d

end Render
