/-
Character data (`render-dom/src/text.rs`, `set_character_data` of `lib.rs`) and clones (`clone.rs`).

`clone_node` recurses into children and template contents. The recursion is run for one level more than the arena has
nodes; it never returns when a template's contents hold the template itself, which an insertion does not rule out.
-/
import Render.Dom.Named

namespace Render

open Render.Core Render.Core.Comp

/-- `replace_data`: replace `count` code units at `offset`, the count clamped to the data that remains -/
def replaceData (n : NodeId) (offset count : ℕ) (data : String) : DomM Unit := do
  let units := encodeUtf16 (← check fun d => d.characterDataText n)
  let length := units.length
  failIf (length < offset) (.indexSize "the offset is greater than the length of the data")
  let count := min count (length - offset)
  let inserted := encodeUtf16 data
  let next := units.take offset ++ inserted ++ units.drop (offset + count)
  modify fun d => d.setDataText n (fromUtf16Lossy next)
  modify fun d => d.updateRangesForReplaceData n offset count inserted.length
  recordMutations [.characterData n]

/-- `set_character_data` -/
def setCharacterData (n : NodeId) (value : String) : DomM Unit := do
  let data ← check fun d => d.characterDataText n
  replaceData n 0 (utf16Len data) value

/-- the new node of `split_text` goes after `n`, and takes the boundary points behind the offset with it -/
def insertSplit (n newNode : NodeId) (offset : ℕ) (parent : NodeId) : DomM Unit := do
  let d ← get
  let index := d.indexOrZero n
  let next := d.nextSibling n
  let _ ← insertBefore parent newNode next
  modify fun d => d.updateRangesForSplitText n newNode parent offset index

/-- `split_text`: split a Text node and return the new node holding the rest -/
def splitText (n : NodeId) (offset : ℕ) : DomM NodeId := do
  match ← check fun d => d.nodeKindOrError n with
  | .text data =>
    let units := encodeUtf16 data
    let length := units.length
    failIf (length < offset) (.indexSize "the offset is greater than the length of the data")
    let count := length - offset
    let newNode ← createText (fromUtf16Lossy (units.drop offset))
    let d ← get
    whenSome (d.parent n) (insertSplit n newNode offset)
    replaceData n offset count ""
    return newNode
  | _ => fail (.invalidNodeType "splitText requires a Text node")

/-- the Text nodes that follow `n` directly, where `n` is the child of `parent` at `index` -/
def Dom.contiguousText (d : Dom) (parent : NodeId) (index : ℕ) : List NodeId :=
  ((d.childrenOf parent).drop (index + 1)).takeWhile d.isTextNode

/-- the loop of `normalize` that collects the data of the nodes to merge -/
def Dom.appendedData (d : Dom) : List NodeId → Except DomError String
  | [] => .ok ""
  | sibling :: rest => do
    let data ← d.characterDataText sibling
    return data ++ (← Dom.appendedData d rest)

/-- the loop of `normalize` that moves the boundary points of the merged nodes into `n` -/
def Dom.updateRangesForMerges (d : Dom) (n parent : NodeId) : ℕ → ℕ → List NodeId → Dom
  | _, _, [] => d
  | mergedIndex, base, sibling :: rest =>
    Dom.updateRangesForMerges (d.updateRangesForMerge sibling n parent mergedIndex base) n parent (mergedIndex + 1)
      (base + d.nodeLength sibling) rest

/-- the Text nodes after `n` are merged into it -/
def mergeText (n parent : NodeId) (index : ℕ) (contiguous : List NodeId) : DomM Unit := do
  let appended ← check fun d => d.appendedData contiguous
  let d ← get
  let length := d.nodeLength n
  replaceData n length 0 appended
  modify fun d => d.updateRangesForMerges n parent (index + 1) length contiguous
  forEach (fun sibling => discard (removeChild parent sibling)) contiguous

/-- one pass of the loop of `normalize` over the Text nodes below the root -/
def normalizeText (n : NodeId) : DomM Unit := do
  let d ← get
  match d.parent n with
  -- merged into an earlier node, or removed as empty
  | none => return ()
  | some parent =>
    if d.nodeLength n = 0 then discard (removeChild parent n)
    else
      match d.indexInParent n with
      | none => return ()
      | some index =>
        let contiguous := d.contiguousText parent index
        when (¬ contiguous.isEmpty) (mergeText n parent index contiguous)

/-- `normalize`: remove empty Text nodes and merge each run of Text nodes below `root` into its first node -/
def normalize (root : NodeId) : DomM Unit := do
  let _ ← check fun d => d.nodeKindOrError root
  let d ← get
  forEach normalizeText ((d.descendants root).filter d.isTextNode)

/-! ## Clones -/

/-- the copy of one node, without its children and before its node document is set -/
def cloneKind (n : NodeId) (source : NodeKind) : DomM NodeId :=
  match source with
  | .document => do
    let d ← get
    createDocument (d.contentType n)
  | .shadowRoot _ => fail (.notSupported "a shadow root cannot be cloned (DOM NotSupportedError)")
  | .documentType data => createDocumentType data.name data.publicId data.systemId
  | .documentFragment => createDocumentFragment
  | .text data => createText data
  | .comment data => createComment data
  | .processingInstruction target data => createProcessingInstruction target data
  | .element data => do
    let copy ← createElementQualified data.nameSpace data.namePrefix data.localName
    modify fun d => d.modifyElement copy fun element => { element with attributes := data.attributes }
    modify fun d => d.indexNamed copy
    return copy

/-- a copy of `n` alone, in the node document of `n` unless it is a document itself -/
def cloneOne (n : NodeId) : DomM NodeId := do
  let source ← check fun d => d.kind n
  let copy ← cloneKind n source
  modify fun d => if source ≠ .document then d.setNodeDocument copy (d.ownerOf n) else d
  return copy

/-- the template contents of a node and of its copy, when both have them -/
def Dom.cloneTargets (d : Dom) (n copy : NodeId) : Option (NodeId × NodeId) := do
  let sourceContents ← d.templateContents n
  let copyContents ← d.templateContents copy
  return (sourceContents, copyContents)

/-- a deep copy of `child` becomes the last child of `target` -/
def cloneInto (clone : NodeId → Bool → DomM NodeId) (target child : NodeId) : DomM Unit := do
  let copy ← clone child true
  let _ ← appendChild target copy

/-- the recursion of `clone_node`, run for a bounded number of levels -/
def cloneNodeFrom : ℕ → NodeId → Bool → DomM NodeId
  | 0, _, _ => diverge
  | k + 1, n, deep => do
    let copy ← cloneOne n
    when deep (do
      let d ← get
      whenSome (d.cloneTargets n copy) fun targets =>
        forEach (cloneInto (cloneNodeFrom k) targets.2) (d.childrenOf targets.1)
      let d ← get
      forEach (cloneInto (cloneNodeFrom k) copy) (d.childrenOf n))
    return copy

/-- `clone_node` -/
def cloneNode (n : NodeId) (deep : Bool) : DomM NodeId := do
  let d ← get
  cloneNodeFrom d.passes n deep

end Render
