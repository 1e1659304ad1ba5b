/-
Ranges (`render-dom/src/range.rs`, DOM §5): the range table, setting boundary points, and deleting, extracting, cloning
and surrounding the contents of a range.

`extract_points` and `clone_points` recurse into the partially contained children, whose boundary points lie deeper in
the tree at each level. The recursions are run for one level more than the arena has nodes.
-/
import Render.Dom.Text

namespace Render

open Render.Core Render.Core.Comp

/-- the children of the common ancestor a range covers in part, and those it covers as a whole -/
structure Shape where
  firstPartial : Option NodeId
  lastPartial : Option NodeId
  containedChildren : List NodeId
deriving DecidableEq, Repr

namespace Dom

variable (d : Dom)

def rangeRecord (range : RangeId) : Except DomError RangeRecord :=
  match d.ranges[range]? with
  | some record => .ok record
  | none => .error (.notFound "unknown range")

def rangeKind (range : RangeId) : Option RangeKind := (d.ranges[range]?).map RangeRecord.kind

def rangeStart (range : RangeId) : Except DomError BoundaryPoint := RangeRecord.start <$> d.rangeRecord range

def rangeEnd (range : RangeId) : Except DomError BoundaryPoint := RangeRecord.stop <$> d.rangeRecord range

def rangeIsCollapsed (range : RangeId) : Except DomError Bool := do
  let record ← d.rangeRecord range
  return record.start == record.stop

def requireNotDoctype (n : NodeId) : Except DomError Unit := do
  match ← d.kind n with
  | .documentType _ => .error (.invalidNodeType "a DocumentType cannot contain a boundary point")
  | _ => return ()

/-- `checked_point`: a boundary point for `(n, offset)`, when there is one -/
def checkedPoint (n : NodeId) (offset : ℕ) : Except DomError BoundaryPoint := do
  d.requireNotDoctype n
  refuse (d.nodeLength n < offset) (.indexSize "the offset is greater than the node's length")
  return ⟨n, offset⟩

def parentAndIndex (n : NodeId) : Except DomError (NodeId × ℕ) :=
  match d.parent n with
  | none => .error (.invalidNodeType "the node has no parent")
  | some parent =>
    match d.indexInParent n with
    | none => .error (.notFound "the node is not a child of its parent")
    | some index => .ok (parent, index)

def pointBefore (n : NodeId) : Except DomError BoundaryPoint := do
  let (parent, index) ← d.parentAndIndex n
  return ⟨parent, index⟩

def pointAfter (n : NodeId) : Except DomError BoundaryPoint := do
  let (parent, index) ← d.parentAndIndex n
  return ⟨parent, index + 1⟩

/-- replace the boundary points of a range that exists -/
def setRange (range : RangeId) (f : RangeRecord → RangeRecord) : Dom := { d with ranges := d.ranges.modify range f }

def shape (start stop : BoundaryPoint) : Shape :=
  let children := d.childrenOf (d.commonAncestor start.node stop.node)
  { firstPartial :=
      if d.isInclusiveAncestor start.node stop.node then none
      else children.find? (d.partiallyContainedIn start stop)
    lastPartial :=
      if d.isInclusiveAncestor stop.node start.node then none
      else children.reverse.find? (d.partiallyContainedIn start stop)
    containedChildren := children.filter (d.containedIn start stop) }

/-- the loop of `extract_points` that refuses a contained DocumentType -/
def refuseDoctypes (d : Dom) : List NodeId → Except DomError Unit
  | [] => .ok ()
  | child :: rest => do
    match ← d.kind child with
    | .documentType _ => .error (.hierarchy "extractContents: the range contains a DocumentType")
    | _ => refuseDoctypes d rest

/-- the loop of `surround_contents` that refuses a partially contained node that is no Text node -/
def refusePartial (d : Dom) : List NodeId → Except DomError Unit
  | [] => .ok ()
  | n :: rest => do
    match ← d.kind n with
    | .text _ => refusePartial d rest
    | _ => .error (.invalidState "surroundContents: a non-Text node is partially contained")

end Dom

/-! ## Boundary points -/

def pushRange (kind : RangeKind) (start stop : BoundaryPoint) : DomM RangeId := do
  let d ← get
  modify fun d => { d with ranges := d.ranges ++ [{ kind, start, stop }] }
  return d.ranges.length

/-- `range_record_mut` and a write to the record -/
def writeRange (range : RangeId) (f : RangeRecord → RangeRecord) : DomM Unit := do
  let _ ← check fun d => d.rangeRecord range
  modify fun d => d.setRange range f

def createLiveRange (n : NodeId) : DomM RangeId := do
  check fun d => d.requireNode n
  pushRange .live ⟨n, 0⟩ ⟨n, 0⟩

/-- `create_static_range`: only the kinds of the two nodes are checked, not the offsets -/
def createStaticRange (start stop : BoundaryPoint) : DomM RangeId := do
  check fun d => d.requireNotDoctype start.node
  check fun d => d.requireNotDoctype stop.node
  pushRange .static_ start stop

/-- `set_range_start`: the end moves along when the new start is in another tree or after it -/
def setRangeStart (range : RangeId) (point : BoundaryPoint) : DomM Unit := do
  let record ← check fun d => d.rangeRecord range
  let d ← get
  let movesEnd := d.treeRoot record.start.node != d.treeRoot point.node || d.position point record.stop == .after
  writeRange range fun record => { record with start := point, stop := if movesEnd then point else record.stop }

/-- `set_range_end`: the start moves along when the new end is in another tree or before it -/
def setRangeEnd (range : RangeId) (point : BoundaryPoint) : DomM Unit := do
  let record ← check fun d => d.rangeRecord range
  let d ← get
  let movesStart := d.treeRoot record.start.node != d.treeRoot point.node || d.position point record.start == .before
  writeRange range fun record => { record with start := if movesStart then point else record.start, stop := point }

def rangeSetStart (range : RangeId) (n : NodeId) (offset : ℕ) : DomM Unit := do
  let point ← check fun d => d.checkedPoint n offset
  setRangeStart range point

def rangeSetEnd (range : RangeId) (n : NodeId) (offset : ℕ) : DomM Unit := do
  let point ← check fun d => d.checkedPoint n offset
  setRangeEnd range point

def rangeSetStartBefore (range : RangeId) (n : NodeId) : DomM Unit := do
  let point ← check fun d => d.pointBefore n
  setRangeStart range point

def rangeSetStartAfter (range : RangeId) (n : NodeId) : DomM Unit := do
  let point ← check fun d => d.pointAfter n
  setRangeStart range point

def rangeSetEndBefore (range : RangeId) (n : NodeId) : DomM Unit := do
  let point ← check fun d => d.pointBefore n
  setRangeEnd range point

def rangeSetEndAfter (range : RangeId) (n : NodeId) : DomM Unit := do
  let point ← check fun d => d.pointAfter n
  setRangeEnd range point

def rangeCollapse (range : RangeId) (toStart : Bool) : DomM Unit :=
  writeRange range fun record =>
    if toStart then { record with stop := record.start } else { record with start := record.stop }

def rangeSelectNode (range : RangeId) (n : NodeId) : DomM Unit := do
  let (parent, index) ← check fun d => d.parentAndIndex n
  writeRange range fun record => { record with start := ⟨parent, index⟩, stop := ⟨parent, index + 1⟩ }

def rangeSelectNodeContents (range : RangeId) (n : NodeId) : DomM Unit := do
  check fun d => d.requireNotDoctype n
  let d ← get
  writeRange range fun record => { record with start := ⟨n, 0⟩, stop := ⟨n, d.nodeLength n⟩ }

/-- `range_clone`: the copy is live, whatever the kind of the range it copies -/
def rangeClone (range : RangeId) : DomM RangeId := do
  let record ← check fun d => d.rangeRecord range
  pushRange .live record.start record.stop

/-! ## Contents -/

/-- a new character data node of the given kind -/
def characterDataLike (kind : NodeKind) (data : String) : DomM NodeId :=
  match kind with
  | .text _ => createText data
  | .comment _ => createComment data
  | .processingInstruction target _ => createProcessingInstruction target data
  | _ => fail (.invalidNodeType "node does not implement CharacterData")

/-- `character_data_copy`: a new node of the same kind as `n` holding `data` -/
def characterDataCopy (n : NodeId) (data : String) : DomM NodeId := do
  let kind ← check fun d => d.kind n
  let copy ← characterDataLike kind data
  let d ← get
  setNodeDocument copy (d.ownerOf n)
  return copy

/-- the contained nodes whose parent is not contained -/
def Dom.nodesToRemove (d : Dom) (start stop : BoundaryPoint) : List NodeId :=
  let contained := d.containedNodes start stop
  contained.filter fun n =>
    match d.parent n with
    | some parent => !contained.contains parent
    | none => true

/-- the code units of `start.node` from the start on are deleted, when it is character data of length `length` -/
def deleteFromStart (start : BoundaryPoint) (length : ℕ) : DomM Unit :=
  replaceData start.node start.offset (usizeSub length start.offset) ""

/-- the code units of `stop.node` up to the end are deleted -/
def deleteToEnd (stop : BoundaryPoint) : DomM Unit := replaceData stop.node 0 stop.offset ""

/-- `delete_points`; the result is the boundary point the range collapses to -/
def deletePoints (start stop : BoundaryPoint) : DomM BoundaryPoint := do
  let d ← get
  if start = stop then return start
  else if start.node = stop.node ∧ d.isCharacterData start.node then
    replaceData start.node start.offset (stop.offset - start.offset) ""
    return start
  else
    let toRemove := d.nodesToRemove start stop
    let point := d.boundaryAfterDelete start stop
    when (d.isCharacterData start.node) (deleteFromStart start (d.nodeLength start.node))
    forEach removeFromParent toRemove
    let d ← get
    when (d.isCharacterData stop.node) (deleteToEnd stop)
    return point

/-- the fragment `extract_points` and `clone_points` start with, in the start node's node document -/
def contentsFragment (start : BoundaryPoint) : DomM NodeId := do
  let fragment ← createDocumentFragment
  let d ← get
  setNodeDocument fragment (d.ownerOf start.node)
  return fragment

/-- a copy of the code units `[start, stop)` of the character data of `n`, appended to `fragment` -/
def appendDataCopy (fragment n : NodeId) (start stop : ℕ) : DomM Unit := do
  let data ← check fun d => d.utf16Substring n start stop
  let copy ← characterDataCopy n data
  let _ ← appendChild fragment copy

/-- a copy of `n` alone appended to `fragment`, around the part of its contents that `inner` makes a fragment of -/
def appendPartialCopy (fragment n : NodeId) (inner : DomM NodeId) : DomM Unit := do
  let copy ← cloneNode n false
  let _ ← appendChild fragment copy
  let contents ← inner
  let _ ← appendChild copy contents

/-- `extract_points`; the result is the fragment and the boundary point the range collapses to -/
def extractPoints : ℕ → BoundaryPoint → BoundaryPoint → DomM (NodeId × BoundaryPoint)
  | 0, _, _ => diverge
  | k + 1, start, stop => do
    let fragment ← contentsFragment start
    let d ← get
    if start = stop then return (fragment, start)
    else if start.node = stop.node ∧ d.isCharacterData start.node then
      appendDataCopy fragment start.node start.offset stop.offset
      replaceData start.node start.offset (usizeSub stop.offset start.offset) ""
      return (fragment, start)
    else
      let shape := d.shape start stop
      check fun d => d.refuseDoctypes shape.containedChildren
      let point := d.boundaryAfterDelete start stop
      whenSome shape.firstPartial fun first =>
        if d.isCharacterData first then do
          let length := d.nodeLength start.node
          appendDataCopy fragment start.node start.offset length
          deleteFromStart start length
        else appendPartialCopy fragment first do
          let d ← get
          Prod.fst <$> extractPoints k start ⟨first, d.nodeLength first⟩
      forEach (fun child => discard (appendChild fragment child)) shape.containedChildren
      let d ← get
      whenSome shape.lastPartial fun last =>
        if d.isCharacterData last then do
          appendDataCopy fragment stop.node 0 stop.offset
          deleteToEnd stop
        else appendPartialCopy fragment last (Prod.fst <$> extractPoints k ⟨last, 0⟩ stop)
      return (fragment, point)

/-- `clone_points`: copies, and the tree stays as it is -/
def clonePoints : ℕ → BoundaryPoint → BoundaryPoint → DomM NodeId
  | 0, _, _ => diverge
  | k + 1, start, stop => do
    let fragment ← contentsFragment start
    let d ← get
    if start = stop then return fragment
    else if start.node = stop.node ∧ d.isCharacterData start.node then
      appendDataCopy fragment start.node start.offset stop.offset
      return fragment
    else
      let shape := d.shape start stop
      whenSome shape.firstPartial fun first =>
        if d.isCharacterData first then
          appendDataCopy fragment start.node start.offset (d.nodeLength start.node)
        else appendPartialCopy fragment first do
          let d ← get
          clonePoints k start ⟨first, d.nodeLength first⟩
      forEach (fun child => do
        let copy ← cloneNode child true
        let _ ← appendChild fragment copy) shape.containedChildren
      let d ← get
      whenSome shape.lastPartial fun last =>
        if d.isCharacterData last then appendDataCopy fragment stop.node 0 stop.offset
        else appendPartialCopy fragment last (clonePoints k ⟨last, 0⟩ stop)
      return fragment

/-- `range_delete_contents` -/
def rangeDeleteContents (range : RangeId) : DomM Unit := do
  let record ← check fun d => d.rangeRecord range
  let point ← deletePoints record.start record.stop
  writeRange range fun record => { record with start := point, stop := point }

/-- `range_extract_contents` -/
def rangeExtractContents (range : RangeId) : DomM NodeId := do
  let record ← check fun d => d.rangeRecord range
  let d ← get
  let (fragment, point) ← extractPoints d.passes record.start record.stop
  writeRange range fun record => { record with start := point, stop := point }
  return fragment

/-- `range_clone_contents` -/
def rangeCloneContents (range : RangeId) : DomM NodeId := do
  let record ← check fun d => d.rangeRecord range
  let d ← get
  clonePoints d.passes record.start record.stop

namespace Dom

/-- the start node `range_insert_node` refuses -/
def insertNodeStart (d : Dom) (start : NodeId) : Except DomError Unit := do
  match ← d.kind start with
  | .comment _ | .processingInstruction _ _ =>
    .error (.invalidNodeType "insertNode: the start node is a Comment or ProcessingInstruction")
  | _ => return ()

/-- the node `range_insert_node` inserts before: the start node itself when it is Text, else the child at the start -/
def insertNodeReference (d : Dom) (start : BoundaryPoint) : Option NodeId :=
  if d.isTextNode start.node then some start.node else (d.childrenOf start.node)[start.offset]?

/-- the parent `range_insert_node` inserts into -/
def insertNodeParent (d : Dom) (start : BoundaryPoint) : Except DomError NodeId :=
  let parent :=
    match d.insertNodeReference start with
    | some child => d.parent child
    | none => some start.node
  match parent with
  | some parent => .ok parent
  | none => .error (.hierarchy "insertNode: the insertion point has no parent")

/-- the new parents `range_surround_contents` refuses -/
def surroundParent (d : Dom) (newParent : NodeId) : Except DomError Unit := do
  match ← d.kind newParent with
  | .document | .documentType _ | .documentFragment =>
    .error (.invalidNodeType
      "surroundContents: the new parent cannot be a Document, DocumentType or DocumentFragment")
  | _ => return ()

end Dom

/-- a Text start node is split, and the insertion goes before its second part -/
def insertNodeSplit (start : BoundaryPoint) (reference : Option NodeId) : DomM (Option NodeId) := do
  let d ← get
  if d.isTextNode start.node then some <$> splitText start.node start.offset else return reference

/-- `range_insert_node` -/
def rangeInsertNode (range : RangeId) (n : NodeId) : DomM Unit := do
  let start ← check fun d => d.rangeStart range
  check fun d => d.insertNodeStart start.node
  let d ← get
  let reference := d.insertNodeReference start
  let parent ← check fun d => d.insertNodeParent start
  let _ ← check fun d => d.preInsertChecks parent n reference
  let reference ← insertNodeSplit start reference
  let d ← get
  let reference := if reference = some n then d.nextSibling n else reference
  removeFromParent n
  let d ← get
  let base :=
    match reference with
    | some child => d.indexOrZero child
    | none => d.nodeLength parent
  let kind ← check fun d => d.kind n
  let added := if kind.isDocumentFragment then d.nodeLength n else 1
  let _ ← insertBefore parent n reference
  writeRange range fun record =>
    if record.start = record.stop then { record with stop := ⟨parent, base + added⟩ } else record

/-- `range_surround_contents` -/
def rangeSurroundContents (range : RangeId) (newParent : NodeId) : DomM Unit := do
  let record ← check fun d => d.rangeRecord range
  check fun d => d.refusePartial
    ((d.ancestorsInclusive record.start.node ++ d.ancestorsInclusive record.stop.node).filter
      (d.partiallyContainedIn record.start record.stop))
  check fun d => d.surroundParent newParent
  let fragment ← rangeExtractContents range
  let d ← get
  forEach (fun child => discard (removeChild newParent child)) (d.childrenOf newParent)
  rangeInsertNode range newParent
  let _ ← insertBefore newParent fragment none
  rangeSelectNode range newParent

/-! ## Reading a range -/

namespace Dom

variable (d : Dom)

end Dom

end Render
