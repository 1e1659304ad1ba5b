/-
Boundary points (`render-dom/src/range.rs`): lengths, the order of boundary points, and the updates the mutation
algorithms make to the boundary points of live ranges. The operations on ranges are in `Render.Dom.Range`.
-/
import Render.Dom.Focus
import Render.Dom.Utf16

namespace Render

open Render.Core

inductive Position where
  | before
  | equal
  | after
deriving DecidableEq, Repr

def orderingPosition : Ordering → Position
  | .lt => .before
  | .eq => .equal
  | .gt => .after

/-- `usize` subtraction. An underflow panics in a checked build, which then leaves no state; a release build wraps. -/
def usizeSub (a b : ℕ) : ℕ := if b ≤ a then a - b else a + 2 ^ 64 - b

/-- `point_after_remove`, for a node that leaves `(parent, index)`; `inside` says which nodes are in its subtree -/
def pointAfterRemove (inside : NodeId → Bool) (parent : NodeId) (index : ℕ) (point : BoundaryPoint) : BoundaryPoint :=
  if inside point.node then ⟨parent, index⟩
  else if point.node = parent ∧ index < point.offset then ⟨parent, point.offset - 1⟩
  else point

/-- the update of `update_ranges_for_insert` -/
def pointAfterInsert (parent : NodeId) (childIndex count : ℕ) (point : BoundaryPoint) : BoundaryPoint :=
  if point.node = parent ∧ childIndex < point.offset then ⟨parent, point.offset + count⟩ else point

/-- the update of `update_ranges_for_replace_data` -/
def pointAfterReplaceData (node : NodeId) (offset count inserted : ℕ) (point : BoundaryPoint) : BoundaryPoint :=
  if point.node ≠ node ∨ point.offset ≤ offset then point
  else if point.offset ≤ offset + count then ⟨node, offset⟩
  else ⟨node, point.offset - count + inserted⟩

/-- the update of `update_ranges_for_split_text` -/
def pointAfterSplitText (node newNode parent : NodeId) (offset index : ℕ) (point : BoundaryPoint) : BoundaryPoint :=
  if point.node = node ∧ offset < point.offset then ⟨newNode, point.offset - offset⟩
  else if point.node = parent ∧ point.offset = index + 1 then ⟨parent, index + 2⟩
  else point

/-- the update of `update_ranges_for_merge` -/
def pointAfterMerge (merged into parent : NodeId) (mergedIndex base : ℕ) (point : BoundaryPoint) : BoundaryPoint :=
  if point.node = merged then ⟨into, point.offset + base⟩
  else if point.node = parent ∧ point.offset = mergedIndex then ⟨into, base⟩
  else point

/-- apply an update to both boundary points of a live range; a static range is left alone -/
def RangeRecord.mapLive (update : BoundaryPoint → BoundaryPoint) (record : RangeRecord) : RangeRecord :=
  match record.kind with
  | .live => { record with start := update record.start, stop := update record.stop }
  | .static_ => record

namespace Dom

variable (d : Dom)

/-- `for_each_live_point` -/
def forEachLivePoint (update : BoundaryPoint → BoundaryPoint) : Dom :=
  { d with ranges := d.ranges.map (RangeRecord.mapLive update) }

def updateRangesForInsert (parent : NodeId) (childIndex count : ℕ) : Dom :=
  d.forEachLivePoint (pointAfterInsert parent childIndex count)

def updateRangesForRemove (n parent : NodeId) (index : ℕ) : Dom :=
  d.forEachLivePoint (pointAfterRemove (d.isInclusiveAncestor n) parent index)

def updateRangesForReplaceData (n : NodeId) (offset count inserted : ℕ) : Dom :=
  d.forEachLivePoint (pointAfterReplaceData n offset count inserted)

def updateRangesForSplitText (n newNode parent : NodeId) (offset index : ℕ) : Dom :=
  d.forEachLivePoint (pointAfterSplitText n newNode parent offset index)

def updateRangesForMerge (merged into parent : NodeId) (mergedIndex base : ℕ) : Dom :=
  d.forEachLivePoint (pointAfterMerge merged into parent mergedIndex base)

/-- the UTF-16 length of character data, zero for a DocumentType, and the child count otherwise -/
def nodeLength (n : NodeId) : ℕ :=
  match d.kindOf n with
  | some (.text data) | some (.comment data) | some (.processingInstruction _ data) => utf16Len data
  | some (.documentType _) | none => 0
  | some _ => (d.childrenOf n).length

/-- the length of the longest shared start of two paths -/
def sharedCount : List NodeId → List NodeId → ℕ
  | a :: as, b :: bs => if a = b then sharedCount as bs + 1 else 0
  | _, _ => 0

/-- the order of two nodes in tree order, or `none` when they are in different trees -/
def treeOrder (left right : NodeId) : Option Ordering :=
  if left = right then some .eq
  else
    let leftPath := d.pathFromRoot left
    let rightPath := d.pathFromRoot right
    let shared := sharedCount leftPath rightPath
    if shared = 0 then none
    else if shared = leftPath.length then some .lt
    else if shared = rightPath.length then some .gt
    else do
      let leftChild ← leftPath[shared]?
      let rightChild ← rightPath[shared]?
      return compare (← d.indexInParent leftChild) (← d.indexInParent rightChild)

/-- the child of `ancestor` on the way down to `n`: the loop of `position` -/
def childToward (ancestor n : NodeId) : NodeId :=
  ((d.ancestorsInclusive n).find? fun child => d.parent child = some ancestor).getD (d.treeRoot n)

/-- `position`. The recursive call turns a pair in the order `Greater` round, so it is not made twice in a row and two
levels are all there are. -/
def positionFrom : ℕ → BoundaryPoint → BoundaryPoint → Position
  | 0, _, _ => .before
  | k + 1, left, right =>
    if left.node = right.node then orderingPosition (compare left.offset right.offset)
    else if d.treeOrder left.node right.node = some .gt then
      match positionFrom k right left with
      | .before => .after
      | .equal | .after => .before
    else if d.isInclusiveAncestor left.node right.node then
      if d.indexOrZero (d.childToward left.node right.node) < left.offset then .after else .before
    else .before

/-- the position of one boundary point relative to another -/
def position (left right : BoundaryPoint) : Position := d.positionFrom 2 left right

/-- the deepest node containing both `start` and `stop` -/
def commonAncestor (start stop : NodeId) : NodeId :=
  ((d.ancestorsInclusive start).find? fun container => d.isInclusiveAncestor container stop).getD (d.treeRoot start)

/-- in the same root, with `(n, 0)` after the start and `(n, length)` before the end -/
def containedIn (start stop : BoundaryPoint) (n : NodeId) : Bool :=
  d.treeRoot n == d.treeRoot start.node && d.position ⟨n, 0⟩ start == .after &&
    d.position ⟨n, d.nodeLength n⟩ stop == .before

/-- an inclusive ancestor of exactly one of the two boundary nodes -/
def partiallyContainedIn (start stop : BoundaryPoint) (n : NodeId) : Bool :=
  d.isInclusiveAncestor n start.node != d.isInclusiveAncestor n stop.node

/-- every node contained in the range, in tree order -/
def containedNodes (start stop : BoundaryPoint) : List NodeId :=
  let common := d.commonAncestor start.node stop.node
  (d.descendantsInclusive common).filter fun n => n != common && d.containedIn start stop n

/-- the boundary point left after the contents are removed -/
def boundaryAfterDelete (start stop : BoundaryPoint) : BoundaryPoint :=
  if d.isInclusiveAncestor start.node stop.node then start
  else
    -- the loop climbs until the parent holds the end node, or there is no parent
    let stopsAt (reference : NodeId) : Bool :=
      match d.parent reference with
      | some parent => d.isInclusiveAncestor parent stop.node
      | none => true
    let reference := ((d.ancestorsInclusive start.node).find? stopsAt).getD start.node
    match d.parent reference with
    | some parent => ⟨parent, d.indexOrZero reference + 1⟩
    | none => start

/-- `character_data_text` -/
def characterDataText (n : NodeId) : Except DomError String := do
  match ← d.nodeKindOrError n with
  | .text data | .comment data | .processingInstruction _ data => .ok data
  | _ => .error (.invalidNodeType "node does not implement CharacterData")

/-- `character_data` of `range.rs`, which names the unknown node in its error -/
def characterData (n : NodeId) : Except DomError String := do
  match ← d.kind n with
  | .text data | .comment data | .processingInstruction _ data => .ok data
  | _ => .error (.invalidNodeType "node does not implement CharacterData")

/-- `utf16_substring`: the code units `[start, stop)`, clamped to the data -/
def utf16Substring (n : NodeId) (start stop : ℕ) : Except DomError String := do
  let units := encodeUtf16 (← d.characterData n)
  let stop := min stop units.length
  let start := min start stop
  return fromUtf16Lossy ((units.take stop).drop start)

end Dom

end Render
