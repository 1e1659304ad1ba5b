/-
Selections (`render-dom/src/range.rs`, Selection API). A document's selection names one live range of the range table; a
method that moves the selection pushes a new range instead of changing the old one.
-/
import Render.Dom.Range

namespace Render

open Render.Core Render.Core.Comp

namespace Dom

variable (d : Dom)

def requireSelectionDocument (document : NodeId) : Except DomError Unit := do
  match ← d.kind document with
  | .document => return ()
  | _ => .error (.invalidNodeType "a selection belongs to a Document")

/-- `selection_range`: the range of the selection, when both its boundary points are in the document tree -/
def selectionRange (document : NodeId) : Except DomError (Option RangeId) := do
  d.requireSelectionDocument document
  match (d.selections[document]?).bind SelectionRecord.range with
  | none => return none
  | some range =>
    let start ← d.rangeStart range
    let stop ← d.rangeEnd range
    return if d.treeRoot start.node = document ∧ d.treeRoot stop.node = document then some range else none

/-- `selection_range_count`: one when the selection names a range, zero when it is empty -/
def selectionRangeCount (document : NodeId) : Except DomError ℕ := do
  return if (← d.selectionRange document).isSome then 1 else 0

def selectionDirection (document : NodeId) : SelectionDirection :=
  ((d.selections[document]?).map SelectionRecord.direction).getD .directionless

/-- `selection_anchor_of`: the end of the range the direction starts from -/
def selectionAnchorOf (document : NodeId) (start stop : BoundaryPoint) : BoundaryPoint :=
  match d.selectionDirection document with
  | .backwards => stop
  | .forwards | .directionless => start

/-- the range from `anchor` to `focus`, turned round when the focus comes first -/
def spanOf (anchor focus collapsed : BoundaryPoint) : BoundaryPoint × BoundaryPoint × SelectionDirection :=
  if d.treeRoot anchor.node ≠ d.treeRoot focus.node then (collapsed, collapsed, .forwards)
  else if d.position anchor focus ≠ .after then (anchor, focus, .forwards)
  else (focus, anchor, .backwards)

end Dom

/-- `set_selection_range` -/
def setSelectionRange (document : NodeId) (range : RangeId) (direction : SelectionDirection) : DomM Unit :=
  modify fun d => { d with selections := d.selections.insert document { range := some range, direction } }

def clearSelection (document : NodeId) : DomM Unit :=
  modify fun d => { d with selections := d.selections.erase document }

/-- a new live range becomes the selection's range -/
def selectSpan (document : NodeId) (start stop : BoundaryPoint) (direction : SelectionDirection) : DomM Unit := do
  let range ← pushRange .live start stop
  setSelectionRange document range direction

/-- `selection_collapse`; no node empties the selection -/
def selectionCollapse (document : NodeId) (n : Option NodeId) (offset : ℕ) : DomM Unit := do
  check fun d => d.requireSelectionDocument document
  match n with
  | none => clearSelection document
  | some n =>
    let point ← check fun d => d.checkedPoint n offset
    let inside ← await fun d => d.isShadowIncludingInclusiveAncestor document n
    when inside (selectSpan document point point .forwards)

/-- `selection_collapse_to` -/
def selectionCollapseTo (document : NodeId) (toStart : Bool) : DomM Unit := do
  check fun d => d.requireSelectionDocument document
  let d ← get
  match (d.selections[document]?).bind SelectionRecord.range with
  | none => fail (.invalidState "the selection is empty")
  | some range =>
    let point ← check fun d => if toStart then d.rangeStart range else d.rangeEnd range
    selectSpan document point point .forwards

/-- `selection_extend` -/
def selectionExtend (document n : NodeId) (offset : ℕ) : DomM Unit := do
  check fun d => d.requireSelectionDocument document
  let inside ← await fun d => d.isShadowIncludingInclusiveAncestor document n
  if inside then
    match ← check fun d => d.selectionRange document with
    | none => fail (.invalidState "cannot extend an empty selection")
    | some range =>
      let point ← check fun d => d.checkedPoint n offset
      let start ← check fun d => d.rangeStart range
      let stop ← check fun d => d.rangeEnd range
      let d ← get
      let (newStart, newEnd, direction) := d.spanOf (d.selectionAnchorOf document start stop) point point
      selectSpan document newStart newEnd direction

/-- `selection_set_base_and_extent` -/
def selectionSetBaseAndExtent (document : NodeId) (anchor focus : BoundaryPoint) : DomM Unit := do
  check fun d => d.requireSelectionDocument document
  let anchor ← check fun d => d.checkedPoint anchor.node anchor.offset
  let focus ← check fun d => d.checkedPoint focus.node focus.offset
  let anchorInside ← await fun d => d.isShadowIncludingInclusiveAncestor document anchor.node
  if anchorInside then
    let focusInside ← await fun d => d.isShadowIncludingInclusiveAncestor document focus.node
    if focusInside then
      let d ← get
      let (start, stop, direction) := d.spanOf anchor focus anchor
      selectSpan document start stop direction

/-- `selection_select_all_children` -/
def selectionSelectAllChildren (document n : NodeId) : DomM Unit := do
  check fun d => d.requireSelectionDocument document
  check fun d => d.requireNotDoctype n
  let inside ← await fun d => d.isShadowIncludingInclusiveAncestor document n
  if inside then
    let d ← get
    selectSpan document ⟨n, 0⟩ ⟨n, d.nodeLength n⟩ .forwards

/-- `selection_add_range` -/
def selectionAddRange (document : NodeId) (range : RangeId) : DomM Unit := do
  check fun d => d.requireSelectionDocument document
  let d ← get
  failIf (d.rangeKind range ≠ some .live) (.invalidNodeType "addRange requires a live Range")
  if ((d.selections[document]?).bind SelectionRecord.range).isSome then return ()
  let start ← check fun d => d.rangeStart range
  let stop ← check fun d => d.rangeEnd range
  if d.treeRoot start.node ≠ document ∨ d.treeRoot stop.node ≠ document then return ()
  setSelectionRange document range .forwards

/-- `selection_remove_range` -/
def selectionRemoveRange (document : NodeId) (range : RangeId) : DomM Unit := do
  check fun d => d.requireSelectionDocument document
  let d ← get
  if (d.selections[document]?).bind SelectionRecord.range = some range then clearSelection document
  else fail (.notFound "the range is not the selection's range")

/-- `selection_remove_all_ranges` -/
def selectionRemoveAllRanges (document : NodeId) : DomM Unit := do
  check fun d => d.requireSelectionDocument document
  clearSelection document

/-- `selection_delete_from_document` -/
def selectionDeleteFromDocument (document : NodeId) : DomM Unit := do
  match ← check fun d => d.selectionRange document with
  | none => check fun d => d.requireSelectionDocument document
  | some range =>
    if ← check fun d => d.rangeIsCollapsed range then return ()
    rangeDeleteContents range

end Render
