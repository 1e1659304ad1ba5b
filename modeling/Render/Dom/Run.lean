/-
Runs of the DOM: grafting one arena into another (`graft_document` of `render-dom/src/lib.rs`), the mutating operations
of the crate as one type, and the states that sequences of them reach.

An operation that fails or is refused still leaves a state, from which the run goes on; an operation that never returns
leaves none.
-/
import Mathlib.Tactic
import Render.Dom.Selection

namespace Render

open Render.Core Render.Core.Comp

/-- `shift_kind`: the ids inside a kind, moved by the length of the arena they are grafted into -/
def NodeKind.shift (offset : ℕ) : NodeKind → NodeKind
  | .element data =>
    .element
      { data with
        templateContents := data.templateContents.map (· + offset)
        shadowRoot := data.shadowRoot.map (· + offset)
        manuallyAssignedNodes := data.manuallyAssignedNodes.map (· + offset)
        parserInsertedFormOwner :=
          data.parserInsertedFormOwner.map fun owner => ⟨owner.form + offset, owner.intendedParent + offset⟩ }
  | .shadowRoot data => .shadowRoot { data with host := data.host + offset }
  | other => other

def Node.shift (offset : ℕ) (node : Node) : Node where
  id := node.id + offset
  parent := node.parent.map (· + offset)
  children := node.children.map (· + offset)
  kind := node.kind.shift offset
  owner := node.owner + offset

namespace Dom

/-- the arena of `graft_document`, before the new nodes are indexed -/
def graftNodes (d other : Dom) : Dom := { d with nodes := d.nodes ++ other.nodes.map (Node.shift d.nodes.length) }

/-- `graft_document`: the ranges, selections, focus and history of the other arena are dropped -/
def graftDocument (d other : Dom) : Dom :=
  let offset := d.nodes.length
  let indexed := (List.range' offset other.nodes.length).foldl indexNamed (d.graftNodes other)
  { indexed with
    shadowRoots := d.shadowRoots + other.shadowRoots
    documentContentTypes := other.documentContentTypes.toList.foldl
      (fun types entry => types.insert (entry.1 + offset) entry.2) d.documentContentTypes }

end Dom

/-- one call of a mutating operation, with its arguments -/
inductive Op where
  | createDocument (contentType : String)
  | createDocumentFragment
  | createDocumentType (name publicId systemId : String)
  | createElement (localName : String)
  | createElementNs (nameSpace : Namespace) (localName : String)
  | createElementQualified (nameSpace : Namespace) (namePrefix : Option String) (localName : String)
  | createText (data : String)
  | createComment (data : String)
  | createProcessingInstruction (target data : String)
  | setNodeDocument (n document : NodeId)
  | insertBefore (parent n : NodeId) (reference : Option NodeId)
  | appendChild (parent n : NodeId)
  | removeChild (parent child : NodeId)
  | appendText (parent : NodeId) (data : String)
  | adoptNode (document n : NodeId)
  | cloneNode (n : NodeId) (deep : Bool)
  | attachShadow (host : NodeId) (mode : ShadowRootMode) (delegatesFocus : Bool) (slotAssignment : SlotAssignmentMode)
  | assignSlotNodes (slot : NodeId) (nodes : List NodeId)
  | setAttribute (element : NodeId) (localName value : String)
  | removeAttribute (element : NodeId) (localName : String)
  | setAttributeNs (element : NodeId) (nameSpace namePrefix : Option String) (localName value : String)
  | removeAttributeNs (element : NodeId) (nameSpace : Option String) (localName : String)
  | setImageState (n : NodeId) (state : ImageLoadState)
  | setFocusedElement (n : Option NodeId)
  | setMutationJournalCapacity (capacity : ℕ)
  | setParserInsertedFormOwner (element form intendedParent : NodeId)
  | clearParserInsertedFormOwners (root : NodeId)
  | setCharacterData (n : NodeId) (value : String)
  | replaceData (n : NodeId) (offset count : ℕ) (data : String)
  | splitText (n : NodeId) (offset : ℕ)
  | normalize (root : NodeId)
  | createLiveRange (n : NodeId)
  | createStaticRange (start stop : BoundaryPoint)
  | rangeSetStart (range : RangeId) (n : NodeId) (offset : ℕ)
  | rangeSetEnd (range : RangeId) (n : NodeId) (offset : ℕ)
  | rangeSetStartBefore (range : RangeId) (n : NodeId)
  | rangeSetStartAfter (range : RangeId) (n : NodeId)
  | rangeSetEndBefore (range : RangeId) (n : NodeId)
  | rangeSetEndAfter (range : RangeId) (n : NodeId)
  | rangeCollapse (range : RangeId) (toStart : Bool)
  | rangeSelectNode (range : RangeId) (n : NodeId)
  | rangeSelectNodeContents (range : RangeId) (n : NodeId)
  | rangeClone (range : RangeId)
  | rangeInsertNode (range : RangeId) (n : NodeId)
  | rangeDeleteContents (range : RangeId)
  | rangeExtractContents (range : RangeId)
  | rangeCloneContents (range : RangeId)
  | rangeSurroundContents (range : RangeId) (newParent : NodeId)
  | selectionCollapse (document : NodeId) (n : Option NodeId) (offset : ℕ)
  | selectionCollapseTo (document : NodeId) (toStart : Bool)
  | selectionExtend (document n : NodeId) (offset : ℕ)
  | selectionSetBaseAndExtent (document : NodeId) (anchor focus : BoundaryPoint)
  | selectionSelectAllChildren (document n : NodeId)
  | selectionAddRange (document : NodeId) (range : RangeId)
  | selectionRemoveRange (document : NodeId) (range : RangeId)
  | selectionRemoveAllRanges (document : NodeId)
  | selectionDeleteFromDocument (document : NodeId)

/-- run one operation -/
def Op.run : Op → DomM Unit
  | .createDocument contentType => discard (Render.createDocument contentType)
  | .createDocumentFragment => discard Render.createDocumentFragment
  | .createDocumentType name publicId systemId => discard (Render.createDocumentType name publicId systemId)
  | .createElement localName => discard (Render.createElement localName)
  | .createElementNs nameSpace localName => discard (Render.createElementNs nameSpace localName)
  | .createElementQualified nameSpace namePrefix localName =>
    discard (Render.createElementQualified nameSpace namePrefix localName)
  | .createText data => discard (Render.createText data)
  | .createComment data => discard (Render.createComment data)
  | .createProcessingInstruction target data => discard (Render.createProcessingInstruction target data)
  | .setNodeDocument n document => Render.setNodeDocument n document
  | .insertBefore parent n reference => discard (Render.insertBefore parent n reference)
  | .appendChild parent n => discard (Render.appendChild parent n)
  | .removeChild parent child => discard (Render.removeChild parent child)
  | .appendText parent data => discard (Render.appendText parent data)
  | .adoptNode document n => Render.adoptNode document n
  | .cloneNode n deep => discard (Render.cloneNode n deep)
  | .attachShadow host mode delegatesFocus slotAssignment =>
    discard (Render.attachShadow host mode delegatesFocus slotAssignment)
  | .assignSlotNodes slot nodes => Render.assignSlotNodes slot nodes
  | .setAttribute element localName value => Render.setAttribute element localName value
  | .removeAttribute element localName => Render.removeAttribute element localName
  | .setAttributeNs element nameSpace namePrefix localName value =>
    Render.setAttributeNs element nameSpace namePrefix localName value
  | .removeAttributeNs element nameSpace localName => Render.removeAttributeNs element nameSpace localName
  | .setImageState n state => Render.setImageState n state
  | .setFocusedElement n => discard (Render.setFocusedElement n)
  | .setMutationJournalCapacity capacity => Render.setMutationJournalCapacity capacity
  | .setParserInsertedFormOwner element form intendedParent =>
    discard (Render.setParserInsertedFormOwner element form intendedParent)
  | .clearParserInsertedFormOwners root => Render.clearParserInsertedFormOwners root
  | .setCharacterData n value => Render.setCharacterData n value
  | .replaceData n offset count data => Render.replaceData n offset count data
  | .splitText n offset => discard (Render.splitText n offset)
  | .normalize root => Render.normalize root
  | .createLiveRange n => discard (Render.createLiveRange n)
  | .createStaticRange start stop => discard (Render.createStaticRange start stop)
  | .rangeSetStart range n offset => Render.rangeSetStart range n offset
  | .rangeSetEnd range n offset => Render.rangeSetEnd range n offset
  | .rangeSetStartBefore range n => Render.rangeSetStartBefore range n
  | .rangeSetStartAfter range n => Render.rangeSetStartAfter range n
  | .rangeSetEndBefore range n => Render.rangeSetEndBefore range n
  | .rangeSetEndAfter range n => Render.rangeSetEndAfter range n
  | .rangeCollapse range toStart => Render.rangeCollapse range toStart
  | .rangeSelectNode range n => Render.rangeSelectNode range n
  | .rangeSelectNodeContents range n => Render.rangeSelectNodeContents range n
  | .rangeClone range => discard (Render.rangeClone range)
  | .rangeInsertNode range n => Render.rangeInsertNode range n
  | .rangeDeleteContents range => Render.rangeDeleteContents range
  | .rangeExtractContents range => discard (Render.rangeExtractContents range)
  | .rangeCloneContents range => discard (Render.rangeCloneContents range)
  | .rangeSurroundContents range newParent => Render.rangeSurroundContents range newParent
  | .selectionCollapse document n offset => Render.selectionCollapse document n offset
  | .selectionCollapseTo document toStart => Render.selectionCollapseTo document toStart
  | .selectionExtend document n offset => Render.selectionExtend document n offset
  | .selectionSetBaseAndExtent document anchor focus => Render.selectionSetBaseAndExtent document anchor focus
  | .selectionSelectAllChildren document n => Render.selectionSelectAllChildren document n
  | .selectionAddRange document range => Render.selectionAddRange document range
  | .selectionRemoveRange document range => Render.selectionRemoveRange document range
  | .selectionRemoveAllRanges document => Render.selectionRemoveAllRanges document
  | .selectionDeleteFromDocument document => Render.selectionDeleteFromDocument document

/-- a DOM that calls reach from `Dom.new`, when every call meets `ok` in the state it is made in -/
inductive Reach (ok : Dom → Op → Prop) : Dom → Prop where
  | new : Reach ok Dom.new
  | step {d d' : Dom} {op : Op} {r : Except DomError Unit} :
      Reach ok d → ok d op → op.run d = some (r, d') → Reach ok d'
  | graft {d other : Dom} : Reach ok d → Reach ok other → Reach ok (d.graftDocument other)

/-- a DOM that some sequence of calls reaches from `Dom.new` -/
abbrev Reachable : Dom → Prop := Reach fun _ _ => True

/-- the run rule: what `Dom.new` has, every allowed call keeps and grafting keeps, every reached DOM has -/
theorem Reach.induct {ok : Dom → Op → Prop} {P : Dom → Prop} (hnew : P Dom.new)
    (hstep : ∀ d op r d', P d → ok d op → op.run d = some (r, d') → P d')
    (hgraft : ∀ d other, P d → P other → P (d.graftDocument other)) {d : Dom} (h : Reach ok d) : P d := by
  induction h with
  | new => exact hnew
  | step _ hok hrun ih => exact hstep _ _ _ _ ih hok hrun
  | graft _ _ ih ih' => exact hgraft _ _ ih ih'

/-- the DOM a list of calls leaves, `none` when one of them never returns -/
def runAll : List Op → Dom → Option Dom
  | [], d => some d
  | op :: rest, d => (op.run d).bind fun result => runAll rest result.2

theorem Reach.runAll {ops : List Op} {d d' : Dom} (h : Reachable d) (hrun : runAll ops d = some d') : Reachable d' := by
  induction ops generalizing d with
  | nil => obtain rfl := Option.some.inj hrun; exact h
  | cons op rest ih =>
    obtain ⟨⟨r, e⟩, he, hrun⟩ := Option.bind_eq_some_iff.1 hrun
    exact ih (Reach.step h trivial he) hrun

/-- the DOM a list of calls leaves when each of them passes the check in the state it is made in -/
def runChecked (check : Dom → Op → Bool) : List Op → Dom → Option Dom
  | [], d => some d
  | op :: rest, d => if check d op then (op.run d).bind fun result => runChecked check rest result.2 else none

theorem Reach.runChecked {ok : Dom → Op → Prop} {check : Dom → Op → Bool}
    (hcheck : ∀ d op, Reach ok d → check d op = true → ok d op) {ops : List Op} {d d' : Dom} (h : Reach ok d)
    (hrun : runChecked check ops d = some d') : Reach ok d' := by
  induction ops generalizing d with
  | nil => obtain rfl := Option.some.inj hrun; exact h
  | cons op rest ih =>
    unfold Render.runChecked at hrun
    split_ifs at hrun with hc
    obtain ⟨⟨r, e⟩, he, hrun⟩ := Option.bind_eq_some_iff.1 hrun
    exact ih (Reach.step h (hcheck d op h hc) he) hrun

end Render

/-! `addRange` on an empty selection (`selection_add_range` of `render-dom/src/range.rs`).

A reader takes a selection for empty when its recorded range has left the document tree; `selection_add_range` looks at the
record alone. So a range of the document becomes the selection's range exactly when the record names no range
(`selection_add_range_iff`). The record names one that is outside after, for example, script moved its start into a node that
is not in the document (`selection_add_range_not`). -/

namespace Render

open Render.Core Render.Core.Comp

namespace Dom

variable {d : Dom} {document : NodeId} {range : RangeId} {start stop : BoundaryPoint}

/-- a live range of the tree of a document -/
structure LiveIn (d : Dom) (document : NodeId) (range : RangeId) : Prop where
  live : d.rangeKind range = some .live
  inside : ∃ start stop, d.rangeStart range = .ok start ∧ d.rangeEnd range = .ok stop ∧
    d.treeRoot start.node = document ∧ d.treeRoot stop.node = document

/-- a count is of a document -/
theorem requireSelectionDocument_of_count {count : ℕ} (h : d.selectionRangeCount document = .ok count) :
    d.requireSelectionDocument document = .ok () := by
  unfold selectionRangeCount selectionRange at h
  cases hdoc : d.requireSelectionDocument document with
  | ok u => rfl
  | error e =>
    rw [hdoc] at h
    cases h

/-- an empty selection has no range, or one that is not in the tree -/
theorem selectionRange_of_count (h : d.selectionRangeCount document = .ok 0) : d.selectionRange document = .ok none := by
  unfold selectionRangeCount at h
  cases hrange : d.selectionRange document with
  | error e =>
    rw [hrange] at h
    cases h
  | ok found =>
    rw [hrange] at h
    cases found with
    | none => rfl
    | some r => cases h

theorem selectionRange_eq (hdoc : d.requireSelectionDocument document = .ok ()) (hrange : d.LiveIn document range)
    (hselected : (d.selections[document]?).bind SelectionRecord.range = some range) :
    d.selectionRange document = .ok (some range) := by
  obtain ⟨start, stop, hstart, hstop, hinside, hinside'⟩ := hrange.inside
  unfold selectionRange
  rw [hdoc, hselected]
  simp only [Bind.bind, Except.bind, hstart, hstop, hinside, hinside', and_self, if_true]
  rfl

/-- what `selection_add_range` does with a range of the document -/
theorem selectionAddRange_eq (hdoc : d.requireSelectionDocument document = .ok ()) (hrange : d.LiveIn document range) :
    selectionAddRange document range d = some (.ok (),
      if ((d.selections[document]?).bind SelectionRecord.range).isSome then d
      else { d with selections := d.selections.insert document { range := some range, direction := .forwards } }) := by
  obtain ⟨start, stop, hstart, hstop, hinside, hinside'⟩ := hrange.inside
  unfold selectionAddRange
  rw [bind_run_ok (a := ()) (by rw [check_run, hdoc]), get_bind]
  have hlive : refuse (d.rangeKind range ≠ some .live) (DomError.invalidNodeType "addRange requires a live Range") =
      .ok () :=
    refuse_eq_ok.2 (not_not.2 hrange.live)
  rw [bind_run_ok (a := ()) (by rw [failIf, check_run, hlive])]
  split_ifs with hselected
  · rfl
  · rw [bind_run_ok (a := start) (by rw [check_run, hstart]), bind_run_ok (a := stop) (by rw [check_run, hstop])]
    rw [if_neg (by simp [hinside, hinside'])]
    rfl

/-- **Adding a range to an empty selection.** In every state, reachable or not, and for every live range of the tree of a
document whose selection counts no range: adding it makes it the range of the selection if and only if the record of the
selection names no range. -/
theorem selection_add_range_iff (hcount : d.selectionRangeCount document = .ok 0) (hrange : d.LiveIn document range) :
    (∃ d', selectionAddRange document range d = some (.ok (), d') ∧ d'.selectionRange document = .ok (some range)) ↔
      (d.selections[document]?).bind SelectionRecord.range = none := by
  have hdoc := requireSelectionDocument_of_count hcount
  rw [selectionAddRange_eq hdoc hrange]
  cases hselected : (d.selections[document]?).bind SelectionRecord.range with
  | none =>
    refine ⟨fun _ => rfl, fun _ => ⟨_, rfl, ?_⟩⟩
    rw [Option.isSome_none, if_neg Bool.false_ne_true]
    refine selectionRange_eq hdoc ⟨hrange.live, hrange.inside⟩ ?_
    show ((d.selections.insert document _)[document]?).bind SelectionRecord.range = some range
    rw [Std.TreeMap.getElem?_insert_self]
    rfl
  | some recorded =>
    refine ⟨?_, fun h => by cases h⟩
    rintro ⟨d', hrun, hread⟩
    rw [Option.isSome_some, if_pos rfl] at hrun
    obtain rfl := congrArg Prod.snd (Option.some.inj hrun)
    rw [selectionRange_of_count hcount] at hread
    cases hread

/-! ## A record outside the tree -/

/-- the selected range is moved into a node that is not in the document -/
def outsideOps : List Op := [.createElement "div", .createLiveRange 0, .selectionAddRange 0 0, .rangeSetStart 0 1 0,
  .createLiveRange 0]

theorem selection_add_range_not : ¬ ∀ d, Reachable d → ∀ (document : NodeId) (range : RangeId),
    d.selectionRangeCount document = .ok 0 → d.LiveIn document range →
      ∃ d', selectionAddRange document range d = some (.ok (), d') ∧ d'.selectionRange document = .ok (some range) := by
  intro h
  obtain ⟨d, hrun⟩ : ∃ d, runAll outsideOps Dom.new = some d := Option.isSome_iff_exists.1 (by decide +kernel)
  have hcount : (runAll outsideOps Dom.new).map (fun d => d.selectionRangeCount 0) = some (.ok 0) := by decide +kernel
  have hlive : (runAll outsideOps Dom.new).map (fun d => d.rangeKind 1) = some (some .live) := by decide +kernel
  have hstart : (runAll outsideOps Dom.new).map (fun d => d.rangeStart 1) = some (.ok ⟨0, 0⟩) := by decide +kernel
  have hstop : (runAll outsideOps Dom.new).map (fun d => d.rangeEnd 1) = some (.ok ⟨0, 0⟩) := by decide +kernel
  have hroot : (runAll outsideOps Dom.new).map (fun d => d.treeRoot 0) = some 0 := by decide +kernel
  have hrecord : (runAll outsideOps Dom.new).map (fun d => (d.selections[0]?).bind SelectionRecord.range) =
      some (some 0) := by decide +kernel
  rw [hrun, Option.map_some, Option.some.injEq] at hcount hlive hstart hstop hroot hrecord
  have hrange : d.LiveIn 0 1 := ⟨hlive, ⟨0, 0⟩, ⟨0, 0⟩, hstart, hstop, hroot, hroot⟩
  have hadded := h d (Reach.new.runAll hrun) 0 1 hcount hrange
  rw [selectionAddRange_eq (requireSelectionDocument_of_count hcount) hrange, hrecord] at hadded
  obtain ⟨d', hd', hread⟩ := hadded
  obtain rfl := congrArg Prod.snd (Option.some.inj hd')
  rw [Option.isSome_some, if_pos rfl, selectionRange_of_count hcount] at hread
  cases hread

/-- a selection whose record is empty takes the range -/
theorem selection_add_range_sample : ∃ d d', runAll [.createLiveRange 0] Dom.new = some d ∧
    selectionAddRange 0 0 d = some (.ok (), d') ∧ d'.selectionRange 0 = .ok (some 0) := by
  obtain ⟨d, hrun⟩ : ∃ d, runAll [.createLiveRange 0] Dom.new = some d := Option.isSome_iff_exists.1 (by decide +kernel)
  have hcount : (runAll [.createLiveRange 0] Dom.new).map (fun d => d.selectionRangeCount 0) = some (.ok 0) := by
    decide +kernel
  have hlive : (runAll [.createLiveRange 0] Dom.new).map (fun d => d.rangeKind 0) = some (some .live) := by decide +kernel
  have hstart : (runAll [.createLiveRange 0] Dom.new).map (fun d => d.rangeStart 0) = some (.ok ⟨0, 0⟩) := by
    decide +kernel
  have hstop : (runAll [.createLiveRange 0] Dom.new).map (fun d => d.rangeEnd 0) = some (.ok ⟨0, 0⟩) := by decide +kernel
  have hroot : (runAll [.createLiveRange 0] Dom.new).map (fun d => d.treeRoot 0) = some 0 := by decide +kernel
  have hrecord : (runAll [.createLiveRange 0] Dom.new).map (fun d => (d.selections[0]?).bind SelectionRecord.range) =
      some none := by decide +kernel
  rw [hrun, Option.map_some, Option.some.injEq] at hcount hlive hstart hstop hroot hrecord
  obtain ⟨d', hadd, hread⟩ := (selection_add_range_iff hcount ⟨hlive, ⟨0, 0⟩, ⟨0, 0⟩, hstart, hstop, hroot, hroot⟩).2
    hrecord
  exact ⟨d, d', hrun, hadd, hread⟩

end Dom

end Render
