/-
What every operation keeps, from what its steps keep.

`KeptByTree P` lists the steps all operations are made of, for a property P that does not speak about ranges and
selections. A property each step keeps is kept by every operation (`KeptByTree.op`), and so by every run
(`KeptByTree.reachable`).

Most properties are kept by the single writes those steps are made of, `KeptByWrites P`. For such a property only the
steps that move nodes or attach a shadow root are left to look at (`KeptByWrites.kept`), and where moving one node is
harmless too (`KeptByMoves P`), only the last.
-/
import Render.Dom.Insert

namespace Render

open Render.Core Render.Core.Comp

/-- a kind that `allocate` gives a node outside `create_element` and `attach_shadow` -/
def NodeKind.isPlain (kind : NodeKind) : Prop := kind.tag ≠ .element ∧ kind.tag ≠ .shadowRoot

structure KeptByTree (P : Dom → Prop) : Prop where
  ranges : ∀ d ranges, P d → P { d with ranges }
  selections : ∀ d selections, P d → P { d with selections }
  contentTypes : ∀ d documentContentTypes, P d → P { d with documentContentTypes }
  allocate : ∀ d kind, kind.isPlain → P d → P (d.allocateIn kind)
  setNodeDocument : ∀ d n document, P d → P (d.setNodeDocument n document)
  setDataText : ∀ d n value, P d → P (d.setDataText n value)
  adoptSubtree : ∀ d d' n document, P d → d.adoptSubtree n document = some d' → P d'
  recordMutations : ∀ mutations, Keeps P (recordMutations mutations)
  createElementQualified : ∀ nameSpace namePrefix localName,
    Keeps P (createElementQualified nameSpace namePrefix localName)
  cloneElement : ∀ n data, Keeps P (cloneKind n (.element data))
  insertBefore : ∀ parent n reference, Keeps P (insertBefore parent n reference)
  removeChild : ∀ parent child, Keeps P (removeChild parent child)
  attachShadow : ∀ host mode delegatesFocus slotAssignment,
    Keeps P (attachShadow host mode delegatesFocus slotAssignment)
  assignSlotNodes : ∀ slot nodes, Keeps P (assignSlotNodes slot nodes)
  setAttribute : ∀ element localName value, Keeps P (setAttribute element localName value)
  removeAttribute : ∀ element localName, Keeps P (removeAttribute element localName)
  setAttributeNs : ∀ element nameSpace namePrefix localName value,
    Keeps P (setAttributeNs element nameSpace namePrefix localName value)
  removeAttributeNs : ∀ element nameSpace localName, Keeps P (removeAttributeNs element nameSpace localName)
  formOwner : ∀ d n owner, P d →
    P (d.modifyElement n fun data => { data with parserInsertedFormOwner := owner })
  imageStates : ∀ d imageStates, P d → P { d with imageStates }
  focusedArea : ∀ d focusedArea, P d → P { d with focusedArea }
  journalCapacity : ∀ d capacity, P d → P (d.setMutationJournalCapacityIn capacity)

namespace KeptByTree

variable {P : Dom → Prop} (h : KeptByTree P)
include h

/-! ## Tree operations -/

theorem allocate_plain {kind : NodeKind} (hk : kind.isPlain) : Keeps P (Render.allocate kind) := by
  unfold Render.allocate
  exact Keeps.bind Keeps.get fun _ => Keeps.bind (Keeps.modify fun d => h.allocate d kind hk) fun _ => Keeps.pure _

theorem createDocumentFragment : Keeps P createDocumentFragment := h.allocate_plain ⟨by decide, by decide⟩

theorem createDocumentType (name publicId systemId : String) : Keeps P (createDocumentType name publicId systemId) :=
  h.allocate_plain ⟨nofun, nofun⟩

theorem createText (data : String) : Keeps P (createText data) := h.allocate_plain ⟨nofun, nofun⟩

theorem createComment (data : String) : Keeps P (createComment data) := h.allocate_plain ⟨nofun, nofun⟩

theorem createProcessingInstruction (target data : String) : Keeps P (createProcessingInstruction target data) :=
  h.allocate_plain ⟨nofun, nofun⟩

theorem setOwner (n document : NodeId) : Keeps P (Render.setNodeDocument n document) :=
  Keeps.modify fun d => h.setNodeDocument d n document

theorem createDocument (contentType : String) : Keeps P (createDocument contentType) := by
  unfold Render.createDocument
  refine Keeps.bind (h.allocate_plain ⟨by decide, by decide⟩) fun document => ?_
  refine Keeps.bind (h.setOwner document document) fun _ => ?_
  exact Keeps.bind (Keeps.modify fun d => h.contentTypes d _) fun _ => Keeps.pure _

theorem appendChild (parent n : NodeId) : Keeps P (appendChild parent n) := h.insertBefore parent n none

theorem appendNewText (parent : NodeId) (data : String) : Keeps P (appendNewText parent data) := by
  unfold Render.appendNewText
  refine Keeps.bind (h.createText data) fun text => ?_
  exact Keeps.bind (h.appendChild parent text) fun _ => Keeps.pure _

theorem appendText (parent : NodeId) (data : String) : Keeps P (appendText parent data) := by
  unfold Render.appendText
  refine Keeps.bind (Keeps.check _) fun _ => Keeps.bind (Keeps.failIf _ _) fun _ => Keeps.bind Keeps.get fun d => ?_
  split
  · refine Keeps.bind (Keeps.check _) fun kind => ?_
    split
    · refine Keeps.bind (Keeps.modify fun d => h.setDataText d _ _) fun _ => ?_
      exact Keeps.bind (h.recordMutations _) fun _ => Keeps.pure _
    · exact h.appendNewText parent data
  · exact h.appendNewText parent data

theorem removeFromParent (n : NodeId) : Keeps P (removeFromParent n) := by
  unfold Render.removeFromParent
  exact Keeps.bind Keeps.get fun d => Keeps.whenSome fun parent _ => Keeps.map _ (h.removeChild parent n)

theorem adoptNode (document n : NodeId) : Keeps P (adoptNode document n) := by
  unfold Render.adoptNode
  refine Keeps.bind (Keeps.check _) fun kind => ?_
  split
  · exact Keeps.fail _
  · exact Keeps.fail _
  · refine Keeps.bind (Keeps.check _) fun _ => Keeps.bind (h.removeFromParent n) fun _ => ?_
    exact Keeps.awaitModify fun d d' hd hrun => h.adoptSubtree d d' n document hd hrun

/-! ## Character data -/

theorem replaceData (n : NodeId) (offset count : ℕ) (data : String) : Keeps P (replaceData n offset count data) := by
  unfold Render.replaceData
  refine Keeps.bind (Keeps.check _) fun _ => Keeps.bind (Keeps.failIf _ _) fun _ => ?_
  refine Keeps.bind (Keeps.modify fun d => h.setDataText d n _) fun _ => ?_
  exact Keeps.bind (Keeps.modify fun d hd => h.ranges d _ hd) fun _ => h.recordMutations _

theorem setCharacterData (n : NodeId) (value : String) : Keeps P (setCharacterData n value) := by
  unfold Render.setCharacterData
  exact Keeps.bind (Keeps.check _) fun _ => h.replaceData n _ _ value

theorem splitText (n : NodeId) (offset : ℕ) : Keeps P (splitText n offset) := by
  unfold Render.splitText
  refine Keeps.bind (Keeps.check _) fun kind => ?_
  split
  · refine Keeps.bind (Keeps.failIf _ _) fun _ => Keeps.bind (h.createText _) fun newNode => ?_
    refine Keeps.bind Keeps.get fun d => Keeps.bind (Keeps.whenSome fun parent _ => ?_) fun _ => ?_
    · unfold insertSplit
      refine Keeps.bind Keeps.get fun d => Keeps.bind (h.insertBefore parent newNode _) fun _ => ?_
      exact Keeps.modify fun d hd => h.ranges d _ hd
    · exact Keeps.bind (h.replaceData n _ _ _) fun _ => Keeps.pure _
  · exact Keeps.fail _

theorem mergeRanges {n parent : NodeId} (l : List NodeId) {index base : ℕ} {d : Dom} (hd : P d) :
    P (d.updateRangesForMerges n parent index base l) := by
  induction l generalizing d index base with
  | nil => exact hd
  | cons sibling l ih => exact ih (h.ranges d _ hd)

theorem normalizeText (n : NodeId) : Keeps P (normalizeText n) := by
  unfold Render.normalizeText
  refine Keeps.bind Keeps.get fun d => ?_
  split
  · exact Keeps.pure _
  · rename_i parent _
    refine Keeps.ite (fun _ => Keeps.map _ (h.removeChild parent n)) fun _ => ?_
    split
    · exact Keeps.pure _
    · refine Keeps.when ?_
      unfold mergeText
      refine Keeps.bind (Keeps.check _) fun _ => Keeps.bind Keeps.get fun d => ?_
      refine Keeps.bind (h.replaceData n _ _ _) fun _ => ?_
      refine Keeps.bind (Keeps.modify fun d hd => h.mergeRanges _ hd) fun _ => ?_
      exact Keeps.forEach _ fun sibling _ => Keeps.map _ (h.removeChild parent sibling)

theorem normalize (root : NodeId) : Keeps P (normalize root) := by
  unfold Render.normalize
  refine Keeps.bind (Keeps.check _) fun _ => Keeps.bind Keeps.get fun d => ?_
  exact Keeps.forEach _ fun n _ => h.normalizeText n

/-! ## Clones -/

theorem cloneKind (n : NodeId) (source : NodeKind) : Keeps P (cloneKind n source) := by
  cases source with
  | document => exact Keeps.bind Keeps.get fun d => h.createDocument _
  | shadowRoot data => exact Keeps.fail _
  | documentType data => exact h.createDocumentType _ _ _
  | documentFragment => exact h.createDocumentFragment
  | text data => exact h.createText data
  | comment data => exact h.createComment data
  | processingInstruction target data => exact h.createProcessingInstruction target data
  | element data => exact h.cloneElement n data

theorem cloneOne (n : NodeId) : Keeps P (cloneOne n) := by
  unfold Render.cloneOne
  refine Keeps.bind (Keeps.check _) fun source => Keeps.bind (h.cloneKind n source) fun copy => ?_
  refine Keeps.bind (Keeps.modify fun d hd => ?_) fun _ => Keeps.pure _
  split_ifs
  · exact h.setNodeDocument d copy _ hd
  · exact hd

theorem cloneInto {clone : NodeId → Bool → DomM NodeId} (hc : ∀ n deep, Keeps P (clone n deep)) (target child : NodeId) :
    Keeps P (cloneInto clone target child) := by
  unfold Render.cloneInto
  exact Keeps.bind (hc child true) fun copy => Keeps.bind (h.appendChild target copy) fun _ => Keeps.pure _

theorem cloneNodeFrom (k : ℕ) (n : NodeId) (deep : Bool) : Keeps P (cloneNodeFrom k n deep) := by
  induction k generalizing n deep with
  | zero => exact Keeps.diverge
  | succ k ih =>
    unfold Render.cloneNodeFrom
    refine Keeps.bind (h.cloneOne n) fun copy => Keeps.bind (Keeps.when ?_) fun _ => Keeps.pure _
    refine Keeps.bind Keeps.get fun d => Keeps.bind (Keeps.whenSome fun targets _ => ?_) fun _ => ?_
    · exact Keeps.forEach _ fun child _ => h.cloneInto ih _ child
    · exact Keeps.bind Keeps.get fun d => Keeps.forEach _ fun child _ => h.cloneInto ih _ child

theorem cloneNode (n : NodeId) (deep : Bool) : Keeps P (cloneNode n deep) :=
  Keeps.bind Keeps.get fun _ => h.cloneNodeFrom _ n deep

/-! ## Ranges -/

theorem pushRange (kind : RangeKind) (start stop : BoundaryPoint) : Keeps P (pushRange kind start stop) :=
  Keeps.bind Keeps.get fun _ => Keeps.bind (Keeps.modify fun d hd => h.ranges d _ hd) fun _ => Keeps.pure _

theorem writeRange (range : RangeId) (f : RangeRecord → RangeRecord) : Keeps P (writeRange range f) :=
  Keeps.bind (Keeps.check _) fun _ => Keeps.modify fun d hd => h.ranges d _ hd

theorem setRangeStart (range : RangeId) (point : BoundaryPoint) : Keeps P (setRangeStart range point) :=
  Keeps.bind (Keeps.check _) fun _ => Keeps.bind Keeps.get fun _ => h.writeRange range _

theorem setRangeEnd (range : RangeId) (point : BoundaryPoint) : Keeps P (setRangeEnd range point) :=
  Keeps.bind (Keeps.check _) fun _ => Keeps.bind Keeps.get fun _ => h.writeRange range _

theorem characterDataCopy (n : NodeId) (data : String) : Keeps P (characterDataCopy n data) := by
  unfold Render.characterDataCopy
  refine Keeps.bind (Keeps.check _) fun kind => Keeps.bind ?_ fun copy => ?_
  · unfold characterDataLike
    split
    · exact h.createText data
    · exact h.createComment data
    · exact h.createProcessingInstruction _ data
    · exact Keeps.fail _
  · exact Keeps.bind Keeps.get fun d => Keeps.bind (h.setOwner copy _) fun _ => Keeps.pure _

theorem deletePoints (start stop : BoundaryPoint) : Keeps P (deletePoints start stop) := by
  unfold Render.deletePoints
  refine Keeps.bind Keeps.get fun d => Keeps.ite (fun _ => Keeps.pure _) fun _ => Keeps.ite (fun _ => ?_) fun _ => ?_
  · exact Keeps.bind (h.replaceData _ _ _ _) fun _ => Keeps.pure _
  · refine Keeps.bind (Keeps.when (h.replaceData _ _ _ _)) fun _ => ?_
    refine Keeps.bind (Keeps.forEach _ fun n _ => h.removeFromParent n) fun _ => ?_
    exact Keeps.bind Keeps.get fun d => Keeps.bind (Keeps.when (h.replaceData _ _ _ _)) fun _ => Keeps.pure _

theorem contentsFragment (start : BoundaryPoint) : Keeps P (contentsFragment start) :=
  Keeps.bind h.createDocumentFragment fun fragment =>
    Keeps.bind Keeps.get fun _ => Keeps.bind (h.setOwner fragment _) fun _ => Keeps.pure _

theorem appendDataCopy (fragment n : NodeId) (start stop : ℕ) : Keeps P (appendDataCopy fragment n start stop) := by
  unfold Render.appendDataCopy
  refine Keeps.bind (Keeps.check _) fun data => Keeps.bind (h.characterDataCopy n data) fun copy => ?_
  exact Keeps.bind (h.appendChild fragment copy) fun _ => Keeps.pure _

theorem appendPartialCopy (fragment n : NodeId) {inner : DomM NodeId} (hi : Keeps P inner) :
    Keeps P (appendPartialCopy fragment n inner) := by
  unfold Render.appendPartialCopy
  refine Keeps.bind (h.cloneNode n false) fun copy => Keeps.bind (h.appendChild fragment copy) fun _ => ?_
  exact Keeps.bind hi fun contents => Keeps.bind (h.appendChild copy contents) fun _ => Keeps.pure _

theorem extractPoints (k : ℕ) (start stop : BoundaryPoint) : Keeps P (extractPoints k start stop) := by
  induction k generalizing start stop with
  | zero => exact Keeps.diverge
  | succ k ih =>
    unfold Render.extractPoints
    refine Keeps.bind (h.contentsFragment start) fun fragment => Keeps.bind Keeps.get fun d => ?_
    refine Keeps.ite (fun _ => Keeps.pure _) fun _ => Keeps.ite (fun _ => ?_) fun _ => ?_
    · refine Keeps.bind (h.appendDataCopy _ _ _ _) fun _ => ?_
      exact Keeps.bind (h.replaceData _ _ _ _) fun _ => Keeps.pure _
    · refine Keeps.bind (Keeps.check _) fun _ => Keeps.bind (Keeps.whenSome fun first _ => ?_) fun _ => ?_
      · refine Keeps.ite (fun _ => ?_) fun _ => h.appendPartialCopy _ _ ?_
        · exact Keeps.bind (h.appendDataCopy _ _ _ _) fun _ => h.replaceData _ _ _ _
        · exact Keeps.bind Keeps.get fun d => Keeps.map _ (ih _ _)
      · refine Keeps.bind (Keeps.forEach _ fun child _ => Keeps.map _ (h.appendChild _ child)) fun _ => ?_
        refine Keeps.bind Keeps.get fun d => Keeps.bind (Keeps.whenSome fun last _ => ?_) fun _ => Keeps.pure _
        refine Keeps.ite (fun _ => ?_) fun _ => h.appendPartialCopy _ _ (Keeps.map _ (ih _ _))
        exact Keeps.bind (h.appendDataCopy _ _ _ _) fun _ => h.replaceData _ _ _ _

theorem clonePoints (k : ℕ) (start stop : BoundaryPoint) : Keeps P (clonePoints k start stop) := by
  induction k generalizing start stop with
  | zero => exact Keeps.diverge
  | succ k ih =>
    unfold Render.clonePoints
    refine Keeps.bind (h.contentsFragment start) fun fragment => Keeps.bind Keeps.get fun d => ?_
    refine Keeps.ite (fun _ => Keeps.pure _) fun _ => Keeps.ite (fun _ => ?_) fun _ => ?_
    · exact Keeps.bind (h.appendDataCopy _ _ _ _) fun _ => Keeps.pure _
    · refine Keeps.bind (Keeps.whenSome fun first _ => ?_) fun _ => ?_
      · refine Keeps.ite (fun _ => h.appendDataCopy _ _ _ _) fun _ => h.appendPartialCopy _ _ ?_
        exact Keeps.bind Keeps.get fun d => ih _ _
      · refine Keeps.bind (Keeps.forEach _ fun child _ => ?_) fun _ => ?_
        · exact Keeps.bind (h.cloneNode child true) fun copy => Keeps.bind (h.appendChild _ copy) fun _ => Keeps.pure _
        · refine Keeps.bind Keeps.get fun d => Keeps.bind (Keeps.whenSome fun last _ => ?_) fun _ => Keeps.pure _
          exact Keeps.ite (fun _ => h.appendDataCopy _ _ _ _) fun _ => h.appendPartialCopy _ _ (ih _ _)

theorem rangeDeleteContents (range : RangeId) : Keeps P (rangeDeleteContents range) :=
  Keeps.bind (Keeps.check _) fun _ => Keeps.bind (h.deletePoints _ _) fun _ => h.writeRange range _

theorem rangeExtractContents (range : RangeId) : Keeps P (rangeExtractContents range) := by
  unfold Render.rangeExtractContents
  refine Keeps.bind (Keeps.check _) fun _ => Keeps.bind Keeps.get fun d => ?_
  exact Keeps.bind (h.extractPoints _ _ _) fun _ => Keeps.bind (h.writeRange range _) fun _ => Keeps.pure _

theorem rangeInsertNode (range : RangeId) (n : NodeId) : Keeps P (rangeInsertNode range n) := by
  unfold Render.rangeInsertNode
  refine Keeps.bind (Keeps.check _) fun start => Keeps.bind (Keeps.check _) fun _ => Keeps.bind Keeps.get fun d => ?_
  refine Keeps.bind (Keeps.check _) fun parent => Keeps.bind (Keeps.check _) fun _ => ?_
  refine Keeps.bind (Keeps.bind Keeps.get fun d => ?_) fun reference => ?_
  · exact Keeps.ite (fun _ => Keeps.map _ (h.splitText _ _)) fun _ => Keeps.pure _
  refine Keeps.bind Keeps.get fun d => Keeps.bind (h.removeFromParent n) fun _ => Keeps.bind Keeps.get fun d => ?_
  refine Keeps.bind (Keeps.check _) fun kind => ?_
  exact Keeps.bind (h.insertBefore parent n _) fun _ => h.writeRange range _

theorem rangeSurroundContents (range : RangeId) (newParent : NodeId) : Keeps P (rangeSurroundContents range newParent) := by
  unfold Render.rangeSurroundContents
  refine Keeps.bind (Keeps.check _) fun _ => Keeps.bind (Keeps.check _) fun _ => Keeps.bind (Keeps.check _) fun _ => ?_
  refine Keeps.bind (h.rangeExtractContents range) fun fragment => Keeps.bind Keeps.get fun d => ?_
  refine Keeps.bind (Keeps.forEach _ fun child _ => Keeps.map _ (h.removeChild newParent child)) fun _ => ?_
  refine Keeps.bind (h.rangeInsertNode range newParent) fun _ => ?_
  refine Keeps.bind (h.insertBefore newParent fragment none) fun _ => ?_
  exact Keeps.bind (Keeps.check _) fun _ => h.writeRange range _

/-! ## Selections -/

theorem selectSpan (document : NodeId) (start stop : BoundaryPoint) (direction : SelectionDirection) :
    Keeps P (selectSpan document start stop direction) :=
  Keeps.bind (h.pushRange _ _ _) fun _ => Keeps.modify fun d hd => h.selections d _ hd

theorem clearSelection (document : NodeId) : Keeps P (clearSelection document) :=
  Keeps.modify fun d hd => h.selections d _ hd

theorem selectionExtend (document n : NodeId) (offset : ℕ) : Keeps P (selectionExtend document n offset) := by
  unfold Render.selectionExtend
  refine Keeps.bind (Keeps.check _) fun _ => Keeps.bind (Keeps.await _) fun inside => ?_
  refine Keeps.ite (fun _ => ?_) fun _ => Keeps.pure _
  refine Keeps.bind (Keeps.check _) fun range => ?_
  split
  · exact Keeps.fail _
  · refine Keeps.bind (Keeps.check _) fun _ => Keeps.bind (Keeps.check _) fun _ => Keeps.bind (Keeps.check _) fun _ => ?_
    exact Keeps.bind Keeps.get fun d => h.selectSpan _ _ _ _

theorem selectionSetBaseAndExtent (document : NodeId) (anchor focus : BoundaryPoint) :
    Keeps P (selectionSetBaseAndExtent document anchor focus) := by
  unfold Render.selectionSetBaseAndExtent
  refine Keeps.bind (Keeps.check _) fun _ => Keeps.bind (Keeps.check _) fun _ => Keeps.bind (Keeps.check _) fun _ => ?_
  refine Keeps.bind (Keeps.await _) fun _ => Keeps.ite (fun _ => ?_) fun _ => Keeps.pure _
  refine Keeps.bind (Keeps.await _) fun _ => Keeps.ite (fun _ => ?_) fun _ => Keeps.pure _
  exact Keeps.bind Keeps.get fun d => h.selectSpan _ _ _ _

theorem selectionAddRange (document : NodeId) (range : RangeId) : Keeps P (selectionAddRange document range) := by
  unfold Render.selectionAddRange
  refine Keeps.bind (Keeps.check _) fun _ => Keeps.bind Keeps.get fun d => Keeps.bind (Keeps.failIf _ _) fun _ => ?_
  refine Keeps.ite (fun _ => Keeps.pure _) fun _ => ?_
  refine Keeps.bind (Keeps.check _) fun _ => Keeps.bind (Keeps.check _) fun _ => ?_
  exact Keeps.ite (fun _ => Keeps.pure _) fun _ => Keeps.modify fun d hd => h.selections d _ hd

theorem selectionDeleteFromDocument (document : NodeId) : Keeps P (selectionDeleteFromDocument document) := by
  unfold Render.selectionDeleteFromDocument
  refine Keeps.bind (Keeps.check _) fun range => ?_
  split
  · exact Keeps.check _
  · exact Keeps.bind (Keeps.check _) fun _ => Keeps.ite (fun _ => Keeps.pure _) fun _ => h.rangeDeleteContents _

/-! ## Every operation -/

/-- **A property each step keeps is kept by every operation.** -/
theorem op (op : Op) : Keeps P op.run := by
  cases op with
  | createDocument contentType => exact Keeps.map _ (h.createDocument contentType)
  | createDocumentFragment => exact Keeps.map _ h.createDocumentFragment
  | createDocumentType name publicId systemId => exact Keeps.map _ (h.createDocumentType name publicId systemId)
  | createElement localName => exact Keeps.map _ (h.createElementQualified .html none _)
  | createElementNs nameSpace localName => exact Keeps.map _ (h.createElementQualified nameSpace none localName)
  | createElementQualified nameSpace namePrefix localName =>
    exact Keeps.map _ (h.createElementQualified nameSpace namePrefix localName)
  | createText data => exact Keeps.map _ (h.createText data)
  | createComment data => exact Keeps.map _ (h.createComment data)
  | createProcessingInstruction target data => exact Keeps.map _ (h.createProcessingInstruction target data)
  | setNodeDocument n document => exact h.setOwner n document
  | insertBefore parent n reference => exact Keeps.map _ (h.insertBefore parent n reference)
  | appendChild parent n => exact Keeps.map _ (h.appendChild parent n)
  | removeChild parent child => exact Keeps.map _ (h.removeChild parent child)
  | appendText parent data => exact Keeps.map _ (h.appendText parent data)
  | adoptNode document n => exact h.adoptNode document n
  | cloneNode n deep => exact Keeps.map _ (h.cloneNode n deep)
  | attachShadow host mode delegatesFocus slotAssignment =>
    exact Keeps.map _ (h.attachShadow host mode delegatesFocus slotAssignment)
  | assignSlotNodes slot nodes => exact h.assignSlotNodes slot nodes
  | setAttribute element localName value => exact h.setAttribute element localName value
  | removeAttribute element localName => exact h.removeAttribute element localName
  | setAttributeNs element nameSpace namePrefix localName value =>
    exact h.setAttributeNs element nameSpace namePrefix localName value
  | removeAttributeNs element nameSpace localName => exact h.removeAttributeNs element nameSpace localName
  | setImageState n state => exact Keeps.modify fun d hd => h.imageStates d _ hd
  | setFocusedElement n =>
    refine Keeps.map _ (Keeps.bind (Keeps.await _) fun _ => Keeps.ite (fun _ => ?_) fun _ => Keeps.pure _)
    exact Keeps.bind (Keeps.modify fun d hd => h.focusedArea d _ hd) fun _ => Keeps.pure _
  | setMutationJournalCapacity capacity => exact Keeps.modify fun d hd => h.journalCapacity d capacity hd
  | setParserInsertedFormOwner element form intendedParent =>
    refine Keeps.map _ (Keeps.bind Keeps.get fun d => Keeps.ite (fun _ => Keeps.pure _) fun _ => ?_)
    exact Keeps.bind (Keeps.modify fun d hd => h.formOwner d _ _ hd) fun _ => Keeps.pure _
  | clearParserInsertedFormOwners root =>
    refine Keeps.modify fun d hd => ?_
    generalize d.descendantsInclusive root = l
    induction l generalizing d with
    | nil => exact hd
    | cons n l ih => exact ih _ (h.formOwner d n none hd)
  | setCharacterData n value => exact h.setCharacterData n value
  | replaceData n offset count data => exact h.replaceData n offset count data
  | splitText n offset => exact Keeps.map _ (h.splitText n offset)
  | normalize root => exact h.normalize root
  | createLiveRange n => exact Keeps.map _ (Keeps.bind (Keeps.check _) fun _ => h.pushRange _ _ _)
  | createStaticRange start stop =>
    exact Keeps.map _ (Keeps.bind (Keeps.check _) fun _ => Keeps.bind (Keeps.check _) fun _ => h.pushRange _ _ _)
  | rangeSetStart range n offset => exact Keeps.bind (Keeps.check _) fun _ => h.setRangeStart range _
  | rangeSetEnd range n offset => exact Keeps.bind (Keeps.check _) fun _ => h.setRangeEnd range _
  | rangeSetStartBefore range n => exact Keeps.bind (Keeps.check _) fun _ => h.setRangeStart range _
  | rangeSetStartAfter range n => exact Keeps.bind (Keeps.check _) fun _ => h.setRangeStart range _
  | rangeSetEndBefore range n => exact Keeps.bind (Keeps.check _) fun _ => h.setRangeEnd range _
  | rangeSetEndAfter range n => exact Keeps.bind (Keeps.check _) fun _ => h.setRangeEnd range _
  | rangeCollapse range toStart => exact h.writeRange range _
  | rangeSelectNode range n => exact Keeps.bind (Keeps.check _) fun _ => h.writeRange range _
  | rangeSelectNodeContents range n =>
    exact Keeps.bind (Keeps.check _) fun _ => Keeps.bind Keeps.get fun _ => h.writeRange range _
  | rangeClone range => exact Keeps.map _ (Keeps.bind (Keeps.check _) fun _ => h.pushRange _ _ _)
  | rangeInsertNode range n => exact h.rangeInsertNode range n
  | rangeDeleteContents range => exact h.rangeDeleteContents range
  | rangeExtractContents range => exact Keeps.map _ (h.rangeExtractContents range)
  | rangeCloneContents range =>
    exact Keeps.map _ (Keeps.bind (Keeps.check _) fun _ => Keeps.bind Keeps.get fun d => h.clonePoints _ _ _)
  | rangeSurroundContents range newParent => exact h.rangeSurroundContents range newParent
  | selectionCollapse document n offset =>
    refine Keeps.bind (Keeps.check _) fun _ => ?_
    cases n with
    | none => exact h.clearSelection document
    | some n =>
      refine Keeps.bind (Keeps.check _) fun point => Keeps.bind (Keeps.await _) fun inside => Keeps.when ?_
      exact h.selectSpan document _ _ _
  | selectionCollapseTo document toStart =>
    refine Keeps.bind (Keeps.check _) fun _ => Keeps.bind Keeps.get fun d => ?_
    split
    · exact Keeps.fail _
    · exact Keeps.bind (Keeps.check _) fun point => h.selectSpan document _ _ _
  | selectionExtend document n offset => exact h.selectionExtend document n offset
  | selectionSetBaseAndExtent document anchor focus => exact h.selectionSetBaseAndExtent document anchor focus
  | selectionSelectAllChildren document n =>
    refine Keeps.bind (Keeps.check _) fun _ => Keeps.bind (Keeps.check _) fun _ => Keeps.bind (Keeps.await _) fun _ => ?_
    exact Keeps.ite (fun _ => Keeps.bind Keeps.get fun d => h.selectSpan _ _ _ _) fun _ => Keeps.pure _
  | selectionAddRange document range => exact h.selectionAddRange document range
  | selectionRemoveRange document range =>
    refine Keeps.bind (Keeps.check _) fun _ => Keeps.bind Keeps.get fun d => ?_
    exact Keeps.ite (fun _ => h.clearSelection document) fun _ => Keeps.fail _
  | selectionRemoveAllRanges document => exact Keeps.bind (Keeps.check _) fun _ => h.clearSelection document
  | selectionDeleteFromDocument document => exact h.selectionDeleteFromDocument document

/-- **A property `Dom.new` has, each step keeps and grafting keeps holds of every reachable DOM.** -/
theorem reachable (hnew : P Dom.new) (hgraft : ∀ d other, P d → P other → P (d.graftDocument other)) {d : Dom}
    (hd : Reachable d) : P d :=
  Reach.induct hnew (fun d op r d' hd _ hrun => h.op op d r d' hd hrun) hgraft hd

end KeptByTree

/-! ## Properties kept by moving nodes -/

theorem keeps_removeChild {P : Dom → Prop} (hdetach : ∀ d n, P d → P (d.detachWithoutRevision n))
    (hrecord : ∀ mutations, Keeps P (recordMutations mutations)) (parent child : NodeId) :
    Keeps P (removeChild parent child) := by
  refine Keeps.bind (Keeps.check _) fun _ => Keeps.bind (Keeps.check _) fun _ => Keeps.bind Keeps.get fun _ => ?_
  refine Keeps.bind (Keeps.failIf _ _) fun _ => Keeps.bind (Keeps.modify fun d => hdetach d child) fun _ => ?_
  exact Keeps.bind (hrecord _) fun _ => Keeps.pure _

/-- the writes of an insertion, one node at a time -/
structure KeptByMoves (P : Dom → Prop) : Prop where
  ranges : ∀ d ranges, P d → P { d with ranges }
  detach : ∀ d n, P d → P (d.detachWithoutRevision n)
  insertChild : ∀ d parent i n, P d → P (d.insertChild parent i n)
  adoptSubtree : ∀ d d' n document, P d → d.adoptSubtree n document = some d' → P d'
  recordMutations : ∀ mutations, Keeps P (recordMutations mutations)

namespace KeptByMoves

variable {P : Dom → Prop} (h : KeptByMoves P)
include h

theorem removeChild (parent child : NodeId) : Keeps P (removeChild parent child) :=
  keeps_removeChild h.detach h.recordMutations parent child

theorem detachAll (l : List NodeId) {d : Dom} (hd : P d) : P (d.detachAll l) := by
  unfold Dom.detachAll
  induction l generalizing d with
  | nil => exact hd
  | cons n l ih => exact ih (h.detach d n hd)

theorem adoptAll {owner : NodeId} (l : List NodeId) {d d' : Dom} (hd : P d) (hrun : d.adoptAll owner l = some d') :
    P d' := by
  induction l generalizing d with
  | nil => exact Option.some.inj hrun ▸ hd
  | cons n l ih =>
    unfold Dom.adoptAll at hrun
    split_ifs at hrun
    · exact ih hd hrun
    · obtain ⟨e, he, hrun⟩ := Option.bind_eq_some_iff.1 hrun
      exact ih (h.adoptSubtree d e n owner hd he) hrun

theorem insertChildren (parent : NodeId) (l : List NodeId) {d : Dom} {i : ℕ} (hd : P d) :
    P (d.insertChildren parent i l) := by
  induction l generalizing d i with
  | nil => exact hd
  | cons n l ih => exact ih (h.insertChild d parent i n hd)

theorem insertBefore (parent n : NodeId) (reference : Option NodeId) : Keeps P (insertBefore parent n reference) := by
  refine Keeps.bind (Keeps.check _) fun eff => Keeps.bind (Keeps.check _) fun kind => Keeps.bind Keeps.get fun d => ?_
  refine Keeps.ite (fun _ => Keeps.pure _) fun _ => ?_
  refine Keeps.bind (Keeps.modify fun d hd => ?_) fun _ => Keeps.bind (Keeps.modify fun d hd => ?_) fun _ => ?_
  · split_ifs
    · exact h.detachAll _ hd
    · exact hd
  · unfold Dom.shiftForInsert
    split
    · split_ifs
      · exact hd
      · exact h.ranges d _ hd
    · exact hd
  refine Keeps.bind (Keeps.modify fun d => h.detachAll _) fun _ => ?_
  refine Keeps.bind (Keeps.awaitModify fun d d' => h.adoptAll _) fun _ => Keeps.bind (Keeps.check _) fun i => ?_
  refine Keeps.bind (Keeps.modify fun d => h.insertChildren parent _) fun _ => ?_
  exact Keeps.bind (h.recordMutations _) fun _ => Keeps.pure _

end KeptByMoves

/-- a write to the manually assigned nodes of an element -/
def ElementData.assign (f : List NodeId → List NodeId) (data : ElementData) : ElementData :=
  { data with manuallyAssignedNodes := f data.manuallyAssignedNodes }

theorem keeps_assignSlotNodes {P : Dom → Prop} (hwrite : ∀ d n f, P d → P (d.modifyElement n (ElementData.assign f)))
    (slot : NodeId) (nodes : List NodeId) : Keeps P (assignSlotNodes slot nodes) := by
  refine Keeps.bind Keeps.get fun _ => Keeps.bind (Keeps.failIf _ _) fun _ => ?_
  refine Keeps.bind (Keeps.when (Keeps.modify fun d hd => ?_)) fun _ => ?_
  · unfold Dom.releaseFromSlots
    generalize d.slotsInTree _ = l
    induction l generalizing d with
    | nil => exact hd
    | cons other l ih =>
      rw [List.foldl_cons]
      refine ih _ ?_
      split_ifs
      · exact hwrite d other (fun assigned => assigned.filter _) hd
      · exact hd
  · exact Keeps.modify fun d hd => hwrite d slot (fun _ => _) hd

/-! ## Properties kept by single writes -/

/-- a write to an element that leaves its template contents, its shadow root and its name alone -/
def ElementData.KeepsLinks (f : ElementData → ElementData) : Prop :=
  ∀ data, (f data).templateContents = data.templateContents ∧ (f data).shadowRoot = data.shadowRoot ∧
    ((f data).nameSpace = data.nameSpace ∧ (f data).namePrefix = data.namePrefix ∧ (f data).localName = data.localName)

theorem ElementData.keepsLinks_writeAttribute (found : Attribute → Bool) (update : Attribute → Attribute)
    (added : Attribute) : ElementData.KeepsLinks fun data => data.writeAttribute found update added := by
  intro data
  dsimp only [ElementData.writeAttribute]
  split <;> exact ⟨rfl, rfl, rfl, rfl, rfl⟩

structure KeptByWrites (P : Dom → Prop) : Prop where
  tables : ∀ d ranges selections documentContentTypes named imageStates shadowRoots, P d →
    P { d with ranges, selections, documentContentTypes, named, imageStates, shadowRoots }
  allocate : ∀ d kind, kind.isPlain → P d → P (d.allocateIn kind)
  allocateElement : ∀ d data, data.shadowRoot = none → P d → P (d.allocateIn (.element data))
  setNodeDocument : ∀ d n document, P d → P (d.setNodeDocument n document)
  setDataText : ∀ d n value, P d → P (d.setDataText n value)
  modifyElement : ∀ d n f, ElementData.KeepsLinks f → P d → P (d.modifyElement n f)
  adoptSubtree : ∀ d d' n document, P d → d.adoptSubtree n document = some d' → P d'
  recordMutations : ∀ mutations, Keeps P (recordMutations mutations)
  focusedArea : ∀ d focusedArea, P d → P { d with focusedArea }
  journalCapacity : ∀ d capacity, P d → P (d.setMutationJournalCapacityIn capacity)

namespace KeptByWrites

variable {P : Dom → Prop} (h : KeptByWrites P)
include h

theorem named (d : Dom) (named : NamedIndex) (hd : P d) : P { d with named } := h.tables d _ _ _ named _ _ hd

theorem writeElement {f : ElementData → ElementData} (hf : ElementData.KeepsLinks f) (n : NodeId) :
    Keeps P (modify fun d => d.modifyElement n f : DomM Unit) :=
  Keeps.modify fun d => h.modifyElement d n f hf

theorem imageSourceChanged (n : NodeId) (hasSource : Bool) :
    Keeps P (modify fun d => d.imageSourceChanged n hasSource : DomM Unit) := by
  refine Keeps.modify fun d hd => ?_
  unfold Dom.imageSourceChanged
  split_ifs
  · exact h.tables d _ _ _ _ _ _ hd
  · exact h.tables d _ _ _ _ _ _ hd
  · exact hd

theorem createElementQualified (nameSpace : Namespace) (namePrefix : Option String) (localName : String) :
    Keeps P (createElementQualified nameSpace namePrefix localName) := by
  have hdata : Keeps P (newElementData nameSpace namePrefix localName) := by
    unfold newElementData Render.createDocumentFragment Render.allocate
    refine Keeps.ite (fun _ => Keeps.bind ?_ fun _ => Keeps.pure _) fun _ => Keeps.pure _
    exact Keeps.bind Keeps.get fun _ =>
      Keeps.bind (Keeps.modify fun d => h.allocate d _ ⟨by decide, by decide⟩) fun _ => Keeps.pure _
  refine Keeps.bind_of hdata fun s data u _ hu hrun => ?_
  -- a new element has no shadow root
  have hnone : data.shadowRoot = none := by
    unfold newElementData at hrun
    split_ifs at hrun
    · obtain ⟨contents, v, -, hrun⟩ := bind_ok hrun
      simp only [pure_run, Option.some.injEq, Prod.mk.injEq, Except.ok.injEq] at hrun
      rw [← hrun.1]
    · simp only [pure_run, Option.some.injEq, Prod.mk.injEq, Except.ok.injEq] at hrun
      rw [← hrun.1]
  have hall : Keeps P (Render.allocate (.element data)) := by
    unfold Render.allocate
    exact Keeps.bind Keeps.get fun _ => Keeps.bind (Keeps.modify fun d => h.allocateElement d data hnone) fun _ =>
      Keeps.pure _
  exact fun r t => hall u r t hu

theorem cloneElement (n : NodeId) (data : ElementData) : Keeps P (cloneKind n (.element data)) := by
  refine Keeps.bind (h.createElementQualified _ _ _) fun copy => ?_
  refine Keeps.bind (h.writeElement (by exact fun _ => ⟨rfl, rfl, rfl, rfl, rfl⟩) copy) fun _ => ?_
  exact Keeps.bind (Keeps.modify fun d => h.named d _) fun _ => Keeps.pure _

theorem assignSlotNodes (slot : NodeId) (nodes : List NodeId) : Keeps P (assignSlotNodes slot nodes) :=
  keeps_assignSlotNodes (fun d n _ => h.modifyElement d n _ (by exact fun _ => ⟨rfl, rfl, rfl, rfl, rfl⟩)) slot nodes

theorem setAttribute (element : NodeId) (localName value : String) : Keeps P (setAttribute element localName value) := by
  refine Keeps.bind (Keeps.check _) fun kind => ?_
  split
  · refine Keeps.bind (Keeps.modify fun d => h.named d _) fun _ => ?_
    refine Keeps.bind (h.writeElement (ElementData.keepsLinks_writeAttribute _ _ _) element) fun _ => ?_
    refine Keeps.bind (h.recordMutations _) fun _ => Keeps.bind (Keeps.modify fun d => h.named d _) fun _ => ?_
    exact Keeps.when (h.imageSourceChanged element true)
  · exact Keeps.fail _

theorem setAttributeNs (element : NodeId) (nameSpace namePrefix : Option String) (localName value : String) :
    Keeps P (setAttributeNs element nameSpace namePrefix localName value) := by
  refine Keeps.bind (Keeps.check _) fun kind => ?_
  split
  · refine Keeps.bind (Keeps.modify fun d => h.named d _) fun _ => ?_
    refine Keeps.bind (h.writeElement (ElementData.keepsLinks_writeAttribute _ _ _) element) fun _ => ?_
    refine Keeps.bind (h.recordMutations _) fun _ => Keeps.bind (Keeps.modify fun d => h.named d _) fun _ => ?_
    exact Keeps.when (h.imageSourceChanged element true)
  · exact Keeps.fail _

theorem eraseAttribute (element : NodeId) (localName : String) (index : ℕ) :
    Keeps P (eraseAttribute element localName index) :=
  Keeps.bind (h.writeElement (by exact fun _ => ⟨rfl, rfl, rfl, rfl, rfl⟩) element) fun _ => h.recordMutations _

theorem removeAttribute (element : NodeId) (localName : String) : Keeps P (removeAttribute element localName) := by
  refine Keeps.bind (Keeps.check _) fun kind => ?_
  split
  · refine Keeps.bind (Keeps.modify fun d => h.named d _) fun _ => ?_
    refine Keeps.bind (Keeps.whenSome fun index _ => h.eraseAttribute element _ index) fun _ => ?_
    refine Keeps.bind (Keeps.modify fun d => h.named d _) fun _ => ?_
    exact Keeps.when (h.imageSourceChanged element false)
  · exact Keeps.fail _

theorem removeAttributeNs (element : NodeId) (nameSpace : Option String) (localName : String) :
    Keeps P (removeAttributeNs element nameSpace localName) := by
  refine Keeps.bind (Keeps.check _) fun kind => ?_
  split
  · refine Keeps.bind (Keeps.modify fun d => h.named d _) fun _ => ?_
    refine Keeps.bind (Keeps.whenSome fun index _ => h.eraseAttribute element _ index) fun _ => ?_
    refine Keeps.bind (Keeps.modify fun d => h.named d _) fun _ => ?_
    exact Keeps.when (h.imageSourceChanged element false)
  · exact Keeps.fail _

/-- **Single writes, and the steps that move nodes or attach a shadow root, are all there is.** -/
theorem kept (hinsert : ∀ parent n reference, Keeps P (insertBefore parent n reference))
    (hremove : ∀ parent child, Keeps P (removeChild parent child))
    (hattach : ∀ host mode delegatesFocus slotAssignment,
      Keeps P (attachShadow host mode delegatesFocus slotAssignment)) : KeptByTree P where
  ranges d _ hd := h.tables d _ _ _ _ _ _ hd
  selections d _ hd := h.tables d _ _ _ _ _ _ hd
  contentTypes d _ hd := h.tables d _ _ _ _ _ _ hd
  imageStates d _ hd := h.tables d _ _ _ _ _ _ hd
  allocate := h.allocate
  setNodeDocument := h.setNodeDocument
  setDataText := h.setDataText
  adoptSubtree := h.adoptSubtree
  recordMutations := h.recordMutations
  createElementQualified := h.createElementQualified
  cloneElement := h.cloneElement
  insertBefore := hinsert
  removeChild := hremove
  attachShadow := hattach
  assignSlotNodes := h.assignSlotNodes
  setAttribute := h.setAttribute
  removeAttribute := h.removeAttribute
  setAttributeNs := h.setAttributeNs
  removeAttributeNs := h.removeAttributeNs
  formOwner d n owner hd := h.modifyElement d n _ (by exact fun _ => ⟨rfl, rfl, rfl, rfl, rfl⟩) hd
  focusedArea := h.focusedArea
  journalCapacity := h.journalCapacity

/-- detaching and inserting one node are the only other writes of an insertion or a removal -/
theorem moves (hdetach : ∀ d n, P d → P (d.detachWithoutRevision n))
    (hinsert : ∀ d parent i n, P d → P (d.insertChild parent i n)) : KeptByMoves P where
  ranges d _ hd := h.tables d _ _ _ _ _ _ hd
  detach := hdetach
  insertChild := hinsert
  adoptSubtree := h.adoptSubtree
  recordMutations := h.recordMutations

end KeptByWrites

end Render
