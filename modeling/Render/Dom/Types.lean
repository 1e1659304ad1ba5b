/-
The data of the DOM (`render-dom/src/lib.rs`, and the record types of `range.rs`, `shadow.rs` and `named.rs`).

Nodes live in an arena: a node's id is its position in `Dom.nodes`, ids grow and are never reused. A node id is a
natural number; an id past the end of the arena names no node.

`Dom.history` is ghost state: the source keeps no such field and no modelled function reads it. It remembers every
mutation record ever made and every one the bounded journal has dropped, so that the journal can be compared with them.
-/
import Render.Core.Comp

namespace Render

open Render.Core

abbrev NodeId := ℕ

abbrev DomRevision := ℕ

/-- `u64::MAX`, where the revision counter stops -/
def u64Max : ℕ := 2 ^ 64 - 1

inductive MutationKind where
  | childList (target : NodeId) (added removed : List NodeId)
  | attribute_ (target : NodeId) (localName : String)
  | characterData (target : NodeId)
  /-- a shadow root was attached to the host; mutation observers never see it -/
  | shadowRootAttached (host : NodeId)
deriving DecidableEq, Repr

structure MutationRecord where
  revision : DomRevision
  kind : MutationKind
deriving DecidableEq, Repr

structure MutationBatch where
  fromRevision : DomRevision
  toRevision : DomRevision
  records : List MutationRecord
deriving DecidableEq, Repr

inductive MutationHistoryError where
  | revisionInFuture (requested current : DomRevision)
  | historyDiscarded (requested oldestAvailable : DomRevision)
deriving DecidableEq, Repr

/-- ghost: every record ever made and every record the journal has dropped, oldest first -/
structure MutationHistory where
  recorded : List MutationRecord := []
  discarded : List MutationRecord := []
deriving DecidableEq, Repr

inductive Namespace where
  | html
  | svg
  | mathMl
  | other (uri : String)
deriving DecidableEq, Repr

structure Attribute where
  nameSpace : Option String
  namePrefix : Option String
  localName : String
  value : String
deriving DecidableEq, Repr

/-- the form the parser associated with an element, and the parent it was inserted for -/
structure ParserInsertedFormOwner where
  form : NodeId
  intendedParent : NodeId
deriving DecidableEq, Repr

structure ElementData where
  nameSpace : Namespace
  namePrefix : Option String
  localName : String
  attributes : List Attribute := []
  /-- the fragment behind `template.content`; not a child of the element -/
  templateContents : Option NodeId := none
  /-- the shadow root attached to the element; not a child of the element -/
  shadowRoot : Option NodeId := none
  manuallyAssignedNodes : List NodeId := []
  parserInsertedFormOwner : Option ParserInsertedFormOwner := none
deriving DecidableEq, Repr

structure DocumentTypeData where
  name : String
  publicId : String
  systemId : String
deriving DecidableEq, Repr

inductive ShadowRootMode where
  | open_
  | closed
deriving DecidableEq, Repr

inductive SlotAssignmentMode where
  | manual
  | named
deriving DecidableEq, Repr

structure ShadowRootData where
  host : NodeId
  mode : ShadowRootMode
  delegatesFocus : Bool
  slotAssignment : SlotAssignmentMode
deriving DecidableEq, Repr

inductive NodeKind where
  | document
  | documentFragment
  | shadowRoot (data : ShadowRootData)
  | documentType (data : DocumentTypeData)
  | element (data : ElementData)
  | text (data : String)
  | comment (data : String)
  | processingInstruction (target data : String)
deriving DecidableEq, Repr

structure Node where
  id : NodeId
  parent : Option NodeId
  children : List NodeId
  kind : NodeKind
  /-- the node document; a document is its own owner -/
  owner : NodeId
deriving DecidableEq, Repr

inductive DomErrorKind where
  | hierarchyRequest
  | notFound
  | invalidNodeType
  | indexSize
  | wrongDocument
  | notSupported
  | invalidState
deriving DecidableEq, Repr

structure DomError where
  kind : DomErrorKind
  message : String
deriving DecidableEq, Repr

namespace DomError

def hierarchy (message : String) : DomError := ⟨.hierarchyRequest, message⟩
def notFound (message : String) : DomError := ⟨.notFound, message⟩
def invalidNodeType (message : String) : DomError := ⟨.invalidNodeType, message⟩
def indexSize (message : String) : DomError := ⟨.indexSize, message⟩
def notSupported (message : String) : DomError := ⟨.notSupported, message⟩
def invalidState (message : String) : DomError := ⟨.invalidState, message⟩

end DomError

inductive ImageLoadState where
  | unavailable
  | pending
  | loaded (width height : ℕ)
  | broken
deriving DecidableEq, Repr

/-- a position in the range table -/
abbrev RangeId := ℕ

/-- a node and an offset in it: a UTF-16 offset for character data, a child index for every other node -/
structure BoundaryPoint where
  node : NodeId
  offset : ℕ
deriving DecidableEq, Repr

/-- whether a range follows tree mutations (`Range`) or is fixed (`StaticRange`) -/
inductive RangeKind where
  | live
  | static_
deriving DecidableEq, Repr

structure RangeRecord where
  kind : RangeKind
  start : BoundaryPoint
  stop : BoundaryPoint
deriving DecidableEq, Repr

inductive SelectionDirection where
  | forwards
  | backwards
  | directionless
deriving DecidableEq, Repr

structure SelectionRecord where
  range : Option RangeId
  direction : SelectionDirection
deriving DecidableEq, Repr

/-- element keys, each mapped to the elements carrying it -/
structure NamedIndex where
  keys : Std.TreeMap String (List NodeId) := ∅

structure Dom where
  nodes : List Node
  document : NodeId
  mutationRevision : ℕ := 0
  mutationJournal : List MutationRecord := []
  mutationJournalCapacity : ℕ := 4096
  oldestAvailableRevision : DomRevision := 0
  history : MutationHistory := {}
  focusedArea : Option NodeId := none
  documentContentTypes : Std.TreeMap NodeId String := ∅
  ranges : List RangeRecord := []
  selections : Std.TreeMap NodeId SelectionRecord := ∅
  named : NamedIndex := {}
  imageStates : Std.TreeMap NodeId ImageLoadState := ∅
  shadowRoots : ℕ := 0

/-- `Dom::new`: one document node, which owns itself -/
def Dom.new : Dom where
  nodes := [{ id := 0, parent := none, children := [], kind := .document, owner := 0 }]
  document := 0

/-- an operation on the DOM: it may fail, and a loop in it may never end -/
abbrev DomM := Comp Dom DomError

end Render
