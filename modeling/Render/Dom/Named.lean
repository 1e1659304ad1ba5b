/-
Named access (`render-dom/src/named.rs`) and the attribute writes of `lib.rs` and `image.rs` that keep its index.

The index maps a key to the elements that carry it. Each attribute write takes the element out of the index under the
keys it has before the write, and puts it in again under the keys it has after it.
-/
import Render.Dom.Tree

namespace Render

open Render.Core Render.Core.Comp

/-- the elements whose `name` attribute names them -/
def takesNameAttribute (localName : String) : Bool := ["embed", "form", "iframe", "img", "object"].contains localName

/-- the value of the attribute with no namespace and this local name -/
def attributeValue (data : ElementData) (localName : String) : Option String :=
  (data.attributes.find? fun a => a.nameSpace.isNone && a.localName == localName).map Attribute.value

/-- the non-empty keys an element is named by, without duplicates -/
def elementKeys (data : ElementData) : List String :=
  if data.nameSpace ≠ .html then []
  else
    let keys := ((attributeValue data "id").filter (· ≠ "")).toList
    match (attributeValue data "name").filter (· ≠ "") with
    | some name => if takesNameAttribute data.localName ∧ name ∉ keys then keys ++ [name] else keys
    | none => keys

namespace Dom

variable (d : Dom)

/-- `named_keys_of`: the keys of an element, and none for any other node -/
def namedKeysOf (n : NodeId) : List String := ((d.elementOf n).map elementKeys).getD []

def indexKey (index : NamedIndex) (n : NodeId) (key : String) : NamedIndex :=
  let nodes := (index.keys[key]?).getD []
  { keys := index.keys.insert key (if nodes.contains n then nodes else nodes ++ [n]) }

def unindexKey (index : NamedIndex) (n : NodeId) (key : String) : NamedIndex :=
  match index.keys[key]? with
  | none => index
  | some nodes =>
    let left := nodes.filter (· ≠ n)
    { keys := if left.isEmpty then index.keys.erase key else index.keys.insert key left }

/-- `index_named`: record the element under each key it now carries -/
def indexNamed (n : NodeId) : Dom :=
  { d with named := (d.namedKeysOf n).foldl (fun index key => indexKey index n key) d.named }

/-- `unindex_named`: remove the element from each key it now carries -/
def unindexNamed (n : NodeId) : Dom :=
  { d with named := (d.namedKeysOf n).foldl (fun index key => unindexKey index n key) d.named }

/-- `names_element` -/
def namesElement (n : NodeId) (key : String) : Bool := (d.namedKeysOf n).contains key

/-- the root of `n`, and the child index of each step from that root down to `n` -/
def treePosition (n : NodeId) : NodeId × List ℕ :=
  (d.treeRoot n, (d.pathFromRoot n).tail.map d.indexOrZero)

/-- `named_elements`: the elements of `document` named `key`, in tree order -/
def namedElements (document : NodeId) (key : String) : List NodeId :=
  if key = "" then []
  else
    match d.named.keys[key]? with
    | none => []
    | some candidates =>
      let found := (candidates.filter fun n => d.namesElement n key).filterMap fun n =>
        if (d.treePosition n).1 = document then some ((d.treePosition n).2, n) else none
      (found.mergeSort fun left right => decide (left.1 ≤ right.1)).map Prod.snd

/-- `named_keys`: every name under which `document` names at least one element -/
def namedKeys (document : NodeId) : List String :=
  d.named.keys.keys.filter fun key => !(d.namedElements document key).isEmpty

def isHtmlImage (n : NodeId) : Bool := d.elementData n == some (.html, "img")

/-- `set_image_state`: the default state drops the entry -/
def setImageStateIn (n : NodeId) (state : ImageLoadState) : Dom :=
  { d with
    imageStates := if state = .unavailable then d.imageStates.erase n else d.imageStates.insert n state }

/-- `image_source_changed` -/
def imageSourceChanged (n : NodeId) (hasSource : Bool) : Dom :=
  if d.isHtmlImage n then d.setImageStateIn n (if hasSource then .pending else .unavailable) else d

end Dom

/-! ## Attribute writes -/

/-- write the first attribute `matches` accepts, or add a new one -/
def ElementData.writeAttribute (data : ElementData) (found : Attribute → Bool) (update : Attribute → Attribute)
    (added : Attribute) : ElementData :=
  match data.attributes.findIdx? found with
  | some index => { data with attributes := data.attributes.modify index update }
  | none => { data with attributes := data.attributes ++ [added] }

/-- `set_attribute` -/
def setAttribute (element : NodeId) (localName value : String) : DomM Unit := do
  match ← check fun d => d.kind element with
  | .element data =>
    let localName := data.nameSpace.attributeName localName
    modify fun d => d.unindexNamed element
    modify fun d => d.modifyElement element fun data =>
      data.writeAttribute (·.hasQualifiedName localName) (fun a => { a with value })
        { nameSpace := none, namePrefix := none, localName, value }
    recordMutations [.attribute_ element localName]
    modify fun d => d.indexNamed element
    when (localName = "src") (modify fun d => d.imageSourceChanged element true)
  | _ => fail (.invalidNodeType "attributes require an element")

/-- an attribute is taken out, and the removal recorded -/
def eraseAttribute (element : NodeId) (localName : String) (index : ℕ) : DomM Unit := do
  modify fun d => d.modifyElement element fun data => { data with attributes := data.attributes.eraseIdx index }
  recordMutations [.attribute_ element localName]

/-- `remove_attribute`: a missing attribute is ignored -/
def removeAttribute (element : NodeId) (localName : String) : DomM Unit := do
  match ← check fun d => d.kind element with
  | .element data =>
    let normalized := data.nameSpace.attributeName localName
    modify fun d => d.unindexNamed element
    let removed := data.attributes.findIdx? (·.hasQualifiedName normalized)
    whenSome removed (eraseAttribute element normalized)
    modify fun d => d.indexNamed element
    when (removed.isSome ∧ normalized = "src") (modify fun d => d.imageSourceChanged element false)
  | _ => fail (.invalidNodeType "attributes require an element")

/-- `set_attribute_ns`: an attribute is found by namespace and local name, its prefix is replaced -/
def setAttributeNs (element : NodeId) (nameSpace namePrefix : Option String) (localName value : String) : DomM Unit := do
  match ← check fun d => d.kind element with
  | .element _ =>
    modify fun d => d.unindexNamed element
    modify fun d => d.modifyElement element fun data =>
      data.writeAttribute (fun a => a.nameSpace == nameSpace && a.localName == localName)
        (fun a => { a with value, namePrefix }) { nameSpace, namePrefix, localName, value }
    recordMutations [.attribute_ element localName]
    modify fun d => d.indexNamed element
    when (nameSpace = none ∧ localName = "src") (modify fun d => d.imageSourceChanged element true)
  | _ => fail (.invalidNodeType "attributes require an element")

/-- `remove_attribute_ns` -/
def removeAttributeNs (element : NodeId) (nameSpace : Option String) (localName : String) : DomM Unit := do
  match ← check fun d => d.kind element with
  | .element data =>
    modify fun d => d.unindexNamed element
    let removed := data.attributes.findIdx? fun a => a.nameSpace == nameSpace && a.localName == localName
    whenSome removed (eraseAttribute element localName)
    modify fun d => d.indexNamed element
    when (removed.isSome ∧ nameSpace = none ∧ localName = "src") (modify fun d => d.imageSourceChanged element false)
  | _ => fail (.invalidNodeType "attributes require an element")

/-- `set_image_state` -/
def setImageState (n : NodeId) (state : ImageLoadState) : DomM Unit := modify fun d => d.setImageStateIn n state

end Render
