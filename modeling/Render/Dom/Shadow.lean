/-
Shadow trees (`render-dom/src/shadow.rs`): hosts, the shadow-including tree, retargeting, event paths and slots. The
operations that change a shadow tree are in `Render.Dom.Tree`.

A walk that crosses from a shadow root to its host can go round for ever, since an insertion only looks for cycles along
`parent`. So every function here that makes such a walk returns `none` for a loop that does not end.
-/
import Render.Dom.Nodes

namespace Render

open Render.Core

/-- one node an event visits, and the `target` and `relatedTarget` its listeners read -/
structure EventPathStep where
  invocationTarget : NodeId
  target : NodeId
  /-- whether this step has a shadow-adjusted target of its own -/
  atTarget : Bool
  relatedTarget : Option NodeId
  rootOfClosedTree : Bool
deriving DecidableEq, Repr

/-- HTML §4.13.2 `PCENChar` -/
def isPcenChar (ch : Char) : Bool :=
  let c := ch.toNat
  let within (low high : ℕ) : Bool := low ≤ c && c ≤ high
  ch == '-' || ch == '.' || within 0x30 0x39 || ch == '_' || within 0x61 0x7A || c == 0xB7 || within 0xC0 0xD6 ||
    within 0xD8 0xF6 || within 0xF8 0x37D || within 0x37F 0x1FFF || within 0x200C 0x200D || within 0x203F 0x2040 ||
    within 0x2070 0x218F || within 0x2C00 0x2FEF || within 0x3001 0xD7FF || within 0xF900 0xFDCF ||
    within 0xFDF0 0xFFFD || within 0x10000 0xEFFFF

def isValidCustomElementName (name : String) : Bool :=
  let chars := name.toList
  (match chars with
    | first :: _ => first.isLower
    | [] => false) &&
    chars.contains '-' && chars.all isPcenChar &&
    !(["annotation-xml", "color-profile", "font-face", "font-face-src", "font-face-uri", "font-face-format",
      "font-face-name", "missing-glyph"].contains name)

/-- a valid custom element name, or one of the elements the standard lists -/
def isValidShadowHostName (name : String) : Bool :=
  isValidCustomElementName name ||
    ["article", "aside", "blockquote", "body", "div", "footer", "h1", "h2", "h3", "h4", "h5", "h6", "header", "main",
      "nav", "p", "section", "span"].contains name

namespace Dom

variable (d : Dom)

/-- the shadow root attached to `host`, whatever its mode -/
def shadowRoot (host : NodeId) : Option NodeId := (d.elementOf host).bind ElementData.shadowRoot

def shadowRootData (n : NodeId) : Option ShadowRootData :=
  match d.kindOf n with
  | some (.shadowRoot data) => some data
  | _ => none

def shadowHost (n : NodeId) : Option NodeId := (d.shadowRootData n).map ShadowRootData.host

/-- the template contents of an element -/
def templateContents (element : NodeId) : Option NodeId := (d.elementOf element).bind ElementData.templateContents

/-- `tree_root(host)` of a shadow root: one pass of the loop of `shadow_including_root` -/
def hostRoot (root : NodeId) : Option NodeId := (d.shadowHost root).map d.treeRoot

def shadowIncludingRoot (n : NodeId) : Option NodeId := (walk d.hostRoot d.passes (d.treeRoot n)).bind List.getLast?

def isConnected (n : NodeId) : Option Bool := (d.shadowIncludingRoot n).map fun root => root == d.document

/-- the parent, or the host of a shadow root -/
def shadowIncludingParent (n : NodeId) : Option NodeId := (d.parent n).or (d.shadowHost n)

def isShadowIncludingInclusiveAncestor (ancestor n : NodeId) : Option Bool :=
  seek d.shadowIncludingParent ancestor d.passes n

/-- the loop of `retarget` -/
def retargetFrom (other : Option NodeId) : ℕ → NodeId → Option NodeId
  | 0, _ => none
  | k + 1, current =>
    let root := d.treeRoot current
    match d.shadowHost root with
    | none => some current
    | some host => do
      let sees ← match other with
        | none => some false
        | some other => d.isShadowIncludingInclusiveAncestor root other
      if sees then some current else retargetFrom other k host

/-- DOM §4.2.5: `n` moved up out of the shadow trees that `other` cannot see into -/
def retarget (n : NodeId) (other : Option NodeId) : Option NodeId := d.retargetFrom other d.passes n

/-! ## Slots -/

/-- whether `n` is an HTML `slot` element -/
def isSlot (n : NodeId) : Bool := d.elementData n == some (.html, "slot")

/-- an element or a text node -/
def isSlottable (n : NodeId) : Bool :=
  match d.kindOf n with
  | some (.element _) | some (.text _) => true
  | _ => false

def slottableName (n : NodeId) : String := (d.attributeOf n "slot").getD ""

def slotName (slot : NodeId) : String := (d.attributeOf slot "name").getD ""

/-- the slots of the tree rooted at `root`, in tree order -/
def slotsInTree (root : NodeId) : List NodeId := (d.descendants root).filter d.isSlot

def manuallyAssignedNodes (slot : NodeId) : List NodeId :=
  ((d.elementOf slot).map ElementData.manuallyAssignedNodes).getD []

/-- the slot a child of the host goes to, among the slots of the shadow tree in tree order. Named: the first slot with
the slottable's name, which is the entry of `first_slot` for that name. Manual: the first slot that was given it. -/
def slotFor (mode : SlotAssignmentMode) (slots : List NodeId) (child : NodeId) : Option NodeId :=
  match mode with
  | .named => slots.find? fun slot => d.slotName slot == d.slottableName child
  | .manual => slots.find? fun slot => (d.manuallyAssignedNodes slot).contains child

/-- the (slottable, slot) pairs of the host's children, in the host's child order -/
def slotAssignments (root : NodeId) : List (NodeId × NodeId) :=
  match d.shadowRootData root with
  | none => []
  | some data =>
    let slots := d.slotsInTree root
    ((d.childrenOf data.host).filter d.isSlottable).filterMap fun child =>
      (d.slotFor data.slotAssignment slots child).map fun slot => (child, slot)

/-- `slottable.assignedSlot` -/
def assignedSlot (slottable : NodeId) : Option NodeId :=
  if d.isSlottable slottable then do
    let host ← d.parent slottable
    let root ← d.shadowRoot host
    ((d.slotAssignments root).find? fun pair => pair.1 == slottable).map Prod.snd
  else none

/-- the nodes assigned to `slot` directly, in host child order -/
def directlyAssigned (slot : NodeId) : List NodeId :=
  let root := d.treeRoot slot
  if (d.shadowRootData root).isNone then []
  else ((d.slotAssignments root).filter fun pair => pair.2 == slot).map Prod.fst

/-- find flattened slottables; the recursion goes from a slot to the slots assigned to it -/
def flattenedSlottables : ℕ → NodeId → Option (List NodeId)
  | 0, _ => none
  | k + 1, slot =>
    let assigned := d.directlyAssigned slot
    if assigned.isEmpty then some (d.childrenOf slot)
    else do
      let parts ← assigned.mapM fun n =>
        if d.isSlot n && (d.shadowRootData (d.treeRoot n)).isSome then flattenedSlottables k n else some [n]
      return parts.flatten

/-- `slot.assignedNodes({flatten})` -/
def assignedNodes (slot : NodeId) (flatten : Bool) : Option (List NodeId) :=
  if !d.isSlot slot then some []
  else if flatten then d.flattenedSlottables d.passes slot
  else some (d.directlyAssigned slot)

/-- the children of `n` in the flat tree, which is what rendering walks -/
def flatChildren (n : NodeId) : List NodeId :=
  match d.shadowRoot n with
  | some root => d.childrenOf root
  | none =>
    if d.isSlot n && !(d.directlyAssigned n).isEmpty then d.directlyAssigned n
    else d.childrenOf n

/-! ## Event paths -/

/-- the node an event goes to after `n`: the assigned slot, else the host of a shadow root, else the parent -/
def eventParent (n : NodeId) (composed : Bool) (invocationTarget : NodeId) : Option NodeId :=
  match d.assignedSlot n with
  | some slot => some slot
  | none =>
    match d.shadowRootData n with
    | some data => if !composed && d.treeRoot invocationTarget == n then none else some data.host
    | none => d.parent n

/-- the loop of `event_path`: each node visited with its shadow-adjusted target, `none` where the node is inside the tree
of the current target. The list holds what is visited from `next` on. -/
def eventVisits (target : NodeId) (relatedForTarget : Option NodeId) (composed : Bool) :
    ℕ → NodeId → Option NodeId → Option (List (NodeId × Option NodeId))
  | _, _, none => some []
  | 0, _, some _ => none
  | k + 1, currentTarget, some n => do
    let above := d.eventParent n composed target
    if ← d.isShadowIncludingInclusiveAncestor (d.treeRoot currentTarget) n then
      return (n, none) :: (← eventVisits target relatedForTarget composed k currentTarget above)
    else if some n = relatedForTarget then return []
    else return (n, some n) :: (← eventVisits target relatedForTarget composed k n above)

/-- the steps of the visited nodes; `resolved` is the last shadow-adjusted target seen so far -/
def eventSteps (related : Option NodeId) : NodeId → List (NodeId × Option NodeId) → Option (List EventPathStep)
  | _, [] => some []
  | resolved, (n, adjusted) :: rest => do
    let resolved := adjusted.getD resolved
    let relatedTarget ← match related with
      | none => some none
      | some candidate => (d.retarget candidate (some n)).map some
    let step : EventPathStep :=
      { invocationTarget := n
        target := resolved
        atTarget := adjusted.isSome
        relatedTarget
        rootOfClosedTree := (d.shadowRootData n).any fun data => data.mode == .closed }
    return step :: (← eventSteps related resolved rest)

/-- the nodes an event dispatched at `target` visits, in path order -/
def eventPath (target : NodeId) (related : Option NodeId) (composed : Bool) : Option (List EventPathStep) := do
  let relatedForTarget ← match related with
    | none => some none
    | some n => (d.retarget n (some target)).map some
  if relatedForTarget = some target ∧ related ≠ some target then return []
  let visited ← d.eventVisits target relatedForTarget composed d.passes target (d.eventParent target composed target)
  d.eventSteps related target ((target, some target) :: visited)

end Dom

end Render
