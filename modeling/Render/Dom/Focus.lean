/-
Focus and the mutation journal (`render-dom/src/focus.rs`, `record_mutations` and its neighbours in `lib.rs`).

Every recorded mutation runs the focus fixup first, which asks whether the focused node is still connected. That walk
crosses from shadow roots to hosts, so recording a mutation may never return; it never fails.
-/
import Render.Dom.Shadow

namespace Render

open Render.Core

/-- `parse_html_integer`: the HTML rules for parsing integers, with the `i32` range -/
def parseHtmlInteger (input : String) : Option ℤ :=
  let trimmed := input.toList.dropWhile fun c => c == ' ' || c == '\t' || c == '\n' || c == '\x0C' || c == '\r'
  let (negative, rest) :=
    match trimmed with
    | '-' :: rest => (true, rest)
    | '+' :: rest => (false, rest)
    | _ => (false, trimmed)
  let digits := rest.takeWhile Char.isDigit
  if digits.isEmpty then none
  else
    let magnitude : ℕ := digits.foldl (fun value c => value * 10 + (c.toNat - '0'.toNat)) 0
    -- the digits are read as an `i64` before the sign is applied
    if magnitude < 2 ^ 63 then
      let signed : ℤ := if negative then -(magnitude : ℤ) else magnitude
      if -2 ^ 31 ≤ signed ∧ signed < 2 ^ 31 then some signed else none
    else none

namespace Dom

variable (d : Dom)

def parsedTabIndex (n : NodeId) : Option ℤ := (d.attributeOf n "tabindex").bind parseHtmlInteger

/-- `attribute_equals_ascii_case` -/
def attributeEqualsAsciiCase (n : NodeId) (name expected : String) : Bool :=
  (d.attributeOf n name).any fun value => toAsciiLowercase value == toAsciiLowercase expected

def isNativelyFocusable (n : NodeId) : Bool :=
  match d.elementData n with
  | some (.html, localName) =>
    if localName = "a" ∨ localName = "area" then d.hasAttribute n "href"
    else if localName ∈ ["button", "select", "textarea", "iframe"] then true
    else if localName = "input" then !d.attributeEqualsAsciiCase n "type" "hidden"
    else false
  | _ => false

def isHtmlElementNamed (n : NodeId) (name : String) : Bool := d.elementData n == some (.html, name)

/-- whether `n` is inside the first `legend` child of `fieldset` -/
def isInFirstLegendOf (n fieldset : NodeId) : Bool :=
  match (d.childrenOf fieldset).find? fun child => (d.elementData child).any fun data => data.2 == "legend" with
  | some legend => d.isInclusiveAncestor legend n
  | none => false

/-- disabled by its own attribute, or by a disabled fieldset above it outside that fieldset's first legend -/
def isDisabledFormControl (n : NodeId) : Bool :=
  match d.elementData n with
  | some (.html, localName) =>
    if localName ∈ ["button", "input", "select", "textarea"] then
      d.hasAttribute n "disabled" ||
        (d.ancestorsInclusive n).tail.any fun current =>
          d.isHtmlElementNamed current "fieldset" && d.hasAttribute current "disabled" && !d.isInFirstLegendOf n current
    else false
  | _ => false

def isHiddenByAttribute (n : NodeId) : Bool := (d.ancestorsInclusive n).any fun current => d.hasAttribute current "hidden"

def isFocusableArea (n : NodeId) : Option Bool := do
  let connected ← d.isConnected n
  return connected && !d.isHiddenByAttribute n && !d.isDisabledFormControl n &&
    ((d.parsedTabIndex n).isSome || d.isNativelyFocusable n)

/-- the focused area becomes the viewport when its node stops being focusable -/
def applyFocusFixup : Option Dom :=
  match d.focusedArea with
  | none => some d
  | some n => (d.isFocusableArea n).map fun focusable => if focusable then d else { d with focusedArea := none }

/-- drop the oldest record of the journal, as both loops that bound it do -/
def popFrontRecord : Dom :=
  match d.mutationJournal with
  | [] => d
  | discarded :: rest =>
    { d with
      mutationJournal := rest
      oldestAvailableRevision := discarded.revision
      history := { d.history with discarded := d.history.discarded ++ [discarded] } }

/-- `while self.mutation_journal.len() > capacity { pop_front }` -/
def boundJournal (capacity : ℕ) : Dom := popFrontRecord^[d.mutationJournal.length - capacity] d

/-- the records of one operation are pushed under one new revision, then the journal is bounded -/
def pushMutations (mutations : List MutationKind) : Dom :=
  let revision := min (d.mutationRevision + 1) u64Max
  let records := mutations.map fun kind => { revision, kind : MutationRecord }
  boundJournal
    { d with
      mutationRevision := revision
      mutationJournal := d.mutationJournal ++ records
      history := { d.history with recorded := d.history.recorded ++ records } }
    d.mutationJournalCapacity

def recordMutationsIn (mutations : List MutationKind) : Option Dom :=
  if mutations.isEmpty then some d else d.applyFocusFixup.map fun d => d.pushMutations mutations

def setMutationJournalCapacityIn (capacity : ℕ) : Dom :=
  boundJournal { d with mutationJournalCapacity := capacity } capacity

/-- `mutations_since` -/
def mutationsSince (revision : DomRevision) : Except MutationHistoryError MutationBatch :=
  let current := d.mutationRevision
  if current < revision then .error (.revisionInFuture revision current)
  else if revision < d.oldestAvailableRevision then .error (.historyDiscarded revision d.oldestAvailableRevision)
  else .ok ⟨revision, current, d.mutationJournal.filter fun record => revision < record.revision⟩

end Dom

open Comp

/-- `record_mutations` -/
def recordMutations (mutations : List MutationKind) : DomM Unit := awaitModify fun d => d.recordMutationsIn mutations

/-- `set_mutation_journal_capacity` -/
def setMutationJournalCapacity (capacity : ℕ) : DomM Unit := modify fun d => d.setMutationJournalCapacityIn capacity

/-- `set_focused_element`: refused with `false` for a node that is no focusable area -/
def setFocusedElement (n : Option NodeId) : DomM Bool := do
  let accepted ← await fun d =>
    match n with
    | some target => d.isFocusableArea target
    | none => some true
  if accepted then
    modify fun d => { d with focusedArea := n }
    return true
  else return false

end Render
