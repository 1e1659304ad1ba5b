/-
The cascade of one element (`render-css/src/cascade.rs`), with a rule index or without one.

What a media query, a container condition, the expansion of a shorthand and a CSS-wide keyword come to is asked of `Answers`:
they read lengths, the layout of the last pass and the tokenizer, and the cascade calls them alike in both runs. The counters
of the index that only a debug report reads are left out.
-/
import Render.Core.SortedMap
import Render.Css.Matching
import Mathlib.Data.String.Basic
import Mathlib.Data.Finset.Sort

namespace Render.Css

open Render.Core

/-! ## Style sheets -/

inductive CascadeOrigin
  | userAgent
  | user
  | author
  deriving DecidableEq

inductive LayerName
  | named (name : List String)
  | anonymous (id : ℕ)
  deriving DecidableEq

inductive CssWideKeyword
  | inherit
  | initial
  | unset
  | revert
  | revertLayer
  deriving DecidableEq

structure Declaration where
  name : String
  value : String
  important : Bool

/-- one `@scope` block -/
structure Scope where
  start : Option SelectorList
  stop : Option SelectorList

structure StyleRule (Container : Type) where
  selectors : SelectorList
  declarations : List Declaration
  layer : Option LayerName
  media : List String
  container : List Container
  scopes : List Scope
  startingStyle : Bool

structure StyleSheet (Container : Type) where
  rules : List (StyleRule Container)
  layerOrder : List LayerName
  scopeOwner : Option NodeId
  treeRoot : Option NodeId

structure CascadeInput (Container : Type) where
  sheet : StyleSheet Container
  origin : CascadeOrigin

structure Answers (Container : Type) where
  /-- `media_query_list_matches`, in the context of the cascade -/
  media : String → Bool
  /-- `matches_with_style`, for the element of the cascade -/
  container : Container → Bool
  /-- `cascaded_declaration`: the longhands of a declaration -/
  cascadedDeclaration : String → String → List (String × String)
  /-- `css_wide_keyword` -/
  cssWideKeyword : String → Option CssWideKeyword

/-! ## Ranks -/

inductive GlobalLayerKey
  | named (name : List String)
  | anonymous (source id : ℕ)
  deriving DecidableEq

/-- `global_layer_key` -/
def globalLayerKey (layer : LayerName) (source : ℕ) : GlobalLayerKey :=
  match layer with
  | .named name => .named name
  | .anonymous id => .anonymous source id

abbrev LayerOrders := CascadeOrigin → List GlobalLayerKey

/-- `collect_layer_orders` -/
def collectLayerOrders {Container : Type} (sources : List (CascadeInput Container)) : LayerOrders := fun origin =>
  sources.zipIdx.foldl (fun order (source, index) =>
    if source.origin = origin then
      source.sheet.layerOrder.foldl (fun order layer =>
        if order.contains (globalLayerKey layer index) then order else order ++ [globalLayerKey layer index]) order
    else order) []

/-- `layer_rank` -/
def layerRank (orders : LayerOrders) (origin : CascadeOrigin) (source : ℕ) (layer : Option LayerName) (important : Bool) :
    ℕ :=
  match layer with
  | none => if important then 0 else (orders origin).length
  | some layer =>
    let index := ((orders origin).idxOf? (globalLayerKey layer source)).getD (orders origin).length
    if important then (orders origin).length - index else index

/-- `origin_rank` -/
def originRank (origin : CascadeOrigin) (important : Bool) : ℕ :=
  match origin with
  | .user => 1
  | .userAgent => if important then 2 else 0
  | .author => if important then 0 else 2

/-- `context_rank` -/
def contextRank (treeDepth : ℕ) (important : Bool) : ℕ := if important then treeDepth else 255 - treeDepth

/-- `u32::MAX`: the proximity of a rule that is not scoped -/
def unscoped : ℕ := 2 ^ 32 - 1

structure Priority where
  important : Bool
  origin : ℕ
  context : ℕ
  layer : ℕ
  specificity : Specificity
  proximity : ℕ
  sourceOrder : ℕ
  deriving DecidableEq

/-- the fields in the order they are compared; a smaller proximity is a larger priority -/
def Priority.fields (priority : Priority) : List ℕ :=
  [priority.important.toNat, priority.origin, priority.context, priority.layer, priority.specificity.ids,
    priority.specificity.classes, priority.specificity.types, unscoped - priority.proximity, priority.sourceOrder]

structure CascadedValue where
  value : String
  important : Bool
  origin : CascadeOrigin
  authored : Bool
  layer : Option LayerName
  specificity : Specificity
  sourceOrder : ℕ
  priority : Priority
  deriving DecidableEq

structure Candidate where
  priority : Priority
  value : CascadedValue
  layerKey : Option GlobalLayerKey

/-- the candidates of each property, and the order of the last declaration -/
structure Candidates where
  byName : SortedMap String (List Candidate)
  sourceOrder : ℕ

/-- a declaration is next in order (`u64::saturating_add`) -/
def Candidates.next (candidates : Candidates) : ℕ := Nat.min (candidates.sourceOrder + 1) (2 ^ 64 - 1)

/-- the longhands of a declaration are candidates -/
def Candidates.push (candidates : Candidates) (longhands : List (String × String)) (candidate : String → Candidate) :
    Candidates where
  byName := longhands.foldl (fun byName (name, value) =>
    byName.insert name ((byName.get name).getD [] ++ [candidate value])) candidates.byName
  sourceOrder := candidates.next

/-- the candidates in falling priority, until one holds: `revert` and `revert-layer` roll back an origin or a layer -/
def firstHolding (keyword : String → Option CssWideKeyword) :
    List Candidate → List CascadeOrigin → List (CascadeOrigin × Bool × Option GlobalLayerKey) → Option CascadedValue
  | [], _, _ => none
  | candidate :: rest, origins, layers =>
    let layer := (candidate.value.origin, candidate.value.important, candidate.layerKey)
    if origins.contains candidate.value.origin || layers.contains layer then firstHolding keyword rest origins layers
    else match keyword candidate.value.value with
      | some .revert => firstHolding keyword rest (candidate.value.origin :: origins) layers
      | some .revertLayer => firstHolding keyword rest origins (layer :: layers)
      | _ => some candidate.value

/-- `select_cascaded_candidate` -/
def selectCascadedCandidate (keyword : String → Option CssWideKeyword) (candidates : List Candidate) :
    Option CascadedValue :=
  firstHolding keyword (candidates.mergeSort fun a b => !decide (a.priority.fields < b.priority.fields)) [] []

/-- the winner of each property -/
abbrev CascadedStyle := List (String × CascadedValue)

/-! ## The rule index -/

/-- the rules of one pseudo-element context: those with a key, and those without one -/
structure ContextBuckets where
  keyed : SubjectKey → List ℕ
  universal : List ℕ

def ContextBuckets.empty : ContextBuckets := ⟨fun _ => [], []⟩

/-- a rule goes to the end of a bucket, once: rules arrive in order -/
def pushRule (rules : List ℕ) (rule : ℕ) : List ℕ := if rules.getLast? = some rule then rules else rules ++ [rule]

/-- `ContextBuckets::insert` -/
def ContextBuckets.insert (buckets : ContextBuckets) (rule : ℕ) (key : SubjectKey) : ContextBuckets :=
  { buckets with keyed := Function.update buckets.keyed key (pushRule (buckets.keyed key) rule) }

/-- the buckets of each pseudo-element context; ordinary elements have the empty name -/
abbrev RuleBuckets := String → ContextBuckets

/-- a selector of a rule is entered under each of its keys, or with those that have none -/
def RuleBuckets.insertSelector (buckets : RuleBuckets) (rule : ℕ) (selector : ComplexSelector) : RuleBuckets :=
  let enter (pseudo : String) : RuleBuckets :=
    Function.update buckets pseudo
      (match selector.subjectKeys with
      | [] => { buckets pseudo with universal := pushRule (buckets pseudo).universal rule }
      | keys => keys.foldl (fun context key => context.insert rule key) (buckets pseudo))
  match selector.subjectPseudo with
  | .never => buckets
  | .none => enter ""
  | .named name => enter (toAsciiLowercase name)

structure CascadeRuleIndex where
  sources : List RuleBuckets
  layerOrders : LayerOrders

/-- the buckets of one sheet -/
def RuleBuckets.ofSheet {Container : Type} (sheet : StyleSheet Container) : RuleBuckets :=
  sheet.rules.zipIdx.foldl (fun buckets (rule, index) =>
    rule.selectors.foldl (fun buckets selector => buckets.insertSelector index selector) buckets) fun _ => .empty

/-- `CascadeRuleIndex::new` -/
def CascadeRuleIndex.new {Container : Type} (sources : List (CascadeInput Container)) : CascadeRuleIndex where
  sources := sources.map fun source => .ofSheet source.sheet
  layerOrders := collectLayerOrders sources

/-- `extend_for`: a name is looked up in lower case -/
def extendFor (name : String) (lookup : String → List ℕ) : List ℕ :=
  if name.toList.any Char.isUpper then lookup (toAsciiLowercase name) else lookup name

/-- the rules that an element may match -/
def ContextBuckets.candidates (context : ContextBuckets) (element : Option ElementData) : List ℕ :=
  context.universal ++
    match element with
    | none => []
    | some data =>
      extendFor data.localName (fun name => context.keyed (.type name)) ++
        (match attributeValue data "id" with
        | some id => if id ≠ "" then extendFor id fun name => context.keyed (.id name) else []
        | none => []) ++
        (match attributeValue data "class" with
        | some classes =>
          (splitAsciiWhitespace classes).flatMap fun name => extendFor name fun name => context.keyed (.class name)
        | none => []) ++
        data.attributes.flatMap fun own => extendFor own.localName fun name => context.keyed (.attribute name)

/-- `CascadeRuleIndex::candidates`, sorted and without repetitions -/
def CascadeRuleIndex.candidates (index : CascadeRuleIndex) (source : ℕ) (pseudo : String) (element : Option ElementData) :
    List ℕ :=
  match index.sources[source]? with
  | none => []
  | some buckets => ((buckets pseudo).candidates element).toFinset.sort (· ≤ ·)

/-! ## Scopes -/

section Cascade

variable (d : Dom)

/-- `ancestor_chain`: an element and the elements above it, up to the host of its shadow tree; in the document tree the
document is last -/
def ancestorChainFrom (treeRoot : NodeId) (host : Option NodeId) : ℕ → NodeId → List NodeId
  | 0, _ => []
  | fuel + 1, current =>
    current ::
      if some current = host then []
      else match d.parent current with
        | none => []
        | some parent =>
          if isElement d parent then ancestorChainFrom treeRoot host fuel parent
          else if parent = treeRoot then
            match host with
            | some host => ancestorChainFrom treeRoot (some host) fuel host
            | none => [parent]
          else []

def ancestorChain (element : NodeId) : List NodeId :=
  ancestorChainFrom d (d.treeRoot element) (d.shadowHost (d.treeRoot element)) (d.passes + 1) element

/-- `matches_with_scope` -/
def matchesWithScope (n : NodeId) (selectors : SelectorList) (context : MatchContext) (scope : Option NodeId) : Bool :=
  matchesSelectorList d n selectors { context with scope := scope, pseudoElement := none, slottedElement := none }

/-- `implicit_scope_root` -/
def implicitScopeRoot (owner : Option NodeId) : NodeId :=
  match owner with
  | none => d.document
  | some owner =>
    match (d.parent owner).filter (isElement d) with
    | some parent => parent
    | none => (d.shadowHost (d.treeRoot owner)).getD (d.treeRoot owner)

/-- `element_in_scope`: below the root, and below no limit of it -/
def elementInScope (element root : NodeId) (stop : Option SelectorList) (context : MatchContext) : Bool :=
  (ancestorChain d element).contains root &&
    match stop with
    | none => true
    | some stop =>
      ((element :: visited d d.parent element).takeWhile (· ≠ root)).all fun current =>
        !matchesWithScope d current stop context (some root)

/-- `resolve_scope_level`: the least distance of an innermost root. Past a distance of zero nothing is smaller, which is
where the source stops. -/
def resolveScopeLevel (element : NodeId) (owner : Option NodeId) (context : MatchContext) (chain : List NodeId) :
    List Scope → Option NodeId → Option ℕ → Option ℕ
  | [], _, _ => none
  | scope :: inner, outerRoot, outerIndex =>
    let limit := outerIndex.getD (chain.length - 1)
    let proximities := (chain.take (limit + 1)).zipIdx.filterMap fun (root, depth) =>
      let starts := match scope.start with
        | some start => matchesWithScope d root start context outerRoot
        | none =>
          root = implicitScopeRoot d owner && outerRoot.all fun outer => (ancestorChain d root).contains outer
      if starts && elementInScope d element root scope.stop context then
        if inner.isEmpty then some depth
        else resolveScopeLevel element owner context chain inner (some root) (some depth)
      else none
    proximities.min?

inductive RuleScope
  | unscoped
  | inScope (root : NodeId) (proximity : ℕ)
  | outOfScope

/-- `resolve_rule_scope` -/
def resolveRuleScope {Container : Type} (element : NodeId) (rule : StyleRule Container) (owner : Option NodeId)
    (context : MatchContext) : RuleScope :=
  if rule.scopes.isEmpty then .unscoped
  else match resolveScopeLevel d element owner context (ancestorChain d element) rule.scopes none none with
    | some proximity =>
      match (ancestorChain d element)[proximity]? with
      | some root => .inScope root proximity
      | none => .outOfScope
    | none => .outOfScope

/-! ## The cascade -/

/-- `tree_depth`; a `u8`, at most 255 -/
def treeDepthFrom : ℕ → NodeId → ℕ
  | 0, _ => 0
  | fuel + 1, root =>
    match d.shadowHost root with
    | none => 0
    | some host => treeDepthFrom fuel (d.treeRoot host) + 1

def treeDepth (root : NodeId) : ℕ := treeDepthFrom d 255 root

/-- `slotted_slot_in_tree`: along the assignments, until a slot of the tree -/
def slottedSlotFrom (tree : NodeId) : ℕ → List NodeId → NodeId → Option NodeId
  | 0, _, _ => none
  | fuel + 1, seen, candidate =>
    if seen.contains candidate then none
    else match d.assignedSlot candidate with
      | none => none
      | some slot => if d.treeRoot slot = tree then some slot else slottedSlotFrom tree fuel (candidate :: seen) slot

def slottedSlotInTree (element tree : NodeId) : Option NodeId := slottedSlotFrom d tree (d.passes + 1) [] element

section Rules

variable {Container : Type} (answers : Answers Container) (includeStartingStyle : Bool)

/-- whether a rule applies to an element, with its specificity and the distance of its scope -/
def ruleMatch (element : NodeId) (owner : Option NodeId) (context : MatchContext) (rule : StyleRule Container) :
    Option (Specificity × ℕ) :=
  if rule.startingStyle && !includeStartingStyle then none
  else if !rule.media.all answers.media then none
  else if !rule.container.all answers.container then none
  else match resolveRuleScope d element rule owner context with
    | .outOfScope => none
    | .unscoped => (matchingSpecificity d element rule.selectors context).map (·, unscoped)
    | .inScope root proximity =>
      (matchingSpecificity d element rule.selectors { context with scope := some root }).map (·, proximity)

/-- the declarations of a rule that matches are candidates -/
def declareRule (orders : LayerOrders) (sourceIndex : ℕ) (origin : CascadeOrigin) (depth : ℕ) (rule : StyleRule Container)
    (specificity : Specificity) (proximity : ℕ) (candidates : Candidates) : Candidates :=
  rule.declarations.foldl (fun candidates declaration =>
    let priority : Priority :=
      { important := declaration.important
        origin := originRank origin declaration.important
        context := contextRank depth declaration.important
        layer := layerRank orders origin sourceIndex rule.layer declaration.important
        specificity, proximity
        sourceOrder := candidates.next }
    candidates.push (answers.cascadedDeclaration declaration.name declaration.value) fun value =>
      { priority
        value :=
          { value, important := declaration.important, origin, authored := origin ≠ .userAgent, layer := rule.layer,
            specificity, sourceOrder := candidates.next, priority }
        layerKey := rule.layer.map (globalLayerKey · sourceIndex) }) candidates

/-- the rules of a source in order; one that does not match leaves everything as it is -/
def cascadeRules (orders : LayerOrders) (sourceIndex : ℕ) (source : CascadeInput Container) (depth : ℕ) (element : NodeId)
    (context : MatchContext) (rules : List ℕ) (candidates : Candidates) : Candidates :=
  rules.foldl (fun candidates index =>
    match source.sheet.rules[index]? with
    | none => candidates
    | some rule =>
      match ruleMatch d answers includeStartingStyle element source.sheet.scopeOwner context rule with
      | none => candidates
      | some (specificity, proximity) =>
        declareRule answers orders sourceIndex source.origin depth rule specificity proximity candidates) candidates

/-- the context in which a source is matched, and the element its rules are matched against; `none` when its tree does not
reach the element -/
def sourceContext (element : NodeId) (context : MatchContext) (source : CascadeInput Container) :
    Option (MatchContext × NodeId) :=
  let elementTree := d.treeRoot element
  let sheetTree := source.sheet.treeRoot.getD d.document
  if source.origin ≠ .author then some (context, element)
  else if sheetTree = elementTree then
    if (d.shadowHost elementTree).isSome then
      some ({ context with
        treeRoot := some elementTree, shadowHost := d.shadowHost elementTree, slottedElement := none }, element)
    else some (context, element)
  else if d.shadowRoot element = some sheetTree then
    some ({ context with treeRoot := some sheetTree, shadowHost := some element, slottedElement := none }, element)
  else if context.pseudoElement.isSome then none
  else match slottedSlotInTree d element sheetTree with
    | none => none
    | some slot =>
      some ({ context with
        treeRoot := some sheetTree, shadowHost := d.shadowHost sheetTree, slottedElement := some element }, slot)

/-- one source of the cascade -/
def cascadeSource (index : Option CascadeRuleIndex) (orders : LayerOrders) (element : NodeId) (context : MatchContext)
    (sourceIndex : ℕ) (source : CascadeInput Container) (candidates : Candidates) : Candidates :=
  match sourceContext d element context source with
  | none => candidates
  | some (matchContext, matchElement) =>
    let rules := match index with
      | some index =>
        index.candidates sourceIndex (context.pseudoElement.getD "") (d.elementOf matchElement)
      | none => List.range source.sheet.rules.length
    cascadeRules d answers includeStartingStyle orders sourceIndex source
      (treeDepth d (source.sheet.treeRoot.getD d.document)) matchElement matchContext rules candidates

/-- the declarations of the element itself: presentational hints and the `style` attribute -/
def declareOwn (orders : LayerOrders) (sources : ℕ) (origin : CascadeOrigin) (depth : ℕ) (specificity : Specificity)
    (declarations : List Declaration) (candidates : Candidates) : Candidates :=
  declarations.foldl (fun candidates declaration =>
    let important := declaration.important && origin = .author
    let priority : Priority :=
      { important
        origin := originRank origin important
        context := contextRank depth important
        layer := layerRank orders origin sources none important
        specificity
        proximity := unscoped
        sourceOrder := candidates.next }
    candidates.push (answers.cascadedDeclaration declaration.name declaration.value) fun value =>
      { priority
        value :=
          { value, important, origin, authored := true, layer := none, specificity, sourceOrder := candidates.next,
            priority }
        layerKey := none }) candidates

/-- the specificity of the `style` attribute -/
def inlineSpecificity : Specificity := ⟨2 ^ 32 - 1, 2 ^ 32 - 1, 2 ^ 32 - 1⟩

/-- `cascade_element_with_origins_impl` -/
def cascade (index : Option CascadeRuleIndex) (element : NodeId) (sources : List (CascadeInput Container))
    (context : MatchContext) (uaDeclarations inlineDeclarations : List Declaration) : CascadedStyle :=
  let orders := match index with
    | some index => index.layerOrders
    | none => collectLayerOrders sources
  let fromRules := sources.zipIdx.foldl (fun candidates (source, sourceIndex) =>
    cascadeSource d answers includeStartingStyle index orders element context sourceIndex source candidates)
    ⟨.empty, 0⟩
  let hinted := declareOwn answers orders sources.length .userAgent 0 .zero uaDeclarations fromRules
  let declared := declareOwn answers orders sources.length .author (treeDepth d (d.treeRoot element)) inlineSpecificity
    inlineDeclarations hinted
  declared.byName.entries.filterMap fun (name, candidates) =>
    (selectCascadedCandidate answers.cssWideKeyword candidates).map (name, ·)

end Rules

end Cascade

end Render.Css
