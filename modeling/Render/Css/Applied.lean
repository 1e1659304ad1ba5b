/-
The declarations that apply to an element (`cascade_element_with_origins_impl` of `render-css/src/cascade.rs`).

- `applied`: the declarations of the rules that match, in the order of the sheets, then the presentational hints and the
  declarations of the `style` attribute.
- `contenders p`: the longhands among them that set the property p.

The cascade hands the contenders of a property to `select_cascaded_candidate` and nothing else (`cascade_get`).
-/
import Render.Css.Cascade
import Mathlib.Tactic

namespace Render.Css

open Render.Core

/-- the winner of a property -/
def CascadedStyle.get (style : CascadedStyle) (property : String) : Option CascadedValue :=
  (style.find? fun entry => entry.1 = property).map Prod.snd

/-! ## The declarations -/

/-- a declaration that applies to the element, and where it comes from -/
structure Applied where
  declaration : Declaration
  important : Bool
  origin : CascadeOrigin
  authored : Bool
  /-- the depth of its tree below the document, over shadow hosts -/
  depth : ℕ
  /-- a presentational hint, or a declaration of the `style` attribute -/
  attached : Bool
  source : ℕ
  layer : Option LayerName
  specificity : Specificity
  proximity : ℕ

section Applied

variable (d : Dom) {Container : Type} (answers : Answers Container) (includeStartingStyle : Bool)

/-- the declarations of a rule that matches -/
def appliedRule (sourceIndex : ℕ) (origin : CascadeOrigin) (depth : ℕ) (rule : StyleRule Container)
    (specificity : Specificity) (proximity : ℕ) : List Applied :=
  rule.declarations.map fun declaration =>
    { declaration, important := declaration.important, origin, authored := origin ≠ .userAgent, depth, attached := false,
      source := sourceIndex, layer := rule.layer, specificity, proximity }

/-- the declarations of the rules of a sheet that match -/
def appliedRules (sourceIndex : ℕ) (source : CascadeInput Container) (depth : ℕ) (element : NodeId)
    (context : MatchContext) : List Applied :=
  source.sheet.rules.flatMap fun rule =>
    match ruleMatch d answers includeStartingStyle element source.sheet.scopeOwner context rule with
    | none => []
    | some (specificity, proximity) => appliedRule sourceIndex source.origin depth rule specificity proximity

/-- the declarations of a sheet; none, where its tree does not reach the element -/
def appliedSource (element : NodeId) (context : MatchContext) (sourceIndex : ℕ) (source : CascadeInput Container) :
    List Applied :=
  match sourceContext d element context source with
  | none => []
  | some (matchContext, matchElement) =>
    appliedRules d answers includeStartingStyle sourceIndex source (treeDepth d (source.sheet.treeRoot.getD d.document))
      matchElement matchContext

/-- the declarations of the element itself -/
def appliedOwn (sources : ℕ) (origin : CascadeOrigin) (depth : ℕ) (specificity : Specificity)
    (declarations : List Declaration) : List Applied :=
  declarations.map fun declaration =>
    { declaration, important := declaration.important && origin = .author, origin, authored := true, depth,
      attached := true, source := sources, layer := none, specificity, proximity := unscoped }

/-- all declarations that apply, in their order of appearance -/
def applied (element : NodeId) (sources : List (CascadeInput Container)) (context : MatchContext)
    (uaDeclarations inlineDeclarations : List Declaration) : List Applied :=
  sources.zipIdx.flatMap (fun (source, sourceIndex) =>
    appliedSource d answers includeStartingStyle element context sourceIndex source) ++
    (appliedOwn sources.length .userAgent 0 .zero uaDeclarations ++
      appliedOwn sources.length .author (treeDepth d (d.treeRoot element)) inlineSpecificity inlineDeclarations)

end Applied

/-- a longhand that sets the property, with the place of its declaration among those that apply -/
structure Contender where
  applied : Applied
  value : String
  appearance : ℕ

variable {Container : Type}

/-- the longhands of a declaration that set the property -/
def settersOf (answers : Answers Container) (property : String) (a : Applied) (appearance : ℕ) : List Contender :=
  (answers.cascadedDeclaration a.declaration.name a.declaration.value).filterMap fun (name, value) =>
    if name = property then some ⟨a, value, appearance⟩ else none

/-- the longhands that set the property, where the first declaration appears at a place -/
def contendersFrom (answers : Answers Container) (property : String) (start : ℕ) (all : List Applied) : List Contender :=
  (all.zipIdx start).flatMap fun (a, appearance) => settersOf answers property a appearance

/-- the longhands that set the property -/
def contenders (answers : Answers Container) (property : String) (all : List Applied) : List Contender :=
  contendersFrom answers property 0 all

/-! ## Their candidates -/

/-- the candidate of a longhand of a declaration -/
def Applied.candidate (a : Applied) (orders : LayerOrders) (sourceOrder : ℕ) (value : String) : Candidate :=
  let priority : Priority :=
    { important := a.important
      origin := originRank a.origin a.important
      context := contextRank a.depth a.important
      layer := layerRank orders a.origin a.source a.layer a.important
      specificity := a.specificity
      proximity := a.proximity
      sourceOrder }
  { priority
    value :=
      { value, important := a.important, origin := a.origin, authored := a.authored, layer := a.layer,
        specificity := a.specificity, sourceOrder, priority }
    layerKey := a.layer.map (globalLayerKey · a.source) }

def Contender.candidate (c : Contender) (orders : LayerOrders) : Candidate :=
  c.applied.candidate orders (c.appearance + 1) c.value

/-- the cascaded value of a contender, should it win -/
def Contender.cascaded (c : Contender) (orders : LayerOrders) : CascadedValue := (c.candidate orders).value

/-- the longhands of a declaration become candidates -/
def enter (answers : Answers Container) (orders : LayerOrders) (candidates : Candidates) (a : Applied) : Candidates :=
  candidates.push (answers.cascadedDeclaration a.declaration.name a.declaration.value)
    (a.candidate orders candidates.next)

section Fold

variable (d : Dom) (answers : Answers Container) (includeStartingStyle : Bool) (orders : LayerOrders)

theorem declareRule_eq (sourceIndex : ℕ) (origin : CascadeOrigin) (depth : ℕ) (rule : StyleRule Container)
    (specificity : Specificity) (proximity : ℕ) (candidates : Candidates) :
    declareRule answers orders sourceIndex origin depth rule specificity proximity candidates =
      (appliedRule sourceIndex origin depth rule specificity proximity).foldl (enter answers orders) candidates := by
  unfold declareRule appliedRule
  rw [List.foldl_map]
  rfl

theorem declareOwn_eq (sources : ℕ) (origin : CascadeOrigin) (depth : ℕ) (specificity : Specificity)
    (declarations : List Declaration) (candidates : Candidates) :
    declareOwn answers orders sources origin depth specificity declarations candidates =
      (appliedOwn sources origin depth specificity declarations).foldl (enter answers orders) candidates := by
  unfold declareOwn appliedOwn
  rw [List.foldl_map]
  rfl

/-- a fold over the places of a list is a fold over the list -/
theorem foldl_range {α β : Type} {step : β → α → β} {byPlace : β → ℕ → β} (l : List α)
    (h : ∀ b i a, l[i]? = some a → byPlace b i = step b a) (b : β) :
    (List.range l.length).foldl byPlace b = l.foldl step b := by
  induction l generalizing b byPlace with
  | nil => rfl
  | cons a l ih =>
    rw [List.length_cons, List.range_succ_eq_map, List.foldl_cons, List.foldl_map, h b 0 a rfl]
    exact ih (fun b i x hx => h b (i + 1) x hx) (step b a)

theorem cascadeRules_eq (sourceIndex : ℕ) (source : CascadeInput Container) (depth : ℕ) (element : NodeId)
    (context : MatchContext) (candidates : Candidates) :
    cascadeRules d answers includeStartingStyle orders sourceIndex source depth element context
        (List.range source.sheet.rules.length) candidates =
      (appliedRules d answers includeStartingStyle sourceIndex source depth element context).foldl (enter answers orders)
        candidates := by
  unfold cascadeRules appliedRules
  rw [List.foldl_flatMap]
  refine foldl_range _ (fun candidates index rule hrule => ?_) candidates
  rw [hrule]
  dsimp only
  cases ruleMatch d answers includeStartingStyle element source.sheet.scopeOwner context rule with
  | none => rfl
  | some found => exact declareRule_eq answers orders sourceIndex source.origin depth rule found.1 found.2 candidates

theorem cascadeSource_eq (element : NodeId) (context : MatchContext) (sourceIndex : ℕ) (source : CascadeInput Container)
    (candidates : Candidates) :
    cascadeSource d answers includeStartingStyle none orders element context sourceIndex source candidates =
      (appliedSource d answers includeStartingStyle element context sourceIndex source).foldl (enter answers orders)
        candidates := by
  unfold cascadeSource appliedSource
  cases sourceContext d element context source with
  | none => rfl
  | some reached =>
    exact cascadeRules_eq d answers includeStartingStyle orders sourceIndex source _ reached.2 reached.1 candidates

end Fold

/-- the cascade enters the declarations that apply in order, and selects -/
theorem cascade_eq (d : Dom) (answers : Answers Container) (includeStartingStyle : Bool) (element : NodeId)
    (sources : List (CascadeInput Container)) (context : MatchContext) (uaDeclarations inlineDeclarations : List Declaration) :
    cascade d answers includeStartingStyle none element sources context uaDeclarations inlineDeclarations =
      ((applied d answers includeStartingStyle element sources context uaDeclarations inlineDeclarations).foldl
        (enter answers (collectLayerOrders sources)) ⟨.empty, 0⟩).byName.entries.filterMap fun (name, candidates) =>
          (selectCascadedCandidate answers.cssWideKeyword candidates).map (name, ·) := by
  unfold cascade applied
  dsimp only
  rw [declareOwn_eq, declareOwn_eq, List.foldl_append, List.foldl_append, List.foldl_flatMap]
  congr 6
  funext candidates source
  exact cascadeSource_eq d answers includeStartingStyle _ element context source.2 source.1 candidates

/-! ## The candidates of a property -/

theorem get_insert_append (byName : SortedMap String (List Candidate)) (name property : String) (candidate : Candidate) :
    ((byName.insert name ((byName.get name).getD [] ++ [candidate])).get property).getD [] =
      (byName.get property).getD [] ++ if name = property then [candidate] else [] := by
  by_cases hname : name = property
  · subst hname
    rw [SortedMap.get_insert_self, if_pos rfl, Option.getD_some]
  · rw [SortedMap.get_insert_ne (Ne.symm hname), if_neg hname, List.append_nil]

theorem get_push (longhands : List (String × String)) (property : String) (candidates : Candidates)
    (candidate : String → Candidate) :
    ((candidates.push longhands candidate).byName.get property).getD [] =
      (candidates.byName.get property).getD [] ++
        longhands.filterMap fun (name, value) => if name = property then some (candidate value) else none := by
  unfold Candidates.push
  dsimp only
  generalize candidates.byName = byName
  induction longhands generalizing byName with
  | nil => rw [List.foldl_nil, List.filterMap_nil, List.append_nil]
  | cons longhand longhands ih =>
    obtain ⟨name, value⟩ := longhand
    rw [List.foldl_cons, ih, get_insert_append, List.append_assoc]
    congr 1
    by_cases hname : name = property
    · simp [hname]
    · simp [hname]

/-- what the declarations put among the candidates of a property, while the counter of declarations does not saturate -/
theorem get_foldl_enter (answers : Answers Container) (orders : LayerOrders) (property : String) (all : List Applied)
    (candidates : Candidates) (hcount : candidates.sourceOrder + all.length < 2 ^ 64) :
    ((all.foldl (enter answers orders) candidates).byName.get property).getD [] =
      (candidates.byName.get property).getD [] ++
        (contendersFrom answers property candidates.sourceOrder all).map (·.candidate orders) := by
  induction all generalizing candidates with
  | nil => exact (List.append_nil _).symm
  | cons a all ih =>
    have hnext : candidates.next = candidates.sourceOrder + 1 := by
      rw [List.length_cons] at hcount
      exact Nat.min_eq_left (by omega)
    have hentered : (enter answers orders candidates a).sourceOrder = candidates.sourceOrder + 1 := hnext
    rw [List.foldl_cons, ih _ (by rw [hentered]; rw [List.length_cons] at hcount; omega), hentered]
    unfold enter contendersFrom
    rw [get_push, List.append_assoc, List.zipIdx_cons, List.flatMap_cons, List.map_append, hnext]
    congr 2
    unfold settersOf
    rw [List.map_filterMap]
    congr 1
    funext longhand
    by_cases hname : longhand.1 = property
    · simp only [hname, if_true, Option.map_some]
      rfl
    · simp only [hname, if_false, Option.map_none]

/-- the winner of a property is looked up among the selected ones -/
theorem get_selected (select : List Candidate → Option CascadedValue) (hselect : select [] = none)
    (byName : SortedMap String (List Candidate)) (property : String) :
    CascadedStyle.get (byName.entries.filterMap fun (name, candidates) => (select candidates).map (name, ·)) property =
      select ((byName.get property).getD []) := by
  have hnodup : (byName.entries.map Prod.fst).Nodup := SortedMap.keys_nodup
  unfold SortedMap.get CascadedStyle.get
  revert hnodup
  generalize byName.entries = entries
  induction entries with
  | nil => exact fun _ => hselect.symm
  | cons entry entries ih =>
    obtain ⟨name, candidates⟩ := entry
    intro hnodup
    obtain ⟨hfresh, hrest⟩ := List.nodup_cons.1 hnodup
    by_cases hname : name = property
    · subst hname
      have hnone : entries.find? (fun entry => decide (entry.1 = name)) = none := by
        refine List.find?_eq_none.2 fun entry hentry => ?_
        have hname : entry.1 ∈ entries.map Prod.fst := List.mem_map_of_mem hentry
        have hne : entry.1 ≠ name := fun heq => hfresh (by rwa [heq] at hname)
        simpa using hne
      have hlater := ih hrest
      rw [hnone] at hlater
      rw [List.find?_cons_of_pos (by simp)]
      cases hfound : select candidates with
      | none =>
        rw [List.filterMap_cons_none (by dsimp only; rw [hfound]; rfl), hlater]
        exact hselect.trans hfound.symm
      | some value =>
        rw [List.filterMap_cons_some (b := (name, value)) (by dsimp only; rw [hfound]; rfl),
          List.find?_cons_of_pos (by simp)]
        exact hfound.symm
    · rw [List.find?_cons_of_neg (by simpa using hname), ← ih hrest]
      cases hfound : select candidates with
      | none => rw [List.filterMap_cons_none (by dsimp only; rw [hfound]; rfl)]
      | some value =>
        rw [List.filterMap_cons_some (b := (name, value)) (by dsimp only; rw [hfound]; rfl),
          List.find?_cons_of_neg (by simpa using hname)]

/-- **The cascade selects among the contenders.** -/
theorem cascade_get (d : Dom) (answers : Answers Container) (includeStartingStyle : Bool) (element : NodeId)
    (sources : List (CascadeInput Container)) (context : MatchContext) (uaDeclarations inlineDeclarations : List Declaration)
    (property : String)
    (hcount : (applied d answers includeStartingStyle element sources context uaDeclarations
      inlineDeclarations).length < 2 ^ 64) :
    CascadedStyle.get (cascade d answers includeStartingStyle none element sources context uaDeclarations
        inlineDeclarations) property =
      selectCascadedCandidate answers.cssWideKeyword
        ((contenders answers property (applied d answers includeStartingStyle element sources context uaDeclarations
          inlineDeclarations)).map (·.candidate (collectLayerOrders sources))) := by
  have hempty : selectCascadedCandidate answers.cssWideKeyword [] = none := by
    unfold selectCascadedCandidate
    rw [List.mergeSort_nil]
    rfl
  rw [cascade_eq, get_selected _ hempty, get_foldl_enter _ _ _ _ _ (by rwa [Nat.zero_add])]
  rw [SortedMap.get_empty]
  rfl

end Render.Css
