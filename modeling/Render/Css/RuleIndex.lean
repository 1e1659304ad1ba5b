/-
The rule index and the cascade (`CascadeRuleIndex`, `cascade_element_with_origins_impl`).

A rule is entered under the keys of each of its selectors, and an element looks up what it carries. A rule that does not match
leaves the cascade as it is, so the index changes nothing where every rule that matches is looked up
(`cascadeRules_candidates`); and a matching rule is looked up where its selectors are covered by their keys
(`Render.Css.SubjectKeys`).
-/
import Render.Css.Cascade
import Render.Css.SubjectKeys

namespace Render.Css

open Render.Core

/-! ## Lookups -/

theorem toLower_of_not_isUpper {c : Char} (h : ¬c.isUpper = true) : c.toLower = c := by
  unfold Char.isUpper at h
  rw [decide_eq_true_eq] at h
  unfold Char.toLower
  rw [dif_neg h]

/-- a lookup finds what is under the name in lower case -/
theorem extendFor_eq (name : String) (lookup : String → List ℕ) :
    extendFor name lookup = lookup (toAsciiLowercase name) := by
  unfold extendFor
  split
  · rfl
  · rename_i hupper
    have hlower : name.toList.map Char.toLower = name.toList := by
      have hchars : ∀ c ∈ name.toList, c.toLower = id c := fun c hc =>
        toLower_of_not_isUpper fun hc' => hupper (List.any_eq_true.2 ⟨c, hc, hc'⟩)
      rw [List.map_congr_left hchars, List.map_id]
    rw [toAsciiLowercase, hlower, String.ofList_toList]

/-- a rule under a key that the element carries is a candidate -/
theorem mem_candidates_of_carries {context : ContextBuckets} {data : ElementData} {key : SubjectKey} {rule : ℕ}
    (hcarries : Carries data key) (hrule : rule ∈ context.keyed key) : rule ∈ context.candidates (some data) := by
  simp only [ContextBuckets.candidates, List.mem_append, List.mem_flatMap, extendFor_eq]
  right
  cases key with
  | type name =>
    obtain rfl := hcarries
    exact .inl (.inl (.inl hrule))
  | id name =>
    obtain ⟨id, hid, hne, rfl⟩ := hcarries
    refine .inl (.inl (.inr ?_))
    simpa [hid, hne] using hrule
  | «class» name =>
    obtain ⟨classes, hclasses, own, hown, rfl⟩ := hcarries
    refine .inl (.inr ?_)
    simp only [hclasses, List.mem_flatMap]
    exact ⟨own, hown, hrule⟩
  | «attribute» name =>
    obtain ⟨own, hown, rfl⟩ := hcarries
    exact .inr ⟨own, hown, hrule⟩

theorem mem_candidates_of_universal {context : ContextBuckets} {element : Option ElementData} {rule : ℕ}
    (hrule : rule ∈ context.universal) : rule ∈ context.candidates element := List.mem_append_left _ hrule

/-! ## Entries -/

/-- the buckets have what the others have -/
def Grows (before after : RuleBuckets) : Prop :=
  ∀ pseudo rule, (rule ∈ (before pseudo).universal → rule ∈ (after pseudo).universal) ∧
    ∀ key, rule ∈ (before pseudo).keyed key → rule ∈ (after pseudo).keyed key

/-- the name of the bucket that a selector is entered in -/
def bucketName : SubjectPseudo → Option String
  | .none => some ""
  | .named name => some (toAsciiLowercase name)
  | .never => none

/-- a rule is under each key of a selector, or with the rules without one -/
def Entered (buckets : RuleBuckets) (rule : ℕ) (selector : ComplexSelector) : Prop :=
  ∀ pseudo, bucketName selector.subjectPseudo = some pseudo →
    (selector.subjectKeys = [] → rule ∈ (buckets pseudo).universal) ∧
    ∀ key ∈ selector.subjectKeys, rule ∈ (buckets pseudo).keyed key

theorem mem_pushRule_of_mem {rules : List ℕ} {rule other : ℕ} (h : other ∈ rules) : other ∈ pushRule rules rule := by
  unfold pushRule
  split
  · exact h
  · exact List.mem_append_left _ h

theorem mem_pushRule (rules : List ℕ) (rule : ℕ) : rule ∈ pushRule rules rule := by
  unfold pushRule
  split
  · rename_i hlast
    exact List.mem_of_getLast? hlast
  · exact List.mem_append_right _ (List.mem_singleton_self rule)

theorem mem_insert_of_mem {context : ContextBuckets} {rule other : ℕ} {key key' : SubjectKey}
    (h : other ∈ context.keyed key') : other ∈ (context.insert rule key).keyed key' := by
  unfold ContextBuckets.insert
  by_cases hkey : key' = key
  · subst hkey
    simpa using mem_pushRule_of_mem h
  · simpa [Function.update_of_ne hkey] using h

theorem mem_insert (context : ContextBuckets) (rule : ℕ) (key : SubjectKey) :
    rule ∈ (context.insert rule key).keyed key := by
  simpa [ContextBuckets.insert] using mem_pushRule (context.keyed key) rule

/-- entering a rule under several keys -/
theorem insertKeys_spec (rule : ℕ) (keys : List SubjectKey) (context : ContextBuckets) :
    (keys.foldl (fun context key => context.insert rule key) context).universal = context.universal ∧
      (∀ key other, other ∈ context.keyed key →
        other ∈ (keys.foldl (fun context key => context.insert rule key) context).keyed key) ∧
      ∀ key ∈ keys, rule ∈ (keys.foldl (fun context key => context.insert rule key) context).keyed key := by
  induction keys generalizing context with
  | nil => exact ⟨rfl, fun _ _ h => h, fun key h => absurd h List.not_mem_nil⟩
  | cons first rest ih =>
    obtain ⟨huniversal, hkept, hentered⟩ := ih (context.insert rule first)
    refine ⟨huniversal, fun key other h => hkept key other (mem_insert_of_mem h), fun key hkey => ?_⟩
    rcases List.mem_cons.1 hkey with rfl | hkey
    · exact hkept key rule (mem_insert context rule key)
    · exact hentered key hkey

/-- the buckets of one context after a selector is entered -/
def enterSelector (context : ContextBuckets) (rule : ℕ) (keys : List SubjectKey) : ContextBuckets :=
  match keys with
  | [] => { context with universal := pushRule context.universal rule }
  | keys => keys.foldl (fun context key => context.insert rule key) context

theorem enterSelector_spec (context : ContextBuckets) (rule : ℕ) (keys : List SubjectKey) :
    (∀ other ∈ context.universal, other ∈ (enterSelector context rule keys).universal) ∧
      (∀ key other, other ∈ context.keyed key → other ∈ (enterSelector context rule keys).keyed key) ∧
      (keys = [] → rule ∈ (enterSelector context rule keys).universal) ∧
      ∀ key ∈ keys, rule ∈ (enterSelector context rule keys).keyed key := by
  cases keys with
  | nil =>
    exact ⟨fun _ h => mem_pushRule_of_mem h, fun _ _ h => h, fun _ => mem_pushRule _ _,
      fun key h => absurd h List.not_mem_nil⟩
  | cons first rest =>
    obtain ⟨huniversal, hkept, hentered⟩ := insertKeys_spec rule (first :: rest) context
    refine ⟨fun other h => ?_, hkept, fun h => absurd h (List.cons_ne_nil _ _), hentered⟩
    unfold enterSelector
    rwa [huniversal]

theorem insertSelector_eq (buckets : RuleBuckets) (rule : ℕ) (selector : ComplexSelector) :
    buckets.insertSelector rule selector =
      match bucketName selector.subjectPseudo with
      | none => buckets
      | some pseudo => Function.update buckets pseudo (enterSelector (buckets pseudo) rule selector.subjectKeys) := by
  unfold RuleBuckets.insertSelector
  cases selector.subjectPseudo <;> rfl

theorem insertSelector_grows (buckets : RuleBuckets) (rule : ℕ) (selector : ComplexSelector) :
    Grows buckets (buckets.insertSelector rule selector) := by
  intro pseudo other
  rw [insertSelector_eq]
  cases hname : bucketName selector.subjectPseudo with
  | none => exact ⟨id, fun _ => id⟩
  | some name =>
    obtain ⟨huniversal, hkept, -, -⟩ := enterSelector_spec (buckets name) rule selector.subjectKeys
    dsimp only
    by_cases hpseudo : pseudo = name
    · subst hpseudo
      rw [Function.update_self]
      exact ⟨huniversal other, fun key => hkept key other⟩
    · rw [Function.update_of_ne hpseudo]
      exact ⟨id, fun _ => id⟩

theorem insertSelector_entered (buckets : RuleBuckets) (rule : ℕ) (selector : ComplexSelector) :
    Entered (buckets.insertSelector rule selector) rule selector := by
  intro pseudo hname
  obtain ⟨-, -, huniversal, hkeyed⟩ := enterSelector_spec (buckets pseudo) rule selector.subjectKeys
  rw [insertSelector_eq, hname]
  dsimp only
  rw [Function.update_self]
  exact ⟨huniversal, hkeyed⟩

theorem Entered.mono {before after : RuleBuckets} {rule : ℕ} {selector : ComplexSelector}
    (h : Entered before rule selector) (hgrows : Grows before after) : Entered after rule selector := by
  intro pseudo hname
  obtain ⟨huniversal, hkeyed⟩ := h pseudo hname
  exact ⟨fun hnone => (hgrows pseudo rule).1 (huniversal hnone),
    fun key hkey => (hgrows pseudo rule).2 key (hkeyed key hkey)⟩

/-- a fold reaches what the step for one of its elements enters and every step keeps -/
theorem foldl_reaches {α β : Type} {step : β → α → β} (P : β → Prop) {x : α} {l : List α} (hx : x ∈ l)
    (enters : ∀ b, P (step b x)) (keeps : ∀ b y, P b → P (step b y)) (b : β) : P (l.foldl step b) := by
  have hkept (l : List α) (b : β) (hb : P b) : P (l.foldl step b) := by
    induction l generalizing b with
    | nil => exact hb
    | cons y l ih => exact ih _ (keeps b y hb)
  induction l generalizing b with
  | nil => exact absurd hx List.not_mem_nil
  | cons y l ih =>
    rcases List.mem_cons.1 hx with rfl | hx
    · exact hkept l _ (enters b)
    · exact ih hx _

/-- every rule of a sheet is entered for each of its selectors -/
theorem ofSheet_entered {Container : Type} {sheet : StyleSheet Container} {index : ℕ} {rule : StyleRule Container}
    {selector : ComplexSelector} (hrule : sheet.rules[index]? = some rule) (hselector : selector ∈ rule.selectors) :
    Entered (.ofSheet sheet) index selector := by
  have hselectors (rule : StyleRule Container) (other : ℕ) (buckets : RuleBuckets)
      (h : Entered buckets index selector) :
      Entered (rule.selectors.foldl (fun buckets selector => buckets.insertSelector other selector) buckets) index
        selector := by
    induction rule.selectors generalizing buckets with
    | nil => exact h
    | cons first rest ih => exact ih _ (h.mono (insertSelector_grows buckets other first))
  unfold RuleBuckets.ofSheet
  apply foldl_reaches (Entered · index selector) (x := (rule, index)) (List.mem_zipIdx_iff_getElem?.2 hrule)
  · intro buckets
    apply foldl_reaches (Entered · index selector) hselector
    · exact fun buckets => insertSelector_entered buckets index selector
    · exact fun buckets other h => h.mono (insertSelector_grows buckets index other)
  · exact fun buckets entry h => hselectors entry.1 entry.2 buckets h

/-! ## What is looked up -/

section Lookup

variable {d : Dom} {Container : Type}

/-- the pseudo-element of a context is written as the buckets are named, and is not the alias of a slotted element -/
def PlainPseudo (context : MatchContext) : Prop :=
  ∀ name, context.pseudoElement = some name → toAsciiLowercase name = name ∧ name ≠ "slotted"

theorem matchesPseudoElement_bucket {pseudoElement : Option PseudoElementSelector} {context : MatchContext}
    (hcontext : PlainPseudo context) (h : matchesPseudoElement d pseudoElement context = true)
    {selector : ComplexSelector} (hsubject : selector.subject.pseudoElement = pseudoElement) :
    bucketName selector.subjectPseudo = some (context.pseudoElement.getD "") := by
  have hgenerated {name : Identifier} {argument : Option String} {slotted : Option SelectorList}
      (helement : pseudoElement = some (.mk name argument slotted)) (hargument : argument.isNone = true)
      (hname : context.pseudoElement.any (eqIgnoreAsciiCase name) = true) :
      bucketName selector.subjectPseudo = some (context.pseudoElement.getD "") := by
    obtain ⟨actual, hactual, hequal⟩ := (Option.any_eq_true _ _).1 hname
    obtain ⟨hlower, hplain⟩ := hcontext actual hactual
    have hequal' : toAsciiLowercase name = actual := by rw [← hlower]; exact of_decide_eq_true hequal
    have hslotted : ¬eqIgnoreAsciiCase name "slotted" = true := by
      intro hslotted
      have hsame : toAsciiLowercase name = toAsciiLowercase "slotted" := of_decide_eq_true hslotted
      rw [hequal'] at hsame
      exact hplain (hsame.trans rfl)
    have hnone : argument = none := Option.isNone_iff_eq_none.1 hargument
    subst hnone
    simp only [ComplexSelector.subjectPseudo, hsubject, helement, PseudoElementSelector.name,
      PseudoElementSelector.argument, if_neg hslotted, Option.isSome_none, Bool.false_eq_true, if_false, bucketName,
      hequal', hactual, Option.getD_some]
  match pseudoElement with
  | none =>
    rw [matchesPseudoElement, Bool.and_eq_true] at h
    rw [ComplexSelector.subjectPseudo, hsubject, Option.isNone_iff_eq_none.1 h.2]
    rfl
  | some (.mk name argument none) =>
    rw [matchesPseudoElement, Bool.and_eq_true, Bool.and_eq_true] at h
    exact hgenerated rfl h.1.2 h.2
  | some (.mk name argument (some selectors)) =>
    rw [matchesPseudoElement] at h
    split at h
    · rw [Bool.and_eq_true] at h
      exact hgenerated rfl h.1 h.2
    · rw [Bool.and_eq_true, Bool.and_eq_true] at h
      have hslotted : selector.subjectPseudo = .none := by
        rw [ComplexSelector.subjectPseudo, hsubject]
        exact if_pos h.1.2
      rw [hslotted, Option.isNone_iff_eq_none.1 h.1.1]
      rfl

theorem matchesCompound_pseudoElement {compound : CompoundSelector} {context : MatchContext} {element : NodeId}
    (h : matchesCompound d compound context true element = true) :
    matchesPseudoElement d compound.pseudoElement context = true := by
  match compound with
  | .mk typeSelector simple pseudoElement =>
    rw [matchesCompound] at h
    cases hdata : d.elementOf element with
    | none => simp [hdata] at h
    | some data =>
      rw [hdata] at h
      dsimp only at h
      rw [Bool.and_eq_true, Bool.not_true, Bool.false_or] at h
      exact h.2

/-- a selector that matches is entered in the bucket that is looked up -/
theorem matchesComplex_bucket {selector : ComplexSelector} {context : MatchContext} {element : NodeId}
    (hcontext : PlainPseudo context) (h : matchesComplex d selector context element = true) :
    bucketName selector.subjectPseudo = some (context.pseudoElement.getD "") := by
  rw [matchesComplex, Bool.and_eq_true] at h
  cases selector with
  | compound compound =>
    rw [matchesComplexAt] at h
    exact matchesPseudoElement_bucket hcontext (matchesCompound_pseudoElement h.2) rfl
  | combined before combinator compound =>
    rw [matchesComplexAt, Bool.and_eq_true] at h
    exact matchesPseudoElement_bucket hcontext (matchesCompound_pseudoElement h.2.1) rfl

/-- a sheet whose selectors are covered by their keys -/
def StyleSheet.Covered (sheet : StyleSheet Container) : Prop :=
  ∀ rule ∈ sheet.rules, ∀ selector ∈ rule.selectors, selector.Covered

/-- a rule that matches has a selector that does -/
theorem ruleMatch_matches {answers : Answers Container} {includeStartingStyle : Bool} {element : NodeId}
    {owner : Option NodeId} {context : MatchContext} {rule : StyleRule Container} {found : Specificity × ℕ}
    (h : ruleMatch d answers includeStartingStyle element owner context rule = some found) :
    ∃ selector ∈ rule.selectors, ∃ scope,
      matchesComplex d selector { context with scope := scope } element = true := by
  have hmatching (scope : Option NodeId) (proximity : ℕ)
      (h : (matchingSpecificity d element rule.selectors { context with scope := scope }).map (·, proximity) =
        some found) :
      ∃ selector ∈ rule.selectors, ∃ scope, matchesComplex d selector { context with scope := scope } element = true := by
    obtain ⟨specificity, hspecificity, -⟩ := Option.map_eq_some_iff.1 h
    unfold matchingSpecificity at hspecificity
    split at hspecificity
    · cases hfilter : rule.selectors.filter fun selector =>
          matchesComplex d selector { context with scope := scope } element with
      | nil =>
        rw [hfilter] at hspecificity
        cases hspecificity
      | cons selector rest =>
        have hmem : selector ∈ rule.selectors.filter fun selector =>
            matchesComplex d selector { context with scope := scope } element := by
          rw [hfilter]
          exact List.mem_cons_self
        exact ⟨selector, (List.mem_filter.1 hmem).1, scope, (List.mem_filter.1 hmem).2⟩
    · cases hspecificity
  unfold ruleMatch at h
  split at h
  · cases h
  · split at h
    · cases h
    · split at h
      · cases h
      · split at h
        · cases h
        · exact hmatching context.scope _ h
        · exact hmatching _ _ h

/-- a rule that matches is looked up -/
theorem mem_candidates {sources : List (CascadeInput Container)} {source : CascadeInput Container} {sourceIndex : ℕ}
    (hsource : sources[sourceIndex]? = some source) (hcovered : source.sheet.Covered) {context : MatchContext}
    (hcontext : PlainPseudo context) {answers : Answers Container} {includeStartingStyle : Bool} {element : NodeId}
    {owner : Option NodeId} {rule : StyleRule Container} {index : ℕ} (hrule : source.sheet.rules[index]? = some rule)
    {found : Specificity × ℕ} (h : ruleMatch d answers includeStartingStyle element owner context rule = some found) :
    index ∈ (CascadeRuleIndex.new sources).candidates sourceIndex (context.pseudoElement.getD "")
      (d.elementOf element) := by
  obtain ⟨selector, hselector, scope, hmatches⟩ := ruleMatch_matches h
  have hentered := ofSheet_entered hrule hselector
  have hscoped : PlainPseudo { context with scope := scope } := hcontext
  obtain ⟨huniversal, hkeyed⟩ := hentered _ (matchesComplex_bucket hscoped hmatches)
  have hbuckets : (CascadeRuleIndex.new sources).sources[sourceIndex]? = some (.ofSheet source.sheet) := by
    simp [CascadeRuleIndex.new, hsource]
  simp only [CascadeRuleIndex.candidates, hbuckets, Finset.mem_sort, List.mem_toFinset]
  have helement : ∃ data, d.elementOf element = some data := by
    rw [matchesComplex, Bool.and_eq_true, Option.any_eq_true] at hmatches
    obtain ⟨⟨data, hdata, -⟩, -⟩ := hmatches
    exact ⟨data, hdata⟩
  obtain ⟨data, hdata⟩ := helement
  have hrules : rule ∈ source.sheet.rules := List.mem_of_getElem? hrule
  rcases covered_carries (hcovered rule hrules selector hselector) hdata hmatches with hnone | ⟨key, hkey, hcarries⟩
  · exact mem_candidates_of_universal (huniversal hnone)
  · rw [hdata]
    exact mem_candidates_of_carries hcarries (hkeyed key hkey)

end Lookup

/-! ## The cascade -/

section Cascade

variable (d : Dom) {Container : Type} (answers : Answers Container) (includeStartingStyle : Bool)

/-- rules that do not match leave the cascade as it is, so it may leave them out -/
theorem cascadeRules_filter (orders : LayerOrders) (sourceIndex : ℕ) (source : CascadeInput Container) (depth : ℕ)
    (element : NodeId) (context : MatchContext) (rules : List ℕ) (candidates : Candidates) :
    cascadeRules d answers includeStartingStyle orders sourceIndex source depth element context rules candidates =
      cascadeRules d answers includeStartingStyle orders sourceIndex source depth element context
        (rules.filter fun index => (source.sheet.rules[index]?.bind
          (ruleMatch d answers includeStartingStyle element source.sheet.scopeOwner context)).isSome) candidates := by
  induction rules generalizing candidates with
  | nil => rfl
  | cons index rules ih =>
    unfold cascadeRules at ih ⊢
    rw [List.filter_cons]
    by_cases hmatches : (source.sheet.rules[index]?.bind
        (ruleMatch d answers includeStartingStyle element source.sheet.scopeOwner context)).isSome = true
    · rw [if_pos hmatches, List.foldl_cons, List.foldl_cons, ih]
    · rw [if_neg hmatches, List.foldl_cons, ih]
      congr 1
      cases hrule : source.sheet.rules[index]? with
      | none => rfl
      | some rule =>
        rw [hrule, Option.bind_some, Option.not_isSome_iff_eq_none] at hmatches
        simp only [hmatches]

variable {d answers includeStartingStyle}

/-- with the candidates of the index a source comes to the same as with all its rules -/
theorem cascadeRules_candidates {sources : List (CascadeInput Container)} {source : CascadeInput Container}
    {sourceIndex : ℕ} (hsource : sources[sourceIndex]? = some source) (hcovered : source.sheet.Covered)
    {context : MatchContext} (hcontext : PlainPseudo context) (orders : LayerOrders) (depth : ℕ) (element : NodeId)
    (candidates : Candidates) :
    cascadeRules d answers includeStartingStyle orders sourceIndex source depth element context
        ((CascadeRuleIndex.new sources).candidates sourceIndex (context.pseudoElement.getD "") (d.elementOf element))
        candidates =
      cascadeRules d answers includeStartingStyle orders sourceIndex source depth element context
        (List.range source.sheet.rules.length) candidates := by
  rw [cascadeRules_filter, cascadeRules_filter d answers includeStartingStyle orders sourceIndex source depth element
    context (List.range _)]
  congr 1
  have hsorted : ((CascadeRuleIndex.new sources).candidates sourceIndex (context.pseudoElement.getD "")
      (d.elementOf element)).Pairwise (· < ·) := by
    unfold CascadeRuleIndex.candidates
    split
    · exact List.Pairwise.nil
    · exact (Finset.sortedLT_sort _).pairwise
  refine List.SortedLT.eq_of_mem_iff (hsorted.filter _).sortedLT (List.pairwise_lt_range.filter _).sortedLT fun index => ?_
  rw [List.mem_filter, List.mem_filter, List.mem_range]
  refine and_congr_left fun hmatches => ?_
  obtain ⟨found, hfound⟩ := Option.isSome_iff_exists.1 hmatches
  obtain ⟨rule, hrule, hmatch⟩ := Option.bind_eq_some_iff.1 hfound
  have hlt : index < source.sheet.rules.length := (List.getElem?_eq_some_iff.1 hrule).1
  exact iff_of_true (mem_candidates hsource hcovered hcontext hrule hmatch) hlt

/-- a source is matched for the pseudo-element of the cascade -/
theorem sourceContext_pseudoElement {element matchElement : NodeId} {context matchContext : MatchContext}
    {source : CascadeInput Container} (h : sourceContext d element context source = some (matchContext, matchElement)) :
    matchContext.pseudoElement = context.pseudoElement := by
  unfold sourceContext at h
  dsimp only at h
  split at h
  · cases h
    rfl
  · split at h
    · split at h
      · cases h
        rfl
      · cases h
        rfl
    · split at h
      · cases h
        rfl
      · split at h
        · cases h
        · split at h
          · cases h
          · cases h
            rfl

theorem cascadeSource_index {sources : List (CascadeInput Container)} {source : CascadeInput Container}
    {sourceIndex : ℕ} (hsource : sources[sourceIndex]? = some source) (hcovered : source.sheet.Covered)
    {context : MatchContext} (hcontext : PlainPseudo context) (orders : LayerOrders) (element : NodeId)
    (candidates : Candidates) :
    cascadeSource d answers includeStartingStyle (some (.new sources)) orders element context sourceIndex source
        candidates =
      cascadeSource d answers includeStartingStyle none orders element context sourceIndex source candidates := by
  unfold cascadeSource
  cases hreach : sourceContext d element context source with
  | none => rfl
  | some reached =>
    obtain ⟨matchContext, matchElement⟩ := reached
    dsimp only
    have hpseudo := sourceContext_pseudoElement hreach
    have hplain : PlainPseudo matchContext := by
      intro name hname
      exact hcontext name (hpseudo ▸ hname)
    rw [← hpseudo]
    exact cascadeRules_candidates hsource hcovered hplain orders _ matchElement candidates

end Cascade

/-! ## A branch without a key -/

/-- a document with one element, `<b>` -/
def oneElement : Dom where
  nodes := [⟨0, none, [1], .document, 0⟩,
    ⟨1, some 0, [], .element { nameSpace := .html, namePrefix := none, localName := "b" }, 0⟩]
  document := 0

/-- a name of one character -/
def letter (c : Char) : Identifier := ⟨String.ofList [c], by simp⟩

/-- `*` -/
def universal : ComplexSelector := .compound (.mk (some ⟨none⟩) [] none)

/-- `.a` -/
def classA : ComplexSelector := .compound (.mk none [.class (letter 'a')] none)

/-- `b` -/
def typeB : ComplexSelector := .compound (.mk (some ⟨some (letter 'b')⟩) [] none)

/-- `:is(.a, *)` -/
def someBranch : ComplexSelector := .compound (.mk none [.pseudo (.is [classA, universal])] none)

/-- the rule `{ color: red }` -/
def redRule (selector : ComplexSelector) : StyleRule Empty :=
  ⟨[selector], [⟨"color", "red", false⟩], none, [], [], [], false⟩

/-- an author sheet of the document with one rule -/
def oneRule (selector : ComplexSelector) : CascadeInput Empty where
  sheet :=
    { rules := [redRule selector]
      layerOrder := []
      scopeOwner := none
      treeRoot := none }
  origin := .author

/-- answers for sheets without conditions, shorthands or wide keywords -/
def plainAnswers : Answers Empty where
  media _ := true
  container _ := true
  cascadedDeclaration name value := [(name, value)]
  cssWideKeyword _ := none

theorem ruleMatch_someBranch :
    ruleMatch oneElement plainAnswers false 1 none {} (redRule someBranch) = some (⟨0, 1, 0⟩, unscoped) := by
  decide

end Render.Css
