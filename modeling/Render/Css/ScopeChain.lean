/-
Scopes (`render-css/src/cascade.rs`): the roots of a rule in `@scope` blocks, and when the rule applies.

`resolveScopeLevel` gives one distance, before the selectors of the rule are tried. What it gives is the least distance
of an innermost root (`resolveScopeLevel_iff`), told by chains of roots (`ScopeChain`). The rule should apply if its
selectors match relative to the innermost root of some chain, with the least distance of those. So the code is right where
the nearest innermost root is one of them, or where there is none.
-/
import Mathlib.Order.Bounds.Basic
import Render.Css.RuleIndex
import Render.Dom.TreeRuns

namespace Render.Css

open Render.Core

/-! ## Chains of roots -/

section Chains

variable (d : Dom)

/-- on the way up from a node to the root, without the root -/
inductive Way (root : NodeId) : NodeId → NodeId → Prop
  | here {n : NodeId} (h : n ≠ root) : Way root n n
  | up {n parent node : NodeId} (h : n ≠ root) (hparent : d.parent n = some parent) (hway : Way root parent node) :
      Way root n node

variable (element : NodeId) (owner : Option NodeId) (context : MatchContext)

/-- a node is a root of a scope, relative to the root of the scope around it -/
structure Serves (scope : Scope) (outer : Option (NodeId × ℕ)) (root : NodeId) (depth : ℕ) : Prop where
  /-- an inclusive ancestor of the element -/
  place : (ancestorChain d element)[depth]? = some root
  /-- inside the previous root -/
  inside : ∀ previous distance, outer = some (previous, distance) → depth ≤ distance
  /-- matched by the start of the scope, or implicit -/
  start : match scope.start with
    | some start => matchesWithScope d root start context (outer.map Prod.fst)
    | none => root = implicitScopeRoot d owner
  /-- no limit is between the root and the element -/
  stop : ∀ stop, scope.stop = some stop → ∀ node, Way d root element node →
    matchesWithScope d node stop context (some root) = false

/-- the scopes of a rule have roots, each inside the previous one; the innermost is given with its distance -/
inductive ScopeChain : List Scope → Option (NodeId × ℕ) → NodeId → ℕ → Prop
  | innermost {scope : Scope} {outer : Option (NodeId × ℕ)} {root : NodeId} {depth : ℕ}
      (h : Serves d element owner context scope outer root depth) : ScopeChain [scope] outer root depth
  | outer {scope next : Scope} {inner : List Scope} {outer : Option (NodeId × ℕ)} {root innermost : NodeId}
      {distance depth : ℕ} (h : Serves d element owner context scope outer root distance)
      (hinner : ScopeChain (next :: inner) (some (root, distance)) innermost depth) :
      ScopeChain (scope :: next :: inner) outer innermost depth

section Rule

variable {Container : Type} (answers : Answers Container) (includeStartingStyle : Bool) (rule : StyleRule Container)

/-- the conditions of a rule besides its scopes and selectors hold -/
def Passes : Prop :=
  (rule.startingStyle → includeStartingStyle) ∧ rule.media.all answers.media ∧ rule.container.all answers.container

/-- the selectors of a rule match relative to a root -/
def MatchesFrom (root : NodeId) : Prop :=
  (matchingSpecificity d element rule.selectors { context with scope := some root }).isSome

/-- the rule applies where its selectors match relative to the innermost root of some chain, and the proximity is the
least distance of those roots -/
def AppliesInScopes : Prop :=
  ∀ proximity, (∃ specificity,
      ruleMatch d answers includeStartingStyle element owner context rule = some (specificity, proximity)) ↔
    Passes answers includeStartingStyle rule ∧
      IsLeast {depth | ∃ root, ScopeChain d element owner context rule.scopes none root depth ∧
        MatchesFrom d element context rule root} proximity

end Rule

end Chains

variable {d : Dom}

/-! ## The chain of an element -/

theorem self_mem_ancestorChain (n : NodeId) : n ∈ ancestorChain d n := List.mem_cons_self ..

/-- more passes visit no less -/
theorem ancestorChainFrom_mono {treeRoot : NodeId} {host : Option NodeId} {fuel more : ℕ} (h : fuel ≤ more)
    {current n : NodeId} (hn : n ∈ ancestorChainFrom d treeRoot host fuel current) :
    n ∈ ancestorChainFrom d treeRoot host more current := by
  induction fuel generalizing more current with
  | zero => cases hn
  | succ fuel ih =>
    obtain ⟨more, rfl⟩ : ∃ rest, more = rest + 1 := ⟨more - 1, by omega⟩
    have hle : fuel ≤ more := by omega
    rw [ancestorChainFrom] at hn ⊢
    rcases List.mem_cons.1 hn with rfl | hn
    · exact List.mem_cons_self ..
    · refine List.mem_cons_of_mem _ ?_
      split_ifs at hn ⊢ with hhost
      · cases hn
      · cases hparent : d.parent current with
        | none =>
          rw [hparent] at hn
          cases hn
        | some parent =>
          rw [hparent] at hn
          dsimp only at hn ⊢
          split_ifs at hn ⊢
          · exact ih hle hn
          · cases host with
            | none => exact hn
            | some host => exact ih hle hn
          · cases hn

section Tree

variable (hd : TreeInv d)
include hd

theorem mem_ancestorChain_from {treeRoot : NodeId} {fuel current i j : ℕ} {root outer : NodeId}
    (hroot : d.treeRoot current = treeRoot) (hfuel : fuel ≤ d.passes + 1) (hij : i ≤ j)
    (hi : (ancestorChainFrom d treeRoot (d.shadowHost treeRoot) fuel current)[i]? = some root)
    (hj : (ancestorChainFrom d treeRoot (d.shadowHost treeRoot) fuel current)[j]? = some outer) :
    outer ∈ ancestorChain d root := by
  induction fuel generalizing current i j with
  | zero => cases hi
  | succ fuel ih =>
    cases i with
    | zero =>
      have hcurrent : root = current := by
        rw [ancestorChainFrom, List.getElem?_cons_zero] at hi
        exact (Option.some.inj hi).symm
      rw [hcurrent, ancestorChain, hroot]
      exact ancestorChainFrom_mono hfuel (List.mem_of_getElem? hj)
    | succ i =>
      obtain ⟨j, rfl⟩ : ∃ rest, j = rest + 1 := ⟨j - 1, by omega⟩
      -- where the chain ends, the two places are the same
      have hlast {last : NodeId} (hi : ([last] : List NodeId)[i]? = some root)
          (hj : ([last] : List NodeId)[j]? = some outer) : outer ∈ ancestorChain d root := by
        have hroot := List.mem_singleton.1 (List.mem_of_getElem? hi)
        have houter := List.mem_singleton.1 (List.mem_of_getElem? hj)
        rw [hroot, houter]
        exact self_mem_ancestorChain last
      rw [ancestorChainFrom, List.getElem?_cons_succ] at hi hj
      split_ifs at hi hj with hhost
      · cases hi
      · cases hparent : d.parent current with
        | none =>
          rw [hparent] at hi
          cases hi
        | some parent =>
          rw [hparent] at hi hj
          dsimp only at hi hj
          split_ifs at hi hj with helement htop
          · exact ih ((Dom.treeRoot_of_parent hd.ends hparent).symm.trans hroot) (by omega) (by omega) hi hj
          · cases hshadow : d.shadowHost treeRoot with
            | none =>
              rw [hshadow] at hi hj
              exact hlast hi hj
            | some host =>
              rw [hshadow] at hi hj
              dsimp only at hi hj
              cases fuel with
              | zero => cases hi
              | succ fuel =>
                rw [ancestorChainFrom, if_pos rfl] at hi hj
                exact hlast hi hj
          · cases hi

/-- of two places on the chain of an element, the farther is on the chain of the nearer -/
theorem mem_ancestorChain_of_le {element i j : ℕ} {root outer : NodeId} (hij : i ≤ j)
    (hi : (ancestorChain d element)[i]? = some root) (hj : (ancestorChain d element)[j]? = some outer) :
    outer ∈ ancestorChain d root :=
  mem_ancestorChain_from hd rfl le_rfl hij hi hj

/-! ## One scope -/

/-- a node and the loop over its parents -/
theorem loop_of_parent {n parent : NodeId} (hparent : d.parent n = some parent) :
    n :: visited d d.parent n = n :: parent :: visited d d.parent parent := by
  have hwalk := Dom.walk_passes hd.ends parent
  obtain ⟨rest, hrest⟩ := walk_head hwalk
  rw [visited, visited, walk_succ_some _ hparent, hwalk, walk_mono hwalk (Nat.le_succ _), hrest]
  rfl

theorem mem_way {root n node : NodeId} :
    node ∈ (n :: visited d d.parent n).takeWhile (fun current => Decidable.decide (current ≠ root)) ↔
      Way d root n node := by
  constructor
  · intro hnode
    induction hd.ends n with
    | @stop n hnone =>
      rw [visited, walk_succ_none _ hnone] at hnode
      by_cases hroot : n = root
      · simp [hroot] at hnode
      · obtain rfl : node = n := by simpa [hroot] using hnode
        exact .here hroot
    | @step n parent hparent _ ih =>
      rw [loop_of_parent hd hparent, List.takeWhile_cons] at hnode
      split_ifs at hnode with hroot
      · rcases List.mem_cons.1 hnode with rfl | hnode
        · exact .here (of_decide_eq_true hroot)
        · exact .up (of_decide_eq_true hroot) hparent (ih hnode)
      · cases hnode
  · intro hway
    induction hway with
    | here hroot => simp [hroot]
    | up hroot hparent _ ih =>
      rw [loop_of_parent hd hparent, List.takeWhile_cons, if_pos (decide_eq_true hroot)]
      exact List.mem_cons_of_mem _ ih

variable {element : NodeId} {owner : Option NodeId} {context : MatchContext}

theorem elementInScope_iff {root : NodeId} (stop : Option SelectorList) (hroot : root ∈ ancestorChain d element) :
    elementInScope d element root stop context ↔ ∀ selectors, stop = some selectors → ∀ node, Way d root element node →
      matchesWithScope d node selectors context (some root) = false := by
  unfold elementInScope
  rw [List.contains_iff_mem.2 hroot, Bool.true_and]
  cases stop with
  | none => simp
  | some stop =>
    simp only [List.all_eq_true, mem_way hd, Bool.not_eq_true', Option.some.injEq, forall_eq']

/-- what the code asks of a root at a place of the chain -/
theorem serves_iff {scope : Scope} {outer : Option (NodeId × ℕ)} {root : NodeId} {depth : ℕ}
    (houter : ∀ previous distance, outer = some (previous, distance) →
      (ancestorChain d element)[distance]? = some previous) :
    Serves d element owner context scope outer root depth ↔
      (ancestorChain d element)[depth]? = some root ∧
      depth < (outer.map Prod.snd).getD ((ancestorChain d element).length - 1) + 1 ∧
      ((match scope.start with
        | some start => matchesWithScope d root start context (outer.map Prod.fst)
        | none => root = implicitScopeRoot d owner &&
          (outer.map Prod.fst).all fun outer => (ancestorChain d root).contains outer) : Bool) = true ∧
      elementInScope d element root scope.stop context := by
  have hlimit (hplace : (ancestorChain d element)[depth]? = some root) :
      depth < (outer.map Prod.snd).getD ((ancestorChain d element).length - 1) + 1 ↔
        ∀ previous distance, outer = some (previous, distance) → depth ≤ distance := by
    cases outer with
    | none =>
      have hlength := (List.getElem?_eq_some_iff.1 hplace).1
      simp only [Option.map_none, Option.getD_none]
      exact iff_of_true (by omega) nofun
    | some outer =>
      obtain ⟨previous, distance⟩ := outer
      simp only [Option.map_some, Option.getD_some, Option.some.injEq, Prod.mk.injEq, Nat.lt_succ_iff]
      exact ⟨fun h _ _ heq => heq.2 ▸ h, fun h => h previous distance ⟨rfl, rfl⟩⟩
  have hstart (hplace : (ancestorChain d element)[depth]? = some root)
      (hinside : ∀ previous distance, outer = some (previous, distance) → depth ≤ distance) :
      (match scope.start with
        | some start => (matchesWithScope d root start context (outer.map Prod.fst) : Prop)
        | none => root = implicitScopeRoot d owner) ↔
      ((match scope.start with
        | some start => matchesWithScope d root start context (outer.map Prod.fst)
        | none => root = implicitScopeRoot d owner &&
          (outer.map Prod.fst).all fun outer => (ancestorChain d root).contains outer) : Bool) = true := by
    cases scope.start with
    | some start => rfl
    | none =>
      have hall : ((outer.map Prod.fst).all fun outer => (ancestorChain d root).contains outer) = true := by
        cases outer with
        | none => rfl
        | some outer =>
          obtain ⟨previous, distance⟩ := outer
          exact List.contains_iff_mem.2 (mem_ancestorChain_of_le hd (hinside _ _ rfl) hplace (houter _ _ rfl))
      dsimp only
      rw [hall, Bool.and_true, decide_eq_true_eq]
  constructor
  · rintro ⟨hplace, hinside, hstarts, hstop⟩
    exact ⟨hplace, (hlimit hplace).2 hinside, (hstart hplace hinside).1 hstarts,
      (elementInScope_iff hd scope.stop (List.mem_of_getElem? hplace)).2 hstop⟩
  · rintro ⟨hplace, hdepth, hstarts, hstop⟩
    have hinside := (hlimit hplace).1 hdepth
    exact ⟨hplace, hinside, (hstart hplace hinside).2 hstarts,
      (elementInScope_iff hd scope.stop (List.mem_of_getElem? hplace)).1 hstop⟩

/-! ## All scopes -/

omit hd in
theorem min?_eq_some_iff_isLeast {values : List ℕ} {value : ℕ} :
    values.min? = some value ↔ IsLeast {x | x ∈ values} value := by
  rw [List.min?_eq_some_iff]
  rfl

omit hd in
/-- of two sets, the smaller has something at or below everything in the other -/
theorem isLeast_congr {few all : Set ℕ} (hfew : few ⊆ all) (hbelow : ∀ x ∈ all, ∃ y ∈ few, y ≤ x) (least : ℕ) :
    IsLeast few least ↔ IsLeast all least := by
  constructor
  · rintro ⟨hmem, hleast⟩
    refine ⟨hfew hmem, fun x hx => ?_⟩
    obtain ⟨y, hy, hle⟩ := hbelow x hx
    exact (hleast hy).trans hle
  · rintro ⟨hmem, hleast⟩
    obtain ⟨y, hy, hle⟩ := hbelow least hmem
    obtain rfl := Nat.le_antisymm (hleast (hfew hy)) hle
    exact ⟨hy, fun x hx => hleast (hfew hx)⟩

omit hd in
theorem exists_isLeast {values : Set ℕ} {value : ℕ} (h : value ∈ values) : ∃ least ≤ value, IsLeast values least := by
  classical
  have hexists : ∃ value, value ∈ values := ⟨value, h⟩
  exact ⟨Nat.find hexists, Nat.find_min' hexists h, Nat.find_spec hexists, fun _ => Nat.find_min' hexists⟩

omit hd in
theorem scopeChain_cons {scope next : Scope} {inner : List Scope} {outer : Option (NodeId × ℕ)} {innermost : NodeId}
    {depth : ℕ} : ScopeChain d element owner context (scope :: next :: inner) outer innermost depth ↔
      ∃ root distance, Serves d element owner context scope outer root distance ∧
        ScopeChain d element owner context (next :: inner) (some (root, distance)) innermost depth := by
  constructor
  · intro h
    cases h with
    | @outer _ _ _ _ root _ distance _ h hinner => exact ⟨root, distance, h, hinner⟩
  · rintro ⟨root, distance, h, hinner⟩
    exact .outer h hinner

/-- **What the code gives is the least distance of an innermost root.** -/
theorem resolveScopeLevel_iff {scopes : List Scope} {outer : Option (NodeId × ℕ)} {depth : ℕ}
    (houter : ∀ previous distance, outer = some (previous, distance) →
      (ancestorChain d element)[distance]? = some previous) :
    resolveScopeLevel d element owner context (ancestorChain d element) scopes (outer.map Prod.fst)
        (outer.map Prod.snd) = some depth ↔
      IsLeast {depth | ∃ root, ScopeChain d element owner context scopes outer root depth} depth := by
  induction scopes generalizing outer depth with
  | nil =>
    rw [resolveScopeLevel]
    refine ⟨nofun, fun h => ?_⟩
    obtain ⟨root, hchain⟩ := h.1
    cases hchain
  | cons scope inner ih =>
    have htried (value : ℕ) (tried : NodeId × ℕ → Option ℕ) :
        value ∈ ((ancestorChain d element).take ((outer.map Prod.snd).getD ((ancestorChain d element).length - 1) + 1)
          ).zipIdx.filterMap tried ↔ ∃ root distance,
            (ancestorChain d element)[distance]? = some root ∧
            distance < (outer.map Prod.snd).getD ((ancestorChain d element).length - 1) + 1 ∧
            tried (root, distance) = some value := by
      simp only [List.mem_filterMap, Prod.exists, List.mem_zipIdx_iff_getElem?, List.getElem?_take,
        Option.ite_none_right_eq_some]
      exact exists_congr fun root => exists_congr fun distance =>
        ⟨fun ⟨⟨hlt, hplace⟩, h⟩ => ⟨hplace, hlt, h⟩, fun ⟨hplace, hlt, h⟩ => ⟨⟨hlt, hplace⟩, h⟩⟩
    have hvalues (value : ℕ) :
        (∃ root distance, (ancestorChain d element)[distance]? = some root ∧
            distance < (outer.map Prod.snd).getD ((ancestorChain d element).length - 1) + 1 ∧
            (if (match scope.start with
                  | some start => matchesWithScope d root start context (outer.map Prod.fst)
                  | none => root = implicitScopeRoot d owner &&
                    (outer.map Prod.fst).all fun outer => (ancestorChain d root).contains outer) &&
                  elementInScope d element root scope.stop context then
                if inner.isEmpty then some distance
                else resolveScopeLevel d element owner context (ancestorChain d element) inner (some root)
                  (some distance)
              else none) = some value) ↔
          ∃ root distance, Serves d element owner context scope outer root distance ∧
            (if inner.isEmpty then some distance
              else resolveScopeLevel d element owner context (ancestorChain d element) inner (some root)
                (some distance)) = some value := by
      refine exists_congr fun root => exists_congr fun distance => ?_
      rw [serves_iff hd houter, Option.ite_none_right_eq_some, Bool.and_eq_true]
      simp only [and_assoc]
    rw [resolveScopeLevel, min?_eq_some_iff_isLeast]
    cases inner with
    | nil =>
      refine isLeast_congr ?_ ?_ depth
      · intro value hvalue
        obtain ⟨root, distance, hserves, hvalue⟩ := (hvalues value).1 ((htried value _).1 hvalue)
        cases hvalue
        exact ⟨root, .innermost hserves⟩
      · rintro value ⟨root, hchain⟩
        cases hchain with
        | innermost hserves =>
          exact ⟨value, (htried value _).2 ((hvalues value).2 ⟨root, value, hserves, rfl⟩), le_rfl⟩
    | cons next inner =>
      have hinner {root : NodeId} {distance : ℕ} (hserves : Serves d element owner context scope outer root distance)
          (value : ℕ) := @ih (some (root, distance)) value fun previous place heq => by
        cases heq
        exact hserves.place
      refine isLeast_congr ?_ ?_ depth
      · intro value hvalue
        obtain ⟨root, distance, hserves, hvalue⟩ := (hvalues value).1 ((htried value _).1 hvalue)
        obtain ⟨innermost, hchain⟩ := ((hinner hserves value).1 hvalue).1
        exact ⟨innermost, .outer hserves hchain⟩
      · rintro value ⟨innermost, hchain⟩
        obtain ⟨root, distance, hserves, hrest⟩ := scopeChain_cons.1 hchain
        have hmem : value ∈ {depth | ∃ innermost,
            ScopeChain d element owner context (next :: inner) (some (root, distance)) innermost depth} :=
          ⟨innermost, hrest⟩
        obtain ⟨least, hle, hleast⟩ := exists_isLeast hmem
        have hgiven := (hinner hserves least).2 hleast
        exact ⟨least, (htried least _).2 ((hvalues least).2 ⟨root, distance, hserves, hgiven⟩), hle⟩

end Tree

/-! ## The rule -/

section Rule

variable {element : NodeId} {owner : Option NodeId} {context : MatchContext} {Container : Type}
  {answers : Answers Container} {includeStartingStyle : Bool} {rule : StyleRule Container}

theorem ScopeChain.place {scopes : List Scope} {outer : Option (NodeId × ℕ)} {root : NodeId} {depth : ℕ}
    (h : ScopeChain d element owner context scopes outer root depth) :
    (ancestorChain d element)[depth]? = some root := by
  induction h with
  | innermost h => exact h.place
  | outer _ _ ih => exact ih

theorem ruleMatch_of_passes (h : Passes answers includeStartingStyle rule) :
    ruleMatch d answers includeStartingStyle element owner context rule =
      match resolveRuleScope d element rule owner context with
      | .outOfScope => none
      | .unscoped => (matchingSpecificity d element rule.selectors context).map (·, unscoped)
      | .inScope root proximity =>
        (matchingSpecificity d element rule.selectors { context with scope := some root }).map (·, proximity) := by
  obtain ⟨hstarting, hmedia, hcontainer⟩ := h
  rw [ruleMatch, hmedia, hcontainer, if_neg (by simpa using hstarting)]
  rfl

theorem passes_of_ruleMatch {found : Specificity × ℕ}
    (h : ruleMatch d answers includeStartingStyle element owner context rule = some found) :
    Passes answers includeStartingStyle rule := by
  unfold ruleMatch at h
  split_ifs at h with hstarting hmedia hcontainer
  exact ⟨by simpa using hstarting, by simpa using hmedia, by simpa using hcontainer⟩

/-- a chain of roots whose innermost is nearest to the element -/
def Nearest (d : Dom) (element : NodeId) (owner : Option NodeId) (context : MatchContext) (scopes : List Scope)
    (root : NodeId) (depth : ℕ) : Prop :=
  ScopeChain d element owner context scopes none root depth ∧
    ∀ root' depth', ScopeChain d element owner context scopes none root' depth' → depth ≤ depth'

variable (hd : TreeInv d)
include hd

theorem resolveRuleScope_nearest {root : NodeId} {depth : ℕ}
    (h : Nearest d element owner context rule.scopes root depth) :
    resolveRuleScope d element rule owner context = .inScope root depth := by
  have hscopes : rule.scopes.isEmpty = false := by
    cases hempty : rule.scopes with
    | nil =>
      rw [hempty] at h
      cases h.1
    | cons scope inner => rfl
  have hlevel := (@resolveScopeLevel_iff d hd element owner context rule.scopes none depth nofun).2
    ⟨⟨root, h.1⟩, fun _ ⟨root', hchain⟩ => h.2 root' _ hchain⟩
  rw [resolveRuleScope, hscopes]
  simp only [Bool.false_eq_true, if_false]
  rw [show (none : Option (NodeId × ℕ)).map Prod.fst = none from rfl,
    show (none : Option (NodeId × ℕ)).map Prod.snd = none from rfl] at hlevel
  simp only [hlevel, h.1.place]

theorem resolveRuleScope_none (hscopes : rule.scopes ≠ [])
    (h : ∀ root depth, ¬ScopeChain d element owner context rule.scopes none root depth) :
    resolveRuleScope d element rule owner context = .outOfScope := by
  have hlevel : resolveScopeLevel d element owner context (ancestorChain d element) rule.scopes none none = none := by
    cases hlevel : resolveScopeLevel d element owner context (ancestorChain d element) rule.scopes none none with
    | none => rfl
    | some depth =>
      obtain ⟨root, hchain⟩ := ((@resolveScopeLevel_iff d hd element owner context rule.scopes none depth nofun).1
        hlevel).1
      exact absurd hchain (h root depth)
  rw [resolveRuleScope, if_neg (by simpa using hscopes), hlevel]

omit hd in
/-- **A rule in scopes applies by the nearest root alone.** -/
theorem appliesInScopes_iff (hd : Reachable d) (hscopes : rule.scopes ≠ []) :
    AppliesInScopes d element owner context answers includeStartingStyle rule ↔
      (Passes answers includeStartingStyle rule → ∀ root depth, Nearest d element owner context rule.scopes root depth →
        MatchesFrom d element context rule root ∨
          ∀ root' depth', ScopeChain d element owner context rule.scopes none root' depth' →
            ¬MatchesFrom d element context rule root') := by
  have htree := treeInv_reachable hd
  have hmatched {root : NodeId} {depth : ℕ} (hpasses : Passes answers includeStartingStyle rule)
      (hnearest : Nearest d element owner context rule.scopes root depth) (proximity : ℕ) :
      (∃ specificity, ruleMatch d answers includeStartingStyle element owner context rule =
        some (specificity, proximity)) ↔ MatchesFrom d element context rule root ∧ proximity = depth := by
    rw [ruleMatch_of_passes hpasses, resolveRuleScope_nearest htree hnearest]
    simp only [Option.map_eq_some_iff, Prod.mk.injEq, MatchesFrom, Option.isSome_iff_exists]
    constructor
    · rintro ⟨specificity, found, hfound, -, rfl⟩
      exact ⟨⟨found, hfound⟩, rfl⟩
    · rintro ⟨⟨found, hfound⟩, rfl⟩
      exact ⟨found, found, hfound, rfl, rfl⟩
  constructor
  · intro happlies hpasses root depth hnearest
    by_cases hmatches : MatchesFrom d element context rule root
    · exact Or.inl hmatches
    · refine Or.inr fun root' depth' hchain hmatches' => hmatches ?_
      have hmem : depth' ∈ {depth | ∃ root, ScopeChain d element owner context rule.scopes none root depth ∧
          MatchesFrom d element context rule root} := ⟨root', hchain, hmatches'⟩
      obtain ⟨least, -, hleast⟩ := exists_isLeast hmem
      exact ((hmatched hpasses hnearest least).1 ((happlies least).2 ⟨hpasses, hleast⟩)).1
  · intro hcondition proximity
    by_cases hpasses : Passes answers includeStartingStyle rule
    · by_cases hchains : ∃ root depth, ScopeChain d element owner context rule.scopes none root depth
      · obtain ⟨root, depth, hnearest⟩ : ∃ root depth, Nearest d element owner context rule.scopes root depth := by
          obtain ⟨root, depth, hchain⟩ := hchains
          have hmem : depth ∈ {depth | ∃ root, ScopeChain d element owner context rule.scopes none root depth} :=
            ⟨root, hchain⟩
          obtain ⟨least, -, ⟨root, hleast⟩, hbelow⟩ := exists_isLeast hmem
          exact ⟨root, least, hleast, fun root' depth' hchain' => hbelow ⟨root', hchain'⟩⟩
        rw [hmatched hpasses hnearest]
        rcases hcondition hpasses root depth hnearest with hmatches | hnever
        · have hleast : IsLeast {depth | ∃ root, ScopeChain d element owner context rule.scopes none root depth ∧
              MatchesFrom d element context rule root} depth :=
            ⟨⟨root, hnearest.1, hmatches⟩, fun _ ⟨root', hchain', _⟩ => hnearest.2 root' _ hchain'⟩
          constructor
          · rintro ⟨-, rfl⟩
            exact ⟨hpasses, hleast⟩
          · rintro ⟨-, hleast'⟩
            exact ⟨hmatches, hleast'.unique hleast⟩
        · constructor
          · rintro ⟨hmatches, -⟩
            exact absurd hmatches (hnever root depth hnearest.1)
          · rintro ⟨-, ⟨root', hchain', hmatches'⟩, -⟩
            exact absurd hmatches' (hnever root' proximity hchain')
      · have hout := resolveRuleScope_none htree hscopes fun root depth hchain => hchains ⟨root, depth, hchain⟩
        rw [ruleMatch_of_passes hpasses, hout]
        constructor
        · rintro ⟨specificity, h⟩
          cases h
        · rintro ⟨-, ⟨root', hchain', -⟩, -⟩
          exact absurd ⟨root', proximity, hchain'⟩ hchains
    · constructor
      · rintro ⟨specificity, h⟩
        exact absurd (passes_of_ruleMatch h) hpasses
      · rintro ⟨h, -⟩
        exact absurd h hpasses

end Rule

/-- an element below the document element -/
def nestedOps : List Op := [.createElement "div", .appendChild 0 1, .createElement "p", .appendChild 1 2]

/-- `*` -/
def anyElement : ComplexSelector := .compound (.mk none [] none)

/-- `:scope > *` -/
def childOfScope : ComplexSelector := .combined (.compound (.mk none [.pseudo .scope] none)) .child (.mk none [] none)

/-- a rule in `@scope (*)` -/
def scopedRule (selector : ComplexSelector) : StyleRule Empty :=
  { redRule selector with scopes := [⟨some [anyElement], none⟩] }

theorem appliesInScopes_iff_nearest : ∃ d, runAll nestedOps Dom.new = some d ∧
    AppliesInScopes d 2 none {} plainAnswers false (scopedRule anyElement) := by
  obtain ⟨d, hd⟩ : ∃ d, runAll nestedOps Dom.new = some d := Option.isSome_iff_exists.1 (by decide)
  have hchain : (runAll nestedOps Dom.new).map (fun d => ancestorChain d 2) = some [2, 1, 0] := by decide
  have hstart : (runAll nestedOps Dom.new).map (fun d => matchesWithScope d 2 [anyElement] {} none) = some true := by
    decide
  have hmatches : (runAll nestedOps Dom.new).map (fun d =>
      (matchingSpecificity d 2 [anyElement] { scope := some 2 }).isSome) = some true := by decide
  rw [hd, Option.map_some, Option.some.injEq] at hchain hstart hmatches
  refine ⟨d, hd, (appliesInScopes_iff (Reach.new.runAll hd) (by decide)).2 fun _ root depth hnearest => Or.inl ?_⟩
  have hself : ScopeChain d 2 none {} (scopedRule anyElement).scopes none 2 0 :=
    .innermost ⟨by rw [hchain]; rfl, nofun, hstart, nofun⟩
  have hplace := hnearest.1.place
  rw [Nat.le_zero.1 (hnearest.2 2 0 hself), hchain] at hplace
  cases hplace
  exact hmatches

/-- the nearest root is the element itself, and the selector matches relative to its parent only -/
theorem not_appliesInScopes : ¬∀ d, Reachable d → ∀ element owner context (rule : StyleRule Empty), rule.scopes ≠ [] →
    AppliesInScopes d element owner context plainAnswers false rule := by
  intro hall
  obtain ⟨d, hd⟩ : ∃ d, runAll nestedOps Dom.new = some d := Option.isSome_iff_exists.1 (by decide)
  have hchain : (runAll nestedOps Dom.new).map (fun d => ancestorChain d 2) = some [2, 1, 0] := by decide
  have hstart : (runAll nestedOps Dom.new).map (fun d => matchesWithScope d 1 [anyElement] {} none) = some true := by
    decide
  have hmatches : (runAll nestedOps Dom.new).map (fun d =>
      (matchingSpecificity d 2 [childOfScope] { scope := some 1 }).isSome) = some true := by decide
  have hcode : (runAll nestedOps Dom.new).map (fun d =>
      ruleMatch d plainAnswers false 2 none {} (scopedRule childOfScope)) = some none := by decide
  rw [hd, Option.map_some, Option.some.injEq] at hchain hstart hmatches hcode
  have hparent : ScopeChain d 2 none {} (scopedRule childOfScope).scopes none 1 1 :=
    .innermost ⟨by rw [hchain]; rfl, nofun, hstart, nofun⟩
  have hmem : 1 ∈ {depth | ∃ root, ScopeChain d 2 none {} (scopedRule childOfScope).scopes none root depth ∧
      MatchesFrom d 2 {} (scopedRule childOfScope) root} := ⟨1, hparent, hmatches⟩
  obtain ⟨least, -, hleast⟩ := exists_isLeast hmem
  have hpasses : Passes plainAnswers false (scopedRule childOfScope) := ⟨nofun, rfl, rfl⟩
  obtain ⟨specificity, hfound⟩ :=
    (hall d (Reach.new.runAll hd) 2 none {} (scopedRule childOfScope) (by decide) least).2 ⟨hpasses, hleast⟩
  rw [hcode] at hfound
  cases hfound

end Render.Css
