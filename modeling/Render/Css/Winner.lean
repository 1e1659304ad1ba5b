/-
Which declaration wins the cascade.

`Contender.standing` lists the criteria of the cascade from the first to the last: origin and importance, tree context,
declarations of the element itself over rules, layer, specificity, scope proximity, order of appearance. The cascade ranks
by `Priority.fields`, which knows no declarations of the element itself: hints have no specificity and the `style`
attribute has all of it, and both stand outside of the layers. A rule comes before them where that is not enough
(`Displaces`), and nowhere else (`fields_lt_iff_displaces`).
-/
import Render.Css.Applied
import Render.Css.RuleIndex

namespace Render.Css

open Render.Core

/-! ## The criteria -/

/-- origin and importance -/
def Applied.level (a : Applied) : ℕ :=
  match a.origin, a.important with
  | .userAgent, false => 0
  | .user, false => 1
  | .author, false => 2
  | .author, true => 3
  | .user, true => 4
  | .userAgent, true => 5

/-- tree context: the outer tree, or the inner one for what is important; trees are at most 255 deep -/
def Applied.context (a : Applied) : ℕ := if a.important then a.depth else 255 - a.depth

/-- the place of the layer among those of the origin, as they are first declared; what is in no layer comes after them -/
def Applied.layerPlace (a : Applied) (orders : LayerOrders) : ℕ :=
  match a.layer with
  | none => (orders a.origin).length
  | some layer => ((orders a.origin).idxOf? (globalLayerKey layer a.source)).getD (orders a.origin).length

/-- layer: the last, or the first for what is important -/
def Applied.layerStanding (a : Applied) (orders : LayerOrders) : ℕ :=
  if a.important then (orders a.origin).length - a.layerPlace orders else a.layerPlace orders

/-- the declaration is in a layer that its origin declares -/
def Applied.InLayer (a : Applied) (orders : LayerOrders) : Prop := a.layerPlace orders < (orders a.origin).length

instance (a : Applied) (orders : LayerOrders) : Decidable (a.InLayer orders) := Nat.decLt _ _

/-- specificity, scope proximity and order of appearance -/
def Contender.last (c : Contender) : List ℕ :=
  [c.applied.specificity.ids, c.applied.specificity.classes, c.applied.specificity.types, unscoped - c.applied.proximity,
    c.appearance]

/-- the criteria of the cascade, from the first to the last -/
def Contender.standing (c : Contender) (orders : LayerOrders) : List ℕ :=
  c.applied.level :: c.applied.context :: c.applied.attached.toNat :: c.applied.layerStanding orders :: c.last

/-- the contender that comes before all others, if there is one -/
def Leads (orders : LayerOrders) (all : List Contender) : Option Contender → Prop
  | none => all = []
  | some leader => leader ∈ all ∧ ∀ c ∈ all, ¬ leader.standing orders < c.standing orders

/-- a rule of the same origin, importance and tree that the cascade puts before a declaration of the element itself: an
important rule in a layer before the `style` attribute, a rule outside of the layers with a specificity or a scope before a
hint, and before the `style` attribute if its specificity is the largest there is -/
def Displaces (orders : LayerOrders) (c m : Contender) : Prop :=
  (c.applied.attached = false ∧ m.applied.attached = true) ∧
    (c.applied.origin = m.applied.origin ∧ c.applied.important = m.applied.important ∧
      c.applied.depth = m.applied.depth) ∧
      ((m.applied.important = true ∧ c.applied.InLayer orders) ∨
        (m.applied.origin = .userAgent ∧ ¬ c.applied.InLayer orders ∧
          (c.applied.specificity ≠ .zero ∨ c.applied.proximity < unscoped)) ∨
        (m.applied.origin = .author ∧ ¬ c.applied.InLayer orders ∧ c.applied.specificity = inlineSpecificity ∧
          c.applied.proximity < unscoped))

instance (orders : LayerOrders) (c m : Contender) : Decidable (Displaces orders c m) := by
  unfold Displaces
  infer_instance

/-! ## What applies -/

/-- the tree is at most 255 deep, the specificity of a rule is within its bounds, and the declarations of the element have
the specificities and layers made up for them -/
structure Applied.Placed (a : Applied) : Prop where
  depth : a.depth ≤ 255
  bounded : a.specificity.ids ≤ 2 ^ 32 - 1 ∧ a.specificity.classes ≤ 2 ^ 32 - 1 ∧ a.specificity.types ≤ 2 ^ 32 - 1
  own : a.attached = true → a.layer = none ∧ a.proximity = unscoped ∧
    ((a.origin = .userAgent ∧ a.important = false ∧ a.specificity = .zero) ∨
      (a.origin = .author ∧ a.specificity = inlineSpecificity))

theorem treeDepth_le (d : Dom) (root : NodeId) : treeDepth d root ≤ 255 := by
  have hfuel : ∀ (fuel : ℕ) (root : NodeId), treeDepthFrom d fuel root ≤ fuel := by
    intro fuel
    induction fuel with
    | zero => exact fun _ => le_rfl
    | succ fuel ih =>
      intro root
      unfold treeDepthFrom
      split
      · exact Nat.zero_le _
      · exact Nat.succ_le_succ (ih _)
  exact hfuel 255 root

theorem saturatingAdd_le (a b : ℕ) : saturatingAdd a b ≤ 2 ^ 32 - 1 := Nat.min_le_right _ _

theorem ComplexSelector.specificity_le (selector : ComplexSelector) : selector.specificity.ids ≤ 2 ^ 32 - 1 ∧
    selector.specificity.classes ≤ 2 ^ 32 - 1 ∧ selector.specificity.types ≤ 2 ^ 32 - 1 := by
  cases selector <;> simp only [ComplexSelector.specificity, Specificity.add] <;>
    exact ⟨saturatingAdd_le _ _, saturatingAdd_le _ _, saturatingAdd_le _ _⟩

theorem Specificity.maximum_mem {all : List Specificity} {best : Specificity} (h : Specificity.maximum all = some best) :
    best ∈ all := by
  cases all with
  | nil => cases h
  | cons first rest =>
    obtain rfl := Option.some.inj h
    have hfold : ∀ (rest : List Specificity) (first : Specificity), rest.foldl Specificity.max first ∈ first :: rest := by
      intro rest
      induction rest with
      | nil => exact fun _ => List.mem_cons_self
      | cons second rest ih =>
        intro first
        have hmax : first.max second = first ∨ first.max second = second := by
          unfold Specificity.max
          split
          · exact Or.inr rfl
          · exact Or.inl rfl
        have hrest := ih (first.max second)
        rcases hmax with hmax | hmax <;> rw [List.foldl_cons, hmax] <;> rw [hmax] at hrest <;>
          simp only [List.mem_cons] at hrest ⊢ <;> tauto
    exact hfold rest first

theorem matchingSpecificity_le {d : Dom} {element : NodeId} {selectors : SelectorList} {context : MatchContext}
    {specificity : Specificity} (h : matchingSpecificity d element selectors context = some specificity) :
    specificity.ids ≤ 2 ^ 32 - 1 ∧ specificity.classes ≤ 2 ^ 32 - 1 ∧ specificity.types ≤ 2 ^ 32 - 1 := by
  unfold matchingSpecificity at h
  split at h
  · obtain ⟨selector, -, rfl⟩ := List.mem_map.1 (Specificity.maximum_mem h)
    exact selector.specificity_le
  · cases h

section Placed

variable {d : Dom} {Container : Type} {answers : Answers Container} {includeStartingStyle : Bool}

theorem ruleMatch_specificity {element : NodeId} {owner : Option NodeId} {context : MatchContext}
    {rule : StyleRule Container} {found : Specificity × ℕ}
    (h : ruleMatch d answers includeStartingStyle element owner context rule = some found) :
    found.1.ids ≤ 2 ^ 32 - 1 ∧ found.1.classes ≤ 2 ^ 32 - 1 ∧ found.1.types ≤ 2 ^ 32 - 1 := by
  unfold ruleMatch at h
  split at h
  · cases h
  split at h
  · cases h
  split at h
  · cases h
  split at h
  · cases h
  all_goals
    obtain ⟨specificity, hmatch, rfl⟩ := Option.map_eq_some_iff.1 h
    exact matchingSpecificity_le hmatch

theorem placed_appliedSource {element : NodeId} {context : MatchContext} {sourceIndex : ℕ}
    {source : CascadeInput Container} {a : Applied}
    (h : a ∈ appliedSource d answers includeStartingStyle element context sourceIndex source) :
    a.Placed ∧ a.attached = false := by
  unfold appliedSource at h
  split at h
  · cases h
  · unfold appliedRules at h
    obtain ⟨rule, -, hrule⟩ := List.mem_flatMap.1 h
    split at hrule
    · cases hrule
    · next specificity proximity hmatch =>
      obtain ⟨declaration, -, rfl⟩ := List.mem_map.1 hrule
      refine ⟨⟨treeDepth_le d _, ruleMatch_specificity hmatch, fun hown => ?_⟩, rfl⟩
      cases hown

theorem placed_hints {sources : ℕ} {declarations : List Declaration} {a : Applied}
    (h : a ∈ appliedOwn sources .userAgent 0 .zero declarations) : a.Placed ∧ a.attached = true := by
  obtain ⟨declaration, -, rfl⟩ := List.mem_map.1 h
  refine ⟨⟨Nat.zero_le _, ⟨Nat.zero_le _, Nat.zero_le _, Nat.zero_le _⟩, fun _ => ⟨rfl, rfl, Or.inl ⟨rfl, ?_, rfl⟩⟩⟩, rfl⟩
  exact Bool.and_false _

theorem placed_inline {sources : ℕ} {root : NodeId} {declarations : List Declaration} {a : Applied}
    (h : a ∈ appliedOwn sources .author (treeDepth d root) inlineSpecificity declarations) :
    a.Placed ∧ a.attached = true := by
  obtain ⟨declaration, -, rfl⟩ := List.mem_map.1 h
  exact ⟨⟨treeDepth_le d root, ⟨le_rfl, le_rfl, le_rfl⟩, fun _ => ⟨rfl, rfl, Or.inr ⟨rfl, rfl⟩⟩⟩, rfl⟩

theorem mem_contenders {property : String} {all : List Applied} {c : Contender}
    (h : c ∈ contenders answers property all) : all[c.appearance]? = some c.applied := by
  obtain ⟨entry, hentry, hc⟩ := List.mem_flatMap.1 h
  obtain ⟨⟨name, value⟩, -, hlonghand⟩ := List.mem_filterMap.1 hc
  obtain ⟨-, hlonghand⟩ := Option.ite_none_right_eq_some.1 hlonghand
  obtain rfl := Option.some.inj hlonghand
  exact List.mem_zipIdx_iff_getElem?.1 hentry

/-- what applies has its place, and the rules appear before the declarations of the element -/
structure Ordered (all : List Contender) : Prop where
  placed : ∀ c ∈ all, c.applied.Placed
  rulesFirst : ∀ c ∈ all, ∀ m ∈ all, c.applied.attached = false → m.applied.attached = true → c.appearance < m.appearance
  known : ∀ c ∈ all, ∀ m ∈ all, c.appearance = m.appearance → c.applied = m.applied

theorem ordered_contenders (element : NodeId) (sources : List (CascadeInput Container)) (context : MatchContext)
    (uaDeclarations inlineDeclarations : List Declaration) (property : String) :
    Ordered (contenders answers property (applied d answers includeStartingStyle element sources context uaDeclarations
      inlineDeclarations)) := by
  obtain ⟨rules, own, happlied, hrules, hown⟩ : ∃ rules own, applied d answers includeStartingStyle element sources
      context uaDeclarations inlineDeclarations = rules ++ own ∧ (∀ a ∈ rules, a.Placed ∧ a.attached = false) ∧
      ∀ a ∈ own, a.Placed ∧ a.attached = true := by
    refine ⟨_, _, rfl, fun a ha => ?_, fun a ha => (List.mem_append.1 ha).elim placed_hints placed_inline⟩
    obtain ⟨entry, -, hentry⟩ := List.mem_flatMap.1 ha
    exact placed_appliedSource hentry
  rw [happlied]
  -- what is attached appears after the rules, and what is not among them
  have hplace : ∀ c ∈ contenders answers property (rules ++ own),
      c.applied.Placed ∧ (c.applied.attached = true ↔ rules.length ≤ c.appearance) := by
    intro c hc
    have hget := mem_contenders hc
    rcases Nat.lt_or_ge c.appearance rules.length with hlt | hge
    · rw [List.getElem?_append_left hlt] at hget
      obtain ⟨hplaced, hattached⟩ := hrules _ (List.mem_of_getElem? hget)
      exact ⟨hplaced, by rw [hattached]; simp; omega⟩
    · rw [List.getElem?_append_right hge] at hget
      obtain ⟨hplaced, hattached⟩ := hown _ (List.mem_of_getElem? hget)
      exact ⟨hplaced, by rw [hattached]; simpa using hge⟩
  refine ⟨fun c hc => (hplace c hc).1, fun c hc m hm hrule howned => ?_, fun c hc m hm heq => ?_⟩
  · have hm' := (hplace m hm).2.1 howned
    by_contra hlt
    have hc' := (hplace c hc).2.2 (by omega)
    rw [hrule] at hc'
    cases hc'
  · have hget := mem_contenders hc
    rw [heq, mem_contenders hm] at hget
    exact (Option.some.inj hget).symm

end Placed

/-! ## Standing against priority -/

theorem layerRank_eq (a : Applied) (orders : LayerOrders) :
    layerRank orders a.origin a.source a.layer a.important = a.layerStanding orders := by
  unfold layerRank Applied.layerStanding Applied.layerPlace
  cases a.layer with
  | none => simp
  | some layer => rfl

theorem level_eq (a : Applied) : a.level = 3 * a.important.toNat + originRank a.origin a.important := by
  unfold Applied.level
  cases a.origin <;> cases a.important <;> rfl

theorem originRank_lt (origin : CascadeOrigin) (important : Bool) : originRank origin important < 3 := by
  cases origin <;> cases important <;> decide

theorem level_inj {a b : Applied} (h : a.level = b.level) : a.origin = b.origin ∧ a.important = b.important := by
  unfold Applied.level at h
  cases ha : a.origin <;> cases ha' : a.important <;> cases hb : b.origin <;> cases hb' : b.important <;>
    simp only [ha, ha', hb, hb'] at h <;> first | exact ⟨rfl, rfl⟩ | cases h

/-- two numbers, the second below a bound, are compared as one -/
theorem cons_cons_lt {x y x' y' : ℕ} {l l' : List ℕ} (hy : y < 3) (hy' : y' < 3) :
    x :: y :: l < x' :: y' :: l' ↔ (3 * x + y) :: l < (3 * x' + y') :: l' := by
  rw [List.cons_lt_cons_iff, List.cons_lt_cons_iff, List.cons_lt_cons_iff]
  by_cases hl : l < l'
  · simp only [hl, and_true]
    omega
  · simp only [hl, and_false, or_false]
    omega

/-- what the cascade compares -/
def Contender.ranked (c : Contender) (orders : LayerOrders) : List ℕ :=
  c.applied.level :: c.applied.context :: c.applied.layerStanding orders :: c.last

theorem fields_lt_iff {orders : LayerOrders} {c m : Contender} :
    (c.candidate orders).priority.fields < (m.candidate orders).priority.fields ↔ c.ranked orders < m.ranked orders := by
  unfold Contender.ranked
  rw [level_eq, level_eq, ← cons_cons_lt (originRank_lt _ _) (originRank_lt _ _)]
  unfold Priority.fields Contender.candidate Applied.candidate Contender.last
  dsimp only
  rw [layerRank_eq, layerRank_eq]
  simp only [List.cons_lt_cons_iff, Nat.add_lt_add_iff_right, Nat.add_right_cancel_iff, List.not_lt_nil, and_false, or_false]
  rfl

/-- a declaration that comes after another by the criteria comes after it for the cascade too, unless it is a rule and the
other one is not -/
theorem ranked_of_standing {orders : LayerOrders} {c m : Contender} (h : c.standing orders < m.standing orders) :
    c.ranked orders < m.ranked orders ∨ ((c.applied.attached = false ∧ m.applied.attached = true) ∧
      c.applied.level = m.applied.level ∧ c.applied.context = m.applied.context) := by
  unfold Contender.standing at h
  unfold Contender.ranked
  rw [List.cons_lt_cons_iff] at h ⊢
  rcases h with hlevel | ⟨hlevel, h⟩
  · exact Or.inl (Or.inl hlevel)
  rw [List.cons_lt_cons_iff] at h ⊢
  rcases h with hcontext | ⟨hcontext, h⟩
  · exact Or.inl (Or.inr ⟨hlevel, Or.inl hcontext⟩)
  rw [List.cons_lt_cons_iff] at h
  rcases h with hattached | ⟨-, h⟩
  · refine Or.inr ⟨?_, hlevel, hcontext⟩
    revert hattached
    cases c.applied.attached <;> cases m.applied.attached <;> simp
  · exact Or.inl (Or.inr ⟨hlevel, Or.inr ⟨hcontext, h⟩⟩)

/-- the standing of a declaration of the element among the layers -/
theorem layerStanding_own {a : Applied} {orders : LayerOrders} (h : a.layer = none) :
    a.layerStanding orders = if a.important then 0 else (orders a.origin).length := by
  unfold Applied.layerStanding Applied.layerPlace
  rw [h, Nat.sub_self]

theorem context_eq {a b : Applied} (himportant : a.important = b.important) (hdepth : a.depth = b.depth) :
    a.context = b.context := by
  unfold Applied.context
  rw [himportant, hdepth]

theorem level_congr {a b : Applied} (horigin : a.origin = b.origin) (himportant : a.important = b.important) :
    a.level = b.level := by
  unfold Applied.level
  rw [horigin, himportant]

theorem depth_eq {a b : Applied} (ha : a.Placed) (hb : b.Placed) (himportant : a.important = b.important)
    (h : a.context = b.context) : a.depth = b.depth := by
  have ha := ha.depth
  have hb := hb.depth
  unfold Applied.context at h
  rw [himportant] at h
  split at h <;> omega

theorem layerPlace_le (a : Applied) (orders : LayerOrders) : a.layerPlace orders ≤ (orders a.origin).length := by
  unfold Applied.layerPlace
  cases a.layer with
  | none => exact le_rfl
  | some layer =>
    dsimp only
    cases hfound : (orders a.origin).idxOf? (globalLayerKey layer a.source) with
    | none => exact le_rfl
    | some index =>
      have hlt := (List.findIdx?_eq_some_iff_getElem.1 hfound).1
      rw [Option.getD_some]
      exact hlt.le

theorem Specificity.eq_of {a b : Specificity} (hids : a.ids = b.ids) (hclasses : a.classes = b.classes)
    (htypes : a.types = b.types) : a = b := by
  cases a
  cases b
  obtain rfl := hids
  obtain rfl := hclasses
  obtain rfl := htypes
  rfl

/-- what displaces a declaration of the element comes before it in the cascade -/
theorem Displaces.ranked {orders : LayerOrders} {c m : Contender} (hm : m.applied.Placed) (h : Displaces orders c m) :
    m.ranked orders < c.ranked orders := by
  obtain ⟨⟨-, hattached⟩, ⟨horigin, himportant, hdepth⟩, hkind⟩ := h
  obtain ⟨hlayer, hproximity, hown⟩ := hm.own hattached
  have hle := layerPlace_le c.applied orders
  unfold Contender.ranked Contender.last
  rw [level_congr horigin himportant, context_eq himportant hdepth, List.cons_lt_cons_iff, List.cons_lt_cons_iff,
    layerStanding_own hlayer, hproximity, ← horigin]
  refine Or.inr ⟨rfl, Or.inr ⟨rfl, ?_⟩⟩
  unfold Applied.layerStanding
  rw [himportant]
  simp only [List.cons_lt_cons_iff, List.not_lt_nil, and_false, or_false]
  unfold Applied.InLayer at hkind
  rcases hkind with ⟨himp, hin⟩ | ⟨hua, hout, hspecific⟩ | ⟨hauthor, hout, hspecific, hscoped⟩
  · rw [if_pos himp, if_pos himp]
    omega
  · obtain ⟨-, himp, hzero⟩ := hown.resolve_right fun hauthor => by rw [hua] at hauthor; cases hauthor.1
    rw [himp, hzero]
    simp only [Bool.false_eq_true, if_false, Specificity.zero]
    rcases hspecific with hspecific | hscoped
    · have hne : ¬ (c.applied.specificity.ids = 0 ∧ c.applied.specificity.classes = 0 ∧
          c.applied.specificity.types = 0) := by
        rintro ⟨hids, hclasses, htypes⟩
        exact hspecific (Specificity.eq_of hids hclasses htypes)
      omega
    · omega
  · obtain ⟨-, hfull⟩ := hown.resolve_left fun hua => by rw [hauthor] at hua; cases hua.1
    rw [hspecific, hfull]
    split
    · omega
    · omega

/-- a rule that comes before a declaration of the element in the cascade displaces it -/
theorem displaces_of_ranked {orders : LayerOrders} {c m : Contender} (hc : c.applied.Placed) (hm : m.applied.Placed)
    (hattached : c.applied.attached = false ∧ m.applied.attached = true) (hlevel : c.applied.level = m.applied.level)
    (hcontext : c.applied.context = m.applied.context) (hfirst : c.appearance < m.appearance)
    (h : m.ranked orders < c.ranked orders) : Displaces orders c m := by
  obtain ⟨horigin, himportant⟩ := level_inj hlevel
  obtain ⟨hlayer, hproximity, hown⟩ := hm.own hattached.2
  obtain ⟨hids, hclasses, htypes⟩ := hc.bounded
  have hle := layerPlace_le c.applied orders
  refine ⟨hattached, ⟨horigin, himportant, depth_eq hc hm himportant hcontext⟩, ?_⟩
  unfold Contender.ranked Contender.last at h
  rw [hlevel, hcontext, List.cons_lt_cons_iff, List.cons_lt_cons_iff, layerStanding_own hlayer, hproximity,
    ← horigin] at h
  have h := (h.resolve_left (lt_irrefl _)).2
  have h := (h.resolve_left (lt_irrefl _)).2
  unfold Applied.layerStanding at h
  rw [himportant] at h
  simp only [List.cons_lt_cons_iff, List.not_lt_nil, and_false, or_false] at h
  unfold Applied.InLayer
  rcases hown with ⟨hua, himp, hzero⟩ | ⟨hauthor, hfull⟩
  · refine Or.inr (Or.inl ⟨hua, ?_⟩)
    rw [himp, hzero] at h
    simp only [Bool.false_eq_true, if_false, Specificity.zero] at h
    refine ⟨by omega, ?_⟩
    by_contra hplain
    obtain ⟨hspecificity, hscope⟩ := not_or.1 hplain
    rw [not_not.1 hspecificity] at h
    simp only [Specificity.zero] at h
    omega
  · rw [hfull] at h
    have hfullest : ¬ c.applied.layerPlace orders < (orders c.applied.origin).length →
        c.applied.specificity = inlineSpecificity ∧ c.applied.proximity < unscoped := by
      intro hout
      have hplace : c.applied.layerPlace orders = (orders c.applied.origin).length := by omega
      rw [hplace, Nat.sub_self] at h
      simp only [inlineSpecificity] at h
      have hrest : c.applied.specificity.ids = 2 ^ 32 - 1 ∧ c.applied.specificity.classes = 2 ^ 32 - 1 ∧
          c.applied.specificity.types = 2 ^ 32 - 1 ∧ c.applied.proximity < unscoped := by
        split at h <;> omega
      exact ⟨Specificity.eq_of hrest.1 hrest.2.1 hrest.2.2.1, hrest.2.2.2⟩
    by_cases hin : c.applied.layerPlace orders < (orders c.applied.origin).length
    · refine Or.inl ⟨?_, hin⟩
      by_contra himp
      rw [if_neg himp, if_neg himp] at h
      omega
    · exact Or.inr (Or.inr ⟨hauthor, hin, hfullest hin⟩)

/-! ## The winner -/

/-- no candidate rolls back an origin or a layer -/
def Plain (keyword : String → Option CssWideKeyword) (value : String) : Prop :=
  keyword value ≠ some .revert ∧ keyword value ≠ some .revertLayer

theorem firstHolding_plain {keyword : String → Option CssWideKeyword} {candidates : List Candidate}
    (h : ∀ c ∈ candidates, Plain keyword c.value.value) :
    firstHolding keyword candidates [] [] = candidates.head?.map Candidate.value := by
  cases candidates with
  | nil => rfl
  | cons c rest =>
    obtain ⟨hrevert, hlayer⟩ := h c List.mem_cons_self
    unfold firstHolding
    simp only [List.contains_nil, Bool.or_self, Bool.false_eq_true, if_false, List.head?_cons, Option.map_some]

/-- without roll-backs the cascade selects a candidate of the greatest priority -/
theorem select_spec {keyword : String → Option CssWideKeyword} {candidates : List Candidate} (hne : candidates ≠ [])
    (h : ∀ c ∈ candidates, Plain keyword c.value.value) :
    ∃ s ∈ candidates, selectCascadedCandidate keyword candidates = some s.value ∧
      ∀ c ∈ candidates, ¬ s.priority.fields < c.priority.fields := by
  have hsorted : (candidates.mergeSort fun a b => !decide (a.priority.fields < b.priority.fields)).Pairwise
      fun a b => (!decide (a.priority.fields < b.priority.fields)) = true := by
    refine List.pairwise_mergeSort (fun a b c hab hbc => ?_) (fun a b => ?_) candidates
    · simp only [Bool.not_eq_true', decide_eq_false_iff_not, not_lt] at hab hbc ⊢
      exact hbc.trans hab
    · simp only [Bool.or_eq_true, Bool.not_eq_true', decide_eq_false_iff_not, not_lt]
      exact le_total _ _
  have hmem (c : Candidate) :
      c ∈ candidates.mergeSort (fun a b => !decide (a.priority.fields < b.priority.fields)) ↔ c ∈ candidates :=
    List.mem_mergeSort
  unfold selectCascadedCandidate
  rw [firstHolding_plain fun c hc => h c ((hmem c).1 hc)]
  revert hsorted hmem
  generalize candidates.mergeSort (fun a b => !decide (a.priority.fields < b.priority.fields)) = sorted
  intro hsorted hmem
  cases sorted with
  | nil =>
    obtain ⟨c, hc⟩ := List.exists_mem_of_ne_nil _ hne
    exact absurd ((hmem c).2 hc) List.not_mem_nil
  | cons s rest =>
    refine ⟨s, (hmem s).1 List.mem_cons_self, rfl, fun c hc => ?_⟩
    rcases List.mem_cons.1 ((hmem c).2 hc) with rfl | hrest
    · exact lt_irrefl _
    · simpa using (List.pairwise_cons.1 hsorted).1 c hrest

/-- declarations of one standing have one priority -/
theorem ranked_eq_of_standing {orders : LayerOrders} {c m : Contender} (h : c.standing orders = m.standing orders) :
    c.ranked orders = m.ranked orders := by
  unfold Contender.standing at h
  unfold Contender.ranked
  simp only [List.cons.injEq] at h ⊢
  exact ⟨h.1, h.2.1, h.2.2.2⟩

theorem appearance_eq_of_ranked {orders : LayerOrders} {c m : Contender} (h : c.ranked orders = m.ranked orders) :
    c.appearance = m.appearance := by
  unfold Contender.ranked Contender.last at h
  simp only [List.cons.injEq] at h
  exact h.2.2.2.2.2.2.2.1

section Winner

variable (d : Dom) {Container : Type} (answers : Answers Container) (includeStartingStyle : Bool)

/-- the cascaded value of the property is that of the contender that comes first -/
def CascadesLeader (element : NodeId) (sources : List (CascadeInput Container)) (context : MatchContext)
    (uaDeclarations inlineDeclarations : List Declaration) (property : String) : Prop :=
  ∃ leader, Leads (collectLayerOrders sources) (contenders answers property
      (applied d answers includeStartingStyle element sources context uaDeclarations inlineDeclarations)) leader ∧
    CascadedStyle.get (cascade d answers includeStartingStyle none element sources context uaDeclarations
      inlineDeclarations) property = leader.map (·.cascaded (collectLayerOrders sources))

/-- where the cascade selects from contenders in order, it selects the one that comes first if and only if no rule displaces
it -/
theorem select_leads_iff {keyword : String → Option CssWideKeyword} {orders : LayerOrders} {all : List Contender}
    (hordered : Ordered all) (hplain : ∀ c ∈ all, Plain keyword c.value) :
    (∃ leader, Leads orders all leader ∧
      selectCascadedCandidate keyword (all.map (·.candidate orders)) = leader.map (·.cascaded orders)) ↔
      ∀ m, Leads orders all (some m) → ∀ c ∈ all, ¬ Displaces orders c m := by
  have hcandidates : ∀ c ∈ all.map (·.candidate orders), Plain keyword c.value.value := fun c hc => by
    obtain ⟨contender, hmem, rfl⟩ := List.mem_map.1 hc
    exact hplain contender hmem
  rcases eq_or_ne all [] with rfl | hne
  · refine ⟨fun _ m hm => absurd hm.1 List.not_mem_nil, fun _ => ⟨none, rfl, ?_⟩⟩
    unfold selectCascadedCandidate
    rw [List.map_nil, List.mergeSort_nil]
    rfl
  obtain ⟨selected, hselected, hget, hgreatest⟩ := select_spec (by simpa using hne) hcandidates
  obtain ⟨s, hs, rfl⟩ := List.mem_map.1 hselected
  have hgreatest : ∀ c ∈ all, ¬ s.ranked orders < c.ranked orders := fun c hc hlt =>
    hgreatest _ (List.mem_map_of_mem hc) (fields_lt_iff.2 hlt)
  rw [hget]
  constructor
  · rintro ⟨leader, hleads, heq⟩ m hm c hc hdisplaces
    cases leader with
    | none => exact hne hleads
    | some w =>
      -- the selected candidate has the priority of the leader, and the leader the standing of m
      have hpriority : (s.candidate orders).priority = (w.candidate orders).priority :=
        congrArg CascadedValue.priority (Option.some.inj heq)
      have hstanding : m.standing orders = w.standing orders :=
        le_antisymm (not_lt.1 (hleads.2 m hm.1)) (not_lt.1 (hm.2 w hleads.1))
      have hranked := hdisplaces.ranked (hordered.placed m hm.1)
      rw [ranked_eq_of_standing hstanding, ← fields_lt_iff, ← hpriority, fields_lt_iff] at hranked
      exact hgreatest c hc hranked
  · intro hnone
    refine ⟨some s, ⟨hs, fun c hc hlt => ?_⟩, rfl⟩
    -- the greatest standing
    obtain ⟨m, hmem, hmax⟩ := Set.exists_max_image {c | c ∈ all} (·.standing orders) all.finite_toSet
      (List.exists_mem_of_ne_nil all hne)
    have hleads : Leads orders all (some m) := ⟨hmem, fun c hc => not_lt.2 (hmax c hc)⟩
    have hbehind : s.standing orders < m.standing orders := lt_of_lt_of_le hlt (hmax c hc)
    rcases ranked_of_standing hbehind with hranked | ⟨hattached, hlevel, hcontext⟩
    · exact hgreatest m hmem hranked
    · have hfirst := hordered.rulesFirst s hs m hmem hattached.1 hattached.2
      rcases lt_or_eq_of_le (not_lt.1 (hgreatest m hmem)) with hranked | hranked
      · exact hnone m hleads s hs (displaces_of_ranked (hordered.placed s hs) (hordered.placed m hmem) hattached hlevel
          hcontext hfirst hranked)
      · have happearance := appearance_eq_of_ranked hranked
        omega

/-- **The cascade picks the declaration that comes first by the criteria, unless a rule displaces it.** For a property whose
declarations roll nothing back, the cascaded value is that of the first contender if and only if that one is not a
declaration of the element itself that a rule of the same origin, importance and tree displaces. -/
theorem cascade_leader_iff (element : NodeId) (sources : List (CascadeInput Container)) (context : MatchContext)
    (uaDeclarations inlineDeclarations : List Declaration) (property : String)
    (hcount : (applied d answers includeStartingStyle element sources context uaDeclarations
      inlineDeclarations).length < 2 ^ 64)
    (hplain : ∀ c ∈ contenders answers property (applied d answers includeStartingStyle element sources context
      uaDeclarations inlineDeclarations), Plain answers.cssWideKeyword c.value) :
    CascadesLeader d answers includeStartingStyle element sources context uaDeclarations inlineDeclarations property ↔
      ∀ m, Leads (collectLayerOrders sources) (contenders answers property (applied d answers includeStartingStyle element
          sources context uaDeclarations inlineDeclarations)) (some m) →
        ∀ c ∈ contenders answers property (applied d answers includeStartingStyle element sources context uaDeclarations
          inlineDeclarations), ¬ Displaces (collectLayerOrders sources) c m := by
  unfold CascadesLeader
  rw [cascade_get d answers includeStartingStyle element sources context uaDeclarations inlineDeclarations property hcount]
  exact select_leads_iff (ordered_contenders element sources context uaDeclarations inlineDeclarations property) hplain

end Winner

/-! ## A layer before the `style` attribute -/

/-- `color: blue` -/
def blue (important : Bool) : Declaration := ⟨"color", "blue", important⟩

/-- what applies to `<b style="color: blue">` -/
def blueApplied (important : Bool) : Applied :=
  ⟨blue important, important, .author, true, 0, true, 1, none, inlineSpecificity, unscoped⟩

/-- `@layer x { b { color: red !important } }` -/
def layeredSheet : CascadeInput Empty where
  sheet :=
    { rules := [⟨[typeB], [⟨"color", "red", true⟩], some (.named ["x"]), [], [], [], false⟩]
      layerOrder := [.named ["x"]]
      scopeOwner := none
      treeRoot := none }
  origin := .author

/-- what applies of a sheet with the rule `b { color: red }` -/
def redApplied (important : Bool) (layer : Option LayerName) : Applied :=
  ⟨⟨"color", "red", important⟩, important, .author, true, 0, false, 0, layer, ⟨0, 0, 1⟩, unscoped⟩

theorem plain_plainAnswers (value : String) : Plain plainAnswers.cssWideKeyword value := by
  constructor <;> exact Option.some_ne_none _ ∘ Eq.symm

theorem applied_oneRule : applied oneElement plainAnswers false 1 [oneRule typeB] {} [] [blue false] =
    [redApplied false none, blueApplied false] := rfl

theorem applied_layeredSheet : applied oneElement plainAnswers false 1 [layeredSheet] {} [] [blue true] =
    [redApplied true (some (.named ["x"])), blueApplied true] := rfl

theorem cascade_leader_oneRule :
    CascadesLeader oneElement plainAnswers false 1 [oneRule typeB] {} [] [blue false] "color" := by
  have hcontenders : contenders plainAnswers "color"
      (applied oneElement plainAnswers false 1 [oneRule typeB] {} [] [blue false]) =
        [⟨redApplied false none, "red", 0⟩, ⟨blueApplied false, "blue", 1⟩] := rfl
  refine (cascade_leader_iff oneElement plainAnswers false 1 [oneRule typeB] {} [] [blue false] "color" ?_ ?_).2 ?_
  · rw [applied_oneRule]
    decide
  · exact fun c _ => plain_plainAnswers c.value
  · rw [hcontenders]
    intro m hm c hc
    have hnone : ∀ m ∈ [(⟨redApplied false none, "red", 0⟩ : Contender), ⟨blueApplied false, "blue", 1⟩],
        ∀ c ∈ [(⟨redApplied false none, "red", 0⟩ : Contender), ⟨blueApplied false, "blue", 1⟩],
          ¬ Displaces (collectLayerOrders [oneRule typeB]) c m := by decide
    exact hnone m hm.1 c hc

/-- **An important `style` attribute loses to a layer.** Of an important rule in a layer and an important `style` attribute
the cascade picks the rule, though declarations of the element itself come before layers. -/
theorem cascade_leader_layeredSheet :
    ¬ CascadesLeader oneElement plainAnswers false 1 [layeredSheet] {} [] [blue true] "color" := by
  have hcontenders : contenders plainAnswers "color"
      (applied oneElement plainAnswers false 1 [layeredSheet] {} [] [blue true]) =
        [⟨redApplied true (some (.named ["x"])), "red", 0⟩, ⟨blueApplied true, "blue", 1⟩] := rfl
  unfold CascadesLeader
  rw [cascade_get _ _ _ _ _ _ _ _ _ (by rw [applied_layeredSheet]; decide),
    select_leads_iff (ordered_contenders 1 [layeredSheet] {} [] [blue true] "color")
      fun c _ => plain_plainAnswers c.value, hcontenders]
  intro hnone
  refine hnone ⟨blueApplied true, "blue", 1⟩ ⟨by simp, ?_⟩ ⟨redApplied true (some (.named ["x"])), "red", 0⟩ (by simp) ?_
  · intro c hc
    simp only [List.mem_cons, List.not_mem_nil, or_false] at hc
    rcases hc with rfl | rfl
    · decide
    · exact lt_irrefl _
  · decide

end Render.Css
