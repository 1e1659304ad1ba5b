/-
Relative selectors (`render-css/src/selector.rs`): what `:has()` tries, and what it should find.

`matchesRelative` collects candidates by the leading combinator, and asks each whether it is the subject of a match that
is tied to the anchor. The meaning of the selector is `Witness`: elements of the anchor's tree, one for each compound,
every two of them related by the combinator between them (`Related`, told by the tree alone). What the code asks of a
candidate is that (`matchesRelativeAt_iff`). The candidates are all that can be witnesses, because combinators do not
lead out of the region they start in (`Inside`, `Behind`), except behind a leading `+`: there only the next sibling is
tried and what is below it, which the combinators `+` and `~` leave.
-/
import Render.Css.Matching
import Render.Dom.TreeRuns

namespace Render.Css

open Render.Core

/-! ## Relations of elements -/

section Relations

variable (d : Dom)

/-- the element stands before its sibling, with the nodes between them -/
def StandsBefore (m n : NodeId) (between : List NodeId) : Prop :=
  isElement d m ∧ ∃ parent front back, d.childrenOf parent = front ++ m :: (between ++ n :: back)

/-- the node is below another -/
def Inside (above n : NodeId) : Prop := above ≠ n ∧ d.links.Above above n

/-- the combinator leads from the element to the node -/
def Related : Combinator → NodeId → NodeId → Prop
  | .descendant, m, n => isElement d m ∧ Inside d m n
  | .child, m, n => isElement d m ∧ d.parent n = some m
  | .nextSibling, m, n => ∃ between, StandsBefore d m n between ∧ ∀ x ∈ between, isElement d x = false
  | .subsequentSibling, m, n => ∃ between, StandsBefore d m n between

/-- the node is a later sibling, or below one -/
def Behind (anchor n : NodeId) : Prop :=
  ∃ sibling, Related d .subsequentSibling anchor sibling ∧ d.links.Above sibling n

/-- the elements of a match: the subject's comes last, and the leading combinator leads from the anchor to the first -/
inductive RelativeMatch (context : MatchContext) (leading : Combinator) (anchor : NodeId) :
    ComplexSelector → Bool → NodeId → Prop
  | compound {compound : CompoundSelector} {subject : Bool} {n : NodeId}
      (h : matchesCompound d compound context subject n) (htied : Related d leading anchor n) :
      RelativeMatch context leading anchor (.compound compound) subject n
  | combined {before : ComplexSelector} {combinator : Combinator} {compound : CompoundSelector} {subject : Bool}
      {m n : NodeId} (h : matchesCompound d compound context subject n) (hrelated : Related d combinator m n)
      (hbefore : RelativeMatch context leading anchor before false m) :
      RelativeMatch context leading anchor (.combined before combinator compound) subject n

/-- some element of the anchor's tree is the subject of a match -/
def Witness (context : MatchContext) (relative : RelativeSelector) (anchor : NodeId) : Prop :=
  match relative with
  | .mk leading selector => ∃ n, d.treeRoot n = d.treeRoot anchor ∧ isElement d n ∧
    RelativeMatch d context leading anchor selector true n

/-- the combinator behind the first compound -/
def ComplexSelector.firstCombinator : ComplexSelector → Option Combinator
  | .compound _ => none
  | .combined before combinator _ => before.firstCombinator.or (some combinator)

/-- the combinators that stay among the children of one parent -/
def Combinator.isSibling (combinator : Combinator) : Bool :=
  combinator = .nextSibling || combinator = .subsequentSibling

/-- the selector starts with `+`, and goes on with a sibling of the first element -/
def RelativeSelector.leavesNext : RelativeSelector → Bool
  | .mk leading selector => leading = .nextSibling && selector.firstCombinator.any Combinator.isSibling

/-- `matches_relative` -/
def matchesRelative (relative : RelativeSelector) (context : MatchContext) (anchor : NodeId) : Bool :=
  match relative with
  | .mk leading selector => (relativeCandidates d leading anchor).any fun candidate =>
    matchesRelativeAt d selector context leading anchor true candidate

end Relations

variable {d : Dom}

section Tree

variable (hd : TreeInv d)

/-! ## Loops over siblings -/

theorem isElement_iff_tag (n : NodeId) : isElement d n ↔ d.tagOf n = some .element := by
  rw [isElement, Dom.elementOf, Dom.tagOf]
  cases hkind : d.kindOf n with
  | none => simp
  | some kind => cases kind <;> simp [NodeKind.tag]

theorem children_of_siblings {parent n : NodeId} {front back : List NodeId}
    (h : d.childrenOf parent = front ++ n :: back) : d.children parent = some (front ++ n :: back) := by
  rw [Dom.childrenOf] at h
  cases hchildren : d.children parent with
  | none =>
    rw [hchildren] at h
    simp at h
  | some children =>
    rw [hchildren] at h
    exact congrArg some h

include hd

theorem parent_of_siblings {parent n : NodeId} {front back : List NodeId}
    (h : d.childrenOf parent = front ++ n :: back) : d.parent n = some parent :=
  hd.mem_children.1 (by simp [h])

theorem idxOf_of_siblings {parent n : NodeId} {front back : List NodeId}
    (h : d.childrenOf parent = front ++ n :: back) : (front ++ n :: back).idxOf? n = some front.length := by
  have hnodup := hd.forest.nodup parent
  rw [Dom.links_children, h, List.nodup_append] at hnodup
  rw [List.idxOf?_eq_some_iff]
  refine ⟨by simp, by simp, fun j hj => ?_⟩
  rw [List.getElem_append_left hj]
  simpa using fun heq => hnodup.2.2 _ (List.getElem_mem hj) n (List.mem_cons_self ..) heq

theorem nextSibling_of_siblings {parent n : NodeId} {front back : List NodeId}
    (h : d.childrenOf parent = front ++ n :: back) : d.nextSibling n = back.head? := by
  simp only [Dom.nextSibling, Option.bind_eq_bind, parent_of_siblings hd h, children_of_siblings h,
    idxOf_of_siblings hd h, Option.bind_some]
  rw [List.getElem?_append_right (by omega), show front.length + 1 - front.length = 1 by omega, List.getElem?_cons_succ,
    List.head?_eq_getElem?]

theorem previousSibling_of_siblings {parent n : NodeId} {front back : List NodeId}
    (h : d.childrenOf parent = front ++ n :: back) : d.previousSibling n = front.getLast? := by
  simp only [Dom.previousSibling, Option.bind_eq_bind, parent_of_siblings hd h, children_of_siblings h,
    idxOf_of_siblings hd h, Option.bind_some]
  rw [List.getLast?_eq_getElem?]
  split_ifs with hempty
  · rw [List.length_eq_zero_iff.1 hempty]
    rfl
  · exact List.getElem?_append_left (by omega)

theorem siblings_length (parent : NodeId) : (d.childrenOf parent).length ≤ d.nodes.length := by
  have hrange : (d.childrenOf parent).toFinset ⊆ Finset.range d.nodes.length := fun n hn =>
    Finset.mem_range.2 (Dom.parent_lt (hd.mem_children.1 (List.mem_toFinset.1 hn)))
  have hnodup : (d.childrenOf parent).Nodup := hd.forest.nodup parent
  have hcard := Finset.card_le_card hrange
  rwa [List.toFinset_card_of_nodup hnodup, Finset.card_range] at hcard

theorem walk_nextSibling {parent n : NodeId} {front back : List NodeId} (h : d.childrenOf parent = front ++ n :: back) :
    walk d.nextSibling (back.length + 1) n = some (n :: back) := by
  induction back generalizing front n with
  | nil => exact walk_succ_none _ (nextSibling_of_siblings hd h)
  | cons next back ih =>
    rw [walk_succ_some _ (nextSibling_of_siblings hd h), List.length_cons,
      @ih next (front ++ [n]) (by rw [h, List.append_assoc, List.singleton_append])]
    rfl

theorem walk_previousSibling {parent n : NodeId} {front back : List NodeId}
    (h : d.childrenOf parent = front.reverse ++ n :: back) :
    walk d.previousSibling (front.length + 1) n = some (n :: front) := by
  induction front generalizing back n with
  | nil => exact walk_succ_none _ (previousSibling_of_siblings hd h)
  | cons previous front ih =>
    have hprevious : d.previousSibling n = some previous := by
      rw [previousSibling_of_siblings hd h, List.reverse_cons, List.getLast?_concat]
    rw [walk_succ_some _ hprevious, List.length_cons,
      @ih previous (n :: back) (by rw [h, List.reverse_cons, List.append_assoc, List.singleton_append])]
    rfl

theorem visited_nextSibling {parent n : NodeId} {front back : List NodeId}
    (h : d.childrenOf parent = front ++ n :: back) : visited d d.nextSibling n = back := by
  have hlength := siblings_length hd parent
  rw [h, List.length_append, List.length_cons] at hlength
  rw [visited, walk_mono (walk_nextSibling hd h) (by rw [Dom.passes]; omega)]
  rfl

theorem visited_previousSibling {parent n : NodeId} {front back : List NodeId}
    (h : d.childrenOf parent = front ++ n :: back) : visited d d.previousSibling n = front.reverse := by
  have hlength := siblings_length hd parent
  rw [h, List.length_append, List.length_cons] at hlength
  rw [← List.reverse_reverse front] at h
  have hwalk := walk_previousSibling hd h
  rw [List.length_reverse] at hwalk
  rw [visited, walk_mono hwalk (by rw [Dom.passes]; omega)]
  rfl

omit hd in
theorem visited_none {next : NodeId → Option NodeId} {n : NodeId} (h : next n = none) : visited d next n = [] := by
  rw [visited, walk_succ_none _ h]
  rfl

/-- a node stands alone, or in a list of children -/
theorem siblings_cases (n : NodeId) :
    d.parent n = none ∨ ∃ parent front back, d.childrenOf parent = front ++ n :: back := by
  cases hparent : d.parent n with
  | none => exact Or.inl rfl
  | some parent =>
    obtain ⟨front, back, h⟩ := List.append_of_mem (hd.mem_children.2 hparent)
    exact Or.inr ⟨parent, front, back, h⟩

theorem mem_previousElementSiblings {m n : NodeId} :
    m ∈ previousElementSiblings d n ↔ Related d .subsequentSibling m n := by
  rw [previousElementSiblings, List.mem_filter]
  constructor
  · rintro ⟨hmem, helement⟩
    rcases siblings_cases hd n with hparent | ⟨parent, front, back, h⟩
    · rw [visited_none (by rw [Dom.previousSibling, hparent]; rfl)] at hmem
      cases hmem
    · rw [visited_previousSibling hd h, List.mem_reverse] at hmem
      obtain ⟨before, between, rfl⟩ := List.append_of_mem hmem
      exact ⟨between, helement, parent, before, back, by rw [h, List.append_assoc, List.cons_append]⟩
  · rintro ⟨between, helement, parent, front, back, h⟩
    rw [← List.cons_append, ← List.append_assoc] at h
    rw [visited_previousSibling hd h]
    exact ⟨by simp, helement⟩

theorem head?_previousElementSiblings {m n : NodeId} :
    (previousElementSiblings d n).head? = some m ↔ Related d .nextSibling m n := by
  rw [previousElementSiblings, List.head?_filter]
  constructor
  · intro hfind
    obtain ⟨helement, before, behind, hvisited, hbefore⟩ := List.find?_eq_some_iff_append.1 hfind
    rcases siblings_cases hd n with hparent | ⟨parent, front, back, h⟩
    · rw [visited_none (by rw [Dom.previousSibling, hparent]; rfl)] at hvisited
      simp at hvisited
    · rw [visited_previousSibling hd h, List.reverse_eq_iff] at hvisited
      refine ⟨before.reverse, ⟨helement, parent, behind.reverse, back, ?_⟩, fun x hx => ?_⟩
      · rw [h, hvisited, List.reverse_append, List.reverse_cons]
        simp
      · simpa using hbefore x (List.mem_reverse.1 hx)
  · rintro ⟨between, ⟨helement, parent, front, back, h⟩, hbetween⟩
    rw [← List.cons_append, ← List.append_assoc] at h
    rw [visited_previousSibling hd h, List.find?_eq_some_iff_append]
    refine ⟨helement, between.reverse, front.reverse, by simp, fun x hx => ?_⟩
    simpa using hbetween x (List.mem_reverse.1 hx)

theorem mem_nextElementSiblings {m n : NodeId} (hm : isElement d m) :
    n ∈ nextElementSiblings d m ↔ isElement d n ∧ Related d .subsequentSibling m n := by
  rw [nextElementSiblings, List.mem_filter]
  constructor
  · rintro ⟨hmem, helement⟩
    rcases siblings_cases hd m with hparent | ⟨parent, front, back, h⟩
    · rw [visited_none (by rw [Dom.nextSibling, hparent]; rfl)] at hmem
      cases hmem
    · rw [visited_nextSibling hd h] at hmem
      obtain ⟨between, behind, rfl⟩ := List.append_of_mem hmem
      exact ⟨helement, between, hm, parent, front, behind, h⟩
  · rintro ⟨helement, between, -, parent, front, back, h⟩
    rw [visited_nextSibling hd h]
    exact ⟨by simp, helement⟩

theorem head?_nextElementSiblings {m n : NodeId} (hm : isElement d m) :
    (nextElementSiblings d m).head? = some n ↔ isElement d n ∧ Related d .nextSibling m n := by
  rw [nextElementSiblings, List.head?_filter]
  constructor
  · intro hfind
    obtain ⟨helement, between, behind, hvisited, hbetween⟩ := List.find?_eq_some_iff_append.1 hfind
    rcases siblings_cases hd m with hparent | ⟨parent, front, back, h⟩
    · rw [visited_none (by rw [Dom.nextSibling, hparent]; rfl)] at hvisited
      simp at hvisited
    · rw [visited_nextSibling hd h] at hvisited
      rw [hvisited] at h
      exact ⟨helement, between, ⟨hm, parent, front, behind, h⟩, fun x hx => by simpa using hbetween x hx⟩
  · rintro ⟨helement, between, ⟨-, parent, front, back, h⟩, hbetween⟩
    rw [visited_nextSibling hd h, List.find?_eq_some_iff_append]
    exact ⟨helement, between, back, rfl, fun x hx => by simp [hbetween x hx]⟩

/-! ## Loops over parents -/

/-- what a loop over parents visits, if it follows the parents of the tree -/
theorem mem_visited {next : NodeId → Option NodeId} (hnext : ∀ a b, next a = some b → d.parent a = some b)
    {m n : NodeId} : m ∈ visited d next n ↔ ∃ parent, next n = some parent ∧ Up next parent m := by
  cases hparent : next n with
  | none => simp [visited_none hparent]
  | some parent =>
    have hS : ∀ a b, next a = some b → a ∈ Finset.range d.nodes.length := fun a b h =>
      Finset.mem_range.2 (Dom.parent_lt (hnext a b h))
    have hends : Ends next parent := (hd.ends parent).mono hnext
    obtain ⟨nodes, hwalk⟩ := walk_enough (Finset.range d.nodes.length) hS hends (k := d.passes) (by simp [Dom.passes])
    rw [visited, walk_succ_some _ hparent, hwalk]
    simp [mem_walk_iff hwalk]

theorem mem_visited_parent {m n : NodeId} : m ∈ visited d d.parent n ↔ Inside d m n := by
  rw [mem_visited hd fun _ _ h => h]
  constructor
  · rintro ⟨parent, hparent, hup⟩
    refine ⟨fun heq => ?_, Up.head hparent hup⟩
    rw [heq] at hup
    exact hd.forest.not_above_parent hparent hup
  · rintro ⟨hne, habove⟩
    obtain rfl | hparent := habove.cases
    · exact absurd rfl hne
    · exact hparent

/-- what has a parent and a child is an element -/
theorem isElement_between {c m p : NodeId} (hc : d.parent c = some m) (hm : d.parent m = some p) : isElement d m := by
  obtain ⟨childTag, tag, -, htag, hholds⟩ := hd.kinds c m hc
  obtain ⟨tag', parentTag, htag', -, hheld⟩ := hd.kinds m p hm
  rw [htag] at htag'
  cases htag'
  rw [isElement_iff_tag, htag]
  cases tag <;> cases childTag <;> cases parentTag <;> simp_all [NodeTag.mayHold]

theorem mem_visited_elementParent {m n : NodeId} :
    m ∈ visited d (elementParent d) n ↔ Related d .descendant m n := by
  have hnext : ∀ a b, elementParent d a = some b → d.parent a = some b := fun a b h =>
    (Option.filter_eq_some_iff.1 h).1
  rw [mem_visited hd hnext]
  constructor
  · rintro ⟨parent, hparent, hup⟩
    have hinside : Inside d m n := (mem_visited_parent hd).1
      ((mem_visited hd fun _ _ h => h).2 ⟨parent, hnext n parent hparent, hup.mono hnext⟩)
    refine ⟨?_, hinside⟩
    cases hup with
    | refl => exact (Option.filter_eq_some_iff.1 hparent).2
    | tail _ hlast => exact (Option.filter_eq_some_iff.1 hlast).2
  · rintro ⟨helement, hinside⟩
    obtain ⟨parent, hparent, hup⟩ := (mem_visited hd fun _ _ h => h).1 ((mem_visited_parent hd).2 hinside)
    -- every node on the way up to an element is one
    have hway : ∀ {n parent : NodeId}, d.parent n = some parent → Up d.parent parent m →
        elementParent d n = some parent ∧ Up (elementParent d) parent m := by
      intro n parent hparent hup
      induction hup using Relation.ReflTransGen.head_induction_on generalizing n with
      | refl => exact ⟨Option.filter_eq_some_iff.2 ⟨hparent, helement⟩, Up.refl m⟩
      | head hstep _ ih =>
        obtain ⟨hnext, hrest⟩ := ih hstep
        exact ⟨Option.filter_eq_some_iff.2 ⟨hparent, isElement_between hd hparent hstep⟩, Up.head hnext hrest⟩
    exact ⟨parent, hway hparent hup⟩

/-! ## What the code asks of a candidate -/

theorem mem_relatedInTree {combinator : Combinator} {m n : NodeId} :
    m ∈ relatedInTree d combinator n ↔ Related d combinator m n := by
  cases combinator with
  | descendant => exact mem_visited_elementParent hd
  | child =>
    rw [relatedInTree, Option.mem_toList, elementParent, Option.filter_eq_some_iff]
    exact and_comm
  | nextSibling =>
    rw [relatedInTree, ← head?_previousElementSiblings hd]
    cases previousElementSiblings d n <;> simp [eq_comm]
  | subsequentSibling => exact mem_previousElementSiblings hd

theorem isTied_iff {leading : Combinator} {anchor n : NodeId} (hanchor : isElement d anchor) :
    isTied d leading anchor n ↔ Related d leading anchor n := by
  cases leading with
  | descendant =>
    rw [isTied, isDescendantOf, List.contains_iff_mem, mem_visited_parent hd]
    exact ⟨fun h => ⟨hanchor, h⟩, And.right⟩
  | child =>
    rw [isTied, decide_eq_true_eq, elementParent, Option.filter_eq_some_iff]
    exact and_comm
  | nextSibling => rw [isTied, decide_eq_true_eq, head?_previousElementSiblings hd]
  | subsequentSibling => rw [isTied, List.contains_iff_mem, mem_previousElementSiblings hd]

/-- **What the code asks of a candidate is a match.** -/
theorem matchesRelativeAt_iff {anchor : NodeId} (hanchor : isElement d anchor) (selector : ComplexSelector)
    (context : MatchContext) (leading : Combinator) (subject : Bool) (n : NodeId) :
    matchesRelativeAt d selector context leading anchor subject n ↔
      RelativeMatch d context leading anchor selector subject n := by
  cases selector with
  | compound compound =>
    rw [matchesRelativeAt, Bool.and_eq_true, isTied_iff hd hanchor]
    constructor
    · rintro ⟨h, htied⟩
      exact .compound h htied
    · intro h
      cases h with
      | compound h htied => exact ⟨h, htied⟩
  | combined before combinator compound =>
    rw [matchesRelativeAt, Bool.and_eq_true, List.any_eq_true]
    constructor
    · rintro ⟨h, m, hm, hbefore⟩
      exact .combined h ((mem_relatedInTree hd).1 hm)
        ((matchesRelativeAt_iff hanchor before context leading false m).1 hbefore)
    · intro h
      cases h with
      | @combined _ _ _ _ m _ h hrelated hbefore =>
        exact ⟨h, m, (mem_relatedInTree hd).2 hrelated,
          (matchesRelativeAt_iff hanchor before context leading false m).2 hbefore⟩

/-! ## Regions -/

theorem inside_of_parent {above n parent : NodeId} (hparent : d.parent n = some parent) :
    Inside d above n ↔ d.links.Above above parent := by
  constructor
  · rintro ⟨hne, habove⟩
    obtain rfl | ⟨p, hp, hup⟩ := habove.cases
    · exact absurd rfl hne
    · rw [Dom.links_parent, hparent] at hp
      cases hp
      exact hup
  · intro habove
    refine ⟨fun heq => ?_, habove.trans (Links.Above.of_parent hparent)⟩
    rw [heq] at habove
    exact hd.forest.not_above_parent hparent habove

theorem parents_of_siblings {m n : NodeId} {between : List NodeId} (h : StandsBefore d m n between) :
    ∃ parent, d.parent m = some parent ∧ d.parent n = some parent := by
  obtain ⟨-, parent, front, back, h⟩ := h
  refine ⟨parent, parent_of_siblings hd h, ?_⟩
  rw [← List.cons_append, ← List.append_assoc] at h
  exact parent_of_siblings hd h

theorem ne_of_siblings {m n : NodeId} {between : List NodeId} (h : StandsBefore d m n between) : m ≠ n := by
  obtain ⟨-, parent, front, back, h⟩ := h
  have hnodup : (d.childrenOf parent).Nodup := hd.forest.nodup parent
  rw [h, List.nodup_append] at hnodup
  rintro rfl
  simpa using (List.nodup_cons.1 hnodup.2.1).1

/-- combinators do not lead out of a subtree, if they start below its top -/
theorem Related.inside {combinator : Combinator} {top m n : NodeId} (h : Related d combinator m n)
    (htop : Inside d top m) : Inside d top n := by
  have hsiblings {between : List NodeId} (h : StandsBefore d m n between) : Inside d top n := by
    obtain ⟨parent, hm, hn⟩ := parents_of_siblings hd h
    exact (inside_of_parent hd hn).2 ((inside_of_parent hd hm).1 htop)
  cases combinator with
  | descendant =>
    refine ⟨fun heq => ?_, htop.2.trans h.2.2⟩
    rw [← heq] at h
    exact htop.1 (hd.forest.antisymm htop.2 h.2.2)
  | child => exact (inside_of_parent hd h.2).2 htop.2
  | nextSibling =>
    obtain ⟨between, h, -⟩ := h
    exact hsiblings h
  | subsequentSibling =>
    obtain ⟨between, h⟩ := h
    exact hsiblings h

theorem Related.trans_siblings {m n o : NodeId} {between : List NodeId} (h : Related d .subsequentSibling m n)
    (h' : StandsBefore d n o between) : Related d .subsequentSibling m o := by
  obtain ⟨before, hm, parent, front, back, h⟩ := h
  obtain ⟨-, parent', front', back', h'⟩ := h'
  have hback : back = between ++ o :: back' := by
    rw [← visited_nextSibling hd h', ← @visited_nextSibling d hd parent n (front ++ m :: before) back
      (by rw [h, List.append_assoc, List.cons_append])]
  rw [hback, ← List.cons_append, ← List.append_assoc] at h
  exact ⟨before ++ n :: between, hm, parent, front, back', by rw [h]; simp⟩

/-- combinators do not lead out of what is behind an element -/
theorem Related.behind {combinator : Combinator} {anchor m n : NodeId} (h : Related d combinator m n)
    (hbehind : Behind d anchor m) : Behind d anchor n := by
  obtain ⟨sibling, hsibling, habove⟩ := hbehind
  by_cases heq : sibling = m
  · subst heq
    cases combinator with
    | descendant => exact ⟨sibling, hsibling, h.2.2⟩
    | child => exact ⟨sibling, hsibling, Links.Above.of_parent h.2⟩
    | nextSibling =>
      obtain ⟨between, h, -⟩ := h
      exact ⟨n, hsibling.trans_siblings hd h, Links.Above.refl n⟩
    | subsequentSibling =>
      obtain ⟨between, h⟩ := h
      exact ⟨n, hsibling.trans_siblings hd h, Links.Above.refl n⟩
  · exact ⟨sibling, hsibling, (h.inside hd ⟨heq, habove⟩).2⟩

omit hd in
/-- a match stays in a region that no combinator leads out of -/
theorem RelativeMatch.region {context : MatchContext} {leading : Combinator} {anchor n : NodeId}
    {selector : ComplexSelector} {subject : Bool} {region : NodeId → Prop}
    (h : RelativeMatch d context leading anchor selector subject n)
    (hclosed : ∀ combinator m n, Related d combinator m n → region m → region n)
    (hfirst : ∀ n, Related d leading anchor n → region n) : region n := by
  induction h with
  | compound _ htied => exact hfirst _ htied
  | combined _ hrelated _ ih => exact hclosed _ _ _ hrelated ih

omit hd in
theorem RelativeMatch.element {context : MatchContext} {leading : Combinator} {anchor n : NodeId}
    {selector : ComplexSelector} {subject : Bool} (h : RelativeMatch d context leading anchor selector subject n) :
    isElement d n := by
  have helement {compound : CompoundSelector} (h : matchesCompound d compound context subject n) : isElement d n := by
    obtain ⟨typeSelector, simple, pseudoElement⟩ := compound
    rw [matchesCompound] at h
    rw [isElement]
    cases hdata : d.elementOf n with
    | none => simp [hdata] at h
    | some data => rfl
  cases h with
  | compound h _ => exact helement h
  | combined h _ _ => exact helement h

/-! ## Candidates -/

theorem mem_elementDescendants {top n : NodeId} : n ∈ elementDescendants d top ↔ isElement d n ∧ Inside d top n := by
  rw [elementDescendants, List.mem_filter, hd.mem_descendants, and_comm]
  refine and_congr_right fun _ => ?_
  constructor
  · rintro ⟨child, hchild, habove⟩
    have hparent := hd.mem_children.1 hchild
    refine ⟨fun heq => ?_, habove.parent_left hparent⟩
    rw [← heq] at habove
    exact hd.forest.not_above_parent hparent habove
  · rintro ⟨hne, habove⟩
    obtain rfl | ⟨child, hchild, habove⟩ := habove.cases_child
    · exact absurd rfl hne
    · exact ⟨child, hd.mem_children.2 hchild, habove⟩

theorem mem_siblings_descendants {siblings : List NodeId} {n : NodeId} (hn : isElement d n) :
    (n ∈ siblings.flatMap fun sibling => sibling :: elementDescendants d sibling) ↔
      ∃ sibling ∈ siblings, d.links.Above sibling n := by
  simp only [List.mem_flatMap, List.mem_cons, mem_elementDescendants hd]
  constructor
  · rintro ⟨sibling, hsibling, rfl | ⟨-, -, habove⟩⟩
    · exact ⟨n, hsibling, Links.Above.refl n⟩
    · exact ⟨sibling, hsibling, habove⟩
  · rintro ⟨sibling, hsibling, habove⟩
    by_cases heq : sibling = n
    · exact ⟨sibling, hsibling, Or.inl heq.symm⟩
    · exact ⟨sibling, hsibling, Or.inr ⟨hn, heq, habove⟩⟩

theorem isElement_of_above {top n parent : NodeId} (hparent : d.parent top = some parent) (habove : d.links.Above top n)
    (hn : isElement d n) : isElement d top := by
  obtain rfl | ⟨child, hchild, -⟩ := habove.cases_child
  · exact hn
  · exact isElement_between hd hchild hparent

section Candidates

variable {context : MatchContext} {anchor : NodeId} {selector : ComplexSelector} {subject : Bool} {n : NodeId}

/-- behind `+`, a match that goes on with `>` or a blank is at the next sibling, or below it -/
theorem RelativeMatch.below_next (h : RelativeMatch d context .nextSibling anchor selector subject n)
    (hfirst : selector.firstCombinator.any Combinator.isSibling = false) :
    ∃ next, isElement d next ∧ Related d .nextSibling anchor next ∧ d.links.Above next n ∧
      (next = n → selector.firstCombinator = none) := by
  induction h with
  | compound h htied =>
    exact ⟨_, (RelativeMatch.compound h htied).element, htied, Links.Above.refl _, fun _ => rfl⟩
  | @combined before combinator compound subject m n h hrelated hbefore ih =>
    rw [ComplexSelector.firstCombinator] at hfirst
    have hrest : before.firstCombinator.any Combinator.isSibling = false := by
      cases hcombinator : before.firstCombinator with
      | none => rfl
      | some first => simpa [hcombinator] using hfirst
    obtain ⟨next, helement, hnext, habove, honly⟩ := ih hrest
    have hinside : Inside d next n := by
      by_cases heq : next = m
      · -- the first compound is at the next sibling, and this combinator leads below it
        rw [honly heq, Option.none_or, Option.any_some] at hfirst
        subst heq
        cases combinator with
        | descendant => exact hrelated.2
        | child => exact (inside_of_parent hd hrelated.2).2 (Links.Above.refl next)
        | nextSibling => cases hfirst
        | subsequentSibling => cases hfirst
      · exact hrelated.inside hd ⟨heq, habove⟩
    exact ⟨next, helement, hnext, hinside.2, fun heq => absurd heq hinside.1⟩

/-- behind `+`, a match that goes on with `+` or `~` is behind the next sibling -/
theorem RelativeMatch.behind_next (h : RelativeMatch d context .nextSibling anchor selector subject n)
    (hfirst : selector.firstCombinator.any Combinator.isSibling) :
    ∃ next, isElement d next ∧ Related d .nextSibling anchor next ∧ Behind d next n := by
  induction h with
  | compound h htied => cases hfirst
  | @combined before combinator compound subject m n h hrelated hbefore ih =>
    rw [ComplexSelector.firstCombinator] at hfirst
    cases hbefore with
    | compound h htied =>
      refine ⟨m, (RelativeMatch.compound h htied).element, htied, ?_⟩
      cases combinator with
      | descendant => cases hfirst
      | child => cases hfirst
      | nextSibling =>
        obtain ⟨between, hstands, -⟩ := hrelated
        exact ⟨n, ⟨between, hstands⟩, Links.Above.refl n⟩
      | subsequentSibling => exact ⟨n, hrelated, Links.Above.refl n⟩
    | @combined before combinator' compound' _ o _ h' hrelated' hbefore' =>
      have hrest : (before.combined combinator' compound').firstCombinator.any Combinator.isSibling := by
        rw [ComplexSelector.firstCombinator] at hfirst ⊢
        cases hcombinator : before.firstCombinator <;> simpa [hcombinator] using hfirst
      obtain ⟨next, helement, hnext, hbehind⟩ := ih hrest
      exact ⟨next, helement, hnext, hrelated.behind hd hbehind⟩

/-- what is behind an element is not below it -/
theorem Behind.not_above {next n : NodeId} (h : Behind d next n) : ¬d.links.Above next n := by
  intro habove
  obtain ⟨sibling, ⟨between, hstands⟩, hsibling⟩ := h
  obtain ⟨parent, hnext, hparent⟩ := parents_of_siblings hd hstands
  rcases habove.comparable hsibling with hup | hup
  · exact ne_of_siblings hd hstands (hd.forest.siblings_apart hnext hparent hup)
  · exact ne_of_siblings hd hstands (hd.forest.siblings_apart hparent hnext hup).symm

variable (hanchor : isElement d anchor)
include hanchor

theorem mem_candidates_behind (hn : isElement d n) :
    n ∈ relativeCandidates d .subsequentSibling anchor ↔ Behind d anchor n := by
  rw [relativeCandidates, mem_siblings_descendants hd hn]
  constructor
  · rintro ⟨sibling, hsibling, habove⟩
    exact ⟨sibling, ((mem_nextElementSiblings hd hanchor).1 hsibling).2, habove⟩
  · rintro ⟨sibling, hsibling, habove⟩
    obtain ⟨between, hstands⟩ := hsibling
    obtain ⟨parent, -, hparent⟩ := parents_of_siblings hd hstands
    have helement := isElement_of_above hd hparent habove hn
    exact ⟨sibling, (mem_nextElementSiblings hd hanchor).2 ⟨helement, between, hstands⟩, habove⟩

theorem mem_candidates_next (hn : isElement d n) :
    n ∈ relativeCandidates d .nextSibling anchor ↔
      ∃ next, isElement d next ∧ Related d .nextSibling anchor next ∧ d.links.Above next n := by
  have htake (next : NodeId) : next ∈ (nextElementSiblings d anchor).take 1 ↔
      isElement d next ∧ Related d .nextSibling anchor next := by
    rw [← head?_nextElementSiblings hd hanchor]
    cases nextElementSiblings d anchor <;> simp [eq_comm]
  rw [relativeCandidates, mem_siblings_descendants hd hn]
  simp only [htake, and_assoc]

theorem next_unique {next next' : NodeId} (helement : isElement d next) (h : Related d .nextSibling anchor next)
    (helement' : isElement d next') (h' : Related d .nextSibling anchor next') : next = next' := by
  have hhead := (head?_nextElementSiblings hd hanchor).2 ⟨helement, h⟩
  rw [(head?_nextElementSiblings hd hanchor).2 ⟨helement', h'⟩] at hhead
  exact (Option.some.inj hhead).symm

/-- **No witness is missed**, but behind a `+` that `+` or `~` follows. -/
theorem RelativeMatch.mem_candidates {leading : Combinator}
    (h : RelativeMatch d context leading anchor selector subject n)
    (hleaves : (RelativeSelector.mk leading selector).leavesNext = false) :
    n ∈ relativeCandidates d leading anchor := by
  have hinside {leading : Combinator} (h : RelativeMatch d context leading anchor selector subject n)
      (hfirst : ∀ n, Related d leading anchor n → Inside d anchor n) : n ∈ elementDescendants d anchor :=
    (mem_elementDescendants hd).2 ⟨h.element, h.region (fun _ _ _ hrelated => hrelated.inside hd) hfirst⟩
  cases leading with
  | descendant => exact hinside h fun _ hrelated => hrelated.2
  | child => exact hinside h fun n hrelated => (inside_of_parent hd hrelated.2).2 (Links.Above.refl anchor)
  | subsequentSibling =>
    refine (mem_candidates_behind hd hanchor h.element).2 (h.region (fun _ _ _ hrelated => hrelated.behind hd) ?_)
    exact fun n hrelated => ⟨n, hrelated, Links.Above.refl n⟩
  | nextSibling =>
    have hfirst : selector.firstCombinator.any Combinator.isSibling = false := by
      simpa [RelativeSelector.leavesNext] using hleaves
    obtain ⟨next, helement, hnext, habove, -⟩ := h.below_next hd hfirst
    exact (mem_candidates_next hd hanchor h.element).2 ⟨next, helement, hnext, habove⟩

/-- **There no witness is found**: what matches has left the candidates. -/
theorem RelativeMatch.not_mem_candidates {leading : Combinator}
    (h : RelativeMatch d context leading anchor selector subject n)
    (hleaves : (RelativeSelector.mk leading selector).leavesNext) : n ∉ relativeCandidates d leading anchor := by
  rw [RelativeSelector.leavesNext, Bool.and_eq_true, decide_eq_true_eq] at hleaves
  obtain ⟨rfl, hfirst⟩ := hleaves
  intro hmem
  obtain ⟨next, helement, hnext, habove⟩ := (mem_candidates_next hd hanchor h.element).1 hmem
  obtain ⟨next', helement', hnext', hbehind⟩ := h.behind_next hd hfirst
  obtain rfl := next_unique hd hanchor helement hnext helement' hnext'
  exact hbehind.not_above hd habove

end Candidates

/-! ## The relative selector -/

theorem Related.treeRoot {combinator : Combinator} {m n : NodeId} (h : Related d combinator m n) :
    d.treeRoot n = d.treeRoot m := by
  have hsiblings {between : List NodeId} (h : StandsBefore d m n between) : d.treeRoot n = d.treeRoot m := by
    obtain ⟨parent, hm, hn⟩ := parents_of_siblings hd h
    rw [Dom.treeRoot_of_parent hd.ends hm, Dom.treeRoot_of_parent hd.ends hn]
  cases combinator with
  | descendant => exact (Dom.treeRoot_eq_of_above hd.ends h.2.2).symm
  | child => exact Dom.treeRoot_of_parent hd.ends h.2
  | nextSibling =>
    obtain ⟨between, h, -⟩ := h
    exact hsiblings h
  | subsequentSibling =>
    obtain ⟨between, h⟩ := h
    exact hsiblings h

theorem RelativeMatch.treeRoot {context : MatchContext} {leading : Combinator} {anchor n : NodeId}
    {selector : ComplexSelector} {subject : Bool} (h : RelativeMatch d context leading anchor selector subject n) :
    d.treeRoot n = d.treeRoot anchor :=
  h.region (fun _ _ _ hrelated hm => (hrelated.treeRoot hd).trans hm) fun _ hrelated => hrelated.treeRoot hd

end Tree

/-- **The code finds what is to be found**, but where the selector leaves the next sibling. There it finds nothing. -/
theorem matchesRelative_iff (hd : Reachable d) {anchor : NodeId} (hanchor : isElement d anchor)
    (relative : RelativeSelector) (context : MatchContext) :
    (matchesRelative d relative context anchor ↔ Witness d context relative anchor) ↔
      (relative.leavesNext → ¬Witness d context relative anchor) := by
  have htree := treeInv_reachable hd
  obtain ⟨leading, selector⟩ := relative
  have hfinds : matchesRelative d (.mk leading selector) context anchor ↔
      ∃ n ∈ relativeCandidates d leading anchor, RelativeMatch d context leading anchor selector true n := by
    rw [matchesRelative, List.any_eq_true]
    simp only [matchesRelativeAt_iff htree hanchor]
  have hwitness : Witness d context (.mk leading selector) anchor ↔
      ∃ n, RelativeMatch d context leading anchor selector true n :=
    ⟨fun ⟨n, _, _, h⟩ => ⟨n, h⟩, fun ⟨n, h⟩ => ⟨n, h.treeRoot htree, h.element, h⟩⟩
  by_cases hleaves : (RelativeSelector.mk leading selector).leavesNext
  · have hnothing : ¬matchesRelative d (.mk leading selector) context anchor := by
      rw [hfinds]
      rintro ⟨n, hmem, h⟩
      exact h.not_mem_candidates htree hanchor hleaves hmem
    simp only [hnothing, hleaves, Bool.false_eq_true, false_iff, forall_const]
  · refine iff_of_true ?_ fun h => absurd h hleaves
    rw [hfinds, hwitness]
    refine ⟨fun ⟨n, _, h⟩ => ⟨n, h⟩, fun ⟨n, h⟩ => ⟨n, ?_, h⟩⟩
    exact h.mem_candidates htree hanchor (by simpa using hleaves)

/-- three siblings below the document element -/
def siblingOps : List Op :=
  [.createElement "div", .appendChild 0 1, .createElement "a", .createElement "b", .createElement "c", .appendChild 1 2,
    .appendChild 1 3, .appendChild 1 4]

/-- `*` -/
def wildcard : CompoundSelector := .mk (some ⟨none⟩) [] none

theorem matchesCompound_wildcard {n : NodeId} (hn : isElement d n) (subject : Bool) :
    matchesCompound d wildcard {} subject n := by
  obtain ⟨data, hdata⟩ := Option.isSome_iff_exists.1 hn
  simp [wildcard, matchesCompound, hdata, typeMatches, matchesSimples, matchesPseudoElement]

/-- `:has(~ * > *)` is answered right -/
theorem matchesRelative_iff_below : ∃ d, runAll siblingOps Dom.new = some d ∧
    (matchesRelative d (.mk .subsequentSibling (.combined (.compound wildcard) .child wildcard)) {} 2 ↔
      Witness d {} (.mk .subsequentSibling (.combined (.compound wildcard) .child wildcard)) 2) := by
  obtain ⟨d, hd⟩ : ∃ d, runAll siblingOps Dom.new = some d := Option.isSome_iff_exists.1 (by decide)
  have helement : (runAll siblingOps Dom.new).map (fun d => isElement d 2) = some true := by decide
  rw [hd] at helement
  exact ⟨d, hd, (matchesRelative_iff (Reach.new.runAll hd) (Option.some.inj helement) _ _).2 fun h => by cases h⟩

/-- `:has(+ * + *)` misses its witness -/
theorem not_matchesRelative : ¬∀ d, Reachable d → ∀ anchor, isElement d anchor →
    ∀ (relative : RelativeSelector) (context : MatchContext), context.shadowHost = none →
      (matchesRelative d relative context anchor ↔ Witness d context relative anchor) := by
  intro hall
  obtain ⟨d, hd⟩ : ∃ d, runAll siblingOps Dom.new = some d := Option.isSome_iff_exists.1 (by decide)
  have htree := treeInv_reachable (Reach.new.runAll hd)
  have helements : (runAll siblingOps Dom.new).map (fun d => [2, 3, 4].all (isElement d)) = some true := by decide
  have hchildren : (runAll siblingOps Dom.new).map (fun d => d.childrenOf 1) = some [2, 3, 4] := by decide
  rw [hd] at helements hchildren
  obtain ⟨htwo, hthree, hfour⟩ : isElement d 2 ∧ isElement d 3 ∧ isElement d 4 := by simpa using helements
  have hfirst : Related d .nextSibling 2 3 := ⟨[], ⟨htwo, 1, [], [4], Option.some.inj hchildren⟩, by simp⟩
  have hsecond : Related d .nextSibling 3 4 := ⟨[], ⟨hthree, 1, [2], [], Option.some.inj hchildren⟩, by simp⟩
  have hmatch : RelativeMatch d {} .nextSibling 2 (.combined (.compound wildcard) .nextSibling wildcard) true 4 :=
    .combined (matchesCompound_wildcard hfour true) hsecond
      (.compound (matchesCompound_wildcard hthree false) hfirst)
  have hwitness : Witness d {} (.mk .nextSibling (.combined (.compound wildcard) .nextSibling wildcard)) 2 :=
    ⟨4, hmatch.treeRoot htree, hfour, hmatch⟩
  have hfound := (hall d (Reach.new.runAll hd) 2 htwo _ {} rfl).2 hwitness
  obtain ⟨n, hmem, hn⟩ := List.any_eq_true.1 hfound
  exact ((matchesRelativeAt_iff htree htwo _ _ _ _ n).1 hn).not_mem_candidates htree htwo rfl hmem

end Render.Css
