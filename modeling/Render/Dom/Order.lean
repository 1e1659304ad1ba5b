/-
The order of nodes and of boundary points (`tree_position` of `render-dom/src/named.rs`, `tree_order` and `position` of
`range.rs`).

- `Dom.address n`: the child indices from the root of n down to n. A walk of a tree visits its nodes in the order of their
  addresses (`descendants_sorted`).
- `Dom.spot p`: the place of a boundary point in its tree. `position` compares the boundary points of one tree by their
  spots (`position_eq`).
-/
import Render.Core.Address
import Render.Dom.Insert

namespace Render

open Render.Core Render.Core.Comp

theorem orderingPosition_of_lt {α : Type} [LinearOrder α] {a b : α} (h : a < b) :
    orderingPosition (compare a b) = .before := by
  rw [compare_lt_iff_lt.2 h]; rfl

theorem orderingPosition_of_gt {α : Type} [LinearOrder α] {a b : α} (h : b < a) :
    orderingPosition (compare a b) = .after := by
  rw [compare_gt_iff_gt.2 h]; rfl

theorem orderingPosition_eq_before {α : Type} [LinearOrder α] {a b : α} :
    orderingPosition (compare a b) = .before ↔ a < b := by
  refine ⟨fun h => ?_, orderingPosition_of_lt⟩
  by_contra hlt
  rcases eq_or_lt_of_le (not_lt.1 hlt) with rfl | hgt
  · rw [compare_eq_iff_eq.2 rfl] at h; cases h
  · rw [orderingPosition_of_gt hgt] at h; cases h

theorem orderingPosition_eq_after {α : Type} [LinearOrder α] {a b : α} :
    orderingPosition (compare a b) = .after ↔ b < a := by
  refine ⟨fun h => ?_, orderingPosition_of_gt⟩
  by_contra hgt
  rcases eq_or_lt_of_le (not_lt.1 hgt) with rfl | hlt
  · rw [compare_eq_iff_eq.2 rfl] at h; cases h
  · rw [orderingPosition_of_lt hlt] at h; cases h

namespace Dom

variable {d : Dom}

/-! ## Document order -/

theorem acc_children (hd : TreeInv d) (n : NodeId) : Acc (fun c p => c ∈ d.links.children p) n :=
  acc_of_up (fun _ _ => hd.mem_children.1) _
    (fun _ _ h => Finset.mem_range.2 (parent_lt h)) hd.ends n

theorem ancestorsInclusive_of_none (hd : TreeInv d) {n : NodeId} (h : d.parent n = none) :
    d.ancestorsInclusive n = [n] :=
  walk_unique (walk_passes hd.ends n) (walk_succ_none 0 h)

theorem ancestorsInclusive_of_parent (hd : TreeInv d) {n p : NodeId} (h : d.parent n = some p) :
    d.ancestorsInclusive n = n :: d.ancestorsInclusive p := by
  refine walk_unique (m := d.passes + 1) (walk_passes hd.ends n) ?_
  rw [walk_succ_some d.passes h, walk_passes hd.ends p]; rfl

/-- the child indices from the root of n down to n -/
def address (d : Dom) (n : NodeId) : List ℕ := (d.treePosition n).2

/-- `tree_position` is the root of a node and its address below the root -/
theorem down_address (hd : TreeInv d) (n : NodeId) : d.links.Down (d.treeRoot n) (d.address n) n := by
  unfold address treePosition pathFromRoot
  dsimp only
  induction hd.ends n with
  | stop hn =>
    rename_i n
    rw [treeRoot_of_none hd.ends hn, ancestorsInclusive_of_none hd hn]
    exact Links.Down.here
  | step hn _ ih =>
    rename_i n p _
    have hne : (d.ancestorsInclusive p).reverse ≠ [] := by
      obtain ⟨t, ht⟩ := walk_head (walk_passes hd.ends p)
      rw [ht]; simp
    rw [treeRoot_of_parent hd.ends hn, ancestorsInclusive_of_parent hd hn, List.reverse_cons,
      List.tail_append_of_ne_nil hne, List.map_append, List.map_singleton]
    refine ih.child ?_
    rw [indexOrZero_eq hd.forest hn]
    exact List.getElem?_idxOf (hd.mem_children.2 hn)

theorem descendantsInclusive_eq (hd : TreeInv d) (n : NodeId) : d.descendantsInclusive n = n :: d.descendants n :=
  (hd.visits_descendantsInclusive n).unique (Visits.cons (by rw [List.append_nil]; exact hd.visits_descendants n))

/-- the walk of a tree visits its nodes in the order of their addresses -/
theorem descendants_sorted (hd : TreeInv d) {root : NodeId} (hroot : d.parent root = none) :
    (d.descendants root).Pairwise fun x y => d.address x < d.address y := by
  have hsorted := Links.visits_sorted hd.forest hd.visits_descendantsInclusive (acc_children hd) root
  rw [descendantsInclusive_eq hd, List.pairwise_cons] at hsorted
  refine hsorted.2.imp_of_mem fun {x y} hx hy hxy => hxy _ _ ?_ ?_
  · rw [eq_treeRoot hd.ends (hd.above_of_mem_descendants hx) hroot]; exact down_address hd x
  · rw [eq_treeRoot hd.ends (hd.above_of_mem_descendants hy) hroot]; exact down_address hd y

/-! ## Addresses -/

theorem address_of_down (hd : TreeInv d) {a n : NodeId} {l : List ℕ} (h : d.links.Down a l n) :
    d.address n = d.address a ++ l := by
  have hn := down_address hd n
  rw [← treeRoot_eq_of_above hd.ends (h.above hd.forest)] at hn
  exact hn.unique hd.forest ((down_address hd a).append h)

theorem address_of_parent (hd : TreeInv d) {c p : NodeId} (h : d.parent c = some p) :
    d.address c = d.address p ++ [(d.childrenOf p).idxOf c] :=
  address_of_down hd (Links.Down.single (List.getElem?_idxOf (hd.mem_children.2 h)))

/-- in one tree, a node is known by its address -/
theorem eq_of_address (hd : TreeInv d) {m n : NodeId} (hr : d.treeRoot m = d.treeRoot n) (h : d.address m = d.address n) :
    m = n := by
  have hm := down_address hd m
  rw [hr, h] at hm
  exact hm.target_unique (down_address hd n)

/-- the address of a node below a child goes through the child -/
theorem address_through (hd : TreeInv d) {a c n : NodeId} (hc : d.parent c = some a) (hn : d.links.Above c n) :
    ∃ l, d.address n = d.address a ++ (d.childrenOf a).idxOf c :: l := by
  obtain ⟨l, hl⟩ := hd.forest.exists_down hn
  exact ⟨l, by rw [address_of_down hd hl, address_of_parent hd hc, List.append_assoc]; rfl⟩

/-! ## Tree order -/

theorem sharedCount_append (p l m : List NodeId) : sharedCount (p ++ l) (p ++ m) = p.length + sharedCount l m := by
  induction p with
  | nil => simp
  | cons a p ih =>
    show (if a = a then sharedCount (p ++ l) (p ++ m) + 1 else 0) = _
    rw [if_pos rfl, ih, List.length_cons]
    omega

/-- the path to a node below a child goes through the child -/
theorem pathFromRoot_through (hd : TreeInv d) {a c n : NodeId} (hc : d.parent c = some a) (hn : d.links.Above c n) :
    ∃ rest, d.pathFromRoot n = d.pathFromRoot a ++ c :: rest := by
  have step : ∀ {c p : NodeId}, d.parent c = some p → d.pathFromRoot c = d.pathFromRoot p ++ [c] := fun h => by
    unfold pathFromRoot
    rw [ancestorsInclusive_of_parent hd h, List.reverse_cons]
  induction hn using Relation.ReflTransGen.head_induction_on with
  | refl => exact ⟨[], step hc⟩
  | head hp _ ih =>
    obtain ⟨rest, hrest⟩ := ih
    exact ⟨rest ++ [_], by rw [step hp, hrest, List.append_assoc]; rfl⟩

theorem pathFromRoot_ne_nil (hd : TreeInv d) (n : NodeId) : (d.pathFromRoot n).length ≠ 0 := by
  unfold pathFromRoot
  obtain ⟨t, ht⟩ := walk_head (walk_passes hd.ends n)
  rw [ht]
  simp

theorem treeOrder_above (hd : TreeInv d) {a c n : NodeId} (hc : d.parent c = some a) (hn : d.links.Above c n) :
    d.treeOrder a n = some .lt ∧ d.treeOrder n a = some .gt := by
  have hne : a ≠ n := by
    rintro rfl
    exact hd.forest.not_above_parent hc hn
  obtain ⟨rest, hrest⟩ := pathFromRoot_through hd hc hn
  have h0 := pathFromRoot_ne_nil hd a
  have hleft : sharedCount (d.pathFromRoot a) (d.pathFromRoot n) = (d.pathFromRoot a).length := by
    have := sharedCount_append (d.pathFromRoot a) [] (c :: rest)
    rwa [List.append_nil, ← hrest] at this
  have hright : sharedCount (d.pathFromRoot n) (d.pathFromRoot a) = (d.pathFromRoot a).length := by
    have := sharedCount_append (d.pathFromRoot a) (c :: rest) []
    rwa [List.append_nil, ← hrest] at this
  have hlen : (d.pathFromRoot a).length ≠ (d.pathFromRoot n).length := by
    rw [hrest, List.length_append, List.length_cons]
    omega
  unfold treeOrder
  rw [if_neg hne, if_neg (Ne.symm hne)]
  dsimp only
  rw [hleft, hright, if_neg h0, if_pos rfl, if_neg h0, if_neg hlen, if_pos rfl]
  exact ⟨rfl, rfl⟩

theorem treeOrder_branch (hd : TreeInv d) {a c c' m n : NodeId} (hc : d.parent c = some a) (hc' : d.parent c' = some a)
    (hne : c ≠ c') (hm : d.links.Above c m) (hn : d.links.Above c' n) :
    d.treeOrder m n = some (compare ((d.childrenOf a).idxOf c) ((d.childrenOf a).idxOf c')) := by
  have hmn : m ≠ n := by
    rintro rfl
    exact hne (hd.forest.child_unique hc hc' hm hn)
  obtain ⟨rest, hrest⟩ := pathFromRoot_through hd hc hm
  obtain ⟨rest', hrest'⟩ := pathFromRoot_through hd hc' hn
  have h0 := pathFromRoot_ne_nil hd a
  have hshared : sharedCount (d.pathFromRoot m) (d.pathFromRoot n) = (d.pathFromRoot a).length := by
    rw [hrest, hrest', sharedCount_append]
    show _ + (if c = c' then _ else 0) = _
    rw [if_neg hne, Nat.add_zero]
  unfold treeOrder
  rw [if_neg hmn]
  dsimp only
  rw [hshared, if_neg h0, if_neg (by rw [hrest, List.length_append, List.length_cons]; omega),
    if_neg (by rw [hrest', List.length_append, List.length_cons]; omega), hrest, hrest',
    List.getElem?_append_right le_rfl, List.getElem?_append_right le_rfl, Nat.sub_self]
  show (d.indexInParent c >>= fun i => d.indexInParent c' >>= fun j => pure (compare i j)) = _
  rw [(indexInParent_eq_some hd.forest hc).1, (indexInParent_eq_some hd.forest hc').1]
  rfl

/-! ## The order of boundary points -/

/-- the place of a boundary point in its tree -/
def spot (d : Dom) (point : BoundaryPoint) : Spot := ⟨d.address point.node, point.offset⟩

theorem spot_here (point : BoundaryPoint) : d.spot point = Spot.below (d.address point.node) ⟨[], point.offset⟩ := by
  unfold spot Spot.below
  rw [List.append_nil]

theorem spot_through (hd : TreeInv d) {a c n : NodeId} (hc : d.parent c = some a) (hn : d.links.Above c n) (o : ℕ) :
    ∃ l, d.spot ⟨n, o⟩ = Spot.below (d.address a) ⟨(d.childrenOf a).idxOf c :: l, o⟩ := by
  obtain ⟨l, hl⟩ := address_through hd hc hn
  exact ⟨l, congrArg (fun l => (⟨l, o⟩ : Spot)) hl⟩

theorem childToward_eq (hd : TreeInv d) {a c n : NodeId} (hc : d.parent c = some a) (hn : d.links.Above c n) :
    d.childToward a n = c := by
  unfold childToward
  obtain ⟨b, hb, hpb, hab, -⟩ := exists_find?_walk (p := fun child => decide (d.parent child = some a))
    (walk_passes hd.ends n) hn (decide_eq_true hc)
  rw [hb]
  exact hd.forest.child_unique (of_decide_eq_true hpb) hc hab hn

theorem positionFrom_above (hd : TreeInv d) {a c n : NodeId} (hc : d.parent c = some a) (hn : d.links.Above c n)
    (o o' k : ℕ) : d.positionFrom (k + 1) ⟨a, o⟩ ⟨n, o'⟩ = if (d.childrenOf a).idxOf c < o then .after else .before := by
  have hne : a ≠ n := by
    rintro rfl
    exact hd.forest.not_above_parent hc hn
  unfold positionFrom
  rw [if_neg hne, if_neg (by rw [(treeOrder_above hd hc hn).1]; simp),
    if_pos ((isInclusiveAncestor_iff hd.ends).2 (hn.parent_left hc))]
  dsimp only
  rw [childToward_eq hd hc hn, indexOrZero_eq hd.forest hc]

theorem positionFrom_branch (hd : TreeInv d) {a c c' m n : NodeId} (hc : d.parent c = some a) (hc' : d.parent c' = some a)
    (hm : d.links.Above c m) (hn : d.links.Above c' n) (hlt : (d.childrenOf a).idxOf c < (d.childrenOf a).idxOf c')
    (o o' k : ℕ) : d.positionFrom (k + 1) ⟨m, o⟩ ⟨n, o'⟩ = .before := by
  have hne : c ≠ c' := by
    rintro rfl
    exact Nat.lt_irrefl _ hlt
  have hmn : m ≠ n := by
    rintro rfl
    exact hne (hd.forest.child_unique hc hc' hm hn)
  have hnot : ¬ d.links.Above m n := fun h => hne (hd.forest.child_unique hc hc' (hm.trans h) hn)
  unfold positionFrom
  rw [if_neg hmn, treeOrder_branch hd hc hc' hne hm hn, if_neg (by rw [compare_lt_iff_lt.2 hlt]; simp), if_neg]
  rw [isInclusiveAncestor_iff hd.ends]
  exact hnot

/-- a pair in the order `Greater` is turned round -/
theorem positionFrom_flip {left right : BoundaryPoint} (hne : left.node ≠ right.node)
    (h : d.treeOrder left.node right.node = some .gt) (k : ℕ) :
    d.positionFrom (k + 1) left right =
      match d.positionFrom k right left with
      | .before => .after
      | .equal | .after => .before := by
  cases hp : d.positionFrom k right left <;> simp only [positionFrom, if_neg hne, if_pos h, hp]

/-- two levels of the recursion are enough, and what they return is the order of the places -/
theorem positionFrom_eq (hd : TreeInv d) {p q : BoundaryPoint} (hr : d.treeRoot p.node = d.treeRoot q.node) (k : ℕ) :
    d.positionFrom (k + 2) p q = orderingPosition (compare (d.spot p) (d.spot q)) := by
  obtain ⟨m, o⟩ := p
  obtain ⟨n, o'⟩ := q
  -- one node above the other, through the child c
  have above : ∀ {a c n : NodeId}, d.parent c = some a → d.links.Above c n → ∀ o o' : ℕ,
      ((d.childrenOf a).idxOf c < o ∧ d.spot ⟨n, o'⟩ < d.spot ⟨a, o⟩) ∨
        (¬ (d.childrenOf a).idxOf c < o ∧ d.spot ⟨a, o⟩ < d.spot ⟨n, o'⟩) := by
    intro a c n hc hn o o'
    obtain ⟨l, hl⟩ := spot_through hd hc hn o'
    rw [hl, spot_here]
    dsimp only
    rw [Spot.below_lt_below, Spot.below_lt_below, Spot.cons_lt_nil, Spot.nil_lt_cons, Nat.not_lt]
    exact (Nat.lt_or_ge _ _).imp (fun h => ⟨h, h⟩) fun h => ⟨h, h⟩
  by_cases hmn : m = n
  · subst hmn
    have hspot : ∀ {o o' : ℕ}, o < o' → d.spot ⟨m, o⟩ < d.spot ⟨m, o'⟩ := fun h => by
      rw [spot_here, spot_here]
      exact Spot.below_lt_below.2 (Spot.nil_lt_nil.2 h)
    unfold positionFrom
    rw [if_pos rfl]
    rcases lt_trichotomy o o' with h | rfl | h
    · rw [orderingPosition_of_lt h, orderingPosition_of_lt (hspot h)]
    · rw [compare_eq_iff_eq.2 rfl, compare_eq_iff_eq.2 rfl]
    · rw [orderingPosition_of_gt h, orderingPosition_of_gt (hspot h)]
  have hm := (treeRoot_spec hd.ends m).2
  rw [show d.treeRoot m = d.treeRoot n from hr] at hm
  rcases hm.branch (treeRoot_spec hd.ends n).2 with h | h | ⟨a, c, c', hc, hc', hne, hcm, hcn⟩
  · obtain ⟨c, hc, hcn⟩ := h.cases_child.resolve_left hmn
    rw [positionFrom_above hd hc hcn]
    rcases above hc hcn o o' with ⟨hi, hs⟩ | ⟨hi, hs⟩
    · rw [if_pos hi, orderingPosition_of_gt hs]
    · rw [if_neg hi, orderingPosition_of_lt hs]
  · obtain ⟨c, hc, hcm⟩ := h.cases_child.resolve_left (Ne.symm hmn)
    rw [positionFrom_flip hmn (treeOrder_above hd hc hcm).2, positionFrom_above hd hc hcm]
    rcases above hc hcm o' o with ⟨hi, hs⟩ | ⟨hi, hs⟩
    · rw [if_pos hi, orderingPosition_of_lt hs]
    · rw [if_neg hi, orderingPosition_of_gt hs]
  · obtain ⟨l, hl⟩ := spot_through hd hc hcm o
    obtain ⟨l', hl'⟩ := spot_through hd hc' hcn o'
    rw [hl, hl']
    rcases lt_trichotomy ((d.childrenOf a).idxOf c) ((d.childrenOf a).idxOf c') with h | h | h
    · rw [positionFrom_branch hd hc hc' hcm hcn h, orderingPosition_of_lt]
      exact Spot.below_lt_below.2 (Spot.cons_lt_cons.2 (Or.inl h))
    · exact absurd ((List.idxOf_inj (hd.mem_children.2 hc)).1 h) hne
    · rw [positionFrom_flip hmn (by rw [treeOrder_branch hd hc hc' hne hcm hcn, compare_gt_iff_gt.2 h]),
        positionFrom_branch hd hc' hc hcn hcm h, orderingPosition_of_gt]
      exact Spot.below_lt_below.2 (Spot.cons_lt_cons.2 (Or.inl h))

/-- **`position` compares spots.** In one tree, the position of a boundary point relative to another is the order of their
places. -/
theorem position_eq (hd : TreeInv d) {p q : BoundaryPoint} (hr : d.treeRoot p.node = d.treeRoot q.node) :
    d.position p q = orderingPosition (compare (d.spot p) (d.spot q)) :=
  positionFrom_eq hd hr 0

theorem position_eq_before (hd : TreeInv d) {p q : BoundaryPoint} (hr : d.treeRoot p.node = d.treeRoot q.node) :
    d.position p q = .before ↔ d.spot p < d.spot q := by
  rw [position_eq hd hr, orderingPosition_eq_before]

theorem position_eq_after (hd : TreeInv d) {p q : BoundaryPoint} (hr : d.treeRoot p.node = d.treeRoot q.node) :
    d.position p q = .after ↔ d.spot q < d.spot p := by
  rw [position_eq hd hr, orderingPosition_eq_after]

end Dom

end Render
