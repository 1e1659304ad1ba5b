/-
Every reachable DOM has the tree invariant.

Each step of the operations keeps it (`treeInv_kept`), and so does grafting one arena into another (`treeInv_graft`).
What it says in the terms of the DOM is `reachable_tree`.
-/
import Render.Dom.Keeps

namespace Render

open Render.Core Render.Core.Comp

theorem treeInv_recordMutations (mutations : List MutationKind) : Keeps TreeInv (recordMutations mutations) :=
  Keeps.awaitModify fun _ _ hd h => hd.grows (Grows.of_nodes (Dom.logOnly_recordMutationsIn h).nodes)

theorem treeInv_writes : KeptByWrites TreeInv where
  tables d _ _ _ _ _ _ hd := hd.grows (Grows.of_nodes rfl)
  allocate d kind _ hd := hd.grows (Grows.allocateIn d kind)
  allocateElement d data _ hd := hd.grows (Grows.allocateIn d (.element data))
  setNodeDocument d n document hd := hd.grows (Grows.setNodeDocument d n document)
  setDataText d n value hd := hd.grows (Grows.setDataText d n value)
  modifyElement d n f _ hd := hd.grows (Grows.modifyElement d n f)
  adoptSubtree d d' n document hd h := by
    have ho := Dom.ownersOnly_adoptSubtree h
    exact hd.grows (Grows.of_tags ho.links (Dom.tagOf_of_kindOf ho.kindOf))
  recordMutations := treeInv_recordMutations
  focusedArea d _ hd := hd.grows (Grows.of_nodes rfl)
  journalCapacity d capacity hd := hd.grows (Grows.of_nodes (Dom.nodes_setMutationJournalCapacityIn d capacity))

theorem treeInv_detach {d : Dom} (n : NodeId) (hd : TreeInv d) : TreeInv (d.detachWithoutRevision n) := by
  have hdet := Dom.detaches_detachWithoutRevision hd.forest n
  have htag : (d.detachWithoutRevision n).tagOf = d.tagOf := Dom.tagOf_of_kindOf (Dom.kindOf_detachWithoutRevision n)
  refine ⟨hdet.isForest hd.forest, fun c p hp => ?_, fun p hp => ?_⟩
  · rw [htag]
    exact hd.kinds c p (hdet.parent_some.1 hp).2
  · unfold Dom.DocumentOrder
    rw [htag] at hp ⊢
    rw [show (d.detachWithoutRevision n).childrenOf p = _ from hdet.children p]
    exact (hd.documents p hp).sublist List.filter_sublist

theorem treeInv_insertBefore (parent n : NodeId) (reference : Option NodeId) :
    Keeps TreeInv (insertBefore parent n reference) := by
  intro d r d' hd h
  rcases Dom.insertBefore_cases hd h with ⟨_, -, rfl⟩ | ⟨-, -, rfl⟩ | ⟨-, -, eff, i, adopted, hrun⟩
  · exact hd
  · exact hd
  · exact (hrun.inserted hd).treeInv

theorem treeInv_attachShadow (host : NodeId) (mode : ShadowRootMode) (delegatesFocus : Bool)
    (slotAssignment : SlotAssignmentMode) : Keeps TreeInv (attachShadow host mode delegatesFocus slotAssignment) := by
  refine Keeps.bind (Keeps.check _) fun kind => ?_
  split
  · refine Keeps.bind (Keeps.failIf _ _) fun _ => Keeps.bind (Keeps.failIf _ _) fun _ => Keeps.bind ?_ fun root => ?_
    · exact Keeps.bind Keeps.get fun _ =>
        Keeps.bind (Keeps.modify fun d hd => hd.grows (Grows.allocateIn d _)) fun _ => Keeps.pure _
    refine Keeps.bind Keeps.get fun _ => Keeps.bind (Keeps.modify fun d => treeInv_writes.setNodeDocument d _ _) fun _ => ?_
    refine Keeps.bind (Keeps.modify fun d hd => hd.grows (Grows.modifyElement d _ _)) fun _ => ?_
    refine Keeps.bind (Keeps.modify fun d hd => hd.grows (Grows.of_nodes rfl)) fun _ => ?_
    exact Keeps.bind (treeInv_recordMutations _) fun _ => Keeps.pure _
  · exact Keeps.fail _

theorem treeInv_kept : KeptByTree TreeInv :=
  treeInv_writes.kept treeInv_insertBefore
    (keeps_removeChild (fun _ n => treeInv_detach n) treeInv_recordMutations) treeInv_attachShadow

/-! ## Grafting -/

namespace Dom

variable {d other : Dom}

theorem nodes_graftDocument (d other : Dom) : (d.graftDocument other).nodes = (d.graftNodes other).nodes := by
  have hfold : ∀ (l : List NodeId) (d : Dom), (l.foldl indexNamed d).nodes = d.nodes := by
    intro l
    induction l with
    | nil => exact fun _ => rfl
    | cons n l ih => exact fun d => ih _
  exact hfold _ _

theorem node_graftDocument (n : NodeId) : (d.graftDocument other).node n =
    if n < d.nodes.length then d.node n else (other.node (n - d.nodes.length)).map (Node.shift d.nodes.length) := by
  unfold node
  rw [nodes_graftDocument]
  unfold graftNodes
  split_ifs with h
  · exact List.getElem?_append_left h
  · rw [List.getElem?_append_right (Nat.le_of_not_lt h), List.getElem?_map]

theorem parent_graftDocument (n : NodeId) : (d.graftDocument other).parent n =
    if n < d.nodes.length then d.parent n else (other.parent (n - d.nodes.length)).map (· + d.nodes.length) := by
  unfold parent
  rw [node_graftDocument]
  split_ifs
  · rfl
  · cases other.node (n - d.nodes.length) <;> rfl

theorem childrenOf_graftDocument (n : NodeId) : (d.graftDocument other).childrenOf n =
    if n < d.nodes.length then d.childrenOf n
    else (other.childrenOf (n - d.nodes.length)).map (· + d.nodes.length) := by
  unfold childrenOf children
  rw [node_graftDocument]
  split_ifs
  · rfl
  · cases other.node (n - d.nodes.length) <;> rfl

theorem kindOf_graftDocument (n : NodeId) : (d.graftDocument other).kindOf n =
    if n < d.nodes.length then d.kindOf n
    else (other.kindOf (n - d.nodes.length)).map (NodeKind.shift d.nodes.length) := by
  unfold kindOf
  rw [node_graftDocument]
  split_ifs
  · rfl
  · cases other.node (n - d.nodes.length) <;> rfl

theorem shift_tag (offset : ℕ) (kind : NodeKind) : (kind.shift offset).tag = kind.tag := by cases kind <;> rfl

theorem tagOf_graftDocument (n : NodeId) : (d.graftDocument other).tagOf n =
    if n < d.nodes.length then d.tagOf n else other.tagOf (n - d.nodes.length) := by
  unfold tagOf
  rw [kindOf_graftDocument]
  split_ifs
  · rfl
  · cases other.kindOf (n - d.nodes.length) with
    | none => rfl
    | some kind => simp [shift_tag]

/-- grafting moves what is read off a node, when it moves what is read off a kind -/
theorem reading_graftDocument {β : Type} {g : NodeKind → β} {absent : β} {move : β → β}
    (h : ∀ kind : NodeKind, g (kind.shift d.nodes.length) = move (g kind)) (ha : move absent = absent) (n : NodeId) :
    (d.graftDocument other).reading g absent n =
      if n < d.nodes.length then d.reading g absent n else move (other.reading g absent (n - d.nodes.length)) := by
  unfold reading
  rw [kindOf_graftDocument]
  split_ifs
  · rfl
  · cases other.kindOf (n - d.nodes.length) <;> simp [h, ha]

end Dom

/-- a node of the grafted arena -/
theorem exists_eq_add {n offset : ℕ} (h : ¬ n < offset) : ∃ m, n = m + offset := ⟨n - offset, by omega⟩

theorem shifted_not_lt (m offset : ℕ) : ¬ m + offset < offset := by omega

theorem treeInv_graft {d other : Dom} (hd : TreeInv d) (ho : TreeInv other) : TreeInv (d.graftDocument other) := by
  set offset := d.nodes.length with hoffset
  have low : ∀ {c p}, d.parent c = some p → c < offset ∧ p < offset := fun {c p} h => by
    obtain ⟨t, ht⟩ := hd.parent_tag h
    exact ⟨Dom.parent_lt h, Dom.tagOf_lt ht⟩
  have hlow : ∀ n, n < offset → (d.graftDocument other).parent n = d.parent n := fun n h => by
    rw [Dom.parent_graftDocument, if_pos h]
  have hhigh : ∀ n, (d.graftDocument other).parent (n + offset) = (other.parent n).map (· + offset) := fun n => by
    rw [Dom.parent_graftDocument, if_neg (shifted_not_lt n _), Nat.add_sub_cancel]
  refine ⟨⟨fun p c => ?_, fun p => ?_, fun n => ?_⟩, fun c p hp => ?_, fun p hp => ?_⟩
  · rw [Dom.links_children, Dom.links_parent, Dom.childrenOf_graftDocument]
    split_ifs with h
    · rw [hd.mem_children]
      by_cases hc : c < offset
      · rw [hlow c hc]
      · obtain ⟨m, rfl⟩ := exists_eq_add hc
        rw [hhigh]
        constructor
        · exact fun hp => absurd (low hp).1 hc
        · intro hp
          obtain ⟨q, -, rfl⟩ := Option.map_eq_some_iff.1 hp
          exact absurd h (shifted_not_lt q _)
    · obtain ⟨q, rfl⟩ := exists_eq_add h
      rw [Nat.add_sub_cancel, List.mem_map]
      by_cases hc : c < offset
      · rw [hlow c hc]
        constructor
        · rintro ⟨m, -, rfl⟩
          exact absurd hc (shifted_not_lt m _)
        · exact fun hp => absurd (low hp).2 h
      · obtain ⟨m, rfl⟩ := exists_eq_add hc
        rw [hhigh, Option.map_eq_some_iff]
        constructor
        · rintro ⟨c, hcq, hcm⟩
          rw [Nat.add_right_cancel hcm] at hcq
          exact ⟨q, ho.mem_children.1 hcq, rfl⟩
        · rintro ⟨q', hq', hqq⟩
          rw [Nat.add_right_cancel hqq] at hq'
          exact ⟨m, ho.mem_children.2 hq', rfl⟩
  · rw [Dom.links_children, Dom.childrenOf_graftDocument]
    split_ifs
    · exact hd.forest.nodup p
    · exact (ho.forest.nodup _).map fun a b hab => Nat.add_right_cancel hab
  · by_cases h : n < offset
    · induction hd.ends n with
      | stop hn => exact Ends.stop ((hlow _ h).trans hn)
      | step hn _ ih => exact Ends.step ((hlow _ h).trans hn) (ih (low hn).2)
    · obtain ⟨m, rfl⟩ := exists_eq_add h
      clear h
      induction ho.ends m with
      | stop hm => exact Ends.stop (by rw [Dom.links_parent, hhigh, hm]; rfl)
      | step hm _ ih => exact Ends.step (by rw [Dom.links_parent, hhigh, hm]; rfl) ih
  · rw [Dom.tagOf_graftDocument, Dom.tagOf_graftDocument]
    by_cases hc : c < offset
    · rw [hlow c hc] at hp
      rw [if_pos hc, if_pos (low hp).2]
      exact hd.kinds c p hp
    · obtain ⟨m, rfl⟩ := exists_eq_add hc
      rw [hhigh] at hp
      obtain ⟨q, hq, rfl⟩ := Option.map_eq_some_iff.1 hp
      rw [if_neg hc, if_neg (shifted_not_lt q _), Nat.add_sub_cancel, Nat.add_sub_cancel]
      exact ho.kinds m q hq
  · rw [Dom.childrenOf_graftDocument]
    rw [Dom.tagOf_graftDocument] at hp
    unfold Dom.DocumentOrder
    split_ifs at hp ⊢ with h
    · refine (hd.documents p hp).imp_of_mem fun {a b} ha hb hab => ?_
      rw [Dom.tagOf_graftDocument, Dom.tagOf_graftDocument, if_pos (low (hd.mem_children.1 ha)).1,
        if_pos (low (hd.mem_children.1 hb)).1]
      exact hab
    · refine List.pairwise_map.2 ((ho.documents _ hp).imp fun {a b} hab => ?_)
      rw [Dom.tagOf_graftDocument, Dom.tagOf_graftDocument, if_neg (shifted_not_lt a _), if_neg (shifted_not_lt b _),
        Nat.add_sub_cancel, Nat.add_sub_cancel]
      exact hab

theorem treeInv_reachable {d : Dom} (hd : Reachable d) : TreeInv d :=
  treeInv_kept.reachable treeInv_new (fun _ _ => treeInv_graft) hd

/-! ## What the invariant says about a DOM -/

/-- a predicate no two values of a list may share holds of at most one of them -/
theorem countP_le_one {α : Type} {R : α → α → Prop} {p : α → Bool} {l : List α} (h : l.Pairwise R)
    (hR : ∀ a b, p a = true → p b = true → ¬ R a b) : l.countP p ≤ 1 := by
  induction h with
  | nil => simp
  | cons ha _ ih =>
    rename_i a l _
    by_cases hpa : p a = true
    · have hl : l.countP p = 0 := List.countP_eq_zero.2 fun b hb hpb => hR a b hpa hpb (ha b hb)
      simp [hpa, hl]
    · simpa [List.countP_cons, hpa] using ih

/-- **The tree of a reachable DOM.** The two link directions agree, no child list repeats a node, the walk up from every
node ends, and a document has no Text child, at most one element, at most one doctype, and the doctype comes first. -/
theorem reachable_tree {d : Dom} (hd : Reachable d) :
    (∀ p c, c ∈ d.childrenOf p ↔ d.parent c = some p) ∧
    (∀ p, (d.childrenOf p).Nodup) ∧
    (∀ n, Ends d.parent n) ∧
    ∀ p, d.kindOf p = some .document →
      (∀ c ∈ d.childrenOf p, d.isTextNode c = false) ∧
      (d.childrenOf p).countP (fun c => d.tagOf c == some .element) ≤ 1 ∧
      (d.childrenOf p).countP (fun c => d.tagOf c == some .documentType) ≤ 1 ∧
      ∀ (i j : ℕ) (doctype element : NodeId), (d.childrenOf p)[i]? = some doctype →
        (d.childrenOf p)[j]? = some element → d.tagOf doctype = some .documentType → d.tagOf element = some .element →
        i < j := by
  have h := treeInv_reachable hd
  refine ⟨h.forest.link, h.forest.nodup, h.forest.ends, fun p hp => ?_⟩
  have hdoc : d.tagOf p = some .document := Dom.tagOf_eq_some hp
  have hord := h.documents p hdoc
  refine ⟨fun c hc => ?_, ?_, ?_, fun i j doctype element hi hj hdt hel => ?_⟩
  · obtain ⟨tc, tp, htc, htp, hm⟩ := h.kinds c p (h.mem_children.1 hc)
    rw [hdoc] at htp
    obtain rfl := Option.some.inj htp
    unfold Dom.isTextNode
    unfold Dom.tagOf at htc
    cases hk : d.kindOf c with
    | none => rfl
    | some kind =>
      rw [hk] at htc
      obtain rfl := Option.some.inj htc
      cases kind <;> simp_all [NodeKind.tag, NodeTag.mayHold]
  · refine countP_le_one hord fun a b ha hb hab => hab ?_
    rw [beq_iff_eq.1 ha, beq_iff_eq.1 hb]; trivial
  · refine countP_le_one hord fun a b ha hb hab => hab ?_
    rw [beq_iff_eq.1 ha, beq_iff_eq.1 hb]; trivial
  · obtain ⟨hil, hi⟩ := List.getElem?_eq_some_iff.1 hi
    obtain ⟨hjl, hj⟩ := List.getElem?_eq_some_iff.1 hj
    rcases lt_trichotomy i j with hij | rfl | hji
    · exact hij
    · rw [hi] at hj; rw [hj, hel] at hdt; cases hdt
    · refine absurd ?_ (List.pairwise_iff_getElem.1 hord j i hjl hil hji)
      rw [hi, hj, hdt, hel]; trivial

/-- a page, a move within the body, a refused second document element, and a split Text node -/
def sampleOps : List Op :=
  [.createDocumentType "html" "" "", .createElement "HTML", .appendChild 0 1, .appendChild 0 2, .createText "ab",
    .createElement "p", .appendChild 2 3, .appendChild 2 4, .insertBefore 2 4 (some 3), .appendChild 0 4, .splitText 3 1]

theorem reachable_tree_sample : ∃ d, runAll sampleOps Dom.new = some d ∧ d.childrenOf 0 = [1, 2] ∧
    d.childrenOf 2 = [4, 3, 5] ∧ ∀ p c, c ∈ d.childrenOf p ↔ d.parent c = some p := by
  obtain ⟨d, hd⟩ : ∃ d, runAll sampleOps Dom.new = some d := Option.isSome_iff_exists.1 (by decide)
  refine ⟨d, hd, ?_, ?_, (reachable_tree (Reach.new.runAll hd)).1⟩
  · have h : (runAll sampleOps Dom.new).map (fun d => d.childrenOf 0) = some [1, 2] := by decide
    rw [hd] at h; exact Option.some.inj h
  · have h : (runAll sampleOps Dom.new).map (fun d => d.childrenOf 2) = some [4, 3, 5] := by decide
    rw [hd] at h; exact Option.some.inj h

end Render
