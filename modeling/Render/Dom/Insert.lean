/-
What insertion and removal do (`insert_before`, `remove_child` of `render-dom/src/lib.rs`), stated once for all results
about them.

- Detaching and inserting nodes are `Detaches` and `Inserts` on the links, and leave the kinds alone.
- `InsertionValid`: what `pre_insert_checks` has checked when it lets an insertion through.
- `insertBefore_returns`: a call that returns was refused, or had nothing to insert, or went through its steps.
- `Inserted`, `insertBefore_inserted`: the tree a call leaves, and that it keeps the tree invariant.
-/
import Render.Dom.TreeInv

namespace Render

open Render.Core Render.Core.Comp

namespace Dom

variable {d d' : Dom}

theorem insertIdx_eq {α : Type} (l : List α) (i : ℕ) (a : α) (h : i ≤ l.length) :
    l.insertIdx i a = l.take i ++ [a] ++ l.drop i := by
  induction l generalizing i with
  | nil =>
    obtain rfl : i = 0 := by simpa using h
    rfl
  | cons x l ih =>
    cases i with
    | zero => simp
    | succ i => rw [List.insertIdx_succ_cons, ih i (by simpa using h)]; simp

/-! ## Detaching -/

theorem parent_unlink (n p m : NodeId) : (d.unlink n p).parent m = if n = m then none else d.parent m := by
  unfold unlink
  rw [parent_modifyNode, parent_modifyNode]
  split_ifs with hn hp
  · cases (d.modifyNode p _).node m <;> rfl
  · unfold parent; rfl
  · rfl

theorem childrenOf_unlink (n p m : NodeId) :
    (d.unlink n p).childrenOf m = if p = m then (d.childrenOf m).filter (· ≠ n) else d.childrenOf m := by
  unfold unlink
  rw [childrenOf_modifyNode]
  have hin : ∀ m, ((d.modifyNode p fun p => { p with children := p.children.filter (· ≠ n) }).childrenOf m) =
      if p = m then (d.childrenOf m).filter (· ≠ n) else d.childrenOf m := by
    intro m
    rw [childrenOf_modifyNode]
    split_ifs
    · unfold childrenOf children; cases d.node m <;> rfl
    · rfl
  split_ifs with hn hp hp
  · rw [← hin m |>.trans (if_pos hp)]; rfl
  · rw [← hin m |>.trans (if_neg hp)]; rfl
  · exact (hin m).trans (if_pos hp)
  · exact (hin m).trans (if_neg hp)

theorem kindOf_unlink (n p : NodeId) : (d.unlink n p).kindOf = d.kindOf := by
  unfold unlink
  refine (kindOf_of_modifyNode ?_).trans (kindOf_of_modifyNode ?_) <;> intro _ <;> rfl

/-- detaching reads the ranges only to move them -/
theorem detachWithoutRevision_eq {n p : NodeId} (hp : d.parent n = some p) :
    ∃ ranges, d.detachWithoutRevision n = { d.unlink n p with ranges } := by
  unfold detachWithoutRevision
  rw [hp]
  dsimp only
  split_ifs
  · exact ⟨_, rfl⟩
  · split
    · exact ⟨_, rfl⟩
    · exact ⟨_, rfl⟩

theorem kindOf_detachWithoutRevision (n : NodeId) : (d.detachWithoutRevision n).kindOf = d.kindOf := by
  cases hp : d.parent n with
  | none => unfold detachWithoutRevision; rw [hp]
  | some p =>
    obtain ⟨ranges, h⟩ := detachWithoutRevision_eq hp
    rw [h]; exact kindOf_unlink n p

theorem detaches_detachWithoutRevision (hf : d.links.IsForest) (n : NodeId) :
    Links.Detaches d.links (d.detachWithoutRevision n).links [n] := by
  cases hp : d.parent n with
  | none =>
    have hd : d.detachWithoutRevision n = d := by unfold detachWithoutRevision; rw [hp]
    rw [hd]
    refine ⟨by simpa using hp, fun _ _ => rfl, fun p => (List.filter_eq_self.2 fun c hc => ?_).symm⟩
    have := (hf.link p c).1 hc
    simp only [List.mem_singleton, decide_eq_true_eq]
    rintro rfl
    rw [show d.links.parent c = d.parent c from rfl, hp] at this
    cases this
  | some p =>
    obtain ⟨ranges, h⟩ := detachWithoutRevision_eq hp
    rw [h]
    refine ⟨fun c hc => ?_, fun c hc => ?_, fun q => ?_⟩
    · obtain rfl := List.mem_singleton.1 hc
      exact (parent_unlink c p c).trans (if_pos rfl)
    · exact (parent_unlink n p c).trans (if_neg fun hnc => hc (by simp [hnc]))
    · show (d.unlink n p).childrenOf q = (d.childrenOf q).filter _
      rw [childrenOf_unlink]
      have hfil : (fun c => decide (c ∉ [n])) = fun c => decide (c ≠ n) := by
        funext c; simp
      rw [hfil]
      split_ifs with hpq
      · rfl
      · refine (List.filter_eq_self.2 fun c hc => ?_).symm
        have := (hf.link q c).1 hc
        simp only [decide_eq_true_eq]
        rintro rfl
        rw [show d.links.parent c = d.parent c from rfl, hp] at this
        exact hpq (Option.some.inj this)

theorem kindOf_detachAll (l : List NodeId) (d : Dom) : (d.detachAll l).kindOf = d.kindOf := by
  unfold detachAll
  induction l generalizing d with
  | nil => rfl
  | cons n l ih => rw [List.foldl_cons, ih, kindOf_detachWithoutRevision]

theorem detaches_detachAll (l : List NodeId) (hf : d.links.IsForest) :
    Links.Detaches d.links (d.detachAll l).links l := by
  unfold detachAll
  induction l generalizing d with
  | nil => exact Links.Detaches.nil
  | cons n l ih =>
    have hn := detaches_detachWithoutRevision hf n
    exact hn.append (ih (hn.isForest hf))

theorem tagOf_of_kindOf (h : d'.kindOf = d.kindOf) : d'.tagOf = d.tagOf := by
  funext n; unfold tagOf; rw [h]

/-! ## Inserting -/

theorem insertChild_spec {p n : NodeId} {i : ℕ} (hp : p < d.nodes.length) (hn : n < d.nodes.length)
    (hi : i ≤ (d.childrenOf p).length) :
    Links.Inserts d.links (d.insertChild p i n).links p i [n] ∧ (d.insertChild p i n).kindOf = d.kindOf := by
  have hpar : ∀ m, (d.insertChild p i n).parent m = if n = m then some p else d.parent m := by
    intro m
    unfold insertChild
    rw [parent_modifyNode, parent_modifyNode, node_modifyNode]
    split_ifs with hnm hpm
    · have hx : d.nodes[m]? = some d.nodes[n] := by rw [← hnm]; exact List.getElem?_eq_getElem hn
      simp [node, hx]
    · have hx : d.nodes[m]? = some d.nodes[n] := by rw [← hnm]; exact List.getElem?_eq_getElem hn
      simp [node, hx]
    · unfold parent; rfl
    · rfl
  have hchi : ∀ m, (d.insertChild p i n).childrenOf m =
      if p = m then (d.childrenOf m).insertIdx i n else d.childrenOf m := by
    intro m
    unfold insertChild
    rw [childrenOf_modifyNode, childrenOf_modifyNode, node_modifyNode]
    unfold childrenOf children
    split_ifs with hnm hpm hpm
    · have hx : d.node m = some d.nodes[p] := by rw [← hpm]; exact List.getElem?_eq_getElem hp
      simp [hx]
    · rfl
    · have hx : d.node m = some d.nodes[p] := by rw [← hpm]; exact List.getElem?_eq_getElem hp
      simp [hx]
    · rfl
  constructor
  · refine ⟨fun c hc => ?_, fun c hc => ?_, ?_, fun q hq => ?_⟩
    · obtain rfl := List.mem_singleton.1 hc
      exact (hpar c).trans (if_pos rfl)
    · exact (hpar c).trans (if_neg fun hnc => hc (by simp [hnc]))
    · exact ((hchi p).trans (if_pos rfl)).trans (insertIdx_eq _ i n hi)
    · exact (hchi q).trans (if_neg (Ne.symm hq))
  · unfold insertChild
    refine (kindOf_of_modifyNode ?_).trans (kindOf_of_modifyNode ?_) <;> intro _ <;> rfl

theorem nodes_length_insertChild (p n : NodeId) (i : ℕ) : (d.insertChild p i n).nodes.length = d.nodes.length := by
  unfold insertChild modifyNode
  rw [List.length_modify, List.length_modify]

theorem insertChildren_spec {p : NodeId} (l : List NodeId) {i : ℕ} (hp : p < d.nodes.length)
    (hl : ∀ n ∈ l, n < d.nodes.length) (hnd : l.Nodup) (hi : i ≤ (d.childrenOf p).length) :
    Links.Inserts d.links (d.insertChildren p i l).links p i l ∧ (d.insertChildren p i l).kindOf = d.kindOf := by
  induction l generalizing d i with
  | nil => exact ⟨Links.Inserts.nil, rfl⟩
  | cons n l ih =>
    obtain ⟨hnl, hnd⟩ := List.nodup_cons.1 hnd
    obtain ⟨h1, hk1⟩ := insertChild_spec hp (hl n List.mem_cons_self) hi
    have hlen := nodes_length_insertChild (d := d) p n i
    have hi1 : i + 1 ≤ ((d.insertChild p i n).childrenOf p).length := by
      rw [show (d.insertChild p i n).childrenOf p = _ from h1.children_at]
      simp only [List.length_append, List.length_take, List.length_drop, List.length_singleton]
      have : (d.links.children p).length = (d.childrenOf p).length := rfl
      omega
    obtain ⟨h2, hk2⟩ := ih (d := d.insertChild p i n) (by rw [hlen]; exact hp)
      (fun m hm => by rw [hlen]; exact hl m (List.mem_cons_of_mem n hm)) hnd hi1
    exact ⟨h1.cons h2 hnl hi, hk2.trans hk1⟩

/-! ## Adoption -/

/-- d' is d with other owners -/
structure OwnersOnly (d d' : Dom) : Prop where
  links : d'.links = d.links
  kindOf : d'.kindOf = d.kindOf
  length : d'.nodes.length = d.nodes.length
  rest : d' = { d with nodes := d'.nodes }

theorem OwnersOnly.refl (d : Dom) : OwnersOnly d d := ⟨rfl, rfl, rfl, rfl⟩

theorem OwnersOnly.trans {d e f : Dom} (h : OwnersOnly d e) (h' : OwnersOnly e f) : OwnersOnly d f where
  links := h'.links.trans h.links
  kindOf := h'.kindOf.trans h.kindOf
  length := h'.length.trans h.length
  rest := by rw [h'.rest, h.rest]

theorem OwnersOnly.setNodeDocument (d : Dom) (n document : NodeId) : OwnersOnly d (d.setNodeDocument n document) where
  links := links_setNodeDocument n document
  kindOf := kindOf_setNodeDocument n document
  length := by unfold Dom.setNodeDocument modifyNode; exact List.length_modify _ _ _
  rest := rfl

theorem ownersOnly_adoptSubtree {root document : NodeId} (h : d.adoptSubtree root document = some d') :
    OwnersOnly d d' := by
  have hall : ∀ (l : List NodeId) (d : Dom), OwnersOnly d (l.foldl (fun d n => d.setNodeDocument n document) d) := by
    intro l
    induction l with
    | nil => exact OwnersOnly.refl
    | cons n l ih => exact fun d => (OwnersOnly.setNodeDocument d n document).trans (ih _)
  unfold adoptSubtree at h
  obtain ⟨visited, -, rfl⟩ := Option.map_eq_some_iff.1 h
  exact hall visited d

theorem ownersOnly_adoptAll {owner : NodeId} (l : List NodeId) (h : d.adoptAll owner l = some d') : OwnersOnly d d' := by
  induction l generalizing d with
  | nil => obtain rfl := Option.some.inj h; exact OwnersOnly.refl _
  | cons n l ih =>
    unfold adoptAll at h
    split_ifs at h with hn
    · exact ih h
    · obtain ⟨e, he, h⟩ := Option.bind_eq_some_iff.1 h
      exact (ownersOnly_adoptSubtree he).trans (ih h)

/-! ## The checks -/

theorem kind_eq_ok {n : NodeId} {kind : NodeKind} : d.kind n = .ok kind ↔ d.kindOf n = some kind := by
  unfold Dom.kind
  split <;> simp_all

theorem requireNode_eq_ok {n : NodeId} {u : Unit} : d.requireNode n = .ok u ↔ ∃ kind, d.kindOf n = some kind := by
  unfold requireNode
  simp only [bind_eq_ok, kind_eq_ok]
  exact ⟨fun ⟨kind, h, _⟩ => ⟨kind, h⟩, fun ⟨kind, h⟩ => ⟨kind, h, rfl⟩⟩

theorem validateParentKind_ok {p : NodeId} {u : Unit} (h : d.validateParentKind p = .ok u) :
    ∃ t, d.tagOf p = some t ∧ (t = .document ∨ t = .documentFragment ∨ t = .shadowRoot ∨ t = .element) := by
  unfold validateParentKind at h
  obtain ⟨kind, hk, h⟩ := bind_eq_ok.1 h
  refine ⟨kind.tag, by unfold tagOf; rw [kind_eq_ok.1 hk]; rfl, ?_⟩
  cases kind <;> simp_all [NodeKind.tag]

theorem validateChildKind_ok {p c : NodeId} {u : Unit} (h : d.validateChildKind p c = .ok u) {tp : NodeTag}
    (hp : d.tagOf p = some tp) (htp : tp = .document ∨ tp = .documentFragment ∨ tp = .shadowRoot ∨ tp = .element) :
    ∃ tc, d.tagOf c = some tc ∧ tp.mayHold tc = true := by
  unfold validateChildKind at h
  obtain ⟨kp, hkp, h⟩ := bind_eq_ok.1 h
  obtain ⟨kc, hkc, h⟩ := bind_eq_ok.1 h
  have htp' : kp.tag = tp := by
    unfold tagOf at hp
    rw [kind_eq_ok.1 hkp] at hp
    exact Option.some.inj hp
  refine ⟨kc.tag, by unfold tagOf; rw [kind_eq_ok.1 hkc]; rfl, ?_⟩
  subst htp'
  cases kc <;> cases kp <;> simp_all [NodeKind.tag, NodeTag.mayHold]

theorem validateInsertionNodes_ok {p : NodeId} {l : List NodeId} {u : Unit} (h : d.validateInsertionNodes p l = .ok u) :
    ∀ c ∈ l, d.isInclusiveAncestor c p = false ∧ ∃ u, d.validateChildKind p c = .ok u := by
  induction l with
  | nil => simp
  | cons n l ih =>
    unfold validateInsertionNodes at h
    obtain ⟨_, h1, h⟩ := bind_eq_ok.1 h
    obtain ⟨u, h2, h⟩ := bind_eq_ok.1 h
    intro c hc
    rcases List.mem_cons.1 hc with rfl | hc
    · exact ⟨by simpa using refuse_eq_ok.1 h1, u, h2⟩
    · exact ih h c hc

/-- what the scan of a document's children from index `i` on finds: `seen` before it and `seen'` after it hold the index
of the element and of the doctype -/
structure Scanned (d : Dom) (l : List NodeId) (i : ℕ) (seen seen' : Option ℕ × Option ℕ) : Prop where
  element : ∀ j c, l[j]? = some c → d.tagOf c = some .element → seen.1 = none ∧ seen'.1 = some (i + j)
  doctype : ∀ j c, l[j]? = some c → d.tagOf c = some .documentType → seen.2 = none ∧ seen'.2 = some (i + j)
  keepElement : ∀ e, seen.1 = some e → seen'.1 = some e
  keepDoctype : ∀ e, seen.2 = some e → seen'.2 = some e

/-- one more child in front, which `found` has entered in `seen` -/
theorem Scanned.cons {l : List NodeId} {i : ℕ} {seen found seen' : Option ℕ × Option ℕ} {n : NodeId}
    (h : Scanned d l (i + 1) found seen') (hel : d.tagOf n = some .element → seen.1 = none ∧ found.1 = some i)
    (hdt : d.tagOf n = some .documentType → seen.2 = none ∧ found.2 = some i)
    (h1 : ∀ e, seen.1 = some e → found.1 = some e) (h2 : ∀ e, seen.2 = some e → found.2 = some e) :
    Scanned d (n :: l) i seen seen' where
  element j c hj hc := by
    cases j with
    | zero =>
      obtain rfl : n = c := by simpa using hj
      exact ⟨(hel hc).1, h.keepElement i (hel hc).2⟩
    | succ j =>
      obtain ⟨hf, hs⟩ := h.element j c (by simpa using hj) hc
      refine ⟨?_, by rw [hs]; congr 1; omega⟩
      by_contra hne
      obtain ⟨e, he⟩ := Option.ne_none_iff_exists'.1 hne
      rw [h1 e he] at hf; cases hf
  doctype j c hj hc := by
    cases j with
    | zero =>
      obtain rfl : n = c := by simpa using hj
      exact ⟨(hdt hc).1, h.keepDoctype i (hdt hc).2⟩
    | succ j =>
      obtain ⟨hf, hs⟩ := h.doctype j c (by simpa using hj) hc
      refine ⟨?_, by rw [hs]; congr 1; omega⟩
      by_contra hne
      obtain ⟨e, he⟩ := Option.ne_none_iff_exists'.1 hne
      rw [h2 e he] at hf; cases hf
  keepElement e he := h.keepElement e (h1 e he)
  keepDoctype e he := h.keepDoctype e (h2 e he)

theorem scanDocumentChildren_ok {l : List NodeId} {i : ℕ} {seen seen' : Option ℕ × Option ℕ}
    (h : d.scanDocumentChildren i seen l = .ok seen') : Scanned d l i seen seen' := by
  induction l generalizing i seen with
  | nil =>
    obtain rfl : seen = seen' := by simpa [scanDocumentChildren] using h
    exact ⟨by simp, by simp, fun _ => id, fun _ => id⟩
  | cons n l ih =>
    unfold scanDocumentChildren at h
    obtain ⟨kind, hk, h⟩ := bind_eq_ok.1 h
    have htag : d.tagOf n = some kind.tag := by unfold tagOf; rw [kind_eq_ok.1 hk]; rfl
    cases kind with
    | comment => exact (ih h).cons (by simp [htag, NodeKind.tag]) (by simp [htag, NodeKind.tag]) (fun _ => id) fun _ => id
    | processingInstruction =>
      exact (ih h).cons (by simp [htag, NodeKind.tag]) (by simp [htag, NodeKind.tag]) (fun _ => id) fun _ => id
    | element =>
      obtain ⟨_, hr, h⟩ := bind_eq_ok.1 h
      have hnone : seen.1 = none := by simpa using refuse_eq_ok.1 hr
      exact (ih h).cons (fun _ => ⟨hnone, rfl⟩) (by simp [htag, NodeKind.tag]) (by simp [hnone]) fun _ => id
    | documentType =>
      obtain ⟨_, hr, h⟩ := bind_eq_ok.1 h
      have hnone : seen.2 = none := by simpa using refuse_eq_ok.1 hr
      exact (ih h).cons (by simp [htag, NodeKind.tag]) (fun _ => ⟨hnone, rfl⟩) (fun _ => id) (by simp [hnone])
    | document => cases h
    | documentFragment => cases h
    | shadowRoot => cases h
    | text => cases h

theorem validateDocumentChildren_ok {p : NodeId} {l : List NodeId} {reference : Option NodeId} {u : Unit}
    (h : d.validateDocumentChildren p l reference = .ok u) (hp : d.tagOf p = some .document) :
    d.DocumentOrder (candidateChildren (d.childrenOf p) l reference) := by
  unfold validateDocumentChildren at h
  obtain ⟨kind, hk, h⟩ := bind_eq_ok.1 h
  unfold tagOf at hp
  rw [kind_eq_ok.1 hk, Option.map_some, Option.some.injEq] at hp
  cases kind <;> simp only [NodeKind.tag, reduceCtorEq] at hp
  obtain ⟨seen, hs, h⟩ := bind_eq_ok.1 h
  have hfound := scanDocumentChildren_ok hs
  refine List.pairwise_iff_getElem.2 fun i j hi hj hij hclash => ?_
  have hgi := List.getElem?_eq_getElem hi
  have hgj := List.getElem?_eq_getElem hj
  revert hclash
  unfold NodeTag.clash
  split
  · rename_i hti htj
    have := (hfound.element _ _ hgi hti).2.symm.trans (hfound.element _ _ hgj htj).2
    simp at this; omega
  · rename_i hti htj
    have := (hfound.doctype _ _ hgi hti).2.symm.trans (hfound.doctype _ _ hgj htj).2
    simp at this; omega
  · rename_i hti htj
    rw [show seen = (seen.1, seen.2) from rfl, (hfound.element _ _ hgi hti).2, (hfound.doctype _ _ hgj htj).2] at h
    have := refuse_eq_ok.1 h
    omega
  · exact id

/-- the nodes an insertion of `n` inserts -/
def insertionNodes (d : Dom) (n : NodeId) : List NodeId :=
  if d.tagOf n = some .documentFragment then d.childrenOf n else [n]

/-- what `pre_insert_checks` has checked when it accepts -/
structure InsertionValid (d : Dom) (parent n : NodeId) (reference eff : Option NodeId) : Prop where
  parentTag : ∃ t, d.tagOf parent = some t ∧ (t = .document ∨ t = .documentFragment ∨ t = .shadowRoot ∨ t = .element)
  referenceParent : ∀ r, reference = some r → d.parent r = some parent
  notAbove : ¬ d.links.Above n parent
  effEq : eff = if reference = some n then d.nextSibling n else reference
  nodes : ∀ c ∈ d.insertionNodes n, ¬ d.links.Above c parent ∧
    ∃ tc tp, d.tagOf c = some tc ∧ d.tagOf parent = some tp ∧ tp.mayHold tc = true
  document : d.tagOf parent = some .document →
    d.DocumentOrder (candidateChildren (d.childrenOf parent) (d.insertionNodes n) eff)

theorem tagOf_eq_some {n : NodeId} {kind : NodeKind} (h : d.kindOf n = some kind) : d.tagOf n = some kind.tag := by
  unfold tagOf; rw [h]; rfl

theorem isDocumentFragment_iff {kind : NodeKind} : kind.isDocumentFragment = true ↔ kind.tag = .documentFragment := by
  cases kind <;> simp [NodeKind.isDocumentFragment, NodeKind.tag]

theorem insertionNodes_eq {n : NodeId} {kind : NodeKind} (h : d.kindOf n = some kind) :
    d.insertionNodes n = if kind.isDocumentFragment then d.childrenOf n else [n] := by
  unfold insertionNodes
  rw [tagOf_eq_some h]
  by_cases hf : kind.isDocumentFragment = true
  · rw [if_pos hf, if_pos (by rw [isDocumentFragment_iff.1 hf])]
  · rw [if_neg hf, if_neg fun hc => hf (isDocumentFragment_iff.2 (Option.some.inj hc))]

theorem preInsertChecks_ok (hf : d.links.IsForest) {parent n : NodeId} {reference eff : Option NodeId}
    (h : d.preInsertChecks parent n reference = .ok eff) : InsertionValid d parent n reference eff := by
  unfold preInsertChecks at h
  obtain ⟨_, -, h⟩ := bind_eq_ok.1 h
  obtain ⟨_, -, h⟩ := bind_eq_ok.1 h
  obtain ⟨_, href, h⟩ := bind_eq_ok.1 h
  obtain ⟨_, hp, h⟩ := bind_eq_ok.1 h
  obtain ⟨_, hcycle, h⟩ := bind_eq_ok.1 h
  obtain ⟨kind, hk, h⟩ := bind_eq_ok.1 h
  obtain ⟨_, hnodes, h⟩ := bind_eq_ok.1 h
  obtain ⟨_, hdoc, h⟩ := bind_eq_ok.1 h
  obtain ⟨tp, htp, hcan⟩ := validateParentKind_ok hp
  rw [← insertionNodes_eq (kind_eq_ok.1 hk)] at hnodes hdoc
  have heff := pure_eq_ok.1 h
  refine ⟨⟨tp, htp, hcan⟩, fun r hr => ?_, fun ha => ?_, heff.symm, fun c hc => ?_, fun hd => ?_⟩
  · rw [hr] at href
    unfold validateReference at href
    obtain ⟨_, -, href⟩ := bind_eq_ok.1 href
    exact not_not.1 (refuse_eq_ok.1 href)
  · exact refuse_eq_ok.1 hcycle (Or.inr ((isInclusiveAncestor_iff hf.ends).2 ha))
  · obtain ⟨hc1, u, hc2⟩ := validateInsertionNodes_ok hnodes c hc
    obtain ⟨tc, htc, hm⟩ := validateChildKind_ok hc2 htp hcan
    refine ⟨fun ha => ?_, tc, tp, htc, htp, hm⟩
    rw [(isInclusiveAncestor_iff hf.ends).2 ha] at hc1; cases hc1
  · rw [← heff]; exact validateDocumentChildren_ok hdoc hd

theorem InsertionValid.nodesInserted_eq {parent n : NodeId} {reference eff : Option NodeId}
    (h : InsertionValid d parent n reference eff) {kind : NodeKind} (hk : d.kindOf n = some kind) :
    d.nodesInserted kind n = d.insertionNodes n := by
  rw [insertionNodes_eq hk]
  cases kind <;> try rfl
  -- a shadow root is refused as a child of any parent
  obtain ⟨-, tc, tp, htc, -, hm⟩ := h.nodes n (by rw [insertionNodes_eq hk]; simp [NodeKind.isDocumentFragment])
  rw [tagOf_eq_some hk] at htc
  obtain rfl := Option.some.inj htc
  cases tp <;> cases hm

/-! ## Siblings -/

theorem indexInParent_eq_some {c p : NodeId} (hf : d.links.IsForest) (hp : d.parent c = some p) :
    d.indexInParent c = some ((d.childrenOf p).idxOf c) ∧ (d.childrenOf p).idxOf c < (d.childrenOf p).length := by
  have hc : c ∈ d.childrenOf p := (hf.link p c).2 hp
  have hlt := List.idxOf_lt_length_of_mem hc
  refine ⟨?_, hlt⟩
  unfold indexInParent
  have hch : d.children p = some (d.childrenOf p) := by
    unfold childrenOf at *
    cases hcp : d.children p with
    | none => rw [hcp] at hc; simp at hc
    | some l => rfl
  rw [hp]
  show (d.children p).bind (fun siblings => siblings.idxOf? c) = _
  rw [hch]
  show (d.childrenOf p).idxOf? c = _
  cases hi : (d.childrenOf p).idxOf? c with
  | none => exact absurd hc (List.idxOf?_eq_none_iff.1 hi)
  | some i => rw [List.idxOf_eq_getD_idxOf?, hi]; rfl

theorem indexOrZero_eq {c p : NodeId} (hf : d.links.IsForest) (hp : d.parent c = some p) :
    d.indexOrZero c = (d.childrenOf p).idxOf c := by
  unfold indexOrZero
  rw [(indexInParent_eq_some hf hp).1]; rfl

theorem nextSibling_eq {c p : NodeId} (hf : d.links.IsForest) (hp : d.parent c = some p) :
    d.nextSibling c = (d.childrenOf p)[(d.childrenOf p).idxOf c + 1]? := by
  have hi := (indexInParent_eq_some hf hp).1
  unfold indexInParent at hi
  unfold nextSibling
  rw [hp] at hi ⊢
  change (d.children p).bind _ = _ at hi
  show (d.children p).bind _ = _
  obtain ⟨l, hl, hi⟩ := Option.bind_eq_some_iff.1 hi
  have hlc : d.childrenOf p = l := by unfold childrenOf; rw [hl]; rfl
  rw [hlc] at hi ⊢
  rw [hl]
  show (l.idxOf? c).bind _ = _
  rw [hi]; rfl

theorem nextSibling_spec {c p r : NodeId} (hf : d.links.IsForest) (hp : d.parent c = some p)
    (h : d.nextSibling c = some r) : d.parent r = some p ∧ r ≠ c := by
  rw [nextSibling_eq hf hp] at h
  obtain ⟨hlt, hr⟩ := List.getElem?_eq_some_iff.1 h
  refine ⟨(hf.link p r).1 (by rw [← hr]; exact List.getElem_mem hlt), ?_⟩
  rintro rfl
  have hidx := List.Nodup.idxOf_getElem (show (d.childrenOf p).Nodup from hf.nodup p) _ hlt
  rw [hr] at hidx
  omega

/-- the reference an insertion uses is a child of the parent, and is not inserted itself -/
theorem InsertionValid.effective_spec {parent n : NodeId} {reference eff : Option NodeId} (hd : TreeInv d)
    (h : InsertionValid d parent n reference eff) {r : NodeId} (hr : eff = some r) :
    d.parent r = some parent ∧ r ∉ d.insertionNodes n := by
  have heff := h.effEq
  rw [hr] at heff
  split_ifs at heff with hrn
  · have hn := h.referenceParent n hrn
    obtain ⟨hp, hne⟩ := nextSibling_spec hd.forest hn heff.symm
    refine ⟨hp, ?_⟩
    obtain ⟨tc, tp, htc, -, hm⟩ := hd.kinds n parent hn
    have hfrag : ¬ d.tagOf n = some .documentFragment := by
      rw [htc]; rintro ⟨⟩; cases tp <;> cases hm
    unfold insertionNodes
    rw [if_neg hfrag]
    simpa using hne
  · have hp := h.referenceParent r heff.symm
    refine ⟨hp, fun hmem => ?_⟩
    unfold insertionNodes at hmem
    split_ifs at hmem with hfrag
    · have hrn' := hd.mem_children.1 hmem
      rw [hp] at hrn'
      obtain rfl := Option.some.inj hrn'
      exact h.notAbove (Links.Above.refl _)
    · exact hrn (by rw [← heff, List.mem_singleton.1 hmem])

/-! ## Recording -/

/-- d' is d with another focus, revision and journal -/
def LogOnly (d d' : Dom) : Prop :=
  d' = { d with
    focusedArea := d'.focusedArea
    mutationRevision := d'.mutationRevision
    mutationJournal := d'.mutationJournal
    oldestAvailableRevision := d'.oldestAvailableRevision
    history := d'.history }

theorem LogOnly.trans {d e f : Dom} (h : LogOnly d e) (h' : LogOnly e f) : LogOnly d f := by
  unfold LogOnly at *
  rw [h', h]

theorem LogOnly.nodes (h : LogOnly d d') : d'.nodes = d.nodes := by
  have := congrArg Dom.nodes h
  exact this

theorem LogOnly.ranges (h : LogOnly d d') : d'.ranges = d.ranges := by
  have := congrArg Dom.ranges h
  exact this

theorem kindOf_of_nodes (h : d'.nodes = d.nodes) : d'.kindOf = d.kindOf := by
  funext n; unfold kindOf node; rw [h]

theorem logOnly_boundJournal (d : Dom) (capacity : ℕ) : LogOnly d (d.boundJournal capacity) := by
  have hpop : ∀ d : Dom, LogOnly d d.popFrontRecord := by
    intro d
    unfold LogOnly popFrontRecord
    split <;> rfl
  have hall : ∀ (k : ℕ) (d : Dom), LogOnly d (popFrontRecord^[k] d) := by
    intro k
    induction k with
    | zero => exact fun d => rfl
    | succ k ih => exact fun d => (hpop d).trans (ih _)
  exact hall _ d

theorem nodes_setMutationJournalCapacityIn (d : Dom) (capacity : ℕ) :
    (d.setMutationJournalCapacityIn capacity).nodes = d.nodes :=
  (logOnly_boundJournal { d with mutationJournalCapacity := capacity } capacity).nodes

theorem logOnly_pushMutations (d : Dom) (mutations : List MutationKind) : LogOnly d (d.pushMutations mutations) := by
  unfold pushMutations
  exact LogOnly.trans (e := { d with mutationRevision := _, mutationJournal := _, history := _ }) rfl
    (logOnly_boundJournal _ _)

theorem logOnly_applyFocusFixup (h : d.applyFocusFixup = some d') : LogOnly d d' := by
  unfold applyFocusFixup at h
  split at h
  · obtain rfl := Option.some.inj h; rfl
  · obtain ⟨focusable, -, rfl⟩ := Option.map_eq_some_iff.1 h
    split_ifs <;> rfl

theorem logOnly_recordMutationsIn {mutations : List MutationKind} (h : d.recordMutationsIn mutations = some d') :
    LogOnly d d' := by
  unfold recordMutationsIn at h
  split_ifs at h
  · obtain rfl := Option.some.inj h; rfl
  · obtain ⟨e, he, rfl⟩ := Option.map_eq_some_iff.1 h
    exact (logOnly_applyFocusFixup he).trans (logOnly_pushMutations e mutations)

/-! ## An insertion -/

/-- the DOM of an insertion after its nodes have left their old parents, before they are adopted -/
def readied (d : Dom) (parent n : NodeId) (eff : Option NodeId) : Dom :=
  let nodes := d.insertionNodes n
  ((if d.tagOf n = some .documentFragment then d.detachAll nodes else d).shiftForInsert parent eff
    nodes.length).detachAll nodes

theorem links_shiftForInsert (parent : NodeId) (reference : Option NodeId) (count : ℕ) :
    (d.shiftForInsert parent reference count).links = d.links := by
  unfold shiftForInsert
  split
  · split_ifs <;> rfl
  · rfl

theorem kindOf_shiftForInsert (parent : NodeId) (reference : Option NodeId) (count : ℕ) :
    (d.shiftForInsert parent reference count).kindOf = d.kindOf := by
  unfold shiftForInsert
  split
  · split_ifs <;> rfl
  · rfl

theorem kindOf_readied (parent n : NodeId) (eff : Option NodeId) : (d.readied parent n eff).kindOf = d.kindOf := by
  unfold readied
  rw [kindOf_detachAll, kindOf_shiftForInsert]
  split_ifs
  · exact kindOf_detachAll _ d
  · rfl

theorem detaches_readied (hf : d.links.IsForest) (parent n : NodeId) (eff : Option NodeId) :
    Links.Detaches d.links (d.readied parent n eff).links (d.insertionNodes n) := by
  unfold readied
  dsimp only
  split_ifs
  · have h1 := detaches_detachAll (d.insertionNodes n) hf
    have hf2 : ((d.detachAll (d.insertionNodes n)).shiftForInsert parent eff
        (d.insertionNodes n).length).links.IsForest := by
      rw [links_shiftForInsert]; exact h1.isForest hf
    have h2 := detaches_detachAll (d.insertionNodes n) hf2
    rw [links_shiftForInsert] at h2
    exact h1.twice h2
  · have hf2 : (d.shiftForInsert parent eff (d.insertionNodes n).length).links.IsForest := by
      rw [links_shiftForInsert]; exact hf
    have h2 := detaches_detachAll (d.insertionNodes n) hf2
    rwa [links_shiftForInsert] at h2

/-- the nodes the records of an insertion name: each node that had a parent, then the inserted nodes -/
def insertionRecords (d : Dom) (parent n : NodeId) : List MutationKind :=
  (((d.insertionNodes n).filterMap fun moved => (d.parent moved).map fun oldParent => (oldParent, moved)).map
    fun removal => .childList removal.1 [] [removal.2]) ++ [.childList parent (d.insertionNodes n) []]

/-- the insertion into the readied DOM, at the index where the reference now is -/
def insertAt (adopted : Dom) (parent n : NodeId) (nodes : List NodeId) (records : List MutationKind) :
    Except DomError ℕ → Option (Except DomError NodeId × Dom)
  | .error e => some (.error e, adopted)
  | .ok i => ((adopted.insertChildren parent i nodes).recordMutationsIn records).map fun d' => (.ok n, d')

theorem insertBefore_refused {parent n : NodeId} {reference : Option NodeId} {e : DomError}
    (hc : d.preInsertChecks parent n reference = .error e) : insertBefore parent n reference d = some (.error e, d) :=
  bind_run_error (by rw [check_run, hc])

/-- the checks have read the kind of the node before the insertion reads it -/
theorem kindOf_of_preInsertChecks {parent n : NodeId} {reference eff : Option NodeId}
    (hc : d.preInsertChecks parent n reference = .ok eff) : ∃ kind, d.kindOf n = some kind := by
  unfold preInsertChecks at hc
  obtain ⟨_, -, hc⟩ := bind_eq_ok.1 hc
  obtain ⟨_, hn, -⟩ := bind_eq_ok.1 hc
  exact requireNode_eq_ok.1 hn

theorem insertBefore_nothing (hf : d.links.IsForest) {parent n : NodeId} {reference eff : Option NodeId}
    (hc : d.preInsertChecks parent n reference = .ok eff) (he : d.insertionNodes n = []) :
    insertBefore parent n reference d = some (.ok n, d) := by
  obtain ⟨kind, hk⟩ := kindOf_of_preInsertChecks hc
  unfold insertBefore
  rw [bind_run_ok (by rw [check_run, hc]), bind_run_ok (by rw [check_run, kind_eq_ok.2 hk]), get_bind]
  simp only [(preInsertChecks_ok hf hc).nodesInserted_eq hk]
  rw [if_pos (List.isEmpty_iff.2 he)]
  rfl

/-- the steps of an insertion after its checks have accepted it -/
theorem insertBefore_eq (hf : d.links.IsForest) {parent n : NodeId} {reference eff : Option NodeId}
    (hc : d.preInsertChecks parent n reference = .ok eff) (hne : d.insertionNodes n ≠ []) :
    insertBefore parent n reference d =
      ((d.readied parent n eff).adoptAll ((d.readied parent n eff).ownerOf parent) (d.insertionNodes n)).bind
        fun adopted => adopted.insertAt parent n (d.insertionNodes n) (d.insertionRecords parent n)
          (adopted.insertionIndex parent eff) := by
  obtain ⟨kind, hk⟩ := kindOf_of_preInsertChecks hc
  have hfrag : (if kind.isDocumentFragment = true then d.detachAll (d.insertionNodes n) else d) =
      if d.tagOf n = some .documentFragment then d.detachAll (d.insertionNodes n) else d := by
    rw [tagOf_eq_some hk]
    by_cases hf : kind.isDocumentFragment = true
    · rw [if_pos hf, if_pos (by rw [isDocumentFragment_iff.1 hf])]
    · rw [if_neg hf, if_neg fun hc => hf (isDocumentFragment_iff.2 (Option.some.inj hc))]
  unfold insertBefore
  rw [bind_run_ok (by rw [check_run, hc]), bind_run_ok (by rw [check_run, kind_eq_ok.2 hk]), get_bind]
  simp only [(preInsertChecks_ok hf hc).nodesInserted_eq hk]
  rw [if_neg fun he => hne (List.isEmpty_iff.1 he)]
  simp only [modify_bind, hfrag]
  change (awaitModify _ >>= _) (d.readied parent n eff) = _
  rw [awaitModify_bind]
  refine congrArg _ (funext fun adopted => ?_)
  cases hi : adopted.insertionIndex parent eff with
  | error e => rw [bind_run_error (by rw [check_run, hi])]; rfl
  | ok i =>
    rw [bind_run_ok (by rw [check_run, hi]), modify_bind, recordMutations, awaitModify_bind]
    exact Option.map_eq_bind.symm

/-- the steps of an insertion that went through: the checks, the nodes leaving their parents (`readied`), adoption, the
insertion at index `i`, and the record -/
structure InsertRun (d d' : Dom) (parent n : NodeId) (reference eff : Option NodeId) (i : ℕ) (adopted : Dom) : Prop where
  valid : InsertionValid d parent n reference eff
  owners : OwnersOnly (d.readied parent n eff) adopted
  index : adopted.insertionIndex parent eff = .ok i
  log : LogOnly (adopted.insertChildren parent i (d.insertionNodes n)) d'

/-- the tree an insertion of the nodes of `l` leaves -/
structure Inserted (d d' : Dom) (parent : NodeId) (eff : Option NodeId) (l : List NodeId) : Prop where
  parent_in : ∀ c ∈ l, d'.parent c = some parent
  parent_out : ∀ c, c ∉ l → d'.parent c = d.parent c
  children_at : d'.childrenOf parent = candidateChildren (d.childrenOf parent) l eff
  children_out : ∀ q, q ≠ parent → d'.childrenOf q = (d.childrenOf q).filter (· ∉ l)
  kindOf : d'.kindOf = d.kindOf
  treeInv : TreeInv d'

theorem insertionNodes_nodup (hd : TreeInv d) (n : NodeId) : (d.insertionNodes n).Nodup := by
  unfold insertionNodes
  split_ifs
  · exact hd.forest.nodup n
  · exact List.nodup_singleton n

namespace InsertRun

variable {parent n : NodeId} {reference eff : Option NodeId} {i : ℕ} {adopted : Dom}

theorem detaches (hd : TreeInv d) (h : InsertRun d d' parent n reference eff i adopted) :
    Links.Detaches d.links adopted.links (d.insertionNodes n) := by
  rw [h.owners.links]
  exact detaches_readied hd.forest parent n eff

theorem adopted_kindOf (h : InsertRun d d' parent n reference eff i adopted) : adopted.kindOf = d.kindOf :=
  h.owners.kindOf.trans (kindOf_readied parent n eff)

theorem adopted_children (hd : TreeInv d) (h : InsertRun d d' parent n reference eff i adopted) :
    adopted.childrenOf parent = (d.childrenOf parent).filter fun c => !(d.insertionNodes n).contains c := by
  have := (h.detaches hd).children parent
  rw [show adopted.childrenOf parent = _ from this]
  refine List.filter_congr fun c _ => ?_
  simp

/-- the index is where the checks expected the reference -/
theorem index_eq (hd : TreeInv d) (h : InsertRun d d' parent n reference eff i adopted) :
    i ≤ (adopted.childrenOf parent).length ∧
      candidateChildren (d.childrenOf parent) (d.insertionNodes n) eff =
        (adopted.childrenOf parent).take i ++ d.insertionNodes n ++ (adopted.childrenOf parent).drop i := by
  have hi := h.index
  have hch := h.adopted_children hd
  unfold insertionIndex at hi
  unfold candidateChildren
  rw [← hch]
  cases heff : eff with
  | none =>
    rw [heff] at hi
    obtain rfl := Except.ok.inj hi
    exact ⟨le_rfl, rfl⟩
  | some r =>
    rw [heff] at hi
    dsimp only at hi ⊢
    cases hidx : (adopted.childrenOf parent).idxOf? r with
    | none => rw [hidx] at hi; cases hi
    | some j =>
      rw [hidx] at hi
      obtain rfl := Except.ok.inj hi
      obtain ⟨hlt, -⟩ := List.idxOf?_eq_some_iff.1 hidx
      exact ⟨hlt.le, rfl⟩

theorem nodes_lt (h : InsertRun d d' parent n reference eff i adopted) {c : NodeId} (hc : c ∈ d.insertionNodes n) :
    c < adopted.nodes.length := by
  obtain ⟨-, tc, -, htc, -⟩ := h.valid.nodes c hc
  have htc' : adopted.tagOf c = some tc := by unfold tagOf; rw [h.adopted_kindOf]; exact htc
  exact tagOf_lt htc'

theorem parent_lt (h : InsertRun d d' parent n reference eff i adopted) : parent < adopted.nodes.length := by
  obtain ⟨t, ht, -⟩ := h.valid.parentTag
  have ht' : adopted.tagOf parent = some t := by unfold tagOf; rw [h.adopted_kindOf]; exact ht
  exact tagOf_lt ht'

theorem inserts (hd : TreeInv d) (h : InsertRun d d' parent n reference eff i adopted) :
    Links.Inserts adopted.links d'.links parent i (d.insertionNodes n) ∧ d'.kindOf = d.kindOf := by
  obtain ⟨hins, hk⟩ := insertChildren_spec (d.insertionNodes n) h.parent_lt (fun c hc => h.nodes_lt hc)
    (insertionNodes_nodup hd n) (h.index_eq hd).1
  have hg := Grows.of_nodes h.log.nodes
  have hnode : d'.node = (adopted.insertChildren parent i (d.insertionNodes n)).node := by
    funext m; unfold Dom.node; rw [h.log.nodes]
  have hk' : d'.kindOf = (adopted.insertChildren parent i (d.insertionNodes n)).kindOf := by
    funext m; unfold Dom.kindOf; rw [hnode]
  rw [hg.links]
  exact ⟨hins, hk'.trans (hk.trans h.adopted_kindOf)⟩

theorem parent_none (hd : TreeInv d) (h : InsertRun d d' parent n reference eff i adopted) :
    ∀ c ∈ d.insertionNodes n, adopted.links.parent c = none :=
  (h.detaches hd).parent_in

theorem not_above (hd : TreeInv d) (h : InsertRun d d' parent n reference eff i adopted) :
    ∀ c ∈ d.insertionNodes n, ¬ adopted.links.Above c parent :=
  fun c hc ha => (h.valid.nodes c hc).1 ((h.detaches hd).above ha)

/-- **An insertion that goes through** puts the nodes where the checks expected them and keeps the tree invariant. -/
theorem inserted (hd : TreeInv d) (h : InsertRun d d' parent n reference eff i adopted) :
    Inserted d d' parent eff (d.insertionNodes n) := by
  have hdet := h.detaches hd
  obtain ⟨hins, hkind⟩ := h.inserts hd
  have hforest : d'.links.IsForest :=
    hins.isForest (hdet.isForest hd.forest) (insertionNodes_nodup hd n) (h.parent_none hd) (h.not_above hd)
  have hpar : ∀ c, c ∉ d.insertionNodes n → d'.parent c = d.parent c := fun c hc =>
    (hins.parent_out c hc).trans (hdet.parent_out c hc)
  have hat : d'.childrenOf parent = candidateChildren (d.childrenOf parent) (d.insertionNodes n) eff := by
    rw [(h.index_eq hd).2]; exact hins.children_at
  have hout : ∀ q, q ≠ parent → d'.childrenOf q = (d.childrenOf q).filter (· ∉ d.insertionNodes n) := fun q hq =>
    (hins.children_out q hq).trans (hdet.children q)
  have htag : d'.tagOf = d.tagOf := tagOf_of_kindOf hkind
  refine ⟨hins.parent_in, hpar, hat, hout, hkind, ⟨hforest, fun c p hp => ?_, fun p hp => ?_⟩⟩
  · rw [htag]
    by_cases hc : c ∈ d.insertionNodes n
    · have := hins.parent_in c hc
      rw [links_parent, hp] at this
      obtain rfl := Option.some.inj this
      obtain ⟨tc, tp, h1, h2, h3⟩ := (h.valid.nodes c hc).2
      exact ⟨tc, tp, h1, h2, h3⟩
    · rw [hpar c hc] at hp
      exact hd.kinds c p hp
  · unfold DocumentOrder
    rw [htag] at hp ⊢
    by_cases hpp : p = parent
    · rw [hpp, hat]
      exact h.valid.document (hpp ▸ hp)
    · rw [hout p hpp]
      exact (hd.documents p hp).sublist List.filter_sublist

end InsertRun

/-- the reference is still a child of the parent when the nodes have left, so its index is found -/
theorem insertionIndex_ok (hd : TreeInv d) {parent n : NodeId} {reference eff : Option NodeId} {adopted : Dom}
    (hv : InsertionValid d parent n reference eff) (ho : OwnersOnly (d.readied parent n eff) adopted) :
    ∃ i, adopted.insertionIndex parent eff = .ok i := by
  unfold insertionIndex
  cases heff : eff with
  | none => exact ⟨_, rfl⟩
  | some r =>
    obtain ⟨hrp, hrn⟩ := hv.effective_spec hd heff
    have hmem : r ∈ adopted.childrenOf parent := by
      have hdet := detaches_readied hd.forest parent n eff
      rw [← ho.links] at hdet
      rw [show adopted.childrenOf parent = _ from hdet.children parent, List.mem_filter]
      exact ⟨hd.mem_children.2 hrp, by simpa using hrn⟩
    cases hidx : (adopted.childrenOf parent).idxOf? r with
    | none => exact absurd hmem (List.idxOf?_eq_none_iff.1 hidx)
    | some j => exact ⟨j, by simp [hidx]⟩

/-- **`insert_before`, for a DOM with the tree invariant.** A call that returns an error leaves the DOM as it was; one that
returns the node had nothing to insert, or went through all its steps. -/
theorem insertBefore_cases (hd : TreeInv d) {parent n : NodeId} {reference : Option NodeId} {r : Except DomError NodeId}
    (h : insertBefore parent n reference d = some (r, d')) :
    (∃ e, r = .error e ∧ d' = d) ∨ (r = .ok n ∧ d.insertionNodes n = [] ∧ d' = d) ∨
      (r = .ok n ∧ d.insertionNodes n ≠ [] ∧ ∃ eff i adopted, InsertRun d d' parent n reference eff i adopted) := by
  cases hc : d.preInsertChecks parent n reference with
  | error e =>
    rw [insertBefore_refused hc, Option.some.injEq, Prod.mk.injEq] at h
    exact Or.inl ⟨e, h.1.symm, h.2.symm⟩
  | ok eff =>
    by_cases hne : d.insertionNodes n = []
    · rw [insertBefore_nothing hd.forest hc hne, Option.some.injEq, Prod.mk.injEq] at h
      exact Or.inr (Or.inl ⟨h.1.symm, hne, h.2.symm⟩)
    · rw [insertBefore_eq hd.forest hc hne] at h
      obtain ⟨adopted, hadopt, h⟩ := Option.bind_eq_some_iff.1 h
      have hv := preInsertChecks_ok hd.forest hc
      have ho := ownersOnly_adoptAll _ hadopt
      obtain ⟨i, hi⟩ := insertionIndex_ok hd hv ho
      rw [hi] at h
      obtain ⟨recorded, hrec, he⟩ := Option.map_eq_some_iff.1 h
      obtain ⟨rfl, rfl⟩ := Prod.mk.inj he
      exact Or.inr (Or.inr ⟨rfl, hne, eff, i, adopted, hv, ho, hi, logOnly_recordMutationsIn hrec⟩)

/-! ## A removal -/

/-- a call of `remove_child` that returns was refused, or detached the child and recorded it -/
theorem removeChild_cases {parent child : NodeId} {r : Except DomError NodeId}
    (h : removeChild parent child d = some (r, d')) :
    (∃ e, r = .error e ∧ d' = d) ∨
      (r = .ok child ∧ d.parent child = some parent ∧ LogOnly (d.detachWithoutRevision child) d') := by
  unfold removeChild at h
  rcases bind_returns h with ⟨e, h, hr⟩ | ⟨_, u, hu, h⟩
  · simp only [check_run, Option.some.injEq, Prod.mk.injEq] at h
    exact Or.inl ⟨e, hr, h.2.symm⟩
  simp only [check_run, Option.some.injEq, Prod.mk.injEq] at hu
  obtain ⟨-, rfl⟩ := hu
  rcases bind_returns h with ⟨e, h, hr⟩ | ⟨_, u, hu, h⟩
  · simp only [check_run, Option.some.injEq, Prod.mk.injEq] at h
    exact Or.inl ⟨e, hr, h.2.symm⟩
  simp only [check_run, Option.some.injEq, Prod.mk.injEq] at hu
  obtain ⟨-, rfl⟩ := hu
  rw [get_bind] at h
  rcases bind_returns h with ⟨e, h, hr⟩ | ⟨_, u, hu, h⟩
  · simp only [failIf, check_run, Option.some.injEq, Prod.mk.injEq] at h
    exact Or.inl ⟨e, hr, h.2.symm⟩
  simp only [failIf, check_run, Option.some.injEq, Prod.mk.injEq] at hu
  obtain ⟨hp, rfl⟩ := hu
  rw [modify_bind, recordMutations, awaitModify_bind] at h
  obtain ⟨recorded, hrec, h⟩ := Option.bind_eq_some_iff.1 h
  simp only [pure_run, Option.some.injEq, Prod.mk.injEq] at h
  obtain ⟨rfl, rfl⟩ := h
  exact Or.inr ⟨rfl, not_not.1 (refuse_eq_ok.1 hp), logOnly_recordMutationsIn hrec⟩

end Dom

end Render
