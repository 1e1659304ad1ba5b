/-
The tree invariant of the arena: `parent` and `children` form a forest, every child is of a kind its parent may hold,
and the children of a document are in an order a document allows.

- `TreeInv d`: the invariant.
- `Grows d d'`: d' has the links of d, and every node of d keeps its kind. Most writes are of this form and keep the
  invariant (`TreeInv.grows`); the links are changed by detaching and inserting only (`Render.Dom.Insert`).

Under the invariant the bounded walks of `Render.Dom.Nodes` are the loops of the source: they have ended before their
passes run out (`mem_ancestorsInclusive`, `treeRoot_spec`, `visits_descendants`).
-/
import Render.Core.Links
import Render.Dom.Run

namespace Render

open Render.Core

/-- which case of `NodeKind` a node is -/
inductive NodeTag where
  | document
  | documentFragment
  | shadowRoot
  | documentType
  | element
  | text
  | comment
  | processingInstruction
deriving DecidableEq, Repr

def NodeKind.tag : NodeKind → NodeTag
  | .document => .document
  | .documentFragment => .documentFragment
  | .shadowRoot _ => .shadowRoot
  | .documentType _ => .documentType
  | .element _ => .element
  | .text _ => .text
  | .comment _ => .comment
  | .processingInstruction _ _ => .processingInstruction

/-- whether a node of the one kind may be the parent of a node of the other -/
def NodeTag.mayHold : NodeTag → NodeTag → Bool
  | _, .document | _, .documentFragment | _, .shadowRoot => false
  | .document, .text => false
  | .document, _ => true
  | _, .documentType => false
  | .documentFragment, _ | .shadowRoot, _ | .element, _ => true
  | _, _ => false

/-- two children of a document, the first before the second, that may not be there together -/
def NodeTag.clash : Option NodeTag → Option NodeTag → Prop
  | some .element, some .element | some .documentType, some .documentType | some .element, some .documentType => True
  | _, _ => False

namespace Dom

variable (d : Dom)

def links : Links NodeId := ⟨d.parent, d.childrenOf⟩

@[simp] theorem links_parent : d.links.parent = d.parent := rfl
@[simp] theorem links_children : d.links.children = d.childrenOf := rfl

def tagOf (n : NodeId) : Option NodeTag := (d.kindOf n).map NodeKind.tag

/-- at most one element, at most one doctype, and no doctype after the element -/
def DocumentOrder (l : List NodeId) : Prop := l.Pairwise fun a b => ¬ NodeTag.clash (d.tagOf a) (d.tagOf b)

end Dom

structure TreeInv (d : Dom) : Prop where
  forest : d.links.IsForest
  kinds : ∀ c p, d.parent c = some p → ∃ tc tp, d.tagOf c = some tc ∧ d.tagOf p = some tp ∧ tp.mayHold tc = true
  documents : ∀ p, d.tagOf p = some .document → d.DocumentOrder (d.childrenOf p)

/-- d' has the links of d, and every node of d keeps its kind -/
structure Grows (d d' : Dom) : Prop where
  links : d'.links = d.links
  tags : ∀ n t, d.tagOf n = some t → d'.tagOf n = some t

namespace Dom

variable {d d' : Dom}

/-! ## Reading after a write -/

theorem node_modifyNode (n : NodeId) (f : Node → Node) (m : NodeId) :
    (d.modifyNode n f).node m = if n = m then (d.node m).map f else d.node m := by
  unfold modifyNode node
  rw [List.getElem?_modify]
  split_ifs <;> simp

theorem parent_modifyNode (n : NodeId) (f : Node → Node) (m : NodeId) :
    (d.modifyNode n f).parent m = if n = m then (d.node m).bind fun x => (f x).parent else d.parent m := by
  unfold parent
  rw [node_modifyNode]
  split_ifs
  · cases d.node m <;> rfl
  · rfl

theorem childrenOf_modifyNode (n : NodeId) (f : Node → Node) (m : NodeId) :
    (d.modifyNode n f).childrenOf m =
      if n = m then ((d.node m).map fun x => (f x).children).getD [] else d.childrenOf m := by
  unfold childrenOf children
  rw [node_modifyNode]
  split_ifs
  · cases d.node m <;> rfl
  · rfl

theorem kindOf_modifyNode (n : NodeId) (f : Node → Node) (m : NodeId) :
    (d.modifyNode n f).kindOf m = if n = m then (d.node m).map fun x => (f x).kind else d.kindOf m := by
  unfold kindOf
  rw [node_modifyNode]
  split_ifs
  · cases d.node m <;> rfl
  · rfl

theorem links_modifyNode {n : NodeId} {f : Node → Node} (hp : ∀ x, (f x).parent = x.parent)
    (hc : ∀ x, (f x).children = x.children) : (d.modifyNode n f).links = d.links := by
  have hpar : (d.modifyNode n f).parent = d.parent := by
    funext m; rw [parent_modifyNode]; unfold parent; simp only [hp]; split_ifs <;> rfl
  have hchi : (d.modifyNode n f).childrenOf = d.childrenOf := by
    funext m; rw [childrenOf_modifyNode]; unfold childrenOf children; simp only [hc]; split_ifs <;> rfl
  unfold links
  rw [hpar, hchi]

theorem kindOf_of_modifyNode {n : NodeId} {f : Node → Node} (hk : ∀ x, (f x).kind = x.kind) :
    (d.modifyNode n f).kindOf = d.kindOf := by
  funext m; rw [kindOf_modifyNode]; unfold kindOf; simp only [hk]; split_ifs <;> rfl

theorem node_allocateIn (kind : NodeKind) (m : NodeId) : (d.allocateIn kind).node m =
    if m = d.nodes.length then
      some { id := d.nodes.length, parent := none, children := [], kind, owner := d.document }
    else d.node m := by
  unfold allocateIn node
  rcases lt_trichotomy m d.nodes.length with h | h | h
  · rw [List.getElem?_append_left h, if_neg (Nat.ne_of_lt h)]
  · subst h; simp
  · rw [List.getElem?_eq_none (by simpa using h), if_neg (Nat.ne_of_gt h), List.getElem?_eq_none (Nat.le_of_lt h)]

theorem node_length : d.node d.nodes.length = none := List.getElem?_eq_none le_rfl

theorem node_lt {n : NodeId} {x : Node} (h : d.node n = some x) : n < d.nodes.length := by
  obtain ⟨hn, -⟩ := List.getElem?_eq_some_iff.1 h
  exact hn

theorem links_allocateIn (kind : NodeKind) : (d.allocateIn kind).links = d.links := by
  have hpar : (d.allocateIn kind).parent = d.parent := by
    funext m
    unfold parent
    rw [node_allocateIn]
    split_ifs with h
    · rw [h, node_length]; rfl
    · rfl
  have hchi : (d.allocateIn kind).childrenOf = d.childrenOf := by
    funext m
    unfold childrenOf children
    rw [node_allocateIn]
    split_ifs with h
    · rw [h, node_length]; rfl
    · rfl
  unfold links
  rw [hpar, hchi]

theorem kindOf_allocateIn (kind : NodeKind) (m : NodeId) :
    (d.allocateIn kind).kindOf m = if m = d.nodes.length then some kind else d.kindOf m := by
  unfold kindOf
  rw [node_allocateIn]
  split_ifs <;> rfl

theorem parent_lt {c p : NodeId} (h : d.parent c = some p) : c < d.nodes.length := by
  unfold parent at h
  obtain ⟨x, hx, -⟩ := Option.bind_eq_some_iff.1 h
  exact node_lt hx

theorem tagOf_lt {n : NodeId} {t : NodeTag} (h : d.tagOf n = some t) : n < d.nodes.length := by
  unfold tagOf kindOf at h
  rw [Option.map_map, Option.map_eq_some_iff] at h
  obtain ⟨x, hx, -⟩ := h
  exact node_lt hx

theorem kindOf_eq_none {n : NodeId} : d.kindOf n = none ↔ d.nodes.length ≤ n := by
  unfold kindOf node
  rw [Option.map_eq_none_iff, List.getElem?_eq_none_iff]

/-- the data of an element changes, its kind does not -/
theorem tagOf_modifyElement (n : NodeId) (f : ElementData → ElementData) : (d.modifyElement n f).tagOf = d.tagOf := by
  funext m
  unfold tagOf modifyElement
  rw [kindOf_modifyNode]
  split_ifs
  · unfold kindOf
    cases d.node m with
    | none => rfl
    | some x =>
      simp only [Option.map_some]
      split <;> simp_all [NodeKind.tag]
  · rfl

theorem links_modifyElement (n : NodeId) (f : ElementData → ElementData) : (d.modifyElement n f).links = d.links := by
  unfold modifyElement
  apply links_modifyNode <;> intro x <;> split <;> rfl

theorem kindOf_setNodeDocument (n document : NodeId) : (d.setNodeDocument n document).kindOf = d.kindOf :=
  kindOf_of_modifyNode fun _ => rfl

theorem links_setNodeDocument (n document : NodeId) : (d.setNodeDocument n document).links = d.links :=
  links_modifyNode (fun _ => rfl) fun _ => rfl

theorem withData_tag (kind : NodeKind) (value : String) : (kind.withData value).tag = kind.tag := by
  cases kind <;> rfl

theorem tagOf_setDataText (n : NodeId) (value : String) : (d.setDataText n value).tagOf = d.tagOf := by
  funext m
  unfold tagOf setDataText
  rw [kindOf_modifyNode]
  split_ifs
  · unfold kindOf
    rw [Option.map_map, Option.map_map]
    cases d.node m with
    | none => rfl
    | some x => simp [withData_tag]
  · rfl

/-- what `g` reads off the kind of a node, `absent` for a node the arena does not have -/
def reading {β : Type} (g : NodeKind → β) (absent : β) (d : Dom) (n : NodeId) : β := ((d.kindOf n).map g).getD absent

section Reading

variable {β : Type} {g : NodeKind → β} {absent : β}

theorem reading_of_kindOf (h : d'.kindOf = d.kindOf) : d'.reading g absent = d.reading g absent := by
  funext n; unfold reading; rw [h]

theorem reading_of_nodes (h : d'.nodes = d.nodes) : d'.reading g absent = d.reading g absent := by
  refine reading_of_kindOf ?_
  funext n; unfold kindOf node; rw [h]

theorem reading_length : d.reading g absent d.nodes.length = absent := by
  unfold reading; rw [kindOf_eq_none.2 le_rfl]; rfl

theorem reading_new (h : g .document = absent) (n : NodeId) : Dom.new.reading g absent n = absent := by
  rcases n with _ | n
  · exact h
  · simp [reading, kindOf, node, Dom.new]

theorem reading_allocateIn {kind : NodeKind} (h : g kind = absent) :
    (d.allocateIn kind).reading g absent = d.reading g absent := by
  funext n
  unfold reading
  rw [kindOf_allocateIn]
  split_ifs with hn
  · rw [hn, kindOf_eq_none.2 le_rfl, Option.map_some, Option.getD_some, h]; rfl
  · rfl

theorem reading_modifyNode (n : NodeId) {f : Node → Node} (h : ∀ x, g (f x).kind = g x.kind) :
    (d.modifyNode n f).reading g absent = d.reading g absent := by
  funext m
  unfold reading
  rw [kindOf_modifyNode]
  split_ifs
  · unfold kindOf; cases d.node m <;> simp [h]
  · rfl

theorem reading_modifyElement (n : NodeId) {f : ElementData → ElementData}
    (h : ∀ data, g (.element (f data)) = g (.element data)) :
    (d.modifyElement n f).reading g absent = d.reading g absent := by
  refine reading_modifyNode n fun x => ?_
  cases hk : x.kind <;> simp [h, hk]

theorem reading_setDataText (n : NodeId) (value : String) (h : ∀ kind : NodeKind, g (kind.withData value) = g kind) :
    (d.setDataText n value).reading g absent = d.reading g absent :=
  reading_modifyNode n fun x => h x.kind

end Reading

/-! ## Walks -/

section Walks

variable (hends : ∀ n, Ends d.parent n)
include hends

theorem walk_passes (n : NodeId) : walk d.parent d.passes n = some (d.ancestorsInclusive n) := by
  have hS : ∀ a b, d.parent a = some b → a ∈ Finset.range d.nodes.length := fun a b h =>
    Finset.mem_range.2 (parent_lt h)
  obtain ⟨l, hl⟩ := walk_enough (Finset.range d.nodes.length) hS (hends n) (k := d.passes) (by simp [passes])
  unfold ancestorsInclusive
  rw [hl]; rfl

theorem mem_ancestorsInclusive {a n : NodeId} : a ∈ d.ancestorsInclusive n ↔ d.links.Above a n :=
  mem_walk_iff (walk_passes hends n)

theorem isInclusiveAncestor_iff {a n : NodeId} : d.isInclusiveAncestor a n = true ↔ d.links.Above a n := by
  unfold isInclusiveAncestor
  rw [List.contains_iff_mem, mem_ancestorsInclusive hends]

theorem treeRoot_spec (n : NodeId) : d.parent (d.treeRoot n) = none ∧ d.links.Above (d.treeRoot n) n := by
  have hw := walk_passes hends n
  obtain ⟨z, hz, hn⟩ := walk_last hw
  unfold treeRoot
  rw [Option.mem_def.1 hz]
  exact ⟨hn, (mem_ancestorsInclusive hends).1 (List.mem_of_getLast? hz)⟩

/-- the root is the only value without parent above a node -/
theorem eq_treeRoot {a n : NodeId} (ha : d.links.Above a n) (hp : d.parent a = none) : a = d.treeRoot n := by
  obtain ⟨hr, har⟩ := treeRoot_spec hends n
  rcases ha.comparable har with h | h
  · exact ((Up.eq_of_none h hr))
  · exact (Up.eq_of_none h hp).symm

theorem treeRoot_eq_of_above {a n : NodeId} (ha : d.links.Above a n) : d.treeRoot a = d.treeRoot n := by
  obtain ⟨hr, har⟩ := treeRoot_spec hends a
  exact eq_treeRoot hends (har.trans ha) hr

theorem treeRoot_of_none {n : NodeId} (h : d.parent n = none) : d.treeRoot n = n :=
  (eq_treeRoot hends (Links.Above.refl n) h).symm

theorem treeRoot_of_parent {c p : NodeId} (h : d.parent c = some p) : d.treeRoot c = d.treeRoot p :=
  (treeRoot_eq_of_above hends (Links.Above.of_parent h)).symm

end Walks

end Dom

/-! ## The invariant under writes that leave the links alone -/

theorem Grows.of_nodes {d d' : Dom} (h : d'.nodes = d.nodes) : Grows d d' := by
  have hn : d'.node = d.node := by funext m; unfold Dom.node; rw [h]
  constructor
  · unfold Dom.links Dom.parent Dom.childrenOf Dom.children; rw [hn]
  · intro n t ht; unfold Dom.tagOf Dom.kindOf at *; rw [hn]; exact ht

theorem Grows.of_tags {d d' : Dom} (hl : d'.links = d.links) (ht : d'.tagOf = d.tagOf) : Grows d d' :=
  ⟨hl, fun n t h => by rw [ht]; exact h⟩

theorem Grows.allocateIn (d : Dom) (kind : NodeKind) : Grows d (d.allocateIn kind) where
  links := Dom.links_allocateIn kind
  tags n t h := by
    have hn := Dom.tagOf_lt h
    unfold Dom.tagOf at *
    rw [Dom.kindOf_allocateIn, if_neg (Nat.ne_of_lt hn)]
    exact h

theorem Grows.modifyElement (d : Dom) (n : NodeId) (f : ElementData → ElementData) : Grows d (d.modifyElement n f) :=
  Grows.of_tags (Dom.links_modifyElement n f) (Dom.tagOf_modifyElement n f)

theorem Grows.setNodeDocument (d : Dom) (n document : NodeId) : Grows d (d.setNodeDocument n document) := by
  refine Grows.of_tags (Dom.links_setNodeDocument n document) ?_
  funext m
  unfold Dom.tagOf
  rw [Dom.kindOf_setNodeDocument]

theorem Grows.setDataText (d : Dom) (n : NodeId) (value : String) : Grows d (d.setDataText n value) :=
  Grows.of_tags (Dom.links_modifyNode (fun _ => rfl) fun _ => rfl) (Dom.tagOf_setDataText n value)

namespace TreeInv

variable {d d' : Dom}

theorem ends (h : TreeInv d) : ∀ n, Ends d.parent n := h.forest.ends

theorem mem_children (h : TreeInv d) {p c : NodeId} : c ∈ d.childrenOf p ↔ d.parent c = some p := h.forest.link p c

theorem parent_tag (h : TreeInv d) {c p : NodeId} (hp : d.parent c = some p) : ∃ t, d.tagOf p = some t := by
  obtain ⟨_, tp, _, htp, _⟩ := h.kinds c p hp
  exact ⟨tp, htp⟩

/-- a node that is not in the arena has no children -/
theorem childrenOf_eq_nil (h : TreeInv d) {p : NodeId} (hp : d.tagOf p = none) : d.childrenOf p = [] := by
  by_contra hne
  obtain ⟨c, hc⟩ := List.exists_mem_of_ne_nil _ hne
  obtain ⟨t, ht⟩ := h.parent_tag (h.mem_children.1 hc)
  rw [hp] at ht; cases ht

theorem child_tag (h : TreeInv d) {p c : NodeId} (hc : c ∈ d.childrenOf p) : ∃ t, d.tagOf c = some t := by
  obtain ⟨tc, _, htc, _⟩ := h.kinds c p (h.mem_children.1 hc)
  exact ⟨tc, htc⟩

theorem grows (h : TreeInv d) (hg : Grows d d') : TreeInv d' where
  forest := hg.links ▸ h.forest
  kinds c p hp := by
    have hp' : d.parent c = some p := by rw [← show d'.parent = d.parent from congrArg Links.parent hg.links]; exact hp
    obtain ⟨tc, tp, htc, htp, hm⟩ := h.kinds c p hp'
    exact ⟨tc, tp, hg.tags c tc htc, hg.tags p tp htp, hm⟩
  documents p hp := by
    have hl : d'.childrenOf = d.childrenOf := congrArg Links.children hg.links
    rw [hl]
    cases hdp : d.tagOf p with
    | none => rw [h.childrenOf_eq_nil hdp]; exact List.Pairwise.nil
    | some t =>
      obtain rfl : t = .document := Option.some.inj ((hg.tags p t hdp).symm.trans hp)
      refine (h.documents p hdp).imp_of_mem fun {a b} ha hb hab => ?_
      obtain ⟨ta, hta⟩ := h.child_tag ha
      obtain ⟨tb, htb⟩ := h.child_tag hb
      rw [hta, htb] at hab
      rwa [hg.tags a ta hta, hg.tags b tb htb]

end TreeInv

/-! ## Walks down -/

namespace TreeInv

variable {d : Dom} (h : TreeInv d)
include h

theorem apart_children (n : NodeId) : Apart d.parent (d.childrenOf n) := by
  refine (h.forest.nodup n).imp_of_mem fun {a b} ha hb hab => ⟨fun hu => ?_, fun hu => ?_⟩
  · exact hab (h.forest.siblings_apart (h.mem_children.1 hb) (h.mem_children.1 ha) hu).symm
  · exact hab (h.forest.siblings_apart (h.mem_children.1 ha) (h.mem_children.1 hb) hu)

theorem visits_descendants (n : NodeId) : Visits d.childrenOf (d.childrenOf n) (d.descendants n) := by
  have hS : ∀ a b, d.parent a = some b → a ∈ Finset.range d.nodes.length := fun a b hab =>
    Finset.mem_range.2 (Dom.parent_lt hab)
  obtain ⟨l, hl, hv⟩ := dfs_enough (fun a b => (h.mem_children (p := a) (c := b)).1) h.forest.nodup h.ends _ hS
    (h.apart_children n) (fun a ha => hS a n (h.mem_children.1 ha)) (k := d.passes) (by simp [Dom.passes])
  unfold Dom.descendants
  rw [hl]; exact hv

theorem visits_descendantsInclusive (n : NodeId) : Visits d.childrenOf [n] (d.descendantsInclusive n) := by
  have hS : ∀ a b, d.parent a = some b → a ∈ insert n (Finset.range d.nodes.length) := fun a b hab =>
    Finset.mem_insert_of_mem (Finset.mem_range.2 (Dom.parent_lt hab))
  obtain ⟨l, hl, hv⟩ := dfs_enough (fun a b => (h.mem_children (p := a) (c := b)).1) h.forest.nodup h.ends _ hS
    (List.pairwise_singleton _ n) (fun a ha => by rw [List.mem_singleton.1 ha]; exact Finset.mem_insert_self _ _)
    (k := d.passes) ((Finset.card_insert_le _ _).trans (by simp [Dom.passes]))
  unfold Dom.descendantsInclusive
  rw [hl]; exact hv

theorem nodup_descendants (n : NodeId) : (d.descendants n).Nodup :=
  (h.visits_descendants n).nodup (fun _ _ => h.mem_children.1) h.forest.nodup h.ends (h.apart_children n)

theorem mem_descendants {n x : NodeId} : x ∈ d.descendants n ↔ ∃ c ∈ d.childrenOf n, d.links.Above c x :=
  (h.visits_descendants n).mem_iff (fun _ _ => h.mem_children) x

theorem mem_descendantsInclusive {n x : NodeId} : x ∈ d.descendantsInclusive n ↔ d.links.Above n x := by
  rw [(h.visits_descendantsInclusive n).mem_iff (fun _ _ => h.mem_children) x]
  simp only [List.mem_singleton, exists_eq_left]
  rfl

theorem above_of_mem_descendants {n x : NodeId} (hx : x ∈ d.descendants n) : d.links.Above n x := by
  obtain ⟨c, hc, hcx⟩ := h.mem_descendants.1 hx
  exact hcx.parent_left (h.mem_children.1 hc)

end TreeInv

theorem treeInv_new : TreeInv Dom.new where
  forest := by
    have hp : ∀ n, Dom.new.parent n = none := by
      intro n
      rcases n with _ | n
      · rfl
      · simp [Dom.parent, Dom.node, Dom.new]
    have hc : ∀ n, Dom.new.childrenOf n = [] := by
      intro n
      rcases n with _ | n
      · rfl
      · simp [Dom.childrenOf, Dom.children, Dom.node, Dom.new]
    exact
      { link := fun p c => by simp [Dom.links, hp, hc]
        nodup := fun p => by simp [Dom.links, hc]
        ends := fun a => Ends.stop (hp a) }
  kinds c p hp := by
    rcases c with _ | c
    · cases hp
    · simp [Dom.parent, Dom.node, Dom.new] at hp
  documents p _ := by
    have hc : Dom.new.childrenOf p = [] := by
      rcases p with _ | p
      · rfl
      · simp [Dom.childrenOf, Dom.children, Dom.node, Dom.new]
    rw [hc]; exact List.Pairwise.nil

end Render
