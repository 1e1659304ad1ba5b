/-
The content of nodes, apart from ids and shadow roots: what two trees have in common when one is a copy of the other.

`Dom.store` reads a DOM as a store of labelled nodes; the label of a node is its kind without ids, the nodes inside a
template are the children of its contents fragment. `LaterBut T d d'` says that d' is d with nodes added, and with changed
child lists only at the nodes of T; under it the content of the nodes that were there, or of the new ones, stays.
-/
import Render.Core.Forest
import Render.Dom.Append

namespace Render

open Render.Core Render.Core.Comp

/-- a kind without the ids in it -/
def NodeKind.bare : NodeKind → NodeKind
  | .element data => .element
      { nameSpace := data.nameSpace, namePrefix := data.namePrefix, localName := data.localName,
        attributes := data.attributes }
  | .shadowRoot data => .shadowRoot { data with host := 0 }
  | other => other

theorem NodeKind.tag_bare (kind : NodeKind) : kind.bare.tag = kind.tag := by cases kind <;> rfl

namespace Dom

/-- the children of a template's contents fragment -/
def contentsOf (d : Dom) (n : NodeId) : List NodeId :=
  match d.templateContents n with
  | some f => d.childrenOf f
  | none => []

/-- a DOM as a store of labelled nodes -/
def store (d : Dom) : Store NodeId NodeKind where
  label n := (d.kindOf n).map NodeKind.bare
  inner := d.contentsOf
  children := d.childrenOf

/-- the content of the nodes is the forest -/
abbrev Reads (d : Dom) (l : List NodeId) (f : Forest NodeKind) : Prop := Core.Reads d.store l f

variable {d d' e : Dom} {l : List NodeId} {f : Forest NodeKind}

/-- the label of an HTML `template` -/
def IsTemplate : NodeKind → Prop
  | .element data => data.nameSpace = .html ∧ data.localName = "template"
  | _ => False

theorem templateContents_isSome (hd : HostInv d) (n : NodeId) :
    (d.templateContents n).isSome ↔ ∃ label, d.store.label n = some label ∧ IsTemplate label := by
  have ht := hd.templates n
  unfold reading at ht
  unfold templateContents elementOf store
  dsimp only
  cases hk : d.kindOf n with
  | none => simp
  | some kind =>
    rw [hk] at ht
    cases kind with
    | element data =>
      refine Iff.trans (show _ ↔ _ from ht) ⟨fun h => ⟨_, rfl, h⟩, ?_⟩
      rintro ⟨label, hlabel, h⟩
      obtain rfl := Option.some.inj hlabel
      exact h
    | _ => simp [NodeKind.bare, IsTemplate]

theorem tagOf_of_label {n : NodeId} {label : NodeKind} (h : d.store.label n = some label) : d.tagOf n = some label.tag := by
  obtain ⟨kind, hk, rfl⟩ := Option.map_eq_some_iff.1 h
  rw [tagOf_eq_some hk, NodeKind.tag_bare]

/-! ## Kinds of children -/

/-- the nodes of the list may be the children of a node of kind tp, in this order -/
def Fits (tp : NodeTag) (f : Forest NodeKind) : Prop :=
  (∀ label ∈ f.labels, tp.mayHold label.tag = true) ∧
    (tp = .document → f.labels.Pairwise fun a b => ¬ NodeTag.clash (some a.tag) (some b.tag))

theorem tags_of_reads (h : d.Reads l f) : l.map d.tagOf = f.labels.map fun label => some label.tag := by
  have hl : l.map d.tagOf = (l.map d.store.label).map (Option.map NodeKind.tag) := by
    rw [List.map_map]
    refine List.map_congr_left fun n _ => ?_
    unfold store tagOf
    dsimp only [Function.comp_apply]
    rw [Option.map_map]
    refine congrArg (fun g => (d.kindOf n).map g) (funext fun kind => (NodeKind.tag_bare kind).symm)
  rw [hl, h.labels, List.map_map]
  rfl

/-- the children of a node fit it -/
theorem fits_children (hd : TreeInv d) {p : NodeId} {tp : NodeTag} (hp : d.tagOf p = some tp)
    (h : d.Reads (d.childrenOf p) f) : Fits tp f := by
  have htags := tags_of_reads h
  refine ⟨fun label hmem => ?_, ?_⟩
  · have hin : some label.tag ∈ (d.childrenOf p).map d.tagOf := by
      rw [htags]
      exact List.mem_map_of_mem hmem
    obtain ⟨c, hc, htc⟩ := List.mem_map.1 hin
    obtain ⟨tc, tp', htc', htp', hm⟩ := hd.kinds c p (hd.mem_children.1 hc)
    rw [hp] at htp'
    rw [htc] at htc'
    cases htp'
    cases htc'
    exact hm
  · rintro rfl
    have hord := hd.documents p hp
    unfold DocumentOrder at hord
    rw [← List.pairwise_map (f := d.tagOf) (R := fun a b => ¬ NodeTag.clash a b), htags, List.pairwise_map] at hord
    exact hord

/-- nodes that fit a document are in the order it allows -/
theorem documentOrder_of_fits (h : d.Reads l f) (hf : Fits .document f) : d.DocumentOrder l := by
  unfold DocumentOrder
  rw [← List.pairwise_map (f := d.tagOf) (R := fun a b => ¬ NodeTag.clash a b), tags_of_reads h, List.pairwise_map]
  exact hf.2 rfl

theorem Fits.left {tp : NodeTag} {g : Forest NodeKind} (h : Fits tp (f ++ g)) : Fits tp f := by
  constructor
  · exact fun label hm => h.1 label (by rw [Forest.labels_append]; exact List.mem_append_left _ hm)
  · intro he
    have := h.2 he
    rw [Forest.labels_append] at this
    exact (List.pairwise_append.1 this).1

/-! ## Later states -/

/-- d' is d with nodes added; of the nodes of d, only those of T have other children -/
structure LaterBut (T : NodeId → Prop) (d d' : Dom) : Prop where
  length : d.nodes.length ≤ d'.nodes.length
  parent : ∀ n < d.nodes.length, d'.parent n = d.parent n
  children : ∀ n < d.nodes.length, ¬ T n → d'.childrenOf n = d.childrenOf n
  kindOf : ∀ n < d.nodes.length, d'.kindOf n = d.kindOf n
  contents : ∀ p g, d.nodes.length ≤ p → d'.templateContents p = some g → d.nodes.length ≤ g

/-- d' is d with nodes added -/
abbrev Later (d d' : Dom) : Prop := LaterBut (fun _ => False) d d'

namespace LaterBut

variable {T : NodeId → Prop}

theorem refl (T : NodeId → Prop) (d : Dom) : LaterBut T d d where
  length := le_rfl
  parent _ _ := rfl
  children _ _ _ := rfl
  kindOf _ _ := rfl
  contents _ _ hp h := absurd (templateContents_lt h) (Nat.not_lt.2 hp)

theorem templateContents (h : LaterBut T d d') {n : NodeId} (hn : n < d.nodes.length) :
    d'.templateContents n = d.templateContents n := by
  rw [templateContents_eq_reading, templateContents_eq_reading, reading, reading, h.kindOf n hn]

theorem shadowHost (h : LaterBut T d d') {n : NodeId} (hn : n < d.nodes.length) : d'.shadowHost n = d.shadowHost n := by
  rw [shadowHost_eq_links, shadowHost_eq_links, reading, reading, h.kindOf n hn]

theorem tagOf (h : LaterBut T d d') {n : NodeId} (hn : n < d.nodes.length) : d'.tagOf n = d.tagOf n := by
  unfold Dom.tagOf
  rw [h.kindOf n hn]

theorem trans {T' : NodeId → Prop} (h : LaterBut T d d') (h' : LaterBut T' d' e)
    (hT : ∀ n < d.nodes.length, T' n → T n) : LaterBut T d e where
  length := h.length.trans h'.length
  parent n hn := (h'.parent n (Nat.lt_of_lt_of_le hn h.length)).trans (h.parent n hn)
  children n hn ht := (h'.children n (Nat.lt_of_lt_of_le hn h.length) fun ht' => ht (hT n hn ht')).trans (h.children n hn ht)
  kindOf n hn := (h'.kindOf n (Nat.lt_of_lt_of_le hn h.length)).trans (h.kindOf n hn)
  contents p g hp hg := by
    by_cases hpl : p < d'.nodes.length
    · exact h.contents p g hp (by rwa [← h'.templateContents hpl])
    · exact h.length.trans (h'.contents p g (Nat.le_of_not_lt hpl) hg)

/-- writes that leave the links and the old kinds alone -/
theorem write (h : LaterBut T d d') (hl : e.links = d'.links) (hlen : d'.nodes.length ≤ e.nodes.length)
    (hk : ∀ n < d.nodes.length, e.kindOf n = d'.kindOf n)
    (hc : ∀ p g, d.nodes.length ≤ p → e.templateContents p = some g → d.nodes.length ≤ g) : LaterBut T d e where
  length := h.length.trans hlen
  parent n hn := (congrFun (congrArg Links.parent hl) n).trans (h.parent n hn)
  children n hn ht := (congrFun (congrArg Links.children hl) n).trans (h.children n hn ht)
  kindOf n hn := (hk n hn).trans (h.kindOf n hn)
  contents := hc

/-- writes that leave the links and the kinds alone -/
theorem same (h : LaterBut T d d') (hl : e.links = d'.links) (hk : e.kindOf = d'.kindOf) : LaterBut T d e := by
  refine h.write hl (HostInv.length_of_kindOf hk).ge (fun n _ => congrFun hk n) fun p g hp hg => h.contents p g hp ?_
  rwa [← (SameHosts.of_kindOf hk).contents]

/-- new nodes become children of a node in T, or of a new node -/
theorem inserted (h : LaterBut T d d') (hd : TreeInv d) {target : NodeId} {nodes : List NodeId}
    (hin : Inserted d' e target none nodes) (hnodes : ∀ c ∈ nodes, d.nodes.length ≤ c)
    (hT : target < d.nodes.length → T target) : LaterBut T d e where
  length := h.length.trans (HostInv.length_of_kindOf hin.kindOf).ge
  parent n hn := (hin.parent_out n fun hc => absurd (hnodes n hc) (Nat.not_le.2 hn)).trans (h.parent n hn)
  children n hn ht := by
    have hne : n ≠ target := fun he => ht (he ▸ hT (he ▸ hn))
    rw [hin.children_out n hne, h.children n hn ht]
    refine List.filter_eq_self.2 fun c hc => decide_eq_true fun hmem => ?_
    exact absurd (parent_lt (hd.mem_children.1 hc)) (Nat.not_lt.2 (hnodes c hmem))
  kindOf n hn := (congrFun hin.kindOf n).trans (h.kindOf n hn)
  contents p g hp hg := h.contents p g hp (by rwa [← (SameHosts.of_kindOf hin.kindOf).contents])

end LaterBut

/-! ## Regions -/

/-- nodes that hold their children and the contents of their templates -/
structure Region (d : Dom) (S : NodeId → Prop) : Prop where
  children : ∀ p c, S p → c ∈ d.childrenOf p → S c
  contents : ∀ p g, S p → d.templateContents p = some g → S g

theorem Region.closed {S : NodeId → Prop} (h : d.Region S) : d.store.Closed S := by
  rintro p hp c (hc | hc)
  · change c ∈ d.contentsOf p at hc
    unfold contentsOf at hc
    split at hc
    · rename_i g hg
      exact h.children g c (h.contents p g hp hg) hc
    · cases hc
  · exact h.children p c hp hc

/-- writes outside a region leave its content alone -/
theorem reads_region {S : NodeId → Prop} (hS : d.Region S) (hk : ∀ n, S n → d'.kindOf n = d.kindOf n)
    (hc : ∀ n, S n → d'.childrenOf n = d.childrenOf n) (hl : ∀ n ∈ l, S n) (h : d.Reads l f) : d'.Reads l f := by
  refine Core.Reads.congr hS.closed (fun n hn => ⟨?_, ?_, hc n hn⟩) hl h
  · exact congrArg (Option.map NodeKind.bare) (hk n hn)
  · show d'.contentsOf n = d.contentsOf n
    have ht : d'.templateContents n = d.templateContents n := by
      rw [templateContents_eq_reading, templateContents_eq_reading, reading, reading, hk n hn]
    unfold contentsOf
    rw [ht]
    cases hg : d.templateContents n with
    | none => rfl
    | some g => exact hc g (hS.contents n g hn hg)

theorem Region.and {S S' : NodeId → Prop} (h : d.Region S) (h' : d.Region S') : d.Region fun n => S n ∧ S' n where
  children p c hp hc := ⟨h.children p c hp.1 hc, h'.children p c hp.2 hc⟩
  contents p g hp hg := ⟨h.contents p g hp.1 hg, h'.contents p g hp.2 hg⟩

/-- the nodes of the arena -/
theorem region_lt (hd : HostInv d) : d.Region fun n => n < d.nodes.length where
  children _ _ _ hc := parent_lt (hd.tree.mem_children.1 hc)
  contents _ _ _ hg := (hd.inside_lt (Or.inr (Or.inr hg))).1

/-- the nodes inside n -/
theorem region_inside (hd : TreeInv d) (n : NodeId) : d.Region fun m => d.HostIncludes n m where
  children _ _ hp hc := Relation.ReflTransGen.head (Or.inl (hd.mem_children.1 hc)) hp
  contents _ _ hp hg := Relation.ReflTransGen.head (Or.inr (Or.inr hg)) hp

/-- adding nodes leaves the content of a region alone that none of the changed nodes is in -/
theorem LaterBut.reads {T S : NodeId → Prop} (h : LaterBut T d d') (hd : HostInv d) (hS : d.Region S)
    (hT : ∀ n, S n → ¬ T n) (hl : ∀ n ∈ l, n < d.nodes.length ∧ S n) (hr : d.Reads l f) : d'.Reads l f :=
  reads_region ((region_lt hd).and hS) (fun n hn => h.kindOf n hn.1) (fun n hn => h.children n hn.1 (hT n hn.2)) hl hr

theorem Later.reads (h : Later d d') (hd : HostInv d) (hl : ∀ n ∈ l, n < d.nodes.length) (hr : d.Reads l f) :
    d'.Reads l f :=
  LaterBut.reads h hd (region_lt hd) (fun _ _ => id) (fun n hn => ⟨hl n hn, hl n hn⟩) hr

/-- the nodes that were added -/
theorem LaterBut.region_new {T : NodeId → Prop} (h : LaterBut T d d') (hd : TreeInv d) (hd' : TreeInv d') :
    d'.Region fun n => d.nodes.length ≤ n where
  children p c hp hc := by
    refine Nat.le_of_not_lt fun hlt => ?_
    have hpar := (h.parent c hlt).symm.trans (hd'.mem_children.1 hc)
    obtain ⟨t, ht⟩ := hd.parent_tag hpar
    exact absurd (tagOf_lt ht) (Nat.not_lt.2 hp)
  contents := h.contents

/-- every node of the arena has content -/
theorem exists_reads (hd : HostInv d) (hl : ∀ n ∈ l, n < d.nodes.length) : ∃ f, d.Reads l f := by
  refine reads_exists hd.inward.transGen (region_lt hd).closed (fun p c hc => ?_) (fun n hn => ?_) hl
  · rcases hc with hc | hc
    · change c ∈ d.contentsOf p at hc
      unfold contentsOf at hc
      split at hc
      · rename_i g hg
        have hcg : d.Inside c g := Or.inl (hd.tree.mem_children.1 hc)
        exact (Relation.TransGen.single hcg).tail (Or.inr (Or.inr hg))
      · cases hc
    · exact Relation.TransGen.single (Or.inl (hd.tree.mem_children.1 hc))
  · obtain ⟨kind, hk⟩ := Option.ne_none_iff_exists'.1 fun he => Nat.not_le.2 hn (kindOf_eq_none.1 he)
    exact ⟨kind.bare, congrArg (Option.map NodeKind.bare) hk⟩

/-- a node that is inserted leaves the child lists of other nodes alone, when it had no parent -/
theorem Inserted.childrenOf_same (hd : TreeInv d) {parent : NodeId} {eff : Option NodeId} {nodes : List NodeId}
    (hin : Inserted d d' parent eff nodes) (hfree : ∀ c ∈ nodes, d.parent c = none) {q : NodeId} (hq : q ≠ parent) :
    d'.childrenOf q = d.childrenOf q := by
  rw [hin.children_out q hq]
  refine List.filter_eq_self.2 fun c hc => decide_eq_true fun hmem => ?_
  have := hd.mem_children.1 hc
  rw [hfree c hmem] at this
  cases this

end Dom

end Render
