/-
Clones (`render-dom/src/clone.rs`): `clone_node` returns, and the copy has the content of its source.

One node is copied by adding nodes that are linked to none (`Copied`). The recursion then fills the contents of the copy
and the copy itself, one child after the other (`Filled`); it goes inward in the host-including tree of the DOM it was
called on, which bounds its depth.
-/
import Render.Dom.Content

namespace Render

open Render.Core Render.Core.Comp

namespace Dom

variable {d d' e : Dom}

theorem HostInv.same (h : HostInv d) (hl : d'.links = d.links) (hk : d'.kindOf = d.kindOf) : HostInv d' := by
  refine h.kindOf_same (h.tree.grows (Grows.of_tags hl (tagOf_of_kindOf hk))) (fun c p hp => ?_) hk
  rwa [show d'.parent = d.parent from congrArg Links.parent hl] at hp

theorem parent_of_le {n : NodeId} (h : d.nodes.length ≤ n) : d.parent n = none := by
  by_contra hne
  obtain ⟨p, hp⟩ := Option.ne_none_iff_exists'.1 hne
  exact absurd (parent_lt hp) (Nat.not_lt.2 h)

theorem childrenOf_of_le (hd : TreeInv d) {n : NodeId} (h : d.nodes.length ≤ n) : d.childrenOf n = [] :=
  hd.childrenOf_eq_nil (by unfold tagOf; rw [kindOf_eq_none.2 h]; rfl)

theorem nodeId_lt_of_kindOf {n : NodeId} {kind : NodeKind} (h : d.kindOf n = some kind) : n < d.nodes.length :=
  tagOf_lt (tagOf_eq_some h)

/-- what lies inside an old node is old -/
theorem LaterBut.hostIncludes_lt {T : NodeId → Prop} (h : LaterBut T d d') (hd : HostInv d) {a n : NodeId}
    (hn : n < d.nodes.length) (ha : d'.HostIncludes a n) : a < d.nodes.length := by
  induction ha with
  | refl => exact hn
  | tail _ hi ih =>
    rcases hi with hi | hi | hi
    · exact (hd.inside_lt (Or.inl ((h.parent _ ih).symm.trans hi))).2
    · exact (hd.inside_lt (Or.inr (Or.inl ((h.shadowHost ih).symm.trans hi)))).2
    · by_contra hlt
      exact absurd ih (Nat.not_lt.2 (h.contents _ _ (Nat.le_of_not_lt hlt) hi))

/-! ## One node -/

/-- d' is d with new nodes that are linked to none, and one of them, the copy, has the label -/
structure Copied (d d' : Dom) (label : NodeKind) (copy : NodeId) : Prop where
  host : HostInv d'
  links : d'.links = d.links
  later : Later d d'
  new : d.nodes.length ≤ copy
  label : d'.store.label copy = some label

theorem label_allocateIn (d : Dom) (kind : NodeKind) : (d.allocateIn kind).store.label d.nodes.length = some kind.bare := by
  show ((d.allocateIn kind).kindOf d.nodes.length).map NodeKind.bare = _
  rw [kindOf_allocateIn, if_pos rfl]; rfl

theorem LaterBut.allocate {T : NodeId → Prop} (h : LaterBut T d e) {kind : NodeKind}
    (hc : ∀ g, kindContents kind = some g → d.nodes.length ≤ g) : LaterBut T d (e.allocateIn kind) := by
  refine h.write (links_allocateIn kind) (by rw [HostInv.length_allocateIn]; exact Nat.le_succ _) (fun n hn => ?_)
    fun p g hp hg => ?_
  · rw [kindOf_allocateIn, if_neg (Nat.ne_of_lt (Nat.lt_of_lt_of_le hn h.length))]
  · rw [templateContents_eq_reading, reading, kindOf_allocateIn] at hg
    split_ifs at hg with hpe
    · exact hc g hg
    · exact h.contents p g hp (by rw [templateContents_eq_reading]; exact hg)

namespace Copied

variable {label : NodeKind} {copy : NodeId}

theorem lt (h : Copied d d' label copy) : copy < d'.nodes.length := tagOf_lt (tagOf_of_label h.label)

theorem same (h : Copied d d' label copy) (hl : e.links = d'.links) (hk : e.kindOf = d'.kindOf) :
    Copied d e label copy where
  host := h.host.same hl hk
  links := hl.trans h.links
  later := h.later.same hl hk
  new := h.new
  label := (congrArg (Option.map NodeKind.bare) (congrFun hk copy)).trans h.label

theorem childrenOf_new (h : Copied d d' label copy) (hd : TreeInv d) {n : NodeId} (hn : d.nodes.length ≤ n) :
    d'.childrenOf n = [] :=
  (congrFun (congrArg Links.children h.links) n).trans (childrenOf_of_le hd hn)

theorem parent (h : Copied d d' label copy) : d'.parent copy = none :=
  (congrFun (congrArg Links.parent h.links) copy).trans (parent_of_le h.new)

end Copied

theorem copied_plain (h : HostInv d) {kind : NodeKind} (hk : kind.isPlain) :
    Copied d (d.allocateIn kind) kind.bare d.nodes.length where
  host := h.allocate_plain hk
  links := links_allocateIn kind
  later := (LaterBut.refl _ d).allocate fun g hg => by
    cases kind <;> simp_all [NodeKind.isPlain, NodeKind.tag, kindContents]
  new := le_rfl
  label := label_allocateIn d kind

/-- an element without attributes -/
def bareElement (nameSpace : Namespace) (namePrefix : Option String) (localName : String) : ElementData :=
  { nameSpace, namePrefix, localName }

theorem createElementQualified_total (h : HostInv d) (nameSpace : Namespace) (namePrefix : Option String)
    (localName : String) : ∃ copy d', createElementQualified nameSpace namePrefix localName d = some (.ok copy, d') ∧
      Copied d d' (.element (bareElement nameSpace namePrefix localName)) copy := by
  unfold createElementQualified newElementData
  by_cases ht : nameSpace = .html ∧ localName = "template"
  · rw [if_pos ht]
    -- the contents fragment comes first
    have hfrag := h.allocate_plain (show NodeKind.documentFragment.isPlain from ⟨by decide, by decide⟩)
    have hlater : Later d (d.allocateIn .documentFragment) := (LaterBut.refl _ d).allocate nofun
    refine ⟨_, _, rfl, hfrag.allocate_element rfl (fun g hg => ?_) ⟨fun _ => ht, fun _ => rfl⟩,
      (links_allocateIn _).trans (links_allocateIn _), hlater.allocate fun g hg => ?_, hlater.length,
      label_allocateIn _ _⟩
    · obtain rfl := Option.some.inj hg
      unfold tagOf
      rw [kindOf_allocateIn, if_pos rfl]; rfl
    · obtain rfl := Option.some.inj hg
      exact le_rfl
  · rw [if_neg ht]
    exact ⟨_, _, rfl, h.allocate_element rfl nofun ⟨nofun, fun hc => absurd hc ht⟩, links_allocateIn _,
      (LaterBut.refl _ d).allocate nofun, le_rfl, label_allocateIn d _⟩

/-- a write to the attributes of an element -/
theorem HostInv.writeAttributes (h : HostInv d) (n : NodeId) (attributes : List Attribute) :
    HostInv (d.modifyElement n fun data => { data with attributes }) := by
  have hl : (d.modifyElement n _).reading kindLinks (none, none) = _ := reading_modifyElement n
    (f := fun data => { data with attributes }) fun _ => rfl
  refine h.shrink (h.tree.grows (Grows.modifyElement d n _)) (h.shadow.same hl) (fun c p hp => ?_)
    (SameHosts.of_readings (Grows.modifyElement d n _).tags hl (reading_modifyElement n fun _ => rfl)
      (reading_modifyElement n fun _ => rfl))
  rwa [show (d.modifyElement n _).parent = d.parent from congrArg Links.parent (links_modifyElement n _)] at hp

theorem Copied.writeAttributes {nameSpace : Namespace} {namePrefix : Option String} {localName : String} {copy : NodeId}
    (attributes : List Attribute) (h : Copied d d' (.element (bareElement nameSpace namePrefix localName)) copy) :
    Copied d (d'.modifyElement copy fun data => { data with attributes })
      (.element { nameSpace, namePrefix, localName, attributes }) copy where
  host := h.host.writeAttributes copy attributes
  links := (links_modifyElement copy _).trans h.links
  later := by
    refine h.later.write (links_modifyElement copy _) (by simp [modifyElement, modifyNode]) (fun n hn => ?_)
      fun p g hp hg => h.later.contents p g hp ?_
    · unfold modifyElement
      rw [kindOf_modifyNode, if_neg fun he : copy = n => Nat.not_lt.2 h.new (he ▸ hn)]
    · rw [templateContents_eq_reading] at hg ⊢
      rwa [reading_modifyElement copy (f := fun data => { data with attributes }) fun _ => rfl] at hg
  new := h.new
  label := by
    obtain ⟨kind, hk, hbare⟩ := Option.map_eq_some_iff.1 h.label
    show Option.map NodeKind.bare ((d'.modifyElement copy _).kindOf copy) = _
    unfold modifyElement
    rw [kindOf_modifyNode, if_pos rfl]
    unfold kindOf at hk
    obtain ⟨x, hx, rfl⟩ := Option.map_eq_some_iff.1 hk
    rw [hx, Option.map_some, Option.map_some]
    cases hkind : x.kind <;> rw [hkind] at hbare <;> simp_all [NodeKind.bare, bareElement]

theorem cloneKind_total (h : HostInv d) (n : NodeId) {source : NodeKind} (hs : source.tag ≠ .shadowRoot) :
    ∃ copy d', cloneKind n source d = some (.ok copy, d') ∧ Copied d d' source.bare copy := by
  have hplain : ∀ kind : NodeKind, kind.isPlain →
      ∃ copy d', allocate kind d = some (.ok copy, d') ∧ Copied d d' kind.bare copy := fun kind hk =>
    ⟨_, _, rfl, copied_plain h hk⟩
  cases source with
  | document =>
    have hc := copied_plain h (show NodeKind.document.isPlain from ⟨by decide, by decide⟩)
    exact ⟨_, _, rfl, hc.same (links_setNodeDocument _ _) (kindOf_setNodeDocument _ _)⟩
  | shadowRoot data => exact absurd rfl hs
  | documentType data => exact hplain _ ⟨nofun, nofun⟩
  | documentFragment => exact hplain _ ⟨nofun, nofun⟩
  | text data => exact hplain _ ⟨nofun, nofun⟩
  | comment data => exact hplain _ ⟨nofun, nofun⟩
  | processingInstruction target data => exact hplain _ ⟨nofun, nofun⟩
  | element data =>
    obtain ⟨copy, d', hrun, hc⟩ := createElementQualified_total h data.nameSpace data.namePrefix data.localName
    exact ⟨copy, _, (bind_run_ok hrun).trans rfl, (hc.writeAttributes data.attributes).same rfl rfl⟩

/-- **A copy of one node.** -/
theorem cloneOne_total (h : HostInv d) {n : NodeId} {source : NodeKind} (hk : d.kindOf n = some source)
    (hs : source.tag ≠ .shadowRoot) :
    ∃ copy d', cloneOne n d = some (.ok copy, d') ∧ Copied d d' source.bare copy := by
  obtain ⟨copy, e, hrun, hc⟩ := cloneKind_total h n hs
  unfold cloneOne
  rw [bind_run_ok (by rw [check_run, kind_eq_ok.2 hk]), bind_run_ok hrun, modify_bind]
  refine ⟨copy, _, rfl, ?_⟩
  split_ifs
  · exact hc.same (links_setNodeDocument _ _) (kindOf_setNodeDocument _ _)
  · exact hc

/-! ## Filling a copy -/

/-- a new node with content f and no parent -/
structure Detached (d d' : Dom) (copy : NodeId) (f : Forest NodeKind) : Prop where
  host : HostInv d'
  later : Later d d'
  new : d.nodes.length ≤ copy
  parent : d'.parent copy = none
  reads : d'.Reads [copy] f

/-- d is d₁ with nodes added, and with the nodes of `filled` as the children of target -/
structure Filled (d₁ d : Dom) (target : NodeId) (filled : List NodeId) (f : Forest NodeKind) : Prop where
  host : HostInv d
  later : LaterBut (· = target) d₁ d
  children : d.childrenOf target = filled
  new : ∀ c ∈ filled, d₁.nodes.length ≤ c
  reads : d.Reads filled f

namespace Filled

variable {d₁ : Dom} {target : NodeId} {filled : List NodeId} {f t : Forest NodeKind} {tp : NodeTag}

theorem nil (h : HostInv d) (hc : d.childrenOf target = []) : Filled d d target [] .nil where
  host := h
  later := LaterBut.refl _ d
  children := hc
  new := nofun
  reads := Core.Reads.nil

/-- nodes are added elsewhere -/
theorem mono (h : Filled d₁ d target filled f) (htarget : target < d₁.nodes.length) (hd' : HostInv d') (hl : Later d d') :
    Filled d₁ d' target filled f where
  host := hd'
  later := h.later.trans hl fun _ _ => False.elim
  children := (hl.children target (Nat.lt_of_lt_of_le htarget h.later.length) id).trans h.children
  new := h.new
  reads := by
    refine hl.reads h.host (fun c hc => ?_) h.reads
    rw [← h.children] at hc
    exact parent_lt (h.host.tree.mem_children.1 hc)

/-- **One more child.** A new node is appended. -/
theorem append (hd₁ : HostInv d₁) (htarget : target < d₁.nodes.length) (htp : d₁.tagOf target = some tp)
    (hparent : tp.mayBeParent = true) (h : Filled d₁ d target filled f) {c : NodeId} (hc : Detached d d' c t)
    (hfits : Fits tp (f ++ t)) :
    ∃ e, appendChild target c d' = some (.ok c, e) ∧ Filled d₁ e target (filled ++ [c]) (f ++ t) := by
  have h' := h.mono htarget hc.host hc.later
  have htarget' : target < d.nodes.length := Nat.lt_of_lt_of_le htarget h.later.length
  have hnew : d₁.nodes.length ≤ c := h.later.length.trans hc.new
  obtain ⟨label, inner, children, rest, rfl, hlabel, -⟩ := reads_cons.1 hc.reads
  have htc := tagOf_of_label hlabel
  have hm : tp.mayHold label.tag = true :=
    hfits.1 label (by rw [Forest.labels_append, Forest.labels]; exact List.mem_append_right _ List.mem_cons_self)
  have hfree : ∀ x ∈ [c], d'.parent x = none := fun x hx => by rw [List.mem_singleton.1 hx]; exact hc.parent
  have hins : d'.insertionNodes c = [c] := by
    refine if_neg fun he => ?_
    rw [htc, Option.some.injEq] at he
    rw [he] at hm
    cases tp <;> cases hm
  have hreads : d'.Reads (filled ++ [c]) (f ++ .cons label inner children rest) := h'.reads.append hc.reads
  have hcand : candidateChildren (d'.childrenOf target) [c] none = filled ++ [c] := by
    rw [candidateChildren_none, h'.children]
    refine congrArg (· ++ [c]) (List.filter_eq_self.2 fun x hx => ?_)
    have hpar := h'.host.tree.mem_children.1 (h'.children.symm ▸ hx)
    have hne : x ≠ c := by
      rintro rfl
      rw [hc.parent] at hpar
      cases hpar
    simpa using hne
  obtain ⟨e, hrun, he, hcase⟩ := hc.host.appendChild_total
    ((h'.later.tagOf htarget).trans htp) hparent ⟨_, htc⟩
    (fun ha => Nat.not_lt.2 hc.new (hc.later.hostIncludes_lt h.host htarget' ha))
    (fun x hx => by rw [hins, List.mem_singleton] at hx; exact hx ▸ ⟨_, htc, hm⟩)
    (fun hdoc => by rw [hins, hcand]; exact documentOrder_of_fits hreads (hdoc ▸ hfits))
  rw [hins] at hcase
  rcases hcase with ⟨hnil, -⟩ | ⟨-, i, adopted, hinsert⟩
  · cases hnil
  have hin := hinsert.inserted hc.host.tree
  rw [hins] at hin
  refine ⟨e, hrun, he, ?_, hin.children_at.trans hcand, ?_, ?_⟩
  · exact h'.later.inserted hd₁.tree hin (fun x hx => by rw [List.mem_singleton.1 hx]; exact hnew) fun _ => rfl
  · intro x hx
    rcases List.mem_append.1 hx with hx | hx
    · exact h.new x hx
    · rw [List.mem_singleton.1 hx]; exact hnew
  · refine reads_region (h'.later.region_new hd₁.tree hc.host.tree) (fun n _ => congrFun hin.kindOf n)
      (fun n hn => hin.childrenOf_same hc.host.tree hfree fun he => ?_) (fun x hx => ?_) hreads
    · exact Nat.not_lt.2 hn (he ▸ htarget)
    · rcases List.mem_append.1 hx with hx | hx
      · exact h.new x hx
      · rw [List.mem_singleton.1 hx]; exact hnew

end Filled

/-- on every state after d₀, `clone` makes a copy of n with the content n has in d₀ -/
def Clones (d₀ : Dom) (clone : NodeId → Bool → DomM NodeId) (n : NodeId) : Prop :=
  ∀ d t, HostInv d → Later d₀ d → d₀.Reads [n] t → ∃ copy d', clone n true d = some (.ok copy, d') ∧ Detached d d' copy t

/-- **The loop over the children of a source** fills the target with copies of them. -/
theorem forEach_cloneInto {d₀ d₁ : Dom} {clone : NodeId → Bool → DomM NodeId} {target : NodeId} {tp : NodeTag}
    {l : List NodeId} (hl : ∀ c ∈ l, Clones d₀ clone c) (hd₁ : HostInv d₁) (hlater : Later d₀ d₁)
    (htarget : target < d₁.nodes.length) (hnew : d₀.nodes.length ≤ target) (htp : d₁.tagOf target = some tp)
    (hparent : l ≠ [] → tp.mayBeParent = true) {filled : List NodeId} {f g : Forest NodeKind}
    (h : Filled d₁ d target filled f) (hreads : d₀.Reads l g) (hfits : Fits tp (f ++ g)) :
    ∃ filled' d', forEach (cloneInto clone target) l d = some (.ok (), d') ∧ Filled d₁ d' target filled' (f ++ g) := by
  induction l generalizing d filled f g with
  | nil =>
    obtain rfl := reads_nil.1 hreads
    rw [Forest.append_nil]
    exact ⟨filled, d, rfl, h⟩
  | cons c l ih =>
    obtain ⟨t, g, rfl, ht, hg⟩ := Core.Reads.split (l := [c]) hreads
    rw [← Forest.append_assoc] at hfits ⊢
    have hd : Later d₀ d := hlater.trans h.later fun n hn he => Nat.not_lt.2 hnew (he ▸ hn)
    obtain ⟨copy, e, hrun, hcopy⟩ := hl c List.mem_cons_self d t h.host hd ht
    have hparent := hparent (List.cons_ne_nil c l)
    obtain ⟨u, happ, hu⟩ := h.append hd₁ htarget htp hparent hcopy hfits.left
    obtain ⟨filled', d', hrest, hd'⟩ :=
      ih (fun c hc => hl c (List.mem_cons_of_mem _ hc)) (fun _ => hparent) hu hg hfits
    refine ⟨filled', d', ?_, hd'⟩
    have hone : cloneInto clone target c d = some (.ok (), u) := by
      unfold cloneInto
      rw [bind_run_ok hrun, bind_run_ok happ]; rfl
    unfold forEach
    rw [bind_run_ok hone, hrest]

/-! ## Deep copies -/

/-- the number of nodes inside n bounds the recursion on n -/
noncomputable def depth (d : Dom) (n : NodeId) : ℕ := insideCount (Finset.range d.nodes.length) d.Inside n

theorem depth_lt (h : HostInv d) {c p : NodeId} (hi : d.Inside c p) : d.depth c < d.depth p :=
  insideCount_lt _ h.inward hi (Finset.mem_range.2 (h.inside_lt hi).1)

theorem depth_lt_passes (d : Dom) (n : NodeId) : d.depth n < d.passes :=
  Nat.lt_succ_of_le ((insideCount_le _ _ _).trans (Finset.card_range _).le)

/-- a child is no shadow root -/
theorem tag_of_child (hd : TreeInv d) {c p : NodeId} (hp : d.parent c = some p) : d.tagOf c ≠ some .shadowRoot := by
  obtain ⟨tc, tp, htc, -, hm⟩ := hd.kinds c p hp
  rw [htc]
  rintro ⟨⟩
  cases tp <;> cases hm

/-- the node that holds children may be a parent -/
theorem mayBeParent_of_child (hd : TreeInv d) {c p : NodeId} {tp : NodeTag} (hp : d.parent c = some p)
    (htp : d.tagOf p = some tp) : tp.mayBeParent = true := by
  obtain ⟨tc, tp', -, htp', hm⟩ := hd.kinds c p hp
  obtain rfl := Option.some.inj (htp.symm.trans htp')
  cases tp <;> first | rfl | (cases tc <;> cases hm)

/-- the contents of the source are copied into the contents of the copy -/
theorem fillContents {d₀ d₁ : Dom} (hd₀ : HostInv d₀) (hd₁ : HostInv d₁) (hlater : Later d₀ d₁) {n copy : NodeId}
    {clone : NodeId → Bool → DomM NodeId} (hn : n < d₀.nodes.length) (hnew : d₀.nodes.length ≤ copy)
    (hlabel : d₁.store.label copy = d₀.store.label n)
    (hempty : ∀ g, d₁.templateContents copy = some g → d₁.childrenOf g = [])
    (hclone : ∀ g c, d₀.templateContents n = some g → d₀.parent c = some g → Clones d₀ clone c)
    {inner : Forest NodeKind} (hreads : d₀.Reads (d₀.contentsOf n) inner) :
    ∃ d₂, whenSome (d₁.cloneTargets n copy) (fun targets =>
        forEach (cloneInto clone targets.2) (d₁.childrenOf targets.1)) d₁ = some (.ok (), d₂) ∧
      HostInv d₂ ∧ LaterBut (fun m => d₁.templateContents copy = some m) d₁ d₂ ∧ d₂.Reads (d₂.contentsOf copy) inner := by
  have hboth : (d₁.templateContents copy).isSome ↔ (d₀.templateContents n).isSome := by
    rw [templateContents_isSome hd₁, templateContents_isSome hd₀, hlabel]
  unfold cloneTargets
  rw [hlater.templateContents hn]
  unfold contentsOf at hreads
  cases hg : d₀.templateContents n with
  | none =>
    rw [hg] at hreads hboth
    have hnone : d₁.templateContents copy = none := by simpa using hboth
    obtain rfl := reads_nil.1 hreads
    refine ⟨d₁, rfl, hd₁, LaterBut.refl _ d₁, ?_⟩
    unfold contentsOf
    rw [hnone]
    exact Core.Reads.nil
  | some g =>
    rw [hg] at hreads hboth
    obtain ⟨g', hg'⟩ := Option.isSome_iff_exists.1 (hboth.2 rfl)
    rw [hg']
    have hcopy : copy < d₁.nodes.length := templateContents_lt hg'
    have hchildren : d₁.childrenOf g = d₀.childrenOf g := hlater.children g (tagOf_lt (hd₀.contents n g hg)) id
    show ∃ d₂, forEach (cloneInto clone g') (d₁.childrenOf g) d₁ = _ ∧ _
    rw [hchildren]
    obtain ⟨filled, d₂, hrun, hf⟩ := forEach_cloneInto (fun c hc => hclone g c hg (hd₀.tree.mem_children.1 hc)) hd₁ hlater
      (tagOf_lt (hd₁.contents copy g' hg')) (hlater.contents copy g' hnew hg') (hd₁.contents copy g' hg') (fun _ => rfl)
      (Filled.nil hd₁ (hempty g' hg')) hreads (fits_children hd₀.tree (hd₀.contents n g hg) hreads)
    refine ⟨d₂, hrun, hf.host, ?_, ?_⟩
    · exact (LaterBut.refl (fun m => some g' = some m) d₁).trans hf.later fun m _ he => congrArg some he.symm
    · unfold contentsOf
      rw [hf.later.templateContents hcopy, hg']
      dsimp only
      rw [hf.children]
      exact hf.reads

/-- new children of a node leave its contents alone -/
theorem LaterBut.reads_contents {copy : NodeId} (h : LaterBut (· = copy) d d') (hd : HostInv d)
    (hcopy : copy < d.nodes.length) {inner : Forest NodeKind} (hr : d.Reads (d.contentsOf copy) inner) :
    d'.Reads (d'.contentsOf copy) inner := by
  unfold contentsOf at hr ⊢
  rw [h.templateContents hcopy]
  cases hg : d.templateContents copy with
  | none =>
    rw [hg] at hr
    obtain rfl := reads_nil.1 hr
    exact Core.Reads.nil
  | some g =>
    rw [hg] at hr
    have hin : d.Inside g copy := Or.inr (Or.inr hg)
    have hnot : ∀ m, d.HostIncludes g m → m ≠ copy := fun m hm he => hd.not_hostIncludes hin (he ▸ hm)
    dsimp only at hr ⊢
    rw [h.children g (hd.inside_lt hin).1 (hnot g Relation.ReflTransGen.refl)]
    refine h.reads hd (region_inside hd.tree g) hnot (fun c hc => ?_) hr
    have hpar := hd.tree.mem_children.1 hc
    exact ⟨parent_lt hpar, Relation.ReflTransGen.single (Or.inl hpar)⟩

/-- **The recursion of `clone_node`** returns when its levels reach the nodes inside the source, and copies it. -/
theorem cloneNodeFrom_total {d₀ : Dom} (hd₀ : HostInv d₀) (k : ℕ) : ∀ n < d₀.nodes.length,
    d₀.tagOf n ≠ some .shadowRoot → d₀.depth n < k → Clones d₀ (cloneNodeFrom k) n := by
  induction k with
  | zero => exact fun _ _ _ hdepth => absurd hdepth (Nat.not_lt_zero _)
  | succ k ih =>
    intro n hn htag hdepth d t hd hlater hreads
    obtain ⟨label, inner, children, rest, rfl, hlabel, hinner, hchildren, hrest⟩ := reads_cons.1 hreads
    obtain rfl := reads_nil.1 hrest
    obtain ⟨source, hk, hbare⟩ := Option.map_eq_some_iff.1 hlabel
    -- the nodes inside n are copied by the levels below
    have hinside : ∀ c, d₀.Inside c n → d₀.tagOf c ≠ some .shadowRoot → Clones d₀ (cloneNodeFrom k) c := fun c hc ht =>
      ih c (hd₀.inside_lt hc).1 ht (Nat.lt_of_lt_of_le (depth_lt hd₀ hc) (Nat.lt_succ_iff.1 hdepth))
    have hcontents : ∀ g c, d₀.templateContents n = some g → d₀.parent c = some g → Clones d₀ (cloneNodeFrom k) c :=
      fun g c hg hc => ih c (parent_lt hc) (tag_of_child hd₀.tree hc)
        (Nat.lt_of_lt_of_le ((depth_lt hd₀ (Or.inl hc)).trans (depth_lt hd₀ (Or.inr (Or.inr hg)))) (Nat.lt_succ_iff.1 hdepth))
    obtain ⟨copy, d₁, hone, hc⟩ := cloneOne_total hd ((hlater.kindOf n hn).trans hk) fun ht => htag (by
      rw [tagOf_eq_some hk, ht])
    have hlater₁ : Later d₀ d₁ := hlater.trans hc.later fun _ _ => id
    have hnew : d₀.nodes.length ≤ copy := hlater.length.trans hc.new
    obtain ⟨d₂, hrun₂, hd₂, hlater₂, hreads₂⟩ := fillContents hd₀ hc.host hlater₁ hn hnew
      (hc.label.trans (by rw [hbare, hlabel]))
      (fun g hg => hc.childrenOf_new hd.tree (hc.later.contents copy g hc.new hg)) hcontents hinner
    -- then the copies of its children become the children of the copy
    have hlt₂ : copy < d₂.nodes.length := Nat.lt_of_lt_of_le hc.lt hlater₂.length
    have hown : d₁.templateContents copy ≠ some copy := fun he =>
      hc.host.not_hostIncludes (Or.inr (Or.inr he)) Relation.ReflTransGen.refl
    have hempty₂ : d₂.childrenOf copy = [] := (hlater₂.children copy hc.lt hown).trans (hc.childrenOf_new hd.tree hc.new)
    have hlater₀₂ : Later d₀ d₂ := hlater₁.trans hlater₂ fun m hm he =>
      Nat.not_lt.2 (hlater₁.contents copy m hnew he) hm
    have htag₀ := tagOf_of_label hlabel
    have htag₂ : d₂.tagOf copy = some label.tag :=
      (hlater₂.tagOf hc.lt).trans (tagOf_of_label (hc.label.trans (congrArg some hbare)))
    have hparent : d₀.childrenOf n ≠ [] → label.tag.mayBeParent = true := fun hne => by
      obtain ⟨c, hc⟩ := List.exists_mem_of_ne_nil _ hne
      exact mayBeParent_of_child hd₀.tree (hd₀.tree.mem_children.1 hc) htag₀
    obtain ⟨filled, d₃, hrun₃, hf⟩ := forEach_cloneInto (l := d₀.childrenOf n)
      (fun c hc => hinside c (Or.inl (hd₀.tree.mem_children.1 hc)) (tag_of_child hd₀.tree (hd₀.tree.mem_children.1 hc)))
      hd₂ hlater₀₂ hlt₂ hnew htag₂ hparent (Filled.nil hd₂ hempty₂) hchildren (fits_children hd₀.tree htag₀ hchildren)
    refine ⟨copy, d₃, ?_, hf.host, ?_, hc.new, ?_, reads_single.2 ⟨?_, ?_, ?_⟩⟩
    · unfold cloneNodeFrom Comp.when
      rw [bind_run_ok hone, if_pos rfl]
      refine (bind_run_ok (a := ()) (t := d₃) ?_).trans rfl
      rw [get_bind, bind_run_ok hrun₂, get_bind, hlater₀₂.children n hn id]
      exact hrun₃
    · have hlater₂' : Later d d₂ := hc.later.trans hlater₂ fun m hm he =>
        Nat.not_lt.2 (hc.later.contents copy m hc.new he) hm
      exact hlater₂'.trans hf.later fun m hm he => Nat.not_lt.2 hc.new (he ▸ hm)
    · exact (hf.later.parent copy hlt₂).trans ((hlater₂.parent copy hc.lt).trans hc.parent)
    · have hkind : d₃.kindOf copy = d₁.kindOf copy := (hf.later.kindOf copy hlt₂).trans (hlater₂.kindOf copy hc.lt)
      exact (congrArg (Option.map NodeKind.bare) hkind).trans (hc.label.trans (congrArg some hbare))
    · exact hf.later.reads_contents hd₂ hlt₂ hreads₂
    · show Core.Reads d₃.store (d₃.childrenOf copy) children
      rw [hf.children]
      exact hf.reads

/-- **`clone_node`, deep.** The copy of a node that is no shadow root has the content of the node. -/
theorem cloneNode_total (hd : HostInv d) {n : NodeId} (hn : n < d.nodes.length) (htag : d.tagOf n ≠ some .shadowRoot)
    {t : Forest NodeKind} (hreads : d.Reads [n] t) :
    ∃ copy d', cloneNode n true d = some (.ok copy, d') ∧ Detached d d' copy t := by
  unfold cloneNode
  rw [get_bind]
  exact cloneNodeFrom_total hd d.passes n hn htag (depth_lt_passes d n) d t hd (LaterBut.refl _ d) hreads

/-- `clone_node`, without the descendants -/
theorem cloneNode_shallow (hd : HostInv d) {n : NodeId} {source : NodeKind} (hk : d.kindOf n = some source)
    (hs : source.tag ≠ .shadowRoot) :
    ∃ copy d', cloneNode n false d = some (.ok copy, d') ∧ Copied d d' source.bare copy := by
  obtain ⟨copy, d', hrun, hc⟩ := cloneOne_total hd hk hs
  refine ⟨copy, d', ?_, hc⟩
  unfold cloneNode passes cloneNodeFrom
  rw [get_bind, bind_run_ok hrun]
  rfl

/-- every call of `clone_node` returns -/
theorem cloneNode_returns (hd : HostInv d) (n : NodeId) (deep : Bool) :
    ∃ r d', cloneNode n deep d = some (r, d') := by
  have herror : ∀ e d', cloneOne n d = some (.error e, d') → ∃ r d', cloneNode n deep d = some (r, d') := fun e d' he => by
    refine ⟨.error e, d', ?_⟩
    unfold cloneNode passes cloneNodeFrom
    rw [get_bind, bind_run_error he]
  cases hk : d.kindOf n with
  | none =>
    refine herror (.notFound s!"unknown node {n}") d ?_
    unfold cloneOne Dom.kind
    exact bind_run_error (by rw [check_run, hk])
  | some source =>
    by_cases hs : source.tag = .shadowRoot
    · cases source <;> cases hs
      refine herror (.notSupported "a shadow root cannot be cloned (DOM NotSupportedError)") d ?_
      unfold cloneOne
      rw [bind_run_ok (by rw [check_run, kind_eq_ok.2 hk])]
      rfl
    · have hn := nodeId_lt_of_kindOf hk
      cases deep with
      | false =>
        obtain ⟨copy, d', hrun, -⟩ := cloneNode_shallow hd hk hs
        exact ⟨_, d', hrun⟩
      | true =>
        obtain ⟨t, ht⟩ := exists_reads (l := [n]) hd fun m hm => List.mem_singleton.1 hm ▸ hn
        obtain ⟨copy, d', hrun, -⟩ := cloneNode_total hd hn (by rw [tagOf_eq_some hk]; simpa using hs) ht
        exact ⟨_, d', hrun⟩

end Dom

end Render
