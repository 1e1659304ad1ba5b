/-
The host-including tree: a node lies inside its parent, a shadow root inside its host, and the contents fragment of a
template inside the template. `insert_before` looks for cycles along `parent` only, so this larger tree may have some.

`HostInv`: it has none. Then insertions and removals return, and keep it so as long as no node is inserted into what lies
inside it.
-/
import Render.Dom.EventPath

namespace Render

open Render.Core Render.Core.Comp

/-- the contents fragment a kind names -/
def kindContents : NodeKind → Option NodeId
  | .element data => data.templateContents
  | _ => none

/-- an element has contents when it is an HTML `template`, and only then -/
def NodeKind.HasContents : NodeKind → Prop
  | .element data => data.templateContents.isSome ↔ data.nameSpace = .html ∧ data.localName = "template"
  | _ => True

namespace Dom

/-- c lies directly inside p: as a child, as the shadow root of a host, or as the contents of a template -/
def Inside (d : Dom) (c p : NodeId) : Prop :=
  d.parent c = some p ∨ d.shadowHost c = some p ∨ d.templateContents p = some c

/-- a is a host-including inclusive ancestor of n -/
def HostIncludes (d : Dom) (a n : NodeId) : Prop := Relation.ReflTransGen d.Inside n a

/-- the host-including tree has no cycle, and every template has its contents in a fragment -/
structure HostInv (d : Dom) : Prop where
  tree : TreeInv d
  shadow : ShadowInv d
  inward : WellFounded d.Inside
  contents : ∀ p f, d.templateContents p = some f → d.tagOf f = some .documentFragment
  templates : ∀ n, d.reading NodeKind.HasContents True n

variable {d d' : Dom}

theorem templateContents_eq_reading (n : NodeId) : d.templateContents n = d.reading kindContents none n := by
  unfold templateContents elementOf reading
  cases d.kindOf n with
  | none => rfl
  | some kind => cases kind <;> rfl

theorem templateContents_lt {p f : NodeId} (h : d.templateContents p = some f) : p < d.nodes.length := by
  by_contra hp
  rw [templateContents_eq_reading, reading, kindOf_eq_none.2 (Nat.le_of_not_lt hp)] at h
  cases h

/-- d' has the links of d across shadow roots and template contents, and the nodes of d keep their kinds -/
structure SameHosts (d d' : Dom) : Prop where
  host : d'.shadowHost = d.shadowHost
  contents : d'.templateContents = d.templateContents
  tags : ∀ n t, d.tagOf n = some t → d'.tagOf n = some t
  templates : ∀ n, d.reading NodeKind.HasContents True n → d'.reading NodeKind.HasContents True n

theorem SameHosts.of_readings (hg : ∀ n t, d.tagOf n = some t → d'.tagOf n = some t)
    (hl : d'.reading kindLinks (none, none) = d.reading kindLinks (none, none))
    (hc : d'.reading kindContents none = d.reading kindContents none)
    (ht : d'.reading NodeKind.HasContents True = d.reading NodeKind.HasContents True) : SameHosts d d' where
  host := by funext n; rw [shadowHost_eq_links, shadowHost_eq_links, hl]
  contents := by funext n; rw [templateContents_eq_reading, templateContents_eq_reading, hc]
  tags := hg
  templates n h := by rw [ht]; exact h

theorem SameHosts.of_kindOf (h : d'.kindOf = d.kindOf) : SameHosts d d' :=
  .of_readings (fun _ _ => by rw [tagOf_of_kindOf h]; exact id) (reading_of_kindOf h) (reading_of_kindOf h)
    (reading_of_kindOf h)

namespace HostInv

theorem inside_lt (h : HostInv d) {c p : NodeId} (hi : d.Inside c p) : c < d.nodes.length ∧ p < d.nodes.length := by
  rcases hi with hi | hi | hi
  · obtain ⟨t, ht⟩ := h.tree.parent_tag hi
    exact ⟨parent_lt hi, tagOf_lt ht⟩
  · exact ⟨tagOf_lt (tagOf_of_shadowHost hi), tagOf_lt (tagOf_of_shadowRoot ((h.shadow p c).2 hi))⟩
  · exact ⟨tagOf_lt (h.contents p c hi), templateContents_lt hi⟩

/-- the walks across hosts end -/
theorem acyclic (h : HostInv d) : d.Acyclic :=
  ends_of_wellFounded (Finset.range d.nodes.length) h.inward
    (fun _ _ hp => (shadowIncludingParent_cases hp).imp id fun hh => Or.inl hh.2) fun _ _ hp =>
      Finset.mem_range.2 (h.inside_lt ((shadowIncludingParent_cases hp).imp id fun hh => Or.inl hh.2)).2

theorem hostIncludes_of_above {a n : NodeId} (h : d.links.Above a n) : d.HostIncludes a n := by
  induction h with
  | refl => exact Relation.ReflTransGen.refl
  | tail _ hbc ih => exact ih.tail (Or.inl hbc)

/-- a node lies inside nothing that lies inside it -/
theorem not_hostIncludes (h : HostInv d) {c p : NodeId} (hi : d.Inside c p) : ¬ d.HostIncludes c p := fun hp =>
  h.inward.transGen.irrefl.irrefl c (Relation.TransGen.head' hi hp)

/-- writes that put nothing inside anything -/
theorem shrink (h : HostInv d) (ht : TreeInv d') (hs : ShadowInv d') (hp : ∀ c p, d'.parent c = some p → d.parent c = some p)
    (hh : SameHosts d d') : HostInv d' where
  tree := ht
  shadow := hs
  inward := by
    refine Subrelation.wf (fun {c p} hi => ?_) h.inward
    rcases hi with hi | hi | hi
    · exact Or.inl (hp c p hi)
    · exact Or.inr (Or.inl (by rwa [hh.host] at hi))
    · exact Or.inr (Or.inr (by rwa [hh.contents] at hi))
  contents p f hf := by
    rw [hh.contents] at hf
    exact hh.tags f _ (h.contents p f hf)
  templates n := hh.templates n (h.templates n)

theorem kindOf_same (h : HostInv d) (ht : TreeInv d') (hp : ∀ c p, d'.parent c = some p → d.parent c = some p)
    (hk : d'.kindOf = d.kindOf) : HostInv d' :=
  h.shrink ht (h.shadow.same (reading_of_kindOf hk)) hp (SameHosts.of_kindOf hk)

theorem nodes_same (h : HostInv d) (hn : d'.nodes = d.nodes) : HostInv d' := by
  refine h.kindOf_same (h.tree.grows (Grows.of_nodes hn)) (fun c p hp => ?_) (kindOf_of_nodes hn)
  rwa [show d'.parent = d.parent from congrArg Links.parent (Grows.of_nodes hn).links] at hp

theorem owners (h : HostInv d) (ho : OwnersOnly d d') : HostInv d' := by
  refine h.kindOf_same (h.tree.grows (Grows.of_tags ho.links (tagOf_of_kindOf ho.kindOf))) (fun c p hp => ?_) ho.kindOf
  rwa [show d'.parent = d.parent from congrArg Links.parent ho.links] at hp

/-! ### New nodes -/

theorem parent_allocateIn (kind : NodeKind) : (d.allocateIn kind).parent = d.parent :=
  congrArg Links.parent (links_allocateIn kind)

theorem length_allocateIn (d : Dom) (kind : NodeKind) : (d.allocateIn kind).nodes.length = d.nodes.length + 1 := by
  unfold allocateIn; simp

theorem allocate_plain (h : HostInv d) {kind : NodeKind} (hk : kind.isPlain) : HostInv (d.allocateIn kind) := by
  have hlinks : kindLinks kind = (none, none) := by
    cases kind <;> simp_all [NodeKind.isPlain, NodeKind.tag, kindLinks]
  have hcontents : kindContents kind = none := by
    cases kind <;> simp_all [NodeKind.isPlain, NodeKind.tag, kindContents]
  have hhas : kind.HasContents = True := by
    cases kind <;> simp_all [NodeKind.isPlain, NodeKind.tag, NodeKind.HasContents]
  refine h.shrink (h.tree.grows (Grows.allocateIn d kind)) (h.shadow.same (reading_allocateIn hlinks)) (fun c p hp => ?_)
    (SameHosts.of_readings (Grows.allocateIn d kind).tags (reading_allocateIn hlinks) (reading_allocateIn hcontents)
      (reading_allocateIn hhas))
  rwa [parent_allocateIn] at hp

/-- nothing is inside the node that is allocated next, and it is inside nothing -/
theorem fresh_outside (h : HostInv d) {a n : NodeId} (hn : d.nodes.length ≤ n) (ha : d.HostIncludes a n) : a = n := by
  rcases Relation.ReflTransGen.cases_head ha with he | ⟨c, hc, -⟩
  · exact he.symm
  · exact absurd (h.inside_lt hc).1 (Nat.not_lt.2 hn)

/-- a new element, whose contents fragment is an older node -/
theorem allocate_element (h : HostInv d) {data : ElementData} (hnone : data.shadowRoot = none)
    (hc : ∀ f, data.templateContents = some f → d.tagOf f = some .documentFragment)
    (ht : (NodeKind.element data).HasContents) : HostInv (d.allocateIn (.element data)) where
  tree := h.tree.grows (Grows.allocateIn d _)
  shadow := h.shadow.same (reading_allocateIn (by simp [kindLinks, hnone]))
  inward := by
    have hcontents : ∀ p, (d.allocateIn (.element data)).templateContents p =
        if p = d.nodes.length then data.templateContents else d.templateContents p := fun p => by
      rw [templateContents_eq_reading, reading, kindOf_allocateIn]
      split_ifs
      · rfl
      · rw [templateContents_eq_reading]; rfl
    refine wellFounded_of_edges h.inward d.nodes.length (fun f => data.templateContents = some f)
      (fun c p hi => ?_) fun f hf hin => ?_
    · rcases hi with hi | hi | hi
      · rw [parent_allocateIn] at hi
        exact Or.inl (Or.inl hi)
      · have hh : (d.allocateIn (.element data)).shadowHost c = d.shadowHost c := by
          rw [shadowHost_eq_links, shadowHost_eq_links, reading_allocateIn (by simp [kindLinks, hnone])]
        exact Or.inl (Or.inr (Or.inl (hh ▸ hi)))
      · rw [hcontents] at hi
        split_ifs at hi with hp
        · exact Or.inr ⟨hi, hp⟩
        · exact Or.inl (Or.inr (Or.inr hi))
    · have := h.fresh_outside le_rfl hin
      exact absurd (tagOf_lt (hc f hf)) (Nat.not_lt.2 (Nat.le_of_eq this.symm))
  contents p f hf := by
    refine (Grows.allocateIn d _).tags f _ ?_
    rw [templateContents_eq_reading, reading, kindOf_allocateIn] at hf
    split_ifs at hf with hp
    · exact hc f hf
    · exact h.contents p f (by rw [templateContents_eq_reading]; exact hf)
  templates n := by
    have hn := h.templates n
    unfold reading at hn ⊢
    rw [kindOf_allocateIn]
    split_ifs
    · exact ht
    · exact hn

/-! ### Attaching a shadow root -/

theorem attached (h : HostInv d) {data : ShadowRootData} {element : ElementData}
    (hh : d.kindOf data.host = some (.element element)) (hnone : element.shadowRoot = none) :
    HostInv (d.attached data) := by
  have hcontents : ∀ p, (d.attached data).templateContents p = d.templateContents p := fun p => by
    rw [templateContents_eq_reading, templateContents_eq_reading, reading, kindOf_attached hh]
    split_ifs with hp hp'
    · rw [hp, reading_length]; rfl
    · rw [hp', reading, hh]; rfl
    · rfl
  have hg : Grows d (d.attached data) := by
    refine ⟨links_attached data, fun n t ht => ?_⟩
    unfold tagOf at ht ⊢
    rw [kindOf_attached hh]
    split_ifs with hn hn'
    · rw [hn, kindOf_eq_none.2 le_rfl] at ht; cases ht
    · rw [hn', hh] at ht; exact ht
    · exact ht
  refine ⟨h.tree.grows hg, h.shadow.attached hh hnone, ?_, fun p f hf => ?_, fun n => ?_⟩
  · refine wellFounded_of_edges h.inward data.host (fun c => c = d.nodes.length) (fun c p hi => ?_)
      fun c hc hin => ?_
    · rcases hi with hi | hi | hi
      · exact Or.inl (Or.inl (by rwa [show (d.attached data).parent = d.parent from
          congrArg Links.parent (links_attached data)] at hi))
      · rw [shadowHost_attached hh] at hi
        split_ifs at hi with hc
        · exact Or.inr ⟨hc, (Option.some.inj hi).symm⟩
        · exact Or.inl (Or.inr (Or.inl hi))
      · exact Or.inl (Or.inr (Or.inr (hcontents p ▸ hi)))
    · -- nothing is inside the new root
      rcases Relation.ReflTransGen.cases_tail hin with he | ⟨b, -, hb⟩
      · rw [hc] at he
        rw [← he, kindOf_eq_none.2 le_rfl] at hh; cases hh
      · exact absurd (h.inside_lt hb).2 (Nat.not_lt.2 hc.ge)
  · rw [hcontents] at hf
    exact hg.tags f _ (h.contents p f hf)
  · have hn := h.templates n
    unfold reading at hn ⊢
    rw [kindOf_attached hh]
    split_ifs with hn' hn''
    · exact trivial
    · rw [hn'', hh] at hn
      exact hn
    · exact hn

/-! ### Moving nodes -/

theorem detached (h : HostInv d) {l : List NodeId} (hdet : Links.Detaches d.links d'.links l) (ht : TreeInv d')
    (hk : d'.kindOf = d.kindOf) : HostInv d' :=
  h.kindOf_same ht (fun _ _ hp => (hdet.parent_some.1 hp).2) hk

theorem length_of_kindOf (hk : d'.kindOf = d.kindOf) : d'.nodes.length = d.nodes.length := by
  have hle : ∀ n, d'.nodes.length ≤ n ↔ d.nodes.length ≤ n := fun n => by
    rw [← kindOf_eq_none, ← kindOf_eq_none, hk]
  exact le_antisymm ((hle _).2 le_rfl) ((hle _).1 le_rfl)

/-- **An insertion keeps the host-including tree free of cycles** when the node does not include the parent. -/
theorem inserted (h : HostInv d) {parent : NodeId} {eff : Option NodeId} {l : List NodeId}
    (hin : Inserted d d' parent eff l) (hnot : ∀ c ∈ l, ¬ d.HostIncludes c parent) : HostInv d' where
  tree := hin.treeInv
  shadow := h.shadow.same (reading_of_kindOf hin.kindOf)
  inward := by
    have hh := SameHosts.of_kindOf hin.kindOf
    refine wellFounded_of_edges h.inward parent (fun c => c ∈ l) (fun c p hi => ?_) hnot
    rcases hi with hi | hi | hi
    · by_cases hc : c ∈ l
      · rw [hin.parent_in c hc] at hi
        exact Or.inr ⟨hc, (Option.some.inj hi).symm⟩
      · rw [hin.parent_out c hc] at hi
        exact Or.inl (Or.inl hi)
    · exact Or.inl (Or.inr (Or.inl (hh.host ▸ hi)))
    · exact Or.inl (Or.inr (Or.inr (hh.contents ▸ hi)))
  contents p f hf := by
    rw [(SameHosts.of_kindOf hin.kindOf).contents] at hf
    rw [tagOf_of_kindOf hin.kindOf]
    exact h.contents p f hf
  templates n := by
    rw [reading_of_kindOf hin.kindOf]
    exact h.templates n

end HostInv

/-! ## Insertions and removals return -/

theorem treeInv_detachAll (l : List NodeId) (hd : TreeInv d) : TreeInv (d.detachAll l) := by
  unfold detachAll
  induction l generalizing d with
  | nil => exact hd
  | cons n l ih => exact ih (treeInv_detach n hd)

theorem treeInv_readied (hd : TreeInv d) (parent n : NodeId) (eff : Option NodeId) : TreeInv (d.readied parent n eff) := by
  have hshift : ∀ {d : Dom} (count : ℕ), TreeInv d → TreeInv (d.shiftForInsert parent eff count) := fun count hd =>
    hd.grows (Grows.of_tags (links_shiftForInsert parent eff count)
      (tagOf_of_kindOf (kindOf_shiftForInsert parent eff count)))
  unfold readied
  refine treeInv_detachAll _ (hshift _ ?_)
  split_ifs
  · exact treeInv_detachAll _ hd
  · exact hd

namespace HostInv

variable {parent n : NodeId} {reference eff : Option NodeId}

theorem adoptSubtree_returns (h : HostInv d) (root document : NodeId) : ∃ d', d.adoptSubtree root document = some d' := by
  have hup : ∀ a b, b ∈ d.adoptSuccessors a → d.shadowIncludingParent b = some a := by
    intro a b hb
    rcases List.mem_append.1 hb with hb | hb
    · exact shadowIncludingParent_of_host h.tree ((h.shadow a b).1 (Option.mem_toList.1 hb))
    · exact shadowIncludingParent_of_parent (h.tree.mem_children.1 (List.mem_reverse.1 hb))
  have hnd : ∀ a, (d.adoptSuccessors a).Nodup := by
    intro a
    refine List.nodup_append.2 ⟨?_, List.nodup_reverse.2 (h.tree.forest.nodup a), fun x hx y hy he => ?_⟩
    · cases d.shadowRoot a <;> simp
    · -- a shadow root is no child
      have hhost := parent_of_shadowHost h.tree ((h.shadow a x).1 (Option.mem_toList.1 hx))
      have hpar := h.tree.mem_children.1 (List.mem_reverse.1 hy)
      rw [← he, hhost] at hpar
      cases hpar
  obtain ⟨l, hl, -⟩ := dfs_enough hup hnd h.acyclic (insert root (Finset.range d.nodes.length))
    (fun a b hab => Finset.mem_insert_of_mem (Finset.mem_range.2 (shadowIncludingParent_lt hab)))
    (List.pairwise_singleton _ root)
    (fun a ha => by rw [List.mem_singleton.1 ha]; exact Finset.mem_insert_self _ _)
    (k := d.passes) ((Finset.card_insert_le _ _).trans (by simp [passes]))
  exact ⟨_, by unfold adoptSubtree; rw [hl]; rfl⟩

theorem adoptAll_returns (h : HostInv d) (owner : NodeId) (l : List NodeId) : ∃ d', d.adoptAll owner l = some d' := by
  induction l generalizing d with
  | nil => exact ⟨d, rfl⟩
  | cons n l ih =>
    unfold adoptAll
    split_ifs
    · exact ih h
    · obtain ⟨e, he⟩ := h.adoptSubtree_returns n owner
      rw [he]
      exact ih (h.owners (ownersOnly_adoptSubtree he))

/-- an accepted insertion of some nodes comes to the record -/
theorem insertBefore_record (h : HostInv d) (hc : d.preInsertChecks parent n reference = .ok eff)
    (hne : d.insertionNodes n ≠ []) :
    ∃ i adopted, InsertRun d (adopted.insertChildren parent i (d.insertionNodes n)) parent n reference eff i adopted ∧
      insertBefore parent n reference d =
        ((adopted.insertChildren parent i (d.insertionNodes n)).recordMutationsIn (d.insertionRecords parent n)).map
          fun d' => (.ok n, d') := by
  have hready : HostInv (d.readied parent n eff) :=
    h.detached (detaches_readied h.tree.forest parent n eff) (treeInv_readied h.tree parent n eff)
      (kindOf_readied parent n eff)
  obtain ⟨adopted, hadopt⟩ := hready.adoptAll_returns ((d.readied parent n eff).ownerOf parent) (d.insertionNodes n)
  have hv := preInsertChecks_ok h.tree.forest hc
  have ho := ownersOnly_adoptAll _ hadopt
  obtain ⟨i, hi⟩ := insertionIndex_ok h.tree hv ho
  refine ⟨i, adopted, ⟨hv, ho, hi, rfl⟩, ?_⟩
  rw [insertBefore_eq h.tree.forest hc hne, hadopt]
  show adopted.insertAt parent n _ _ (adopted.insertionIndex parent eff) = _
  rw [hi]
  rfl

/-- **An accepted insertion returns**, and keeps the host-including tree, when the node does not include the parent. -/
theorem insertBefore_total (h : HostInv d) (hc : d.preInsertChecks parent n reference = .ok eff)
    (hnot : ¬ d.HostIncludes n parent) :
    ∃ d', insertBefore parent n reference d = some (.ok n, d') ∧ HostInv d' ∧
      ((d.insertionNodes n = [] ∧ d' = d) ∨
        (d.insertionNodes n ≠ [] ∧ ∃ i adopted, InsertRun d d' parent n reference eff i adopted)) := by
  by_cases hne : d.insertionNodes n = []
  · exact ⟨d, insertBefore_nothing h.tree.forest hc hne, h, Or.inl ⟨hne, rfl⟩⟩
  · obtain ⟨i, adopted, hrun, hresult⟩ := h.insertBefore_record hc hne
    have hnodes : ∀ c ∈ d.insertionNodes n, ¬ d.HostIncludes c parent := by
      intro c hcn
      unfold insertionNodes at hcn
      split_ifs at hcn
      · exact fun hinc => hnot (hinc.tail (Or.inl (h.tree.mem_children.1 hcn)))
      · rwa [List.mem_singleton.1 hcn]
    have hinv := h.inserted (hrun.inserted h.tree) hnodes
    obtain ⟨d', hrec⟩ := recordMutationsIn_returns hinv.acyclic hinv.tree (d.insertionRecords parent n)
    have hlog := logOnly_recordMutationsIn hrec
    refine ⟨d', ?_, hinv.nodes_same hlog.nodes, Or.inr ⟨hne, i, adopted, hrun.valid, hrun.owners, hrun.index, hlog⟩⟩
    rw [hresult, hrec]
    rfl

/-- a removal from the parent of a node returns -/
theorem removeChild_total (h : HostInv d) (hp : d.parent n = some parent) :
    ∃ d', removeChild parent n d = some (.ok n, d') ∧ HostInv d' ∧ LogOnly (d.detachWithoutRevision n) d' := by
  have hdet := h.detached (detaches_detachWithoutRevision h.tree.forest n) (treeInv_detach n h.tree)
    (kindOf_detachWithoutRevision n)
  obtain ⟨d', hrec⟩ := recordMutationsIn_returns hdet.acyclic hdet.tree [.childList parent [] [n]]
  have hlog := logOnly_recordMutationsIn hrec
  refine ⟨d', ?_, hdet.nodes_same hlog.nodes, hlog⟩
  have hknown : ∀ m < d.nodes.length, d.requireNode m = .ok () := fun m hm => by
    obtain ⟨kind, hk⟩ := Option.ne_none_iff_exists'.1 fun he => Nat.not_le.2 hm (kindOf_eq_none.1 he)
    exact requireNode_eq_ok.2 ⟨kind, hk⟩
  obtain ⟨hn, hparent⟩ := h.inside_lt (Or.inl hp)
  unfold removeChild
  rw [bind_run_ok (by rw [check_run, hknown parent hparent]), bind_run_ok (by rw [check_run, hknown n hn]), get_bind,
    bind_run_ok (a := ()) (by rw [failIf, check_run, refuse_eq_ok.2 (not_not.2 hp)]), modify_bind, recordMutations,
    awaitModify_bind, hrec]
  rfl

end HostInv

theorem hostInv_insertBefore {parent n : NodeId} {reference : Option NodeId} {r : Except DomError NodeId} (h : HostInv d)
    (hsafe : d.HostIncludes n parent → d.links.Above n parent)
    (hrun : insertBefore parent n reference d = some (r, d')) : HostInv d' := by
  cases hc : d.preInsertChecks parent n reference with
  | error e =>
    rw [insertBefore_refused hc] at hrun
    obtain ⟨-, rfl⟩ := Prod.mk.inj (Option.some.inj hrun)
    exact h
  | ok eff =>
    obtain ⟨e, he, hinv, -⟩ := h.insertBefore_total hc fun hinc =>
      (preInsertChecks_ok h.tree.forest hc).notAbove (hsafe hinc)
    rw [he] at hrun
    obtain ⟨-, rfl⟩ := Prod.mk.inj (Option.some.inj hrun)
    exact hinv

theorem hostInv_removeChild (parent child : NodeId) : Keeps HostInv (removeChild parent child) := by
  intro d r d' h hrun
  rcases removeChild_cases hrun with ⟨_, -, rfl⟩ | ⟨-, hp, -⟩
  · exact h
  · obtain ⟨e, he, hinv, -⟩ := h.removeChild_total hp
    rw [he] at hrun
    obtain ⟨-, rfl⟩ := Prod.mk.inj (Option.some.inj hrun)
    exact hinv

theorem hostInv_attachShadow (host : NodeId) (mode : ShadowRootMode) (delegatesFocus : Bool)
    (slotAssignment : SlotAssignmentMode) : Keeps HostInv (attachShadow host mode delegatesFocus slotAssignment) := by
  intro d r d' h hrun
  rcases attachShadow_returns hrun with ⟨_, -, rfl⟩ | ⟨data, hk, hnone, -, hrec⟩
  · exact h
  · exact (h.attached (show d.kindOf (ShadowRootData.host ⟨host, mode, delegatesFocus, slotAssignment⟩) = _ from hk)
      hnone).nodes_same
      (logOnly_recordMutationsIn hrec).nodes

end Dom

end Render
