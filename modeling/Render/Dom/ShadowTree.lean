/-
The links between hosts and shadow roots: a host names its root and the root names its host, in every reachable DOM.

Only `attach_shadow` makes such a link (`attachShadow_returns`, `kindOf_attached`); no other operation changes one.
-/
import Render.Dom.TreeRuns

namespace Render

open Render.Core Render.Core.Comp

namespace Dom

variable {d d' : Dom}

/-- each host and its shadow root name each other -/
def ShadowInv (d : Dom) : Prop := ∀ host root, d.shadowRoot host = some root ↔ d.shadowHost root = some host

theorem shadowRoot_eq_some {host root : NodeId} :
    d.shadowRoot host = some root ↔ ∃ data, d.kindOf host = some (.element data) ∧ data.shadowRoot = some root := by
  unfold shadowRoot elementOf
  cases d.kindOf host with
  | none => simp
  | some kind => cases kind <;> simp

theorem shadowHost_eq_some {host root : NodeId} :
    d.shadowHost root = some host ↔ ∃ data, d.kindOf root = some (.shadowRoot data) ∧ data.host = host := by
  unfold shadowHost shadowRootData
  cases d.kindOf root with
  | none => simp
  | some kind => cases kind <;> simp

theorem shadowHost_of_data {root : NodeId} {data : ShadowRootData} (h : d.shadowRootData root = some data) :
    d.shadowHost root = some data.host := by
  unfold shadowHost; rw [h]; rfl

/-- a node with a host is a shadow root, and a host is an element -/
theorem tagOf_of_shadowHost {host root : NodeId} (h : d.shadowHost root = some host) : d.tagOf root = some .shadowRoot := by
  obtain ⟨data, hk, -⟩ := shadowHost_eq_some.1 h
  exact tagOf_eq_some hk

theorem tagOf_of_shadowRoot {host root : NodeId} (h : d.shadowRoot host = some root) : d.tagOf host = some .element := by
  obtain ⟨data, hk, -⟩ := shadowRoot_eq_some.1 h
  exact tagOf_eq_some hk

/-- a shadow root is the root of its tree -/
theorem parent_of_shadowHost (hd : TreeInv d) {host root : NodeId} (h : d.shadowHost root = some host) :
    d.parent root = none := by
  by_contra hne
  obtain ⟨p, hp⟩ := Option.ne_none_iff_exists'.1 hne
  obtain ⟨tc, tp, htc, -, hm⟩ := hd.kinds root p hp
  rw [tagOf_of_shadowHost h] at htc
  obtain rfl := Option.some.inj htc
  cases tp <;> cases hm

/-! ## Writes that leave the links alone -/

/-- the links of a kind: the shadow root of a host, and the host of a shadow root -/
def kindLinks : NodeKind → Option NodeId × Option NodeId
  | .element data => (data.shadowRoot, none)
  | .shadowRoot data => (none, some data.host)
  | _ => (none, none)

theorem shadowRoot_eq_links (n : NodeId) : d.shadowRoot n = (d.reading kindLinks (none, none) n).1 := by
  unfold shadowRoot elementOf reading
  cases d.kindOf n with
  | none => rfl
  | some kind => cases kind <;> rfl

theorem shadowHost_eq_links (n : NodeId) : d.shadowHost n = (d.reading kindLinks (none, none) n).2 := by
  unfold shadowHost shadowRootData reading
  cases d.kindOf n with
  | none => rfl
  | some kind => cases kind <;> rfl

theorem kindLinks_withData (kind : NodeKind) (value : String) : kindLinks (kind.withData value) = kindLinks kind := by
  cases kind <;> rfl

/-- d' has the shadow links of d -/
def SameShadow (d d' : Dom) : Prop := d'.reading kindLinks (none, none) = d.reading kindLinks (none, none)

theorem ShadowInv.same (h : ShadowInv d) (hs : SameShadow d d') : ShadowInv d' := by
  intro host root
  rw [shadowRoot_eq_links, shadowHost_eq_links, hs, ← shadowRoot_eq_links, ← shadowHost_eq_links]
  exact h host root

/-! ## Attaching a shadow root -/

/-- the writes of `attach_shadow` before they are recorded -/
def attached (d : Dom) (data : ShadowRootData) : Dom :=
  let root := d.nodes.length
  let allocated := d.allocateIn (.shadowRoot data)
  let linked := (allocated.setNodeDocument root (allocated.ownerOf data.host)).modifyElement data.host
    fun element => { element with shadowRoot := some root }
  { linked with shadowRoots := linked.shadowRoots + 1 }

/-- a call of `attach_shadow` that returns was refused, or linked a new root to a host that had none -/
theorem attachShadow_returns {host : NodeId} {mode : ShadowRootMode} {delegatesFocus : Bool}
    {slotAssignment : SlotAssignmentMode} {r : Except DomError NodeId}
    (h : attachShadow host mode delegatesFocus slotAssignment d = some (r, d')) :
    (∃ e, r = .error e ∧ d' = d) ∨
      ∃ data, d.kindOf host = some (.element data) ∧ data.shadowRoot = none ∧ r = .ok d.nodes.length ∧
        (d.attached ⟨host, mode, delegatesFocus, slotAssignment⟩).recordMutationsIn [.shadowRootAttached host] =
          some d' := by
  unfold attachShadow at h
  rcases bind_returns h with ⟨e, h, hr⟩ | ⟨kind, u, hu, h⟩
  · simp only [check_run, Option.some.injEq, Prod.mk.injEq] at h
    exact Or.inl ⟨e, hr, h.2.symm⟩
  simp only [check_run, Option.some.injEq, Prod.mk.injEq] at hu
  obtain ⟨hk, rfl⟩ := hu
  cases kind with
  | element data =>
    dsimp only at h
    rcases bind_returns h with ⟨e, h, hr⟩ | ⟨_, u, hu, h⟩
    · simp only [failIf, check_run, Option.some.injEq, Prod.mk.injEq] at h
      exact Or.inl ⟨e, hr, h.2.symm⟩
    simp only [failIf, check_run, Option.some.injEq, Prod.mk.injEq] at hu
    obtain ⟨-, rfl⟩ := hu
    rcases bind_returns h with ⟨e, h, hr⟩ | ⟨_, u, hu, h⟩
    · simp only [failIf, check_run, Option.some.injEq, Prod.mk.injEq] at h
      exact Or.inl ⟨e, hr, h.2.symm⟩
    simp only [failIf, check_run, Option.some.injEq, Prod.mk.injEq] at hu
    obtain ⟨hnone, rfl⟩ := hu
    right
    refine ⟨data, kind_eq_ok.1 hk, by simpa using refuse_eq_ok.1 hnone, ?_⟩
    have halloc : allocate (.shadowRoot ⟨host, mode, delegatesFocus, slotAssignment⟩) d =
        some (.ok d.nodes.length, d.allocateIn (.shadowRoot ⟨host, mode, delegatesFocus, slotAssignment⟩)) := rfl
    rw [bind_run_ok halloc, get_bind] at h
    unfold Render.setNodeDocument at h
    simp only [modify_bind] at h
    obtain ⟨_, v, hv, h⟩ | ⟨e, h, -⟩ := (bind_returns h).symm
    · simp only [pure_run, Option.some.injEq, Prod.mk.injEq] at h
      exact ⟨h.1.symm, h.2 ▸ awaitModify_ok hv⟩
    · simp [recordMutations] at h
  | document => simp at h; exact Or.inl ⟨_, h.1.symm, h.2.symm⟩
  | documentFragment => simp at h; exact Or.inl ⟨_, h.1.symm, h.2.symm⟩
  | shadowRoot data => simp at h; exact Or.inl ⟨_, h.1.symm, h.2.symm⟩
  | documentType data => simp at h; exact Or.inl ⟨_, h.1.symm, h.2.symm⟩
  | text data => simp at h; exact Or.inl ⟨_, h.1.symm, h.2.symm⟩
  | comment data => simp at h; exact Or.inl ⟨_, h.1.symm, h.2.symm⟩
  | processingInstruction target data => simp at h; exact Or.inl ⟨_, h.1.symm, h.2.symm⟩

theorem links_attached (data : ShadowRootData) : (d.attached data).links = d.links := by
  refine Eq.trans (links_modifyElement _ _) ((links_setNodeDocument _ _).trans (links_allocateIn _))

/-- the new root and the changed host; every other node keeps its kind -/
theorem kindOf_attached {data : ShadowRootData} {element : ElementData} (hh : d.kindOf data.host = some (.element element))
    (m : NodeId) : (d.attached data).kindOf m =
      if m = d.nodes.length then some (.shadowRoot data)
      else if m = data.host then some (.element { element with shadowRoot := some d.nodes.length })
      else d.kindOf m := by
  have hne : data.host ≠ d.nodes.length := by
    intro he
    rw [he, kindOf_eq_none.2 le_rfl] at hh; cases hh
  have hlow : ∀ m, ((d.allocateIn (.shadowRoot data)).setNodeDocument d.nodes.length
      ((d.allocateIn (.shadowRoot data)).ownerOf data.host)).kindOf m =
      if m = d.nodes.length then some (.shadowRoot data) else d.kindOf m := by
    intro m; rw [kindOf_setNodeDocument, kindOf_allocateIn]
  show (Dom.modifyElement _ data.host _).kindOf m = _
  unfold modifyElement
  rw [kindOf_modifyNode]
  by_cases hm : data.host = m
  · subst hm
    rw [if_pos rfl, if_neg hne, if_pos rfl]
    have hk := (hlow data.host).trans (if_neg hne)
    rw [hh] at hk
    unfold kindOf at hk
    obtain ⟨x, hx, hxk⟩ := Option.map_eq_some_iff.1 hk
    rw [hx, Option.map_some, hxk]
  · rw [if_neg hm, hlow, if_neg (Ne.symm hm)]

theorem links_of_attached {data : ShadowRootData} {element : ElementData}
    (hh : d.kindOf data.host = some (.element element)) (m : NodeId) :
    (d.attached data).reading kindLinks (none, none) m =
      if m = d.nodes.length then (none, some data.host)
      else if m = data.host then (some d.nodes.length, none)
      else d.reading kindLinks (none, none) m := by
  unfold reading
  rw [kindOf_attached hh]
  split_ifs <;> rfl

theorem shadowRoot_attached {data : ShadowRootData} {element : ElementData}
    (hh : d.kindOf data.host = some (.element element)) (m : NodeId) :
    (d.attached data).shadowRoot m = if m = data.host then some d.nodes.length else d.shadowRoot m := by
  rw [shadowRoot_eq_links, links_of_attached hh]
  by_cases hm : m = d.nodes.length
  · have hne : m ≠ data.host := by
      rintro rfl
      rw [hm, kindOf_eq_none.2 le_rfl] at hh; cases hh
    rw [if_pos hm, if_neg hne, shadowRoot_eq_links, hm, reading_length]
  · rw [if_neg hm]
    split_ifs
    · rfl
    · rw [shadowRoot_eq_links]

theorem shadowHost_attached {data : ShadowRootData} {element : ElementData}
    (hh : d.kindOf data.host = some (.element element)) (m : NodeId) :
    (d.attached data).shadowHost m = if m = d.nodes.length then some data.host else d.shadowHost m := by
  rw [shadowHost_eq_links, links_of_attached hh]
  split_ifs with hm hm'
  · rfl
  · rw [hm', shadowHost_eq_links, reading, hh]; rfl
  · rw [shadowHost_eq_links]

/-- **Attaching keeps the links paired**, since the host had no root before. -/
theorem ShadowInv.attached (h : ShadowInv d) {data : ShadowRootData} {element : ElementData}
    (hh : d.kindOf data.host = some (.element element)) (hnone : element.shadowRoot = none) :
    ShadowInv (d.attached data) := by
  intro host root
  rw [shadowRoot_attached hh, shadowHost_attached hh]
  by_cases hhost : host = data.host
  · by_cases hroot : root = d.nodes.length
    · simp [hhost, hroot]
    · rw [if_pos hhost, if_neg hroot]
      constructor
      · intro he; exact absurd (Option.some.inj he).symm hroot
      · intro he
        obtain ⟨data', hk, hs⟩ := shadowRoot_eq_some.1 ((h host root).2 he)
        rw [hhost, hh] at hk
        cases hk
        rw [hnone] at hs; cases hs
  · by_cases hroot : root = d.nodes.length
    · rw [if_neg hhost, if_pos hroot]
      constructor
      · intro he
        obtain ⟨data', hk, -⟩ := shadowHost_eq_some.1 ((h host root).1 he)
        rw [hroot, kindOf_eq_none.2 le_rfl] at hk; cases hk
      · intro he; exact absurd (Option.some.inj he).symm hhost
    · rw [if_neg hhost, if_neg hroot]; exact h host root

/-! ## Every reachable DOM -/

theorem kindOf_insertChild (parent n : NodeId) (i : ℕ) : (d.insertChild parent i n).kindOf = d.kindOf := by
  unfold insertChild
  refine (kindOf_of_modifyNode ?_).trans (kindOf_of_modifyNode ?_) <;> intro _ <;> rfl

theorem shadow_writes : KeptByWrites ShadowInv where
  tables _ _ _ _ _ _ _ hd := hd
  allocate d kind hk hd := by
    refine hd.same (reading_allocateIn ?_)
    cases kind <;> simp_all [NodeKind.isPlain, NodeKind.tag, kindLinks]
  allocateElement d data hnone hd := hd.same (reading_allocateIn (by simp [kindLinks, hnone]))
  setNodeDocument d n document hd := hd.same (reading_of_kindOf (kindOf_setNodeDocument n document))
  setDataText d n value hd := hd.same (reading_setDataText n value fun kind => kindLinks_withData kind value)
  modifyElement d n f hf hd := hd.same (reading_modifyElement n fun data => by simp [kindLinks, (hf data).2])
  adoptSubtree d d' n document hd h := hd.same (reading_of_kindOf (ownersOnly_adoptSubtree h).kindOf)
  recordMutations _ := Keeps.awaitModify fun _ _ hd h => hd.same (reading_of_nodes (logOnly_recordMutationsIn h).nodes)
  focusedArea _ _ hd := hd
  journalCapacity d capacity hd :=
    hd.same (reading_of_nodes (nodes_setMutationJournalCapacityIn d capacity))

theorem shadow_attachShadow (host : NodeId) (mode : ShadowRootMode) (delegatesFocus : Bool)
    (slotAssignment : SlotAssignmentMode) : Keeps ShadowInv (attachShadow host mode delegatesFocus slotAssignment) := by
  intro d r d' hd h
  rcases attachShadow_returns h with ⟨_, -, rfl⟩ | ⟨data, hk, hnone, -, hrec⟩
  · exact hd
  · exact (hd.attached (show d.kindOf (ShadowRootData.host ⟨host, mode, delegatesFocus, slotAssignment⟩) = _ from hk) hnone).same
      (reading_of_nodes (logOnly_recordMutationsIn hrec).nodes)

theorem shadow_kept : KeptByTree ShadowInv := by
  have hdetach : ∀ d n, ShadowInv d → ShadowInv (d.detachWithoutRevision n) := fun d n hd =>
    hd.same (reading_of_kindOf (kindOf_detachWithoutRevision n))
  have hmoves := shadow_writes.moves hdetach fun d p i n hd => hd.same (reading_of_kindOf (kindOf_insertChild p n i))
  exact shadow_writes.kept hmoves.insertBefore hmoves.removeChild shadow_attachShadow

/-- the links of a kind, moved by an offset -/
def shiftLinks (offset : ℕ) (links : Option NodeId × Option NodeId) : Option NodeId × Option NodeId :=
  (links.1.map (· + offset), links.2.map (· + offset))

theorem kindLinks_shift (offset : ℕ) (kind : NodeKind) : kindLinks (kind.shift offset) = shiftLinks offset (kindLinks kind) := by
  cases kind <;> rfl

theorem shadowRoot_graftDocument {other : Dom} (n : NodeId) : (d.graftDocument other).shadowRoot n =
    if n < d.nodes.length then d.shadowRoot n
    else (other.shadowRoot (n - d.nodes.length)).map (· + d.nodes.length) := by
  rw [shadowRoot_eq_links, reading_graftDocument (kindLinks_shift _) rfl]
  split_ifs <;> rw [shadowRoot_eq_links]; rfl

theorem shadowHost_graftDocument {other : Dom} (n : NodeId) : (d.graftDocument other).shadowHost n =
    if n < d.nodes.length then d.shadowHost n
    else (other.shadowHost (n - d.nodes.length)).map (· + d.nodes.length) := by
  rw [shadowHost_eq_links, reading_graftDocument (kindLinks_shift _) rfl]
  split_ifs <;> rw [shadowHost_eq_links]; rfl

theorem shadowInv_graft {other : Dom} (hd : ShadowInv d) (ho : ShadowInv other) : ShadowInv (d.graftDocument other) := by
  have low : ∀ {host root}, d.shadowRoot host = some root → host < d.nodes.length ∧ root < d.nodes.length :=
    fun {host root} h => ⟨tagOf_lt (tagOf_of_shadowRoot h), tagOf_lt (tagOf_of_shadowHost ((hd host root).1 h))⟩
  intro host root
  rw [shadowRoot_graftDocument, shadowHost_graftDocument]
  by_cases hh : host < d.nodes.length
  · rw [if_pos hh]
    by_cases hr : root < d.nodes.length
    · rw [if_pos hr]; exact hd host root
    · rw [if_neg hr]
      constructor
      · exact fun h => absurd (low h).2 hr
      · intro h
        obtain ⟨m, -, rfl⟩ := Option.map_eq_some_iff.1 h
        exact absurd hh (shifted_not_lt m _)
  · rw [if_neg hh]
    obtain ⟨m, rfl⟩ := exists_eq_add hh
    by_cases hr : root < d.nodes.length
    · rw [if_pos hr]
      constructor
      · intro h
        obtain ⟨q, -, rfl⟩ := Option.map_eq_some_iff.1 h
        exact absurd hr (shifted_not_lt q _)
      · exact fun h => absurd (low ((hd _ root).2 h)).1 hh
    · rw [if_neg hr]
      obtain ⟨q, rfl⟩ := exists_eq_add hr
      have hinj : ∀ {o : Option NodeId} {a : NodeId},
          o.map (· + d.nodes.length) = some (a + d.nodes.length) ↔ o = some a := by
        intro o a
        cases o <;> simp
      rw [Nat.add_sub_cancel, Nat.add_sub_cancel, hinj, hinj]
      exact ho m q

theorem shadowInv_reachable (hd : Reachable d) : ShadowInv d := by
  refine shadow_kept.reachable (fun host root => ?_) (fun _ _ => shadowInv_graft) hd
  have hnew : ∀ n, Dom.new.reading kindLinks (none, none) n = (none, none) := reading_new rfl
  rw [shadowRoot_eq_links, shadowHost_eq_links, hnew, hnew]
  simp

end Dom

end Render
