/-
Appending a node (`append_child` of `render-dom/src/lib.rs`): when the checks accept it, and what the call leaves.

`preInsertChecks_of` is the converse of `preInsertChecks_ok`. In a host-including tree without cycles the call then returns
(`HostInv.appendChild_total`).
-/
import Render.Dom.HostIncluding

namespace Render

open Render.Core Render.Core.Comp

/-- a node that may have children -/
def NodeTag.mayBeParent : NodeTag → Bool
  | .document | .documentFragment | .shadowRoot | .element => true
  | _ => false

namespace Dom

variable {d d' : Dom} {parent n : NodeId} {tp : NodeTag}

theorem exists_kind {t : NodeTag} (h : d.tagOf n = some t) : ∃ kind, d.kindOf n = some kind ∧ kind.tag = t := by
  unfold tagOf at h
  exact Option.map_eq_some_iff.1 h

theorem requireNode_of_tag {t : NodeTag} (h : d.tagOf n = some t) : d.requireNode n = .ok () := by
  obtain ⟨kind, hk, -⟩ := exists_kind h
  exact requireNode_eq_ok.2 ⟨kind, hk⟩

theorem validateParentKind_of_tag (h : d.tagOf parent = some tp) (hp : tp.mayBeParent = true) :
    d.validateParentKind parent = .ok () := by
  obtain ⟨kind, hk, rfl⟩ := exists_kind h
  unfold validateParentKind
  rw [kind_eq_ok.2 hk]
  cases kind <;> first | rfl | cases hp

theorem validateChildKind_of_tag {child : NodeId} {tc : NodeTag} (h : d.tagOf parent = some tp)
    (hc : d.tagOf child = some tc) (hm : tp.mayHold tc = true) : d.validateChildKind parent child = .ok () := by
  obtain ⟨kp, hkp, rfl⟩ := exists_kind h
  obtain ⟨kc, hkc, rfl⟩ := exists_kind hc
  unfold validateChildKind
  rw [kind_eq_ok.2 hkp, kind_eq_ok.2 hkc]
  cases kc <;> cases kp <;> first | rfl | cases hm

theorem validateInsertionNodes_of (hd : TreeInv d) (h : d.tagOf parent = some tp) {l : List NodeId}
    (hl : ∀ c ∈ l, ¬ d.links.Above c parent ∧ ∃ tc, d.tagOf c = some tc ∧ tp.mayHold tc = true) :
    d.validateInsertionNodes parent l = .ok () := by
  induction l with
  | nil => rfl
  | cons c l ih =>
    obtain ⟨hnot, tc, htc, hm⟩ := hl c List.mem_cons_self
    unfold validateInsertionNodes
    rw [(refuse_eq_ok (u := ())).2 fun ha => hnot ((isInclusiveAncestor_iff hd.ends).1 ha), validateChildKind_of_tag h htc hm]
    exact ih fun c hc => hl c (List.mem_cons_of_mem _ hc)

/-- the scan of a document's children goes through when they are in order; the element and the doctype seen before stand
for the children before index `i` -/
theorem scanDocumentChildren_of {l : List NodeId} {i : ℕ} {seen : Option ℕ × Option ℕ}
    (htags : ∀ c ∈ l, ∃ tc, d.tagOf c = some tc ∧ NodeTag.document.mayHold tc = true) (hord : d.DocumentOrder l)
    (hel : ∀ e, seen.1 = some e → e < i ∧ ∀ c ∈ l, d.tagOf c ≠ some .element ∧ d.tagOf c ≠ some .documentType)
    (hdt : ∀ t, seen.2 = some t → t < i ∧ ∀ c ∈ l, d.tagOf c ≠ some .documentType)
    (hboth : ∀ e t, seen.1 = some e → seen.2 = some t → t < e) :
    ∃ seen', d.scanDocumentChildren i seen l = .ok seen' ∧ ∀ e t, seen' = (some e, some t) → t < e := by
  induction l generalizing i seen with
  | nil => exact ⟨seen, rfl, fun e t he => hboth e t (by rw [he]) (by rw [he])⟩
  | cons c l ih =>
    obtain ⟨tc, htc, hm⟩ := htags c List.mem_cons_self
    obtain ⟨kind, hk, rfl⟩ := exists_kind htc
    obtain ⟨hcl, hord⟩ := List.pairwise_cons.1 hord
    have htags := fun c hc => htags c (List.mem_cons_of_mem _ hc)
    have hel' : ∀ e, seen.1 = some e → e < i + 1 ∧
        ∀ c ∈ l, d.tagOf c ≠ some .element ∧ d.tagOf c ≠ some .documentType := fun e he =>
      ⟨Nat.lt_succ_of_lt (hel e he).1, fun c hc => (hel e he).2 c (List.mem_cons_of_mem _ hc)⟩
    have hdt' : ∀ t, seen.2 = some t → t < i + 1 ∧ ∀ c ∈ l, d.tagOf c ≠ some .documentType := fun t ht =>
      ⟨Nat.lt_succ_of_lt (hdt t ht).1, fun c hc => (hdt t ht).2 c (List.mem_cons_of_mem _ hc)⟩
    unfold scanDocumentChildren
    rw [kind_eq_ok.2 hk]
    cases kind with
    | element data =>
      have hnone : seen.1 = none := by
        by_contra hne
        obtain ⟨e, he⟩ := Option.ne_none_iff_exists'.1 hne
        exact ((hel e he).2 c List.mem_cons_self).1 htc
      rw [hnone]
      refine ih htags hord (fun e he => ?_) hdt' fun e t he ht => ?_
      · obtain rfl := Option.some.inj he
        refine ⟨Nat.lt_succ_self i, fun c' hc' => ⟨fun hcl' => ?_, fun hcl' => ?_⟩⟩ <;>
        · have := hcl c' hc'
          rw [htc, hcl'] at this
          exact this trivial
      · obtain rfl := Option.some.inj he
        exact (hdt t ht).1
    | documentType data =>
      have hnone : seen.2 = none := by
        by_contra hne
        obtain ⟨t, ht⟩ := Option.ne_none_iff_exists'.1 hne
        exact (hdt t ht).2 c List.mem_cons_self htc
      have hnone' : seen.1 = none := by
        by_contra hne
        obtain ⟨e, he⟩ := Option.ne_none_iff_exists'.1 hne
        exact ((hel e he).2 c List.mem_cons_self).2 htc
      rw [hnone]
      refine ih htags hord hel' (fun t ht => ?_) fun e t he _ => by rw [hnone'] at he; cases he
      obtain rfl := Option.some.inj ht
      refine ⟨Nat.lt_succ_self i, fun c' hc' hcl' => ?_⟩
      have := hcl c' hc'
      rw [htc, hcl'] at this
      exact this trivial
    | comment data => exact ih htags hord hel' hdt' hboth
    | processingInstruction target data => exact ih htags hord hel' hdt' hboth
    | document => cases hm
    | documentFragment => cases hm
    | shadowRoot => cases hm
    | text => cases hm

theorem validateDocumentChildren_of {l : List NodeId} {reference : Option NodeId} (h : d.tagOf parent = some tp)
    (hdoc : tp = .document → (∀ c ∈ candidateChildren (d.childrenOf parent) l reference,
        ∃ tc, d.tagOf c = some tc ∧ NodeTag.document.mayHold tc = true) ∧
      d.DocumentOrder (candidateChildren (d.childrenOf parent) l reference)) :
    d.validateDocumentChildren parent l reference = .ok () := by
  obtain ⟨kind, hk, rfl⟩ := exists_kind h
  unfold validateDocumentChildren
  rw [kind_eq_ok.2 hk]
  cases kind <;> try rfl
  obtain ⟨htags, hord⟩ := hdoc rfl
  obtain ⟨seen', hscan, hlt⟩ : ∃ seen', d.scanDocumentChildren 0 (none, none) _ = .ok seen' ∧
      ∀ e t, seen' = (some e, some t) → t < e := scanDocumentChildren_of htags hord nofun nofun nofun
  show ((d.scanDocumentChildren 0 (none, none) _) >>= _) = _
  rw [hscan]
  rcases seen' with ⟨_ | e, _ | t⟩
  · rfl
  · rfl
  · rfl
  · exact refuse_eq_ok.2 (Nat.lt_asymm (hlt e t rfl))

theorem candidateChildren_none (existing l : List NodeId) :
    candidateChildren existing l none = (existing.filter fun c => !l.contains c) ++ l := by
  unfold candidateChildren
  dsimp only
  rw [List.take_length, List.drop_length, List.append_nil]

theorem mem_of_mem_candidateChildren {existing l : List NodeId} {reference : Option NodeId} {c : NodeId}
    (hc : c ∈ candidateChildren existing l reference) : c ∈ existing ∨ c ∈ l := by
  unfold candidateChildren at hc
  dsimp only at hc
  rw [List.mem_append, List.mem_append] at hc
  rcases hc with (hc | hc) | hc
  · exact .inl (List.mem_filter.1 (List.mem_of_mem_take hc)).1
  · exact .inr hc
  · exact .inl (List.mem_filter.1 (List.mem_of_mem_drop hc)).1

/-- **The checks accept a node** whose inserted nodes the parent may hold and which is not above the parent, in front of
another child of the parent. -/
theorem preInsertChecks_of (hd : TreeInv d) {reference : Option NodeId} (hp : d.tagOf parent = some tp)
    (hparent : tp.mayBeParent = true) (hn : ∃ t, d.tagOf n = some t)
    (hreference : ∀ r, reference = some r → d.parent r = some parent ∧ r ≠ n) (hnot : ¬ d.links.Above n parent)
    (hnodes : ∀ c ∈ d.insertionNodes n, ∃ tc, d.tagOf c = some tc ∧ tp.mayHold tc = true)
    (hdoc : tp = .document → d.DocumentOrder (candidateChildren (d.childrenOf parent) (d.insertionNodes n) reference)) :
    d.preInsertChecks parent n reference = .ok reference := by
  obtain ⟨t, ht⟩ := hn
  obtain ⟨kind, hk, -⟩ := exists_kind ht
  have habove : ∀ c ∈ d.insertionNodes n, ¬ d.links.Above c parent := by
    intro c hc ha
    unfold insertionNodes at hc
    split_ifs at hc
    · exact hnot (ha.parent_left (hd.mem_children.1 hc))
    · exact hnot (List.mem_singleton.1 hc ▸ ha)
  have hdoc' : tp = .document → (∀ c ∈ candidateChildren (d.childrenOf parent) (d.insertionNodes n) reference,
        ∃ tc, d.tagOf c = some tc ∧ NodeTag.document.mayHold tc = true) ∧
      d.DocumentOrder (candidateChildren (d.childrenOf parent) (d.insertionNodes n) reference) := by
    intro he
    refine ⟨fun c hc => ?_, hdoc he⟩
    rcases mem_of_mem_candidateChildren hc with hc | hc
    · obtain ⟨tc, tp', htc, htp', hm⟩ := hd.kinds c parent (hd.mem_children.1 hc)
      rw [hp, he] at htp'
      obtain rfl := Option.some.inj htp'
      exact ⟨tc, htc, hm⟩
    · exact he ▸ hnodes c hc
  have hself : ¬ (n = parent ∨ d.isInclusiveAncestor n parent) := by
    rintro (rfl | ha)
    · exact hnot (Links.Above.refl _)
    · exact hnot ((isInclusiveAncestor_iff hd.ends).1 ha)
  have hvalid : d.validateReference parent reference = .ok () := by
    cases reference with
    | none => rfl
    | some r =>
      obtain ⟨hr, -⟩ := hreference r rfl
      obtain ⟨tc, -, htc, -⟩ := hd.kinds r parent hr
      show (d.requireNode r >>= fun _ => refuse (d.parent r ≠ some parent) _) = _
      rw [requireNode_of_tag htc]
      exact refuse_eq_ok.2 (not_not.2 hr)
  have hne : reference ≠ some n := fun he => (hreference n he).2 rfl
  unfold preInsertChecks
  rw [requireNode_of_tag hp, requireNode_of_tag ht, hvalid, validateParentKind_of_tag hp hparent,
    (refuse_eq_ok (u := ())).2 hself, kind_eq_ok.2 hk, if_neg hne]
  show (d.validateInsertionNodes parent _ >>= fun _ => d.validateDocumentChildren parent _ reference >>= fun _ =>
    pure reference) = _
  rw [← insertionNodes_eq hk, validateInsertionNodes_of hd hp fun c hc => ⟨habove c hc, hnodes c hc⟩,
    validateDocumentChildren_of hp hdoc']
  rfl

/-- **Appending returns** when the checks accept the node and it does not include the parent. -/
theorem HostInv.appendChild_total (h : HostInv d) (hp : d.tagOf parent = some tp) (hparent : tp.mayBeParent = true)
    (hn : ∃ t, d.tagOf n = some t) (hnot : ¬ d.HostIncludes n parent)
    (hnodes : ∀ c ∈ d.insertionNodes n, ∃ tc, d.tagOf c = some tc ∧ tp.mayHold tc = true)
    (hdoc : tp = .document → d.DocumentOrder (candidateChildren (d.childrenOf parent) (d.insertionNodes n) none)) :
    ∃ d', appendChild parent n d = some (.ok n, d') ∧ HostInv d' ∧
      ((d.insertionNodes n = [] ∧ d' = d) ∨
        (d.insertionNodes n ≠ [] ∧ ∃ i adopted, InsertRun d d' parent n none none i adopted)) :=
  h.insertBefore_total (preInsertChecks_of h.tree hp hparent hn (by rintro r ⟨⟩)
    (fun ha => hnot (HostInv.hostIncludes_of_above ha)) hnodes hdoc) hnot

end Dom

end Render
