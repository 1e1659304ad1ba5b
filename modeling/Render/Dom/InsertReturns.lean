/-
When `insert_before` returns, and what it leaves.

The checks of an insertion look for the node above its new parent along `parent` only. A node with a shadow tree can so be put
into that tree, and the links then run in a circle. The insertion itself goes through, but the record that it makes asks whether
the focused area is connected: when the focused area lies in the circle or leads to it, that walk does not end (`FocusTrap`).

Everything else is as the interface says: an error leaves the DOM as it was, and an insertion puts the nodes in front of the
reference (`insertBefore_returns_iff`).
-/
import Render.Dom.HostRuns

namespace Render

open Render.Core

namespace Dom

variable {d d' : Dom} {parent n : NodeId} {reference eff : Option NodeId}

/-! ## The focused area -/

theorem focusedArea_detachWithoutRevision (n : NodeId) : (d.detachWithoutRevision n).focusedArea = d.focusedArea := by
  unfold detachWithoutRevision
  split
  · rfl
  · dsimp only
    split_ifs
    · rfl
    · split <;> rfl

theorem focusedArea_detachAll (l : List NodeId) (d : Dom) : (d.detachAll l).focusedArea = d.focusedArea := by
  unfold detachAll
  induction l generalizing d with
  | nil => rfl
  | cons n l ih => exact (ih _).trans (focusedArea_detachWithoutRevision n)

theorem focusedArea_shiftForInsert (parent : NodeId) (reference : Option NodeId) (count : ℕ) :
    (d.shiftForInsert parent reference count).focusedArea = d.focusedArea := by
  unfold shiftForInsert
  split
  · split_ifs <;> rfl
  · rfl

theorem focusedArea_readied (parent n : NodeId) (eff : Option NodeId) :
    (d.readied parent n eff).focusedArea = d.focusedArea := by
  unfold readied
  rw [focusedArea_detachAll, focusedArea_shiftForInsert]
  split_ifs
  · exact focusedArea_detachAll _ d
  · rfl

theorem focusedArea_insertChildren (parent : NodeId) (i : ℕ) (l : List NodeId) (d : Dom) :
    (d.insertChildren parent i l).focusedArea = d.focusedArea := by
  induction l generalizing d i with
  | nil => rfl
  | cons n l ih => exact ih (i + 1) (d.insertChild parent i n)

/-- the focused area is not touched before the record -/
theorem InsertRun.focusedArea {i : ℕ} {adopted : Dom} (h : InsertRun d d' parent n reference eff i adopted) :
    (adopted.insertChildren parent i (d.insertionNodes n)).focusedArea = d.focusedArea := by
  rw [focusedArea_insertChildren, h.owners.rest]
  exact focusedArea_readied parent n eff

/-! ## The walk that the record makes -/

/-- the inserted nodes lead to the parent now, and all others where they led -/
theorem shadowIncludingParent_inserted {l : List NodeId} (hin : Inserted d d' parent eff l) {c : NodeId} (hc : c ∉ l) :
    d'.shadowIncludingParent c = d.shadowIncludingParent c := by
  unfold shadowIncludingParent
  rw [hin.parent_out c hc, (SameHosts.of_kindOf hin.kindOf).host]

theorem ends_inserted_iff (h : HostInv d) {l : List NodeId} (hin : Inserted d d' parent eff l) (a : NodeId) :
    Ends d'.shadowIncludingParent a ↔ ¬ ((∃ c ∈ l, d.Includes c a) ∧ ∃ c ∈ l, d.Includes c parent) :=
  ends_redirect_iff (fun c hc => shadowIncludingParent_of_parent (hin.parent_in c hc))
    (fun _ hc => shadowIncludingParent_inserted hin hc) h.acyclic a

/-- what makes an insertion go round: some inserted node includes the parent and some the focused area -/
def FocusCaught (d : Dom) (parent n : NodeId) : Prop :=
  ∃ a, d.focusedArea = some a ∧ (∃ c ∈ d.insertionNodes n, d.Includes c a) ∧ ∃ c ∈ d.insertionNodes n, d.Includes c parent

/-- **When an accepted insertion returns.** -/
theorem HostInv.accepted_returns_iff (h : HostInv d) (hc : d.preInsertChecks parent n reference = .ok eff) :
    (∃ r d', insertBefore parent n reference d = some (r, d')) ↔ ¬ d.FocusCaught parent n := by
  by_cases hne : d.insertionNodes n = []
  · refine ⟨fun _ => ?_, fun _ => ⟨_, _, insertBefore_nothing h.tree.forest hc hne⟩⟩
    rintro ⟨_, _, ⟨c, hmem, _⟩, _⟩
    rw [hne] at hmem
    cases hmem
  · obtain ⟨i, adopted, hrun, hresult⟩ := h.insertBefore_record hc hne
    have hin := hrun.inserted h.tree
    have hrecords : d.insertionRecords parent n ≠ [] := List.append_ne_nil_of_right_ne_nil _ (List.cons_ne_nil _ _)
    have hrecord := recordMutationsIn_returns_iff hin.treeInv hrecords
    rw [hrun.focusedArea] at hrecord
    rw [hresult]
    constructor
    · rintro ⟨r, d', hmap⟩ ⟨a, hfocus, hcaught⟩
      obtain ⟨d'', hrec, -⟩ := Option.map_eq_some_iff.1 hmap
      exact (ends_inserted_iff h hin a).1 (hrecord.1 ⟨d'', hrec⟩ a hfocus) hcaught
    · intro hfree
      obtain ⟨d', hrec⟩ := hrecord.2 fun a hfocus => (ends_inserted_iff h hin a).2 fun hcaught => hfree ⟨a, hfocus, hcaught⟩
      exact ⟨.ok n, d', by rw [hrec]; rfl⟩

/-! ## Where the nodes are put -/

/-- the moved nodes stand together among the children that are left, in front of the reference -/
theorem candidateChildren_split {existing l : List NodeId} {reference : Option NodeId}
    (hreference : ∀ r, reference = some r → r ∈ existing ∧ r ∉ l) :
    ∃ before after, existing.filter (· ∉ l) = before ++ after ∧ after.head? = reference ∧
      candidateChildren existing l reference = before ++ l ++ after := by
  have hleft : (existing.filter fun c => !l.contains c) = existing.filter (· ∉ l) :=
    List.filter_congr fun c _ => by simp
  unfold candidateChildren
  dsimp only
  rw [hleft]
  cases reference with
  | none => exact ⟨_, [], (List.append_nil _).symm, rfl, by dsimp only; rw [List.take_length, List.drop_length]⟩
  | some r =>
    obtain ⟨hmem, hout⟩ := hreference r rfl
    have hr : r ∈ existing.filter (· ∉ l) := List.mem_filter.2 ⟨hmem, by simpa using hout⟩
    dsimp only
    cases hindex : (existing.filter (· ∉ l)).idxOf? r with
    | none => exact absurd hr (List.idxOf?_eq_none_iff.1 hindex)
    | some i =>
      obtain ⟨hlt, hget, -⟩ := List.idxOf?_eq_some_iff.1 hindex
      refine ⟨_, _, (List.take_append_drop i _).symm, ?_, rfl⟩
      rw [List.head?_drop, List.getElem?_eq_getElem hlt, hget]

/-- the reference of an insertion: the next sibling of the node when the node itself is named -/
def insertionReference (d : Dom) (n : NodeId) (reference : Option NodeId) : Option NodeId :=
  if reference = some n then d.nextSibling n else reference

/-- the moved nodes are in front of the reference, and all other child lists have only lost them -/
structure Placed (d d' : Dom) (parent n : NodeId) (reference : Option NodeId) : Prop where
  children : ∃ before after, (d.childrenOf parent).filter (· ∉ d.insertionNodes n) = before ++ after ∧
    after.head? = d.insertionReference n reference ∧ d'.childrenOf parent = before ++ d.insertionNodes n ++ after
  others : ∀ q, q ≠ parent → d'.childrenOf q = (d.childrenOf q).filter (· ∉ d.insertionNodes n)

/-- an error that changed nothing, or the node, put in its place -/
def InsertOutcome (d d' : Dom) (parent n : NodeId) (reference : Option NodeId) (r : Except DomError NodeId) : Prop :=
  (∃ e, r = .error e ∧ d' = d) ∨ (r = .ok n ∧ Placed d d' parent n reference)

theorem InsertionValid.split (hd : TreeInv d) (h : InsertionValid d parent n reference eff) :
    ∃ before after, (d.childrenOf parent).filter (· ∉ d.insertionNodes n) = before ++ after ∧
      after.head? = d.insertionReference n reference ∧
      candidateChildren (d.childrenOf parent) (d.insertionNodes n) eff = before ++ d.insertionNodes n ++ after := by
  have heff : ∀ r, eff = some r → r ∈ d.childrenOf parent ∧ r ∉ d.insertionNodes n := fun r hr =>
    ⟨hd.mem_children.2 (h.effective_spec hd hr).1, (h.effective_spec hd hr).2⟩
  obtain ⟨before, after, hleft, hhead, hsplit⟩ := candidateChildren_split heff
  exact ⟨before, after, hleft, hhead.trans h.effEq, hsplit⟩

/-- **What an insertion that returns has done.** -/
theorem insertBefore_outcome (hd : TreeInv d) {r : Except DomError NodeId}
    (h : insertBefore parent n reference d = some (r, d')) : InsertOutcome d d' parent n reference r := by
  cases hc : d.preInsertChecks parent n reference with
  | error e =>
    rw [insertBefore_refused hc] at h
    obtain ⟨rfl, rfl⟩ := Prod.mk.inj (Option.some.inj h)
    exact Or.inl ⟨e, rfl, rfl⟩
  | ok eff =>
    obtain ⟨before, after, hleft, hhead, hsplit⟩ := (preInsertChecks_ok hd.forest hc).split hd
    rcases insertBefore_cases hd h with herror | ⟨rfl, hne, rfl⟩ | ⟨rfl, _, eff', i, adopted, hrun⟩
    · exact Or.inl herror
    · refine Or.inr ⟨rfl, ⟨before, after, hleft, hhead, ?_⟩, fun q _ => ?_⟩
      · rw [hne] at hleft ⊢
        rw [List.append_nil, ← hleft]
        exact (List.filter_eq_self.2 fun c _ => by simp).symm
      · rw [hne]
        exact (List.filter_eq_self.2 fun c _ => by simp).symm
    · obtain ⟨before, after, hleft, hhead, hsplit⟩ := hrun.valid.split hd
      have hin := hrun.inserted hd
      exact Or.inr ⟨rfl, ⟨before, after, hleft, hhead, hin.children_at.trans hsplit⟩, hin.children_out⟩

/-! ## The calls that go round -/

/-- a call that puts a node into a shadow tree inside it, around the focused area: the node may stand in front of the reference,
is not above its new parent, and includes both the parent and the focused area across shadow roots -/
structure FocusTrap (d : Dom) (parent n : NodeId) (reference : Option NodeId) : Prop where
  kinds : ∃ tp, d.tagOf parent = some tp ∧ tp.mayBeParent = true ∧
    ∀ c ∈ d.insertionNodes n, ∃ tc, d.tagOf c = some tc ∧ tp.mayHold tc = true
  reference : ∀ r, reference = some r → d.parent r = some parent
  notAbove : ¬ d.links.Above n parent
  caught : d.FocusCaught parent n

theorem includes_insertionNodes (hd : TreeInv d) {c : NodeId} (hc : c ∈ d.insertionNodes n) : d.Includes n c := by
  unfold insertionNodes at hc
  split_ifs at hc
  · exact Up.single (shadowIncludingParent_of_parent (hd.mem_children.1 hc))
  · rw [List.mem_singleton.1 hc]
    exact Includes.refl n

/-- the checks accept such a call -/
theorem FocusTrap.accepted (h : HostInv d) (htrap : FocusTrap d parent n reference) :
    d.preInsertChecks parent n reference = .ok reference := by
  obtain ⟨tp, hp, hparent, hnodes⟩ := htrap.kinds
  obtain ⟨a, _, _, c, hc, hcp⟩ := htrap.caught
  have hinc : d.Includes n parent := (includes_insertionNodes h.tree hc).trans hcp
  refine preInsertChecks_of h.tree hp hparent ?_ (fun r hr => ⟨htrap.reference r hr, ?_⟩) htrap.notAbove hnodes ?_
  · by_cases hfrag : d.tagOf n = some .documentFragment
    · exact ⟨_, hfrag⟩
    · obtain ⟨t, ht, _⟩ := hnodes n (by rw [insertionNodes, if_neg hfrag]; exact List.mem_singleton.2 rfl)
      exact ⟨t, ht⟩
  · -- a child of the parent does not include it
    rintro rfl
    exact (h.acyclic r).irrefl (shadowIncludingParent_of_parent (htrap.reference r hr)) hinc
  · -- a document lies inside nothing
    rintro rfl
    have htop : d.shadowIncludingParent parent = none := by
      by_contra hne
      obtain ⟨q, hq⟩ := Option.ne_none_iff_exists'.1 hne
      rcases shadowIncludingParent_cases hq with hq | ⟨-, hq⟩
      · obtain ⟨tc, tq, htc, -, hholds⟩ := h.tree.kinds parent q hq
        rw [hp] at htc
        obtain rfl := Option.some.inj htc
        cases tq <;> cases hholds
      · rw [tagOf_of_shadowHost hq] at hp
        cases hp
    obtain rfl := Up.eq_of_none hcp htop
    obtain ⟨tc, htc, hholds⟩ := hnodes c hc
    rw [hp] at htc
    obtain rfl := Option.some.inj htc
    cases hholds

/-- only such a call is accepted and goes round -/
theorem focusTrap_of_accepted (h : HostInv d) (hc : d.preInsertChecks parent n reference = .ok eff)
    (hcaught : d.FocusCaught parent n) : FocusTrap d parent n reference := by
  have hv := preInsertChecks_ok h.tree.forest hc
  obtain ⟨tp, hp, hparent⟩ := hv.parentTag
  refine ⟨⟨tp, hp, ?_, fun c hmem => ?_⟩, hv.referenceParent, hv.notAbove, hcaught⟩
  · rcases hparent with rfl | rfl | rfl | rfl <;> rfl
  · obtain ⟨-, tc, tp', htc, htp, hholds⟩ := hv.nodes c hmem
    rw [hp] at htp
    obtain rfl := Option.some.inj htp
    exact ⟨tc, htc, hholds⟩

/-- **`insert_before` returns and does what it should, unless the call is a trap.** In a host-including tree without cycles, for
every parent, node and reference. -/
theorem insertBefore_returns_iff (h : HostInv d) (parent n : NodeId) (reference : Option NodeId) :
    (∃ r d', insertBefore parent n reference d = some (r, d') ∧ InsertOutcome d d' parent n reference r) ↔
      ¬ FocusTrap d parent n reference := by
  constructor
  · rintro ⟨r, d', hrun, -⟩ htrap
    exact (h.accepted_returns_iff (htrap.accepted h)).1 ⟨r, d', hrun⟩ htrap.caught
  · intro hfree
    obtain ⟨r, d', hrun⟩ : ∃ r d', insertBefore parent n reference d = some (r, d') := by
      cases hc : d.preInsertChecks parent n reference with
      | error e => exact ⟨_, _, insertBefore_refused hc⟩
      | ok eff => exact (h.accepted_returns_iff hc).2 fun hcaught => hfree (focusTrap_of_accepted h hc hcaught)
    exact ⟨r, d', hrun, insertBefore_outcome h.tree hrun⟩

end Dom

/-- a node moved to the end of a shadow tree -/
theorem insertBefore_returns_sample : ∃ d, runChecked leafEdit sampleHostOps Dom.new = some d ∧
    ∃ r d', insertBefore 4 5 none d = some (r, d') ∧ Dom.InsertOutcome d d' 4 5 none r := by
  obtain ⟨d, hd⟩ : ∃ d, runChecked leafEdit sampleHostOps Dom.new = some d := Option.isSome_iff_exists.1 (by decide)
  have hfocus : (runChecked leafEdit sampleHostOps Dom.new).map Dom.focusedArea = some none := by decide
  rw [hd, Option.map_some, Option.some.injEq] at hfocus
  refine ⟨d, hd, (Dom.insertBefore_returns_iff (hostInv_leafEdits hd) 4 5 none).2 fun htrap => ?_⟩
  obtain ⟨a, ha, -⟩ := htrap.caught
  rw [hfocus] at ha
  cases ha

/-- a div with a button in it and a shadow tree -/
def sampleHostWithButton : List Op :=
  [.createElement "div", .createElement "button", .appendChild 0 1, .appendChild 1 2, .attachShadow 1 .open_ false .named]

/-- **`insert_before` does not return** when the div is put into its own shadow tree while the button has the focus. -/
theorem insertBefore_goes_round : ¬ ∀ (d : Dom), d.HostInv → ∀ (parent n : NodeId) (reference : Option NodeId),
    ∃ r d', insertBefore parent n reference d = some (r, d') ∧ Dom.InsertOutcome d d' parent n reference r := by
  intro hall
  have hnone : (runChecked leafEdit sampleHostWithButton Dom.new).map (fun d =>
      (insertBefore 3 1 none { d with focusedArea := some 2 }).isNone) = some true := by decide
  obtain ⟨d, hd, hnone⟩ := Option.map_eq_some_iff.1 hnone
  obtain ⟨r, d', hrun, -⟩ := hall { d with focusedArea := some 2 } ((hostInv_leafEdits hd).nodes_same rfl) 3 1 none
  rw [hrun] at hnone
  cases hnone

end Render
