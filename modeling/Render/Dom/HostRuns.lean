/-
Runs that keep the host-including tree free of cycles.

`insert_before` refuses a node that is an inclusive ancestor of its new parent, and accepts one that includes the parent
across a shadow root or template contents. A run without such a call (`HostSafe`) keeps `HostInv`, and every walk across
hosts and every clone returns in the states it reaches (`hosts_acyclic`). With one they may go round for ever
(`hosts_cyclic`).
-/
import Render.Dom.Clone

namespace Render

open Render.Core Render.Core.Comp

/-- creating nodes, inserting, removing, and attaching shadow roots -/
def Op.editsTree : Op → Bool
  | .createDocument _ | .createDocumentFragment | .createDocumentType _ _ _ | .createElement _ | .createElementNs _ _
  | .createElementQualified _ _ _ | .createText _ | .createComment _ | .createProcessingInstruction _ _
  | .insertBefore _ _ _ | .appendChild _ _ | .removeChild _ _ | .attachShadow _ _ _ _ => true
  | _ => false

/-- the parent and the node of an insertion -/
def Op.insertion : Op → Option (NodeId × NodeId)
  | .insertBefore parent n _ | .appendChild parent n => some (parent, n)
  | _ => none

namespace Dom

variable {d d' : Dom}

/-- no insertion puts a node into what lies inside it. Inside an ordinary descendant it is refused. -/
def HostSafe (d : Dom) (op : Op) : Prop :=
  op.editsTree = true ∧ ∀ parent n, op.insertion = some (parent, n) → d.HostIncludes n parent → d.links.Above n parent

/-! ## The steps -/

theorem hostInv_allocate {kind : NodeKind} (hk : kind.isPlain) : Keeps HostInv (allocate kind) := by
  intro d r d' h hrun
  obtain ⟨-, rfl⟩ := Prod.mk.inj (Option.some.inj hrun)
  exact h.allocate_plain hk

theorem hostInv_createElementQualified (nameSpace : Namespace) (namePrefix : Option String) (localName : String) :
    Keeps HostInv (createElementQualified nameSpace namePrefix localName) := by
  intro d r d' h hrun
  obtain ⟨copy, e, he, hc⟩ := createElementQualified_total h nameSpace namePrefix localName
  rw [he] at hrun
  obtain ⟨-, rfl⟩ := Prod.mk.inj (Option.some.inj hrun)
  exact hc.host

theorem hostInv_createDocument (contentType : String) : Keeps HostInv (createDocument contentType) := by
  unfold createDocument
  refine Keeps.bind (hostInv_allocate ⟨by decide, by decide⟩) fun document => ?_
  refine Keeps.bind (Keeps.modify fun d h => h.owners (OwnersOnly.setNodeDocument d _ _)) fun _ => ?_
  exact Keeps.bind (Keeps.modify fun d h => h.nodes_same rfl) fun _ => Keeps.pure _

theorem hostInv_step {op : Op} {r : Except DomError Unit} (h : HostInv d) (hsafe : d.HostSafe op)
    (hrun : op.run d = some (r, d')) : HostInv d' := by
  obtain ⟨hedits, hinsert⟩ := hsafe
  -- an operation that does not read the state to be safe
  have keeps : ∀ {α : Type} {m : DomM α} {r : Except DomError Unit}, discard m d = some (r, d') → Keeps HostInv m → HostInv d' :=
    fun hrun hk => Keeps.map _ hk d _ d' h hrun
  have insertion : ∀ {parent n : NodeId} {reference : Option NodeId},
      (d.HostIncludes n parent → d.links.Above n parent) →
      discard (insertBefore parent n reference) d = some (r, d') → HostInv d' := by
    intro parent n reference hsafe hrun
    unfold discard at hrun
    rw [map_run, Option.map_eq_some_iff] at hrun
    obtain ⟨⟨r', e⟩, he, hrun⟩ := hrun
    obtain ⟨-, rfl⟩ := Prod.mk.inj hrun
    exact hostInv_insertBefore h hsafe he
  cases op with
  | createDocument contentType => exact keeps hrun (hostInv_createDocument contentType)
  | createDocumentFragment => exact keeps hrun (hostInv_allocate ⟨by decide, by decide⟩)
  | createDocumentType name publicId systemId => exact keeps hrun (hostInv_allocate ⟨nofun, nofun⟩)
  | createElement localName => exact keeps hrun (hostInv_createElementQualified .html none _)
  | createElementNs nameSpace localName => exact keeps hrun (hostInv_createElementQualified nameSpace none localName)
  | createElementQualified nameSpace namePrefix localName =>
    exact keeps hrun (hostInv_createElementQualified nameSpace namePrefix localName)
  | createText data => exact keeps hrun (hostInv_allocate ⟨nofun, nofun⟩)
  | createComment data => exact keeps hrun (hostInv_allocate ⟨nofun, nofun⟩)
  | createProcessingInstruction target data => exact keeps hrun (hostInv_allocate ⟨nofun, nofun⟩)
  | insertBefore parent n reference => exact insertion (hinsert parent n rfl) hrun
  | appendChild parent n => exact insertion (hinsert parent n rfl) hrun
  | removeChild parent child => exact keeps hrun (hostInv_removeChild parent child)
  | attachShadow host mode delegatesFocus slotAssignment => exact keeps hrun (hostInv_attachShadow _ _ _ _)
  | _ => cases hedits

/-! ## Grafting -/

theorem kindContents_shift (offset : ℕ) (kind : NodeKind) :
    kindContents (kind.shift offset) = (kindContents kind).map (· + offset) := by
  cases kind <;> rfl

theorem hasContents_shift (offset : ℕ) (kind : NodeKind) : (kind.shift offset).HasContents = kind.HasContents := by
  cases kind <;> simp [NodeKind.shift, NodeKind.HasContents]

theorem templateContents_graftDocument {other : Dom} (n : NodeId) : (d.graftDocument other).templateContents n =
    if n < d.nodes.length then d.templateContents n
    else (other.templateContents (n - d.nodes.length)).map (· + d.nodes.length) := by
  rw [templateContents_eq_reading, reading_graftDocument (kindContents_shift _) rfl]
  split_ifs <;> rw [templateContents_eq_reading]

/-- an edge of a grafted arena is one of the first, or one of the second moved by its offset -/
theorem inside_graft {other : Dom} (h : HostInv d) {c p : NodeId} (hi : (d.graftDocument other).Inside c p) :
    (p < d.nodes.length ∧ d.Inside c p) ∨
      ∃ c' p', c = c' + d.nodes.length ∧ p = p' + d.nodes.length ∧ other.Inside c' p' := by
  -- a link that starts at a node of the first arena stays there; one of the second is moved
  have split : ∀ {a b : NodeId} {low high : NodeId → Option NodeId}, (∀ {a b}, low a = some b → b < d.nodes.length) →
      (if a < d.nodes.length then low a else (high (a - d.nodes.length)).map (· + d.nodes.length)) = some b →
      (b < d.nodes.length ∧ a < d.nodes.length ∧ low a = some b) ∨
        ∃ a' b', a = a' + d.nodes.length ∧ b = b' + d.nodes.length ∧ high a' = some b' := by
    intro a b low high hlow hab
    split_ifs at hab with ha
    · exact Or.inl ⟨hlow hab, ha, hab⟩
    · obtain ⟨b', hb', rfl⟩ := Option.map_eq_some_iff.1 hab
      obtain ⟨a', rfl⟩ := exists_eq_add ha
      exact Or.inr ⟨a', b', rfl, rfl, by rwa [Nat.add_sub_cancel] at hb'⟩
  rcases hi with hi | hi | hi
  · rw [parent_graftDocument] at hi
    rcases split (fun hp => (h.inside_lt (Or.inl hp)).2) hi with ⟨hp, -, hi⟩ | ⟨c', p', hc, hp, hi⟩
    · exact Or.inl ⟨hp, Or.inl hi⟩
    · exact Or.inr ⟨c', p', hc, hp, Or.inl hi⟩
  · rw [shadowHost_graftDocument] at hi
    rcases split (fun hp => (h.inside_lt (Or.inr (Or.inl hp))).2) hi with ⟨hp, -, hi⟩ | ⟨c', p', hc, hp, hi⟩
    · exact Or.inl ⟨hp, Or.inr (Or.inl hi)⟩
    · exact Or.inr ⟨c', p', hc, hp, Or.inr (Or.inl hi)⟩
  · rw [templateContents_graftDocument] at hi
    rcases split (fun hp => (h.inside_lt (Or.inr (Or.inr hp))).1) hi with ⟨-, hp, hi⟩ | ⟨p', c', hp, hc, hi⟩
    · exact Or.inl ⟨hp, Or.inr (Or.inr hi)⟩
    · exact Or.inr ⟨c', p', hc, hp, Or.inr (Or.inr hi)⟩

theorem hostInv_graft {other : Dom} (h : HostInv d) (ho : HostInv other) : HostInv (d.graftDocument other) where
  tree := treeInv_graft h.tree ho.tree
  shadow := shadowInv_graft h.shadow ho.shadow
  inward := by
    have low : ∀ p, p < d.nodes.length → Acc (d.graftDocument other).Inside p := by
      intro p
      induction h.inward.apply p with
      | intro p _ ih =>
        refine fun hp => Acc.intro p fun c hc => ?_
        rcases inside_graft h hc with ⟨-, hi⟩ | ⟨c', p', -, rfl, -⟩
        · exact ih c hi (h.inside_lt hi).1
        · exact absurd hp (shifted_not_lt p' _)
    have high : ∀ p, Acc (d.graftDocument other).Inside (p + d.nodes.length) := by
      intro p
      induction ho.inward.apply p with
      | intro p _ ih =>
        refine Acc.intro _ fun c hc => ?_
        rcases inside_graft h hc with ⟨hp, -⟩ | ⟨c', p', rfl, hp, hi⟩
        · exact absurd hp (shifted_not_lt p _)
        · rw [Nat.add_right_cancel hp] at ih
          exact ih c' hi
    refine ⟨fun p => ?_⟩
    by_cases hp : p < d.nodes.length
    · exact low p hp
    · obtain ⟨p', rfl⟩ := exists_eq_add hp
      exact high p'
  contents p f hf := by
    rw [templateContents_graftDocument] at hf
    rw [tagOf_graftDocument]
    split_ifs at hf with hp
    · rw [if_pos (tagOf_lt (h.contents p f hf))]
      exact h.contents p f hf
    · obtain ⟨g, hg, rfl⟩ := Option.map_eq_some_iff.1 hf
      rw [if_neg (shifted_not_lt g _), Nat.add_sub_cancel]
      exact ho.contents _ g hg
  templates n := by
    have hmove : ∀ kind : NodeKind, (kind.shift d.nodes.length).HasContents = id kind.HasContents := hasContents_shift _
    rw [reading_graftDocument hmove rfl]
    split_ifs
    · exact h.templates n
    · exact ho.templates _

theorem templateContents_new (n : NodeId) : Dom.new.templateContents n = none := by
  rw [templateContents_eq_reading]
  exact reading_new rfl n

theorem hostInv_new : HostInv Dom.new where
  tree := treeInv_new
  shadow := shadowInv_reachable Reach.new
  inward := by
    refine ⟨fun p => Acc.intro p fun c hc => ?_⟩
    rcases hc with hc | hc | hc
    · have := parent_lt hc
      obtain rfl : c = 0 := Nat.lt_one_iff.1 this
      cases hc
    · have hnew : Dom.new.reading kindLinks (none, none) c = (none, none) := reading_new rfl c
      rw [shadowHost_eq_links, hnew] at hc
      cases hc
    · rw [templateContents_new] at hc
      cases hc
  contents p f hf := by
    rw [templateContents_new] at hf
    cases hf
  templates n := by
    have hnew : Dom.new.reading NodeKind.HasContents True n = True := reading_new rfl n
    rw [hnew]
    trivial

/-- **Every state a safe run reaches** has a host-including tree without cycles. -/
theorem hostInv_reach (hd : Reach HostSafe d) : HostInv d :=
  Reach.induct hostInv_new (fun _ _ _ _ h hsafe hrun => hostInv_step h hsafe hrun) (fun _ _ => hostInv_graft) hd

/-- `event_path` returns -/
theorem eventPath_returns (h : HostInv d) (target : NodeId) (related : Option NodeId) (composed : Bool) :
    ∃ steps, d.eventPath target related composed = some steps := by
  cases related with
  | none =>
    obtain ⟨steps, hsteps, -⟩ := eventPath_spec h.acyclic h.tree h.shadow target none composed _ nofun fun _ => rfl
    exact ⟨steps, hsteps⟩
  | some r =>
    have hrel : ∀ r', some r = some r' → d.retarget r' (some target) = d.retarget r (some target) := fun r' hr => by
      rw [Option.some.inj hr]
    obtain ⟨steps, hsteps, -⟩ := eventPath_spec h.acyclic h.tree h.shadow target (some r) composed _ hrel nofun
    exact ⟨steps, hsteps⟩

/-- a node that holds nothing may be inserted anywhere -/
theorem above_of_hostIncludes_leaf (h : HostInv d) {parent n : NodeId} (hc : d.childrenOf n = [])
    (hs : d.shadowRoot n = none) (ht : d.templateContents n = none) (ha : d.HostIncludes n parent) :
    d.links.Above n parent := by
  rcases Relation.ReflTransGen.cases_tail ha with rfl | ⟨c, -, hi⟩
  · exact Links.Above.refl _
  · rcases hi with hi | hi | hi
    · rw [← h.tree.mem_children, hc] at hi
      cases hi
    · rw [← h.shadow, hs] at hi
      cases hi
    · rw [ht] at hi
      cases hi

end Dom

/-- **Without cycles across hosts, every walk and every clone returns.** In every state that calls reach which create nodes,
insert, remove and attach shadow roots, and never insert a node into what lies inside it: the walk across hosts ends from
every node, the functions that make it return, a deep clone returns, no host lies inside its own shadow tree, and no
template inside its own contents. -/
theorem hosts_acyclic {d : Dom} (hd : Reach Dom.HostSafe d) :
    (∀ n, Ends d.shadowIncludingParent n ∧ (∃ root, d.shadowIncludingRoot n = some root) ∧
      (∃ b, d.isConnected n = some b) ∧ (∀ a, ∃ b, d.isShadowIncludingInclusiveAncestor a n = some b) ∧
      (∀ other, ∃ t, d.retarget n other = some t) ∧
      (∀ related composed, ∃ steps, d.eventPath n related composed = some steps) ∧
      ∃ r d', cloneNode n true d = some (r, d')) ∧
    (∀ root host a, d.shadowHost root = some host → d.Includes a host → ¬ d.Includes root a) ∧
    ∀ template contents, d.templateContents template = some contents → ¬ d.HostIncludes contents template := by
  have h := Dom.hostInv_reach hd
  refine ⟨fun n => ⟨h.acyclic n, Dom.shadowIncludingRoot_returns h.acyclic h.tree n,
    Dom.isConnected_returns h.acyclic h.tree n, fun a => ?_, Dom.retarget_returns h.acyclic h.tree n,
    Dom.eventPath_returns h n, Dom.cloneNode_returns h n true⟩, fun root host a hhost ha hroot => ?_,
    fun template contents hc => h.not_hostIncludes (Or.inr (Or.inr hc))⟩
  · obtain ⟨b, hb, -⟩ := Dom.isShadowIncludingInclusiveAncestor_spec h.acyclic a n
    exact ⟨b, hb⟩
  · exact h.acyclic.not_includes_host h.tree hhost (hroot.trans ha)

/-- whether a call creates, removes, attaches, or inserts a node that holds nothing -/
def leafEdit (d : Dom) (op : Op) : Bool :=
  op.editsTree && op.insertion.all fun (_, n) =>
    d.childrenOf n == [] && d.shadowRoot n == none && d.templateContents n == none

theorem hostSafe_of_leafEdit {d : Dom} {op : Op} (hd : Reach Dom.HostSafe d) (hleaf : leafEdit d op = true) :
    d.HostSafe op := by
  obtain ⟨hedits, hall⟩ := Bool.and_eq_true_iff.1 hleaf
  refine ⟨hedits, fun parent n hop => ?_⟩
  rw [hop] at hall
  obtain ⟨⟨hc, hs⟩, ht⟩ : (d.childrenOf n = [] ∧ d.shadowRoot n = none) ∧ d.templateContents n = none := by
    simpa using hall
  exact Dom.above_of_hostIncludes_leaf (Dom.hostInv_reach hd) hc hs ht

/-- a run that inserts leaves keeps the host-including tree -/
theorem hostInv_leafEdits {ops : List Op} {d : Dom} (hrun : runChecked leafEdit ops Dom.new = some d) : Dom.HostInv d :=
  Dom.hostInv_reach (Reach.new.runChecked (fun _ _ => hostSafe_of_leafEdit) hrun)

/-- a host with a shadow tree inside the contents of a template -/
def sampleHostOps : List Op :=
  [.createElement "template", .createElement "div", .appendChild 1 3, .attachShadow 3 .open_ false .named,
    .createElement "p", .appendChild 4 5]

theorem hosts_acyclic_sample : ∃ d, runChecked leafEdit sampleHostOps Dom.new = some d ∧
    d.isShadowIncludingInclusiveAncestor 1 5 = some true ∧ Ends d.shadowIncludingParent 5 ∧
    (∃ r d', cloneNode 2 true d = some (r, d')) ∧ ¬ d.HostIncludes 1 2 := by
  obtain ⟨d, hd⟩ : ∃ d, runChecked leafEdit sampleHostOps Dom.new = some d := Option.isSome_iff_exists.1 (by decide)
  obtain ⟨hwalks, -, htemplates⟩ := hosts_acyclic (Reach.new.runChecked (fun _ _ => hostSafe_of_leafEdit) hd)
  have hinc : (runChecked leafEdit sampleHostOps Dom.new).map (fun d =>
      d.isShadowIncludingInclusiveAncestor 1 5) = some (some true) := by decide
  have hcontents : (runChecked leafEdit sampleHostOps Dom.new).map (fun d => d.templateContents 2) = some (some 1) := by
    decide
  rw [hd, Option.map_some, Option.some.injEq] at hinc hcontents
  exact ⟨d, hd, hinc, (hwalks 5).1, (hwalks 2).2.2.2.2.2.2, htemplates 2 1 hcontents⟩

/-- **A deep clone is a second subtree with the same content.** In every state without cycles, and every safe run keeps to
them (`hostInv_reach`), `clone_node` of a node that is no shadow root returns a new node without a parent, with the same
kinds and attributes all the way down, template contents included; every old node keeps its kind, its parent and its
children, and there is no cycle afterwards. -/
theorem cloneNode_faithful {d : Dom} (hd : Dom.HostInv d) {n : NodeId} (hn : n < d.nodes.length)
    (htag : d.tagOf n ≠ some .shadowRoot) :
    ∃ content copy d', cloneNode n true d = some (.ok copy, d') ∧ d.Reads [n] content ∧ d'.Reads [copy] content ∧
      d'.parent copy = none ∧ d.nodes.length ≤ copy ∧ Dom.HostInv d' ∧
      ∀ m < d.nodes.length, d'.kindOf m = d.kindOf m ∧ d'.parent m = d.parent m ∧ d'.childrenOf m = d.childrenOf m := by
  obtain ⟨content, hcontent⟩ := Dom.exists_reads (l := [n]) hd fun m hm => List.mem_singleton.1 hm ▸ hn
  obtain ⟨copy, d', hrun, hcopy⟩ := Dom.cloneNode_total hd hn htag hcontent
  refine ⟨content, copy, d', hrun, hcontent, hcopy.reads, hcopy.parent, hcopy.new, hcopy.host, fun m hm => ?_⟩
  exact ⟨hcopy.later.kindOf m hm, hcopy.later.parent m hm, hcopy.later.children m hm id⟩

/-- the template of the sample is cloned with the shadow host in its contents -/
theorem cloneNode_faithful_sample : ∃ d, runChecked leafEdit sampleHostOps Dom.new = some d ∧
    ∃ content copy d', cloneNode 2 true d = some (.ok copy, d') ∧ d.Reads [2] content ∧ d'.Reads [copy] content := by
  obtain ⟨d, hd⟩ : ∃ d, runChecked leafEdit sampleHostOps Dom.new = some d := Option.isSome_iff_exists.1 (by decide)
  have hnode : (runChecked leafEdit sampleHostOps Dom.new).map (fun d =>
      (decide (2 < d.nodes.length), d.tagOf 2)) = some (true, some .element) := by decide
  rw [hd, Option.map_some, Option.some.injEq, Prod.mk.injEq] at hnode
  have hinv := Dom.hostInv_reach (Reach.new.runChecked (fun _ _ => hostSafe_of_leafEdit) hd)
  obtain ⟨content, copy, d', hrun, hreads, hreads', -⟩ :=
    cloneNode_faithful hinv (of_decide_eq_true hnode.1) (by rw [hnode.2]; decide)
  exact ⟨d, hd, content, copy, d', hrun, hreads, hreads'⟩

/-- a host appended to its own shadow root -/
def sampleHostCycle : List Op := [.createElement "div", .attachShadow 1 .open_ false .named, .appendChild 2 1]

/-- a template appended to its own contents -/
def sampleTemplateCycle : List Op := [.createElement "template", .appendChild 1 2]

theorem Reach.runEdits {ops : List Op} {d : Dom} (hrun : Render.runChecked (fun _ op => op.editsTree) ops Dom.new = some d) :
    Reach (fun _ op => op.editsTree = true) d :=
  Reach.new.runChecked (fun _ _ _ h => h) hrun

/-- **`append_child` accepts both**: a host in its own shadow root, from which the walk across hosts goes round for ever,
and a template in its own contents, of which `clone_node` makes copies of copies. -/
theorem hosts_cyclic :
    (¬ ∀ d, Reach (fun _ op => op.editsTree = true) d → ∀ n, Ends d.shadowIncludingParent n) ∧
    (¬ ∀ d, Reach (fun _ op => op.editsTree = true) d → ∀ n, ∃ r d', cloneNode n true d = some (r, d')) ∧
    ¬ ∀ d, Reach (fun _ op => op.editsTree = true) d →
      ∀ template contents, d.templateContents template = some contents → ¬ d.HostIncludes contents template := by
  obtain ⟨d, hd⟩ : ∃ d, runChecked (fun _ op => op.editsTree) sampleTemplateCycle Dom.new = some d :=
    Option.isSome_iff_exists.1 (by decide)
  refine ⟨fun hall => ?_, fun hall => ?_, fun hall => ?_⟩
  · obtain ⟨e, he⟩ : ∃ e, runChecked (fun _ op => op.editsTree) sampleHostCycle Dom.new = some e :=
      Option.isSome_iff_exists.1 (by decide)
    have hhost : (runChecked (fun _ op => op.editsTree) sampleHostCycle Dom.new).map (fun e =>
        (e.shadowIncludingParent 1, e.shadowIncludingParent 2)) = some (some 2, some 1) := by decide
    rw [he, Option.map_some, Option.some.injEq, Prod.mk.injEq] at hhost
    exact (hall e (Reach.runEdits he) 1).irrefl hhost.1 (Up.single hhost.2)
  · have hclone : (runChecked (fun _ op => op.editsTree) sampleTemplateCycle Dom.new).map (fun d =>
        (cloneNode 2 true d).isNone) = some true := by decide
    obtain ⟨e, he, hnone⟩ := Option.map_eq_some_iff.1 hclone
    obtain ⟨r, e', hrun⟩ := hall e (Reach.runEdits he) 2
    rw [hrun] at hnone
    cases hnone
  · have hinside : (runChecked (fun _ op => op.editsTree) sampleTemplateCycle Dom.new).map (fun d =>
        (d.templateContents 2, d.parent 2)) = some (some 1, some 1) := by decide
    rw [hd, Option.map_some, Option.some.injEq, Prod.mk.injEq] at hinside
    exact hall d (Reach.runEdits hd) 2 1 hinside.1 (Relation.ReflTransGen.single (Or.inl hinside.2))

end Render
