/-
What a node id names never changes (`render-dom/src/lib.rs`: the arena only grows).

Every write of every operation turns the kind of a node into one it may become (`NodeKind.Becomes`), from any DOM on, so
script that holds an id holds the same node for good (`identity_lasts`).
-/
import Render.Dom.ShadowTree

namespace Render

open Render.Core Render.Core.Comp

/-- what stays of a kind: its type, the name of an element, the strings of a document type, the target of an instruction, the
contents of a template, and the data of a shadow root; and the shadow root of an element, once there is one -/
def NodeKind.lasting : NodeKind → NodeKind × Option NodeId
  | .element data =>
    (.element ⟨data.nameSpace, data.namePrefix, data.localName, [], data.templateContents, none, [], none⟩, data.shadowRoot)
  | .text _ => (.text "", none)
  | .comment _ => (.comment "", none)
  | .processingInstruction target _ => (.processingInstruction target "", none)
  | kind => (kind, none)

/-- a node of the first kind may have the second one later -/
def NodeKind.Becomes (kind kind' : NodeKind) : Prop :=
  kind'.lasting.1 = kind.lasting.1 ∧ ∀ root, kind.lasting.2 = some root → kind'.lasting.2 = some root

theorem NodeKind.Becomes.trans {a b c : NodeKind} (hab : a.Becomes b) (hbc : b.Becomes c) : a.Becomes c :=
  ⟨hbc.1.trans hab.1, fun root hroot => hbc.2 root (hab.2 root hroot)⟩

theorem NodeKind.becomes_withData (kind : NodeKind) (value : String) : kind.Becomes (kind.withData value) := by
  cases kind <;> exact ⟨rfl, fun _ h => h⟩

namespace Dom

/-- every node of the first DOM is in the second, and is what it was -/
def Outlives (d d' : Dom) : Prop := ∀ n kind, d.kindOf n = some kind → ∃ kind', d'.kindOf n = some kind' ∧ kind.Becomes kind'

variable {d₀ d d' : Dom}

theorem Outlives.refl (d : Dom) : Outlives d d := fun _ kind h => ⟨kind, h, rfl, fun _ h => h⟩

theorem Outlives.trans (h : Outlives d₀ d) (h' : Outlives d d') : Outlives d₀ d' := by
  intro n kind hk
  obtain ⟨kind₁, hk₁, hbecomes₁⟩ := h n kind hk
  obtain ⟨kind₂, hk₂, hbecomes₂⟩ := h' n kind₁ hk₁
  exact ⟨kind₂, hk₂, hbecomes₁.trans hbecomes₂⟩

theorem Outlives.same (h : Outlives d₀ d) (hk : d'.kindOf = d.kindOf) : Outlives d₀ d' := by
  intro n kind hn
  rw [hk]
  exact h n kind hn

/-- a new node takes an id that no node had -/
theorem Outlives.allocate (h : Outlives d₀ d) (kind : NodeKind) : Outlives d₀ (d.allocateIn kind) := by
  refine h.trans fun n old hn => ⟨old, ?_, rfl, fun _ h => h⟩
  rw [kindOf_allocateIn, if_neg, hn]
  rintro rfl
  rw [kindOf_eq_none.2 le_rfl] at hn
  cases hn

theorem Outlives.modifyNode (h : Outlives d₀ d) (n : NodeId) {f : Node → Node}
    (hf : ∀ x : Node, x.kind.Becomes (f x).kind) :
    Outlives d₀ (d.modifyNode n f) := by
  refine h.trans fun m kind hm => ?_
  rw [kindOf_modifyNode]
  split_ifs with hn
  · obtain ⟨x, hx, rfl⟩ := Option.map_eq_some_iff.1 hm
    rw [hx]
    exact ⟨_, rfl, hf x⟩
  · exact ⟨kind, hm, rfl, fun _ h => h⟩

/-- an element without a shadow root gets one, and keeps it -/
theorem Outlives.attached (h : Outlives d₀ d) {data : ShadowRootData} {element : ElementData}
    (hh : d.kindOf data.host = some (.element element)) (hnone : element.shadowRoot = none) :
    Outlives d₀ (d.attached data) := by
  refine h.trans fun n kind hn => ?_
  have hne : n ≠ d.nodes.length := by
    rintro rfl
    rw [kindOf_eq_none.2 le_rfl] at hn
    cases hn
  rw [kindOf_attached hh, if_neg hne]
  split_ifs with hhost
  · rw [hhost, hh] at hn
    obtain rfl := Option.some.inj hn
    refine ⟨_, rfl, rfl, fun root hroot => ?_⟩
    rw [show element.shadowRoot = some root from hroot] at hnone
    cases hnone
  · exact ⟨kind, hn, rfl, fun _ h => h⟩

theorem outlives_writes (d₀ : Dom) : KeptByWrites (Outlives d₀) where
  tables _ _ _ _ _ _ _ h := h
  allocate _ kind _ h := h.allocate kind
  allocateElement _ data _ h := h.allocate (.element data)
  setNodeDocument _ n document h := h.same (kindOf_setNodeDocument n document)
  setDataText _ n value h := h.modifyNode n fun x => x.kind.becomes_withData value
  modifyElement _ n f hf h := by
    refine h.modifyNode n fun x => ?_
    cases hk : x.kind with
    | element data =>
      dsimp only
      refine ⟨?_, fun root hroot => (hf data).2.1.trans hroot⟩
      simp only [NodeKind.lasting, hf data]
    | _ => exact ⟨by simp only [hk], fun root hroot => by simpa only [hk] using hroot⟩
  adoptSubtree _ _ _ _ h hrun := h.same (ownersOnly_adoptSubtree hrun).kindOf
  recordMutations _ := Keeps.awaitModify fun _ _ h hrun => h.same (kindOf_of_nodes (logOnly_recordMutationsIn hrun).nodes)
  focusedArea _ _ h := h
  journalCapacity d capacity h := h.same (kindOf_of_nodes (nodes_setMutationJournalCapacityIn d capacity))

theorem outlives_kept (d₀ : Dom) : KeptByTree (Outlives d₀) := by
  have hmoves := (outlives_writes d₀).moves (fun _ n h => h.same (kindOf_detachWithoutRevision n))
    fun _ parent i n h => h.same (kindOf_insertChild parent n i)
  refine (outlives_writes d₀).kept hmoves.insertBefore hmoves.removeChild ?_
  intro host mode delegatesFocus slotAssignment d r d' h hrun
  rcases attachShadow_returns hrun with ⟨_, -, rfl⟩ | ⟨data, hk, hnone, -, hrec⟩
  · exact h
  · have hhost : d.kindOf (ShadowRootData.host ⟨host, mode, delegatesFocus, slotAssignment⟩) = some (.element data) := hk
    exact (h.attached hhost hnone).same (kindOf_of_nodes (logOnly_recordMutationsIn hrec).nodes)

theorem Outlives.graft (h : Outlives d₀ d) (other : Dom) : Outlives d₀ (d.graftDocument other) := by
  refine h.trans fun n kind hn => ⟨kind, ?_, rfl, fun _ h => h⟩
  rw [kindOf_graftDocument, if_pos (tagOf_lt (tagOf_eq_some hn)), hn]

end Dom

/-- the states that calls and grafts lead to from a DOM -/
inductive After (d : Dom) : Dom → Prop
  | refl : After d d
  | step {e d' : Dom} {op : Op} {r : Except DomError Unit} : After d e → op.run e = some (r, d') → After d d'
  | graft {e : Dom} (other : Dom) : After d e → After d (e.graftDocument other)

theorem After.runAll {ops : List Op} {d e d' : Dom} (h : After d e) (hrun : runAll ops e = some d') : After d d' := by
  induction ops generalizing e with
  | nil => exact Option.some.inj hrun ▸ h
  | cons op rest ih =>
    obtain ⟨⟨r, u⟩, hu, hrun⟩ := Option.bind_eq_some_iff.1 hrun
    exact ih (h.step hu) hrun

/-- **Ids are for good.** Along every run of calls, refused ones included, and grafts of any arenas, from any DOM: every node
stays in the arena, with its type, the name of an element, the strings of a document type, its target, its template contents
and its shadow data, and a shadow root that was attached stays attached. -/
theorem identity_lasts {d d' : Dom} (h : After d d') :
    d.Outlives d' ∧ ∀ host root, d.shadowRoot host = some root → d'.shadowRoot host = some root := by
  have hlast : d.Outlives d' := by
    induction h with
    | refl => exact Dom.Outlives.refl d
    | step _ hrun ih => exact (Dom.outlives_kept d).op _ _ _ _ ih hrun
    | graft other _ ih => exact ih.graft other
  refine ⟨hlast, fun host root hroot => ?_⟩
  obtain ⟨data, hk, hs⟩ := Dom.shadowRoot_eq_some.1 hroot
  obtain ⟨kind', hk', -, hshadow⟩ := hlast host _ hk
  have hroot' := hshadow root hs
  cases kind' with
  | element data' => exact Dom.shadowRoot_eq_some.2 ⟨data', hk', hroot'⟩
  | _ => cases hroot'

/-- a host is renamed, cloned and moved -/
theorem identity_lasts_sample : ∃ d d', After d d' ∧ d.shadowRoot 1 = some 2 ∧ d'.shadowRoot 1 = some 2 := by
  obtain ⟨d, hd⟩ : ∃ d, runAll [.createElement "div", .attachShadow 1 .open_ false .named] Dom.new = some d :=
    Option.isSome_iff_exists.1 (by decide)
  have hsample : (runAll [.createElement "div", .attachShadow 1 .open_ false .named] Dom.new).map (fun d =>
      (d.shadowRoot 1, (runAll [.setAttribute 1 "id" "a", .cloneNode 1 true, .appendChild 0 1] d).isSome)) =
      some (some 2, true) := by decide
  rw [hd, Option.map_some, Option.some.injEq, Prod.mk.injEq] at hsample
  obtain ⟨d', hd'⟩ := Option.isSome_iff_exists.1 hsample.2
  have hafter : After d d' := After.refl.runAll hd'
  exact ⟨d, d', hafter, hsample.1, (identity_lasts hafter).2 1 2 hsample.1⟩

end Render
