/-
Slots and the flat tree (`render-dom/src/shadow.rs`) of a reachable DOM.

A slottable is assigned at most one slot, since it is a child of one host and a host has one shadow root. From that:
no node is in the flat tree twice (`flatTree_unique`), and `assigned_slot` and `assigned_nodes` agree.
-/
import Render.Dom.ShadowTree

namespace Render

open Render.Core Render.Core.Comp

namespace Dom

variable {d : Dom}

/-! ## Assignment -/

theorem mem_slotAssignments {root x slot : NodeId} :
    (x, slot) ∈ d.slotAssignments root ↔ ∃ data, d.shadowRootData root = some data ∧ x ∈ d.childrenOf data.host ∧
      d.isSlottable x = true ∧ d.slotFor data.slotAssignment (d.slotsInTree root) x = some slot := by
  unfold slotAssignments
  cases d.shadowRootData root with
  | none => simp
  | some data =>
    simp only [List.mem_filterMap, List.mem_filter, Option.map_eq_some_iff, Prod.mk.injEq, Option.some.injEq,
      exists_eq_left']
    constructor
    · rintro ⟨child, ⟨hc, hs⟩, slot', hslot, rfl, rfl⟩; exact ⟨hc, hs, hslot⟩
    · rintro ⟨hc, hs, hslot⟩; exact ⟨x, ⟨hc, hs⟩, slot, hslot, rfl, rfl⟩

/-- a slottable has one slot in the assignment of a shadow tree -/
theorem slotAssignments_functional {root x slot slot' : NodeId} (h : (x, slot) ∈ d.slotAssignments root)
    (h' : (x, slot') ∈ d.slotAssignments root) : slot = slot' := by
  obtain ⟨data, hd, -, -, hs⟩ := mem_slotAssignments.1 h
  obtain ⟨data', hd', -, -, hs'⟩ := mem_slotAssignments.1 h'
  rw [hd] at hd'
  obtain rfl := Option.some.inj hd'
  rw [hs] at hs'
  exact Option.some.inj hs'

theorem slotFor_mem {mode : SlotAssignmentMode} {slots : List NodeId} {x slot : NodeId}
    (h : d.slotFor mode slots x = some slot) : slot ∈ slots := by
  cases mode <;> exact List.mem_of_find?_eq_some h

theorem nodup_slotAssignments (hd : TreeInv d) (root : NodeId) : ((d.slotAssignments root).map Prod.fst).Nodup := by
  unfold slotAssignments
  cases d.shadowRootData root with
  | none => exact List.nodup_nil
  | some data =>
    rw [List.map_filterMap]
    refine (((hd.forest.nodup data.host).filter _).filterMap fun a b x ha hb => ?_)
    simp only [Option.mem_def, Option.map_map, Option.map_eq_some_iff, Function.comp_apply] at ha hb
    obtain ⟨_, -, rfl⟩ := ha
    obtain ⟨_, -, hb⟩ := hb
    exact hb.symm

/-- a slot of a shadow tree has the shadow root above it -/
theorem treeRoot_of_mem_slotsInTree (hd : TreeInv d) {host root slot : NodeId} (hr : d.shadowHost root = some host)
    (hs : slot ∈ d.slotsInTree root) : d.treeRoot slot = root := by
  have ha := hd.above_of_mem_descendants (List.mem_filter.1 hs).1
  exact (eq_treeRoot hd.ends ha (parent_of_shadowHost hd hr)).symm

theorem mem_directlyAssigned {x slot : NodeId} :
    x ∈ d.directlyAssigned slot ↔ (x, slot) ∈ d.slotAssignments (d.treeRoot slot) := by
  unfold directlyAssigned
  dsimp only
  cases hr : d.shadowRootData (d.treeRoot slot) with
  | none => unfold slotAssignments; rw [hr]; simp
  | some data => simp

/-- what is assigned to a slot is a child of the host of the slot's shadow tree -/
theorem parent_of_mem_directlyAssigned (hd : TreeInv d) {x slot : NodeId} (h : x ∈ d.directlyAssigned slot) :
    ∃ host, d.shadowHost (d.treeRoot slot) = some host ∧ d.parent x = some host := by
  obtain ⟨data, hdata, hx, -, -⟩ := mem_slotAssignments.1 (mem_directlyAssigned.1 h)
  exact ⟨data.host, shadowHost_of_data hdata, hd.mem_children.1 hx⟩

/-- `assigned_slot` looks the slottable up in the assignment of its parent's shadow tree -/
theorem assignedSlot_eq_some (hs : ShadowInv d) (hd : TreeInv d) {x slot : NodeId} :
    d.assignedSlot x = some slot ↔ ∃ root, (x, slot) ∈ d.slotAssignments root := by
  unfold assignedSlot
  constructor
  · intro h
    split_ifs at h
    obtain ⟨host, -, h⟩ := Option.bind_eq_some_iff.1 h
    obtain ⟨root, -, h⟩ := Option.bind_eq_some_iff.1 h
    obtain ⟨⟨y, slot'⟩, hf, rfl⟩ := Option.map_eq_some_iff.1 h
    obtain rfl : y = x := by simpa using List.find?_some hf
    exact ⟨root, List.mem_of_find?_eq_some hf⟩
  · rintro ⟨root, h⟩
    obtain ⟨data, hdata, hx, hslottable, -⟩ := mem_slotAssignments.1 h
    have hp : d.parent x = some data.host := hd.mem_children.1 hx
    have hroot : d.shadowRoot data.host = some root := (hs _ _).2 (shadowHost_of_data hdata)
    rw [if_pos hslottable, hp]
    show (d.shadowRoot data.host).bind _ = _
    rw [hroot]
    show ((d.slotAssignments root).find? fun pair => pair.1 == x).map Prod.snd = some slot
    cases hf : (d.slotAssignments root).find? fun pair => pair.1 == x with
    | none => exact absurd (List.find?_eq_none.1 hf _ h) (by simp)
    | some pair =>
      obtain ⟨y, slot'⟩ := pair
      obtain rfl : y = x := by simpa using List.find?_some hf
      rw [slotAssignments_functional (List.mem_of_find?_eq_some hf) h]; rfl

/-- a slottable is assigned to a slot exactly when the slot says so -/
theorem assignedSlot_iff (hs : ShadowInv d) (hd : TreeInv d) {x slot : NodeId} :
    d.assignedSlot x = some slot ↔ x ∈ d.directlyAssigned slot := by
  rw [assignedSlot_eq_some hs hd, mem_directlyAssigned]
  constructor
  · rintro ⟨root, h⟩
    obtain ⟨data, hdata, -, -, hslot⟩ := mem_slotAssignments.1 h
    rw [treeRoot_of_mem_slotsInTree hd (shadowHost_of_data hdata) (slotFor_mem hslot)]
    exact h
  · exact fun h => ⟨_, h⟩

/-! ## The flat tree -/

/-- the three sources of flat children: the shadow root's children, the assigned nodes, and the node's own children -/
theorem mem_flatChildren {n x : NodeId} (h : x ∈ d.flatChildren n) :
    (∃ root, d.shadowRoot n = some root ∧ x ∈ d.childrenOf root) ∨ (d.shadowRoot n = none ∧ x ∈ d.directlyAssigned n) ∨
      (d.shadowRoot n = none ∧ x ∈ d.childrenOf n) := by
  unfold flatChildren at h
  cases hr : d.shadowRoot n with
  | some root => rw [hr] at h; exact Or.inl ⟨root, rfl, h⟩
  | none =>
    rw [hr] at h
    dsimp only at h
    split_ifs at h
    · exact Or.inr (Or.inl ⟨rfl, h⟩)
    · exact Or.inr (Or.inr ⟨rfl, h⟩)

theorem nodup_flatChildren (hd : TreeInv d) (n : NodeId) : (d.flatChildren n).Nodup := by
  unfold flatChildren
  split
  · exact hd.forest.nodup _
  · split_ifs
    · unfold directlyAssigned
      dsimp only
      split_ifs
      · exact List.nodup_nil
      · exact (nodup_slotAssignments hd _).sublist (List.filter_sublist.map _)
    · exact hd.forest.nodup n

/-- the parent of a flat child, seen from the node whose flat child it is: the node's shadow root, the host of the node's
shadow tree, or the node itself when it hosts none -/
theorem parent_of_mem_flatChildren (hd : TreeInv d) (hs : ShadowInv d) {n x : NodeId} (h : x ∈ d.flatChildren n) :
    ∃ p, d.parent x = some p ∧ (d.shadowHost p = some n ∨ (d.shadowRoot p ≠ none ∧ d.assignedSlot x = some n) ∨
      (p = n ∧ d.shadowRoot n = none)) := by
  rcases mem_flatChildren h with ⟨root, hr, hx⟩ | ⟨-, hx⟩ | ⟨hr, hx⟩
  · exact ⟨root, hd.mem_children.1 hx, Or.inl ((hs n root).1 hr)⟩
  · obtain ⟨host, hhost, hp⟩ := parent_of_mem_directlyAssigned hd hx
    refine ⟨host, hp, Or.inr (Or.inl ⟨?_, (assignedSlot_iff hs hd).2 hx⟩)⟩
    rw [(hs _ _).2 hhost]; simp
  · exact ⟨n, hd.mem_children.1 hx, Or.inr (Or.inr ⟨rfl, hr⟩)⟩

/-- a host is an element, so it is no shadow root -/
theorem shadowHost_of_shadowRoot {p : NodeId} (h : d.shadowRoot p ≠ none) : d.shadowHost p = none := by
  obtain ⟨root, hr⟩ := Option.ne_none_iff_exists'.1 h
  obtain ⟨data, hk, -⟩ := shadowRoot_eq_some.1 hr
  rw [shadowHost_eq_links, reading, hk]; rfl

theorem flatChildren_disjoint (hd : TreeInv d) (hs : ShadowInv d) {n m x : NodeId} (hn : d.shadowRootData n = none)
    (hm : d.shadowRootData m = none) (hxn : x ∈ d.flatChildren n) (hxm : x ∈ d.flatChildren m) : n = m := by
  have hhn : d.shadowHost n = none := by unfold shadowHost; rw [hn]; rfl
  have hhm : d.shadowHost m = none := by unfold shadowHost; rw [hm]; rfl
  obtain ⟨p, hp, hcases⟩ := parent_of_mem_flatChildren hd hs hxn
  obtain ⟨q, hq, hcases'⟩ := parent_of_mem_flatChildren hd hs hxm
  rw [hp] at hq
  obtain rfl := Option.some.inj hq
  rcases hcases with h | ⟨hr, h⟩ | ⟨h, hr⟩
  · rcases hcases' with h' | ⟨hr', -⟩ | ⟨h', -⟩
    · rw [h] at h'; exact Option.some.inj h'
    · rw [shadowHost_of_shadowRoot hr'] at h; cases h
    · rw [h', hhm] at h; cases h
  · rcases hcases' with h' | ⟨-, h'⟩ | ⟨h', hr'⟩
    · rw [shadowHost_of_shadowRoot hr] at h'; cases h'
    · rw [h] at h'; exact Option.some.inj h'
    · exact absurd (h' ▸ hr') hr
  · rcases hcases' with h' | ⟨hr', -⟩ | ⟨h', -⟩
    · rw [h, hhn] at h'; cases h'
    · exact absurd (h ▸ hr) hr'
    · exact h.symm.trans h'

end Dom

open Dom

/-- **The flat tree of a reachable DOM.** No result lists a node twice, no node is a flat child of two nodes that are not
shadow roots, and a slot of a shadow tree is the assigned slot of exactly its assigned nodes. -/
theorem flatTree_unique {d : Dom} (hd : Reachable d) :
    (∀ n, (d.flatChildren n).Nodup) ∧
    (∀ n m x, d.shadowRootData n = none → d.shadowRootData m = none → x ∈ d.flatChildren n → x ∈ d.flatChildren m →
      n = m) ∧
    ∀ slot x, d.isSlot slot = true → (d.shadowRootData (d.treeRoot slot)).isSome →
      (d.assignedSlot x = some slot ↔ ∃ assigned, d.assignedNodes slot false = some assigned ∧ x ∈ assigned) := by
  have ht := treeInv_reachable hd
  have hs := shadowInv_reachable hd
  refine ⟨nodup_flatChildren ht, fun n m x hn hm => flatChildren_disjoint ht hs hn hm, fun slot x hslot _ => ?_⟩
  rw [assignedSlot_iff hs ht]
  unfold assignedNodes
  simp [hslot]

/-- a manual shadow tree with two slots: the second `assign` takes the slottable away from the first slot -/
def sampleSlotOps : List Op :=
  [.createElement "div", .createElement "p", .appendChild 1 2, .attachShadow 1 .open_ false .manual,
    .createElement "slot", .createElement "slot", .appendChild 3 4, .appendChild 3 5, .assignSlotNodes 4 [2],
    .assignSlotNodes 5 [2, 2]]

theorem flatTree_unique_sample : ∃ d, runAll sampleSlotOps Dom.new = some d ∧ d.flatChildren 4 = [] ∧
    d.flatChildren 5 = [2] ∧ d.assignedSlot 2 = some 5 := by
  obtain ⟨d, hd⟩ : ∃ d, runAll sampleSlotOps Dom.new = some d := Option.isSome_iff_exists.1 (by decide)
  have h4 : (runAll sampleSlotOps Dom.new).map (fun d => d.flatChildren 4) = some [] := by decide
  have h5 : (runAll sampleSlotOps Dom.new).map (fun d => d.flatChildren 5) = some [2] := by decide
  have hslot : (runAll sampleSlotOps Dom.new).map (fun d => (d.isSlot 5, (d.shadowRootData (d.treeRoot 5)).isSome,
      d.assignedNodes 5 false)) = some (true, true, some [2]) := by decide
  rw [hd] at h4 h5 hslot
  have hslot := Option.some.inj hslot
  simp only [Prod.mk.injEq] at hslot
  refine ⟨d, hd, Option.some.inj h4, Option.some.inj h5, ?_⟩
  exact ((flatTree_unique (Reach.new.runAll hd)).2.2 5 2 hslot.1 hslot.2.1).2 ⟨[2], hslot.2.2, by simp⟩

end Render
