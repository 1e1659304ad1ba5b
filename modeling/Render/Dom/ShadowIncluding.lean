/-
The shadow-including tree (`render-dom/src/shadow.rs`): what the walks that cross from a shadow root to its host answer.

All results here are for a DOM in which these walks end (`Acyclic`). Then `is_shadow_including_inclusive_ancestor`
answers, `shadow_including_root` and `retarget` return, and `retarget` climbs from host to host up to the first tree the
other node lies in.
-/
import Render.Dom.ShadowTree

namespace Render

open Render.Core

namespace Dom

/-- the walk to the parent, or from a shadow root to its host, ends from every node -/
def Acyclic (d : Dom) : Prop := ∀ n, Ends d.shadowIncludingParent n

/-- a is a shadow-including inclusive ancestor of n -/
def Includes (d : Dom) (a n : NodeId) : Prop := Up d.shadowIncludingParent n a

/-- the host of the shadow tree a node is in: one step of `retarget` -/
def outerHost (d : Dom) (n : NodeId) : Option NodeId := d.shadowHost (d.treeRoot n)

variable {d : Dom}

/-! ## One step up -/

theorem shadowIncludingParent_of_parent {n p : NodeId} (h : d.parent n = some p) : d.shadowIncludingParent n = some p := by
  unfold shadowIncludingParent; rw [h]; rfl

theorem shadowIncludingParent_of_host (hd : TreeInv d) {n host : NodeId} (h : d.shadowHost n = some host) :
    d.shadowIncludingParent n = some host := by
  unfold shadowIncludingParent
  rw [parent_of_shadowHost hd h, h]; rfl

theorem shadowIncludingParent_cases {n p : NodeId} (h : d.shadowIncludingParent n = some p) :
    d.parent n = some p ∨ (d.parent n = none ∧ d.shadowHost n = some p) := by
  unfold shadowIncludingParent at h
  cases hp : d.parent n with
  | none => rw [hp, Option.none_or] at h; exact Or.inr ⟨rfl, h⟩
  | some q => rw [hp] at h; exact Or.inl h

theorem shadowIncludingParent_lt {n p : NodeId} (h : d.shadowIncludingParent n = some p) : n < d.nodes.length := by
  rcases shadowIncludingParent_cases h with h | ⟨-, h⟩
  · exact parent_lt h
  · exact tagOf_lt (tagOf_of_shadowHost h)

theorem Includes.refl (n : NodeId) : d.Includes n n := Up.refl n

theorem Includes.trans {a b c : NodeId} (h : d.Includes a b) (h' : d.Includes b c) : d.Includes a c := Up.trans h' h

theorem includes_of_above {a n : NodeId} (h : d.links.Above a n) : d.Includes a n :=
  Up.mono (fun _ _ => shadowIncludingParent_of_parent) h

theorem includes_treeRoot (hd : TreeInv d) (n : NodeId) : d.Includes (d.treeRoot n) n :=
  includes_of_above (treeRoot_spec hd.ends n).2

theorem includes_host (hd : TreeInv d) {root host : NodeId} (h : d.shadowHost root = some host) : d.Includes host root :=
  Up.single (shadowIncludingParent_of_host hd h)

/-- a shadow root does not include its host -/
theorem Acyclic.not_includes_host (hac : d.Acyclic) (hd : TreeInv d) {root host : NodeId}
    (h : d.shadowHost root = some host) : ¬ d.Includes root host :=
  (hac root).irrefl (shadowIncludingParent_of_host hd h)

/-- an arena whose walks end within their passes is acyclic -/
theorem acyclic_of_walks (h : ∀ n < d.nodes.length, (walk d.shadowIncludingParent d.passes n).isSome) : d.Acyclic := by
  intro n
  by_cases hn : n < d.nodes.length
  · obtain ⟨l, hl⟩ := Option.isSome_iff_exists.1 (h n hn)
    exact walk_ends hl
  · refine Ends.stop ?_
    by_contra hne
    obtain ⟨p, hp⟩ := Option.ne_none_iff_exists'.1 hne
    exact hn (shadowIncludingParent_lt hp)

/-! ## Walks that return -/

theorem walk_shadowIncluding (hac : d.Acyclic) (n : NodeId) : ∃ l, walk d.shadowIncludingParent d.passes n = some l :=
  walk_enough (Finset.range d.nodes.length) (fun _ _ h => Finset.mem_range.2 (shadowIncludingParent_lt h)) (hac n)
    (by simp [passes])

/-- `is_shadow_including_inclusive_ancestor` answers, and its answer is right -/
theorem isShadowIncludingInclusiveAncestor_spec (hac : d.Acyclic) (a n : NodeId) :
    ∃ b, d.isShadowIncludingInclusiveAncestor a n = some b ∧ (b = true ↔ d.Includes a n) := by
  obtain ⟨l, hl⟩ := walk_shadowIncluding hac n
  refine ⟨_, seek_of_walk hl, ?_⟩
  rw [decide_eq_true_iff, mem_walk_iff hl]
  rfl

theorem outerHost_leaps (hd : TreeInv d) {n host : NodeId} (h : d.outerHost n = some host) :
    ∃ c, d.shadowIncludingParent n = some c ∧ Up d.shadowIncludingParent c host := by
  have hup : d.Includes host n := (includes_host hd h).trans (includes_treeRoot hd n)
  rcases Up.cases hup with rfl | hc
  · -- the walk from the root of n to the host does not come back to n
    have hroot : d.treeRoot n = n ∨ d.treeRoot n ≠ n := em _
    rcases hroot with hroot | hroot
    · unfold outerHost at h
      rw [hroot] at h
      exact ⟨n, shadowIncludingParent_of_host hd h, Up.refl n⟩
    · rcases Up.cases (treeRoot_spec hd.ends n).2 with he | ⟨p, hp, hpr⟩
      · exact absurd he.symm hroot
      · refine ⟨p, shadowIncludingParent_of_parent hp, ?_⟩
        exact Up.trans (includes_of_above hpr) (includes_host hd h)
  · exact hc

theorem includes_outerHost (hd : TreeInv d) {n host : NodeId} (h : d.outerHost n = some host) : d.Includes host n :=
  (includes_host hd h).trans (includes_treeRoot hd n)

theorem ends_outerHost (hac : d.Acyclic) (hd : TreeInv d) (n : NodeId) : Ends d.outerHost n :=
  (hac n).of_leaps fun _ _ h => outerHost_leaps hd h

theorem outerHost_lt (hd : TreeInv d) {n host : NodeId} (h : d.outerHost n = some host) : n < d.nodes.length := by
  obtain ⟨c, hc, -⟩ := outerHost_leaps hd h
  exact shadowIncludingParent_lt hc

/-- a chain of hosts goes up -/
theorem includes_of_outer (hd : TreeInv d) {a n : NodeId} (h : Up d.outerHost n a) : d.Includes a n := by
  induction h with
  | refl => exact Includes.refl _
  | tail _ hbc ih => exact (includes_outerHost hd hbc).trans ih

/-- what includes a node is in its tree, or includes the host of its tree -/
theorem includes_cases (hd : TreeInv d) {a n : NodeId} (h : d.Includes a n) :
    d.links.Above a n ∨ ∃ host, d.outerHost n = some host ∧ d.Includes a host := by
  induction h using Relation.ReflTransGen.head_induction_on with
  | refl => exact Or.inl (Links.Above.refl a)
  | head hnm hma ih =>
    rename_i n m
    rcases shadowIncludingParent_cases hnm with hp | ⟨hp, hh⟩
    · have houter : d.outerHost n = d.outerHost m := by unfold outerHost; rw [treeRoot_of_parent hd.ends hp]
      rcases ih with ha | ⟨host, hhost, hinc⟩
      · exact Or.inl (ha.trans (Links.Above.of_parent hp))
      · exact Or.inr ⟨host, houter.trans hhost, hinc⟩
    · refine Or.inr ⟨m, ?_, hma⟩
      unfold outerHost
      rw [treeRoot_of_none hd.ends hp, hh]

/-- a root that includes a node is the root of a host in the node's chain -/
theorem exists_outer_of_includes (hac : d.Acyclic) (hd : TreeInv d) {root n : NodeId} (hroot : d.parent root = none)
    (h : d.Includes root n) : ∃ t, Up d.outerHost n t ∧ d.treeRoot t = root := by
  induction ends_outerHost hac hd n with
  | stop hn =>
    rcases includes_cases hd h with ha | ⟨host, hhost, -⟩
    · exact ⟨_, Up.refl _, (eq_treeRoot hd.ends ha hroot).symm⟩
    · rw [hn] at hhost; cases hhost
  | step hn _ ih =>
    rcases includes_cases hd h with ha | ⟨host, hhost, hinc⟩
    · exact ⟨_, Up.refl _, (eq_treeRoot hd.ends ha hroot).symm⟩
    · rw [hn] at hhost; cases hhost
      obtain ⟨t, ht, he⟩ := ih hinc
      exact ⟨t, ht.head hn, he⟩

/-- the hosts of a chain are in different trees -/
theorem outer_unique (hac : d.Acyclic) (hd : TreeInv d) {n t r : NodeId} (ht : Up d.outerHost n t) (hr : Up d.outerHost n r)
    (h : d.treeRoot t = d.treeRoot r) : t = r := by
  -- going on from one to the other leaves the tree for the host, from which the tree is not met again
  have leaves : ∀ {t r : NodeId}, Up d.outerHost t r → d.treeRoot t = d.treeRoot r → t = r := by
    intro t r htr h
    rcases htr.cases with he | ⟨host, hhost, hup⟩
    · exact he
    · refine absurd ?_ (hac.not_includes_host hd hhost)
      rw [h]
      exact (includes_treeRoot hd r).trans (includes_of_outer hd hup)
  rcases ht.comparable hr with hup | hup
  · exact leaves hup h
  · exact (leaves hup h.symm).symm

/-! ## The shadow-including root -/

theorem hostRoot_leaps (hd : TreeInv d) {a b : NodeId} (h : d.hostRoot a = some b) :
    ∃ c, d.shadowIncludingParent a = some c ∧ Up d.shadowIncludingParent c b := by
  obtain ⟨host, hhost, rfl⟩ := Option.map_eq_some_iff.1 h
  exact ⟨host, shadowIncludingParent_of_host hd hhost, includes_treeRoot hd host⟩

/-- from a root, the walk over hosts ends only if the walk over shadow-including parents does -/
theorem ends_of_hostRoot (hd : TreeInv d) {root : NodeId} (hroot : d.parent root = none) (h : Ends d.hostRoot root) :
    Ends d.shadowIncludingParent root := by
  induction h with
  | stop hn =>
    refine Ends.stop ?_
    unfold shadowIncludingParent
    rw [hroot, Option.none_or]
    exact Option.map_eq_none_iff.1 hn
  | step hn _ ih =>
    obtain ⟨host, hhost, rfl⟩ := Option.map_eq_some_iff.1 hn
    have hend := ih (treeRoot_spec hd.ends host).1
    exact Ends.step (shadowIncludingParent_of_host hd hhost) (Up.ends (includes_treeRoot hd host) hend)

theorem shadowIncludingRoot_returns_iff (hd : TreeInv d) (n : NodeId) :
    (∃ root, d.shadowIncludingRoot n = some root) ↔ Ends d.shadowIncludingParent n := by
  constructor
  · rintro ⟨root, h⟩
    obtain ⟨l, hl, -⟩ := Option.bind_eq_some_iff.1 h
    exact Up.ends (includes_treeRoot hd n) (ends_of_hostRoot hd (treeRoot_spec hd.ends n).1 (walk_ends hl))
  · intro h
    obtain ⟨l, hl⟩ := walk_enough (Finset.range d.nodes.length)
      (fun a b (h : d.hostRoot a = some b) => by
        obtain ⟨c, hc, -⟩ := hostRoot_leaps hd h
        exact Finset.mem_range.2 (shadowIncludingParent_lt hc))
      ((h.of_up (includes_treeRoot hd n)).of_leaps fun _ _ h => hostRoot_leaps hd h) (k := d.passes) (by simp [passes])
    obtain ⟨root, hroot, -⟩ := walk_last hl
    unfold shadowIncludingRoot
    rw [hl]
    exact ⟨root, hroot⟩

theorem shadowIncludingRoot_returns (hac : d.Acyclic) (hd : TreeInv d) (n : NodeId) :
    ∃ root, d.shadowIncludingRoot n = some root := (shadowIncludingRoot_returns_iff hd n).2 (hac n)

theorem isConnected_returns_iff (hd : TreeInv d) (n : NodeId) :
    (∃ b, d.isConnected n = some b) ↔ Ends d.shadowIncludingParent n := by
  rw [← shadowIncludingRoot_returns_iff hd]
  unfold isConnected
  constructor
  · rintro ⟨b, h⟩
    obtain ⟨root, hroot, -⟩ := Option.map_eq_some_iff.1 h
    exact ⟨root, hroot⟩
  · rintro ⟨root, hroot⟩
    exact ⟨_, by rw [hroot]; rfl⟩

theorem isConnected_returns (hac : d.Acyclic) (hd : TreeInv d) (n : NodeId) : ∃ b, d.isConnected n = some b :=
  (isConnected_returns_iff hd n).2 (hac n)

/-- **When recording mutations returns.** The focus fixup asks whether the focused node is connected, and nothing else. -/
theorem recordMutationsIn_returns_iff (hd : TreeInv d) {mutations : List MutationKind} (hne : mutations ≠ []) :
    (∃ d', d.recordMutationsIn mutations = some d') ↔
      ∀ a, d.focusedArea = some a → Ends d.shadowIncludingParent a := by
  unfold recordMutationsIn applyFocusFixup
  rw [if_neg fun he => hne (List.isEmpty_iff.1 he)]
  cases hfocus : d.focusedArea with
  | none => exact ⟨fun _ => by rintro a ⟨⟩, fun _ => ⟨_, rfl⟩⟩
  | some n =>
    have hasks : (∃ d', ((d.isFocusableArea n).map fun focusable =>
        if focusable then d else { d with focusedArea := none }).map (·.pushMutations mutations) = some d') ↔
          ∃ b, d.isConnected n = some b := by
      unfold isFocusableArea
      cases d.isConnected n with
      | none => exact ⟨by rintro ⟨_, ⟨⟩⟩, by rintro ⟨_, ⟨⟩⟩⟩
      | some b => exact ⟨fun _ => ⟨b, rfl⟩, fun _ => ⟨_, rfl⟩⟩
    refine hasks.trans ((isConnected_returns_iff hd n).trans ⟨?_, fun h => h n rfl⟩)
    rintro h a ⟨⟩
    exact h

theorem recordMutationsIn_returns (hac : d.Acyclic) (hd : TreeInv d) (mutations : List MutationKind) :
    ∃ d', d.recordMutationsIn mutations = some d' := by
  by_cases hne : mutations = []
  · exact ⟨d, by rw [hne]; rfl⟩
  · exact (recordMutationsIn_returns_iff hd hne).2 fun a _ => hac a

/-! ## Retargeting -/

/-- `other` lies in the tree of n, or in a shadow tree inside it -/
def SeenFrom (d : Dom) (other : Option NodeId) (n : NodeId) : Prop := ∃ o, other = some o ∧ d.Includes (d.treeRoot n) o

theorem retargetFrom_spec (hac : d.Acyclic) (other : Option NodeId) {k : ℕ} {n : NodeId} {l : List NodeId}
    (h : walk d.outerHost k n = some l) :
    ∃ t, d.retargetFrom other k n = some t ∧ Climbs d.outerHost (d.SeenFrom other) n t := by
  induction k generalizing n l with
  | zero => simp [walk] at h
  | succ k ih =>
    unfold retargetFrom
    dsimp only
    cases hh : d.shadowHost (d.treeRoot n) with
    | none => exact ⟨n, rfl, Climbs.top hh⟩
    | some host =>
      rw [walk_succ_some k (show d.outerHost n = some host from hh), Option.map_eq_some_iff] at h
      obtain ⟨t, ht, -⟩ := h
      obtain ⟨c, hc, hclimb⟩ := ih ht
      cases other with
      | none =>
        have hsees : ¬ d.SeenFrom none n := by rintro ⟨o, ho, -⟩; cases ho
        exact ⟨c, hc, Climbs.step hsees hh hclimb⟩
      | some other =>
        obtain ⟨b, hb, hiff⟩ := isShadowIncludingInclusiveAncestor_spec hac (d.treeRoot n) other
        have hsees : d.SeenFrom (some other) n ↔ b = true := by
          rw [hiff]
          constructor
          · intro hsees
            obtain ⟨o, ho, hinc⟩ := hsees
            exact Option.some.inj ho ▸ hinc
          · exact fun hinc => ⟨other, rfl, hinc⟩
        simp only [hb]
        cases b with
        | true => exact ⟨n, rfl, Climbs.here (hsees.2 rfl)⟩
        | false => exact ⟨c, hc, Climbs.step (fun hs => by simpa using hsees.1 hs) hh hclimb⟩

/-- **`retarget` returns**, and climbs from host to host up to the first one whose tree the other node lies in. -/
theorem retarget_eq_some (hac : d.Acyclic) (hd : TreeInv d) {n t : NodeId} {other : Option NodeId} :
    d.retarget n other = some t ↔ Climbs d.outerHost (d.SeenFrom other) n t := by
  obtain ⟨l, hl⟩ := walk_enough (Finset.range d.nodes.length)
    (fun _ _ h => Finset.mem_range.2 (outerHost_lt hd h)) (ends_outerHost hac hd n) (k := d.passes) (by simp [passes])
  obtain ⟨t', ht', hclimb⟩ := retargetFrom_spec hac other hl
  unfold retarget
  rw [ht', Option.some.injEq]
  exact ⟨fun h => h ▸ hclimb, fun h => hclimb.unique h⟩

theorem retarget_returns (hac : d.Acyclic) (hd : TreeInv d) (n : NodeId) (other : Option NodeId) :
    ∃ t, d.retarget n other = some t := by
  obtain ⟨t, ht⟩ : ∃ t, Climbs d.outerHost (d.SeenFrom other) n t := Climbs.exists_of_ends (ends_outerHost hac hd n)
  exact ⟨t, (retarget_eq_some hac hd).2 ht⟩

end Dom

end Render
