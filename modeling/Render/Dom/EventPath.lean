/-
Event paths (`event_path` of `render-dom/src/shadow.rs`) in a DOM whose shadow-including tree is acyclic.

`event_parent` goes up the flat tree: to the assigned slot, to the host, or to the parent. Every walk along it ends
(`ends_eventParent`), so a path visits no node twice. Along the path the running target is the target retargeted against
the node visited (`Adjusted.retarget`), which is what every listener reads (`eventPath_target`).
-/
import Render.Dom.FlatTree
import Render.Dom.ShadowIncluding

namespace Render

open Render.Core

namespace Dom

variable {d : Dom}

/-! ## One step of a path -/

/-- the walk along `event_parent` -/
def eventNext (d : Dom) (composed : Bool) (target n : NodeId) : Option NodeId := d.eventParent n composed target

/-- a step goes down to a slot of the parent's shadow tree, from a shadow root to its host, or to the parent -/
theorem eventNext_cases (hd : TreeInv d) (hs : ShadowInv d) {composed : Bool} {target n m : NodeId}
    (h : d.eventNext composed target n = some m) :
    (∃ p, d.parent n = some p ∧ d.outerHost m = some p) ∨
      (d.shadowHost n = some m ∧ (composed = true ∨ d.treeRoot target ≠ n)) ∨ d.parent n = some m := by
  unfold eventNext eventParent at h
  cases ha : d.assignedSlot n with
  | some slot =>
    rw [ha] at h
    obtain rfl := Option.some.inj h
    obtain ⟨host, hhost, hp⟩ := parent_of_mem_directlyAssigned hd ((assignedSlot_iff hs hd).1 ha)
    exact Or.inl ⟨host, hp, hhost⟩
  | none =>
    rw [ha] at h
    dsimp only at h
    cases hr : d.shadowRootData n with
    | none => rw [hr] at h; exact Or.inr (Or.inr h)
    | some data =>
      rw [hr] at h
      dsimp only at h
      split_ifs at h with hc
      obtain rfl := Option.some.inj h
      refine Or.inr (Or.inl ⟨shadowHost_of_data hr, ?_⟩)
      cases composed with
      | true => exact Or.inl rfl
      | false => exact Or.inr (by simpa using hc)

/-- a path ends at a root that is no shadow root, or that keeps the event in -/
theorem eventNext_eq_none {composed : Bool} {target n : NodeId} (h : d.eventNext composed target n = none) :
    d.shadowIncludingParent n = none ∨ (composed = false ∧ d.treeRoot target = n) := by
  unfold eventNext eventParent at h
  cases ha : d.assignedSlot n with
  | some slot => rw [ha] at h; cases h
  | none =>
    rw [ha] at h
    dsimp only at h
    cases hr : d.shadowRootData n with
    | none =>
      rw [hr] at h
      left
      unfold shadowIncludingParent shadowHost
      rw [show d.parent n = none from h, hr]; rfl
    | some data =>
      rw [hr] at h
      dsimp only at h
      split_ifs at h with hc
      right
      simpa using hc

/-- only a child is assigned a slot -/
theorem eventNext_of_root (hd : TreeInv d) (hs : ShadowInv d) {composed : Bool} {target n : NodeId}
    (hp : d.parent n = none) {m : NodeId} (h : d.eventNext composed target n = some m) :
    d.shadowHost n = some m ∧ (composed = true ∨ d.treeRoot target ≠ n) := by
  rcases eventNext_cases hd hs h with ⟨p, hp', -⟩ | h | hp'
  · rw [hp] at hp'; cases hp'
  · exact h
  · rw [hp] at hp'; cases hp'

/-- a composed event goes from a shadow root to its host -/
theorem eventNext_host (hd : TreeInv d) (hs : ShadowInv d) {target root host : NodeId}
    (h : d.shadowHost root = some host) : d.eventNext true target root = some host := by
  cases hn : d.eventNext true target root with
  | none =>
    rcases eventNext_eq_none hn with hp | ⟨hc, -⟩
    · rw [shadowIncludingParent_of_host hd h] at hp; cases hp
    · cases hc
  | some m =>
    have := (eventNext_of_root hd hs (parent_of_shadowHost hd h) hn).1
    rw [h] at this
    exact this.symm ▸ rfl

/-- a tree that includes a node includes the next node of the path, as long as the node is not its root -/
theorem includes_eventNext (hd : TreeInv d) (hs : ShadowInv d) {composed : Bool} {target root n m : NodeId}
    (hinc : d.Includes root n) (hne : n ≠ root)
    (h : d.eventNext composed target n = some m) : d.Includes root m := by
  obtain ⟨q, hq, hrq⟩ := (Up.cases hinc).resolve_left hne
  rcases eventNext_cases hd hs h with ⟨p, hp, hm⟩ | ⟨hh, -⟩ | hp
  · rw [shadowIncludingParent_of_parent hp] at hq
    obtain rfl := Option.some.inj hq
    exact Includes.trans hrq (includes_outerHost hd hm)
  · rw [shadowIncludingParent_of_host hd hh] at hq
    obtain rfl := Option.some.inj hq
    exact hrq
  · rw [shadowIncludingParent_of_parent hp] at hq
    obtain rfl := Option.some.inj hq
    exact hrq

/-! ## Paths end -/

theorem eventNext_lt (hd : TreeInv d) (hs : ShadowInv d) {composed : Bool} {target n m : NodeId}
    (h : d.eventNext composed target n = some m) : n < d.nodes.length := by
  rcases eventNext_cases hd hs h with ⟨p, hp, -⟩ | ⟨hh, -⟩ | hp
  · exact parent_lt hp
  · exact tagOf_lt (tagOf_of_shadowHost hh)
  · exact parent_lt hp

/-- **Every path ends.** From a node whose path ends, the paths of all nodes it includes end: a slot detour stays inside
the node, and comes back up to it. The induction is on the depth below the node. -/
theorem ends_eventNext (hac : d.Acyclic) (hd : TreeInv d) (hs : ShadowInv d) (composed : Bool) (target n : NodeId) :
    Ends (d.eventNext composed target) n := by
  have below : ∀ q, Ends (d.eventNext composed target) q →
      ∀ x, d.Includes q x → Ends (d.eventNext composed target) x := by
    intro q
    induction acc_of_ends (Finset.range d.nodes.length)
      (fun _ _ h => Finset.mem_range.2 (shadowIncludingParent_lt h)) hac q with
    | intro q _ ih =>
      intro hq x hx
      rcases Relation.ReflTransGen.cases_tail hx with rfl | ⟨c, hxc, hcq⟩
      · exact hq
      · refine ih c hcq ?_ x hxc
        -- c is a child of q, or its shadow root
        cases hn : d.eventNext composed target c with
        | none => exact Ends.stop hn
        | some m =>
          rcases eventNext_cases hd hs hn with ⟨p, hp, hm⟩ | ⟨hh, -⟩ | hp
          · rw [shadowIncludingParent_of_parent hp] at hcq
            obtain rfl := Option.some.inj hcq
            refine Ends.step hn (ih (d.treeRoot m) (shadowIncludingParent_of_host hd hm) ?_ m (includes_treeRoot hd m))
            cases hr : d.eventNext composed target (d.treeRoot m) with
            | none => exact Ends.stop hr
            | some m' =>
              have hm' := (eventNext_of_root hd hs (treeRoot_spec hd.ends m).1 hr).1
              rw [show d.shadowHost (d.treeRoot m) = some p from hm] at hm'
              exact Ends.step hr (Option.some.inj hm' ▸ hq)
          · rw [shadowIncludingParent_of_host hd hh] at hcq
            exact Ends.step hn (Option.some.inj hcq ▸ hq)
          · rw [shadowIncludingParent_of_parent hp] at hcq
            exact Ends.step hn (Option.some.inj hcq ▸ hq)
  obtain ⟨top, hup, htop⟩ : ∃ top, d.Includes top n ∧ d.shadowIncludingParent top = none := by
    induction hac n with
    | stop hn => exact ⟨_, Includes.refl _, hn⟩
    | step hn _ ih =>
      obtain ⟨top, hup, htop⟩ := ih
      exact ⟨top, Up.head hn hup, htop⟩
  refine below top (Ends.stop ?_) n hup
  cases hr : d.eventNext composed target top with
  | none => rfl
  | some m =>
    have hp : d.parent top = none := by
      by_contra hne
      obtain ⟨p, hp⟩ := Option.ne_none_iff_exists'.1 hne
      rw [shadowIncludingParent_of_parent hp] at htop; cases htop
    rw [shadowIncludingParent_of_host hd (eventNext_of_root hd hs hp hr).1] at htop
    cases htop

/-- a composed path from inside a shadow tree comes to its host -/
theorem reaches_host (hac : d.Acyclic) (hd : TreeInv d) (hs : ShadowInv d) (target : NodeId) {root host n : NodeId}
    (hh : d.shadowHost root = some host) (hinc : d.Includes root n) : Up (d.eventNext true target) n host := by
  induction ends_eventNext hac hd hs true target n with
  | stop hn =>
    rename_i n
    rcases eventNext_eq_none hn with hp | ⟨hc, -⟩
    · obtain rfl := Up.eq_of_none hinc hp
      rw [shadowIncludingParent_of_host hd hh] at hp; cases hp
    · cases hc
  | step hn _ ih =>
    rename_i n m _
    by_cases hne : n = root
    · rw [hne]
      exact Up.single (eventNext_host hd hs hh)
    · exact (ih (includes_eventNext hd hs hinc hne hn)).head hn

/-! ## The running target -/

/-- T is the running target when the path visits n: it is in the target's chain of hosts, n lies in its tree, and the path
has left the trees of the chain before T -/
structure Adjusted (d : Dom) (composed : Bool) (target T n : NodeId) : Prop where
  chain : Up d.outerHost target T
  inside : d.Includes (d.treeRoot T) n
  left : ∀ x y, Up d.outerHost target x → d.outerHost x = some y → Up d.outerHost y T →
    composed = true ∧ Up (d.eventNext composed target) y n

theorem adjusted_start (hac : d.Acyclic) (hd : TreeInv d) (composed : Bool) (target : NodeId) :
    d.Adjusted composed target target target where
  chain := Up.refl _
  inside := includes_treeRoot hd target
  left _ _ hx hxy hy := absurd (hy.trans hx) (((ends_outerHost hac hd target).of_up hx).irrefl hxy)

namespace Adjusted

variable {composed : Bool} {target T n : NodeId}

/-- the next node lies in the tree of the running target, or is the host of this tree -/
theorem step (hac : d.Acyclic) (hd : TreeInv d) (hs : ShadowInv d) (h : d.Adjusted composed target T n) {m : NodeId}
    (hm : d.eventNext composed target n = some m) :
    (d.Includes (d.treeRoot T) m ∧ d.Adjusted composed target T m) ∨
      (¬ d.Includes (d.treeRoot T) m ∧ d.outerHost T = some m ∧ d.Adjusted composed target m m) := by
  have hleft : ∀ x y, Up d.outerHost target x → d.outerHost x = some y → Up d.outerHost y T →
      composed = true ∧ Up (d.eventNext composed target) y m := fun x y hx hxy hy => by
    obtain ⟨hc, hup⟩ := h.left x y hx hxy hy
    exact ⟨hc, hup.trans (Up.single hm)⟩
  by_cases hn : n = d.treeRoot T
  · -- the path is at the root of the tree, and leaves it for the host
    right
    obtain ⟨hh, hc⟩ := eventNext_of_root hd hs (n := n) (by rw [hn]; exact (treeRoot_spec hd.ends T).1) hm
    have hout : d.outerHost T = some m := by unfold outerHost; rw [← hn]; exact hh
    have hcomposed : composed = true := by
      rcases hc with hc | hc
      · exact hc
      · -- the running target is not the target, so the path has left a tree before
        rcases Relation.ReflTransGen.cases_tail h.chain with he | ⟨x, hx, hxT⟩
        · exact absurd (he ▸ hn.symm) hc
        · exact (h.left x T hx hxT (Up.refl _)).1
    refine ⟨hn ▸ hac.not_includes_host hd hh, hout, ⟨h.chain.trans (Up.single hout), includes_treeRoot hd m, ?_⟩⟩
    intro x y hx hxy hy
    rcases Relation.ReflTransGen.cases_tail hy with he | ⟨z, hyz, hzm⟩
    · exact ⟨hcomposed, he ▸ Up.refl _⟩
    · -- the tree that is left comes after the ones left before
      refine hleft x y hx hxy ?_
      rcases (hx.trans (Up.single hxy)).comparable h.chain with hyT | hTy
      · exact hyT
      · rcases Relation.ReflTransGen.cases_head hTy with he | ⟨w, hw, hwy⟩
        · exact he ▸ Up.refl _
        · rw [hout] at hw
          obtain rfl := Option.some.inj hw
          exact absurd ((hwy.trans hyz)) (((ends_outerHost hac hd target).of_up
            ((hx.trans (Up.single hxy)).trans hyz)).irrefl hzm)
  · left
    have hin := includes_eventNext hd hs h.inside hn hm
    exact ⟨hin, h.chain, hin, hleft⟩

/-- **The running target is the target retargeted against the node.** -/
theorem retarget (hac : d.Acyclic) (hd : TreeInv d) (hs : ShadowInv d) (h : d.Adjusted composed target T n) :
    d.retarget target (some n) = some T := by
  refine (retarget_eq_some hac hd).2 (Climbs.of_up h.chain (Or.inl ⟨n, rfl, h.inside⟩) fun x y hx hxy hy => ?_)
  rintro ⟨o, ho, hinc⟩
  obtain rfl := Option.some.inj ho
  -- a path inside a tree it has left would visit the host of this tree again
  obtain ⟨rfl, hyn⟩ := h.left x y hx hxy hy
  have hny := reaches_host hac hd hs target hxy hinc
  obtain rfl := (ends_eventNext hac hd hs true target y).antisymm hyn hny
  exact hac.not_includes_host hd hxy hinc

end Adjusted

/-! ## The whole path -/

/-- what the loop of `event_path` has pushed from a node on: the steps go along the path, each with the running target,
and the path goes on until it ends or meets the host where the loop stops -/
structure PathFrom (d : Dom) (target : NodeId) (related relatedForTarget : Option NodeId) (composed : Bool) (first : Option NodeId)
    (T : NodeId) (steps : List EventPathStep) : Prop where
  adjusted : ∀ step ∈ steps, d.Adjusted composed target step.target step.invocationTarget
  related : ∀ step ∈ steps, ∀ candidate, related = some candidate →
    ∃ t, d.retarget candidate (some step.invocationTarget) = some t ∧ step.relatedTarget = some t
  notStopped : ∀ step ∈ steps, ∀ y, Up d.outerHost T y → y ≠ T → Up d.outerHost y step.target → relatedForTarget ≠ some y
  complete : ∀ n y, first = some n → Up (d.eventNext composed target) n y →
    y ∈ steps.map EventPathStep.invocationTarget ∨
      ∃ s, relatedForTarget = some s ∧ Up d.outerHost target s
  path : ∀ n l k, first = some n → walk (d.eventNext composed target) k n = some l →
    steps.map EventPathStep.invocationTarget <+: l
  nothing : first = none → steps = []

namespace PathFrom

variable {composed : Bool} {target T : NodeId} {related relatedForTarget : Option NodeId}

theorem nil : PathFrom d target related relatedForTarget composed none T [] where
  adjusted := by simp
  related := by simp
  notStopped := by simp
  complete := by simp
  path := by simp
  nothing _ := rfl

/-- the loop stops at the retargeted `relatedTarget` -/
theorem stopped {m : NodeId} (hm : Up d.outerHost target m) (hr : relatedForTarget = some m) :
    PathFrom d target related relatedForTarget composed (some m) T [] where
  adjusted := by simp
  related := by simp
  notStopped := by simp
  complete _ _ _ _ := Or.inr ⟨m, hr, hm⟩
  path := by simp
  nothing _ := rfl

/-- one more step in front: T' is the running target at it -/
theorem cons {T' m : NodeId} {step : EventPathStep} {steps : List EventPathStep} (hac : d.Acyclic) (hd : TreeInv d)
    (h : PathFrom d target related relatedForTarget composed (d.eventNext composed target m) T' steps)
    (hnode : step.invocationTarget = m) (htarget : step.target = T') (ha : d.Adjusted composed target T' m)
    (hrel : ∀ candidate, related = some candidate →
      ∃ t, d.retarget candidate (some m) = some t ∧ step.relatedTarget = some t)
    (hT : T' = T ∨ (d.outerHost T = some T' ∧ relatedForTarget ≠ some T')) :
    PathFrom d target related relatedForTarget composed (some m) T (step :: steps) where
  adjusted x hx := by
    rcases List.mem_cons.1 hx with rfl | hx
    · rw [hnode, htarget]; exact ha
    · exact h.adjusted x hx
  related x hx candidate hc := by
    rcases List.mem_cons.1 hx with rfl | hx
    · rw [hnode]; exact hrel candidate hc
    · exact h.related x hx candidate hc
  notStopped x hx y hTy hne hyx := by
    have hends := ends_outerHost hac hd T
    rcases hT with rfl | ⟨hout, hstop⟩
    · rcases List.mem_cons.1 hx with rfl | hx
      · rw [htarget] at hyx
        exact absurd ((hends.antisymm hTy hyx).symm) hne
      · exact h.notStopped x hx y hTy hne hyx
    · have hT'y : Up d.outerHost T' y := by
        obtain ⟨z, hz, hzy⟩ := (Up.cases hTy).resolve_left fun he => hne he.symm
        rw [hout] at hz
        exact Option.some.inj hz ▸ hzy
      by_cases hy : y = T'
      · rw [hy]; exact hstop
      · rcases List.mem_cons.1 hx with rfl | hx
        · rw [htarget] at hyx
          exact absurd (((ends_outerHost hac hd T').antisymm hT'y hyx).symm) hy
        · exact h.notStopped x hx y hT'y hy hyx
  complete n y hn hup := by
    obtain rfl := Option.some.inj hn
    rcases hup.cases with rfl | ⟨z, hz, hzy⟩
    · exact Or.inl (by simp [hnode])
    · rcases h.complete z y hz hzy with hy | hy
      · exact Or.inl (List.mem_cons_of_mem _ hy)
      · exact Or.inr hy
  path n l k hn hl := by
    obtain rfl := Option.some.inj hn
    obtain ⟨rest, rfl⟩ := walk_head hl
    rw [List.map_cons, hnode, List.prefix_cons_inj]
    cases k with
    | zero => simp [walk] at hl
    | succ k =>
      cases hnext : d.eventNext composed target m with
      | none => rw [h.nothing hnext]; exact List.nil_prefix
      | some z =>
        rw [walk_succ_some k hnext, Option.map_eq_some_iff] at hl
        obtain ⟨l', hl', he⟩ := hl
        rw [← (List.cons.inj he).2]
        exact h.path z l' k hnext hl'
  nothing hn := nomatch hn

end PathFrom

/-- the step `event_path` makes for a node, when it returns -/
theorem eventSteps_cons (hac : d.Acyclic) (hd : TreeInv d) {related : Option NodeId} (resolved m : NodeId)
    (adjusted : Option NodeId) {rest : List (NodeId × Option NodeId)} {steps : List EventPathStep}
    (h : d.eventSteps related (adjusted.getD resolved) rest = some steps) :
    ∃ step, d.eventSteps related resolved ((m, adjusted) :: rest) = some (step :: steps) ∧
      step.invocationTarget = m ∧ step.target = adjusted.getD resolved ∧
      ∀ candidate, related = some candidate →
        ∃ t, d.retarget candidate (some m) = some t ∧ step.relatedTarget = some t := by
  unfold eventSteps
  cases related with
  | none =>
    simp only [h]
    exact ⟨_, rfl, rfl, rfl, by simp⟩
  | some candidate =>
    obtain ⟨t, ht⟩ := retarget_returns hac hd candidate (some m)
    simp only [ht, h]
    refine ⟨_, rfl, rfl, rfl, fun c hc => ?_⟩
    obtain rfl := Option.some.inj hc
    exact ⟨t, ht, rfl⟩

/-- the loop of `event_path` and the steps made of what it visits -/
theorem eventVisits_spec (hac : d.Acyclic) (hd : TreeInv d) (hs : ShadowInv d) {composed : Bool} {target : NodeId}
    (related relatedForTarget : Option NodeId) {k : ℕ} {n T : NodeId} {l : List NodeId}
    (hl : walk (d.eventNext composed target) (k + 1) n = some l) (ha : d.Adjusted composed target T n) :
    ∃ visited steps, d.eventVisits target relatedForTarget composed k T (d.eventNext composed target n) = some visited ∧
      d.eventSteps related T visited = some steps ∧
      PathFrom d target related relatedForTarget composed (d.eventNext composed target n) T steps := by
  induction k generalizing n T l with
  | zero =>
    cases hn : d.eventNext composed target n with
    | none => exact ⟨[], [], rfl, rfl, PathFrom.nil⟩
    | some m => rw [walk_succ_some 0 hn] at hl; simp [walk] at hl
  | succ k ih =>
    cases hn : d.eventNext composed target n with
    | none => exact ⟨[], [], rfl, rfl, PathFrom.nil⟩
    | some m =>
      rw [walk_succ_some (k + 1) hn, Option.map_eq_some_iff] at hl
      obtain ⟨l', hl', -⟩ := hl
      obtain ⟨b, hb, hiff⟩ := isShadowIncludingInclusiveAncestor_spec hac (d.treeRoot T) m
      rcases ha.step hac hd hs hn with ⟨hin, ha'⟩ | ⟨hout, hhost, ha'⟩
      · obtain rfl := hiff.2 hin
        obtain ⟨visited, steps, hv, hsteps, hpath⟩ := ih hl' ha'
        obtain ⟨step, hstep, hnode, htarget, hrel⟩ :=
          eventSteps_cons hac hd T m none hsteps
        refine ⟨(m, none) :: visited, step :: steps, ?_, hstep, hpath.cons hac hd hnode htarget ha' hrel (Or.inl rfl)⟩
        unfold eventVisits
        simp only [hb]
        show (d.eventVisits target relatedForTarget composed k T (d.eventNext composed target m)).bind _ = _
        rw [hv]; rfl
      · have hfalse : b = false := by
          cases b
          · rfl
          · exact absurd (hiff.1 rfl) hout
        obtain rfl := hfalse
        by_cases hstop : some m = relatedForTarget
        · refine ⟨[], [], ?_, rfl, PathFrom.stopped (ha.chain.trans (Up.single hhost)) hstop.symm⟩
          unfold eventVisits
          simp only [hb, hstop]
          rfl
        · obtain ⟨visited, steps, hv, hsteps, hpath⟩ := ih hl' ha'
          obtain ⟨step, hstep, hnode, htarget, hrel⟩ :=
            eventSteps_cons hac hd T m (some m) hsteps
          refine ⟨(m, some m) :: visited, step :: steps, ?_, hstep,
            hpath.cons hac hd hnode htarget ha' hrel (Or.inr ⟨hhost, fun h => hstop h.symm⟩)⟩
          unfold eventVisits
          simp only [hb, hstop]
          show (d.eventVisits target relatedForTarget composed k m (d.eventNext composed target m)).bind _ = _
          rw [hv]; rfl

/-- `event_path` returns: the empty path when it refuses the target, and else a path that starts at the target -/
theorem eventPath_spec (hac : d.Acyclic) (hd : TreeInv d) (hs : ShadowInv d) (target : NodeId) (related : Option NodeId)
    (composed : Bool) (relatedForTarget : Option NodeId)
    (hrel : ∀ r, related = some r → d.retarget r (some target) = relatedForTarget)
    (hnone : related = none → relatedForTarget = none) :
    ∃ steps, d.eventPath target related composed = some steps ∧
      if relatedForTarget = some target ∧ related ≠ some target then steps = []
      else PathFrom d target related relatedForTarget composed (some target) target steps := by
  obtain ⟨l, hl⟩ := walk_enough (Finset.range d.nodes.length)
    (fun _ _ h => Finset.mem_range.2 (eventNext_lt hd hs h)) (ends_eventNext hac hd hs composed target target)
    (k := d.passes + 1) (by simp [passes])
  have ha := adjusted_start hac hd composed target
  obtain ⟨visited, steps, hv, hsteps, hpath⟩ := eventVisits_spec hac hd hs related relatedForTarget hl ha
  obtain ⟨step, hstep, hnode, htarget, hrelated⟩ :=
    eventSteps_cons hac hd target target (some target) hsteps
  have hfull := hpath.cons hac hd hnode htarget ha hrelated (Or.inl rfl)
  have hvisits : d.eventVisits target relatedForTarget composed d.passes target (d.eventParent target composed target) =
      some visited := hv
  unfold eventPath
  cases related with
  | none =>
    obtain rfl := hnone rfl
    refine ⟨step :: steps, ?_, by simpa using hfull⟩
    simp [hvisits, hstep]
  | some r =>
    obtain ⟨t, ht⟩ := retarget_returns hac hd r (some target)
    obtain rfl : some t = relatedForTarget := by rw [← ht]; exact hrel r rfl
    by_cases hc : some t = some target ∧ some r ≠ some target
    · refine ⟨[], ?_, by rw [if_pos hc]⟩
      simp only [ht, Option.map_some]
      simp only [Option.bind_eq_bind, Option.bind_some, if_pos hc]
      rfl
    · refine ⟨step :: steps, ?_, by rw [if_neg hc]; exact hfull⟩
      simp only [ht, Option.map_some]
      simp only [Option.bind_eq_bind, Option.bind_some, if_neg hc, hvisits, hstep]

end Dom

/-- **Every listener reads the target retargeted against its own node.** For a DOM whose shadow-including tree is acyclic
the path of an event without `relatedTarget` is found, each step's target is the target retargeted against the node of
the step, and the path visits no node twice. -/
theorem eventPath_target {d : Dom} (hd : Reachable d) (hac : d.Acyclic) (target : NodeId) (composed : Bool) :
    ∃ steps, d.eventPath target none composed = some steps ∧
      (∀ step ∈ steps, d.retarget target (some step.invocationTarget) = some step.target) ∧
      (steps.map EventPathStep.invocationTarget).Nodup := by
  have ht := treeInv_reachable hd
  have hs := Dom.shadowInv_reachable hd
  obtain ⟨steps, hsteps, hpath⟩ := Dom.eventPath_spec hac ht hs target none composed none
    (by simp) fun _ => rfl
  rw [if_neg (by simp)] at hpath
  refine ⟨steps, hsteps, fun step hstep => (hpath.adjusted step hstep).retarget hac ht hs, ?_⟩
  obtain ⟨k, l, hl⟩ := (Dom.ends_eventNext hac ht hs composed target target).walk
  exact (walk_nodup hl).sublist (hpath.path target l k rfl hl).sublist

/-- a slot detour, two nested shadow trees, and two nodes of the inner one -/
def sampleEventOps : List Op :=
  [.createElement "div", .appendChild 0 1, .createElement "p", .appendChild 1 2, .attachShadow 1 .open_ false .named,
    .createElement "slot", .appendChild 3 4, .createElement "span", .appendChild 3 5,
    .attachShadow 5 .closed false .named, .createElement "b", .appendChild 6 7, .createElement "i", .appendChild 6 8]

theorem sampleEvent_acyclic {d : Dom} (hd : runAll sampleEventOps Dom.new = some d) : d.Acyclic := by
  have h : (runAll sampleEventOps Dom.new).map (fun d =>
      decide (∀ n < d.nodes.length, (walk d.shadowIncludingParent d.passes n).isSome)) = some true := by decide
  rw [hd] at h
  exact Dom.acyclic_of_walks (of_decide_eq_true (Option.some.inj h))

theorem eventPath_target_sample : ∃ d, runAll sampleEventOps Dom.new = some d ∧
    (d.eventPath 2 none true).map (·.map EventPathStep.invocationTarget) = some [2, 4, 3, 1, 0] ∧
    ∃ steps, d.eventPath 7 none true = some steps ∧
      ∀ step ∈ steps, d.retarget 7 (some step.invocationTarget) = some step.target := by
  obtain ⟨d, hd⟩ : ∃ d, runAll sampleEventOps Dom.new = some d := Option.isSome_iff_exists.1 (by decide)
  have hslot : (runAll sampleEventOps Dom.new).map (fun d =>
      (d.eventPath 2 none true).map (·.map EventPathStep.invocationTarget)) = some (some [2, 4, 3, 1, 0]) := by decide
  rw [hd] at hslot
  obtain ⟨steps, hsteps, htarget, -⟩ :=
    eventPath_target (Reach.new.runAll hd) (sampleEvent_acyclic hd) 7 true
  exact ⟨d, hd, Option.some.inj hslot, steps, hsteps, htarget⟩

/-! ## `relatedTarget` -/

namespace Dom

variable {d : Dom}

/-- some shadow tree holds both nodes, directly or inside the shadow trees of its hosts, in two different places -/
def MeetInShadowTree (d : Dom) (target related : NodeId) : Prop :=
  ∃ t r host, t ≠ r ∧ Up d.outerHost target t ∧ Up d.outerHost related r ∧ d.treeRoot t = d.treeRoot r ∧
    d.outerHost t = some host

variable {target related r₀ : NodeId}

/-- a host of both chains is what both nodes are retargeted to, seen from the host -/
theorem retarget_host (hac : d.Acyclic) (hd : TreeInv d) {n host : NodeId} (h : Up d.outerHost n host) :
    d.retarget n (some host) = some host := by
  refine (retarget_eq_some hac hd).2 (Climbs.of_up h (Or.inl ⟨host, rfl, includes_treeRoot hd host⟩) fun x y _ hxy hy => ?_)
  rintro ⟨o, ho, hinc⟩
  obtain rfl := Option.some.inj ho
  exact hac.not_includes_host hd hxy (hinc.trans (includes_of_outer hd hy))

/-- where the two chains meet, the first node of each that includes the other is no farther up -/
theorem retarget_below (hac : d.Acyclic) (hd : TreeInv d) (hr₀ : d.retarget related (some target) = some r₀)
    {r : NodeId} (hr : Up d.outerHost related r) (hinc : d.Includes (d.treeRoot r) target) : Up d.outerHost r₀ r := by
  have hclimb := (retarget_eq_some hac hd).1 hr₀
  rcases hclimb.up.comparable hr with h | h
  · exact h
  · rcases Up.cases h with rfl | ⟨y, hy, hyr⟩
    · exact Up.refl _
    · exact absurd ⟨target, rfl, hinc⟩ (hclimb.before (ends_outerHost hac hd related) hr hy hyr)

/-- a path that the loop has not stopped reads two different targets at every step, unless the nodes meet -/
theorem meet_of_coincide (hac : d.Acyclic) (hd : TreeInv d) {composed : Bool}
    (hr₀ : d.retarget related (some target) = some r₀) (hne : r₀ ≠ target) {T n : NodeId}
    (ha : d.Adjusted composed target T n)
    (hns : ∀ y, Up d.outerHost target y → y ≠ target → Up d.outerHost y T → r₀ ≠ y)
    (hrel : d.retarget related (some n) = some T) : composed = true ∧ d.MeetInShadowTree target related := by
  have hclimb := (retarget_eq_some hac hd).1 hr₀
  have hTrel := ((retarget_eq_some hac hd).1 hrel).up
  have hTinc : d.Includes (d.treeRoot T) target :=
    (includes_treeRoot hd T).trans (includes_of_outer hd ha.chain)
  have hup := retarget_below hac hd hr₀ hTrel hTinc
  have hout : ¬ Up d.outerHost target r₀ := fun h => hns r₀ h hne hup rfl
  rcases Up.cases hup with he | ⟨host, hhost, hhT⟩
  · exact absurd (he ▸ ha.chain) hout
  · -- the first common tree holds both nodes, and the event leaves it
    have hsees : d.Includes (d.treeRoot r₀) target := by
      rcases hclimb.stops with ⟨o, ho, hinc⟩ | hn
      · exact Option.some.inj ho ▸ hinc
      · rw [hn] at hhost; cases hhost
    obtain ⟨t, ht, hroot⟩ := exists_outer_of_includes hac hd (treeRoot_spec hd.ends r₀).1 hsees
    have hthost : d.outerHost t = some host := by unfold outerHost; rw [hroot]; exact hhost
    refine ⟨(ha.left t host ht hthost hhT).1, t, r₀, host, ?_, ht, hclimb.up, hroot, hthost⟩
    rintro rfl
    exact hout ht

end Dom

/-- **When `relatedTarget` stays apart from `target`.** A path is always found. Its steps all read two different nodes
exactly when the event is not composed or no shadow tree holds the two nodes in two different places. -/
theorem eventPath_apart_iff {d : Dom} (hd : Reachable d) (hac : d.Acyclic) {target related : NodeId}
    (hne : related ≠ target) (composed : Bool) :
    (∃ steps, d.eventPath target (some related) composed = some steps ∧
        ∀ step ∈ steps, step.relatedTarget ≠ some step.target) ↔
      ¬ (composed = true ∧ d.MeetInShadowTree target related) := by
  have ht := treeInv_reachable hd
  have hs := Dom.shadowInv_reachable hd
  obtain ⟨r₀, hr₀⟩ := Dom.retarget_returns hac ht related (some target)
  obtain ⟨steps, hsteps, hpath⟩ := Dom.eventPath_spec hac ht hs target (some related) composed
    (some r₀) (fun r hr => Option.some.inj hr ▸ hr₀) (by simp)
  simp only [hsteps, Option.some.injEq, exists_eq_left']
  by_cases hempty : r₀ = target
  · -- nothing is visited: the target is the retargeted `relatedTarget`
    rw [if_pos ⟨congrArg some hempty, by simpa using hne⟩] at hpath
    refine iff_of_true (by simp [hpath]) ?_
    rintro ⟨-, t, r, host, htr, htup, hrup, hroot, hhost⟩
    have hinc : d.Includes (d.treeRoot r) target :=
      hroot ▸ (Dom.includes_treeRoot ht t).trans (Dom.includes_of_outer ht htup)
    have hup := Dom.retarget_below hac ht hr₀ hrup hinc
    exact htr (Dom.outer_unique hac ht htup (hempty ▸ hup) hroot)
  · rw [if_neg fun h => hempty (Option.some.inj h.1)] at hpath
    constructor
    · rintro hapart ⟨rfl, t, r, host, htr, htup, hrup, hroot, hhost⟩
      have hinc : d.Includes (d.treeRoot r) target :=
        hroot ▸ (Dom.includes_treeRoot ht t).trans (Dom.includes_of_outer ht htup)
      have hrhost : d.outerHost r = some host := by unfold Dom.outerHost; rw [← hroot]; exact hhost
      -- the path visits the host of the common tree, where both nodes are retargeted to it
      have hreach : Up (d.eventNext true target) target host :=
        Dom.reaches_host hac ht hs _ hrhost hinc
      rcases hpath.complete target host rfl hreach with hmem | ⟨s, hstop, hsup⟩
      · obtain ⟨step, hstep, hnode⟩ := List.mem_map.1 hmem
        obtain ⟨x, hx, hxrel⟩ := hpath.related step hstep related rfl
        have hT := (hpath.adjusted step hstep).retarget hac ht hs
        rw [hnode] at hx hT
        rw [Dom.retarget_host hac ht (htup.trans (Up.single hhost))] at hT
        rw [Dom.retarget_host hac ht (hrup.trans (Up.single hrhost))] at hx
        refine hapart step hstep ?_
        rw [hxrel, ← hx, ← hT]
      · obtain rfl := Option.some.inj hstop
        have hup := Dom.retarget_below hac ht hr₀ hrup hinc
        exact htr (Dom.outer_unique hac ht htup (hsup.trans hup) hroot)
    · intro hcond step hstep hcoincide
      refine hcond ?_
      obtain ⟨x, hx, hxrel⟩ := hpath.related step hstep related rfl
      rw [hxrel, Option.some.injEq] at hcoincide
      subst hcoincide
      exact Dom.meet_of_coincide hac ht hr₀ hempty (hpath.adjusted step hstep)
        (fun y hy hyt hyT he => hpath.notStopped step hstep y hy hyt hyT (congrArg some he)) hx

theorem eventPath_apart_iff_sample : ∃ d, runAll sampleEventOps Dom.new = some d ∧
    ∃ steps, d.eventPath 7 (some 8) false = some steps ∧ ∀ step ∈ steps, step.relatedTarget ≠ some step.target := by
  obtain ⟨d, hd⟩ : ∃ d, runAll sampleEventOps Dom.new = some d := Option.isSome_iff_exists.1 (by decide)
  exact ⟨d, hd, (eventPath_apart_iff (Reach.new.runAll hd) (sampleEvent_acyclic hd) (by decide) false).2 (by simp)⟩

/-- **A composed event between two nodes of one shadow tree** reaches the host of the tree, where its target and its
`relatedTarget` are both the host. -/
theorem eventPath_coincides : ¬ ∀ d : Dom, Reachable d → d.Acyclic → ∀ target related : NodeId, related ≠ target →
    ∀ composed, ∃ steps, d.eventPath target (some related) composed = some steps ∧
      ∀ step ∈ steps, step.relatedTarget ≠ some step.target := by
  intro hall
  obtain ⟨d, hd⟩ : ∃ d, runAll sampleEventOps Dom.new = some d := Option.isSome_iff_exists.1 (by decide)
  have hhost : (runAll sampleEventOps Dom.new).map (fun d => (d.eventPath 7 (some 8) true).map fun steps =>
      steps.any fun step => step.relatedTarget == some step.target) = some (some true) := by decide
  rw [hd, Option.map_some, Option.some.injEq] at hhost
  obtain ⟨steps, hsteps, hapart⟩ := hall d (Reach.new.runAll hd) (sampleEvent_acyclic hd) 7 8 (by decide) true
  rw [hsteps, Option.map_some, Option.some.injEq, List.any_eq_true] at hhost
  obtain ⟨step, hstep, he⟩ := hhost
  exact hapart step hstep (beq_iff_eq.1 he)

end Render
