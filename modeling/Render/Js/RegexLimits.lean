/-
The limits of a search (`tick` and the depth check of `node`).

A call that runs without limits and stays within them gives the same result with them (`Spared`), and with limits every call
returns (`Returns`). So a search that stays within its limits finds what the semantics of the pattern says
(`find_faithful`).

A call past a limit fails as one that does not match, and what follows a failure may accept: a repetition ends early, a
negative assertion holds, a later start is tried (`exhausted_lookahead`).
-/
import Render.Js.RegexMatcher

namespace Render.Js.Regex

/-! ## Within the limits -/

/-- a run without limits never takes a step or a level back, and where it ends within the limits, the run with limits gives
the same -/
def Spared (limits : Limits) (limited unlimited : Run) : Prop :=
  ∀ m r, unlimited m = some r → m.steps ≤ r.2.steps ∧ m.deepest ≤ r.2.deepest ∧
    (r.2.steps ≤ limits.steps → r.2.deepest ≤ limits.depth → limited m = some r)

/-- a runner of a pattern carries this over from the continuation -/
def SparedBy (limits : Limits) (limited unlimited : ℕ → Continuation → Run) : Prop :=
  ∀ (position : ℕ) (next next' : Continuation), (∀ ending, Spared limits (next ending) (next' ending)) →
    Spared limits (limited position next) (unlimited position next')

section Spare

variable {limits : Limits} {run run' other other' : Run}

theorem spared_fail : Spared limits fail fail := by
  intro m r hr
  cases hr
  exact ⟨Nat.le_refl _, Nat.le_refl _, fun _ _ => rfl⟩

theorem Spared.orElse (h : Spared limits run run') (h' : Spared limits other other') :
    Spared limits (fun m => orElse (run m) other) fun m => orElse (run' m) other' := by
  intro m r hr
  obtain ⟨tried, htried, hr⟩ := Option.bind_eq_some_iff.1 hr
  obtain ⟨hsteps, hdeepest, hsame⟩ := h m tried htried
  by_cases htrue : tried.1 = true
  · rw [if_pos htrue] at hr
    cases hr
    refine ⟨hsteps, hdeepest, fun hs hd => ?_⟩
    simp only [Regex.orElse, hsame hs hd, Option.bind_some, htrue, if_true]
  · rw [if_neg htrue] at hr
    obtain ⟨hsteps', hdeepest', hsame'⟩ := h' tried.2 r hr
    refine ⟨hsteps.trans hsteps', hdeepest.trans hdeepest', fun hs hd => ?_⟩
    simp only [Regex.orElse, hsame (hsteps'.trans hs) (hdeepest'.trans hd), Option.bind_some, htrue, Bool.false_eq_true,
      if_false]
    exact hsame' hs hd

/-- a call on a changed matcher, with the steps and the level as they were -/
theorem Spared.change (change : Matcher → Matcher) (h : Spared limits run run')
    (hsteps : ∀ m, (change m).steps = m.steps) (hdeepest : ∀ m, (change m).deepest = m.deepest) :
    Spared limits (fun m => run (change m)) fun m => run' (change m) := by
  intro m r hr
  have hrun := h (change m) r hr
  rwa [hsteps, hdeepest] at hrun

/-- a call whose result is changed, with its steps and its level as they were -/
theorem Spared.map (change : Bool × Matcher → Bool × Matcher) (h : Spared limits run run')
    (hsteps : ∀ r, (change r).2.steps = r.2.steps) (hdeepest : ∀ r, (change r).2.deepest = r.2.deepest) :
    Spared limits (fun m => (run m).map change) fun m => (run' m).map change := by
  intro m r hr
  obtain ⟨inner, hinner, rfl⟩ := Option.map_eq_some_iff.1 hr
  obtain ⟨hs, hd, hsame⟩ := h m inner hinner
  rw [hsteps, hdeepest]
  exact ⟨hs, hd, fun hs' hd' => by simp only [hsame hs' hd', Option.map_some]⟩

theorem spared_restore (restore : Captures → Captures) :
    Spared limits (fun m => some (false, { m with captures := restore m.captures }))
      fun m => some (false, { m with captures := restore m.captures }) := by
  intro m r hr
  cases hr
  exact ⟨Nat.le_refl _, Nat.le_refl _, fun _ _ => rfl⟩

/-- a call whose restore depends on the captures it starts with -/
theorem Spared.orRestore (restore : Captures → Captures → Captures) (h : Spared limits run run') :
    Spared limits (fun m => orRestore (run m) (restore m.captures)) fun m => orRestore (run' m) (restore m.captures) := by
  intro m
  exact (h.orElse (spared_restore (restore m.captures))) m

theorem Spared.ticked (h : Spared limits run run') : Spared limits (ticked (some limits) run) (ticked none run') := by
  intro m r hr
  obtain ⟨hs, hd, hsame⟩ := h { m with steps := m.steps + 1 } r hr
  dsimp only at hs hd
  refine ⟨by omega, hd, fun hs' hd' => ?_⟩
  have hwithin : ¬limits.steps < m.steps + 1 := by omega
  rw [Regex.ticked, Option.any_some, decide_eq_false hwithin, if_neg Bool.false_ne_true]
  exact hsame hs' hd'

end Spare

section Constructs

variable {Property : Type} {limits : Limits}

theorem sequence_spared {run run' : Node Property → ℕ → Continuation → Run}
    (h : ∀ node, SparedBy limits (run node) (run' node)) (items : List (Node Property)) :
    SparedBy limits (sequence run items) (sequence run' items) := by
  induction items with
  | nil =>
    intro position next next' hnext
    exact hnext position
  | cons first rest ih =>
    intro position next next' hnext
    exact h first position _ _ fun mid => ih mid next next' hnext

theorem alternative_spared {run run' : Node Property → ℕ → Continuation → Run}
    (h : ∀ node, SparedBy limits (run node) (run' node)) (branches : List (Node Property)) :
    SparedBy limits (alternative run branches) (alternative run' branches) := by
  induction branches with
  | nil =>
    intro position next next' _
    exact spared_fail
  | cons branch branches ih =>
    intro position next next' hnext
    exact (h branch position next next' hnext).orElse (ih position next next' hnext)

theorem group_spared {run run' : Node Property → ℕ → Continuation → Run} (backward : Bool) (index : ℕ)
    (body : Node Property) (h : SparedBy limits (run body) (run' body)) :
    SparedBy limits (group run backward index body) (group run' backward index body) := by
  intro position next next' hnext
  apply Spared.orRestore fun saved captures => captures.set index (saved.getD index none)
  apply h
  intro ending
  apply Spared.orRestore fun saved captures => captures.set index (saved.getD index none)
  exact (hnext ending).change (fun inner => { inner with
    captures := inner.captures.set index (some (groupSpan backward position ending)) }) (fun _ => rfl) fun _ => rfl

theorem resumeAssertion_spared {next next' : Continuation} (hnext : ∀ ending, Spared limits (next ending) (next' ending))
    (negated succeeded : Bool) (saved : Captures) (position : ℕ) :
    Spared limits (resumeAssertion negated succeeded saved position next)
      (resumeAssertion negated succeeded saved position next') := by
  have hchange {run run' : Run} (h : Spared limits run run') :
      Spared limits (fun m => run { m with captures := saved }) fun m => run' { m with captures := saved } :=
    h.change (fun m => { m with captures := saved }) (fun _ => rfl) fun _ => rfl
  unfold resumeAssertion
  cases negated <;> cases succeeded <;> simp only [if_true, Bool.false_eq_true, if_false, Bool.not_false, Bool.not_true]
  · exact hchange spared_fail
  · exact (hnext position).orRestore fun _ _ => saved
  · exact hchange (hnext position)
  · exact hchange spared_fail

theorem lookaround_spared {probe probe' : ℕ → Continuation → Run} (h : SparedBy limits probe probe') (negated : Bool) :
    SparedBy limits (lookaround probe negated) (lookaround probe' negated) := by
  intro position next next' hnext m r hr
  obtain ⟨tried, htried, hr⟩ := Option.bind_eq_some_iff.1 hr
  have hdone (ending : ℕ) : Spared limits (fun inner => some (true, inner)) fun inner => some (true, inner) := by
    intro inner q hq
    cases hq
    exact ⟨Nat.le_refl _, Nat.le_refl _, fun _ _ => rfl⟩
  obtain ⟨hs, hd, hsame⟩ := h position _ _ hdone m tried htried
  obtain ⟨hs', hd', hsame'⟩ := resumeAssertion_spared hnext negated tried.1 m.captures position _ r hr
  dsimp only at hs' hd'
  refine ⟨hs.trans hs', hd.trans hd', fun hsteps hdepth => ?_⟩
  simp only [lookaround, hsame (hs'.trans hsteps) (hd'.trans hdepth), Option.bind_some]
  exact hsame' hsteps hdepth

theorem scan_spared (single : ℕ → Option ℕ) (backward : Bool) (max : Option ℕ) (fuel count last : ℕ) (m : Matcher)
    (h : m.steps + (singleEnds single backward max fuel count last).length ≤ limits.steps) :
    scan (some limits) single backward max fuel count last m = scan none single backward max fuel count last m := by
  induction fuel generalizing count last m with
  | zero => rfl
  | succ fuel ih =>
    unfold singleEnds at h
    unfold scan
    by_cases hmax : max.all (count < ·) = true
    · simp only [hmax, if_true] at h ⊢
      cases hlength : single last with
      | none => rfl
      | some length =>
        simp only [hlength, List.length_cons] at h
        have hwithin : ¬limits.steps < m.steps + 1 := by omega
        simp only [Option.any_some, Option.any_none, decide_eq_false hwithin, Bool.false_eq_true, if_false]
        rw [ih (count + 1) (move backward last length) { m with steps := m.steps + 1 } (by dsimp only; omega)]
    · simp only [hmax, Bool.false_eq_true, if_false]

theorem tryEnds_spared {next next' : Continuation} (hnext : ∀ ending, Spared limits (next ending) (next' ending))
    (endings : List ℕ) : Spared limits (tryEnds (some limits) next endings) (tryEnds none next' endings) := by
  induction endings with
  | nil => exact spared_fail
  | cons ending endings ih => exact ((hnext ending).orElse ih).ticked

theorem simpleRepeat_spared (input : List ℕ) (single : ℕ → Option ℕ) (backward : Bool) (min : ℕ) (max : Option ℕ)
    (greedy : Bool) :
    SparedBy limits (simpleRepeat input (some limits) single backward min max greedy)
      (simpleRepeat input none single backward min max greedy) := by
  intro position next next' hnext m r hr
  have hscan := @scan_spared limits single backward max (input.length + 1) 0 position m
  rw [scan_none] at hscan
  simp only [simpleRepeat, scan_none, Bool.not_true, Bool.false_eq_true, if_false] at hr
  split at hr
  · rename_i hfew
    cases hr
    refine ⟨Nat.le_add_right _ _, Nat.le_refl _, fun hs _ => ?_⟩
    simp only [simpleRepeat, hscan hs, Bool.not_true, Bool.false_eq_true, if_false]
    rw [if_pos hfew]
    rfl
  · rename_i hmany
    obtain ⟨hs, hd, hsame⟩ := tryEnds_spared hnext _ _ r hr
    dsimp only at hs hd
    refine ⟨(Nat.le_add_right _ _).trans hs, hd, fun hsteps hdepth => ?_⟩
    simp only [simpleRepeat, hscan (hs.trans hsteps), Bool.not_true, Bool.false_eq_true, if_false]
    rw [if_neg hmany]
    exact hsame hsteps hdepth

theorem attemptMore_spared {run run' : ℕ → Continuation → Run} {again again' : ℕ → Run} (h : SparedBy limits run run')
    (hagain : ∀ advanced, Spared limits (again advanced) (again' advanced)) (min : ℕ) (max : Option ℕ)
    (reset : Option (ℕ × ℕ)) (position count : ℕ) :
    Spared limits (attemptMore run again min max reset position count)
      (attemptMore run' again' min max reset position count) := by
  unfold attemptMore
  by_cases hmax : max.all (count < ·) = true
  · simp only [hmax, if_true]
    apply Spared.orRestore (restoreRange reset)
    refine Spared.change (fun m => { m with captures := clearRange reset m.captures }) ?_ (fun _ => rfl) fun _ => rfl
    apply h
    intro advanced
    by_cases hstays : (decide (advanced = position) && decide (min ≤ count)) = true
    · simp only [hstays, if_true]
      exact spared_fail
    · simp only [hstays, Bool.false_eq_true, if_false]
      exact hagain advanced
  · simp only [hmax, Bool.false_eq_true, if_false]
    exact spared_fail

theorem quantifier_spared {run run' : ℕ → Continuation → Run} (h : SparedBy limits run run') {next next' : Continuation}
    (hnext : ∀ ending, Spared limits (next ending) (next' ending)) (min : ℕ) (max : Option ℕ) (greedy : Bool)
    (reset : Option (ℕ × ℕ)) (fuel position count : ℕ) :
    Spared limits (quantifier (some limits) run min max greedy reset next fuel position count)
      (quantifier none run' min max greedy reset next' fuel position count) := by
  induction fuel generalizing position count with
  | zero =>
    intro m r hr
    cases hr
  | succ fuel ih =>
    have hmore := attemptMore_spared h (fun advanced => ih advanced (count + 1)) min max reset position count
    apply Spared.ticked
    by_cases hcount : count < min
    · simp only [hcount, if_true]
      exact hmore
    · simp only [hcount, if_false]
      cases greedy with
      | true => exact hmore.orElse (hnext position)
      | false => exact (hnext position).orElse hmore

theorem nodeInner_spared (tables : Tables Property) (input : List ℕ)
    {run run' : Bool → Node Property → ℕ → Continuation → Run}
    (h : ∀ backward node, SparedBy limits (run backward node) (run' backward node)) (fuel : ℕ) (backward : Bool)
    (node : Node Property) :
    SparedBy limits (nodeInner tables input (some limits) run fuel backward node)
      (nodeInner tables input none run' fuel backward node) := by
  intro position next next' hnext m
  cases node with
  | empty => exact hnext position m
  | literal value =>
    unfold nodeInner
    dsimp only
    cases singleLength tables input m.flags backward (.literal value) position with
    | none => exact spared_fail m
    | some length => exact hnext _ m
  | anyChar =>
    unfold nodeInner
    dsimp only
    cases singleLength tables input m.flags backward .anyChar position with
    | none => exact spared_fail m
    | some length => exact hnext _ m
  | «class» negated items =>
    unfold nodeInner
    dsimp only
    cases singleLength tables input m.flags backward (.class negated items) position with
    | none => exact spared_fail m
    | some length => exact hnext _ m
  | sequence items => exact sequence_spared (h backward) _ position next next' hnext m
  | alternative branches => exact alternative_spared (h backward) branches position next next' hnext m
  | group index body =>
    cases index with
    | none => exact h backward body position next next' hnext m
    | some index => exact group_spared backward index body (h backward body) position next next' hnext m
  | lookahead negated body => exact lookaround_spared (h false body) negated position next next' hnext m
  | lookbehind negated body => exact lookaround_spared (h true body) negated position next next' hnext m
  | backreference indices =>
    unfold nodeInner
    dsimp only
    cases backreferenceEnd tables input m.flags backward indices m.captures position with
    | none => exact spared_fail m
    | some ending => exact hnext ending m
  | quantifier min max greedy body reset =>
    unfold nodeInner
    dsimp only
    by_cases hsingle : body.isSingle = true
    · rw [if_pos hsingle, if_pos hsingle]
      exact simpleRepeat_spared input _ backward min max greedy position next next' hnext m
    · rw [if_neg hsingle, if_neg hsingle]
      exact quantifier_spared (h backward body) hnext min max greedy reset fuel position 0 m
  | anchorStart =>
    unfold nodeInner
    dsimp only
    split
    · exact hnext position m
    · exact spared_fail m
  | anchorEnd =>
    unfold nodeInner
    dsimp only
    split
    · exact hnext position m
    · exact spared_fail m
  | wordBoundary expected =>
    unfold nodeInner
    dsimp only
    split
    · exact hnext position m
    · exact spared_fail m
  | modifiers ignoreCase multiline dotAll body =>
    have hbody := h backward body position _ _ fun ending =>
      ((hnext ending).change (fun inner => { inner with flags := m.flags }) (fun _ => rfl) fun _ => rfl).map
        (fun r => (r.1, { r.2 with flags := modified m.flags ignoreCase multiline dotAll })) (fun _ => rfl) fun _ => rfl
    exact ((hbody.change (fun inner => { inner with flags := modified m.flags ignoreCase multiline dotAll })
      (fun _ => rfl) fun _ => rfl).map (fun r => (r.1, { r.2 with flags := m.flags })) (fun _ => rfl) fun _ => rfl) m

/-- the depth check does not bite where the level that was reached is within the limit -/
theorem node_spared (tables : Tables Property) (input : List ℕ) (fuel : ℕ) (backward : Bool) (pattern : Node Property) :
    SparedBy limits (node tables input (some limits) fuel backward pattern)
      (node tables input none fuel backward pattern) := by
  induction fuel generalizing backward pattern with
  | zero =>
    intro position next next' _ m r hr
    cases hr
  | succ fuel ih =>
    intro position next next' hnext m r hr
    obtain ⟨inner, hinner, rfl⟩ := Option.map_eq_some_iff.1 hr
    have hspared := (nodeInner_spared tables input ih fuel backward pattern position next next' hnext).ticked
    obtain ⟨hs, hd, hsame⟩ := hspared _ inner hinner
    dsimp only at hs hd
    have hdeep : m.depth + 1 ≤ inner.2.deepest := (Nat.le_max_right _ _).trans hd
    refine ⟨hs, (Nat.le_max_left _ _).trans hd, fun hsteps hdepth => ?_⟩
    have hshallow : ¬limits.depth ≤ m.depth := by
      dsimp only at hdepth
      omega
    simp only [node, Option.bind_some, if_neg hshallow]
    rw [hsame hsteps hdepth, Option.map_some]

end Constructs

end Render.Js.Regex
