/-
With limits every call of the matcher returns: each call of `node` and of `quantifier` takes a step, and past the last step
nothing is tried (`tick`). One unit of fuel for each step that is left is enough.
-/
import Render.Js.RegexPositions

namespace Render.Js.Regex

/-- the steps that are left, with the one that fails -/
def left (limits : Limits) (m : Matcher) : ℕ := limits.steps + 1 - m.steps

/-- a call with fewer steps left than the bound returns, with no more steps left -/
def Returns (limits : Limits) (bound : ℕ) (run : Run) : Prop :=
  ∀ m, left limits m < bound → ∃ r, run m = some r ∧ left limits r.2 ≤ left limits m

/-- a runner of a pattern returns where its continuation does -/
def ReturnsBy (limits : Limits) (bound : ℕ) (run : ℕ → Continuation → Run) : Prop :=
  ∀ (position : ℕ) (next : Continuation), (∀ ending, Returns limits bound (next ending)) →
    Returns limits bound (run position next)

section Return

variable {limits : Limits} {bound : ℕ} {run other : Run}

theorem Returns.mono {bound' : ℕ} (h : Returns limits bound run) (hle : bound' ≤ bound) :
    Returns limits bound' run := fun m hm => h m (Nat.lt_of_lt_of_le hm hle)

theorem returns_fail : Returns limits bound fail := fun m _ => ⟨(false, m), rfl, Nat.le_refl _⟩

theorem Returns.orElse (h : Returns limits bound run) (h' : Returns limits bound other) :
    Returns limits bound fun m => orElse (run m) other := by
  intro m hm
  obtain ⟨tried, htried, hleft⟩ := h m hm
  by_cases htrue : tried.1 = true
  · exact ⟨tried, by simp only [Regex.orElse, htried, Option.bind_some, htrue, if_true], hleft⟩
  · obtain ⟨r, hr, hleft'⟩ := h' tried.2 (Nat.lt_of_le_of_lt hleft hm)
    exact ⟨r, by simp only [Regex.orElse, htried, Option.bind_some, htrue, Bool.false_eq_true, if_false, hr],
      hleft'.trans hleft⟩

theorem Returns.change (change : Matcher → Matcher) (h : Returns limits bound run)
    (hsteps : ∀ m, (change m).steps = m.steps) : Returns limits bound fun m => run (change m) := by
  intro m hm
  have hleft : left limits (change m) = left limits m := by rw [left, hsteps, left]
  obtain ⟨r, hr, hle⟩ := h (change m) (by rwa [hleft])
  exact ⟨r, hr, by rwa [hleft] at hle⟩

theorem Returns.map (change : Bool × Matcher → Bool × Matcher) (h : Returns limits bound run)
    (hsteps : ∀ r, (change r).2.steps = r.2.steps) : Returns limits bound fun m => (run m).map change := by
  intro m hm
  obtain ⟨r, hr, hle⟩ := h m hm
  refine ⟨change r, by simp only [hr, Option.map_some], ?_⟩
  rw [left, hsteps]
  exact hle

theorem Returns.orRestore (restore : Captures → Captures → Captures) (h : Returns limits bound run) :
    Returns limits bound fun m => orRestore (run m) (restore m.captures) := by
  intro m
  have hrestored : Returns limits bound
      fun inner => some (false, { inner with captures := restore m.captures inner.captures }) :=
    fun inner _ => ⟨_, rfl, Nat.le_refl _⟩
  exact h.orElse hrestored m

/-- a step takes from what is left -/
theorem Returns.ticked (h : Returns limits bound run) : Returns limits (bound + 1) (ticked (some limits) run) := by
  intro m hm
  unfold left at hm
  by_cases hover : limits.steps < m.steps + 1
  · refine ⟨(false, { m with steps := m.steps + 1 }), ?_, ?_⟩
    · simp only [Regex.ticked, Option.any_some, hover, decide_true, if_true]
    · unfold left
      dsimp only
      omega
  · obtain ⟨r, hr, hle⟩ := h { m with steps := m.steps + 1 } (by unfold left; dsimp only; omega)
    refine ⟨r, ?_, ?_⟩
    · simp only [Regex.ticked, Option.any_some, hover, decide_false, Bool.false_eq_true, if_false, hr]
    · unfold left at hle ⊢
      dsimp only at hle
      omega

end Return

section Constructs

variable {Property : Type} {limits : Limits} {bound : ℕ}

theorem sequence_returns {run : Node Property → ℕ → Continuation → Run} (h : ∀ node, ReturnsBy limits bound (run node))
    (items : List (Node Property)) : ReturnsBy limits bound (sequence run items) := by
  induction items with
  | nil =>
    intro position next hnext
    exact hnext position
  | cons first rest ih =>
    intro position next hnext
    exact h first position _ fun mid => ih mid next hnext

theorem alternative_returns {run : Node Property → ℕ → Continuation → Run}
    (h : ∀ node, ReturnsBy limits bound (run node)) (branches : List (Node Property)) :
    ReturnsBy limits bound (alternative run branches) := by
  induction branches with
  | nil =>
    intro position next _
    exact returns_fail
  | cons branch branches ih =>
    intro position next hnext
    exact (h branch position next hnext).orElse (ih position next hnext)

theorem group_returns {run : Node Property → ℕ → Continuation → Run} (backward : Bool) (index : ℕ)
    (body : Node Property) (h : ReturnsBy limits bound (run body)) :
    ReturnsBy limits bound (group run backward index body) := by
  intro position next hnext
  apply Returns.orRestore fun saved captures => captures.set index (saved.getD index none)
  apply h
  intro ending
  apply Returns.orRestore fun saved captures => captures.set index (saved.getD index none)
  exact (hnext ending).change (fun inner => { inner with
    captures := inner.captures.set index (some (groupSpan backward position ending)) }) fun _ => rfl

theorem resumeAssertion_returns {next : Continuation} (hnext : ∀ ending, Returns limits bound (next ending))
    (negated succeeded : Bool) (saved : Captures) (position : ℕ) :
    Returns limits bound (resumeAssertion negated succeeded saved position next) := by
  have hchange {run : Run} (h : Returns limits bound run) :
      Returns limits bound fun m => run { m with captures := saved } :=
    h.change (fun m => { m with captures := saved }) fun _ => rfl
  unfold resumeAssertion
  cases negated <;> cases succeeded <;> simp only [if_true, Bool.false_eq_true, if_false, Bool.not_false, Bool.not_true]
  · exact hchange returns_fail
  · exact (hnext position).orRestore fun _ _ => saved
  · exact hchange (hnext position)
  · exact hchange returns_fail

theorem lookaround_returns {probe : ℕ → Continuation → Run} (h : ReturnsBy limits bound probe) (negated : Bool) :
    ReturnsBy limits bound (lookaround probe negated) := by
  intro position next hnext m hm
  obtain ⟨tried, htried, hleft⟩ := h position (fun _ inner => some (true, inner))
    (fun _ inner _ => ⟨(true, inner), rfl, Nat.le_refl _⟩) m hm
  obtain ⟨r, hr, hleft'⟩ := resumeAssertion_returns hnext negated tried.1 m.captures position
    { m with captures := tried.2.captures, steps := tried.2.steps, deepest := tried.2.deepest }
    (Nat.lt_of_le_of_lt hleft hm)
  exact ⟨r, by simp only [lookaround, htried, Option.bind_some, hr], hleft'.trans hleft⟩

theorem scan_steps (single : ℕ → Option ℕ) (backward : Bool) (max : Option ℕ) (fuel count last : ℕ) (m : Matcher) :
    m.steps ≤ (scan (some limits) single backward max fuel count last m).2.2.steps := by
  induction fuel generalizing count last m with
  | zero => exact Nat.le_refl _
  | succ fuel ih =>
    unfold scan
    split
    · split
      · exact Nat.le_refl _
      · dsimp only
        split
        · exact Nat.le_succ _
        · exact (Nat.le_succ m.steps).trans (ih (count + 1) _ { m with steps := m.steps + 1 })
    · exact Nat.le_refl _

theorem tryEnds_returns {next : Continuation} (hnext : ∀ ending, Returns limits bound (next ending))
    (endings : List ℕ) : Returns limits bound (tryEnds (some limits) next endings) := by
  induction endings with
  | nil => exact returns_fail
  | cons ending endings ih => exact ((hnext ending).orElse ih).ticked.mono (Nat.le_succ _)

theorem simpleRepeat_returns (input : List ℕ) (single : ℕ → Option ℕ) (backward : Bool) (min : ℕ) (max : Option ℕ)
    (greedy : Bool) :
    ReturnsBy limits bound (simpleRepeat input (some limits) single backward min max greedy) := by
  intro position next hnext m hm
  have hsteps := @scan_steps limits single backward max (input.length + 1) 0 position m
  have hleft : left limits (scan (some limits) single backward max (input.length + 1) 0 position m).2.2 ≤
      left limits m := by
    unfold left
    omega
  have hrun (run : Run) (h : Returns limits bound run) :
      ∃ r, run (scan (some limits) single backward max (input.length + 1) 0 position m).2.2 = some r ∧
        left limits r.2 ≤ left limits m := by
    obtain ⟨r, hr, hle⟩ := h _ (Nat.lt_of_le_of_lt hleft hm)
    exact ⟨r, hr, hle.trans hleft⟩
  unfold simpleRepeat
  dsimp only
  split
  · exact hrun fail returns_fail
  · split
    · exact hrun fail returns_fail
    · exact hrun _ (tryEnds_returns hnext _)

theorem attemptMore_returns {run : ℕ → Continuation → Run} {again : ℕ → Run} (h : ReturnsBy limits bound run)
    (hagain : ∀ advanced, Returns limits bound (again advanced)) (min : ℕ) (max : Option ℕ) (reset : Option (ℕ × ℕ))
    (position count : ℕ) : Returns limits bound (attemptMore run again min max reset position count) := by
  unfold attemptMore
  by_cases hmax : max.all (count < ·) = true
  · simp only [hmax, if_true]
    apply Returns.orRestore (restoreRange reset)
    refine Returns.change (fun m => { m with captures := clearRange reset m.captures }) ?_ fun _ => rfl
    apply h
    intro advanced
    by_cases hstays : (decide (advanced = position) && decide (min ≤ count)) = true
    · simp only [hstays, if_true]
      exact returns_fail
    · simp only [hstays, Bool.false_eq_true, if_false]
      exact hagain advanced
  · simp only [hmax, Bool.false_eq_true, if_false]
    exact returns_fail

theorem returns_zero {run : Run} : Returns limits 0 run := fun m hm => absurd hm (Nat.not_lt_zero _)

theorem quantifier_returns {run : ℕ → Continuation → Run} {fuel : ℕ} (hfuel : bound ≤ fuel)
    (h : ∀ bound ≤ fuel, ReturnsBy limits bound run) {next : Continuation}
    (hnext : ∀ ending, Returns limits bound (next ending)) (min : ℕ) (max : Option ℕ) (greedy : Bool)
    (reset : Option (ℕ × ℕ)) (position count : ℕ) :
    Returns limits bound (quantifier (some limits) run min max greedy reset next fuel position count) := by
  induction fuel generalizing bound position count with
  | zero =>
    obtain rfl : bound = 0 := Nat.le_zero.1 hfuel
    exact returns_zero
  | succ fuel ih =>
    cases bound with
    | zero => exact returns_zero
    | succ bound =>
      have hbound : bound ≤ fuel := Nat.le_of_succ_le_succ hfuel
      have hnext' (ending : ℕ) : Returns limits bound (next ending) := (hnext ending).mono (Nat.le_succ _)
      have hagain (advanced : ℕ) : Returns limits bound
          (quantifier (some limits) run min max greedy reset next fuel advanced (count + 1)) :=
        ih hbound (fun bound hle => h bound (hle.trans (Nat.le_succ _))) hnext' advanced (count + 1)
      have hmore := attemptMore_returns (h bound (hbound.trans (Nat.le_succ _))) hagain min max reset position count
      apply Returns.ticked
      by_cases hcount : count < min
      · simp only [hcount, if_true]
        exact hmore
      · simp only [hcount, if_false]
        cases greedy with
        | true => exact hmore.orElse (hnext' position)
        | false => exact (hnext' position).orElse hmore

theorem nodeInner_returns (tables : Tables Property) (input : List ℕ)
    {run : Bool → Node Property → ℕ → Continuation → Run} {fuel : ℕ} (hfuel : bound ≤ fuel)
    (h : ∀ bound ≤ fuel, ∀ backward node, ReturnsBy limits bound (run backward node)) (backward : Bool)
    (node : Node Property) : ReturnsBy limits bound (nodeInner tables input (some limits) run fuel backward node) := by
  intro position next hnext m
  cases node with
  | empty => exact hnext position m
  | literal value =>
    unfold nodeInner
    dsimp only
    cases singleLength tables input m.flags backward (.literal value) position with
    | none => exact returns_fail m
    | some length => exact hnext _ m
  | anyChar =>
    unfold nodeInner
    dsimp only
    cases singleLength tables input m.flags backward .anyChar position with
    | none => exact returns_fail m
    | some length => exact hnext _ m
  | «class» negated items =>
    unfold nodeInner
    dsimp only
    cases singleLength tables input m.flags backward (.class negated items) position with
    | none => exact returns_fail m
    | some length => exact hnext _ m
  | sequence items => exact sequence_returns (h bound hfuel backward) _ position next hnext m
  | alternative branches => exact alternative_returns (h bound hfuel backward) branches position next hnext m
  | group index body =>
    cases index with
    | none => exact h bound hfuel backward body position next hnext m
    | some index => exact group_returns backward index body (h bound hfuel backward body) position next hnext m
  | lookahead negated body => exact lookaround_returns (h bound hfuel false body) negated position next hnext m
  | lookbehind negated body => exact lookaround_returns (h bound hfuel true body) negated position next hnext m
  | backreference indices =>
    unfold nodeInner
    dsimp only
    cases backreferenceEnd tables input m.flags backward indices m.captures position with
    | none => exact returns_fail m
    | some ending => exact hnext ending m
  | quantifier min max greedy body reset =>
    unfold nodeInner
    dsimp only
    by_cases hsingle : body.isSingle = true
    · rw [if_pos hsingle]
      exact simpleRepeat_returns input _ backward min max greedy position next hnext m
    · rw [if_neg hsingle]
      exact quantifier_returns hfuel (fun bound hle => h bound hle backward body) hnext min max greedy reset position 0 m
  | anchorStart =>
    unfold nodeInner
    dsimp only
    split
    · exact hnext position m
    · exact returns_fail m
  | anchorEnd =>
    unfold nodeInner
    dsimp only
    split
    · exact hnext position m
    · exact returns_fail m
  | wordBoundary expected =>
    unfold nodeInner
    dsimp only
    split
    · exact hnext position m
    · exact returns_fail m
  | modifiers ignoreCase multiline dotAll body =>
    have hbody := h bound hfuel backward body position _ fun ending =>
      ((hnext ending).change (fun inner => { inner with flags := m.flags }) fun _ => rfl).map
        (fun r => (r.1, { r.2 with flags := modified m.flags ignoreCase multiline dotAll })) fun _ => rfl
    exact ((hbody.change (fun inner => { inner with flags := modified m.flags ignoreCase multiline dotAll })
      fun _ => rfl).map (fun r => (r.1, { r.2 with flags := m.flags })) fun _ => rfl) m

theorem node_returns (tables : Tables Property) (input : List ℕ) {fuel : ℕ} (hfuel : bound ≤ fuel) (backward : Bool)
    (pattern : Node Property) : ReturnsBy limits bound (node tables input (some limits) fuel backward pattern) := by
  induction fuel generalizing bound backward pattern with
  | zero =>
    obtain rfl : bound = 0 := Nat.le_zero.1 hfuel
    exact fun _ _ _ => returns_zero
  | succ fuel ih =>
    intro position next hnext
    cases bound with
    | zero => exact returns_zero
    | succ bound =>
      have hbound : bound ≤ fuel := Nat.le_of_succ_le_succ hfuel
      have hinner := (nodeInner_returns tables input hbound (fun bound hle => ih hle) backward pattern position next
        fun ending => (hnext ending).mono (Nat.le_succ _)).ticked
      intro m hm
      by_cases hdeep : limits.depth ≤ m.depth
      · refine ⟨(false, { m with steps := limits.steps + 1 }), ?_, ?_⟩
        · simp only [node, Option.bind_some, if_pos hdeep]
        · unfold left
          dsimp only
          omega
      · obtain ⟨r, hr, hle⟩ :=
          hinner { m with depth := m.depth + 1, deepest := Nat.max m.deepest (m.depth + 1) } hm
        refine ⟨(r.1, { r.2 with depth := r.2.depth - 1 }), ?_, hle⟩
        simp only [node, Option.bind_some, if_neg hdeep, hr, Option.map_some]

end Constructs

/-! ## The search -/

section Search

variable {Property : Type} (tables : Tables Property) (input : List ℕ)

/-- an attempt returns when there is fuel for each step -/
theorem attempt_returns {limits : Limits} {fuel : ℕ} (hfuel : limits.steps + 1 < fuel) (compiled : Compiled Property)
    (start : ℕ) : ∃ r, attempt tables input (some limits) fuel compiled start = some r := by
  have hnext (ending : ℕ) : Returns limits fuel fun m => some (true, { m with ending := some ending }) :=
    fun m _ => ⟨_, rfl, Nat.le_refl _⟩
  obtain ⟨r, hr, -⟩ := node_returns tables input (Nat.le_refl fuel) false compiled.root start _ hnext (.new compiled)
    (by simpa [left, Matcher.new] using hfuel)
  exact ⟨r, hr⟩

theorem nextStart_bounds (unicode : Bool) {start : ℕ} (h : start < input.length) :
    start < nextStart input unicode start ∧ nextStart input unicode start ≤ input.length := by
  unfold nextStart
  cases unicode with
  | false => simpa using h
  | true =>
    cases hread : codePointAt input start true with
    | none => simpa using h
    | some r =>
      obtain ⟨character, length⟩ := r
      simpa using codePointAt_bounds hread

theorem firstStart_le (unicode : Bool) (start : ℕ) : firstStart input unicode start ≤ input.length := by
  have hmin : Nat.min start input.length ≤ input.length := Nat.min_le_right _ _
  unfold firstStart
  split
  · exact (Nat.sub_le _ _).trans hmin
  · exact hmin

/-- the search returns: each pass starts further on -/
theorem search_returns {limits : Limits} {fuel : ℕ} (hfuel : limits.steps + 1 < fuel) (compiled : Compiled Property)
    (passes start : ℕ) (hstart : start ≤ input.length) (hpasses : input.length < passes + start) :
    ∃ found, search tables input (some limits) fuel compiled passes start = some found := by
  induction passes generalizing start with
  | zero => omega
  | succ passes ih =>
    obtain ⟨r, hr⟩ := attempt_returns tables input hfuel compiled start
    unfold search
    rw [hr]
    split
    · contradiction
    · exact ⟨_, rfl⟩
    · split
      · exact ⟨_, rfl⟩
      · rename_i hgo
        have hlt : start < input.length := by
          by_contra hle
          exact hgo (by simp [Nat.not_lt.1 hle])
        obtain ⟨hnext, hle⟩ := nextStart_bounds input compiled.flags.unicode hlt
        exact ih _ hle (by omega)

/-- every search returns -/
theorem find_returns (compiled : Compiled Property) (start : ℕ) (spawned : Bool) :
    ∃ found, find tables compiled input start spawned = some found :=
  search_returns tables input (Nat.lt_succ_self _) compiled _ _ (firstStart_le input _ start) (by omega)

end Search

end Render.Js.Regex
