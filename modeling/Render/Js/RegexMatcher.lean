/-
The matcher of `regex.rs` without limits gives the first of the ways of a pattern (`Render.Js.RegexSemantics`).

A continuation is described by what it makes of each way: `Agrees` says that a call gives the result that is stated for it,
or fails with the captures it was given. Where the continuation agrees at every way of a pattern, `node` agrees at the start
of the pattern, with the first result there is among its ways (`node_agrees`).
-/
import Render.Js.RegexPositions

namespace Render.Js.Regex

/-! ## First results -/

theorem findSome?_flatMap {α β γ : Type} (outcome : β → Option γ) (rest : α → List β) (first : List α) :
    (first.flatMap rest).findSome? outcome = first.findSome? fun y => (rest y).findSome? outcome := by
  induction first with
  | nil => rfl
  | cons y first ih =>
    rw [List.flatMap_cons, List.findSome?_append, ih, List.findSome?_cons]
    cases (rest y).findSome? outcome <;> rfl

theorem findSome?_filter {α γ : Type} (outcome : α → Option γ) (keep : α → Bool) (l : List α) :
    (l.filter keep).findSome? outcome = l.findSome? fun y => if keep y then outcome y else none := by
  induction l with
  | nil => rfl
  | cons y l ih =>
    rw [List.findSome?_cons, ← ih]
    by_cases hy : keep y = true
    · rw [List.filter_cons_of_pos hy, List.findSome?_cons, if_pos hy]
    · rw [List.filter_cons_of_neg hy, if_neg hy]

/-! ## Captures that are put back -/

theorem set_restore (captures : Captures) (index : ℕ) (capture : Option Span) :
    (captures.set index capture).set index (captures.getD index none) = captures := by
  rw [List.set_set]
  apply List.ext_getElem?
  intro i
  rw [List.getElem?_set]
  split_ifs with heq hlt
  · subst heq
    simp [hlt]
  · subst heq
    simp at hlt
    simp [hlt]
  · rfl

theorem restoreRange_clearRange (reset : Option (ℕ × ℕ)) (captures : Captures) :
    restoreRange reset captures (clearRange reset captures) = captures := by
  cases reset with
  | none => rfl
  | some range =>
    obtain ⟨first, last⟩ := range
    apply List.ext_getElem?
    intro i
    simp only [restoreRange, clearRange, List.getElem?_mapIdx]
    cases hi : captures[i]? with
    | none => rfl
    | some capture =>
      simp only [Option.map_some]
      by_cases hrange : (first ≤ i && i ≤ last) = true
      · rw [if_pos hrange, List.getD_eq_getElem?_getD, hi]
        rfl
      · rw [if_neg hrange, if_neg hrange]

/-! ## Agreement -/

/-- what a successful call leaves: `good` says of the captures and the ending that they are those of a way -/
abbrev Good := Way → Captures → Option ℕ → Prop

/-- a call, with given flags and captures, gives the outcome, or fails with the captures it was given -/
def Agrees (good : Good) (flags : Flags) (captures : Captures) (run : Run) (outcome : Option Way) : Prop :=
  ∀ m r, run m = some r → m.flags = flags → m.captures = captures → r.2.flags = flags ∧
    match outcome with
    | some found => r.1 = true ∧ good found r.2.captures r.2.ending
    | none => r.1 = false ∧ r.2.captures = captures

/-- a runner of a pattern follows the ways of the pattern: where the continuation agrees at every way, the call agrees
with the first outcome among them -/
def Follows (input : List ℕ) (flags : Flags) (run : ℕ → Continuation → Run) (body : Way → List Way) : Prop :=
  ∀ (good : Good) (outcome : Way → Option Way) (next : Continuation) (x : Way), x.position ≤ input.length →
    (∀ y ∈ body x, Agrees good flags y.captures (next y.position) (outcome y)) →
    Agrees good flags x.captures (run x.position next) ((body x).findSome? outcome)

section Agreement

variable {good : Good} {flags : Flags} {captures : Captures} {run other : Run} {outcome : Option Way}

theorem agrees_fail : Agrees good flags captures fail none := by
  rintro m r hr hflags hcaptures
  cases hr
  exact ⟨hflags, rfl, hcaptures⟩

/-- after a failure the other call starts as the first did -/
theorem Agrees.orElse {more : Option Way} (h : Agrees good flags captures run outcome)
    (h' : Agrees good flags captures other more) :
    Agrees good flags captures (fun m => orElse (run m) other) (outcome.or more) := by
  intro m r hr hflags hcaptures
  obtain ⟨tried, htried, hr⟩ := Option.bind_eq_some_iff.1 hr
  obtain ⟨hkept, hout⟩ := h m tried htried hflags hcaptures
  cases outcome with
  | some found =>
    obtain ⟨htrue, hgood⟩ := hout
    rw [if_pos htrue] at hr
    cases hr
    exact ⟨hkept, htrue, hgood⟩
  | none =>
    obtain ⟨hfalse, hsame⟩ := hout
    rw [if_neg (by simp [hfalse])] at hr
    exact h' tried.2 r hr hkept hsame

/-- a call on changed captures, whose failure changes them back -/
theorem Agrees.orRestore (change : Captures → Captures) (restore : Captures → Captures → Captures)
    (h : Agrees good flags (change captures) run outcome) (hrestore : restore captures (change captures) = captures) :
    Agrees good flags captures
      (fun m => orRestore (run { m with captures := change m.captures }) (restore m.captures)) outcome := by
  intro m r hr hflags hcaptures
  subst hcaptures
  obtain ⟨tried, htried, hr⟩ := Option.bind_eq_some_iff.1 hr
  obtain ⟨hkept, hout⟩ := h { m with captures := change m.captures } tried htried hflags rfl
  cases outcome with
  | some found =>
    obtain ⟨htrue, hgood⟩ := hout
    rw [if_pos htrue] at hr
    cases hr
    exact ⟨hkept, htrue, hgood⟩
  | none =>
    obtain ⟨hfalse, hsame⟩ := hout
    rw [if_neg (by simp [hfalse])] at hr
    cases hr
    exact ⟨hkept, rfl, by rw [← hsame] at hrestore; exact hrestore⟩

/-- without limits a step only counts -/
theorem Agrees.ticked (h : Agrees good flags captures run outcome) :
    Agrees good flags captures (ticked none run) outcome := by
  intro m r hr hflags hcaptures
  exact h { m with steps := m.steps + 1 } r hr hflags hcaptures

end Agreement

/-! ## One step lemma for each construct -/

section Constructs

variable {Property : Type} {input : List ℕ} {flags : Flags}

theorem follows_done : Follows input flags (fun position next => next position) fun x => [x] := by
  intro good outcome next x _ hnext
  rw [List.findSome?_singleton]
  exact hnext x (List.mem_singleton_self x)

/-- two patterns, one after the other -/
theorem Follows.flatMap {backward : Bool} {first rest : ℕ → Continuation → Run} {body more : Way → List Way}
    (hfirst : Follows input flags first body) (hreach : WaysReach input backward body)
    (hrest : Follows input flags rest more) :
    Follows input flags (fun position next => first position fun mid => rest mid next)
      fun x => (body x).flatMap more := by
  intro good outcome next x hx hnext
  rw [findSome?_flatMap]
  apply hfirst good (fun y => (more y).findSome? outcome) _ x hx
  intro y hy
  apply hrest good outcome next y (hreach x hx y hy).1
  intro z hz
  exact hnext z (List.mem_flatMap.2 ⟨y, hy, hz⟩)

theorem sequence_concat (run : Node Property → ℕ → Continuation → Run) (items : List (Node Property))
    (last : Node Property) (position : ℕ) (next : Continuation) :
    sequence run (items ++ [last]) position next = sequence run items position fun mid => run last mid next := by
  induction items generalizing position with
  | nil => rfl
  | cons item items ih =>
    rw [List.cons_append, sequence, sequence]
    congr 1
    funext mid
    exact ih mid

/-- two patterns, one instead of the other -/
theorem Follows.append {tried other : ℕ → Continuation → Run} {body more : Way → List Way}
    (h : Follows input flags tried body) (h' : Follows input flags other more) :
    Follows input flags (fun position next m => orElse (tried position next m) (other position next))
      fun x => body x ++ more x := by
  intro good outcome next x hx hnext
  rw [List.findSome?_append]
  apply Agrees.orElse
  · exact h good outcome next x hx fun y hy => hnext y (List.mem_append_left _ hy)
  · exact h' good outcome next x hx fun y hy => hnext y (List.mem_append_right _ hy)

/-- a capturing group, its capture set for the continuation -/
theorem group_follows {backward : Bool} {run : Node Property → ℕ → Continuation → Run} {node : Node Property}
    {body : Way → List Way} (h : Follows input flags (run node) body) (index : ℕ) :
    Follows input flags (group run backward index node) fun x => (body x).map fun next =>
      { next with captures := next.captures.set index (some (groupSpan backward x.position next.position)) } := by
  intro good outcome next x hx hnext
  rw [List.findSome?_map]
  refine Agrees.orRestore id (fun saved captures => captures.set index (saved.getD index none)) ?_ ?_
  · apply h good _ _ x hx
    intro y hy
    refine Agrees.orRestore (fun captures => captures.set index (some (groupSpan backward x.position y.position)))
      (fun saved captures => captures.set index (saved.getD index none)) ?_ ?_
    · exact hnext _ (List.mem_map_of_mem hy)
    · exact set_restore y.captures index _
  · have h := set_restore x.captures index (x.captures.getD index none)
    rwa [List.set_set] at h

/-- an assertion: its body is probed, with a continuation that takes any way -/
theorem lookaround_follows {probe : ℕ → Continuation → Run} {body : Way → List Way} (h : Follows input flags probe body)
    (negated : Bool) : Follows input flags (lookaround probe negated) fun x => asserts negated x (body x) := by
  intro good outcome next x hx hnext m r hr hflags hcaptures
  dsimp only at hnext ⊢
  obtain ⟨tried, htried, hr⟩ := Option.bind_eq_some_iff.1 hr
  have hprobe := h (fun way captures _ => captures = way.captures) some (fun _ inner => some (true, inner)) x hx
    (by
      rintro y - inner q hq hinner hkept
      cases hq
      exact ⟨hinner, rfl, hkept⟩) m tried htried hflags hcaptures
  cases hbody : body x with
  | nil =>
    rw [hbody] at hnext hprobe
    obtain ⟨-, hfalse, -⟩ := hprobe
    cases negated with
    | true =>
      simp only [resumeAssertion, hfalse, if_true, Bool.false_eq_true, if_false] at hr
      rw [asserts, List.findSome?_singleton]
      exact hnext x (List.mem_singleton_self x) _ r hr hflags hcaptures
    | false =>
      simp only [resumeAssertion, hfalse, Bool.false_eq_true, if_false, Bool.not_false, if_true] at hr
      have hfail : Agrees good flags x.captures fail none := agrees_fail
      exact hfail _ r hr hflags hcaptures
  | cons first others =>
    rw [hbody] at hnext hprobe
    obtain ⟨-, htrue, hfirst⟩ := hprobe
    cases negated with
    | true =>
      simp only [resumeAssertion, htrue, if_true] at hr
      have hfail : Agrees good flags x.captures fail none := agrees_fail
      exact hfail _ r hr hflags hcaptures
    | false =>
      simp only [resumeAssertion, htrue, Bool.false_eq_true, if_false, Bool.not_true] at hr
      rw [asserts, List.findSome?_singleton]
      obtain ⟨resumed, hresumed, hr⟩ := Option.bind_eq_some_iff.1 hr
      obtain ⟨hkept, hout⟩ := hnext _ (List.mem_singleton_self _) _ resumed hresumed hflags hfirst
      cases hfound : outcome { x with captures := first.captures } with
      | some found =>
        rw [hfound] at hout
        rw [if_pos hout.1] at hr
        cases hr
        exact ⟨hkept, hout⟩
      | none =>
        rw [hfound] at hout
        rw [if_neg (by simp [hout.1])] at hr
        cases hr
        exact ⟨hkept, rfl, hcaptures⟩

theorem mem_moreWays {body again : Way → List Way} {min count : ℕ} {max : Option ℕ} {reset : Option (ℕ × ℕ)} {x y z : Way}
    (hmax : max.all (count < ·) = true) (hy : y ∈ body { x with captures := clearRange reset x.captures })
    (hmoves : ¬(y.position = x.position ∧ min ≤ count)) (hz : z ∈ again y) :
    z ∈ moreWays body again min max reset count x := by
  unfold moreWays
  rw [if_pos hmax]
  refine List.mem_flatMap.2 ⟨y, List.mem_filter.2 ⟨hy, ?_⟩, hz⟩
  rw [← Bool.decide_and, decide_eq_false hmoves]
  rfl

/-- one more iteration of a repetition -/
theorem attemptMore_agrees {run : ℕ → Continuation → Run} {body again : Way → List Way} {good : Good}
    {outcome : Way → Option Way} {resume : ℕ → Run} {min count : ℕ} {max : Option ℕ} {reset : Option (ℕ × ℕ)} {x : Way}
    (h : Follows input flags run body) (hx : x.position ≤ input.length)
    (hagain : max.all (count < ·) = true → ∀ y ∈ body { x with captures := clearRange reset x.captures },
      ¬(y.position = x.position ∧ min ≤ count) →
        Agrees good flags y.captures (resume y.position) ((again y).findSome? outcome)) :
    Agrees good flags x.captures (attemptMore run resume min max reset x.position count)
      ((moreWays body again min max reset count x).findSome? outcome) := by
  unfold attemptMore moreWays
  by_cases hmax : max.all (count < ·) = true
  · simp only [hmax, if_true]
    rw [findSome?_flatMap, findSome?_filter]
    refine Agrees.orRestore (clearRange reset) (restoreRange reset) ?_ (restoreRange_clearRange reset x.captures)
    apply h good _ _ ⟨x.position, clearRange reset x.captures⟩ hx
    intro y hy
    by_cases hstays : y.position = x.position ∧ min ≤ count
    · simp only [hstays.1, hstays.2, decide_true, Bool.and_self, if_true, Bool.not_true, Bool.false_eq_true, if_false]
      exact agrees_fail
    · have hmoves : (decide (y.position = x.position) && decide (min ≤ count)) = false := by
        rw [← Bool.decide_and, decide_eq_false hstays]
      simp only [hmoves, Bool.false_eq_true, if_false, Bool.not_false, if_true]
      exact hagain hmax y hy hstays
  · simp only [hmax, Bool.false_eq_true, if_false]
    exact agrees_fail

/-- a repetition: an iteration either counts up to the minimum or moves on -/
theorem quantifier_agrees {backward : Bool} {run : ℕ → Continuation → Run} {body : Way → List Way} {good : Good}
    {outcome : Way → Option Way} {next : Continuation} {min : ℕ} {max : Option ℕ} {greedy : Bool}
    {reset : Option (ℕ × ℕ)} (h : Follows input flags run body) (hreach : WaysReach input backward body)
    (fuel bound count : ℕ) (x : Way) (hx : x.position ≤ input.length)
    (hbound : (min - count) + distance input backward x.position < bound)
    (hnext : ∀ y ∈ repeats body min max greedy reset bound count x,
      Agrees good flags y.captures (next y.position) (outcome y)) :
    Agrees good flags x.captures (quantifier none run min max greedy reset next fuel x.position count)
      ((repeats body min max greedy reset bound count x).findSome? outcome) := by
  induction fuel generalizing bound count x with
  | zero =>
    intro m r hr
    cases hr
  | succ fuel ih =>
    cases bound with
    | zero => exact absurd hbound (Nat.not_lt_zero _)
    | succ bound =>
      have hmore : (∀ y ∈ moreWays body (repeats body min max greedy reset bound (count + 1)) min max reset count x,
          Agrees good flags y.captures (next y.position) (outcome y)) →
          Agrees good flags x.captures (attemptMore run
            (fun advanced => quantifier none run min max greedy reset next fuel advanced (count + 1)) min max reset
            x.position count)
          ((moreWays body (repeats body min max greedy reset bound (count + 1)) min max reset count x).findSome?
            outcome) := by
        intro hnext
        apply attemptMore_agrees h hx
        intro hmax y hy hmoves
        have hxy : Reaches input backward x.position y.position := hreach ⟨x.position, clearRange reset x.captures⟩ hx y hy
        apply ih bound (count + 1) y hxy.1
        · -- the count is below the minimum, or the position moves
          by_cases hstays : y.position = x.position
          · have hlt : count < min := by
              by_contra hle
              exact hmoves ⟨hstays, Nat.not_lt.1 hle⟩
            rw [hstays]
            omega
          · have hlt := hxy.distance_lt hstays
            omega
        · intro z hz
          exact hnext z (mem_moreWays hmax hy hmoves hz)
      have hdone : x ∈ repeats body min max greedy reset (bound + 1) count x →
          Agrees good flags x.captures (next x.position) ([x].findSome? outcome) := by
        intro hx
        rw [List.findSome?_singleton]
        exact hnext x hx
      rw [repeats] at hnext hdone
      rw [repeats]
      apply Agrees.ticked
      by_cases hcount : count < min
      · simp only [hcount, if_true] at hnext ⊢
        exact hmore hnext
      · simp only [hcount, if_false] at hnext hdone ⊢
        cases greedy with
        | true =>
          simp only [if_true] at hnext hdone ⊢
          rw [List.findSome?_append]
          apply Agrees.orElse
          · exact hmore fun y hy => hnext y (List.mem_append_left _ hy)
          · exact hdone (List.mem_append_right _ (List.mem_singleton_self x))
        | false =>
          simp only [Bool.false_eq_true, if_false] at hnext hdone ⊢
          rw [← List.singleton_append, List.findSome?_append]
          apply Agrees.orElse
          · exact hdone List.mem_cons_self
          · exact hmore fun y hy => hnext y (List.mem_cons_of_mem _ hy)

/-! ## Repetitions of one character -/

/-- the positions behind further repetitions, which `scan` collects -/
def singleEnds (single : ℕ → Option ℕ) (backward : Bool) (max : Option ℕ) : ℕ → ℕ → ℕ → List ℕ
  | 0, _, _ => []
  | fuel + 1, count, last =>
    if max.all (count < ·) then
      match single last with
      | none => []
      | some length =>
        move backward last length :: singleEnds single backward max fuel (count + 1) (move backward last length)
    else []

theorem scan_none (single : ℕ → Option ℕ) (backward : Bool) (max : Option ℕ) (fuel count last : ℕ) (m : Matcher) :
    scan none single backward max fuel count last m =
      (true, singleEnds single backward max fuel count last,
        { m with steps := m.steps + (singleEnds single backward max fuel count last).length }) := by
  induction fuel generalizing count last m with
  | zero => rfl
  | succ fuel ih =>
    unfold scan singleEnds
    by_cases hmax : max.all (count < ·) = true
    · simp only [hmax, if_true]
      cases single last with
      | none => rfl
      | some length =>
        simp only [Option.any_none, Bool.false_eq_true, if_false, ih, List.length_cons]
        simp only [Nat.add_assoc, Nat.add_comm 1]
    · simp only [hmax, Bool.false_eq_true, if_false]
      rfl

theorem tryEnds_agrees {good : Good} {outcome : Way → Option Way} {next : Continuation} {captures : Captures}
    {endings : List ℕ} (hnext : ∀ p ∈ endings, Agrees good flags captures (next p) (outcome ⟨p, captures⟩)) :
    Agrees good flags captures (tryEnds none next endings) ((endings.map (Way.mk · captures)).findSome? outcome) := by
  induction endings with
  | nil => exact agrees_fail
  | cons ending endings ih =>
    have hcons (l : List Way) : (⟨ending, captures⟩ :: l).findSome? outcome =
        (outcome ⟨ending, captures⟩).or (l.findSome? outcome) := by
      rw [List.findSome?_cons]
      cases outcome ⟨ending, captures⟩ <;> rfl
    rw [List.map_cons, hcons]
    apply Agrees.ticked
    apply Agrees.orElse
    · exact hnext ending List.mem_cons_self
    · exact ih fun p hp => hnext p (List.mem_cons_of_mem _ hp)

theorem repeats_singleWays (tables : Tables Property) (node : Node Property) (flags : Flags) (backward : Bool) (min : ℕ)
    (max : Option ℕ) (greedy : Bool) (bound fuel count : ℕ) (x : Way) (hx : x.position ≤ input.length)
    (hbound : distance input backward x.position < bound) (hfuel : distance input backward x.position < fuel) :
    let ends := x.position ::
      singleEnds (singleLength tables input flags backward node) backward max fuel count x.position
    repeats (singleWays tables input node flags backward) min max greedy none bound count x =
      (if greedy then (ends.drop (min - count)).reverse else ends.drop (min - count)).map (Way.mk · x.captures) := by
  induction bound generalizing fuel count x with
  | zero => exact absurd hbound (Nat.not_lt_zero _)
  | succ bound ih =>
    cases fuel with
    | zero => exact absurd hfuel (Nat.not_lt_zero _)
    | succ fuel =>
      have hmore : moreWays (singleWays tables input node flags backward)
          (repeats (singleWays tables input node flags backward) min max greedy none bound (count + 1)) min max none
          count x =
          (let ends := singleEnds (singleLength tables input flags backward node) backward max (fuel + 1) count x.position
          (if greedy then (ends.drop (min - (count + 1))).reverse else ends.drop (min - (count + 1))).map
            (Way.mk · x.captures)) := by
        unfold moreWays singleEnds
        by_cases hmax : max.all (count < ·) = true
        · simp only [hmax, if_true, clearRange, singleWays]
          cases hsingle : singleLength tables input flags backward node x.position with
          | none => simp
          | some length =>
            obtain ⟨hreach, hmoves⟩ := singleLength_reaches hx hsingle
            have hlt := hreach.distance_lt hmoves
            have hagain := ih fuel (count + 1) ⟨move backward x.position length, x.captures⟩ hreach.1
              (by dsimp only; omega) (by dsimp only; omega)
            simpa [hmoves] using hagain
        · simp only [hmax, Bool.false_eq_true, if_false]
          simp
      intro ends
      rw [repeats, hmore]
      by_cases hcount : count < min
      · have hsub : min - count = min - (count + 1) + 1 := by omega
        simp only [hcount, if_true, ends, hsub, List.drop_succ_cons]
      · have hsub : min - count = 0 := by omega
        have hsub' : min - (count + 1) = 0 := by omega
        cases greedy <;> simp [hcount, ends, hsub, hsub']

theorem simpleRepeat_follows (tables : Tables Property) (node : Node Property) (backward : Bool) (min : ℕ)
    (max : Option ℕ) (greedy : Bool) :
    Follows input flags
      (simpleRepeat input none (singleLength tables input flags backward node) backward min max greedy)
      (repeats (singleWays tables input node flags backward) min max greedy none (min + input.length + 1) 0) := by
  intro good outcome next x hx hnext
  have hdist : distance input backward x.position ≤ input.length := distance_le_length hx
  have hways := repeats_singleWays tables node flags backward min max greedy (min + input.length + 1)
    (input.length + 1) 0 x hx (by omega) (by omega)
  dsimp only at hways
  rw [Nat.sub_zero] at hways
  rw [hways] at hnext ⊢
  have htries := tryEnds_agrees fun p hp => hnext ⟨p, x.captures⟩ (List.mem_map_of_mem hp)
  intro m r hr hflags hcaptures
  simp only [simpleRepeat, scan_none, Bool.not_true, Bool.false_eq_true, if_false] at hr
  split at hr
  · -- too few repetitions: there is no end to try
    rename_i hfew
    have hdrop : List.drop min (x.position :: singleEnds (singleLength tables input flags backward node) backward max
        (input.length + 1) 0 x.position) = [] := by
      apply List.drop_eq_nil_of_le
      rw [List.length_cons] at hfew ⊢
      omega
    have hfail : Agrees good flags x.captures fail none := agrees_fail
    simpa [hdrop] using hfail _ r hr hflags hcaptures
  · exact htries _ r hr hflags hcaptures

end Constructs

/-! ## The matcher -/

section Nodes

variable {Property : Type} {tables : Tables Property} {input : List ℕ} {flags : Flags}

theorem ways_single {node : Node Property} (h : node.isSingle = true) (flags : Flags) (backward : Bool) :
    ways tables input node flags backward = singleWays tables input node flags backward := by
  funext x
  cases node <;> first | exact absurd h Bool.false_ne_true | rw [ways]

/-- the body of a modifiers group runs under other flags -/
theorem modifiers_follows {inner : Flags} {run : ℕ → Continuation → Run} {body : Way → List Way}
    (h : Follows input inner run body) :
    Follows input flags
      (fun position next m => (run position (fun ending matcher =>
        (next ending { matcher with flags := flags }).map fun r => (r.1, { r.2 with flags := inner }))
        { m with flags := inner }).map fun r => (r.1, { r.2 with flags := flags })) body := by
  intro good outcome next x hx hnext m r hr hflags hcaptures
  obtain ⟨tried, htried, rfl⟩ := Option.map_eq_some_iff.1 hr
  have hbody := h good outcome _ x hx
    (by
      intro y hy matcher q hq hmatcher hkept
      obtain ⟨ended, hended, rfl⟩ := Option.map_eq_some_iff.1 hq
      exact ⟨rfl, (hnext y hy _ ended hended rfl hkept).2⟩) { m with flags := inner } tried htried rfl hcaptures
  exact ⟨rfl, hbody.2⟩

theorem single_follows (node : Node Property) (backward : Bool) :
    Follows input flags
      (fun position next m => match singleLength tables input flags backward node position with
        | none => fail m
        | some length => next (move backward position length) m)
      (singleWays tables input node flags backward) := by
  intro good outcome next x hx hnext m r hr hflags hcaptures
  unfold singleWays at hnext ⊢
  cases hlength : singleLength tables input flags backward node x.position with
  | none =>
    simp only [hlength] at hr
    have hfail : Agrees good flags x.captures fail none := agrees_fail
    exact hfail m r hr hflags hcaptures
  | some length =>
    simp only [hlength] at hr hnext ⊢
    rw [List.findSome?_singleton]
    exact hnext _ (List.mem_singleton_self _) m r hr hflags hcaptures

theorem anchored_follows (holds : ℕ → Bool) :
    Follows input flags (fun position next m => if holds position then next position m else fail m)
      fun x => if holds x.position then [x] else [] := by
  intro good outcome next x hx hnext m r hr hflags hcaptures
  dsimp only at hr hnext ⊢
  by_cases hholds : holds x.position = true
  · rw [if_pos hholds] at hr hnext ⊢
    rw [List.findSome?_singleton]
    exact hnext x (List.mem_singleton_self x) m r hr hflags hcaptures
  · rw [if_neg hholds] at hr ⊢
    have hfail : Agrees good flags x.captures fail none := agrees_fail
    exact hfail m r hr hflags hcaptures

theorem sequence_follows {run : Node Property → ℕ → Continuation → Run} {backward : Bool}
    (h : ∀ node, Follows input flags (run node) (ways tables input node flags backward)) (items : List (Node Property)) :
    Follows input flags (sequence run (if backward then items.reverse else items))
      (waysSequence tables input items flags backward) := by
  induction items with
  | nil =>
    intro good outcome next x hx hnext
    rw [waysSequence] at hnext ⊢
    have hitems : (if backward then ([] : List (Node Property)).reverse else []) = [] := by cases backward <;> rfl
    rw [hitems]
    exact follows_done good outcome next x hx hnext
  | cons first rest ih =>
    intro good outcome next x hx hnext
    cases backward with
    | false =>
      rw [waysSequence] at hnext ⊢
      exact (h first).flatMap (ways_reach first flags false) ih good outcome next x hx hnext
    | true =>
      rw [waysSequence] at hnext ⊢
      rw [if_pos rfl, List.reverse_cons, sequence_concat]
      exact ih.flatMap (waysSequence_reach rest flags true) (h first) good outcome next x hx hnext

theorem alternative_follows {run : Node Property → ℕ → Continuation → Run} {backward : Bool}
    (h : ∀ node, Follows input flags (run node) (ways tables input node flags backward))
    (branches : List (Node Property)) :
    Follows input flags (alternative run branches) (waysAlternative tables input branches flags backward) := by
  induction branches with
  | nil =>
    intro good outcome next x hx hnext
    rw [waysAlternative] at hnext ⊢
    exact agrees_fail
  | cons branch branches ih =>
    intro good outcome next x hx hnext
    rw [waysAlternative] at hnext ⊢
    exact (h branch).append ih good outcome next x hx hnext

theorem nodeInner_follows {run : Bool → Node Property → ℕ → Continuation → Run} {fuel : ℕ}
    (h : ∀ backward flags node, Follows input flags (run backward node) (ways tables input node flags backward))
    (backward : Bool) (node : Node Property) :
    Follows input flags (nodeInner tables input none run fuel backward node) (ways tables input node flags backward) := by
  intro good outcome next x hx hnext m r hr hflags hcaptures
  cases node with
  | empty =>
    rw [ways] at hnext ⊢
    exact follows_done good outcome next x hx hnext m r hr hflags hcaptures
  | literal value =>
    rw [ways] at hnext ⊢
    subst hflags
    exact single_follows (.literal value) backward good outcome next x hx hnext m r hr rfl hcaptures
  | anyChar =>
    rw [ways] at hnext ⊢
    subst hflags
    exact single_follows .anyChar backward good outcome next x hx hnext m r hr rfl hcaptures
  | «class» negated items =>
    rw [ways] at hnext ⊢
    subst hflags
    exact single_follows (.class negated items) backward good outcome next x hx hnext m r hr rfl hcaptures
  | sequence items =>
    rw [ways] at hnext ⊢
    exact sequence_follows (h backward flags) items good outcome next x hx hnext m r hr hflags hcaptures
  | alternative branches =>
    rw [ways] at hnext ⊢
    exact alternative_follows (h backward flags) branches good outcome next x hx hnext m r hr hflags hcaptures
  | group index body =>
    cases index with
    | none =>
      rw [ways] at hnext ⊢
      exact h backward flags body good outcome next x hx hnext m r hr hflags hcaptures
    | some index =>
      rw [ways] at hnext ⊢
      exact group_follows (h backward flags body) index good outcome next x hx hnext m r hr hflags hcaptures
  | lookahead negated body =>
    rw [ways] at hnext ⊢
    exact lookaround_follows (h false flags body) negated good outcome next x hx hnext m r hr hflags hcaptures
  | lookbehind negated body =>
    rw [ways] at hnext ⊢
    exact lookaround_follows (h true flags body) negated good outcome next x hx hnext m r hr hflags hcaptures
  | backreference indices =>
    rw [ways] at hnext ⊢
    subst hflags
    simp only [nodeInner, hcaptures] at hr
    cases hending : backreferenceEnd tables input m.flags backward indices x.captures x.position with
    | none =>
      simp only [hending] at hr
      have hfail : Agrees good m.flags x.captures fail none := agrees_fail
      exact hfail m r hr rfl hcaptures
    | some ending =>
      simp only [hending] at hr hnext ⊢
      rw [List.findSome?_singleton]
      exact hnext _ (List.mem_singleton_self _) m r hr rfl hcaptures
  | quantifier min max greedy body reset =>
    rw [ways] at hnext ⊢
    by_cases hsingle : body.isSingle = true
    · subst hflags
      rw [if_pos hsingle, ways_single hsingle] at hnext ⊢
      simp only [nodeInner, if_pos hsingle] at hr
      exact simpleRepeat_follows tables body backward min max greedy good outcome next x hx hnext m r hr rfl hcaptures
    · rw [if_neg hsingle] at hnext ⊢
      simp only [nodeInner, if_neg hsingle] at hr
      have hdist : distance input backward x.position ≤ input.length := distance_le_length hx
      exact quantifier_agrees (h backward flags body) (ways_reach body flags backward) fuel _ 0 x hx (by omega) hnext m r
        hr hflags hcaptures
  | anchorStart =>
    rw [ways] at hnext ⊢
    subst hflags
    exact anchored_follows (anchorStartHolds input m.flags) good outcome next x hx hnext m r hr rfl hcaptures
  | anchorEnd =>
    rw [ways] at hnext ⊢
    subst hflags
    exact anchored_follows (anchorEndHolds input m.flags) good outcome next x hx hnext m r hr rfl hcaptures
  | wordBoundary expected =>
    rw [ways] at hnext ⊢
    subst hflags
    exact anchored_follows (wordBoundaryHolds input m.flags expected) good outcome next x hx hnext m r hr rfl hcaptures
  | modifiers ignoreCase multiline dotAll body =>
    rw [ways] at hnext ⊢
    subst hflags
    exact modifiers_follows (h backward _ body) good outcome next x hx hnext m r hr rfl hcaptures

/-- the matcher without limits follows the ways of every pattern -/
theorem node_follows (fuel : ℕ) (backward : Bool) (flags : Flags) (pattern : Node Property) :
    Follows input flags (node tables input none fuel backward pattern) (ways tables input pattern flags backward) := by
  induction fuel generalizing backward flags pattern with
  | zero =>
    intro good outcome next x _ _ m r hr
    cases hr
  | succ fuel ih =>
    intro good outcome next x hx hnext m r hr hflags hcaptures
    obtain ⟨inner, hinner, rfl⟩ := Option.map_eq_some_iff.1 hr
    have hfollows := @nodeInner_follows _ tables input flags _ fuel ih backward pattern good outcome next x hx hnext
    exact hfollows.ticked _ inner hinner hflags hcaptures

/-- an attempt without limits gives the first way at its start -/
theorem attempt_follows {compiled : Compiled Property} {fuel start : ℕ} {r : Bool × Matcher}
    (hstart : start ≤ input.length) (h : attempt tables input none fuel compiled start = some r) :
    match (ways tables input compiled.root compiled.flags false
      ⟨start, List.replicate (compiled.groupCount + 1) none⟩).head? with
    | some found => r.1 = true ∧ r.2.captures = found.captures ∧ r.2.ending = some found.position
    | none => r.1 = false := by
  have hnode := @node_follows _ tables input fuel false compiled.flags compiled.root
    (fun way captures ending => captures = way.captures ∧ ending = some way.position) some _
    ⟨start, List.replicate (compiled.groupCount + 1) none⟩ hstart
    (by
      rintro y - m q hq hflags hcaptures
      cases hq
      exact ⟨hflags, rfl, hcaptures, rfl⟩) _ r h rfl rfl
  cases hways : ways tables input compiled.root compiled.flags false
      ⟨start, List.replicate (compiled.groupCount + 1) none⟩ with
  | nil =>
    rw [hways] at hnode
    exact hnode.2.1
  | cons first others =>
    rw [hways] at hnode
    exact hnode.2

end Nodes

end Render.Js.Regex
