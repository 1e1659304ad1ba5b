/-
What the matcher carries through a pattern. A relation between two runs of the matcher, on two inputs or under two
limits, holds of a whole pattern (`node_carried`) when it holds of the few ways in which the matcher puts runs together
(`Carries`) and the two inputs answer alike at the leaves of the pattern (`LeafFits`).

`Places` says where the two runs can be: the positions that are good, those reached from them, and the flags. An
invariant of one run is a relation of the run with itself; `KeepsEqual` makes the relation of a property of matchers.
-/
import Render.Js.RegexMatcher

namespace Render.Js.Regex

/-! ## Places -/

/-- where a run can be: the good positions, the positions reached from one of them, and the flags -/
structure Places where
  Ok : ℕ → Prop
  Reach : Bool → ℕ → ℕ → Prop
  FlagsOk : Flags → Prop
  target : ∀ {backward p q}, Reach backward p q → Ok q
  refl : ∀ {backward p}, Ok p → Reach backward p p
  trans : ∀ {backward p q r}, Reach backward p q → Reach backward q r → Reach backward p r

/-- the groups lie at good positions -/
def SpansAt (Ok : ℕ → Prop) (captures : Captures) : Prop := ∀ span, some span ∈ captures → Ok span.1 ∧ Ok span.2

section Spans

variable {Ok : ℕ → Prop} {captures saved : Captures}

theorem spansAt_replicate (n : ℕ) : SpansAt Ok (List.replicate n none) := fun _ hmem => by
  cases List.eq_of_mem_replicate hmem

theorem SpansAt.getD (h : SpansAt Ok saved) {index : ℕ} {span : Span} (hspan : saved.getD index none = some span) :
    Ok span.1 ∧ Ok span.2 := by
  rw [List.getD_eq_getElem?_getD] at hspan
  cases hindex : saved[index]? with
  | none =>
    rw [hindex] at hspan
    cases hspan
  | some capture =>
    rw [hindex, Option.getD_some] at hspan
    rw [hspan] at hindex
    exact h span (List.mem_of_getElem? hindex)

theorem SpansAt.set (h : SpansAt Ok captures) (index : ℕ) {capture : Option Span}
    (hcapture : ∀ span, capture = some span → Ok span.1 ∧ Ok span.2) : SpansAt Ok (captures.set index capture) := by
  intro span hmem
  rcases List.mem_or_eq_of_mem_set hmem with hmem | heq
  · exact h span hmem
  · exact hcapture span heq.symm

theorem SpansAt.clearRange (h : SpansAt Ok captures) (reset : Option (ℕ × ℕ)) :
    SpansAt Ok (clearRange reset captures) := by
  cases reset with
  | none => exact h
  | some range =>
    intro span hmem
    obtain ⟨i, hi, heq⟩ := List.mem_mapIdx.1 hmem
    split at heq
    · cases heq
    · exact h span (heq ▸ List.getElem_mem hi)

theorem SpansAt.restoreRange (hsaved : SpansAt Ok saved) (h : SpansAt Ok captures) (reset : Option (ℕ × ℕ)) :
    SpansAt Ok (restoreRange reset saved captures) := by
  cases reset with
  | none => exact h
  | some range =>
    intro span hmem
    obtain ⟨i, hi, heq⟩ := List.mem_mapIdx.1 hmem
    split at heq
    · exact hsaved.getD heq
    · exact h span (heq ▸ List.getElem_mem hi)

end Spans

/-! ## Relations -/

/-- the depth check and the count of the levels around a call of `node` -/
def nested (limits : Option Limits) (run : Run) : Run := fun m =>
  match limits.bind fun limits => if limits.depth ≤ m.depth then some limits else none with
  | some limits => some (false, { m with steps := limits.steps + 1 })
  | none =>
    (run { m with depth := m.depth + 1, deepest := Nat.max m.deepest (m.depth + 1) }).map fun r =>
      (r.1, { r.2 with depth := r.2.depth - 1 })

/-- a relation of two calls, on matchers with given flags, that holds of what the matcher puts together when it holds of
the parts -/
structure Carries (places : Places) (limits limits' : Option Limits) (R : Flags → Run → Run → Prop) : Prop where
  stuck : ∀ {flags}, R flags (fun _ => none) fun _ => none
  accept : ∀ {flags}, R flags (fun m => some (true, m)) fun m => some (true, m)
  fail : ∀ {flags}, R flags fail fail
  orElse : ∀ {flags} {f f' g g' : Run}, R flags f f' → R flags g g' →
    R flags (fun m => orElse (f m) g) fun m => orElse (f' m) g'
  ticked : ∀ {flags} {f f' : Run}, R flags f f' → R flags (ticked limits f) (ticked limits' f')
  nested : ∀ {flags} {f f' : Run}, R flags f f' → R flags (nested limits f) (nested limits' f')
  /-- a call that depends on the captures and the flags it starts with -/
  read : ∀ {flags} (f f' : Captures → Flags → Run),
    (∀ captures, SpansAt places.Ok captures → R flags (f captures flags) (f' captures flags)) →
    R flags (fun m => f m.captures m.flags m) fun m => f' m.captures m.flags m
  write : ∀ {flags} {f f' : Run} {captures}, SpansAt places.Ok captures → R flags f f' →
    R flags (fun m => f { m with captures := captures }) fun m => f' { m with captures := captures }
  /-- a call under other flags, which are given back -/
  under : ∀ {flags inner} {f f' : Run}, R inner f f' →
    R flags (fun m => (f { m with flags := inner }).map fun r => (r.1, { r.2 with flags := flags }))
      fun m => (f' { m with flags := inner }).map fun r => (r.1, { r.2 with flags := flags })
  /-- a call that goes on with what a probe left -/
  probe : ∀ {flags} {f f' : Run} {g g' : Bool → Run}, R flags f f' →
    (∀ succeeded, R flags (g succeeded) (g' succeeded)) →
    R flags (fun m => (f m).bind fun r =>
        g r.1 { m with captures := r.2.captures, steps := r.2.steps, deepest := r.2.deepest })
      fun m => (f' m).bind fun r =>
        g' r.1 { m with captures := r.2.captures, steps := r.2.steps, deepest := r.2.deepest }

/-- a runner of a pattern is related where its continuation is, at the positions reached -/
def CarriesBy (places : Places) (R : Flags → Run → Run → Prop) (backward : Bool)
    (run run' : ℕ → Continuation → Run) : Prop :=
  ∀ (flags : Flags) (position : ℕ) (next next' : Continuation), places.FlagsOk flags → places.Ok position →
    (∀ ending, places.Reach backward position ending → R flags (next ending) (next' ending)) →
    R flags (run position next) (run' position next')

section Constructs

variable {Property : Type} {places : Places} {limits limits' : Option Limits} {R : Flags → Run → Run → Prop}

theorem Carries.restore (hR : Carries places limits limits' R) {flags : Flags} {f f' : Run}
    (h : R flags f f') {restore : Captures → Captures}
    (hrestore : ∀ captures, SpansAt places.Ok captures → SpansAt places.Ok (restore captures)) :
    R flags (fun m => orRestore (f m) restore) fun m => orRestore (f' m) restore := by
  refine hR.orElse h ?_
  exact hR.read (fun captures _ m => some (false, { m with captures := restore captures }))
    (fun captures _ m => some (false, { m with captures := restore captures })) fun captures hspans =>
      hR.write (hrestore captures hspans) hR.fail

theorem sequence_carried {backward : Bool} {run run' : Node Property → ℕ → Continuation → Run}
    {items : List (Node Property)} (h : ∀ node ∈ items, CarriesBy places R backward (run node) (run' node)) :
    CarriesBy places R backward (sequence run items) (sequence run' items) := by
  induction items with
  | nil =>
    intro flags position next next' hflags hok hnext
    exact hnext position (places.refl hok)
  | cons first rest ih =>
    intro flags position next next' hflags hok hnext
    refine h first List.mem_cons_self flags position _ _ hflags hok fun mid hmid => ?_
    exact ih (fun node hmem => h node (List.mem_cons_of_mem _ hmem)) flags mid next next' hflags (places.target hmid)
      fun ending hending => hnext ending (places.trans hmid hending)

theorem alternative_carried (hR : Carries places limits limits' R) {backward : Bool}
    {run run' : Node Property → ℕ → Continuation → Run} {branches : List (Node Property)}
    (h : ∀ node ∈ branches, CarriesBy places R backward (run node) (run' node)) :
    CarriesBy places R backward (alternative run branches) (alternative run' branches) := by
  induction branches with
  | nil =>
    intro _ _ _ _ _ _ _
    exact hR.fail
  | cons branch branches ih =>
    intro flags position next next' hflags hok hnext
    refine hR.orElse (h branch List.mem_cons_self flags position next next' hflags hok hnext) ?_
    exact ih (fun node hmem => h node (List.mem_cons_of_mem _ hmem)) flags position next next' hflags hok hnext

theorem group_carried (hR : Carries places limits limits' R) {backward : Bool}
    {run run' : Node Property → ℕ → Continuation → Run} {body : Node Property} (index : ℕ)
    (h : CarriesBy places R backward (run body) (run' body)) :
    CarriesBy places R backward (group run backward index body) (group run' backward index body) := by
  intro flags position next next' hflags hok hnext
  have hreset (saved : Captures) (hsaved : SpansAt places.Ok saved) (captures : Captures)
      (hspans : SpansAt places.Ok captures) : SpansAt places.Ok (captures.set index (saved.getD index none)) :=
    hspans.set index fun span => hsaved.getD
  have hinner (ending : ℕ) (hreach : places.Reach backward position ending) :
      R flags (fun inner => orRestore
          (next ending { inner with captures := inner.captures.set index (some (groupSpan backward position ending)) })
          (·.set index (inner.captures.getD index none)))
        fun inner => orRestore
          (next' ending { inner with captures := inner.captures.set index (some (groupSpan backward position ending)) })
          (·.set index (inner.captures.getD index none)) := by
    refine hR.read
      (fun saved _ m => orRestore
        (next ending { m with captures := saved.set index (some (groupSpan backward position ending)) })
        (·.set index (saved.getD index none)))
      (fun saved _ m => orRestore
        (next' ending { m with captures := saved.set index (some (groupSpan backward position ending)) })
        (·.set index (saved.getD index none))) fun saved hsaved => ?_
    refine hR.restore (hR.write (hsaved.set index fun span hspan => ?_) (hnext ending hreach)) (hreset saved hsaved)
    have hending := places.target hreach
    cases Option.some.inj hspan
    cases backward
    · exact ⟨hok, hending⟩
    · exact ⟨hending, hok⟩
  exact hR.read
    (fun saved _ m => orRestore (run body position _ m) (·.set index (saved.getD index none)))
    (fun saved _ m => orRestore (run' body position _ m) (·.set index (saved.getD index none)))
    fun saved hsaved => hR.restore (h flags position _ _ hflags hok hinner) (hreset saved hsaved)

theorem resumeAssertion_carried (hR : Carries places limits limits' R) {position : ℕ} {next next' : Continuation}
    (hnext : R flags (next position) (next' position)) (negated succeeded : Bool) {saved : Captures}
    (hsaved : SpansAt places.Ok saved) : R flags (resumeAssertion negated succeeded saved position next)
      (resumeAssertion negated succeeded saved position next') := by
  unfold resumeAssertion
  cases negated <;> cases succeeded <;> simp only [if_true, Bool.false_eq_true, if_false, Bool.not_false, Bool.not_true]
  · exact hR.write hsaved hR.fail
  · exact hR.restore hnext fun _ _ => hsaved
  · exact hR.write hsaved hnext
  · exact hR.write hsaved hR.fail

theorem lookaround_carried (hR : Carries places limits limits' R) {inward backward : Bool}
    {probe probe' : ℕ → Continuation → Run} (h : CarriesBy places R inward probe probe') (negated : Bool) :
    CarriesBy places R backward (lookaround probe negated) (lookaround probe' negated) := by
  intro flags position next next' hflags hok hnext
  exact hR.read
    (fun saved _ m => (probe position (fun _ inner => some (true, inner)) m).bind fun r =>
      resumeAssertion negated r.1 saved position next
        { m with captures := r.2.captures, steps := r.2.steps, deepest := r.2.deepest })
    (fun saved _ m => (probe' position (fun _ inner => some (true, inner)) m).bind fun r =>
      resumeAssertion negated r.1 saved position next'
        { m with captures := r.2.captures, steps := r.2.steps, deepest := r.2.deepest })
    fun saved hsaved => hR.probe (h flags position _ _ hflags hok fun _ _ => hR.accept) fun succeeded =>
      resumeAssertion_carried hR (hnext position (places.refl hok)) negated succeeded hsaved

theorem attemptMore_carried (hR : Carries places limits limits' R) {backward : Bool} {run run' : ℕ → Continuation → Run}
    {again again' : ℕ → Run} {flags : Flags} {position : ℕ} (hflags : places.FlagsOk flags)
    (hok : places.Ok position) (h : CarriesBy places R backward run run')
    (hagain : ∀ advanced, places.Reach backward position advanced → R flags (again advanced) (again' advanced))
    (min : ℕ) (max : Option ℕ) (reset : Option (ℕ × ℕ)) (count : ℕ) :
    R flags (attemptMore run again min max reset position count)
      (attemptMore run' again' min max reset position count) := by
  unfold attemptMore
  by_cases hmax : max.all (count < ·) = true
  · simp only [hmax, if_true]
    refine hR.read
      (fun saved _ m => orRestore
        (run position (fun advanced inner => if advanced = position && min ≤ count then fail inner
          else again advanced inner) { m with captures := clearRange reset saved }) (restoreRange reset saved))
      (fun saved _ m => orRestore
        (run' position (fun advanced inner => if advanced = position && min ≤ count then fail inner
          else again' advanced inner) { m with captures := clearRange reset saved }) (restoreRange reset saved))
      fun saved hsaved => ?_
    refine hR.restore (hR.write (hsaved.clearRange reset) (h flags position _ _ hflags hok fun advanced hreach => ?_))
      fun captures hspans => hsaved.restoreRange hspans reset
    by_cases hstays : (decide (advanced = position) && decide (min ≤ count)) = true
    · simp only [hstays, if_true]
      exact hR.fail
    · simp only [hstays, Bool.false_eq_true, if_false]
      exact hagain advanced hreach
  · simp only [hmax, Bool.false_eq_true, if_false]
    exact hR.fail

theorem quantifier_carried (hR : Carries places limits limits' R) {backward : Bool} {run run' : ℕ → Continuation → Run}
    (h : CarriesBy places R backward run run') {next next' : Continuation}
    (min : ℕ) (max : Option ℕ) (greedy : Bool) (reset : Option (ℕ × ℕ)) (fuel : ℕ) {flags : Flags} {position : ℕ}
    (count : ℕ) (hflags : places.FlagsOk flags) (hok : places.Ok position)
    (hnext : ∀ ending, places.Reach backward position ending → R flags (next ending) (next' ending)) :
    R flags (quantifier limits run min max greedy reset next fuel position count)
      (quantifier limits' run' min max greedy reset next' fuel position count) := by
  induction fuel generalizing position count with
  | zero => exact hR.stuck
  | succ fuel ih =>
    have hmore := attemptMore_carried hR hflags hok h
      (fun advanced hreach => ih (count + 1) (places.target hreach) fun ending hending =>
        hnext ending (places.trans hreach hending)) min max reset count
    refine hR.ticked ?_
    by_cases hcount : count < min
    · simp only [hcount, if_true]
      exact hmore
    · simp only [hcount, if_false]
      cases greedy with
      | true => exact hR.orElse hmore (hnext position (places.refl hok))
      | false => exact hR.orElse (hnext position (places.refl hok)) hmore

/-! ## Repetitions of one character -/

theorem tryEnds_carried (hR : Carries places limits limits' R) {next next' : Continuation} {endings : List ℕ}
    (hnext : ∀ ending ∈ endings, R flags (next ending) (next' ending)) :
    R flags (tryEnds limits next endings) (tryEnds limits' next' endings) := by
  induction endings with
  | nil => exact hR.fail
  | cons ending endings ih =>
    exact hR.ticked (hR.orElse (hnext ending List.mem_cons_self) (ih fun p hp => hnext p (List.mem_cons_of_mem _ hp)))

/-- what `simple_repeat` does with the ends it has collected -/
def finishRepeat (limits : Option Limits) (min : ℕ) (greedy : Bool) (next : Continuation) (ends : List ℕ) : Run :=
  if ends.length - 1 < min then fail
  else tryEnds limits next (if greedy then (ends.drop min).reverse else ends.drop min)

/-- `simple_repeat` as a run that takes its steps as it goes -/
def scanRun (limits : Option Limits) (single : ℕ → Option ℕ) (backward : Bool) (min : ℕ) (max : Option ℕ)
    (greedy : Bool) (next : Continuation) : ℕ → ℕ → ℕ → List ℕ → Run
  | 0, _, _, ends => finishRepeat limits min greedy next ends
  | fuel + 1, count, last, ends =>
    if max.all (count < ·) then
      match single last with
      | none => finishRepeat limits min greedy next ends
      | some length =>
        ticked limits (scanRun limits single backward min max greedy next fuel (count + 1) (move backward last length)
          (ends ++ [move backward last length]))
    else finishRepeat limits min greedy next ends

theorem scanRun_eq (single : ℕ → Option ℕ) (backward : Bool) (min : ℕ) (max : Option ℕ) (greedy : Bool)
    (next : Continuation) (fuel count last : ℕ) (ends : List ℕ) (m : Matcher) :
    scanRun limits single backward min max greedy next fuel count last ends m =
      if !(scan limits single backward max fuel count last m).1 then
        fail (scan limits single backward max fuel count last m).2.2
      else finishRepeat limits min greedy next (ends ++ (scan limits single backward max fuel count last m).2.1)
        (scan limits single backward max fuel count last m).2.2 := by
  induction fuel generalizing count last ends m with
  | zero => simp [scanRun, scan]
  | succ fuel ih =>
    unfold scanRun scan
    by_cases hmax : max.all (count < ·) = true
    · simp only [hmax, if_true]
      cases single last with
      | none => simp
      | some length =>
        simp only [ticked]
        split_ifs with hover <;> simp_all [fail]
    · simp [hmax]

theorem simpleRepeat_eq (input : List ℕ) (single : ℕ → Option ℕ) (backward : Bool) (min : ℕ) (max : Option ℕ)
    (greedy : Bool) (position : ℕ) (next : Continuation) :
    simpleRepeat input limits single backward min max greedy position next =
      scanRun limits single backward min max greedy next (input.length + 1) 0 position [position] := by
  funext m
  rw [scanRun_eq, List.singleton_append]
  unfold simpleRepeat finishRepeat
  dsimp only
  split_ifs <;> rfl

/-- two inputs answer alike for a single character, and what is matched is reached -/
def SingleAlike (places : Places) (single single' : ℕ → Option ℕ) (backward : Bool) : Prop :=
  ∀ position, places.Ok position → single position = single' position ∧
    ∀ length, single position = some length → places.Reach backward position (move backward position length)

theorem finishRepeat_carried (hR : Carries places limits limits' R) {next next' : Continuation} {ends : List ℕ}
    (hnext : ∀ ending ∈ ends, R flags (next ending) (next' ending)) (min : ℕ) (greedy : Bool) :
    R flags (finishRepeat limits min greedy next ends) (finishRepeat limits' min greedy next' ends) := by
  unfold finishRepeat
  by_cases hfew : ends.length - 1 < min
  · rw [if_pos hfew, if_pos hfew]
    exact hR.fail
  · rw [if_neg hfew, if_neg hfew]
    refine tryEnds_carried hR fun ending hmem => hnext ending ?_
    cases greedy
    · exact List.mem_of_mem_drop hmem
    · exact List.mem_of_mem_drop (List.mem_reverse.1 hmem)

theorem scanRun_carried (hR : Carries places limits limits' R) {single single' : ℕ → Option ℕ} {backward : Bool}
    (hsingle : SingleAlike places single single' backward) {next next' : Continuation} (min : ℕ) (max : Option ℕ)
    (greedy : Bool) (fuel count : ℕ) {last : ℕ} {ends : List ℕ} (hlast : places.Ok last)
    (hends : ∀ ending ∈ ends, R flags (next ending) (next' ending))
    (hnext : ∀ ending, places.Reach backward last ending → R flags (next ending) (next' ending)) :
    R flags (scanRun limits single backward min max greedy next fuel count last ends)
      (scanRun limits' single' backward min max greedy next' fuel count last ends) := by
  induction fuel generalizing count last ends with
  | zero => exact finishRepeat_carried hR hends min greedy
  | succ fuel ih =>
    unfold scanRun
    obtain ⟨hsame, hreach⟩ := hsingle last hlast
    by_cases hmax : max.all (count < ·) = true
    · rw [if_pos hmax, if_pos hmax, ← hsame]
      cases hlength : single last with
      | none => exact finishRepeat_carried hR hends min greedy
      | some length =>
        have hmove := hreach length hlength
        refine hR.ticked (ih (count + 1) (places.target hmove) (fun ending hmem => ?_) fun ending hending =>
          hnext ending (places.trans hmove hending))
        rcases List.mem_append.1 hmem with hmem | hmem
        · exact hends ending hmem
        · rw [List.mem_singleton.1 hmem]
          exact hnext _ hmove
    · rw [if_neg hmax, if_neg hmax]
      exact finishRepeat_carried hR hends min greedy

theorem simpleRepeat_carried (hR : Carries places limits limits' R) {input input' : List ℕ}
    (hlength : input'.length = input.length) {single single' : ℕ → Option ℕ} {backward : Bool}
    (hsingle : SingleAlike places single single' backward) (min : ℕ) (max : Option ℕ) (greedy : Bool) :
    CarriesBy places R backward (simpleRepeat input limits single backward min max greedy)
      (simpleRepeat input' limits' single' backward min max greedy) := by
  intro flags position next next' hflags hok hnext
  rw [simpleRepeat_eq, simpleRepeat_eq, hlength]
  refine scanRun_carried hR hsingle min max greedy _ 0 hok (fun ending hmem => ?_) hnext
  rw [List.mem_singleton.1 hmem]
  exact hnext position (places.refl hok)

end Constructs

/-! ## Patterns -/

section Patterns

variable {Property : Type}

mutual

/-- a condition on the leaves of a pattern, and on its modifiers -/
def Node.Leaves (leaf : Node Property → Prop) : Node Property → Prop
  | .sequence items => leaves leaf items
  | .alternative branches => leaves leaf branches
  | .group _ body => body.Leaves leaf
  | .lookahead _ body => body.Leaves leaf
  | .lookbehind _ body => body.Leaves leaf
  | .quantifier _ _ _ body _ => body.Leaves leaf
  | .modifiers ignoreCase multiline dotAll body =>
    leaf (.modifiers ignoreCase multiline dotAll .empty) ∧ body.Leaves leaf
  | .empty => True
  | .literal value => leaf (.literal value)
  | .anyChar => leaf .anyChar
  | .class negated items => leaf (.class negated items)
  | .backreference indices => leaf (.backreference indices)
  | .anchorStart => leaf .anchorStart
  | .anchorEnd => leaf .anchorEnd
  | .wordBoundary expected => leaf (.wordBoundary expected)

def leaves (leaf : Node Property → Prop) : List (Node Property) → Prop
  | [] => True
  | node :: nodes => node.Leaves leaf ∧ leaves leaf nodes

end

theorem leaves_iff {leaf : Node Property → Prop} {nodes : List (Node Property)} :
    leaves leaf nodes ↔ ∀ node ∈ nodes, node.Leaves leaf := by
  induction nodes with
  | nil => simp [leaves]
  | cons node nodes ih => rw [leaves, ih, List.forall_mem_cons]

mutual

theorem Node.leaves_of_forall {leaf : Node Property → Prop} (h : ∀ node, leaf node) (node : Node Property) :
    node.Leaves leaf := by
  match node with
  | .sequence items => exact leaves_of_forall h items
  | .alternative branches => exact leaves_of_forall h branches
  | .group _ body => exact body.leaves_of_forall h
  | .lookahead _ body => exact body.leaves_of_forall h
  | .lookbehind _ body => exact body.leaves_of_forall h
  | .quantifier _ _ _ body _ => exact body.leaves_of_forall h
  | .modifiers _ _ _ body => exact ⟨h _, body.leaves_of_forall h⟩
  | .empty => trivial
  | .literal _ => exact h _
  | .anyChar => exact h _
  | .class _ _ => exact h _
  | .backreference _ => exact h _
  | .anchorStart => exact h _
  | .anchorEnd => exact h _
  | .wordBoundary _ => exact h _

theorem leaves_of_forall {leaf : Node Property → Prop} (h : ∀ node, leaf node) (nodes : List (Node Property)) :
    leaves leaf nodes := by
  match nodes with
  | [] => trivial
  | node :: nodes => exact ⟨node.leaves_of_forall h, leaves_of_forall h nodes⟩

end

mutual

theorem Node.Leaves.imp {leaf leaf' : Node Property → Prop} (h : ∀ node, leaf node → leaf' node)
    (node : Node Property) (hleaves : node.Leaves leaf) : node.Leaves leaf' := by
  match node with
  | .sequence items => exact leaves_imp h items hleaves
  | .alternative branches => exact leaves_imp h branches hleaves
  | .group _ body => exact Node.Leaves.imp h body hleaves
  | .lookahead _ body => exact Node.Leaves.imp h body hleaves
  | .lookbehind _ body => exact Node.Leaves.imp h body hleaves
  | .quantifier _ _ _ body _ => exact Node.Leaves.imp h body hleaves
  | .modifiers _ _ _ body => exact ⟨h _ hleaves.1, Node.Leaves.imp h body hleaves.2⟩
  | .empty => trivial
  | .literal _ => exact h _ hleaves
  | .anyChar => exact h _ hleaves
  | .class _ _ => exact h _ hleaves
  | .backreference _ => exact h _ hleaves
  | .anchorStart => exact h _ hleaves
  | .anchorEnd => exact h _ hleaves
  | .wordBoundary _ => exact h _ hleaves

theorem leaves_imp {leaf leaf' : Node Property → Prop} (h : ∀ node, leaf node → leaf' node)
    (nodes : List (Node Property)) (hleaves : leaves leaf nodes) : leaves leaf' nodes := by
  match nodes with
  | [] => trivial
  | node :: nodes => exact ⟨Node.Leaves.imp h node hleaves.1, leaves_imp h nodes hleaves.2⟩

end

/-- two inputs answer alike at a leaf, and the matcher stays where it can be -/
def LeafFits (tables : Tables Property) (input input' : List ℕ) (places : Places) : Node Property → Prop
  | .literal value => ∀ flags backward, places.FlagsOk flags →
      SingleAlike places (singleLength tables input flags backward (.literal value))
        (singleLength tables input' flags backward (.literal value)) backward
  | .anyChar => ∀ flags backward, places.FlagsOk flags →
      SingleAlike places (singleLength tables input flags backward .anyChar)
        (singleLength tables input' flags backward .anyChar) backward
  | .class negated items => ∀ flags backward, places.FlagsOk flags →
      SingleAlike places (singleLength tables input flags backward (.class negated items))
        (singleLength tables input' flags backward (.class negated items)) backward
  | .backreference indices => ∀ flags backward captures position, places.FlagsOk flags → SpansAt places.Ok captures →
      places.Ok position →
      backreferenceEnd tables input flags backward indices captures position =
        backreferenceEnd tables input' flags backward indices captures position ∧
      ∀ ending, backreferenceEnd tables input flags backward indices captures position = some ending →
        places.Reach backward position ending
  | .anchorStart => ∀ flags position, places.FlagsOk flags → places.Ok position →
      anchorStartHolds input flags position = anchorStartHolds input' flags position
  | .anchorEnd => ∀ flags position, places.FlagsOk flags → places.Ok position →
      anchorEndHolds input flags position = anchorEndHolds input' flags position
  | .wordBoundary expected => ∀ flags position, places.FlagsOk flags → places.Ok position →
      wordBoundaryHolds input flags expected position = wordBoundaryHolds input' flags expected position
  | .modifiers ignoreCase multiline dotAll _ => ∀ flags, places.FlagsOk flags →
      places.FlagsOk (modified flags ignoreCase multiline dotAll)
  | _ => True

variable {tables : Tables Property} {input input' : List ℕ} {places : Places} {limits limits' : Option Limits}
  {R : Flags → Run → Run → Prop}

theorem singleAlike_of_leaves {node : Node Property} (hsingle : node.isSingle = true)
    (h : node.Leaves (LeafFits tables input input' places)) {flags : Flags} (hflags : places.FlagsOk flags)
    (backward : Bool) : SingleAlike places (singleLength tables input flags backward node)
      (singleLength tables input' flags backward node) backward := by
  cases node with
  | literal value => exact h flags backward hflags
  | anyChar => exact h flags backward hflags
  | «class» negated items => exact h flags backward hflags
  | _ => cases hsingle

/-- one character -/
theorem single_carried (hR : Carries places limits limits' R) {node : Node Property} {backward : Bool}
    (hsingle : ∀ flags, places.FlagsOk flags → SingleAlike places (singleLength tables input flags backward node)
      (singleLength tables input' flags backward node) backward) :
    CarriesBy places R backward
      (fun position next m => match singleLength tables input m.flags backward node position with
        | none => fail m
        | some length => next (move backward position length) m)
      (fun position next m => match singleLength tables input' m.flags backward node position with
        | none => fail m
        | some length => next (move backward position length) m) := by
  intro flags position next next' hflags hok hnext
  refine hR.read
    (fun _ flags m => match singleLength tables input flags backward node position with
      | none => fail m
      | some length => next (move backward position length) m)
    (fun _ flags m => match singleLength tables input' flags backward node position with
      | none => fail m
      | some length => next' (move backward position length) m) fun _ _ => ?_
  obtain ⟨hsame, hreach⟩ := hsingle flags hflags position hok
  rw [← hsame]
  cases hlength : singleLength tables input flags backward node position with
  | none => exact hR.fail
  | some length => exact hnext _ (hreach length hlength)

/-- an assertion that depends on the flags -/
theorem anchored_carried (hR : Carries places limits limits' R) {backward : Bool} (holds holds' : Flags → ℕ → Bool)
    (hsame : ∀ flags position, places.FlagsOk flags → places.Ok position →
      holds flags position = holds' flags position) :
    CarriesBy places R backward (fun position next m => if holds m.flags position then next position m else fail m)
      (fun position next m => if holds' m.flags position then next position m else fail m) := by
  intro flags position next next' hflags hok hnext
  refine hR.read (fun _ flags m => if holds flags position then next position m else fail m)
    (fun _ flags m => if holds' flags position then next' position m else fail m) fun _ _ => ?_
  rw [← hsame flags position hflags hok]
  by_cases hholds : holds flags position = true
  · simp only [hholds, if_true]
    exact hnext position (places.refl hok)
  · simp only [hholds, Bool.false_eq_true, if_false]
    exact hR.fail

/-- the body of a modifiers group -/
theorem modifiers_carried (hR : Carries places limits limits' R) {backward : Bool} {run run' : ℕ → Continuation → Run}
    (h : CarriesBy places R backward run run') (change : Flags → Flags)
    (hchange : ∀ flags, places.FlagsOk flags → places.FlagsOk (change flags)) :
    CarriesBy places R backward
      (fun position next m => (run position (fun ending matcher =>
        (next ending { matcher with flags := m.flags }).map fun r => (r.1, { r.2 with flags := change m.flags }))
        { m with flags := change m.flags }).map fun r => (r.1, { r.2 with flags := m.flags }))
      (fun position next m => (run' position (fun ending matcher =>
        (next ending { matcher with flags := m.flags }).map fun r => (r.1, { r.2 with flags := change m.flags }))
        { m with flags := change m.flags }).map fun r => (r.1, { r.2 with flags := m.flags })) := by
  intro flags position next next' hflags hok hnext
  refine hR.read
    (fun _ flags m => (run position (fun ending matcher =>
      (next ending { matcher with flags := flags }).map fun r => (r.1, { r.2 with flags := change flags }))
      { m with flags := change flags }).map fun r => (r.1, { r.2 with flags := flags }))
    (fun _ flags m => (run' position (fun ending matcher =>
      (next' ending { matcher with flags := flags }).map fun r => (r.1, { r.2 with flags := change flags }))
      { m with flags := change flags }).map fun r => (r.1, { r.2 with flags := flags })) fun _ _ => ?_
  refine hR.under (h (change flags) position _ _ (hchange flags hflags) hok fun ending hreach => ?_)
  exact hR.under (hnext ending hreach)

theorem nodeInner_carried (hR : Carries places limits limits' R) (hlength : input'.length = input.length)
    {run run' : Bool → Node Property → ℕ → Continuation → Run}
    (h : ∀ backward node, node.Leaves (LeafFits tables input input' places) →
      CarriesBy places R backward (run backward node) (run' backward node)) (fuel : ℕ) (backward : Bool)
    {node : Node Property} (hleaves : node.Leaves (LeafFits tables input input' places)) :
    CarriesBy places R backward (nodeInner tables input limits run fuel backward node)
      (nodeInner tables input' limits' run' fuel backward node) := by
  intro flags position next next' hflags hok hnext
  cases node with
  | empty => exact hnext position (places.refl hok)
  | literal value =>
    exact single_carried hR (fun flags => hleaves flags backward) flags position next next' hflags hok hnext
  | anyChar => exact single_carried hR (fun flags => hleaves flags backward) flags position next next' hflags hok hnext
  | «class» negated items =>
    exact single_carried hR (fun flags => hleaves flags backward) flags position next next' hflags hok hnext
  | sequence items =>
    have hitems := leaves_iff.1 hleaves
    refine sequence_carried (fun node hmem => h backward node (hitems node ?_)) flags position next next' hflags hok
      hnext
    cases backward
    · exact hmem
    · exact List.mem_reverse.1 hmem
  | alternative branches =>
    exact alternative_carried hR (fun node hmem => h backward node (leaves_iff.1 hleaves node hmem)) flags
      position next next' hflags hok hnext
  | group index body =>
    cases index with
    | none => exact h backward body hleaves flags position next next' hflags hok hnext
    | some index => exact group_carried hR index (h backward body hleaves) flags position next next' hflags hok hnext
  | lookahead negated body =>
    exact lookaround_carried hR (h false body hleaves) negated flags position next next' hflags hok hnext
  | lookbehind negated body =>
    exact lookaround_carried hR (h true body hleaves) negated flags position next next' hflags hok hnext
  | backreference indices =>
    refine hR.read
      (fun captures flags m => match backreferenceEnd tables input flags backward indices captures position with
        | none => fail m
        | some ending => next ending m)
      (fun captures flags m => match backreferenceEnd tables input' flags backward indices captures position with
        | none => fail m
        | some ending => next' ending m) fun captures hspans => ?_
    obtain ⟨hsame, hreach⟩ := hleaves flags backward captures position hflags hspans hok
    rw [← hsame]
    cases hending : backreferenceEnd tables input flags backward indices captures position with
    | none => exact hR.fail
    | some ending => exact hnext ending (hreach ending hending)
  | quantifier min max greedy body reset =>
    by_cases hsingle : body.isSingle = true
    · unfold nodeInner
      simp only [hsingle, if_true]
      exact hR.read
        (fun _ flags => simpleRepeat input limits (singleLength tables input flags backward body) backward min max
          greedy position next)
        (fun _ flags => simpleRepeat input' limits' (singleLength tables input' flags backward body) backward min max
          greedy position next') fun _ _ =>
            simpleRepeat_carried hR hlength (singleAlike_of_leaves hsingle hleaves hflags backward) min max greedy
              flags position next next' hflags hok hnext
    · unfold nodeInner
      simp only [hsingle, if_false, Bool.false_eq_true]
      exact quantifier_carried hR (h backward body hleaves) min max greedy reset fuel 0 hflags hok hnext
  | anchorStart =>
    exact anchored_carried hR (anchorStartHolds input) (anchorStartHolds input') hleaves flags position next next'
      hflags hok hnext
  | anchorEnd =>
    exact anchored_carried hR (anchorEndHolds input) (anchorEndHolds input') hleaves flags position next next' hflags
      hok hnext
  | wordBoundary expected =>
    exact anchored_carried hR (fun flags => wordBoundaryHolds input flags expected)
      (fun flags => wordBoundaryHolds input' flags expected) hleaves flags position next next' hflags hok hnext
  | modifiers ignoreCase multiline dotAll body =>
    exact modifiers_carried hR (h backward body hleaves.2) (fun flags => modified flags ignoreCase multiline dotAll)
      hleaves.1 flags position next next' hflags hok hnext

/-- **Patterns.** What is carried through the ways in which runs are put together, and fits the leaves of a pattern, is
carried through the pattern. -/
theorem node_carried (hR : Carries places limits limits' R) (hlength : input'.length = input.length) (fuel : ℕ)
    (backward : Bool) {pattern : Node Property} (hleaves : pattern.Leaves (LeafFits tables input input' places)) :
    CarriesBy places R backward (node tables input limits fuel backward pattern)
      (node tables input' limits' fuel backward pattern) := by
  induction fuel generalizing backward pattern with
  | zero => exact fun _ _ _ _ _ _ _ => hR.stuck
  | succ fuel ih =>
    intro flags position next next' hflags hok hnext
    have hinner := nodeInner_carried hR hlength (fun backward node => ih backward) fuel backward hleaves flags position
      next next' hflags hok hnext
    exact hR.nested (hR.ticked hinner)

end Patterns

/-! ## Properties of matchers -/

/-- on matchers that have a property two runs are equal, keep it, and give the flags back -/
def KeepsEqual (good : Matcher → Prop) (flags : Flags) (run run' : Run) : Prop :=
  ∀ m, m.flags = flags → good m → run m = run' m ∧ ∀ r, run m = some r → r.2.flags = flags ∧ good r.2

/-- the property of a matcher at places: its groups fit them, and the ending has a property of its own -/
structure Stays (places : Places) (ended : Option ℕ → Prop) (m : Matcher) : Prop where
  captures : SpansAt places.Ok m.captures
  ending : ended m.ending

theorem carries_stays (places : Places) (limits : Option Limits) (ended : Option ℕ → Prop) :
    Carries places limits limits (KeepsEqual (Stays places ended)) where
  stuck := fun m _ _ => ⟨rfl, fun r hr => by cases hr⟩
  accept := fun m hflags hm => ⟨rfl, fun r hr => by cases hr; exact ⟨hflags, hm⟩⟩
  fail := fun m hflags hm => ⟨rfl, fun r hr => by cases hr; exact ⟨hflags, hm⟩⟩
  orElse := by
    intro flags f f' g g' hf hg m hflags hm
    obtain ⟨hsame, hkeeps⟩ := hf m hflags hm
    dsimp only
    rw [← hsame]
    cases hrun : f m with
    | none => exact ⟨rfl, fun r hr => by cases hr⟩
    | some tried =>
      obtain ⟨htried, hgood⟩ := hkeeps tried hrun
      unfold orElse
      rw [Option.bind_some, Option.bind_some]
      by_cases htrue : tried.1 = true
      · rw [if_pos htrue, if_pos htrue]
        exact ⟨rfl, fun r hr => by cases hr; exact ⟨htried, hgood⟩⟩
      · rw [if_neg htrue, if_neg htrue]
        exact hg tried.2 htried hgood
  ticked := by
    intro flags f f' hf m hflags hm
    have hstep : Stays places ended { m with steps := m.steps + 1 } := ⟨hm.captures, hm.ending⟩
    unfold ticked
    split_ifs
    · exact ⟨rfl, fun r hr => by cases hr; exact ⟨hflags, hstep⟩⟩
    · exact hf _ hflags hstep
  nested := by
    intro flags f f' hf m hflags hm
    unfold nested
    cases limits.bind fun limits => if limits.depth ≤ m.depth then some limits else none with
    | some limits => exact ⟨rfl, fun r hr => by cases hr; exact ⟨hflags, hm.captures, hm.ending⟩⟩
    | none =>
      obtain ⟨hsame, hkeeps⟩ := hf { m with depth := m.depth + 1, deepest := Nat.max m.deepest (m.depth + 1) } hflags
        ⟨hm.captures, hm.ending⟩
      refine ⟨by simp only [hsame], fun r hr => ?_⟩
      obtain ⟨inner, hinner, rfl⟩ := Option.map_eq_some_iff.1 hr
      obtain ⟨hkept, hgood⟩ := hkeeps inner hinner
      exact ⟨hkept, hgood.captures, hgood.ending⟩
  read := by
    intro flags f f' h m hflags hm
    exact hflags ▸ h m.captures hm.captures m hflags hm
  write := fun hcaptures hf m hflags hm => hf _ hflags ⟨hcaptures, hm.ending⟩
  under := by
    intro flags inner f f' hf m _ hm
    obtain ⟨hsame, hkeeps⟩ := hf { m with flags := inner } rfl ⟨hm.captures, hm.ending⟩
    refine ⟨by simp only [hsame], fun r hr => ?_⟩
    obtain ⟨ended, hended, rfl⟩ := Option.map_eq_some_iff.1 hr
    obtain ⟨-, hgood⟩ := hkeeps ended hended
    exact ⟨rfl, hgood.captures, hgood.ending⟩
  probe := by
    intro flags f f' g g' hf hg m hflags hm
    obtain ⟨hsame, hkeeps⟩ := hf m hflags hm
    dsimp only
    rw [← hsame]
    cases hrun : f m with
    | none => exact ⟨rfl, fun r hr => by cases hr⟩
    | some tried => exact hg tried.1 _ hflags ⟨(hkeeps tried hrun).2.captures, hm.ending⟩

end Render.Js.Regex
