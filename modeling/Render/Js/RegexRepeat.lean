/-
Repetitions of one character. `simple_repeat` scans the whole run first and then tries its ends; the general
`quantifier` goes through one continuation for each repetition. Without limits both call the continuation at the same
ends, in the same order, until a call succeeds (`tryAll`), and leave what that call leaves (`repeats_alike`).

A continuation does not see the steps and the levels that the two count differently, and a call that fails gives the
flags back, as the matcher does after a modifiers group (`Plain`); every continuation that the matcher makes is of that
kind (`node_plain`). An atom of one character has no groups, so there are none to unset at an iteration.
-/
import Render.Js.RegexCarried
import Render.Js.RegexFind

namespace Render.Js.Regex

/-! ## What a continuation sees -/

/-- a matcher without its counters -/
structure Visible where
  flags : Flags
  captures : Captures
  ending : Option ℕ

def Matcher.visible (m : Matcher) : Visible := ⟨m.flags, m.captures, m.ending⟩

/-- the result of a call without the counters -/
def outcome (result : Option (Bool × Matcher)) : Option (Bool × Visible) := result.map fun r => (r.1, r.2.visible)

/-- two calls with the same outcomes, on matchers with given flags; a call that fails gives them back -/
def Alike (flags : Flags) (run run' : Run) : Prop :=
  ∀ m m', m.flags = flags → m.visible = m'.visible → outcome (run m) = outcome (run' m') ∧
    ∀ r, run m = some r → r.1 = false → r.2.flags = flags

/-- a continuation that sees no counters, and gives the flags back where it fails -/
def Plain (next : Continuation) : Prop := ∀ flags position, Alike flags (next position) (next position)

section Outcomes

variable {flags : Flags} {run run' other other' : Run}

theorem Matcher.visible_flags {m m' : Matcher} (h : m.visible = m'.visible) : m.flags = m'.flags :=
  congrArg Visible.flags h

theorem outcome_eq_some {result result' : Option (Bool × Matcher)} {r : Bool × Matcher}
    (h : outcome result = outcome result') (hr : result = some r) :
    ∃ r', result' = some r' ∧ r.1 = r'.1 ∧ r.2.visible = r'.2.visible := by
  subst hr
  obtain ⟨r', hr', heq⟩ := Option.map_eq_some_iff.1 h.symm
  exact ⟨r', hr', (congrArg Prod.fst heq).symm, (congrArg Prod.snd heq).symm⟩

theorem outcome_eq_none {result result' : Option (Bool × Matcher)} (h : outcome result = outcome result')
    (hr : result = none) : result' = none := by
  subst hr
  exact Option.map_eq_none_iff.1 h.symm

theorem alike_fail : Alike flags fail fail := by
  intro m m' hflags hsame
  refine ⟨congrArg (fun v => some (false, v)) hsame, fun r hr _ => ?_⟩
  cases hr
  exact hflags

theorem Alike.orElse (h : Alike flags run run') (h' : Alike flags other other') :
    Alike flags (fun m => orElse (run m) other) fun m => orElse (run' m) other' := by
  intro m m' hflags hsame
  obtain ⟨houtcome, hkeeps⟩ := h m m' hflags hsame
  dsimp only
  cases hrun : run m with
  | none =>
    rw [outcome_eq_none houtcome hrun]
    exact ⟨rfl, fun r hr => by cases hr⟩
  | some tried =>
    obtain ⟨tried', htried', hfst, hvisible⟩ := outcome_eq_some houtcome hrun
    rw [htried']
    unfold Regex.orElse
    rw [Option.bind_some, Option.bind_some, ← hfst]
    by_cases htrue : tried.1 = true
    · rw [if_pos htrue, if_pos htrue]
      refine ⟨congrArg some (Prod.ext hfst hvisible), fun r hr hfalse => ?_⟩
      cases hr
      rw [htrue] at hfalse
      cases hfalse
    · rw [if_neg htrue, if_neg htrue]
      exact h' tried.2 tried'.2 (hkeeps tried hrun (Bool.eq_false_iff.2 htrue)) hvisible

/-- a call with other counters on the way in -/
theorem Alike.change (change : Matcher → Matcher) (h : Alike flags run run')
    (hchange : ∀ m, (change m).visible = m.visible) : Alike flags (fun m => run (change m)) run' := by
  intro m m' hflags hsame
  exact h (change m) m' ((Matcher.visible_flags (hchange m)).trans hflags) ((hchange m).trans hsame)

/-- a call with other counters on the way out -/
theorem Alike.map (change : Matcher → Matcher) (h : Alike flags run run')
    (hchange : ∀ m, (change m).visible = m.visible) :
    Alike flags (fun m => (run m).map fun r => (r.1, change r.2)) run' := by
  intro m m' hflags hsame
  obtain ⟨houtcome, hkeeps⟩ := h m m' hflags hsame
  have hsees : outcome ((run m).map fun r => (r.1, change r.2)) = outcome (run m) := by
    cases hrun : run m with
    | none => rfl
    | some r => exact congrArg (fun v => some (r.1, v)) (hchange r.2)
  refine ⟨hsees.trans houtcome, fun r hr hfalse => ?_⟩
  obtain ⟨inner, hinner, rfl⟩ := Option.map_eq_some_iff.1 hr
  exact (Matcher.visible_flags (hchange inner.2)).trans (hkeeps inner hinner hfalse)

/-- without limits a step only counts -/
theorem Alike.ticked (h : Alike flags run run') : Alike flags (ticked none run) run' :=
  h.change (fun m => { m with steps := m.steps + 1 }) fun _ => rfl

/-- without limits a level only counts -/
theorem Alike.nested (h : Alike flags run run') : Alike flags (nested none run) run' :=
  (h.change (fun m => { m with depth := m.depth + 1, deepest := Nat.max m.deepest (m.depth + 1) }) fun _ => rfl).map
    (fun m => { m with depth := m.depth - 1 }) fun _ => rfl

end Outcomes

/-! ## The ends of a repetition -/

/-- the calls of a continuation at the ends of a list, in order, until one succeeds -/
def tryAll (next : Continuation) : List ℕ → Run
  | [] => fail
  | ending :: endings => fun m => orElse (next ending m) (tryAll next endings)

theorem orElse_fail (tried : Option (Bool × Matcher)) : orElse tried fail = tried := by
  cases tried with
  | none => rfl
  | some r =>
    obtain ⟨succeeded, m⟩ := r
    cases succeeded <;> rfl

theorem orElse_assoc (tried : Option (Bool × Matcher)) (other more : Run) :
    orElse tried (fun m => orElse (other m) more) = orElse (orElse tried other) more := by
  cases tried with
  | none => rfl
  | some r =>
    obtain ⟨succeeded, m⟩ := r
    cases succeeded <;> rfl

theorem tryAll_append (next : Continuation) (endings later : List ℕ) (m : Matcher) :
    tryAll next (endings ++ later) m = orElse (tryAll next endings m) (tryAll next later) := by
  induction endings generalizing m with
  | nil => rfl
  | cons ending endings ih =>
    have hrest : tryAll next (endings ++ later) = fun m => orElse (tryAll next endings m) (tryAll next later) :=
      funext ih
    rw [List.cons_append, tryAll, tryAll, hrest]
    exact orElse_assoc _ _ _

/-- the ends that are tried of those that a repetition comes to -/
def chosenEnds (greedy : Bool) (least : ℕ) (ends : List ℕ) : List ℕ :=
  if greedy then (ends.drop least).reverse else ends.drop least

@[simp]
theorem tryAll_nil (next : Continuation) : tryAll next [] = fail := rfl

@[simp]
theorem chosenEnds_nil (greedy : Bool) (least : ℕ) : chosenEnds greedy least [] = [] := by simp [chosenEnds]

section Repeats

variable {Property : Type} (tables : Tables Property) (input : List ℕ)

/-- the ends of a repetition of one character, in the order in which they are tried -/
def repeatEnds (flags : Flags) (backward : Bool) (body : Node Property) (min : ℕ) (max : Option ℕ) (greedy : Bool)
    (position : ℕ) : List ℕ :=
  chosenEnds greedy min
    (position :: singleEnds (singleLength tables input flags backward body) backward max (input.length + 1) 0 position)

variable {tables input} {flags : Flags} {next : Continuation}

theorem tryEnds_alike (hnext : Plain next) (endings : List ℕ) :
    Alike flags (tryEnds none next endings) (tryAll next endings) := by
  induction endings with
  | nil => exact alike_fail
  | cons ending endings ih => exact ((hnext flags ending).orElse ih).ticked

theorem simpleRepeat_alike (hnext : Plain next) (backward : Bool) (body : Node Property) (min : ℕ) (max : Option ℕ)
    (greedy : Bool) (position : ℕ) :
    Alike flags
      (simpleRepeat input none (singleLength tables input flags backward body) backward min max greedy position next)
      (tryAll next (repeatEnds tables input flags backward body min max greedy position)) := by
  set ends := position ::
    singleEnds (singleLength tables input flags backward body) backward max (input.length + 1) 0 position with hends
  have htries : Alike flags (tryEnds none next (chosenEnds greedy min ends))
      (tryAll next (chosenEnds greedy min ends)) := tryEnds_alike hnext _
  intro m m' hflags hsame
  unfold simpleRepeat
  rw [scan_none]
  simp only [Bool.not_true, Bool.false_eq_true, if_false]
  rw [← hends]
  have hscanned : Matcher.visible { m with steps := m.steps + (singleEnds
      (singleLength tables input flags backward body) backward max (input.length + 1) 0 position).length } =
      m'.visible := hsame
  by_cases hfew : ends.length - 1 < min
  · -- too few repetitions: there is no end to try
    have hnone : chosenEnds greedy min ends = [] := by
      have hdrop : ends.drop min = [] := List.drop_eq_nil_of_le (by rw [hends, List.length_cons] at *; omega)
      simp [chosenEnds, hdrop]
    rw [if_pos hfew, repeatEnds, ← hends, hnone]
    exact alike_fail _ _ hflags hscanned
  · rw [if_neg hfew]
    exact htries _ _ hflags hscanned

/-- one character of a pattern, as a call -/
theorem node_single_alike {body : Node Property} (hsingle : body.isSingle = true) (backward : Bool) (fuel : ℕ)
    {position : ℕ} {other : ℕ → Run}
    (hnext : ∀ length, singleLength tables input flags backward body position = some length →
      Alike flags (next (move backward position length)) (other length)) :
    Alike flags (node tables input none (fuel + 1) backward body position next)
      (match singleLength tables input flags backward body position with
        | none => fail
        | some length => other length) := by
  have hcall : Alike flags (nodeInner tables input none (node tables input none fuel) fuel backward body position next)
      (match singleLength tables input flags backward body position with
        | none => fail
        | some length => other length) := by
    intro m m' hflags hsame
    have hinner : nodeInner tables input none (node tables input none fuel) fuel backward body position next m =
        match singleLength tables input flags backward body position with
        | none => fail m
        | some length => next (move backward position length) m := by
      subst hflags
      cases body <;> first | exact absurd hsingle Bool.false_ne_true | rfl
    rw [hinner]
    cases hlength : singleLength tables input flags backward body position with
    | none => exact alike_fail m m' hflags hsame
    | some length => exact hnext length hlength m m' hflags hsame
  exact hcall.ticked.nested

/-- without groups to unset, one more iteration is a call of the body -/
theorem attemptMore_none (run : ℕ → Continuation → Run) (again : ℕ → Run) (min : ℕ) (max : Option ℕ)
    (position count : ℕ) : attemptMore run again min max none position count =
      if max.all (count < ·) then run position fun advanced inner =>
        if advanced = position && min ≤ count then fail inner else again advanced inner
      else fail := by
  funext m
  unfold attemptMore
  by_cases hmax : max.all (count < ·) = true
  · rw [if_pos hmax, if_pos hmax]
    exact orElse_fail _
  · rw [if_neg hmax, if_neg hmax]

theorem chosenEnds_more {count min : ℕ} (hcount : count < min) (greedy : Bool) (position : ℕ) (ends : List ℕ) :
    chosenEnds greedy (min - count) (position :: ends) = chosenEnds greedy (min - (count + 1)) ends := by
  have hsub : min - count = min - (count + 1) + 1 := by omega
  rw [chosenEnds, hsub, List.drop_succ_cons, chosenEnds]

/-- once the minimum is met, the ends are tried from the last to this one, or from this one on -/
theorem chosenEnds_enough {count min : ℕ} (hcount : ¬count < min) (greedy : Bool) (position : ℕ) (ends : List ℕ) :
    chosenEnds greedy (min - count) (position :: ends) =
      if greedy then chosenEnds greedy (min - (count + 1)) ends ++ [position]
      else position :: chosenEnds greedy (min - (count + 1)) ends := by
  have hsub : min - count = 0 := by omega
  have hsub' : min - (count + 1) = 0 := by omega
  cases greedy <;> simp [chosenEnds, hsub, hsub']

/-- a character is read within the input -/
theorem singleLength_within {backward : Bool} {body : Node Property} {position length : ℕ}
    (h : singleLength tables input flags backward body position = some length) : position ≤ input.length := by
  by_contra hpast
  unfold singleLength at h
  cases backward with
  | true =>
    have hnone : input[position - 1]? = none := List.getElem?_eq_none (by omega)
    cases position with
    | zero => omega
    | succ index =>
      have hread : codePointBefore input (index + 1) flags.unicode = none := by
        unfold codePointBefore
        simp only [Nat.add_sub_cancel] at hnone
        simp only [hnone]
      simp [hread] at h
  | false =>
    have hnone : input[position]? = none := List.getElem?_eq_none (by omega)
    have hread : codePointAt input position flags.unicode = none := by
      unfold codePointAt
      simp only [hnone]
    simp [hread] at h

/-- what is left to go over from a position, as far as it is in the input -/
def Enough (input : List ℕ) (backward : Bool) (position fuel : ℕ) : Prop :=
  0 < fuel ∧ (position ≤ input.length → distance input backward position < fuel)

theorem Enough.move {backward : Bool} {position fuel length : ℕ} {body : Node Property}
    (h : Enough input backward position (fuel + 1))
    (hsingle : singleLength tables input flags backward body position = some length) :
    Enough input backward (move backward position length) fuel ∧ move backward position length ≠ position := by
  have hwithin := singleLength_within hsingle
  obtain ⟨hreach, hmoves⟩ := singleLength_reaches hwithin hsingle
  have hlt := hreach.distance_lt hmoves
  have hfuel := h.2 hwithin
  exact ⟨⟨by omega, fun _ => by omega⟩, hmoves⟩

theorem quantifier_alike (hnext : Plain next) {body : Node Property} (hsingle : body.isSingle = true) (backward : Bool)
    (min : ℕ) (max : Option ℕ) (greedy : Bool) (inner : ℕ) {fuel bound count position : ℕ}
    (hfuel : Enough input backward position fuel) (hbound : Enough input backward position bound) :
    Alike flags
      (quantifier none (node tables input none (inner + 1) backward body) min max greedy none next fuel position count)
      (tryAll next (chosenEnds greedy (min - count) (position ::
        singleEnds (singleLength tables input flags backward body) backward max bound count position))) := by
  induction fuel generalizing bound count position with
  | zero => exact absurd hfuel.1 (Nat.lt_irrefl 0)
  | succ fuel ih =>
    cases bound with
    | zero => exact absurd hbound.1 (Nat.lt_irrefl 0)
    | succ bound =>
      set ends := singleEnds (singleLength tables input flags backward body) backward max (bound + 1) count position
        with hends
      set again : ℕ → Run := fun advanced => quantifier none (node tables input none (inner + 1) backward body) min max
        greedy none next fuel advanced (count + 1) with hagain
      -- the iterations that follow try the ends behind the first
      have hmore : Alike flags
          (attemptMore (node tables input none (inner + 1) backward body) again min max none position count)
          (tryAll next (chosenEnds greedy (min - (count + 1)) ends)) := by
        rw [attemptMore_none, hends, singleEnds]
        by_cases hmax : max.all (count < ·) = true
        · rw [if_pos hmax, if_pos hmax]
          have hbody : Alike flags
              (node tables input none (inner + 1) backward body position fun advanced m =>
                if advanced = position && min ≤ count then fail m else again advanced m)
              (match singleLength tables input flags backward body position with
                | none => fail
                | some length => tryAll next (chosenEnds greedy (min - (count + 1)) (move backward position length ::
                    singleEnds (singleLength tables input flags backward body) backward max bound (count + 1)
                      (move backward position length)))) :=
            node_single_alike hsingle backward inner fun length hlength => by
              obtain ⟨hfuel', hmoves⟩ := hfuel.move hlength
              simpa [hmoves] using ih hfuel' (hbound.move hlength).1
          cases hlength : singleLength tables input flags backward body position with
          | none => simpa [hlength] using hbody
          | some length => simpa [hlength] using hbody
        · rw [if_neg hmax, if_neg hmax, chosenEnds_nil]
          exact alike_fail
      refine Alike.ticked ?_
      by_cases hcount : count < min
      · simp only [hcount, if_true, chosenEnds_more hcount]
        exact hmore
      · simp only [hcount, if_false, chosenEnds_enough hcount]
        cases greedy with
        | true =>
          have happend : tryAll next (chosenEnds true (min - (count + 1)) ends ++ [position]) = fun m =>
              orElse (tryAll next (chosenEnds true (min - (count + 1)) ends) m) (next position) := by
            funext m
            have hlast : tryAll next [position] = next position := funext fun m => orElse_fail _
            rw [tryAll_append, hlast]
          simp only [if_true, happend]
          exact hmore.orElse (hnext flags position)
        | false =>
          simp only [Bool.false_eq_true, if_false]
          exact (hnext flags position).orElse hmore

theorem quantifier_calls (hnext : Plain next) {body : Node Property} (hsingle : body.isSingle = true) (backward : Bool)
    (min : ℕ) (max : Option ℕ) (greedy : Bool) (position : ℕ) {fuel inner : ℕ} (hfuel : input.length < fuel)
    (hinner : 0 < inner) :
    Alike flags
      (quantifier none (node tables input none inner backward body) min max greedy none next fuel position 0)
      (tryAll next (repeatEnds tables input flags backward body min max greedy position)) := by
  obtain ⟨inner, rfl⟩ : ∃ n, inner = n + 1 := ⟨inner - 1, by omega⟩
  have henough (fuel : ℕ) (hlt : input.length < fuel) : Enough input backward position fuel :=
    ⟨by omega, fun hwithin => (distance_le_length hwithin).trans_lt hlt⟩
  exact quantifier_alike hnext hsingle backward min max greedy inner (henough fuel hfuel)
    (henough (input.length + 1) (Nat.lt_succ_self _))

/-- **Repetitions.** Of a body of one character, with unlimited steps and levels, both kinds of repetition call the
continuation at the same ends, in the same order, until a call succeeds, and leave what it leaves. -/
theorem repeats_alike (tables : Tables Property) (input : List ℕ) {body : Node Property}
    (hsingle : body.isSingle = true) (backward : Bool) (min : ℕ) (max : Option ℕ) (greedy : Bool) (position : ℕ)
    {next : Continuation} (hnext : Plain next) (m : Matcher) :
    let ends := repeatEnds tables input m.flags backward body min max greedy position
    outcome (simpleRepeat input none (singleLength tables input m.flags backward body) backward min max greedy position
      next m) = outcome (tryAll next ends m) ∧
    ∀ fuel inner, input.length < fuel → 0 < inner →
      outcome (quantifier none (node tables input none inner backward body) min max greedy none next fuel position 0
        m) = outcome (tryAll next ends m) :=
  ⟨(simpleRepeat_alike hnext backward body min max greedy position m m rfl rfl).1, fun _ _ hfuel hinner =>
    (quantifier_calls hnext hsingle backward min max greedy position hfuel hinner m m rfl rfl).1⟩

end Repeats

/-- a continuation that takes one position alone -/
def onlyAt (expected : ℕ) : Continuation := fun position m =>
  if position = expected then some (true, { m with ending := some position }) else fail m

theorem plain_onlyAt (expected : ℕ) : Plain (onlyAt expected) := by
  intro flags position m m' hflags hsame
  unfold onlyAt
  by_cases hposition : position = expected
  · simp only [if_pos hposition]
    unfold Matcher.visible at hsame
    refine ⟨by simp_all [outcome, Matcher.visible], fun r hr hfalse => ?_⟩
    cases hr
    cases hfalse
  · simp only [if_neg hposition]
    exact alike_fail m m' hflags hsame

/-- `/a*/` on `aab`, where only the end behind the first letter is good -/
theorem repeats_alike_sample :
    let m : Matcher := ⟨⟨false, false, false, false, false⟩, [], 0, 0, 0, none⟩
    let ends := repeatEnds asciiTables [0x61, 0x61, 0x62] m.flags false (.literal 0x61) 0 none true 0
    outcome (simpleRepeat [0x61, 0x61, 0x62] none (singleLength asciiTables [0x61, 0x61, 0x62] m.flags false
      (.literal 0x61)) false 0 none true 0 (onlyAt 1) m) = outcome (tryAll (onlyAt 1) ends m) ∧
    ∀ fuel inner, 3 < fuel → 0 < inner →
      outcome (quantifier none (node asciiTables [0x61, 0x61, 0x62] none inner false (.literal 0x61)) 0 none true none
        (onlyAt 1) fuel 0 0 m) = outcome (tryAll (onlyAt 1) ends m) := by
  intro m
  exact repeats_alike asciiTables [0x61, 0x61, 0x62] rfl false 0 none true 0 (plain_onlyAt 1) m

end Render.Js.Regex
