/-
The positions of a match: each way of a pattern (`Render.Js.RegexSemantics`) stays within the input and runs in the direction
of the matcher, and a matched character moves on. This is why a repetition ends.
-/
import Render.Js.RegexSemantics

namespace Render.Js.Regex

/-! ## Positions -/

/-- a position that can be reached from another, in the direction of the matcher -/
def Reaches (input : List ℕ) (backward : Bool) (position reached : ℕ) : Prop :=
  reached ≤ input.length ∧ if backward then reached ≤ position else position ≤ reached

/-- how far a position is from the end that the matcher runs towards -/
def distance (input : List ℕ) (backward : Bool) (position : ℕ) : ℕ :=
  if backward then position else input.length - position

namespace Reaches

variable {input : List ℕ} {backward : Bool} {a b c : ℕ}

theorem refl (h : a ≤ input.length) : Reaches input backward a a := by
  refine ⟨h, ?_⟩
  split <;> exact Nat.le_refl a

theorem trans (h : Reaches input backward a b) (h' : Reaches input backward b c) : Reaches input backward a c := by
  obtain ⟨-, hab⟩ := h
  obtain ⟨hc, hbc⟩ := h'
  refine ⟨hc, ?_⟩
  cases backward <;> simp only [Bool.false_eq_true, if_true, if_false] at hab hbc ⊢ <;> omega

theorem distance_lt (h : Reaches input backward a b) (hne : b ≠ a) :
    distance input backward b < distance input backward a := by
  obtain ⟨hb, hab⟩ := h
  cases backward <;> simp only [distance, Bool.false_eq_true, if_true, if_false] at hab ⊢ <;> omega

end Reaches

theorem distance_le_length {input : List ℕ} {backward : Bool} {a : ℕ} (h : a ≤ input.length) :
    distance input backward a ≤ input.length := by
  unfold distance
  split <;> omega

theorem codePointAt_bounds {input : List ℕ} {position : ℕ} {unicode : Bool} {character length : ℕ}
    (h : codePointAt input position unicode = some (character, length)) :
    0 < length ∧ position + length ≤ input.length := by
  unfold codePointAt at h
  cases hunit : input[position]? with
  | none => simp [hunit] at h
  | some unit =>
    obtain ⟨hlt, -⟩ := List.getElem?_eq_some_iff.1 hunit
    cases htrail : input[position + 1]? with
    | none =>
      simp only [hunit, htrail, Option.some.injEq, Prod.mk.injEq] at h
      omega
    | some trail =>
      obtain ⟨hlt', -⟩ := List.getElem?_eq_some_iff.1 htrail
      simp only [hunit, htrail] at h
      split at h <;> simp only [Option.some.injEq, Prod.mk.injEq] at h <;> omega

theorem codePointBefore_bounds {input : List ℕ} {position : ℕ} {unicode : Bool} {character length : ℕ}
    (h : codePointBefore input position unicode = some (character, length)) : 0 < length ∧ length ≤ position := by
  unfold codePointBefore at h
  cases position with
  | zero => cases h
  | succ index =>
    cases hunit : input[index]? with
    | none => simp [hunit] at h
    | some unit =>
      cases index with
      | zero =>
        simp only [hunit, Option.some.injEq, Prod.mk.injEq] at h
        omega
      | succ before =>
        simp only [hunit] at h
        cases hlead : input[before]? with
        | none =>
          simp only [hlead, Option.some.injEq, Prod.mk.injEq] at h
          omega
        | some lead =>
          simp only [hlead] at h
          split at h <;> simp only [Option.some.injEq, Prod.mk.injEq] at h <;> omega

section Positions

variable {Property : Type} {tables : Tables Property} {input : List ℕ}

/-- a matched character moves on -/
theorem singleLength_reaches {flags : Flags} {backward : Bool} {node : Node Property} {position length : ℕ}
    (hin : position ≤ input.length) (h : singleLength tables input flags backward node position = some length) :
    Reaches input backward position (move backward position length) ∧ move backward position length ≠ position := by
  unfold singleLength at h
  cases hread : (if backward then codePointBefore input position flags.unicode
      else codePointAt input position flags.unicode) with
  | none => simp [hread] at h
  | some r =>
    obtain ⟨actual, found⟩ := r
    simp only [hread] at h
    obtain ⟨-, hlength⟩ := Option.ite_none_right_eq_some.1 h
    cases hlength
    cases backward with
    | true =>
      obtain ⟨hpos, hle⟩ := codePointBefore_bounds (by simpa using hread)
      simp only [Reaches, move, if_true]
      omega
    | false =>
      obtain ⟨hpos, hle⟩ := codePointAt_bounds (by simpa using hread)
      simp only [Reaches, move, Bool.false_eq_true, if_false]
      omega

theorem backreferenceEnd_reaches {flags : Flags} {backward : Bool} {indices : List ℕ} {captures : Captures}
    {position ending : ℕ} (hin : position ≤ input.length)
    (h : backreferenceEnd tables input flags backward indices captures position = some ending) :
    Reaches input backward position ending := by
  unfold backreferenceEnd at h
  split at h
  · cases h
    exact .refl hin
  · rename_i start stop _
    dsimp only at h
    rw [Option.ite_none_left_eq_some] at h
    obtain ⟨hbackward, h⟩ := h
    rw [Option.ite_none_left_eq_some] at h
    obtain ⟨hlength, h⟩ := h
    rw [Option.ite_none_left_eq_some] at h
    obtain ⟨-, h⟩ := h
    obtain ⟨-, hend⟩ := Option.ite_none_right_eq_some.1 h
    cases backward <;> simp only [Bool.false_eq_true, if_true, if_false, Option.some.injEq] at hlength hend <;>
      simp only [Reaches, Bool.false_eq_true, if_true, if_false] <;> omega

/-- the ways of a pattern stay within the input and run in the direction of the matcher -/
def WaysReach (input : List ℕ) (backward : Bool) (body : Way → List Way) : Prop :=
  ∀ x, x.position ≤ input.length → ∀ y ∈ body x, Reaches input backward x.position y.position

theorem WaysReach.flatMap {backward : Bool} {first rest : Way → List Way} (hfirst : WaysReach input backward first)
    (hrest : WaysReach input backward rest) : WaysReach input backward fun x => (first x).flatMap rest := by
  intro x hx z hz
  obtain ⟨y, hy, hz⟩ := List.mem_flatMap.1 hz
  have hxy := hfirst x hx y hy
  exact hxy.trans (hrest y hxy.1 z hz)

theorem moreWays_reach {backward : Bool} {body again : Way → List Way} (hbody : WaysReach input backward body)
    (hagain : WaysReach input backward again) (min : ℕ) (max : Option ℕ) (reset : Option (ℕ × ℕ)) (count : ℕ) :
    WaysReach input backward (moreWays body again min max reset count) := by
  intro x hx y hy
  unfold moreWays at hy
  split at hy
  · obtain ⟨next, hnext, hy⟩ := List.mem_flatMap.1 hy
    have hstep := hbody ⟨x.position, clearRange reset x.captures⟩ hx next (List.mem_filter.1 hnext).1
    exact hstep.trans (hagain next hstep.1 y hy)
  · exact absurd hy List.not_mem_nil

theorem repeats_reach {backward : Bool} {body : Way → List Way} (hbody : WaysReach input backward body) (min : ℕ)
    (max : Option ℕ) (greedy : Bool) (reset : Option (ℕ × ℕ)) (bound count : ℕ) :
    WaysReach input backward (repeats body min max greedy reset bound count) := by
  induction bound generalizing count with
  | zero => exact fun x _ y hy => absurd hy List.not_mem_nil
  | succ bound ih =>
    have hmore := moreWays_reach hbody (ih (count + 1)) min max reset count
    intro x hx y hy
    rw [repeats] at hy
    split at hy
    · exact hmore x hx y hy
    · split at hy
      · rcases List.mem_append.1 hy with hy | hy
        · exact hmore x hx y hy
        · rw [List.mem_singleton.1 hy]
          exact .refl hx
      · rcases List.mem_cons.1 hy with rfl | hy
        · exact .refl hx
        · exact hmore x hx y hy

theorem singleWays_reach (node : Node Property) (flags : Flags) (backward : Bool) :
    WaysReach input backward (singleWays tables input node flags backward) := by
  intro x hx y hy
  unfold singleWays at hy
  split at hy
  · exact absurd hy List.not_mem_nil
  · rename_i length hlength
    rw [List.mem_singleton.1 hy]
    exact (singleLength_reaches hx hlength).1

theorem asserts_reach (negated backward : Bool) (found : Way → List Way) :
    WaysReach input backward fun x => asserts negated x (found x) := by
  intro x hx y hy
  have hpos : y.position = x.position := by
    dsimp only at hy
    unfold asserts at hy
    split at hy
    · rw [List.mem_singleton.1 hy]
    · exact absurd hy List.not_mem_nil
    · exact absurd hy List.not_mem_nil
    · rw [List.mem_singleton.1 hy]
  rw [hpos]
  exact .refl hx

theorem anchored_reach (backward : Bool) (holds : Way → Bool) :
    WaysReach input backward fun x => if holds x then [x] else [] := by
  intro x hx y hy
  dsimp only at hy
  split at hy
  · rw [List.mem_singleton.1 hy]
    exact .refl hx
  · exact absurd hy List.not_mem_nil

mutual

theorem ways_reach (node : Node Property) (flags : Flags) (backward : Bool) :
    WaysReach input backward (ways tables input node flags backward) := by
  match node with
  | .empty =>
    intro x hx y hy
    rw [ways] at hy
    rw [List.mem_singleton.1 hy]
    exact .refl hx
  | .literal value =>
    intro x hx y hy
    rw [ways] at hy
    exact singleWays_reach _ flags backward x hx y hy
  | .anyChar =>
    intro x hx y hy
    rw [ways] at hy
    exact singleWays_reach _ flags backward x hx y hy
  | .class negated items =>
    intro x hx y hy
    rw [ways] at hy
    exact singleWays_reach _ flags backward x hx y hy
  | .sequence items =>
    intro x hx y hy
    rw [ways] at hy
    exact waysSequence_reach items flags backward x hx y hy
  | .alternative branches =>
    intro x hx y hy
    rw [ways] at hy
    exact waysAlternative_reach branches flags backward x hx y hy
  | .group none body =>
    intro x hx y hy
    rw [ways] at hy
    exact ways_reach body flags backward x hx y hy
  | .group (some index) body =>
    intro x hx y hy
    rw [ways] at hy
    obtain ⟨next, hnext, rfl⟩ := List.mem_map.1 hy
    exact ways_reach body flags backward x hx next hnext
  | .lookahead negated body =>
    intro x hx y hy
    rw [ways] at hy
    exact asserts_reach negated backward (ways tables input body flags false) x hx y hy
  | .lookbehind negated body =>
    intro x hx y hy
    rw [ways] at hy
    exact asserts_reach negated backward (ways tables input body flags true) x hx y hy
  | .backreference indices =>
    intro x hx y hy
    rw [ways] at hy
    split at hy
    · exact absurd hy List.not_mem_nil
    · rename_i ending hending
      rw [List.mem_singleton.1 hy]
      exact backreferenceEnd_reaches hx hending
  | .quantifier min max greedy body reset =>
    intro x hx y hy
    rw [ways] at hy
    exact repeats_reach (ways_reach body flags backward) min max greedy _ _ 0 x hx y hy
  | .anchorStart =>
    intro x hx y hy
    rw [ways] at hy
    exact anchored_reach backward (fun x => anchorStartHolds input flags x.position) x hx y hy
  | .anchorEnd =>
    intro x hx y hy
    rw [ways] at hy
    exact anchored_reach backward (fun x => anchorEndHolds input flags x.position) x hx y hy
  | .wordBoundary expected =>
    intro x hx y hy
    rw [ways] at hy
    exact anchored_reach backward (fun x => wordBoundaryHolds input flags expected x.position) x hx y hy
  | .modifiers ignoreCase multiline dotAll body =>
    intro x hx y hy
    rw [ways] at hy
    exact ways_reach body _ backward x hx y hy

theorem waysSequence_reach (items : List (Node Property)) (flags : Flags) (backward : Bool) :
    WaysReach input backward (waysSequence tables input items flags backward) := by
  match items, backward with
  | [], _ =>
    intro x hx y hy
    rw [waysSequence] at hy
    rw [List.mem_singleton.1 hy]
    exact .refl hx
  | first :: rest, false =>
    intro x hx y hy
    rw [waysSequence] at hy
    exact (ways_reach first flags false).flatMap (waysSequence_reach rest flags false) x hx y hy
  | first :: rest, true =>
    intro x hx y hy
    rw [waysSequence] at hy
    exact (waysSequence_reach rest flags true).flatMap (ways_reach first flags true) x hx y hy

theorem waysAlternative_reach (branches : List (Node Property)) (flags : Flags) (backward : Bool) :
    WaysReach input backward (waysAlternative tables input branches flags backward) := by
  match branches with
  | [] =>
    intro x _ y hy
    rw [waysAlternative] at hy
    exact absurd hy List.not_mem_nil
  | branch :: branches =>
    intro x hx y hy
    rw [waysAlternative] at hy
    rcases List.mem_append.1 hy with hy | hy
    · exact ways_reach branch flags backward x hx y hy
    · exact waysAlternative_reach branches flags backward x hx y hy

end

end Positions

end Render.Js.Regex
