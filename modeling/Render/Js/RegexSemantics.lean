/-
What a pattern matches (ECMA-262 22.2.2), without steps, depth or backtracking: the ways in which it matches at a position,
in the order in which they are to be tried. A way is the position behind the match and the captures; the match that is
found is the first way at the first start that has one (`firstMatch`).

A repetition either counts up to its minimum or moves on, so `repeats` runs out of neither of its bounds
(`Render.Js.RegexMatcher`).
-/
import Render.Js.Regex

namespace Render.Js.Regex

/-- a way to match: the position behind it, and the captures -/
structure Way where
  position : ℕ
  captures : Captures
  deriving DecidableEq

section Semantics

variable {Property : Type} (tables : Tables Property) (input : List ℕ)

/-- one more iteration of a repetition, in which the groups of the body start unset; past the minimum it has to move -/
def moreWays (body again : Way → List Way) (min : ℕ) (max : Option ℕ) (reset : Option (ℕ × ℕ)) (count : ℕ) (way : Way) :
    List Way :=
  if max.all (count < ·) then
    ((body { way with captures := clearRange reset way.captures }).filter fun next =>
      !(next.position = way.position && min ≤ count)).flatMap again
  else []

/-- the ways of a repetition from the iteration of number `count` on, given those of its body -/
def repeats (body : Way → List Way) (min : ℕ) (max : Option ℕ) (greedy : Bool) (reset : Option (ℕ × ℕ)) :
    ℕ → ℕ → Way → List Way
  | 0, _, _ => []
  | bound + 1, count, way =>
    let more := moreWays body (repeats body min max greedy reset bound (count + 1)) min max reset count way
    if count < min then more
    else if greedy then more ++ [way]
    else way :: more

/-- an assertion: the first way of its body gives the captures, the position stays -/
def asserts (negated : Bool) (way : Way) (found : List Way) : List Way :=
  match negated, found with
  | true, [] => [way]
  | true, _ :: _ => []
  | false, [] => []
  | false, first :: _ => [{ way with captures := first.captures }]

/-- the one way to match a character -/
def singleWays (node : Node Property) (flags : Flags) (backward : Bool) (way : Way) : List Way :=
  match singleLength tables input flags backward node way.position with
  | none => []
  | some length => [{ way with position := move backward way.position length }]

mutual

/-- the ways a pattern matches from one position, in order -/
def ways : Node Property → Flags → Bool → Way → List Way
  | .empty, _, _, way => [way]
  | .literal value, flags, backward, way => singleWays tables input (.literal value) flags backward way
  | .anyChar, flags, backward, way => singleWays tables input .anyChar flags backward way
  | .class negated items, flags, backward, way => singleWays tables input (.class negated items) flags backward way
  | .sequence items, flags, backward, way => waysSequence items flags backward way
  | .alternative branches, flags, backward, way => waysAlternative branches flags backward way
  | .group none body, flags, backward, way => ways body flags backward way
  | .group (some index) body, flags, backward, way =>
    (ways body flags backward way).map fun next =>
      { next with captures := next.captures.set index (some (groupSpan backward way.position next.position)) }
  | .lookahead negated body, flags, _, way => asserts negated way (ways body flags false way)
  | .lookbehind negated body, flags, _, way => asserts negated way (ways body flags true way)
  | .backreference indices, flags, backward, way =>
    match backreferenceEnd tables input flags backward indices way.captures way.position with
    | none => []
    | some ending => [{ way with position := ending }]
  | .quantifier min max greedy body reset, flags, backward, way =>
    repeats (ways body flags backward) min max greedy (if body.isSingle then none else reset)
      (min + input.length + 1) 0 way
  | .anchorStart, flags, _, way => if anchorStartHolds input flags way.position then [way] else []
  | .anchorEnd, flags, _, way => if anchorEndHolds input flags way.position then [way] else []
  | .wordBoundary expected, flags, _, way =>
    if wordBoundaryHolds input flags expected way.position then [way] else []
  | .modifiers ignoreCase multiline dotAll body, flags, backward, way =>
    ways body (modified flags ignoreCase multiline dotAll) backward way

/-- the ways of a sequence: one item after the other, from the last when matching backward -/
def waysSequence : List (Node Property) → Flags → Bool → Way → List Way
  | [], _, _, way => [way]
  | first :: rest, flags, false, way => (ways first flags false way).flatMap (waysSequence rest flags false)
  | first :: rest, flags, true, way => (waysSequence rest flags true way).flatMap (ways first flags true)

/-- the ways of the branches, in order -/
def waysAlternative : List (Node Property) → Flags → Bool → Way → List Way
  | [], _, _, _ => []
  | branch :: branches, flags, backward, way =>
    ways branch flags backward way ++ waysAlternative branches flags backward way

end

/-- the first way at one start -/
def matchAt (compiled : Compiled Property) (start : ℕ) : Option MatchRanges :=
  (ways tables input compiled.root compiled.flags false
    ⟨start, List.replicate (compiled.groupCount + 1) none⟩).head?.map fun way =>
      ⟨start, way.position, way.captures.drop 1, compiled.groupNames⟩

/-- the first way at the first start that has one; a sticky pattern is tried at one start only -/
def firstMatch (compiled : Compiled Property) : ℕ → ℕ → Option MatchRanges
  | 0, _ => none
  | passes + 1, start =>
    match matchAt tables input compiled start with
    | some found => some found
    | none =>
      if compiled.flags.sticky || input.length ≤ start then none
      else firstMatch compiled passes (nextStart input compiled.flags.unicode start)

end Semantics

end Render.Js.Regex
