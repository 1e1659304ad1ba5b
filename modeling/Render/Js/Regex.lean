/-
The backtracking matcher of regular expressions (`render-js/src/regex.rs`), on compiled patterns.

A continuation is a function of the position and the matcher. A call gives whether it matched and the matcher after it, or
`none` when the fuel of the model is used up: every call of `node` and of `quantifier` takes one unit, and with a limit
on the steps it is never used up (`Render.Js.RegexLimits`). The limits are a parameter, so that the same matcher also runs
without them.

Characters are numbers, code units or code points as the source has them. The case mappings of `char` and the tables of the
Unicode properties are the parameter `Tables`.
-/
import Mathlib.Tactic

namespace Render.Js.Regex

/-- `char::to_uppercase`, `char::to_lowercase`, and the Unicode properties a class can name -/
structure Tables (Property : Type) where
  toUppercase : ℕ → List ℕ
  toLowercase : ℕ → List ℕ
  contains : Property → ℕ → Bool

structure Flags where
  ignoreCase : Bool
  multiline : Bool
  dotAll : Bool
  sticky : Bool
  unicode : Bool
  deriving DecidableEq

/-! ## Characters -/

def isLead (unit : ℕ) : Bool := 0xd800 ≤ unit && unit ≤ 0xdbff

def isTrail (unit : ℕ) : Bool := 0xdc00 ≤ unit && unit ≤ 0xdfff

/-- the position falls on the trail unit of a surrogate pair -/
def isTrailInsidePair (input : List ℕ) (position : ℕ) : Bool :=
  0 < position && (input[position]?).any isTrail && (input[position - 1]?).any isLead

/-- the code point of a surrogate pair -/
def pair (lead trail : ℕ) : ℕ := 0x10000 + (lead - 0xd800) * 2 ^ 10 + (trail - 0xdc00)

/-- the code point at a position and its length in code units -/
def codePointAt (input : List ℕ) (position : ℕ) (unicode : Bool) : Option (ℕ × ℕ) :=
  match input[position]? with
  | none => none
  | some unit =>
    match input[position + 1]? with
    | some trail => if unicode && isLead unit && isTrail trail then some (pair unit trail, 2) else some (unit, 1)
    | none => some (unit, 1)

/-- the code point that ends at a position and its length in code units -/
def codePointBefore (input : List ℕ) (position : ℕ) (unicode : Bool) : Option (ℕ × ℕ) :=
  match position with
  | 0 => none
  | index + 1 =>
    match input[index]? with
    | none => none
    | some unit =>
      match index with
      | 0 => some (unit, 1)
      | before + 1 =>
        match input[before]? with
        | some lead => if unicode && isTrail unit && isLead lead then some (pair lead unit, 2) else some (unit, 1)
        | none => some (unit, 1)

def isLineTerminator (value : ℕ) : Bool := value = 0x0a || value = 0x0d || value = 0x2028 || value = 0x2029

def isSpace (value : ℕ) : Bool :=
  (0x09 ≤ value && value ≤ 0x0d) || value = 0x20 || value = 0xa0 || value = 0x1680 ||
    (0x2000 ≤ value && value ≤ 0x200a) || value = 0x2028 || value = 0x2029 || value = 0x202f || value = 0x205f ||
    value = 0x3000 || value = 0xfeff

/-- ASCII letters, digits and the underscore, and two characters that fold to letters -/
def isWord (value : ℕ) (flags : Flags) : Bool :=
  (0x30 ≤ value && value ≤ 0x39) || (0x41 ≤ value && value ≤ 0x5a) || (0x61 ≤ value && value ≤ 0x7a) || value = 0x5f ||
    (flags.unicode && flags.ignoreCase && (value = 0x17f || value = 0x212a))

/-- `char::from_u32` has a character for the value -/
def isChar (value : ℕ) : Bool := value ≤ 0x10ffff && !(0xd800 ≤ value && value ≤ 0xdfff)

/-- `single_char` -/
def singleChar : List ℕ → Option ℕ
  | [only] => some only
  | _ => none

inductive ClassItem (Property : Type)
  | char (value : ℕ)
  | range (first last : ℕ)
  | digit (positive : Bool)
  | word (positive : Bool)
  | space (positive : Bool)
  | property (property : Property) (positive : Bool)
  | nested (negated : Bool) (items : List (ClassItem Property))
  | intersection (operands : List (ClassItem Property))
  | subtraction (operands : List (ClassItem Property))

section Classes

variable {Property : Type} (tables : Tables Property)

def simpleCaseFold (character : ℕ) : ℕ :=
  if character = 0x131 then character
  else (singleChar (tables.toLowercase ((singleChar (tables.toUppercase character)).getD character))).getD character

def canonicalize (value : ℕ) (unicode : Bool) : ℕ :=
  if !isChar value then value
  else if unicode then simpleCaseFold tables value
  else match singleChar (tables.toUppercase value) with
    | some upper => if upper ≤ 0xffff && !(128 ≤ value && upper < 128) then upper else value
    | none => value

def caseVariants (value : ℕ) : List ℕ :=
  if !isChar value then [value]
  else [value, (singleChar (tables.toLowercase value)).getD value, (singleChar (tables.toUppercase value)).getD value]

mutual

/-- `item_matches` -/
def itemMatches (flags : Flags) : ClassItem Property → ℕ → Bool
  | .char expected, value => expected = value
  | .range first last, value => first ≤ value && value ≤ last
  | .digit positive, value => (0x30 ≤ value && value ≤ 0x39) == positive
  | .word positive, value => isWord value flags == positive
  | .space positive, value => isSpace value == positive
  | .property property positive, value => tables.contains property value == positive
  | .nested negated items, value => classContains flags items value != negated
  | .intersection operands, value => allMatch flags operands value
  | .subtraction [], _ => false
  | .subtraction (first :: rest), value => itemMatches flags first value && !anyMatches flags rest value

/-- `class_contains`: under `i` a character item is compared by its canonical form, other items through the case
variants of the input -/
def classContains (flags : Flags) : List (ClassItem Property) → ℕ → Bool
  | [], _ => false
  | item :: items, value => itemContains flags item value || classContains flags items value

/-- one item of `class_contains` -/
def itemContains (flags : Flags) : ClassItem Property → ℕ → Bool
  | .char member, value =>
    if flags.ignoreCase then canonicalize tables member flags.unicode = canonicalize tables value flags.unicode
    else member = value
  | item, value =>
    if flags.ignoreCase then (caseVariants tables value).any fun candidate =>
      canonicalize tables candidate flags.unicode = canonicalize tables value flags.unicode &&
        itemMatches flags item candidate
    else itemMatches flags item value

def allMatch (flags : Flags) : List (ClassItem Property) → ℕ → Bool
  | [], _ => true
  | item :: items, value => itemMatches flags item value && allMatch flags items value

def anyMatches (flags : Flags) : List (ClassItem Property) → ℕ → Bool
  | [], _ => false
  | item :: items, value => itemMatches flags item value || anyMatches flags items value

end

/-- `chars_match` -/
def charsMatch (flags : Flags) (expected actual : ℕ) : Bool :=
  expected = actual ||
    (flags.ignoreCase && canonicalize tables expected flags.unicode = canonicalize tables actual flags.unicode)

end Classes

/-! ## Patterns -/

/-- a span of the input, in code units -/
abbrev Span := ℕ × ℕ

abbrev Captures := List (Option Span)

inductive Node (Property : Type)
  | empty
  | literal (value : ℕ)
  | anyChar
  | class (negated : Bool) (items : List (ClassItem Property))
  | sequence (items : List (Node Property))
  | alternative (branches : List (Node Property))
  | group (index : Option ℕ) (body : Node Property)
  | lookahead (negated : Bool) (body : Node Property)
  | lookbehind (negated : Bool) (body : Node Property)
  | backreference (indices : List ℕ)
  /-- `reset`: the groups inside the body, first and last -/
  | quantifier (min : ℕ) (max : Option ℕ) (greedy : Bool) (body : Node Property) (reset : Option (ℕ × ℕ))
  | anchorStart
  | anchorEnd
  | wordBoundary (expected : Bool)
  | modifiers (ignoreCase multiline dotAll : Option Bool) (body : Node Property)

/-- a node that matches one character -/
def Node.isSingle {Property : Type} : Node Property → Bool
  | .literal _ | .anyChar | .class _ _ => true
  | _ => false

structure Compiled (Property : Type) where
  root : Node Property
  groupCount : ℕ
  groupNames : List (String × ℕ)
  flags : Flags

/-- where a match lies, with the spans of the groups -/
structure MatchRanges where
  start : ℕ
  «end» : ℕ
  groups : Captures
  names : List (String × ℕ)
  deriving DecidableEq

/-! ## The matcher -/

/-- `max_steps` and `max_depth` -/
structure Limits where
  steps : ℕ
  depth : ℕ

/-- what a matcher changes as it goes. `ending` is the cell that the last continuation of a search sets; `deepest`, how deep
the calls have nested, is kept for the statements alone. -/
structure Matcher where
  flags : Flags
  captures : Captures
  steps : ℕ
  depth : ℕ
  deepest : ℕ
  ending : Option ℕ

/-- a call: whether it matched, and the matcher after it -/
abbrev Run := Matcher → Option (Bool × Matcher)

abbrev Continuation := ℕ → Run

/-- the call fails -/
def fail : Run := fun m => some (false, m)

/-- a success is the result, after a failure comes the other call -/
def orElse (tried : Option (Bool × Matcher)) (other : Run) : Option (Bool × Matcher) :=
  tried.bind fun r => if r.1 then some r else other r.2

/-- a call whose failure puts captures back -/
def orRestore (tried : Option (Bool × Matcher)) (restore : Captures → Captures) : Option (Bool × Matcher) :=
  orElse tried fun m => some (false, { m with captures := restore m.captures })

/-- `tick`, before a call: a step past the limit fails -/
def ticked (limits : Option Limits) (next : Run) : Run := fun m =>
  if limits.any fun limits => limits.steps < m.steps + 1 then some (false, { m with steps := m.steps + 1 })
  else next { m with steps := m.steps + 1 }

/-- a position moved by a length, in the direction of the matcher -/
def move (backward : Bool) (position length : ℕ) : ℕ := if backward then position - length else position + length

/-- the span of a group; matched backward it ends where it started -/
def groupSpan (backward : Bool) (position endPosition : ℕ) : Span :=
  if backward then (endPosition, position) else (position, endPosition)

/-- the captures of a range of groups are unset -/
def clearRange (reset : Option (ℕ × ℕ)) (captures : Captures) : Captures :=
  match reset with
  | some (first, last) => captures.mapIdx fun i capture => if first ≤ i && i ≤ last then none else capture
  | none => captures

/-- the captures of a range of groups are as they were -/
def restoreRange (reset : Option (ℕ × ℕ)) (saved captures : Captures) : Captures :=
  match reset with
  | some (first, last) =>
    captures.mapIdx fun i capture => if first ≤ i && i ≤ last then saved.getD i none else capture
  | none => captures

section Matching

variable {Property : Type} (tables : Tables Property) (input : List ℕ) (limits : Option Limits)

/-- `single_length` -/
def singleLength (flags : Flags) (backward : Bool) (node : Node Property) (position : ℕ) : Option ℕ :=
  match if backward then codePointBefore input position flags.unicode else codePointAt input position flags.unicode with
  | none => none
  | some (actual, length) =>
    let matched := match node with
      | .literal expected => charsMatch tables flags expected actual
      | .anyChar => flags.dotAll || !isLineTerminator actual
      | .class negated items => classContains tables flags items actual != negated
      | _ => false
    if matched then some length else none

def anchorStartHolds (flags : Flags) (position : ℕ) : Bool :=
  position = 0 || (flags.multiline && (input[position - 1]?).any isLineTerminator)

def anchorEndHolds (flags : Flags) (position : ℕ) : Bool :=
  position = input.length || (flags.multiline && (input[position]?).any isLineTerminator)

def wordBoundaryHolds (flags : Flags) (expected : Bool) (position : ℕ) : Bool :=
  let before := 0 < position && (input[position - 1]?).any (isWord · flags)
  let after := (input[position]?).any (isWord · flags)
  (before != after) == expected

/-- where a back-reference leads: the position behind the text that its group has matched before -/
def backreferenceEnd (flags : Flags) (backward : Bool) (indices : List ℕ) (captures : Captures) (position : ℕ) :
    Option ℕ :=
  match indices.findSome? fun index => captures.getD index none with
  | none => some position
  | some (start, stop) =>
    let length := stop - start
    if backward && position < length then none
    else
      let from_ := if backward then position - length else position
      if input.length < from_ + length then none
      else if flags.unicode && (isTrailInsidePair input from_ || isTrailInsidePair input (from_ + length)) then none
      else if (List.range length).all fun offset =>
          charsMatch tables flags (input.getD (start + offset) 0) (input.getD (from_ + offset) 0) then
        some (if backward then from_ else from_ + length)
      else none

/-- the flags inside `(?ims-ims:…)` -/
def modified (flags : Flags) (ignoreCase multiline dotAll : Option Bool) : Flags :=
  { flags with
    ignoreCase := ignoreCase.getD flags.ignoreCase
    multiline := multiline.getD flags.multiline
    dotAll := dotAll.getD flags.dotAll }

/-- `sequence`; a sequence that is matched backward runs the items from the last -/
def sequence (run : Node Property → ℕ → Continuation → Run) : List (Node Property) → ℕ → Continuation → Run
  | [], position, next => next position
  | first :: rest, position, next => run first position fun mid => sequence run rest mid next

/-- the branches in order -/
def alternative (run : Node Property → ℕ → Continuation → Run) : List (Node Property) → ℕ → Continuation → Run
  | [], _, _ => fail
  | branch :: branches, position, next => fun m =>
    orElse (run branch position next m) (alternative run branches position next)

/-- a capturing group -/
def group (run : Node Property → ℕ → Continuation → Run) (backward : Bool) (index : ℕ) (body : Node Property)
    (position : ℕ) (next : Continuation) : Run := fun m =>
  orRestore
    (run body position (fun endPosition inner =>
      orRestore
        (next endPosition { inner with
          captures := inner.captures.set index (some (groupSpan backward position endPosition)) })
        (·.set index (inner.captures.getD index none))) m)
    (·.set index (m.captures.getD index none))

/-- `resume_assertion` -/
def resumeAssertion (negated succeeded : Bool) (saved : Captures) (position : ℕ) (next : Continuation) : Run := fun m =>
  if negated then
    if succeeded then fail { m with captures := saved } else next position { m with captures := saved }
  else if !succeeded then fail { m with captures := saved }
  else orRestore (next position m) fun _ => saved

/-- a lookahead or lookbehind: the body is probed, in its own direction, by a matcher that goes on with the captures, the
steps and the depth of this one -/
def lookaround (probe : ℕ → Continuation → Run) (negated : Bool) (position : ℕ) (next : Continuation) : Run := fun m =>
  (probe position (fun _ inner => some (true, inner)) m).bind fun r =>
    resumeAssertion negated r.1 m.captures position next
      { m with captures := r.2.captures, steps := r.2.steps, deepest := r.2.deepest }

/-- the scan of `simple_repeat`: the positions behind further repetitions, and whether the steps were enough. A repetition
consumes input, so the scan ends before its counter does. -/
def scan (single : ℕ → Option ℕ) (backward : Bool) (max : Option ℕ) : ℕ → ℕ → ℕ → Matcher → Bool × List ℕ × Matcher
  | 0, _, _, m => (true, [], m)
  | fuel + 1, count, last, m =>
    if max.all (count < ·) then
      match single last with
      | none => (true, [], m)
      | some length =>
        let m := { m with steps := m.steps + 1 }
        if limits.any fun limits => limits.steps < m.steps then (false, [], m)
        else
          let rest := scan single backward max fuel (count + 1) (move backward last length) m
          (rest.1, move backward last length :: rest.2.1, rest.2.2)
    else (true, [], m)

/-- the attempts of `simple_repeat`, one end after the other -/
def tryEnds (next : Continuation) : List ℕ → Run
  | [] => fail
  | ending :: endings => ticked limits fun m => orElse (next ending m) (tryEnds next endings)

/-- `simple_repeat` -/
def simpleRepeat (single : ℕ → Option ℕ) (backward : Bool) (min : ℕ) (max : Option ℕ) (greedy : Bool) (position : ℕ)
    (next : Continuation) : Run := fun m =>
  let scanned := scan limits single backward max (input.length + 1) 0 position m
  let ends := position :: scanned.2.1
  if !scanned.1 then fail scanned.2.2
  else if ends.length - 1 < min then fail scanned.2.2
  else tryEnds limits next (if greedy then (ends.drop min).reverse else ends.drop min) scanned.2.2

/-- one more iteration of a repetition, in which the groups of the body start unset -/
def attemptMore (run : ℕ → Continuation → Run) (again : ℕ → Run) (min : ℕ) (max : Option ℕ) (reset : Option (ℕ × ℕ))
    (position count : ℕ) : Run := fun m =>
  if max.all (count < ·) then
    orRestore
      (run position
        (fun advanced inner => if advanced = position && min ≤ count then fail inner else again advanced inner)
        { m with captures := clearRange reset m.captures })
      (restoreRange reset m.captures)
  else fail m

/-- `quantifier`, from the iteration of number `count` on -/
def quantifier (run : ℕ → Continuation → Run) (min : ℕ) (max : Option ℕ) (greedy : Bool) (reset : Option (ℕ × ℕ))
    (next : Continuation) : ℕ → ℕ → ℕ → Run
  | 0, _, _ => fun _ => none
  | fuel + 1, position, count => ticked limits fun m =>
    let more := attemptMore run (fun advanced => quantifier run min max greedy reset next fuel advanced (count + 1)) min
      max reset position count
    if count < min then more m
    else if greedy then orElse (more m) (next position)
    else orElse (next position m) more

/-- `node_inner`; `run` is `node` in either direction -/
def nodeInner (run : Bool → Node Property → ℕ → Continuation → Run) (fuel : ℕ) (backward : Bool) (node : Node Property)
    (position : ℕ) (next : Continuation) : Run := fun m =>
  match node with
  | .empty => next position m
  | .literal _ | .anyChar | .class _ _ =>
    match singleLength tables input m.flags backward node position with
    | none => fail m
    | some length => next (move backward position length) m
  | .anchorStart => if anchorStartHolds input m.flags position then next position m else fail m
  | .anchorEnd => if anchorEndHolds input m.flags position then next position m else fail m
  | .wordBoundary expected => if wordBoundaryHolds input m.flags expected position then next position m else fail m
  | .sequence items => sequence (run backward) (if backward then items.reverse else items) position next m
  | .alternative branches => alternative (run backward) branches position next m
  | .modifiers ignoreCase multiline dotAll body =>
    let outer := m.flags
    let inner := modified outer ignoreCase multiline dotAll
    (run backward body position (fun ending matcher =>
        (next ending { matcher with flags := outer }).map fun r => (r.1, { r.2 with flags := inner }))
      { m with flags := inner }).map fun r => (r.1, { r.2 with flags := outer })
  | .group none body => run backward body position next m
  | .group (some index) body => group (run backward) backward index body position next m
  | .lookahead negated body => lookaround (run false body) negated position next m
  | .lookbehind negated body => lookaround (run true body) negated position next m
  | .backreference indices =>
    match backreferenceEnd tables input m.flags backward indices m.captures position with
    | none => fail m
    | some ending => next ending m
  | .quantifier min max greedy body reset =>
    if body.isSingle then
      simpleRepeat input limits (singleLength tables input m.flags backward body) backward min max greedy position next m
    else quantifier limits (run backward body) min max greedy reset next fuel position 0 m

/-- `node`: a call that would nest too deep fails and leaves no steps -/
def node : ℕ → Bool → Node Property → ℕ → Continuation → Run
  | 0, _, _, _, _ => fun _ => none
  | fuel + 1, backward, pattern, position, next => fun m =>
    match limits.bind fun limits => if limits.depth ≤ m.depth then some limits else none with
    | some limits => some (false, { m with steps := limits.steps + 1 })
    | none =>
      (ticked limits (nodeInner tables input limits (node fuel) fuel backward pattern position next)
        { m with depth := m.depth + 1, deepest := Nat.max m.deepest (m.depth + 1) }).map fun r =>
          (r.1, { r.2 with depth := r.2.depth - 1 })

/-! ## Finding a match -/

/-- the matcher that an attempt starts with -/
def Matcher.new (compiled : Compiled Property) : Matcher :=
  ⟨compiled.flags, List.replicate (compiled.groupCount + 1) none, 0, 0, 0, none⟩

/-- one pass of the loop of `find_with_depth`: the pattern at a start -/
def attempt (fuel : ℕ) (compiled : Compiled Property) (start : ℕ) : Option (Bool × Matcher) :=
  node tables input limits fuel false compiled.root start
    (fun position m => some (true, { m with ending := some position })) (.new compiled)

/-- `starts_at_input_start`: the pattern opens with `^` outside multiline mode -/
def startsAtInputStart (compiled : Compiled Property) : Bool :=
  let first := match compiled.root with
    | .sequence items => items.head?
    | other => some other
  match first with
  | some .anchorStart => !compiled.flags.multiline
  | _ => false

/-- the start that follows -/
def nextStart (unicode : Bool) (start : ℕ) : ℕ :=
  start + if unicode then ((codePointAt input start true).map Prod.snd).getD 1 else 1

/-- the start that is tried first: not inside a surrogate pair -/
def firstStart (unicode : Bool) (start : ℕ) : ℕ :=
  if unicode && isTrailInsidePair input (Nat.min start input.length) then Nat.min start input.length - 1
  else Nat.min start input.length

/-- the loop of `find_with_depth` -/
def search (fuel : ℕ) (compiled : Compiled Property) : ℕ → ℕ → Option (Option MatchRanges)
  | 0, _ => none
  | passes + 1, start =>
    match attempt tables input limits fuel compiled start with
    | none => none
    | some (true, ⟨_, captures, _, _, _, some ending⟩) =>
      some (some ⟨start, ending, captures.drop 1, compiled.groupNames⟩)
    | some _ =>
      if compiled.flags.sticky || input.length ≤ start || startsAtInputStart compiled then some none
      else search fuel compiled passes (nextStart input compiled.flags.unicode start)

end Matching

/-- the step budget of one attempt -/
def maxSteps (input : List ℕ) : ℕ := 1000000 + 2 * input.length

/-- the depth of the calls on a large stack, and on the stack there is -/
def maxDepth (input : List ℕ) (spawned : Bool) : ℕ :=
  if input.length ≤ 600 then 6000 else if spawned then 60000 else 6000

/-- `find`; `spawned` says whether a thread with a large stack was there for a long input and came back. One unit of fuel
for each step there may be is enough (`find_returns`). -/
def find {Property : Type} (tables : Tables Property) (compiled : Compiled Property) (input : List ℕ) (start : ℕ)
    (spawned : Bool) : Option (Option MatchRanges) :=
  search tables input (some ⟨maxSteps input, maxDepth input spawned⟩) (maxSteps input + 2) compiled (input.length + 1)
    (firstStart input compiled.flags.unicode start)

end Render.Js.Regex
