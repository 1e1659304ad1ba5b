/-
The nesting selector (`render-css/src/selector.rs`): writing the parent's selector for `&`.

The tokens are those of the tokenizer, with the text each was written with (`Tokens`); functions and blocks are taken
whole. `substituteNesting` copies text as slices between two places of the input, and keeps the place behind the last
token. Behind a function or a block that is the place behind its opening, so the next slice repeats what is inside. Told
without places, a slice is what is pending and then the token (`pendingOutput`), and the output is what it should be
(`substituted`) exactly where nothing is pending that a slice takes (`Apart`).
-/
import Mathlib.Data.List.Basic
import Mathlib.Tactic

namespace Render.Css

/-! ## Tokens -/

inductive BlockKind
  | parenthesis
  | square
  | curly
  deriving DecidableEq

namespace BlockKind

def opening : BlockKind → Char
  | parenthesis => '('
  | square => '['
  | curly => '\x7b'

def closing : BlockKind → Char
  | parenthesis => ')'
  | square => ']'
  | curly => '\x7d'

end BlockKind

/-- what closes a function or a block, if the input does not end before -/
def closingText (closed : Bool) (closing : Char) : List Char := if closed then [closing] else []

/-- tokens in order. A function has its name with the escapes resolved, and the text of its name and parenthesis as it
was written. Strings, addresses, comments and white space are literals like all that opens no block. -/
inductive Tokens
  | nil
  | ampersand (rest : Tokens)
  | literal (text : List Char) (rest : Tokens)
  | function (name opening : List Char) (content : Tokens) (closed : Bool) (rest : Tokens)
  | block (kind : BlockKind) (content : Tokens) (closed : Bool) (rest : Tokens)

namespace Tokens

/-- the text the tokens were written with -/
def text : Tokens → List Char
  | nil => []
  | ampersand rest => '&' :: rest.text
  | literal text rest => text ++ rest.text
  | function _ opening content closed rest => opening ++ content.text ++ closingText closed ')' ++ rest.text
  | block kind content closed rest =>
    kind.opening :: content.text ++ closingText closed kind.closing ++ rest.text

end Tokens

/-! ## The substitution -/

/-- the text between two places -/
def slice (input : List Char) (start stop : ℕ) : List Char := (input.drop start).take (stop - start)

section

variable (input nesting : List Char)

/-- `substitute_nesting`: the output, and whether the nesting selector is named. Blocks are closed by the end of the input
if by nothing else, so none is unterminated. -/
def substituteNesting : Tokens → ℕ → ℕ → List Char × Bool
  | .nil, _, _ => ([], false)
  | .ampersand rest, position, _ =>
    let next := position + 1
    let (output, _) := substituteNesting rest next next
    (nesting ++ output, true)
  | .literal text rest, position, start =>
    let next := position + text.length
    let (output, named) := substituteNesting rest next next
    (slice input start next ++ output, named)
  | .function name opening content closed rest, position, _ =>
    let next := position + opening.length
    let (inner, namedInside) := substituteNesting content next next
    let after := next + content.text.length + (closingText closed ')').length
    let (output, named) := substituteNesting rest after next
    (name ++ '(' :: inner ++ ')' :: output, namedInside || named)
  | .block kind content closed rest, position, start =>
    let next := position + 1
    let after := next + content.text.length + (closingText closed kind.closing).length
    let (output, named) := substituteNesting rest after next
    (slice input start after ++ output, named)

end

/-- what the substitution should write: `&` is replaced outside strings and the blocks `[]` and `\x7b\x7d` -/
def substituted (nesting : List Char) : Tokens → List Char
  | .nil => []
  | .ampersand rest => nesting ++ substituted nesting rest
  | .literal text rest => text ++ substituted nesting rest
  | .function _ opening content closed rest =>
    opening ++ substituted nesting content ++ closingText closed ')' ++ substituted nesting rest
  | .block .parenthesis content closed rest =>
    '(' :: substituted nesting content ++ closingText closed ')' ++ substituted nesting rest
  | .block kind content closed rest =>
    kind.opening :: content.text ++ closingText closed kind.closing ++ substituted nesting rest

/-- the substitution writes that -/
def NestingExact (nesting : List Char) (tokens : Tokens) : Prop :=
  (substituteNesting tokens.text nesting tokens 0 0).1 = substituted nesting tokens

/-! ## Slices -/

/-- the output by what is pending: the text between the place behind the last token and here -/
def pendingOutput (nesting : List Char) : Tokens → List Char → List Char
  | .nil, _ => []
  | .ampersand rest, _ => nesting ++ pendingOutput nesting rest []
  | .literal text rest, pending => pending ++ text ++ pendingOutput nesting rest []
  | .function name _ content closed rest, _ =>
    name ++ '(' :: pendingOutput nesting content [] ++
      ')' :: pendingOutput nesting rest (content.text ++ closingText closed ')')
  | .block kind content closed rest, pending =>
    pending ++ kind.opening :: content.text ++ closingText closed kind.closing ++
      pendingOutput nesting rest (content.text ++ closingText closed kind.closing)

theorem slice_eq (front middle back : List Char) :
    slice (front ++ middle ++ back) front.length (front.length + middle.length) = middle := by
  simp [slice]

/-- **The slices are what is pending.** -/
theorem substituteNesting_eq (nesting : List Char) (tokens : Tokens) (before pending after : List Char) :
    (substituteNesting (before ++ pending ++ tokens.text ++ after) nesting tokens (before.length + pending.length)
      before.length).1 = pendingOutput nesting tokens pending := by
  induction tokens generalizing before pending after with
  | nil => rfl
  | ampersand rest ih =>
    have hrest := ih (before ++ pending ++ ['&']) [] after
    rw [substituteNesting, pendingOutput, ← hrest]
    simp [Tokens.text, Nat.add_assoc]
  | literal text rest ih =>
    have hrest := ih (before ++ pending ++ text) [] after
    have hslice := slice_eq before (pending ++ text) (rest.text ++ after)
    rw [substituteNesting, pendingOutput, ← hrest, ← hslice]
    simp [Tokens.text, Nat.add_assoc]
  | function name opening content closed rest ihContent ihRest =>
    have hcontent := ihContent (before ++ pending ++ opening) [] (closingText closed ')' ++ rest.text ++ after)
    have hrest := ihRest (before ++ pending ++ opening) (content.text ++ closingText closed ')') after
    rw [substituteNesting, pendingOutput, ← hrest, ← hcontent]
    simp [Tokens.text, Nat.add_assoc]
  | block kind content closed rest _ ihRest =>
    have hrest := ihRest (before ++ pending ++ [kind.opening]) (content.text ++ closingText closed kind.closing) after
    have hslice := slice_eq before (pending ++ kind.opening :: content.text ++ closingText closed kind.closing)
      (rest.text ++ after)
    rw [substituteNesting, pendingOutput, ← hrest, ← hslice]
    simp [Tokens.text, Nat.add_assoc, Nat.add_comm, Nat.add_left_comm]

/-! ## What is copied once -/

namespace Tokens

/-- what the tokenizer gives: a function or a block that is not closed is the last -/
def Tokenized : Tokens → Prop
  | nil => True
  | ampersand rest => rest.Tokenized
  | literal _ rest => rest.Tokenized
  | function _ _ content closed rest => (closed ∨ rest = nil) ∧ content.Tokenized ∧ rest.Tokenized
  | block _ content closed rest => (closed ∨ rest = nil) ∧ content.Tokenized ∧ rest.Tokenized

/-- there is a nesting selector outside strings and the blocks `[]` and `\x7b\x7d` -/
def hasNesting : Tokens → Bool
  | nil => false
  | ampersand _ => true
  | literal _ rest => rest.hasNesting
  | function _ _ content _ rest => content.hasNesting || rest.hasNesting
  | block kind content _ rest => (kind = .parenthesis && content.hasNesting) || rest.hasNesting

/-- functions are closed, their names are written without escapes, and no nesting selector is in a parenthesis -/
def Plain : Tokens → Prop
  | nil => True
  | ampersand rest => rest.Plain
  | literal _ rest => rest.Plain
  | function name opening content closed rest => opening = name ++ ['('] ∧ closed ∧ content.Plain ∧ rest.Plain
  | block kind content _ rest => (kind = .parenthesis → content.hasNesting = false) ∧ rest.Plain

/-- no literal and no block comes directly behind a function or a block; `behind`: one comes before the tokens -/
def Apart : Tokens → Bool → Prop
  | nil, _ => True
  | ampersand rest, _ => rest.Apart false
  | literal _ rest, behind => behind = false ∧ rest.Apart false
  | function _ _ content _ rest, _ => content.Apart false ∧ rest.Apart true
  | block _ _ _ rest, behind => behind = false ∧ rest.Apart true

end Tokens

theorem substituted_of_hasNesting {nesting : List Char} {tokens : Tokens} (h : tokens.hasNesting = false) :
    substituted nesting tokens = tokens.text := by
  induction tokens with
  | nil => rfl
  | ampersand rest => cases h
  | literal text rest ih => rw [substituted, Tokens.text, ih h]
  | function name opening content closed rest ihContent ihRest =>
    obtain ⟨hcontent, hrest⟩ := Bool.or_eq_false_iff.1 h
    rw [substituted, Tokens.text, ihContent hcontent, ihRest hrest]
  | block kind content closed rest ihContent ihRest =>
    obtain ⟨hcontent, hrest⟩ := Bool.or_eq_false_iff.1 h
    cases kind with
    | parenthesis => rw [substituted, Tokens.text, ihContent (by simpa using hcontent), ihRest hrest]; rfl
    | square => rw [substituted, Tokens.text, ihRest hrest]; nofun
    | curly => rw [substituted, Tokens.text, ihRest hrest]; nofun

/-- a block is copied, if it holds nothing that is to be replaced -/
theorem substituted_block {nesting : List Char} {kind : BlockKind} {content rest : Tokens} {closed : Bool}
    (h : kind = .parenthesis → content.hasNesting = false) :
    substituted nesting (.block kind content closed rest) =
      kind.opening :: content.text ++ closingText closed kind.closing ++ substituted nesting rest := by
  cases kind with
  | parenthesis => rw [substituted, substituted_of_hasNesting (h rfl)]; rfl
  | square => rw [substituted]; nofun
  | curly => rw [substituted]; nofun

/-- where nothing is pending that a slice takes, the output is right -/
theorem pendingOutput_eq {nesting : List Char} {tokens : Tokens} (hplain : tokens.Plain) {behind : Bool}
    (hapart : tokens.Apart behind) {pending : List Char} (hpending : behind = false → pending = []) :
    pendingOutput nesting tokens pending = substituted nesting tokens := by
  induction tokens generalizing behind pending with
  | nil => rfl
  | ampersand rest ih => rw [pendingOutput, substituted, ih hplain hapart fun _ => rfl]
  | literal text rest ih =>
    rw [pendingOutput, substituted, ih hplain hapart.2 fun _ => rfl, hpending hapart.1, List.nil_append]
  | function name opening content closed rest ihContent ihRest =>
    obtain ⟨hname, hclosed, hcontent, hrest⟩ := hplain
    rw [pendingOutput, substituted, ihContent hcontent hapart.1 fun _ => rfl, ihRest hrest hapart.2 nofun, hname,
      hclosed]
    simp [closingText]
  | block kind content closed rest _ ihRest =>
    obtain ⟨hcontent, hrest⟩ := hplain
    rw [pendingOutput, substituted_block hcontent, ihRest hrest hapart.2 nofun, hpending hapart.1, List.nil_append]

/-- the output is never too short, and too long where a slice takes what is pending -/
theorem length_pendingOutput {nesting : List Char} {tokens : Tokens} (htokenized : tokens.Tokenized)
    (hplain : tokens.Plain) {behind : Bool} {pending : List Char}
    (hpending : behind → tokens ≠ .nil → pending ≠ []) :
    (substituted nesting tokens).length ≤ (pendingOutput nesting tokens pending).length ∧
      ((pendingOutput nesting tokens pending).length = (substituted nesting tokens).length → tokens.Apart behind) := by
  induction tokens generalizing behind pending with
  | nil => exact ⟨le_rfl, fun _ => trivial⟩
  | ampersand rest ih =>
    obtain ⟨hle, hapart⟩ := @ih htokenized hplain false [] nofun
    simp only [pendingOutput, substituted, List.length_append]
    exact ⟨by omega, fun h => hapart (by omega)⟩
  | literal text rest ih =>
    obtain ⟨hle, hapart⟩ := @ih htokenized hplain false [] nofun
    simp only [pendingOutput, substituted, List.length_append]
    refine ⟨by omega, fun h => ⟨?_, hapart (by omega)⟩⟩
    by_contra hbehind
    have hpos := List.length_pos_iff.2 (hpending (by simpa using hbehind) nofun)
    omega
  | function name opening content closed rest ihContent ihRest =>
    obtain ⟨-, hcontentTokenized, hrestTokenized⟩ := htokenized
    obtain ⟨hname, hclosed, hcontent, hrest⟩ := hplain
    obtain ⟨hleContent, hapartContent⟩ := @ihContent hcontentTokenized hcontent false [] nofun
    have hrestPending : true → rest ≠ .nil → content.text ++ closingText closed ')' ≠ [] := fun _ _ => by
      simp [closingText, hclosed]
    obtain ⟨hleRest, hapartRest⟩ := ihRest hrestTokenized hrest hrestPending
    have hopening : opening.length = name.length + 1 := by rw [hname]; simp
    have hclosing : (closingText closed ')').length = 1 := by simp [closingText, hclosed]
    simp only [pendingOutput, substituted, List.length_append, List.length_cons]
    exact ⟨by omega, fun h => ⟨hapartContent (by omega), hapartRest (by omega)⟩⟩
  | block kind content closed rest _ ihRest =>
    obtain ⟨hclosed, -, hrestTokenized⟩ := htokenized
    obtain ⟨hcontent, hrest⟩ := hplain
    have hrestPending : true → rest ≠ .nil → content.text ++ closingText closed kind.closing ≠ [] := fun _ hne => by
      simp [closingText, hclosed.resolve_right hne]
    obtain ⟨hleRest, hapartRest⟩ := ihRest hrestTokenized hrest hrestPending
    rw [substituted_block hcontent]
    simp only [pendingOutput, List.length_append, List.length_cons]
    refine ⟨by omega, fun h => ⟨?_, hapartRest (by omega)⟩⟩
    by_contra hbehind
    have hpos := List.length_pos_iff.2 (hpending (by simpa using hbehind) nofun)
    omega

/-- **Every token is copied once, unless a literal or a block comes directly behind a function or a block.** -/
theorem nestingExact_iff {nesting : List Char} {tokens : Tokens} (htokenized : tokens.Tokenized)
    (hplain : tokens.Plain) : NestingExact nesting tokens ↔ tokens.Apart false := by
  have houtput := substituteNesting_eq nesting tokens [] [] []
  simp only [List.nil_append, List.append_nil, List.length_nil, Nat.add_zero] at houtput
  rw [NestingExact, houtput]
  constructor
  · intro h
    exact (@length_pendingOutput nesting tokens htokenized hplain false [] nofun).2 (congrArg List.length h)
  · intro hapart
    exact pendingOutput_eq hplain hapart fun _ => rfl

/-- `.b:is(&)` -/
theorem nestingExact_iff_last :
    NestingExact ['p'] (.literal ['.'] (.literal ['b'] (.literal [':']
      (.function ['i', 's'] ['i', 's', '('] (.ampersand .nil) true .nil)))) :=
  (nestingExact_iff (by simp [Tokens.Tokenized]) (by simp [Tokens.Plain])).2 (by simp [Tokens.Apart])

/-- `&:is(a).b` is written with `a)` twice -/
theorem not_nestingExact :
    ¬∀ (nesting : List Char) (tokens : Tokens), tokens.Tokenized → NestingExact nesting tokens := by
  intro hall
  have h := hall ['p'] (.ampersand (.literal [':'] (.function ['i', 's'] ['i', 's', '('] (.literal ['a'] .nil) true
    (.literal ['.'] (.literal ['b'] .nil))))) (by simp [Tokens.Tokenized])
  rw [NestingExact] at h
  exact absurd h (by decide)

end Render.Css
