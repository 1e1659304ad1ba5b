/-
The functions of `str` that `render-net` and `render-browser` use, on the characters of a text.
-/
import Mathlib.Tactic
import Render.Core.Offsets

namespace Render.Net

/-- the characters of a text -/
abbrev Chars := List Char

namespace Chars

/-- `str::len`: the octets of a text -/
def byteLen (t : Chars) : ℕ := Core.Offsets.total Char.utf8Size t

def toAsciiLowercase (t : Chars) : Chars := t.map Char.toLower

def eqIgnoreAsciiCase (a b : Chars) : Bool := a.toAsciiLowercase = b.toAsciiLowercase

/-- `trim_matches`: the characters that satisfy the predicate go at both ends -/
def trimMatches (p : Char → Bool) (t : Chars) : Chars := ((t.dropWhile p).reverse.dropWhile p).reverse

/-- `char::is_whitespace` -/
def isWhitespace (c : Char) : Bool :=
  let n := c.toNat
  (0x09 ≤ n ∧ n ≤ 0x0d) ∨ n = 0x20 ∨ n = 0x85 ∨ n = 0xa0 ∨ n = 0x1680 ∨ (0x2000 ≤ n ∧ n ≤ 0x200a) ∨ n = 0x2028 ∨ n = 0x2029 ∨
    n = 0x202f ∨ n = 0x205f ∨ n = 0x3000

def trim (t : Chars) : Chars := t.trimMatches isWhitespace

/-- `split_once` at a character -/
def splitOnce (separator : Char) : Chars → Option (Chars × Chars)
  | [] => none
  | c :: rest => if c = separator then some ([], rest) else (splitOnce separator rest).map fun parts => (c :: parts.1, parts.2)

/-- the number that decimal digits spell -/
def digits : Chars → Option ℕ
  | [] => none
  | t => if t.all Char.isDigit then some (t.foldl (fun n c => n * 10 + (c.toNat - '0'.toNat)) 0) else none

/-- `parse::<u64>` -/
def parseU64 (t : Chars) : Option ℕ := do
  let n ← digits (if t.head? = some '+' then t.tail else t)
  if n < 2 ^ 64 then some n else none

def join (separator : Char) : List Chars → Chars
  | [] => []
  | [t] => t
  | t :: rest => t ++ separator :: join separator rest

/-- `split` up to the first separator -/
theorem head_splitOn (separator : Char) (t : Chars) : (t.splitOn separator).headD [] = t.takeWhile (· ≠ separator) := by
  induction t with
  | nil => rfl
  | cons c t ih =>
    rw [List.splitOn_cons_eq_if_modifyHead]
    split_ifs with hc
    · simp [beq_iff_eq.1 hc]
    · obtain ⟨first, rest, hsplit⟩ := List.exists_cons_of_ne_nil (List.splitOn_ne_nil separator t)
      rw [hsplit] at ih ⊢
      rw [List.takeWhile_cons_of_pos (by simpa using hc), ← ih]
      rfl

/-- what is behind a separator is of the text -/
theorem mem_of_splitOnce {separator c : Char} {t before after : Chars} (h : splitOnce separator t = some (before, after))
    (hc : c ∈ after) : c ∈ t := by
  induction t generalizing before with
  | nil => cases h
  | cons first rest ih =>
    rw [splitOnce] at h
    split_ifs at h
    · cases h
      exact List.mem_cons_of_mem first hc
    · obtain ⟨parts, hparts, heq⟩ := Option.map_eq_some_iff.1 h
      cases heq
      exact List.mem_cons_of_mem first (ih hparts)

end Chars

end Render.Net
