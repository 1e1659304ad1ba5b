/-
`JSON.parse`'s text parser: `JsonParser` over 16-bit code units.

The parser reads code units and not characters, so a lone surrogate in a string is one unit of the value, and a unit
above U+00FF reads as the byte 0xFF wherever a byte is looked for (`byteOf`). It descends recursively; the depth of a
value is the number of arrays and objects it stands in, and a value at depth 129 is refused before anything of it is
read. A primitive keeps the range of its source text.

Model: a cursor is the position and the units from it on. `value` takes the levels that are left, 129 at the
outermost value, so that the recursion is on them; `array` and `object` take the reading of a value one level down.
The loops over elements, members and the units of a string take the length of what is left as fuel. Errors are the
texts of the source. `str::parse::<f64>` is `parseF64`: the documented grammar, with the rounding of a decimal to a
Number as a parameter; the words `inf` and `nan`, which no scanned text holds, are left out.
-/
import Mathlib.Tactic

namespace Render.Js.Json

/-! ## Values -/

/-- the primitive values a JSON text makes -/
inductive Primitive (N : Type) where
  | null
  | boolean (value : Bool)
  | string (units : List ℕ)
  | number (value : N)
deriving DecidableEq, Repr

/-- `JsonNode`: a primitive keeps the range of its source text -/
inductive JsonNode (N : Type) where
  | primitive (value : Primitive N) (start stop : ℕ)
  | array (elements : List (JsonNode N))
  | object (members : List (List ℕ × JsonNode N))
deriving Repr

/-! ## The cursor -/

/-- `JsonParser`: the position, and the input from it on -/
structure Cursor where
  position : ℕ
  rest : List ℕ
deriving DecidableEq, Repr

/-- `NOT_ASCII` -/
def notAscii : ℕ := 0xFF

/-- what a code unit reads as in the byte checks -/
def byteOf (unit : ℕ) : ℕ := if unit < 0x100 then unit else notAscii

def isDigit (byte : ℕ) : Bool := 0x30 ≤ byte && byte ≤ 0x39

/-- a space, a line feed, a carriage return or a tab -/
def isBlank (byte : ℕ) : Bool := byte = 0x20 || byte = 0x0A || byte = 0x0D || byte = 0x09

/-- `hex_digit` -/
def hexDigit (unit : ℕ) : Option ℕ :=
  if 0x30 ≤ unit ∧ unit ≤ 0x39 then some (unit - 0x30)
  else if 0x41 ≤ unit ∧ unit ≤ 0x46 then some (unit - 0x37)
  else if 0x61 ≤ unit ∧ unit ≤ 0x66 then some (unit - 0x57)
  else none

namespace Cursor

/-- `JsonParser::peek` -/
def peek (c : Cursor) : Option ℕ := c.rest.head?.map byteOf

/-- `position += 1` -/
def advance (c : Cursor) : Cursor := ⟨c.position + 1, c.rest.tail⟩

/-- `JsonParser::consume`: nothing if the next byte is another -/
def consume (expected : ℕ) (c : Cursor) : Option Cursor := if c.peek = some expected then some c.advance else none

/-- a loop that steps over bytes of one kind -/
def skipWhile (kind : ℕ → Bool) (c : Cursor) : Cursor :=
  ⟨c.position + (c.rest.takeWhile fun unit => kind (byteOf unit)).length,
    c.rest.dropWhile fun unit => kind (byteOf unit)⟩

/-- `JsonParser::whitespace` -/
def whitespace (c : Cursor) : Cursor := c.skipWhile isBlank

/-- `JsonParser::error` -/
def error (message : String) (c : Cursor) : String := message ++ " at code unit " ++ toString c.position

/-- `JsonParser::literal` -/
def literal (word : List ℕ) (c : Cursor) : Except String Cursor :=
  if c.rest.take word.length = word then .ok ⟨c.position + word.length, c.rest.drop word.length⟩
  else .error (c.error "invalid JSON literal")

end Cursor

/-! ## Strings -/

/-- so many hexadecimal digits behind those that gave a value: the loop of `hex_escape` -/
def hexDigits : ℕ → ℕ → Cursor → Except String (ℕ × Cursor)
  | 0, value, c => .ok (value, c)
  | count + 1, value, c =>
    match c.rest.head?.bind hexDigit with
    | none => .error (c.error "invalid unicode escape")
    | some digit => hexDigits count (value * 16 + digit) c.advance

/-- `JsonParser::hex_escape` -/
def hexEscape (c : Cursor) : Except String (ℕ × Cursor) := hexDigits 4 0 c

/-- the escapes of one letter -/
def simpleEscape (escape : ℕ) : Option ℕ :=
  if escape = 0x22 ∨ escape = 0x5C ∨ escape = 0x2F then some escape
  else if escape = 0x62 then some 0x08
  else if escape = 0x66 then some 0x0C
  else if escape = 0x6E then some 0x0A
  else if escape = 0x72 then some 0x0D
  else if escape = 0x74 then some 0x09
  else none

/-- what follows a backslash, as one code unit -/
def escaped (c : Cursor) : Except String (ℕ × Cursor) :=
  match c.rest with
  | [] => .error (c.error "unterminated JSON escape")
  | escape :: _ =>
    match simpleEscape escape with
    | some unit => .ok (unit, c.advance)
    | none => if escape = 0x75 then hexEscape c.advance else .error (c.advance.error "invalid JSON escape")

/-- the units of a string behind those already read, up to the closing quote -/
def stringUnits : ℕ → List ℕ → Cursor → Except String (List ℕ × Cursor)
  | 0, _, c => .error (c.error "unterminated JSON string")
  | fuel + 1, output, c =>
    match c.rest with
    | [] => .error (c.error "unterminated JSON string")
    | unit :: _ =>
      if unit = 0x22 then .ok (output, c.advance)
      else if unit = 0x5C then do
        let (unit, c) ← escaped c.advance
        stringUnits fuel (output ++ [unit]) c
      else if unit < 0x20 then .error (c.advance.error "control character in JSON string")
      else stringUnits fuel (output ++ [unit]) c.advance

/-- `JsonParser::string` -/
def string (c : Cursor) : Except String (List ℕ × Cursor) :=
  match c.consume 0x22 with
  | none => .error (c.error "expected JSON string")
  | some c => stringUnits (c.rest.length + 1) [] c

/-! ## Numbers -/

/-- the number a run of decimal digits writes -/
def digitsValue (digits : List ℕ) : ℕ := digits.foldl (fun value digit => value * 10 + (digit - 0x30)) 0

/-- a sign, if there is one: whether it is a minus, and what follows -/
def signOf : List ℕ → Bool × List ℕ
  | 0x2D :: rest => (true, rest)
  | 0x2B :: rest => (false, rest)
  | rest => (false, rest)

/-- the exponent at the end of a decimal; none is zero -/
def exponentOf : List ℕ → Option ℤ
  | [] => some 0
  | letter :: rest =>
    if (letter = 0x65 ∨ letter = 0x45) ∧ (signOf rest).2 ≠ [] ∧ (signOf rest).2.all isDigit then
      some (if (signOf rest).1 then -(digitsValue (signOf rest).2 : ℤ) else digitsValue (signOf rest).2)
    else none

/-- the digits of a fraction, and what follows them -/
def fractionOf : List ℕ → List ℕ × List ℕ
  | 0x2E :: rest => (rest.takeWhile isDigit, rest.dropWhile isDigit)
  | rest => ([], rest)

/-- `str::parse::<f64>`: a decimal, rounded -/
def parseF64 {N : Type} (round : Bool → ℚ → N) (text : List ℕ) : Option N :=
  let unsigned := (signOf text).2
  let whole := unsigned.takeWhile isDigit
  let fraction := fractionOf (unsigned.dropWhile isDigit)
  if whole = [] ∧ fraction.1 = [] then none
  else (exponentOf fraction.2).map fun exponent =>
    round (signOf text).1 (digitsValue (whole ++ fraction.1) * (10 : ℚ) ^ (exponent - (fraction.1.length : ℤ)))

/-- a zero, or digits of which the first is none -/
def numberWhole (c : Cursor) : Except String Cursor :=
  match c.peek with
  | none => .error (c.error "invalid JSON number")
  | some byte =>
    if byte = 0x30 then .ok c.advance
    else if 0x31 ≤ byte ∧ byte ≤ 0x39 then .ok (c.skipWhile isDigit)
    else .error (c.error "invalid JSON number")

/-- a point and the digits after it, if there is a point -/
def numberFraction (c : Cursor) : Except String Cursor :=
  match c.consume 0x2E with
  | none => .ok c
  | some c =>
    if (c.skipWhile isDigit).position = c.position then .error (c.error "invalid JSON fraction")
    else .ok (c.skipWhile isDigit)

/-- a sign of either kind, stepped over -/
def skipSign (c : Cursor) : Cursor := if c.peek = some 0x2B ∨ c.peek = some 0x2D then c.advance else c

/-- an exponent, if there is one -/
def numberExponent (c : Cursor) : Except String Cursor :=
  if c.peek = some 0x65 ∨ c.peek = some 0x45 then
    let digits := skipSign c.advance
    if (digits.skipWhile isDigit).position = digits.position then .error (digits.error "invalid JSON exponent")
    else .ok (digits.skipWhile isDigit)
  else .ok c

/-- where a number ends -/
def numberEnd (c : Cursor) : Except String Cursor := do
  let c ← numberWhole ((c.consume 0x2D).getD c)
  let c ← numberFraction c
  numberExponent c

/-- `JsonParser::number` -/
def number {N : Type} (round : Bool → ℚ → N) (c : Cursor) : Except String (JsonNode N × Cursor) := do
  let stop ← numberEnd c
  let text := (c.rest.take (stop.position - c.position)).map fun unit => if unit < 0x100 then unit else 0x3F
  match parseF64 round text with
  | none => .error "invalid JSON number"
  | some value => .ok (.primitive (.number value) c.position stop.position, stop)

/-! ## Arrays, objects, values -/

section Containers

variable {N : Type} (value : Cursor → Except String (JsonNode N × Cursor))

/-- the loop of `JsonParser::array`, behind the elements already read -/
def elements : ℕ → List (JsonNode N) → Cursor → Except String (JsonNode N × Cursor)
  | 0, _, c => .error (c.error "expected ',' or ']'")
  | fuel + 1, values, c => do
    let (node, c) ← value c
    let c := c.whitespace
    match c.consume 0x5D, c.consume 0x2C with
    | some c, _ => .ok (.array (values ++ [node]), c)
    | none, some c => elements fuel (values ++ [node]) c
    | none, none => .error (c.error "expected ',' or ']'")

/-- `JsonParser::array`, on the bracket -/
def array (c : Cursor) : Except String (JsonNode N × Cursor) :=
  let c := c.advance.whitespace
  match c.consume 0x5D with
  | some c => .ok (.array [], c)
  | none => elements value (c.rest.length + 1) [] c

/-- a name and the colon after it -/
def name (c : Cursor) : Except String (List ℕ × Cursor) := do
  let c := c.whitespace
  if c.peek = some 0x22 then
    let (name, c) ← string c
    match c.whitespace.consume 0x3A with
    | some c => .ok (name, c)
    | none => .error (c.whitespace.error "expected ':' after object key")
  else .error (c.error "object keys must be strings")

/-- the loop of `JsonParser::object`, behind the members already read -/
def members : ℕ → List (List ℕ × JsonNode N) → Cursor → Except String (JsonNode N × Cursor)
  | 0, _, c => .error (c.error "expected ',' or '\x7d'")
  | fuel + 1, properties, c => do
    let (name, c) ← name c
    let (node, c) ← value c
    let c := c.whitespace
    match c.consume 0x7D, c.consume 0x2C with
    | some c, _ => .ok (.object (properties ++ [(name, node)]), c)
    | none, some c => members fuel (properties ++ [(name, node)]) c
    | none, none => .error (c.error "expected ',' or '\x7d'")

/-- `JsonParser::object`, on the brace -/
def object (c : Cursor) : Except String (JsonNode N × Cursor) :=
  let c := c.advance.whitespace
  match c.consume 0x7D with
  | some c => .ok (.object [], c)
  | none => members value (c.rest.length + 1) [] c

end Containers

/-- a word of the grammar, as the primitive it stands for -/
def word {N : Type} (text : List ℕ) (value : Primitive N) (c : Cursor) : Except String (JsonNode N × Cursor) := do
  let stop ← c.literal text
  .ok (.primitive value c.position stop.position, stop)

/-- `null` -/
def nullWord : List ℕ := [0x6E, 0x75, 0x6C, 0x6C]

/-- `true` -/
def trueWord : List ℕ := [0x74, 0x72, 0x75, 0x65]

/-- `false` -/
def falseWord : List ℕ := [0x66, 0x61, 0x6C, 0x73, 0x65]

/-- a value that begins at the cursor, one of its own readings for each first byte -/
def valueAt {N : Type} (round : Bool → ℚ → N) (inner : Cursor → Except String (JsonNode N × Cursor)) (c : Cursor) :
    Except String (JsonNode N × Cursor) :=
  match c.peek with
  | none => .error (c.error "expected a JSON value")
  | some byte =>
    if byte = 0x6E then word nullWord .null c
    else if byte = 0x74 then word trueWord (.boolean true) c
    else if byte = 0x66 then word falseWord (.boolean false) c
    else if byte = 0x22 then do
      let (units, stop) ← string c
      .ok (.primitive (.string units) c.position stop.position, stop)
    else if byte = 0x5B then array inner c
    else if byte = 0x7B then object inner c
    else if byte = 0x2D ∨ isDigit byte then number round c
    else .error (c.error "expected a JSON value")

/-- `JsonParser::value`, with so many levels left -/
def value {N : Type} (round : Bool → ℚ → N) : ℕ → Cursor → Except String (JsonNode N × Cursor)
  | 0, _ => .error "JSON nesting depth exceeded"
  | levels + 1, c => valueAt round (value round levels) c.whitespace

/-- the depths a value may stand at: `depth > 128` is refused -/
def depthLimit : ℕ := 128

/-- `JsonParser::parse` -/
def parse {N : Type} (round : Bool → ℚ → N) (input : List ℕ) : Except String (JsonNode N) := do
  let (node, c) ← value round (depthLimit + 1) ⟨0, input⟩
  if c.whitespace.rest = [] then .ok node else .error "unexpected trailing JSON input"

end Render.Js.Json
