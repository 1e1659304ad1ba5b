/-
The editor of the address field (`render-browser/src/editor.rs`).

Positions are offsets in octets. A function is `none` where the source panics: where a text is sliced outside of it or
inside of a character. A history has its newest snapshot first. `char::is_alphanumeric` is the parameter `alphanumeric`;
the clipboard is what it will answer.
-/
import Render.Net.Text

namespace Render.Browser

open Render.Core Render.Net

abbrev splitAt : Chars → ℕ → Option (Chars × Chars) := Offsets.split Char.utf8Size

def historyLimit : ℕ := 100

inductive AddressCommand where
  | undo
  | redo
  | cut
  | copy
  | paste
  | delete
  | selectAll
deriving DecidableEq

/-- what the clipboard answers -/
structure Clipboard where
  readText : Option Chars
  writeText : Chars → Bool

structure EditSnapshot where
  text : Chars
  cursor : ℕ
  anchor : Option ℕ
deriving DecidableEq

structure AddressEditor where
  text : Chars
  cursor : ℕ
  anchor : Option ℕ
  focused : Bool
  preedit : Chars
  pendingImeEnter : Bool
  undoHistory : List EditSnapshot
  redoHistory : List EditSnapshot
deriving DecidableEq

/-! ## Positions -/

/-- the loop of `clamp_boundary` -/
def clampDown (text : Chars) : ℕ → ℕ
  | 0 => 0
  | position + 1 => if (splitAt text (position + 1)).isSome then position + 1 else clampDown text position

def clampBoundary (text : Chars) (position : ℕ) : ℕ := clampDown text (min position text.byteLen)

def previousBoundary (text : Chars) (position : ℕ) : Option ℕ := do
  let (before, _) ← splitAt text position
  return Chars.byteLen before.dropLast

def nextBoundary (text : Chars) (position : ℕ) : Option ℕ := do
  match ← splitAt text position with
  | (_, first :: _ :: _) => return position + first.utf8Size
  | _ => return text.byteLen

inductive CharacterClass where
  | word
  | whitespace
  | punctuation
deriving DecidableEq

def characterClass (alphanumeric : Char → Bool) (character : Char) : CharacterClass :=
  if alphanumeric character || character = '_' then .word
  else if Chars.isWhitespace character then .whitespace
  else .punctuation

/-- `char::is_control` -/
def isControl (character : Char) : Bool := character.toNat < 0x20 ∨ (0x7f ≤ character.toNat ∧ character.toNat ≤ 0x9f)

def ordered (first second : ℕ) : ℕ × ℕ := if first < second then (first, second) else (second, first)

/-- a snapshot goes on a history, and the oldest one leaves a full history -/
def pushBounded (history : List EditSnapshot) (snapshot : EditSnapshot) : List EditSnapshot :=
  snapshot :: if history.length = historyLimit then history.dropLast else history

namespace AddressEditor

def new (text : Chars) : AddressEditor := ⟨text, text.byteLen, none, false, [], false, [], []⟩

def noteImeCompositionEnd (e : AddressEditor) : AddressEditor := { e with pendingImeEnter := true }

def takePendingImeEnter (e : AddressEditor) : Bool × AddressEditor := (e.pendingImeEnter, { e with pendingImeEnter := false })

def selection (e : AddressEditor) : Option (ℕ × ℕ) := do
  let anchor ← e.anchor
  if anchor ≠ e.cursor then some (ordered anchor e.cursor) else none

/-- `none` is the panic of a slice outside of the text -/
def selectedText (e : AddressEditor) : Option (Option Chars) :=
  match e.selection with
  | none => some none
  | some (start, stop) => (Offsets.slice Char.utf8Size e.text start stop).map some

def setText (text : Chars) (e : AddressEditor) : AddressEditor :=
  ⟨text, text.byteLen, none, e.focused, [], false, [], []⟩

def setFocused (focused : Bool) (e : AddressEditor) : AddressEditor :=
  { e with focused, anchor := if focused then e.anchor else none }

def setPreedit (preedit : Chars) (e : AddressEditor) : AddressEditor := { e with preedit }

def selectAll (e : AddressEditor) : AddressEditor := { e with anchor := some 0, cursor := e.text.byteLen }

def beginSelection (selecting : Bool) (e : AddressEditor) : AddressEditor :=
  if selecting && e.anchor.isNone then { e with anchor := some e.cursor } else e

def endSelection (selecting : Bool) (e : AddressEditor) : AddressEditor :=
  if !selecting || e.anchor = some e.cursor then { e with anchor := none } else e

/-- the cursor moves, and a selection starts, goes on or ends -/
def moveTo (selecting : Bool) (position : ℕ) (e : AddressEditor) : AddressEditor :=
  endSelection selecting { beginSelection selecting e with cursor := position }

def placeCursor (position : ℕ) (selecting : Bool) (e : AddressEditor) : AddressEditor :=
  e.moveTo selecting (clampBoundary e.text position)

def beginPointerSelection (position : ℕ) (extend : Bool) (e : AddressEditor) : AddressEditor :=
  let position := clampBoundary e.text position
  let anchor := if extend then if e.anchor.isNone then some e.cursor else e.anchor else some position
  { e with anchor, cursor := position, preedit := [] }

def extendPointerSelection (position : ℕ) (e : AddressEditor) : AddressEditor :=
  let position := clampBoundary e.text position
  { e with anchor := if e.anchor.isNone then some e.cursor else e.anchor, cursor := position, preedit := [] }

def finishPointerSelection (e : AddressEditor) : AddressEditor :=
  if e.anchor = some e.cursor then { e with anchor := none } else e

/-- the loop to the start of a run of characters; its rounds are no more than the octets before it -/
def runStart (alphanumeric : Char → Bool) (text : Chars) (cls : CharacterClass) : ℕ → ℕ → Option ℕ
  | 0, start => some start
  | rounds + 1, start =>
    if start = 0 then some start
    else do
      let previous ← previousBoundary text start
      match (← Offsets.slice Char.utf8Size text previous start).head? with
      | none => some start
      | some character =>
        if characterClass alphanumeric character ≠ cls then some start
        else runStart alphanumeric text cls rounds previous

/-- the loop to the end of a run of characters; its rounds are no more than the octets behind it -/
def runEnd (alphanumeric : Char → Bool) (text : Chars) (cls : CharacterClass) : ℕ → ℕ → Option ℕ
  | 0, stop => some stop
  | rounds + 1, stop =>
    if stop ≥ text.byteLen then some stop
    else do
      let (_, after) ← splitAt text stop
      match after.head? with
      | none => some stop
      | some character =>
        if characterClass alphanumeric character ≠ cls then some stop
        else runEnd alphanumeric text cls rounds (← nextBoundary text stop)

/-- where the character at a position starts, the last one at the end -/
def characterStart (text : Chars) (position : ℕ) : Option ℕ :=
  if position = text.byteLen then previousBoundary text position else some position

def selectWordAt (alphanumeric : Char → Bool) (position : ℕ) (e : AddressEditor) : Option AddressEditor :=
  if e.text.isEmpty then some { e with cursor := 0, anchor := none }
  else do
    let character ← characterStart e.text (clampBoundary e.text position)
    let (_, after) ← splitAt e.text character
    match after.head? with
    | none => some e
    | some c =>
      let cls := characterClass alphanumeric c
      let start ← runStart alphanumeric e.text cls character character
      let next ← nextBoundary e.text character
      let stop ← runEnd alphanumeric e.text cls (e.text.byteLen - next) next
      some { e with anchor := some start, cursor := stop, preedit := [] }

/-! ## Edits -/

def snapshot (e : AddressEditor) : EditSnapshot := ⟨e.text, e.cursor, e.anchor⟩

def restore (snapshot : EditSnapshot) (e : AddressEditor) : AddressEditor :=
  { e with text := snapshot.text, cursor := snapshot.cursor, anchor := snapshot.anchor, preedit := [] }

def recordEdit (before : EditSnapshot) (e : AddressEditor) : AddressEditor :=
  if e.snapshot ≠ before then { e with undoHistory := pushBounded e.undoHistory before, redoHistory := [] } else e

/-- the selection is deleted, if there is one -/
def deleteSelectionRaw (e : AddressEditor) : Option (Bool × AddressEditor) :=
  match e.selection with
  | none => some (false, e)
  | some (start, stop) => do
    let text ← Offsets.replaceRange Char.utf8Size e.text start stop []
    return (true, { e with text, cursor := start, anchor := none })

/-- the selection makes way for a text at the cursor -/
def insertText (value : Chars) (e : AddressEditor) : Option AddressEditor := do
  let (_, e') ← e.deleteSelectionRaw
  let text ← Offsets.replaceRange Char.utf8Size e'.text e'.cursor e'.cursor value
  return recordEdit e.snapshot { e' with text, cursor := e'.cursor + value.byteLen, preedit := [] }

def insert (value : Chars) (e : AddressEditor) : Option AddressEditor :=
  let filtered := value.filter fun character => !isControl character
  if filtered.isEmpty then some e else e.insertText filtered

def insertLineBreak (e : AddressEditor) : Option AddressEditor := e.insertText ['\n']

def backspace (e : AddressEditor) : Option AddressEditor :=
  if e.selection.isNone ∧ e.cursor = 0 then some e
  else do
    let (deleted, e') ← e.deleteSelectionRaw
    if deleted then return recordEdit e.snapshot { e' with preedit := [] }
    else do
      let previous ← previousBoundary e'.text e'.cursor
      let text ← Offsets.replaceRange Char.utf8Size e'.text previous e'.cursor []
      return recordEdit e.snapshot { e' with text, cursor := previous, preedit := [] }

def delete (e : AddressEditor) : Option AddressEditor :=
  if e.selection.isNone ∧ e.cursor = e.text.byteLen then some e
  else do
    let (deleted, e') ← e.deleteSelectionRaw
    if deleted then return recordEdit e.snapshot { e' with preedit := [] }
    else do
      let next ← nextBoundary e'.text e'.cursor
      let text ← Offsets.replaceRange Char.utf8Size e'.text e'.cursor next []
      return recordEdit e.snapshot { e' with text, preedit := [] }

def undo (e : AddressEditor) : Bool × AddressEditor :=
  match e.undoHistory with
  | [] => (false, e)
  | previous :: rest =>
    (true, restore previous { e with undoHistory := rest, redoHistory := pushBounded e.redoHistory e.snapshot })

def redo (e : AddressEditor) : Bool × AddressEditor :=
  match e.redoHistory with
  | [] => (false, e)
  | next :: rest =>
    (true, restore next { e with redoHistory := rest, undoHistory := pushBounded e.undoHistory e.snapshot })

/-! ## Moves and commands -/

def moveLeft (selecting : Bool) (e : AddressEditor) : Option AddressEditor :=
  match selecting, e.selection with
  | false, some (start, _) => some { e with cursor := start, anchor := none }
  | selecting, _ => do return e.moveTo selecting (← previousBoundary e.text e.cursor)

def moveRight (selecting : Bool) (e : AddressEditor) : Option AddressEditor :=
  match selecting, e.selection with
  | false, some (_, stop) => some { e with cursor := stop, anchor := none }
  | selecting, _ => do return e.moveTo selecting (← nextBoundary e.text e.cursor)

def moveHome (selecting : Bool) (e : AddressEditor) : AddressEditor := e.moveTo selecting 0

def moveEnd (selecting : Bool) (e : AddressEditor) : AddressEditor := e.moveTo selecting e.text.byteLen

/-- the selection goes to the clipboard, and is deleted when the clipboard takes it -/
def cut (clipboard : Clipboard) (e : AddressEditor) : Option (Bool × AddressEditor) := do
  match ← e.selectedText with
  | none => return (false, e)
  | some selection =>
    if clipboard.writeText selection then do
      let (_, e') ← e.deleteSelectionRaw
      return (true, recordEdit e.snapshot e')
    else return (false, e)

def execute (command : AddressCommand) (clipboard : Clipboard) (e : AddressEditor) : Option (Bool × AddressEditor) :=
  match command with
  | .undo => some e.undo
  | .redo => some e.redo
  | .copy => do
    match ← e.selectedText with
    | none => return (false, e)
    | some selection => return (clipboard.writeText selection, e)
  | .cut => e.cut clipboard
  | .paste =>
    match clipboard.readText with
    | none => some (false, e)
    | some value => do
      let e' ← e.insert value
      return (e'.snapshot ≠ e.snapshot, e')
  | .delete => if e.selection.isNone then some (false, e) else do return (true, ← e.delete)
  | .selectAll => if e.text.isEmpty then some (false, e) else some (true, e.selectAll)

end AddressEditor

end Render.Browser
